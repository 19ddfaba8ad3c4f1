import GrammarEngine.Archive.EntryName
import GrammarEngine.Archive.Zip
import GrammarEngine.Container.Pack
import GrammarEngine.Json.Reader

/-!
# Restoring bundle sets

A set is restored from its manifest and the entries named there. The version is checked first, then
every unit against its number, size and digest; sources must be texts. Entries are looked up by
their clean names, payloads and sources only directly below their directories. What was put together
must be a bundle set, and its units must be where a naming scheme puts them.
-/
namespace GrammarEngine

/-- In what way a manifest contradicts itself or its entries. -/
inductive ManifestFlaw where
  | scatteredIds (expected found : Nat)
  | sourceNotText (bundle : String)
deriving Repr, DecidableEq

def ManifestFlaw.message : ManifestFlaw → String
  | scatteredIds expected found =>
    s!"unit ids are not contiguous: expected {expected}, found {found}"
  | sourceNotText bundle => s!"source of {bundle} is not UTF-8"

inductive RestoreFault where
  | incompatibleVersion (found : Nat)
  | missingVersion
  | missingEntry (name : String)
  | invalidEntry (raw : String) (fault : EntryName.Fault)
  | checksumMismatch (unit : String)
  | invalidManifest (flaw : ManifestFlaw)
  | inconsistent (fault : BundleError)
  | undecodableManifest
  | archive
  | unreadable (reason : String)
deriving Repr, DecidableEq

namespace RestoreFault

def message : RestoreFault → String
  | incompatibleVersion found =>
    s!"Bundle format version {found} is not supported (expected {formatVersion})"
  | missingVersion => "Bundle has no format version"
  | missingEntry name => s!"Entry {name} not found in bundle"
  | invalidEntry raw fault => s!"Invalid entry name {raw}: {fault.message}"
  | checksumMismatch unit => s!"Checksum mismatch for unit {unit}"
  | invalidManifest flaw => s!"Manifest is inconsistent: {flaw.message}"
  | inconsistent fault => s!"Bundle contents are inconsistent: {fault.message}"
  | undecodableManifest => "Failed to decode manifest"
  | archive => s!"Failed to read archive: {ArchiveFault.malformed.message}"
  | unreadable reason => s!"I/O error while restoring bundle: {reason}"

def ofArchive : ArchiveFault → RestoreFault
  | .malformed => archive
  | .damaged => unreadable ArchiveFault.damaged.message

end RestoreFault

namespace Container

/-- The contents of an entry by its clean name. -/
abbrev EntryReader := String → Except RestoreFault (List UInt8)

/-- Reading the entries of an archive. -/
def ofArchive (a : Archive) : EntryReader := fun name =>
  match a.read? name with
  | none => .error (.missingEntry name)
  | some contents => contents.mapError .ofArchive

def clean (raw : String) (name : Except EntryName.Fault String) : Except RestoreFault String :=
  name.mapError (.invalidEntry raw)

/-- The contents of an entry directly below a directory. -/
def readIn (read : EntryReader) (raw dir : String) : Except RestoreFault (List UInt8) := do
  read (← clean raw (EntryName.sanitizeIn raw dir))

/-! ## The manifest -/

/-- The version of a manifest document. -/
def version? (j : Json) : Option Nat :=
  (j.field? Manifest.versionField).bind (Json.natUpTo? 0xffffffffffffffff)

/-- The manifest in a document, whose version is checked before anything else is looked at. A
version beyond thirty-two bits is reported as the greatest one. -/
def decodeManifest (j : Json) : Except RestoreFault Manifest :=
  match version? j with
  | none => .error .missingVersion
  | some found =>
    if found == formatVersion then
      match Manifest.ofJson? j with
      | some m => .ok m
      | none => .error .undecodableManifest
    else .error (.incompatibleVersion (min found 0xffffffff))

/-- The document that bytes are the text of. -/
def readDocument? (raw : List UInt8) : Option Json := (Text.ofUtf8? raw).bind Json.readDistinct?

def readManifest (read : EntryReader) (document? : List UInt8 → Option Json := readDocument?) :
    Except RestoreFault Manifest := do
  let raw ← read (← clean manifestEntry (EntryName.sanitize manifestEntry))
  match document? raw with
  | some j => decodeManifest j
  | none => throw .undecodableManifest

/-! ## Units and bundles -/

/-- The unit of a record that stands at an index. -/
def restoreUnit (read : EntryReader) (r : UnitRecord × Nat) : Except RestoreFault CompiledUnit := do
  if r.1.id != r.2 then throw (.invalidManifest (.scatteredIds r.2 r.1.id))
  let payload ← readIn read r.1.entry unitsDir
  if payload.length != r.1.size || Sha256.hexDigest payload != r.1.sha256 then
    throw (.checksumMismatch r.1.name)
  return ⟨r.1.name, payload, r.1.inner⟩

def restoreBundle (read : EntryReader) (r : BundleRecord) : Except RestoreFault Bundle := do
  let raw ← readIn read r.sourceEntry sourcesDir
  match Text.ofUtf8? raw with
  | some text => return ⟨⟨r.primary, text, r.origin⟩, r.primaryUnit, r.innerUnits⟩
  | none => throw (.invalidManifest (.sourceNotText r.primary))

/-- The set that a manifest and its entries describe. -/
def assemble (read : EntryReader) (k : NamingScheme) (m : Manifest) :
    Except RestoreFault BundleSet := do
  let units ← m.units.zipIdx.mapM (restoreUnit read)
  let bundles ← m.bundles.mapM (restoreBundle read)
  let s ← (BundleSet.ofParts units bundles).mapError .inconsistent
  (s.verify k).mapError .inconsistent
  return s

/-- The set and the metadata in a container. -/
def restoreWith (read : EntryReader) (k : NamingScheme)
    (document? : List UInt8 → Option Json := readDocument?) :
    Except RestoreFault (BundleSet × Metadata) := do
  let m ← readManifest read document?
  let s ← assemble read k m
  return (s, m.metadata)

/-- What containers are written and read with: archives, which are written from entries and give
access to them, and documents, which are printed and read. -/
structure Library where
  write : List (String × List UInt8) → List UInt8
  access : List UInt8 → Except RestoreFault EntryReader
  print : Json → String
  document? : List UInt8 → Option Json

/-- Plain archives and indented documents. -/
def Library.plain : Library where
  write := Archive.write
  access bytes := ((Archive.read bytes).mapError .ofArchive).map ofArchive
  print := Json.print
  document? := readDocument?

end Container

/-- A container in its stored form. -/
structure PersistedBundle where
  bytes : List UInt8
deriving Repr, DecidableEq

namespace PersistedBundle

/-- Store a set with its metadata. -/
def store (s : BundleSet) (metadata : Metadata) (createdAt : String)
    (l : Container.Library := .plain) : PersistedBundle :=
  ⟨l.write (Container.pack s metadata createdAt l.print)⟩

def manifest (p : PersistedBundle) (l : Container.Library := .plain) :
    Except RestoreFault Manifest := do
  Container.readManifest (← l.access p.bytes) l.document?

/-- The set and the metadata that were stored. -/
def restore (p : PersistedBundle) (k : NamingScheme) (l : Container.Library := .plain) :
    Except RestoreFault (BundleSet × Metadata) := do
  Container.restoreWith (← l.access p.bytes) k l.document?

end PersistedBundle

end GrammarEngine

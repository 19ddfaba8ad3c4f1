import GrammarEngine.Bundle.Basic
import GrammarEngine.Container.Timestamp
import GrammarEngine.Json.Basic
import GrammarEngine.Stream

/-!
# Manifests

The manifest of a container says which recognizer it holds and lists its bundles and units, with the
entries where sources and payloads are stored. A unit is known by its number; its size and the
digest of its payload are recorded with it.
-/
namespace GrammarEngine

/-- What is recorded of a recognizer next to its units. -/
structure Metadata where
  grammarName : String := ""
  grammarFiles : List String := []
  lexer : Option String := none
  parser : Option String := none
  entryRule : Option String := none
  folding : CaseFolding := .none
deriving Repr, DecidableEq, Inhabited

/-- A bundle: the name and origin of its source, the entry of its text, and its units. -/
structure BundleRecord where
  primary : String
  origin : UnitOrigin
  sourceEntry : String
  primaryUnit : Nat
  innerUnits : List Nat
deriving Repr, DecidableEq

structure UnitRecord where
  id : Nat
  name : String
  inner : Bool
  size : Nat
  sha256 : String
  entry : String
deriving Repr, DecidableEq

structure Manifest where
  version : Nat
  createdAt : String
  generator : String
  metadata : Metadata
  bundles : List BundleRecord
  units : List UnitRecord
deriving Repr, DecidableEq

/-- The version that is written and the only one that is read. -/
def formatVersion : Nat := 1

/-- What manifests name as their maker. -/
def generatorName : String := "ingram v0.1.0"

def Manifest.totalSize (m : Manifest) : Nat := m.units.foldl (fun size u => size + u.size) 0

/-! ## As documents -/

namespace Metadata

def toJson (m : Metadata) : Json :=
  .object [("grammar_name", .text m.grammarName),
    ("grammar_files", .list (m.grammarFiles.map .text)),
    ("lexer", .optional .text m.lexer), ("parser", .optional .text m.parser),
    ("entry_rule", .optional .text m.entryRule), ("case_folding", .text m.folding.name)]

def names : List String :=
  ["grammar_name", "grammar_files", "lexer", "parser", "entry_rule", "case_folding"]

def folding? (j : Json) : Option CaseFolding := j.tag?.bind CaseFolding.ofName?

/-- A name that may be missing or `null`. -/
def name? (fields : List (String × Json)) (key : String) : Option (Option String) :=
  match Json.lookup? key fields with
  | none => some none
  | some j => j.orNull? Json.text?

/-- The folding may be left out, and names may. -/
def ofJson? (j : Json) : Option Metadata := do
  let fields ← j.record? names 5
  return {
    grammarName := ← (← Json.lookup? "grammar_name" fields).text?
    grammarFiles := ← (← Json.lookup? "grammar_files" fields).listOf? Json.text?
    lexer := ← name? fields "lexer"
    parser := ← name? fields "parser"
    entryRule := ← name? fields "entry_rule"
    folding := ← match Json.lookup? "case_folding" fields with
      | none => some .none
      | some j => folding? j }

end Metadata

/-- The numbers of units are words of thirty-two bits. -/
def unitNumber? : Json → Option Nat := Json.natUpTo? 0xffffffff

namespace BundleRecord

def toJson (b : BundleRecord) : Json :=
  .object [("primary", .text b.primary), ("origin", .text b.origin.name),
    ("source_entry", .text b.sourceEntry), ("primary_unit", .nat b.primaryUnit),
    ("inner_units", .list (b.innerUnits.map .nat))]

def names : List String := ["primary", "origin", "source_entry", "primary_unit", "inner_units"]

def origin? (j : Json) : Option UnitOrigin :=
  match j.tag? with
  | some "generated" => some .generated
  | some "utility" => some .utility
  | _ => none

def ofJson? (j : Json) : Option BundleRecord := do
  let fields ← j.record? names 5
  return {
    primary := ← (← Json.lookup? "primary" fields).text?
    origin := ← origin? (← Json.lookup? "origin" fields)
    sourceEntry := ← (← Json.lookup? "source_entry" fields).text?
    primaryUnit := ← unitNumber? (← Json.lookup? "primary_unit" fields)
    innerUnits := ← (← Json.lookup? "inner_units" fields).listOf? unitNumber? }

end BundleRecord

namespace UnitRecord

def toJson (u : UnitRecord) : Json :=
  .object [("id", .nat u.id), ("name", .text u.name), ("inner", .bool u.inner),
    ("size", .nat u.size), ("sha256", .text u.sha256), ("entry", .text u.entry)]

def names : List String := ["id", "name", "inner", "size", "sha256", "entry"]

def ofJson? (j : Json) : Option UnitRecord := do
  let fields ← j.record? names 6
  return {
    id := ← unitNumber? (← Json.lookup? "id" fields)
    name := ← (← Json.lookup? "name" fields).text?
    inner := ← (← Json.lookup? "inner" fields).bool?
    size := ← (← Json.lookup? "size" fields).natUpTo? 0xffffffffffffffff
    sha256 := ← (← Json.lookup? "sha256" fields).text?
    entry := ← (← Json.lookup? "entry" fields).text? }

end UnitRecord

namespace Manifest

def versionField : String := "format_version"

def toJson (m : Manifest) : Json :=
  .object [(versionField, .nat m.version), ("created_at", .text m.createdAt),
    ("generator", .text m.generator), ("metadata", m.metadata.toJson),
    ("bundles", .list (m.bundles.map BundleRecord.toJson)),
    ("units", .list (m.units.map UnitRecord.toJson))]

def names : List String :=
  [versionField, "created_at", "generator", "metadata", "bundles", "units"]

def time? (j : Json) : Option String :=
  j.text?.bind fun s => if Timestamp.isValid s then some s else none

def ofJson? (j : Json) : Option Manifest := do
  let fields ← j.record? names 6
  return {
    version := ← unitNumber? (← Json.lookup? versionField fields)
    createdAt := ← time? (← Json.lookup? "created_at" fields)
    generator := ← (← Json.lookup? "generator" fields).text?
    metadata := ← Metadata.ofJson? (← Json.lookup? "metadata" fields)
    bundles := ← (← Json.lookup? "bundles" fields).listOf? BundleRecord.ofJson?
    units := ← (← Json.lookup? "units" fields).listOf? UnitRecord.ofJson? }

end Manifest

end GrammarEngine

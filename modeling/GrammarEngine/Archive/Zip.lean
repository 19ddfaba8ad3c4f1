import GrammarEngine.Archive.Directory
import GrammarEngine.Archive.Inflate

/-!
# Archives

An archive is a list of named entries. In its stored form every entry follows a local header; a
central directory with a header for each entry and a closing record stand at the end. Entries are
written as they are; entries that another writer has compressed are read too.

The directory is checked when an archive is opened, the contents of an entry when they are asked
for. Of several entries of one name the last one counts.
-/
namespace GrammarEngine

/-- Why an archive or an entry of it cannot be read: its records do not fit together, or the
contents are not what the records promise. -/
inductive ArchiveFault where
  | malformed
  | damaged
deriving Repr, DecidableEq

def ArchiveFault.message : ArchiveFault → String
  | malformed => "invalid archive"
  | damaged => "Invalid checksum"

/-- Entries in the order in which they are stored, with what reading them gives. -/
structure Archive where
  entries : List (String × Except ArchiveFault (List UInt8))

namespace Archive

def ofContents (contents : List (String × List UInt8)) : Archive :=
  ⟨contents.map fun e => (e.1, .ok e.2)⟩

def names (a : Archive) : List String := a.entries.map Prod.fst

/-- What reading the entry of a name gives. -/
def read? (a : Archive) (name : String) : Option (Except ArchiveFault (List UInt8)) :=
  (a.entries.reverse.find? fun e => e.1 == name).map Prod.snd

/-! ## Writing -/

/-- The part that a local header and a directory header have in common: the version and flags of
UTF-8 names, no compression, no time, the checksum, both sizes and the length of the name. -/
def commonHeader (name contents : List UInt8) : List UInt8 :=
  littleEndian 2 20 ++ littleEndian 2 0x0800 ++ littleEndian 2 0 ++ littleEndian 2 0 ++
    littleEndian 2 0x0021 ++ littleEndian 4 (Checksum.crc32 contents).toNat ++
    littleEndian 4 contents.length ++ littleEndian 4 contents.length ++
    littleEndian 2 name.length ++ littleEndian 2 0

def localRecord (name contents : List UInt8) : List UInt8 :=
  littleEndian 4 localMark ++ commonHeader name contents ++ name ++ contents

def directoryRecord (name contents : List UInt8) (start : Nat) : List UInt8 :=
  littleEndian 4 directoryMark ++ littleEndian 2 20 ++ commonHeader name contents ++
    littleEndian 2 0 ++ littleEndian 2 0 ++ littleEndian 2 0 ++ littleEndian 4 0 ++
    littleEndian 4 start ++ name

/-- The local records and the directory records of entries, the first of which starts at an
offset. -/
def layout : Nat → List (String × List UInt8) → List UInt8 × List UInt8
  | _, [] => ([], [])
  | start, (name, contents) :: rest =>
    let name := Text.utf8 name
    let first := localRecord name contents
    let (records, directory) := layout (start + first.length) rest
    (first ++ records, directoryRecord name contents start ++ directory)

def endRecord (count size start : Nat) : List UInt8 :=
  littleEndian 4 endMark ++ littleEndian 4 0 ++ littleEndian 2 count ++ littleEndian 2 count ++
    littleEndian 4 size ++ littleEndian 4 start ++ littleEndian 2 0

/-- The stored form of entries. -/
def write (contents : List (String × List UInt8)) : List UInt8 :=
  let (records, directory) := layout 0 contents
  records ++ directory ++ endRecord contents.length directory.length records.length

/-! ## Reading -/

/-- What a stored sequence stands for under a method: the bytes themselves or compressed ones. -/
def plain (method : Nat) (stored : List UInt8) : Except ArchiveFault (List UInt8) :=
  match method with
  | 0 => .ok stored
  | 8 => (Inflate.decode? stored).elim (.error .damaged) .ok
  | _ => .error .malformed

/-- The contents of an entry. They must not be encrypted, and must have the checksum of the header.
What the archive is too short for is left out. -/
def contents (bytes : Array UInt8) (h : Header) : Except ArchiveFault (List UInt8) := do
  if h.flags.testBit 0 || h.sealed then throw .malformed
  let some start := contentsStart? bytes h.start | throw .malformed
  let plain ← plain h.method (bytes.extract start (start + h.storedSize)).toList
  if (Checksum.crc32 plain).toNat == h.checksum then return plain else throw .damaged

/-- The archive of its stored form. -/
def read (stored : List UInt8) : Except ArchiveFault Archive :=
  let bytes := stored.toArray
  match headers? bytes with
  | none => .error .malformed
  | some hs => .ok ⟨hs.map fun h => (h.name, contents bytes h)⟩

end Archive

end GrammarEngine

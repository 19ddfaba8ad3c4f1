import GrammarEngine.Archive.Bytes
import GrammarEngine.Text.Utf8

/-!
# Headers of entries

The directory of an archive has a header for every entry: its name and a comment, how its contents
are stored, and where. Extra fields behind the name add to a header. They hold sizes and offsets
of sixty-four bits, times, encryption, and names and comments in UTF-8; fields of other kinds are
skipped. A field that contradicts itself makes the header unreadable. Where the bytes end inside a
field, what has been read of it counts.
-/
namespace GrammarEngine.Archive

/-- The header of an entry. Names and comments are kept as bytes too, for the checksums of their
replacements. -/
structure Header where
  nameBytes : List UInt8
  name : String
  comment : List UInt8
  flags : Nat
  method : Nat
  checksum : Nat
  storedSize : Nat
  plainSize : Nat
  start : Nat
  sealed : Bool := false
deriving Repr, DecidableEq

/-- The text of a name or a comment, by the flag of UTF-8. -/
def fieldText (flags : Nat) (bytes : List UInt8) : String :=
  if flags.testBit 11 then Text.ofUtf8Lossy bytes else CodePage.decode bytes

/-! ## Extra fields -/

namespace Extra

/-- The bytes of extra fields that are left, and the header with what was read of them. -/
structure State where
  rest : List UInt8
  header : Header
deriving Repr

/-- Readers of extra fields. What a header has got before a reader stops is kept. -/
abbrev Reader := EStateM Halt State

def bytes (count : Nat) : Reader (List UInt8) := fun s =>
  if count ≤ s.rest.length then .ok (s.rest.take count) { s with rest := s.rest.drop count }
  else .error .exhausted s

def number (count : Nat) : Reader Nat := return ofLittleEndian (← bytes count)

def skip (count : Nat) : Reader Unit := do
  let _ ← bytes count

/-- Refuse a field unless a condition holds. -/
def require (condition : Bool) : Reader Unit := if condition then return else throw .invalid

def header : Reader Header := return (← get).header

def change (f : Header → Header) : Reader Unit := modify fun s => { s with header := f s.header }

/-! ### Sizes and offsets -/

/-- What a size or an offset is where sixty-four bits are needed for it. -/
def narrowLimit : Nat := 0xffffffff

/-- Read a wide number, if the field holds all of them or the narrow number says that it is there,
and answer how many bytes it takes. -/
def wideNumber (length narrow : Nat) (put : Nat → Header → Header) : Reader Nat :=
  if 24 ≤ length || narrow == narrowLimit then do
    change (put (← number 8))
    return 8
  else return 0

/-- Sizes and the offset in sixty-four bits. They must not take more bytes than the field has. -/
def wideNumbers (length : Nat) : Reader Unit := do
  let plain ← wideNumber length (← header).plainSize fun n h => { h with plainSize := n }
  let stored ← wideNumber length (← header).storedSize fun n h => { h with storedSize := n }
  let start ← wideNumber length (← header).start fun n h => { h with start := n }
  require (plain + stored + start ≤ length)
  skip (length - (plain + stored + start))

/-! ### Encryption -/

/-- How the contents are encrypted, and the method below. -/
def encryption (length : Nat) : Reader Unit := do
  require (length == 7)
  let version ← number 2
  let vendor ← number 2
  let strength ← number 1
  let method ← number 2
  require (vendor == 0x4541 && 1 ≤ version && version ≤ 2 && 1 ≤ strength && strength ≤ 3)
  change fun h => { h with method, sealed := true }

/-! ### Times -/

/-- Three times that are counted in tenths of microseconds. -/
def fineTimes (length : Nat) : Reader Unit := do
  require (length == 32)
  skip 4
  require ((← number 2) == 1)
  require ((← number 2) == 24)
  skip 24

/-- Times in seconds behind a byte with a bit for each of them. A single time may stand behind any
such byte. -/
def times (length : Nat) : Reader Unit := do
  require (length != 0)
  let which ← number 1
  require (length == 5 || length == 1 + 4 * (List.range 8).countP which.testBit)
  skip (length - 1)

/-! ### Names and comments -/

/-- The replacement of a text, behind a version and the checksum of what it replaces. -/
def replacement (length : Nat) (old : List UInt8) : Reader (List UInt8) := do
  skip 1
  let checksum ← number 4
  require (5 ≤ length)
  let new ← bytes (length - 5)
  require (checksum == (Checksum.crc32 old).toNat)
  return new

def newName (length : Nat) : Reader Unit := do
  let nameBytes ← replacement length (← header).nameBytes
  match Text.ofUtf8? nameBytes with
  | some name => change fun h => { h with nameBytes, name }
  | none => throw .invalid

def newComment (length : Nat) : Reader Unit := do
  let comment ← replacement length (← header).comment
  require (Text.ofUtf8? comment).isSome
  change fun h => { h with comment }

/-! ### All of them -/

/-- One field: its kind, its length, and its contents. -/
def field : Reader Unit := do
  let kind ← number 2
  let length ← number 2
  match kind with
  | 0x0001 => wideNumbers length
  | 0x000a => fineTimes length
  | 0x5455 => times length
  | 0x6375 => newComment length
  | 0x7075 => newName length
  | 0x9901 => encryption length
  | _ => skip length

/-- The fields up to the end. Each one takes a byte at least, so the number of bytes is bound
enough. -/
def fields : Nat → Reader Unit
  | 0 => return
  | bound + 1 => do
    if (← get).rest.isEmpty then return
    field
    fields bound

end Extra

namespace Header

/-- What extra fields add to a header. -/
def withExtra? (h : Header) (extra : List UInt8) : Option Header :=
  match (Extra.fields extra.length).run ⟨extra, h⟩ with
  | .ok _ s => some s.header
  | .error .exhausted s => some s.header
  | .error .invalid _ => none

/-- The method that stands for encryption; the method below is in an extra field. -/
def sealedMethod : Nat := 99

/-- Offsets are counted from where the archive begins, and have sixty-four bits. -/
def startingFrom? (h : Header) (base : Nat) : Option Header :=
  if h.start + base < 0x10000000000000000 then some { h with start := h.start + base } else none

end Header

/-- The directory header at an offset, and the offset behind it. The archive begins at `base`. -/
def headerAt? (bytes : Array UInt8) (base offset : Nat) : Option (Header × Nat) := do
  let fixed ← bytesAt? bytes offset 46
  guard (numberIn fixed 0 4 == directoryMark)
  let nameLength := numberIn fixed 28 2
  let extraLength := numberIn fixed 30 2
  let commentLength := numberIn fixed 32 2
  let nameBytes ← bytesAt? bytes (offset + 46) nameLength
  let extra ← bytesAt? bytes (offset + 46 + nameLength) extraLength
  let comment ← bytesAt? bytes (offset + 46 + nameLength + extraLength) commentLength
  let flags := numberIn fixed 8 2
  let narrow : Header :=
    { nameBytes
      name := fieldText flags nameBytes
      comment := Text.utf8 (fieldText flags comment)
      flags
      method := numberIn fixed 10 2
      checksum := numberIn fixed 16 4
      storedSize := numberIn fixed 20 4
      plainSize := numberIn fixed 24 4
      start := numberIn fixed 42 4 }
  let h ← narrow.withExtra? extra
  guard (h.method != Header.sealedMethod || h.sealed)
  let h ← h.startingFrom? base
  return (h, offset + 46 + nameLength + extraLength + commentLength)

/-- A number of headers, one behind the other. -/
def headersAt? (bytes : Array UInt8) (base : Nat) : Nat → Nat → Option (List Header)
  | 0, _ => some []
  | count + 1, offset => do
    let (h, behind) ← headerAt? bytes base offset
    return h :: (← headersAt? bytes base count behind)

/-- Where the contents begin behind the local header at an offset. -/
def contentsStart? (bytes : Array UInt8) (offset : Nat) : Option Nat := do
  let fixed ← bytesAt? bytes offset 30
  guard (numberIn fixed 0 4 == localMark)
  return offset + 30 + numberIn fixed 26 2 + numberIn fixed 28 2

end GrammarEngine.Archive

import GrammarEngine.Text.Lossy

/-!
# Bytes in archives

The records of an archive hold numbers of a fixed number of bytes, least significant first. Records
are read at offsets of the bytes; nothing is read beyond the end. Of each entry a checksum is kept,
the cyclic redundancy check of thirty-two bits with the reflected polynomial. The name of an entry
is UTF-8 where its flags say so. Otherwise it has one byte for each character, of code page 437, in
which bytes below 128 are ASCII.
-/
namespace GrammarEngine.Archive

/-- Why reading stops early: the bytes are at their end, or they are not what the format allows. -/
inductive Halt where
  | exhausted
  | invalid
deriving Repr, DecidableEq

/-- The bytes of a number, least significant first. -/
def littleEndian : Nat → Nat → List UInt8
  | 0, _ => []
  | count + 1, n => UInt8.ofNat n :: littleEndian count (n / 256)

/-- The number that bytes stand for. -/
def ofLittleEndian (bytes : List UInt8) : Nat := bytes.foldr (fun b n => b.toNat + 256 * n) 0

/-- The bytes from an offset on, if there are as many. -/
def bytesAt? (bytes : Array UInt8) (offset count : Nat) : Option (List UInt8) :=
  if offset + count ≤ bytes.size then some (bytes.extract offset (offset + count)).toList else none

/-- The number in some bytes from an offset on. -/
def numberAt? (bytes : Array UInt8) (offset count : Nat) : Option Nat :=
  (bytesAt? bytes offset count).map ofLittleEndian

/-- The number in some bytes inside a field; bytes that are missing count as zero. -/
def numberIn (field : List UInt8) (offset count : Nat) : Nat :=
  ofLittleEndian ((field.drop offset).take count)

/-! ## Marks of records -/

def localMark : Nat := 0x04034b50

def directoryMark : Nat := 0x02014b50

def endMark : Nat := 0x06054b50

def wideEndMark : Nat := 0x06064b50

def locatorMark : Nat := 0x07064b50

@[simp] theorem length_littleEndian (count n : Nat) : (littleEndian count n).length = count := by
  induction count generalizing n with
  | zero => rfl
  | succ count ih => simp [littleEndian, ih]

end GrammarEngine.Archive

/-! ## Checksums -/

namespace GrammarEngine.Checksum

def polynomial : UInt32 := 0xedb88320

/-- Shift out one bit. -/
def shift (crc : UInt32) : UInt32 :=
  if crc &&& 1 == 1 then (crc >>> 1) ^^^ polynomial else crc >>> 1

def addByte (crc : UInt32) (b : UInt8) : UInt32 :=
  let x := crc ^^^ b.toUInt32
  shift (shift (shift (shift (shift (shift (shift (shift x)))))))

/-- The checksum of a byte sequence. -/
def crc32 (bytes : List UInt8) : UInt32 := ~~~(bytes.foldl addByte 0xffffffff)

end GrammarEngine.Checksum

/-! ## Names without a mark -/

namespace GrammarEngine.CodePage

/-- The characters of the bytes from 128 on. -/
def upperHalf : List Char :=
  ("ÇüéâäàåçêëèïîìÄÅ" ++ "ÉæÆôöòûùÿÖÜ¢£¥₧ƒ" ++ "áíóúñÑªº¿⌐¬½¼¡«»" ++ "░▒▓│┤╡╢╖╕╣║╗╝╜╛┐" ++
    "└┴┬├─┼╞╟╚╔╩╦╠═╬╧" ++ "╨╤╥╙╘╒╓╫╪┘┌█▄▌▐▀" ++ "αßΓπΣσµτΦΘΩδ∞φε∩" ++
    "≡±≥≤⌠⌡÷≈°∙·√ⁿ²■\u00a0").toList

def charOf (b : UInt8) : Char :=
  if b < 0x80 then Char.ofNat b.toNat else upperHalf.getD (b.toNat - 0x80) Text.replacement

def decode (bytes : List UInt8) : String := String.ofList (bytes.map charOf)

end GrammarEngine.CodePage

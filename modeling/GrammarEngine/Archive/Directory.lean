import GrammarEngine.Archive.Header

/-!
# Directories

A closing record at the end of an archive says where its directory begins and how many entries it
lists. Large archives have a second closing record of wide numbers, found through a locator right
before the first. Bytes may stand before an archive: offsets count from where it begins, which is
seen from where the directory or the second record really is.

An archive may have a comment behind its closing record, and other bytes behind that. So every
place with the mark of a closing record is tried from the end on, and the first one that leads to a
readable directory counts.
-/
namespace GrammarEngine.Archive

/-- Where a directory and its archive begin, and the number of its entries. -/
structure Directory where
  start : Nat
  count : Nat
  base : Nat
deriving Repr, DecidableEq

/-- A closing record and its offset. The entries are counted on this disk and in all. -/
structure Closing where
  offset : Nat
  disk : Nat
  directoryDisk : Nat
  countHere : Nat
  count : Nat
  start : Nat
deriving Repr, DecidableEq

/-- The closing record at an offset, if its comment ends inside the bytes. -/
def closingAt? (bytes : Array UInt8) (offset : Nat) : Option Closing := do
  let fixed ← bytesAt? bytes offset 22
  guard (numberIn fixed 0 4 == endMark && offset + 22 + numberIn fixed 20 2 ≤ bytes.size)
  return {
    offset
    disk := numberIn fixed 4 2
    directoryDisk := numberIn fixed 6 2
    countHere := numberIn fixed 8 2
    count := numberIn fixed 10 2
    start := numberIn fixed 16 4 }

/-- The offsets from a first one on that lie before a bound. -/
def offsets (first bound : Nat) : List Nat := List.range' first (bound - first)

/-- The directory that a closing record of narrow numbers leads to. The first header from the given
offset on begins the directory; the directory of an archive without entries ends at the record. -/
def Closing.narrowDirectory? (c : Closing) (bytes : Array UInt8) : Option Directory := do
  guard (c.disk == c.directoryDisk)
  if c.count == 0 then
    let base := c.offset - c.start
    return ⟨c.start + base, c.countHere, base⟩
  else
    let found ← (offsets c.start c.offset).find? fun i =>
      numberAt? bytes i 4 == some directoryMark
    return ⟨found, c.countHere, found - c.start⟩

/-! ## Wide numbers -/

/-- The place of a closing record of wide numbers. -/
structure Locator where
  offset : Nat
  disk : Nat
  start : Nat
deriving Repr, DecidableEq

/-- The locator before a closing record. -/
def locatorBefore? (bytes : Array UInt8) (closing : Nat) : Option (Locator × Nat) := do
  guard (20 ≤ closing)
  let fixed ← bytesAt? bytes (closing - 20) 20
  guard (numberIn fixed 0 4 == locatorMark)
  return (⟨closing - 20, numberIn fixed 4 4, numberIn fixed 8 8⟩, numberIn fixed 16 4)

/-- A closing record of wide numbers, with the versions of the format that made it and that are
needed to read it. -/
structure WideClosing where
  offset : Nat
  madeBy : Nat
  needed : Nat
  disk : Nat
  directoryDisk : Nat
  countHere : Nat
  count : Nat
  start : Nat
deriving Repr, DecidableEq

/-- The record of wide numbers at an offset, if it ends at its locator, agrees with it and leaves
room for its entries. -/
def wideClosingAt? (bytes : Array UInt8) (l : Locator) (offset : Nat) : Option WideClosing := do
  let fixed ← bytesAt? bytes offset 56
  let size := numberIn fixed 4 8
  let w : WideClosing :=
    { offset
      madeBy := numberIn fixed 12 2
      needed := numberIn fixed 14 2
      disk := numberIn fixed 16 4
      directoryDisk := numberIn fixed 20 4
      countHere := numberIn fixed 24 8
      count := numberIn fixed 32 8
      start := numberIn fixed 48 8 }
  guard (numberIn fixed 0 4 == wideEndMark && 44 ≤ size && offset + 12 + size == l.offset &&
    w.directoryDisk == l.disk && w.count * 46 + w.start ≤ offset)
  return w

/-- The directory that a record of wide numbers leads to. -/
def WideClosing.directory? (w : WideClosing) (base : Nat) : Option Directory :=
  if w.countHere ≤ w.count && w.needed ≤ w.madeBy && w.disk == w.directoryDisk then
    some ⟨w.start + base, w.count, base⟩
  else none

/-- The directory behind a locator, through the first record from the given offset on. -/
def Locator.directory? (l : Locator) (bytes : Array UInt8) : Option Directory := do
  let w ← (offsets l.start l.offset).findSome? (wideClosingAt? bytes l)
  w.directory? (w.offset - l.start)

/-! ## The directory of an archive -/

/-- Whether a number of a closing record has no room for its value. -/
def Closing.isShort (c : Closing) : Bool := c.count == 0xffff || c.start == Extra.narrowLimit

/-- The directory that a closing record leads to. -/
def Closing.directory? (c : Closing) (bytes : Array UInt8) : Option Directory :=
  match if c.isShort then locatorBefore? bytes c.offset else none with
  | some (l, disks) => if disks ≤ 1 then l.directory? bytes else none
  | none => c.narrowDirectory? bytes

/-- The headers in the directory of the closing record at an offset. -/
def headersFrom? (bytes : Array UInt8) (offset : Nat) : Option (List Header) := do
  let c ← closingAt? bytes offset
  let d ← c.directory? bytes
  headersAt? bytes d.base d.count d.start

/-- The headers of an archive. -/
def headers? (bytes : Array UInt8) : Option (List Header) :=
  (List.range bytes.size).reverse.findSome? (headersFrom? bytes)

end GrammarEngine.Archive

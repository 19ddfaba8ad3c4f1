import GrammarEngine.Text.Case
import GrammarEngine.Text.Numeral

/-!
# Character ranges

The normal form of a list of ranges is sorted, and no two of its ranges overlap or touch. Where
letter case is ignored, the other case forms of every character in a short range are added first;
long ranges are left as they are.
-/
namespace GrammarEngine.CharRanges

/-- Inclusive ranges of code points. -/
abbrev Range := UInt32 × UInt32

def le (a b : Range) : Bool := a.1 < b.1 || (a.1 == b.1 && a.2 ≤ b.2)

/-- Whether a range that starts here overlaps or touches one that ends there. -/
def touches (stop start : UInt32) : Bool := start.toNat ≤ stop.toNat + 1

/-- Merge sorted ranges into the last range that has been found. -/
def mergeInto (last : Range) : List Range → List Range
  | [] => [last]
  | r :: rest =>
    if touches last.2 r.1 then mergeInto (last.1, max last.2 r.2) rest
    else last :: mergeInto r rest

def merge : List Range → List Range
  | [] => []
  | r :: rest => mergeInto r rest

/-- Sort and merge. -/
def normalize (ranges : List Range) : List Range := merge (ranges.mergeSort le)

/-- Ranges longer than this keep only the characters that they name. -/
def foldLimit : Nat := 0x400

/-- The characters of an inclusive range, surrogates left out. -/
def members (r : Range) : List Char :=
  (List.range (r.2.toNat + 1 - r.1.toNat)).filterMap fun i => Text.charOfCode? (r.1.toNat + i)

def single (c : Char) : Range := (c.val, c.val)

/-- The case forms of a character that differ from it. -/
def variants (c : Char) : List Range :=
  ((Text.lowerForm c ++ Text.upperForm c).filter (· != c)).map single

def foldedVariants (r : Range) : List Range :=
  if r.2.toNat - r.1.toNat > foldLimit then [] else (members r).flatMap variants

/-- The normal form of ranges in which letter case is ignored. -/
def foldCase (ranges : List Range) : List Range :=
  normalize (ranges ++ ranges.flatMap foldedVariants)

end GrammarEngine.CharRanges

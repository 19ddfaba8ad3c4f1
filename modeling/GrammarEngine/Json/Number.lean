import GrammarEngine.Json.Basic
import GrammarEngine.Text.Numeral

/-!
# Numbers of documents

The digits of a number are collected in a word of sixty-four bits; what the word has no room for
shows in a power of ten alone. A number is an integer when it is written without fraction and
exponent and its digits fit. Any other number stands for a product in double precision, which must
be finite.

Double precision keeps fifty-three binary digits and rounds to the nearest number, to the even one
of two. The word and the power are rounded each before the product is.
-/
namespace GrammarEngine.Json

/-- The numbers that a word of sixty-four bits can hold lie below this bound. -/
def wordBound : Nat := 0x10000000000000000

/-- Append digits to a word while it has room for them. The digits that it has no room for are the
second part. -/
def fillWord : Nat → List Char → Nat × List Char
  | word, [] => (word, [])
  | word, c :: rest =>
    let next := 10 * word + (c.toNat - 48)
    if next < wordBound then fillWord next rest else (word, c :: rest)

/-- The word and the power of ten of the digits before and behind a point. A digit that is left out
counts in the power when it stands before the point. -/
def scientific (whole fraction : List Char) : Nat × Int :=
  let (word, more) := fillWord 0 whole
  let (word, unused) := fillWord word fraction
  (word, more.length + unused.length - fraction.length)

/-- The nearest number of fifty-three binary digits and zeros behind them; of two, the even one. -/
def roundDouble (n : Nat) : Nat :=
  let unit := 1 <<< (n.log2 + 1 - 53)
  let digits := n / unit
  let rest := n % unit
  if 2 * rest < unit || (2 * rest == unit && digits % 2 == 0) then digits * unit
  else (digits + 1) * unit

/-- The greatest power of ten below the bound of double precision. -/
def maxPower : Nat := 308

/-- Whether a word times a power of ten is finite in double precision. -/
def isFinite (word : Nat) (power : Int) : Bool :=
  word == 0 || power < 0 ||
    (power ≤ maxPower &&
      roundDouble (roundDouble word * roundDouble (Nat.pow 10 power.toNat)) < 1 <<< 1024)

/-- The number of a sign, its digits before and behind the point, and its exponent. -/
def number? (negative : Bool) (whole fraction : List Char) (exponent : Option Int) : Option Json :=
  let (word, power) := scientific whole fraction
  let value : Int := if negative then -word else word
  if fraction.isEmpty && exponent.isNone && power == 0 then
    if negative && word == 0 then some (.decimal 0 0) else some (ofInt value)
  else
    let power := exponent.getD 0 + power
    if isFinite word power then some (.decimal value power) else none

theorem fillWord_lt {word : Nat} (h : word < wordBound) (cs : List Char) :
    (fillWord word cs).1 < wordBound := by
  induction cs generalizing word with
  | nil => exact h
  | cons c rest ih =>
    simp only [fillWord]
    split
    · rename_i fits
      exact ih fits
    · exact h

theorem roundDouble_of_lt {n : Nat} (h : n < 0x20000000000000) : roundDouble n = n := by
  have hlog : n.log2 + 1 - 53 = 0 := by
    by_cases hn : n = 0
    · subst hn; decide
    · have hlog2 : n.log2 < 53 := (Nat.log2_lt hn).mpr (by omega)
      omega
  simp [roundDouble, hlog, Nat.mod_one]

end GrammarEngine.Json

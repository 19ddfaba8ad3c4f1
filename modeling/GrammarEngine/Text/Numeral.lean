import GrammarEngine.Text.Class

/-!
# Numerals

Decimal and hexadecimal digits as natural numbers, most significant digit first, and the numerals
of bounded words: a decimal or hexadecimal reading fails on an empty text, on a character that is
no digit and on a value above the bound. A sign is no digit; `readSigned` admits one.
-/
namespace GrammarEngine.Text

/-- The digits of a number in lower-case hexadecimal notation. -/
def hexDigits (n : Nat) : List Char := Nat.toDigits 16 n

/-- Two lower-case hexadecimal digits for every byte. -/
def hexBytes (bytes : List UInt8) : String :=
  String.ofList (bytes.flatMap fun b =>
    [Nat.digitChar (b.toNat / 16), Nat.digitChar (b.toNat % 16)])

/-- The bytes of digits that stand in pairs; other characters count as zero. -/
def ofHexBytes : List Char → List UInt8
  | a :: b :: rest =>
    UInt8.ofNat ((hexValue? a).getD 0 * 16 + (hexValue? b).getD 0) :: ofHexBytes rest
  | _ => []

def decimalValue? (c : Char) : Option Nat := if c.isDigit then some (c.toNat - 48) else none

/-- The value of a digit string over a base, where every character has a digit value. -/
def digitsValue? (base : Nat) (digit : Char → Option Nat) (cs : List Char) : Option Nat :=
  cs.foldl (fun acc c => acc.bind fun n => (digit c).map fun d => n * base + d) (some 0)

/-- The number that a non-empty digit string denotes when it is below the bound. -/
def readBelow (bound base : Nat) (digit : Char → Option Nat) (cs : List Char) : Option Nat :=
  if cs.isEmpty then none
  else (digitsValue? base digit cs).bind fun n => if n < bound then some n else none

def readDecimal (bound : Nat) (cs : List Char) : Option Nat := readBelow bound 10 decimalValue? cs

def readHex (bound : Nat) (cs : List Char) : Option Nat := readBelow bound 16 hexValue? cs

/-- A leading plus sign is dropped before the digits are read. -/
def dropPlus : List Char → List Char
  | '+' :: rest => rest
  | cs => cs

/-- The character that a code point below the surrogates or above them denotes. -/
def charOfCode? (n : Nat) : Option Char :=
  if h : n.isValidChar then some (Char.ofNatAux n h) else none

theorem charOfCode?_toNat (c : Char) : charOfCode? c.toNat = some c := by
  have h : c.toNat.isValidChar := c.valid
  rw [charOfCode?, dif_pos h]
  rfl

theorem readBelow_lt {bound base n : Nat} {digit : Char → Option Nat} {cs : List Char}
    (h : readBelow bound base digit cs = some n) : n < bound := by
  unfold readBelow at h
  split at h
  · cases h
  · obtain ⟨m, _, hm⟩ := Option.bind_eq_some_iff.mp h
    split at hm
    · simp_all
    · cases hm

end GrammarEngine.Text

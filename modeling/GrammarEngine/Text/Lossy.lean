import GrammarEngine.Text.Numeral

/-!
# Bytes that may be no text

Every byte sequence is read as a text if need be: a byte that begins no UTF-8 sequence and a
sequence that breaks off become one replacement character each. The byte at which a sequence breaks
off is read anew.
-/
namespace GrammarEngine.Text

def replacement : Char := '\ufffd'

/-- A sequence part way through: its bits so far, how many bytes are still to come, and the bounds
of the next one. -/
structure Partial where
  code : Nat
  left : Nat
  low : Nat
  high : Nat
deriving Repr, DecidableEq

/-- What a byte that begins a character leaves to be read. The bounds of the second byte exclude
overlong sequences, surrogates and codes beyond the last one. -/
def Partial.start? (lead : Nat) : Option Partial :=
  if lead < 0xc2 then none
  else if lead < 0xe0 then some ⟨lead - 0xc0, 1, 0x80, 0xbf⟩
  else if lead == 0xe0 then some ⟨0, 2, 0xa0, 0xbf⟩
  else if lead == 0xed then some ⟨0xd, 2, 0x80, 0x9f⟩
  else if lead < 0xf0 then some ⟨lead - 0xe0, 2, 0x80, 0xbf⟩
  else if lead == 0xf0 then some ⟨0, 3, 0x90, 0xbf⟩
  else if lead < 0xf4 then some ⟨lead - 0xf0, 3, 0x80, 0xbf⟩
  else if lead == 0xf4 then some ⟨4, 3, 0x80, 0x8f⟩
  else none

/-- A byte outside a sequence: what it gives at once, and the sequence that it begins. -/
def begin (b : UInt8) : List Char × Option Partial :=
  if b < 0x80 then ([Char.ofNat b.toNat], none)
  else match Partial.start? b.toNat with
    | some p => ([], some p)
    | none => ([replacement], none)

/-- A byte inside a sequence. -/
def Partial.next (p : Partial) (b : UInt8) : List Char × Option Partial :=
  if p.low ≤ b.toNat ∧ b.toNat ≤ p.high then
    let code := p.code * 64 + (b.toNat - 0x80)
    if p.left ≤ 1 then ([Char.ofNat code], none) else ([], some ⟨code, p.left - 1, 0x80, 0xbf⟩)
  else
    let (cs, p) := begin b
    (replacement :: cs, p)

def lossyChars : Option Partial → List UInt8 → List Char
  | none, [] => []
  | some _, [] => [replacement]
  | state, b :: rest =>
    let (cs, state) := match state with
      | none => begin b
      | some p => p.next b
    cs ++ lossyChars state rest

/-- The text that bytes are read as. -/
def ofUtf8Lossy (bytes : List UInt8) : String := String.ofList (lossyChars none bytes)

end GrammarEngine.Text

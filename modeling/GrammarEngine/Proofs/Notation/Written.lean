import GrammarEngine.Notation.Sexpr.Reader
import GrammarEngine.Proofs.Grammar.Escapes
import Mathlib.Algebra.Group.Int.Defs

/-!
# Written S-expressions

The notation of S-expressions as relations between characters and what they denote. A form is said
to be written by characters that stand between others: its place depends on those before it, and an
atom or a comment goes as far as those behind it let it go.
-/
namespace GrammarEngine.Sexpr

/-! ## Notation -/

/-- What follows a backslash in a string, with the character that is denoted. -/
inductive Escaped : List Char → Char → Prop
  | lineFeed : Escaped ['n'] '\n'
  | carriageReturn : Escaped ['r'] '\r'
  | tab : Escaped ['t'] '\t'
  | backslash : Escaped ['\\'] '\\'
  | quote : Escaped ['"'] '"'
  | code {digits : List Char} {c : Char} : Literal.Hexadecimal digits c →
      Escaped ('u' :: '\x7b' :: digits ++ ['\x7d']) c

/-- What stands between the quotes of a string, with the characters that are denoted. -/
inductive Content : List Char → List Char → Prop
  | nil : Content [] []
  | plain {c : Char} {cs content : List Char} :
      c ≠ '"' → c ≠ '\\' → Content cs content → Content (c :: cs) (c :: content)
  | escaped {e cs content : List Char} {c : Char} :
      Escaped e c → Content cs content → Content ('\\' :: e ++ cs) (c :: content)

/-- Digits behind an optional minus sign, with the number that is denoted. -/
inductive Numeral : List Char → Int → Prop
  | natural {digits : List Char} {n : Nat} : digits ≠ [] →
      Text.digitsValue? 10 Text.decimalValue? digits = some n → Numeral digits n
  | negative {digits : List Char} {n : Nat} : digits ≠ [] →
      Text.digitsValue? 10 Text.decimalValue? digits = some n → Numeral ('-' :: digits) (-n)

/-- An atom is an integer of sixty-four bits if it is a numeral, and otherwise a symbol. -/
inductive AtomValue (p : Position) (cs : List Char) : Sexpr → Prop
  | symbol : (∀ n, ¬Numeral cs n) → AtomValue p cs (.symbol p (String.ofList cs))
  | int {n : Int} : Numeral cs n → -2 ^ 63 ≤ n → n < 2 ^ 63 → AtomValue p cs (.int p n)

/-- An atom ends in front of these characters. -/
def Ends (rest : List Char) : Prop := ∀ c ∈ rest.head?, isDelimiter c = true

mutual
/-- Lists may nest to a depth, and characters stand behind some and in front of others: they write a
form whose place is that of the first of them. -/
inductive Written : Nat → List Char → List Char → List Char → Sexpr → Prop
  | atom {depth : Nat} {before cs rest : List Char} {p : Position} {v : Sexpr} :
      cs ≠ [] → (∀ c ∈ cs, isDelimiter c = false) → Ends rest → Position.Behind before p →
      AtomValue p cs v → Written depth before cs rest v
  | text {depth : Nat} {before cs rest content : List Char} {p : Position} :
      Position.Behind before p → Content cs content →
      Written depth before ('"' :: cs ++ ['"']) rest (.text p (String.ofList content))
  | list {depth : Nat} {before cs rest : List Char} {p : Position} {items : List Sexpr} :
      Position.Behind before p → Sequence depth (before ++ ['(']) cs (')' :: rest) items →
      Written (depth + 1) before ('(' :: cs ++ [')']) rest (.list p items)

/-- Characters that write forms with white space and comments around them. A comment goes up to the
end of its line or of the text. -/
inductive Sequence : Nat → List Char → List Char → List Char → List Sexpr → Prop
  | nil {depth : Nat} {before rest : List Char} : Sequence depth before [] rest []
  | blank {depth : Nat} {before cs rest : List Char} {c : Char} {items : List Sexpr} :
      Text.isBlank c = true → Sequence depth (before ++ [c]) cs rest items →
      Sequence depth before (c :: cs) rest items
  | comment {depth : Nat} {before body cs rest : List Char} {items : List Sexpr} :
      '\n' ∉ body → (∀ c ∈ (cs ++ rest).head?, c = '\n') →
      Sequence depth (before ++ ';' :: body) cs rest items →
      Sequence depth before (';' :: body ++ cs) rest items
  | form {depth : Nat} {before cs ds rest : List Char} {v : Sexpr} {items : List Sexpr} :
      Written depth before cs (ds ++ rest) v → Sequence depth (before ++ cs) ds rest items →
      Sequence depth before (cs ++ ds) rest (v :: items)
end

theorem ends_cons {c : Char} (h : isDelimiter c = true) (rest : List Char) : Ends (c :: rest) := by
  intro d hd
  obtain rfl := Option.some.inj hd
  exact h

section Sequence

variable {depth : Nat} {before cs ds rest : List Char} {v : Sexpr} {xs ys : List Sexpr}

theorem Sequence.single (h : Written depth before cs rest v) :
    Sequence depth before cs rest [v] := by
  have hform : Sequence depth before (cs ++ []) rest [v] := .form h .nil
  rwa [List.append_nil] at hform

theorem Sequence.blanks (hcs : ∀ c ∈ cs, Text.isBlank c = true)
    (h : Sequence depth (before ++ cs) ds rest xs) : Sequence depth before (cs ++ ds) rest xs := by
  induction cs generalizing before with
  | nil => simpa using h
  | cons c cs ih =>
      obtain ⟨hc, hcs⟩ := List.forall_mem_cons.mp hcs
      exact .blank hc (ih hcs (by simpa using h))

/-- Two sequences in a row are one. -/
theorem Sequence.append : ∀ {before cs behind : List Char} {xs : List Sexpr},
    Sequence depth before cs behind xs → behind = ds ++ rest →
    Sequence depth (before ++ cs) ds rest ys → Sequence depth before (cs ++ ds) rest (xs ++ ys)
  | _, _, _, _, .nil, _, h => by simpa using h
  | _, _, _, _, .blank hc hrest, hbehind, h => .blank hc (hrest.append hbehind (by simpa using h))
  | _, _, _, _, .comment hbody hhead hrest, hbehind, h => by
    rw [List.append_assoc]
    exact .comment hbody (by simpa [hbehind] using hhead) (hrest.append hbehind (by simpa using h))
  | _, _, _, _, .form hform hrest, hbehind, h => by
    rw [List.append_assoc]
    exact .form (by simpa [hbehind] using hform) (hrest.append hbehind (by simpa using h))

end Sequence

/-! ## Atoms -/

theorem isSome_decimalValue? (c : Char) : (Text.decimalValue? c).isSome = c.isDigit := by
  unfold Text.decimalValue?
  split
  · next h => exact h.symm
  · next h => exact (Bool.eq_false_iff.mpr h).symm

theorem isDigit_of_digitsValue? {digits : List Char} {n : Nat}
    (h : Text.digitsValue? 10 Text.decimalValue? digits = some n) :
    ∀ c ∈ digits, c.isDigit = true := by
  intro c hc
  rw [← isSome_decimalValue?]
  exact Text.isSome_of_digitsValue? h c hc

theorem numeralDigits?_of_digits {digits : List Char} (hne : digits ≠ [])
    (hdigits : ∀ c ∈ digits, c.isDigit = true) : numeralDigits? digits = some (false, digits) := by
  obtain ⟨c, rest, rfl⟩ := List.exists_cons_of_ne_nil hne
  have hc : c ≠ '-' := by
    rintro rfl
    exact absurd (hdigits '-' List.mem_cons_self) (by decide)
  have hall : (c :: rest).all Char.isDigit = true := List.all_eq_true.mpr hdigits
  simp only [numeralDigits?, List.cons.injEq, hc, false_and, imp_self, implies_true]
  simpa using hall

/-- A number with a sign, if it is negative. -/
abbrev signed (negative : Bool) (n : Nat) : Int := if negative then -(n : Int) else n

theorem numeralDigits?_eq_some_iff {cs digits : List Char} {negative : Bool} :
    numeralDigits? cs = some (negative, digits) ↔
      cs = (if negative then '-' :: digits else digits) ∧ digits ≠ [] ∧
        ∀ c ∈ digits, c.isDigit = true := by
  constructor
  · intro h
    unfold numeralDigits? at h
    split at h
    next sign ds heq =>
    split at h
    · next hds =>
      obtain ⟨rfl, rfl⟩ := Prod.mk.inj (Option.some.inj h)
      simp only [Bool.and_eq_true, Bool.not_eq_true', List.isEmpty_eq_false_iff,
        List.all_eq_true] at hds
      refine ⟨?_, hds⟩
      split at heq <;> cases heq <;> rfl
    · cases h
  · rintro ⟨rfl, hne, hdigits⟩
    cases negative with
    | false => exact numeralDigits?_of_digits hne hdigits
    | true =>
        have hall := List.all_eq_true.mpr hdigits
        simp [numeralDigits?, hne, hall]

/-- A numeral is what the reader takes for one. -/
theorem numeral_iff {cs : List Char} {n : Int} :
    Numeral cs n ↔ ∃ negative digits m, numeralDigits? cs = some (negative, digits) ∧
      Text.digitsValue? 10 Text.decimalValue? digits = some m ∧ n = signed negative m := by
  constructor
  · rintro (⟨hne, hvalue⟩ | ⟨hne, hvalue⟩)
    · exact ⟨false, _, _, numeralDigits?_eq_some_iff.mpr ⟨rfl, hne, isDigit_of_digitsValue? hvalue⟩,
        hvalue, rfl⟩
    · exact ⟨true, _, _, numeralDigits?_eq_some_iff.mpr ⟨rfl, hne, isDigit_of_digitsValue? hvalue⟩,
        hvalue, rfl⟩
  · rintro ⟨negative, digits, m, hdigits, hvalue, rfl⟩
    obtain ⟨rfl, hne, -⟩ := numeralDigits?_eq_some_iff.mp hdigits
    cases negative with
    | false => exact .natural hne hvalue
    | true => exact .negative hne hvalue

theorem readInt64_eq_some_iff {negative : Bool} {digits : List Char} {n : Int} (hne : digits ≠ []) :
    readInt64 negative digits = some n ↔
      ∃ m, Text.digitsValue? 10 Text.decimalValue? digits = some m ∧ n = signed negative m ∧
        -2 ^ 63 ≤ n ∧ n < 2 ^ 63 := by
  have hempty : digits.isEmpty = false := by simpa using hne
  simp only [readInt64, Text.readDecimal, Text.readBelow, hempty, Bool.false_eq_true, if_false,
    Option.map_eq_some_iff, Option.bind_eq_bind, Option.pure_def, Option.bind_eq_some_iff,
    Option.some.injEq]
  constructor
  · rintro ⟨_, ⟨m, ⟨k, hk, hm⟩, rfl⟩, rfl⟩
    cases negative <;> grind
  · rintro ⟨m, hm, rfl, hlow, hhigh⟩
    cases negative <;> grind

theorem numeralDigits?_eq_none_iff {cs : List Char} :
    numeralDigits? cs = none ↔ ∀ n, ¬Numeral cs n := by
  constructor
  · intro hnone n hn
    obtain ⟨_, _, _, hsome, -⟩ := numeral_iff.mp hn
    rw [hnone] at hsome
    cases hsome
  · intro hnot
    cases hsome : numeralDigits? cs with
    | none => rfl
    | some numeral =>
        obtain ⟨-, -, hdigits⟩ := numeralDigits?_eq_some_iff.mp hsome
        obtain ⟨m, hm⟩ := Text.exists_digitsValue? fun c hc =>
          (isSome_decimalValue? c).trans (hdigits c hc)
        exact absurd (numeral_iff.mpr ⟨_, _, m, hsome, hm, rfl⟩) (hnot _)

theorem readInt64_numeral {cs digits : List Char} {negative : Bool} {n : Int}
    (h : numeralDigits? cs = some (negative, digits)) :
    readInt64 negative digits = some n ↔ Numeral cs n ∧ -2 ^ 63 ≤ n ∧ n < 2 ^ 63 := by
  obtain ⟨-, hne, -⟩ := numeralDigits?_eq_some_iff.mp h
  rw [readInt64_eq_some_iff hne, numeral_iff]
  simp only [h]
  grind

theorem atomValue_eq_ok_iff {p : Position} {cs : List Char} {v : Sexpr} :
    atomValue p cs = .ok v ↔ AtomValue p cs v := by
  unfold atomValue
  split
  · next hnone =>
    have hnot := numeralDigits?_eq_none_iff.mp hnone
    constructor
    · intro h
      cases h
      exact .symbol hnot
    · rintro (_ | ⟨hn, -, -⟩)
      · rfl
      · exact absurd hn (hnot _)
  · next negative digits hsome =>
    constructor
    · intro h
      split at h
      · next n hn =>
        cases h
        obtain ⟨hnumeral, hlow, hhigh⟩ := (readInt64_numeral hsome).mp hn
        exact .int hnumeral hlow hhigh
      · cases h
    · rintro (hnot | ⟨hnumeral, hlow, hhigh⟩)
      · rw [numeralDigits?_eq_none_iff.mpr hnot] at hsome
        cases hsome
      · rw [(readInt64_numeral hsome).mpr ⟨hnumeral, hlow, hhigh⟩]

end GrammarEngine.Sexpr

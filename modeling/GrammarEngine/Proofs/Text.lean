import GrammarEngine.Stream
import GrammarEngine.Text.Lossy
import GrammarEngine.Text.Numeral
import GrammarEngine.Text.Position
import GrammarEngine.Text.Utf8
import Mathlib.Data.List.Induction

/-!
# Texts

Where the places of a text lie, how numbers are written in it, which of its characters are the cases
of one letter, and how it is read from bytes.

The place behind a text lies in the line whose number is one more than the line feeds of the text,
as many columns in as there are characters behind the last of them. A place in an input is told by
the words of these two numbers. The digits that a number has in a base, decimal or hexadecimal,
denote the number again.

Two characters of the same small letter are equal or the two cases of an ASCII letter, and the case
forms of an ASCII character are these. What is said of ASCII characters one by one is checked for
all of them.

The bytes of a text are read as the text itself: the lead byte of a character says how many bytes
follow and within which bounds the second one lies, and the bits that are collected from all of them
are those of the character.
-/
namespace GrammarEngine.Position

/-! ## Lines and columns -/

variable {p : Position} {cs ds : List Char}

/-- Where a place lies that has a text before it. -/
structure Behind (before : List Char) (p : Position) : Prop where
  line : p.line = 1 + before.count '\n'
  column : p.column = (before.reverse.takeWhile fun c => c != '\n').length

theorem behind_after (cs : List Char) : Behind cs (after {} cs) := by
  induction cs using List.reverseRecOn with
  | nil => exact ⟨rfl, rfl⟩
  | append_singleton cs c ih =>
      rw [after_append, after_cons, after_nil]
      by_cases hc : c = '\n'
      · subst hc
        constructor
        · simp [step, ih.line, Nat.add_assoc]
        · simp [step]
      · constructor
        · simp [step, hc, ih.line]
        · simp [step, hc, ih.column]

/-- The place behind a text is the only one that lies there. -/
theorem Behind.eq (h : Behind cs p) : p = after {} cs := by
  have hafter := behind_after cs
  have hline : p.line = (after {} cs).line := h.line.trans hafter.line.symm
  have hcolumn : p.column = (after {} cs).column := h.column.trans hafter.column.symm
  cases p
  cases hline
  cases hcolumn
  rfl

theorem line_after (p : Position) (cs : List Char) :
    (p.after cs).line = p.line + cs.count '\n' := by
  induction cs generalizing p with
  | nil => rfl
  | cons c cs ih =>
      rw [after_cons, ih]
      by_cases hc : c = '\n' <;> simp [step, hc]
      omega

end GrammarEngine.Position

namespace GrammarEngine

/-- A place in words. -/
def Position.words (p : Position) : InputPosition := ⟨.ofNat p.line, .ofNat p.column⟩

namespace InputPosition

variable {before : List Char} {p : InputPosition}

theorem step_words (p : Position) (c : Char) : p.words.step c = (p.step c).words := by
  by_cases hc : c = '\n' <;> simp [step, Position.step, Position.words, hc, UInt32.ofNat_add]

theorem after_words (p : Position) (cs : List Char) : p.words.after cs = (p.after cs).words := by
  induction cs generalizing p with
  | nil => rfl
  | cons c cs ih => rw [after_cons, step_words, ih, Position.after_cons]

/-- Where a place of an input lies that has a text before it. Its words are those of its line and
its column, and are these numbers themselves where the text is short enough for them to fit. -/
structure Behind (before : List Char) (p : InputPosition) : Prop where
  line : p.line = .ofNat (1 + before.count '\n')
  column : p.column = .ofNat (before.reverse.takeWhile fun c => c != '\n').length
  fits : before.length + 1 < UInt32.size → Position.Behind before ⟨p.line, p.column⟩

theorem behind_words {q : Position} (h : Position.Behind before q) : Behind before q.words where
  line := congrArg UInt32.ofNat h.line
  column := congrArg UInt32.ofNat h.column
  fits hfits := by
    have hline : q.line < UInt32.size := by
      have hcount : before.count '\n' ≤ before.length := List.count_le_length
      have hq := h.line
      omega
    have hcolumn : q.column < UInt32.size := by
      have hprefix := (before.reverse.takeWhile_prefix fun c => c != '\n').length_le
      rw [List.length_reverse, ← h.column] at hprefix
      omega
    constructor
    · rw [Position.words, UInt32.toNat_ofNat_of_lt' hline, h.line]
    · rw [Position.words, UInt32.toNat_ofNat_of_lt' hcolumn, h.column]

theorem behind_after (cs : List Char) : Behind cs (after {} cs) := by
  have hstart : ({} : InputPosition) = Position.words {} := rfl
  rw [hstart, after_words]
  exact behind_words (Position.behind_after cs)

end InputPosition

end GrammarEngine

/-! ## Written numerals -/
namespace GrammarEngine.Text

variable {base : Nat}

theorem mem_toDigits (hbase : 1 < base) {n : Nat} {c : Char} (h : c ∈ Nat.toDigits base n) :
    ∃ d < base, c = Nat.digitChar d := by
  induction n using Nat.strongRecOn with
  | ind n ih =>
      rcases Nat.lt_or_ge n base with hn | hn
      · rw [Nat.toDigits_of_lt_base hn] at h
        exact ⟨n, hn, List.mem_singleton.mp h⟩
      · rw [Nat.toDigits_of_base_le hbase hn] at h
        rcases List.mem_append.mp h with h | h
        · exact ih (n / base) (Nat.div_lt_self (by omega) hbase) h
        · exact ⟨n % base, Nat.mod_lt n (by omega), List.mem_singleton.mp h⟩

theorem digitsValue?_concat (digit : Char → Option Nat) (cs : List Char) (c : Char) :
    digitsValue? base digit (cs ++ [c]) =
      (digitsValue? base digit cs).bind fun n => (digit c).map fun d => n * base + d := by
  simp [digitsValue?, List.foldl_append]

theorem digitsValue?_toDigits {digit : Char → Option Nat} (hbase : 1 < base)
    (hdigit : ∀ d < base, digit (Nat.digitChar d) = some d) (n : Nat) :
    digitsValue? base digit (Nat.toDigits base n) = some n := by
  induction n using Nat.strongRecOn with
  | ind n ih =>
      rcases Nat.lt_or_ge n base with hn | hn
      · rw [Nat.toDigits_of_lt_base hn]
        simp [digitsValue?, hdigit n hn]
      · rw [Nat.toDigits_of_base_le hbase hn, digitsValue?_concat,
          ih (n / base) (Nat.div_lt_self (by omega) hbase), Option.bind_some,
          hdigit (n % base) (Nat.mod_lt n (by omega)), Option.map_some, Nat.div_add_mod']

/-- Only digits make up a number. -/
theorem isSome_of_digitsValue? {digit : Char → Option Nat} {cs : List Char} {n : Nat}
    (h : digitsValue? base digit cs = some n) : ∀ c ∈ cs, (digit c).isSome := by
  induction cs using List.reverseRecOn generalizing n with
  | nil => exact List.forall_mem_nil _
  | append_singleton cs c ih =>
      rw [digitsValue?_concat] at h
      obtain ⟨m, hm, h⟩ := Option.bind_eq_some_iff.mp h
      obtain ⟨d, hd, -⟩ := Option.map_eq_some_iff.mp h
      refine List.forall_mem_append.mpr ⟨ih hm, fun k hk => ?_⟩
      rw [List.mem_singleton.mp hk, hd]
      rfl

/-- Digits make up a number. -/
theorem exists_digitsValue? {digit : Char → Option Nat} {cs : List Char}
    (h : ∀ c ∈ cs, (digit c).isSome) : ∃ n, digitsValue? base digit cs = some n := by
  induction cs using List.reverseRecOn with
  | nil => exact ⟨0, rfl⟩
  | append_singleton cs c ih =>
      obtain ⟨hcs, hc⟩ := List.forall_mem_append.mp h
      obtain ⟨n, hn⟩ := ih hcs
      obtain ⟨d, hd⟩ := Option.isSome_iff_exists.mp (hc c List.mem_cons_self)
      exact ⟨n * base + d, by rw [digitsValue?_concat, hn, Option.bind_some, hd, Option.map_some]⟩

theorem charOfCode?_eq_some_iff {n : Nat} {c : Char} : charOfCode? n = some c ↔ c.toNat = n := by
  constructor
  · intro h
    by_cases hvalid : n.isValidChar
    · rw [charOfCode?, dif_pos hvalid] at h
      obtain rfl := Option.some.inj h
      rfl
    · rw [charOfCode?, dif_neg hvalid] at h
      cases h
  · rintro rfl
    exact charOfCode?_toNat c

end GrammarEngine.Text

/-! ## Cases of ASCII letters -/
namespace GrammarEngine

namespace Text

variable {a c d : Char}

theorem toLower_eq_of_not_ascii (h : 128 ≤ c.toNat) : c.toLower = c := by
  have hnot : ¬(c.val ≥ 'A'.val ∧ c.val ≤ 'Z'.val) := fun ⟨_, hle⟩ =>
    absurd (UInt32.le_iff_toNat_le.mp hle) (Nat.not_le_of_lt (Nat.lt_of_lt_of_le (by decide) h))
  exact dif_neg hnot

/-- A fact on ASCII characters that holds of each of them. -/
theorem of_ascii {P : Char → Prop} (hall : ∀ n < 128, P (Char.ofNat n)) (h : c.toNat < 128) :
    P c := by
  have hc := hall c.toNat h
  rwa [Char.ofNat_toNat] at hc

theorem toLower_lt (h : c.toNat < 128) : c.toLower.toNat < 128 :=
  of_ascii (P := fun c => c.toLower.toNat < 128) (by decide) h

theorem toUpper_toLower (h : c.toNat < 128) : c.toLower.toUpper = c.toUpper :=
  of_ascii (P := fun c => c.toLower.toUpper = c.toUpper) (by decide) h

theorem toLower_toUpper (h : c.toNat < 128) : c.toUpper.toLower = c.toLower :=
  of_ascii (P := fun c => c.toUpper.toLower = c.toLower) (by decide) h

theorem toLower_toLower (h : c.toNat < 128) : c.toLower.toLower = c.toLower :=
  of_ascii (P := fun c => c.toLower.toLower = c.toLower) (by decide) h

theorem eq_toLower_or_toUpper (h : c.toNat < 128) : c = c.toLower ∨ c = c.toUpper :=
  of_ascii (P := fun c => c = c.toLower ∨ c = c.toUpper) (by decide) h

/-- Beyond ASCII a character has the small letter of no other one. -/
theorem ascii_of_toLower_eq (h : c.toLower = d.toLower) (hne : c ≠ d) : c.toNat < 128 := by
  refine Nat.lt_of_not_le fun hc => ?_
  have hcself := toLower_eq_of_not_ascii hc
  by_cases hd : d.toNat < 128
  · exact Nat.not_lt_of_le hc (hcself ▸ h ▸ toLower_lt hd)
  · exact hne (hcself.symm.trans (h.trans (toLower_eq_of_not_ascii (Nat.le_of_not_lt hd))))

/-- What has the small letter of an ASCII character is one of the cases of that character. -/
theorem toLower_eq_iff (ha : a.toNat < 128) :
    c.toLower = a.toLower ↔ c = a.toLower ∨ c = a.toUpper := by
  constructor
  · intro h
    by_cases hca : c = a
    · rw [hca]
      exact eq_toLower_or_toUpper ha
    · have hc := ascii_of_toLower_eq h hca
      rcases eq_toLower_or_toUpper hc with hcase | hcase
      · exact .inl (hcase.trans h)
      · right
        rw [hcase, ← toUpper_toLower hc, h, toUpper_toLower ha]
  · rintro (rfl | rfl)
    · exact toLower_toLower ha
    · exact toLower_toUpper ha

/-- The characters of both forms of a character. -/
def caseForms (c : Char) : List Char := lowerForm c ++ upperForm c

theorem mem_caseForms_iff (ha : a.toNat < 128) : c ∈ caseForms a ↔ c.toLower = a.toLower := by
  rw [caseForms, lowerForm_ascii a ha, upperForm_ascii a ha, toLower_eq_iff ha]
  simp

end Text

namespace CaseFolding

variable {c d : Char}

/-- A folding shows the cases of a letter as one character, or leaves both as they are. -/
theorem fold_eq_or (f : CaseFolding) (h : c.toLower = d.toLower) :
    f.fold c = f.fold d ∨ f.fold c = c ∧ f.fold d = d := by
  by_cases hne : c = d
  · exact .inl (congrArg f.fold hne)
  · have hc := Text.ascii_of_toLower_eq h hne
    have hd := Text.ascii_of_toLower_eq h.symm (Ne.symm hne)
    cases f with
    | none => exact .inr ⟨rfl, rfl⟩
    | upper =>
        left
        rw [fold, fold, Text.upperForm_ascii c hc, Text.upperForm_ascii d hd]
        change c.toUpper = d.toUpper
        rw [← Text.toUpper_toLower hc, h, Text.toUpper_toLower hd]
    | lower =>
        left
        rw [fold, fold, Text.lowerForm_ascii c hc, Text.lowerForm_ascii d hd]
        exact h

end CaseFolding

end GrammarEngine

/-! ## Texts survive lossy reading -/
namespace GrammarEngine.Text

variable {b : UInt8} {rest : List UInt8} {p : Partial}

/-! ### Single steps -/

theorem lossyChars_ascii (h : b.toNat < 0x80) :
    lossyChars none (b :: rest) = Char.ofNat b.toNat :: lossyChars none rest := by
  have hb : b < 0x80 := UInt8.lt_iff_toNat_lt.mpr h
  simp [lossyChars, begin, hb]

theorem lossyChars_start (h : 0x80 ≤ b.toNat) (hp : Partial.start? b.toNat = some p) :
    lossyChars none (b :: rest) = lossyChars (some p) rest := by
  have hb : ¬b < 0x80 := fun hlt => Nat.not_lt.mpr h (UInt8.lt_iff_toNat_lt.mp hlt)
  simp [lossyChars, begin, hb, hp]

/-- A byte within the bounds that is not the last one. -/
theorem lossyChars_more (hlow : p.low ≤ b.toNat) (hhigh : b.toNat ≤ p.high) (hleft : 1 < p.left) :
    lossyChars (some p) (b :: rest) =
      lossyChars (some ⟨p.code * 64 + (b.toNat - 0x80), p.left - 1, 0x80, 0xbf⟩) rest := by
  simp [lossyChars, Partial.next, hlow, hhigh, Nat.not_le.mpr hleft]

theorem lossyChars_last (hlow : p.low ≤ b.toNat) (hhigh : b.toNat ≤ p.high) (hleft : p.left ≤ 1) :
    lossyChars (some p) (b :: rest) =
      Char.ofNat (p.code * 64 + (b.toNat - 0x80)) :: lossyChars none rest := by
  simp [lossyChars, Partial.next, hlow, hhigh, hleft]

/-! ### Lead bytes -/

theorem start?_two {lead : Nat} (hlow : 0xc2 ≤ lead) (hhigh : lead < 0xe0) :
    Partial.start? lead = some ⟨lead - 0xc0, 1, 0x80, 0xbf⟩ := by
  rw [Partial.start?, if_neg (by omega), if_pos hhigh]

theorem start?_three {lead : Nat} (hlow : 0xe0 ≤ lead) (hhigh : lead < 0xf0) :
    Partial.start? lead = some ⟨lead - 0xe0, 2, if lead = 0xe0 then 0xa0 else 0x80,
      if lead = 0xed then 0x9f else 0xbf⟩ := by
  unfold Partial.start?
  rw [if_neg (by omega), if_neg (by omega)]
  grind

theorem start?_four {lead : Nat} (hlow : 0xf0 ≤ lead) (hhigh : lead < 0xf5) :
    Partial.start? lead = some ⟨lead - 0xf0, 3, if lead = 0xf0 then 0x90 else 0x80,
      if lead = 0xf4 then 0x8f else 0xbf⟩ := by
  unfold Partial.start?
  rw [if_neg (by omega), if_neg (by omega)]
  grind

/-! ### Characters -/

theorem toNat_ofNat_of_lt {n : Nat} (h : n < 256) : (UInt8.ofNat n).toNat = n := by
  rw [UInt8.toNat_ofNat', Nat.mod_eq_of_lt h]

theorem lossyChars_two {n : Nat} (hlow : 0x80 ≤ n) (hhigh : n < 0x800) :
    lossyChars none (UInt8.ofNat (n / 64 % 32 + 192) :: UInt8.ofNat (n % 64 + 128) :: rest) =
      Char.ofNat n :: lossyChars none rest := by
  have hlead : (UInt8.ofNat (n / 64 % 32 + 192)).toNat = n / 64 + 192 := by
    rw [toNat_ofNat_of_lt (by omega)]
    omega
  have hlast : (UInt8.ofNat (n % 64 + 128)).toNat = n % 64 + 128 := toNat_ofNat_of_lt (by omega)
  have hstart := @start?_two (n / 64 + 192) (by omega) (by omega)
  have hcode : (n / 64 + 192 - 192) * 64 + (n % 64 + 128 - 128) = n := by omega
  rw [lossyChars_start (by omega) (hlead ▸ hstart)]
  rw [lossyChars_last (by simp only [hlast]; omega) (by simp only [hlast]; omega) (Nat.le_refl 1)]
  simp only [hlead, hlast, hcode]

theorem lossyChars_three {n : Nat} (hlow : 0x800 ≤ n) (hhigh : n < 0x10000)
    (hvalid : n < 0xd800 ∨ 0xdfff < n) :
    lossyChars none (UInt8.ofNat (n / 4096 % 16 + 224) :: UInt8.ofNat (n / 64 % 64 + 128) ::
        UInt8.ofNat (n % 64 + 128) :: rest) = Char.ofNat n :: lossyChars none rest := by
  have hlead : (UInt8.ofNat (n / 4096 % 16 + 224)).toNat = n / 4096 + 224 := by
    rw [toNat_ofNat_of_lt (by omega)]
    omega
  have hsecond : (UInt8.ofNat (n / 64 % 64 + 128)).toNat = n / 64 % 64 + 128 :=
    toNat_ofNat_of_lt (by omega)
  have hlast : (UInt8.ofNat (n % 64 + 128)).toNat = n % 64 + 128 := toNat_ofNat_of_lt (by omega)
  have hstart := @start?_three (n / 4096 + 224) (by omega) (by omega)
  have hcode : ((n / 4096 + 224 - 224) * 64 + (n / 64 % 64 + 128 - 128)) * 64 +
      (n % 64 + 128 - 128) = n := by omega
  rw [lossyChars_start (by omega) (hlead ▸ hstart)]
  rw [lossyChars_more (by simp only [hsecond]; split <;> omega)
    (by simp only [hsecond]; split <;> omega) (Nat.lt_succ_self 1)]
  rw [lossyChars_last (by simp only [hlast]; omega) (by simp only [hlast]; omega) (Nat.le_refl 1)]
  simp only [hlead, hsecond, hlast, hcode]

theorem lossyChars_four {n : Nat} (hlow : 0x10000 ≤ n) (hhigh : n < 0x110000) :
    lossyChars none (UInt8.ofNat (n / 262144 % 8 + 240) :: UInt8.ofNat (n / 4096 % 64 + 128) ::
        UInt8.ofNat (n / 64 % 64 + 128) :: UInt8.ofNat (n % 64 + 128) :: rest) =
      Char.ofNat n :: lossyChars none rest := by
  have hlead : (UInt8.ofNat (n / 262144 % 8 + 240)).toNat = n / 262144 + 240 := by
    rw [toNat_ofNat_of_lt (by omega)]
    omega
  have hsecond : (UInt8.ofNat (n / 4096 % 64 + 128)).toNat = n / 4096 % 64 + 128 :=
    toNat_ofNat_of_lt (by omega)
  have hthird : (UInt8.ofNat (n / 64 % 64 + 128)).toNat = n / 64 % 64 + 128 :=
    toNat_ofNat_of_lt (by omega)
  have hlast : (UInt8.ofNat (n % 64 + 128)).toNat = n % 64 + 128 := toNat_ofNat_of_lt (by omega)
  have hstart := @start?_four (n / 262144 + 240) (by omega) (by omega)
  have hcode : (((n / 262144 + 240 - 240) * 64 + (n / 4096 % 64 + 128 - 128)) * 64 +
      (n / 64 % 64 + 128 - 128)) * 64 + (n % 64 + 128 - 128) = n := by omega
  rw [lossyChars_start (by omega) (hlead ▸ hstart)]
  rw [lossyChars_more (by simp only [hsecond]; split <;> omega)
    (by simp only [hsecond]; split <;> omega) (by simp only; omega)]
  rw [lossyChars_more (by simp only [hthird]; omega) (by simp only [hthird]; omega)
    (by simp only; omega)]
  rw [lossyChars_last (by simp only [hlast]; omega) (by simp only [hlast]; omega)
    (by simp only; omega)]
  simp only [hlead, hsecond, hthird, hlast, hcode]

theorem lossyChars_utf8EncodeChar (c : Char) (rest : List UInt8) :
    lossyChars none (String.utf8EncodeChar c ++ rest) = c :: lossyChars none rest := by
  have hvalid : c.val.toNat < 0xd800 ∨ 0xdfff < c.val.toNat ∧ c.val.toNat < 0x110000 := c.valid
  have hofNat : Char.ofNat c.val.toNat = c := Char.ofNat_toNat c
  unfold String.utf8EncodeChar
  simp only
  split
  · next h =>
    have hbyte : (UInt8.ofNat c.val.toNat).toNat = c.val.toNat := toNat_ofNat_of_lt (by omega)
    rw [List.singleton_append, lossyChars_ascii (by omega), hbyte, hofNat]
  · split
    · simp only [List.cons_append, List.nil_append]
      rw [lossyChars_two (by omega) (by omega), hofNat]
    · split
      · simp only [List.cons_append, List.nil_append]
        rw [lossyChars_three (by omega) (by omega) (by omega), hofNat]
      · simp only [List.cons_append, List.nil_append]
        rw [lossyChars_four (by omega) (by omega), hofNat]

theorem lossyChars_flatMap (cs : List Char) :
    lossyChars none (cs.flatMap String.utf8EncodeChar) = cs := by
  induction cs with
  | nil => rfl
  | cons c cs ih => rw [List.flatMap_cons, lossyChars_utf8EncodeChar, ih]

theorem utf8_eq (s : String) : utf8 s = s.toList.flatMap String.utf8EncodeChar := by
  have hbytes : s.toUTF8 = (s.toList.flatMap String.utf8EncodeChar).toByteArray := by
    conv => lhs; rw [← String.ofList_toList (s := s)]
    exact String.toByteArray_ofList
  rw [utf8, hbytes, List.toList_data_toByteArray]

/-- The bytes of a text are read as the text. -/
theorem ofUtf8Lossy_utf8 (s : String) : ofUtf8Lossy (utf8 s) = s := by
  rw [ofUtf8Lossy, utf8_eq, lossyChars_flatMap, String.ofList_toList]

end GrammarEngine.Text

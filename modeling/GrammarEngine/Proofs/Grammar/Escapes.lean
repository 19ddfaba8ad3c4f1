import GrammarEngine.Grammar.Literal
import GrammarEngine.Proofs.Checked
import GrammarEngine.Proofs.Text
import Mathlib.Data.List.Infix
import Mathlib.Data.List.TakeWhile

/-!
# Escapes

The notation of literals and sets as relations between a text and what it denotes, beside the
functions that read it. What may follow a backslash and `u` is a parameter: in well-formed texts it
is four hexadecimal digits, or digits in braces. The reader accepts more: a number with a plus sign,
and at the end of the text fewer digits or no closing brace. Everything else is read exactly.
-/
namespace GrammarEngine

namespace Literal

/-! ## Notation -/

/-- Hexadecimal digits, at least one, that give the code point of a character. -/
def Hexadecimal (digits : List Char) (c : Char) : Prop :=
  digits ≠ [] ∧ Text.digitsValue? 16 Text.hexValue? digits = some c.toNat

/-- How a code point is written behind `\u`, in front of the rest of a text. -/
abbrev CodeNotation := List Char → List Char → Char → Prop

/-- Four hexadecimal digits, or digits in braces. -/
inductive WellFormed : CodeNotation
  | four {digits rest : List Char} {c : Char} :
      digits.length = 4 → Hexadecimal digits c → WellFormed digits rest c
  | braced {digits rest : List Char} {c : Char} :
      Hexadecimal digits c → WellFormed ('\x7b' :: digits ++ ['\x7d']) rest c

/-- A number may have a plus sign, and the end of the text stands for missing digits or for the
closing brace. -/
inductive Accepted : CodeNotation
  | four {number rest : List Char} {c : Char} :
      number.length = 4 → Hexadecimal (Text.dropPlus number) c → Accepted number rest c
  | braced {number rest : List Char} {c : Char} :
      Hexadecimal (Text.dropPlus number) c → Accepted ('\x7b' :: number ++ ['\x7d']) rest c
  | short {number : List Char} {c : Char} :
      number.length < 4 → Hexadecimal (Text.dropPlus number) c → Accepted number [] c
  | unclosed {number : List Char} {c : Char} :
      Hexadecimal (Text.dropPlus number) c → Accepted ('\x7b' :: number) [] c

/-- The first character that a text denotes, and what follows it. -/
inductive Takes (code : CodeNotation) : List Char → Char → List Char → Prop
  | ordinary {c : Char} {rest : List Char} : c ≠ '\\' → Takes code (c :: rest) c rest
  | control {c d : Char} {rest : List Char} :
      controlEscape? c = some d → Takes code ('\\' :: c :: rest) d rest
  | code {form rest : List Char} {c : Char} :
      code form rest c → Takes code ('\\' :: 'u' :: (form ++ rest)) c rest
  | itself {c : Char} {rest : List Char} : controlEscape? c = none → c ≠ 'u' → c ≠ 'p' → c ≠ 'P' →
      Takes code ('\\' :: c :: rest) c rest

/-- What the body of a literal denotes. -/
inductive Denotes (code : CodeNotation) : List Char → List Char → Prop
  | nil : Denotes code [] []
  | cons {cs rest text : List Char} {c : Char} :
      Takes code cs c rest → Denotes code rest text → Denotes code cs (c :: text)

/-- The first item of a set and what follows it: a character, or a range where a hyphen with a
character behind it follows. -/
inductive Item (code : CodeNotation) : List Char → Char × Char → List Char → Prop
  | single {cs rest : List Char} {c : Char} :
      Takes code cs c rest → afterHyphen? rest = none → Item code cs (c, c) rest
  | range {cs rest upper after : List Char} {low high : Char} :
      Takes code cs low rest → afterHyphen? rest = some upper → Takes code upper high after →
      low ≤ high → Item code cs (low, high) after

/-- The ranges that the body of a set denotes. -/
inductive Items (code : CodeNotation) : List Char → List (Char × Char) → Prop
  | nil : Items code [] []
  | cons {cs rest : List Char} {r : Char × Char} {rs : List (Char × Char)} :
      Item code cs r rest → Items code rest rs → Items code cs (r :: rs)

/-- A text that starts with an escape which denotes nothing. -/
def Malformed (code : CodeNotation) (cs : List Char) : Prop :=
  cs ≠ [] ∧ ∀ c rest, ¬ Takes code cs c rest

/-- A set whose first item has a malformed escape or is a descending range. -/
inductive BadItem (code : CodeNotation) : List Char → Prop
  | low {cs : List Char} : Malformed code cs → BadItem code cs
  | high {cs rest upper : List Char} {low : Char} :
      Takes code cs low rest → afterHyphen? rest = some upper → Malformed code upper →
      BadItem code cs
  | descending {cs rest upper after : List Char} {low high : Char} :
      Takes code cs low rest → afterHyphen? rest = some upper → Takes code upper high after →
      high < low → BadItem code cs

/-- The items of a set lead to a bad one. -/
inductive Spoiled (code : CodeNotation) : List Char → Prop
  | here {cs : List Char} : BadItem code cs → Spoiled code cs
  | behind {cs rest : List Char} {r : Char × Char} :
      Item code cs r rest → Spoiled code rest → Spoiled code cs

theorem afterHyphen?_ne_nil {cs upper : List Char} (h : afterHyphen? cs = some upper) :
    upper ≠ [] := by
  unfold afterHyphen? at h
  split at h
  · cases h
    exact List.cons_ne_nil _ _
  · cases h

/-! ## Escapes -/

theorem charOfHex_eq_some_iff {digits : List Char} {c : Char} :
    (Text.readHex 0x100000000 digits).bind Text.charOfCode? = some c ↔ Hexadecimal digits c := by
  unfold Text.readHex Text.readBelow Hexadecimal
  split
  · next hempty => simp [List.isEmpty_iff.mp hempty]
  · next hne =>
    have hne' : digits ≠ [] := fun heq => hne (by rw [heq]; rfl)
    simp only [Option.bind_eq_some_iff, Text.charOfCode?_eq_some_iff]
    constructor
    · rintro ⟨n, ⟨m, hm, hlt⟩, rfl⟩
      split at hlt
      · exact ⟨hne', hm.trans hlt⟩
      · cases hlt
    · rintro ⟨-, hvalue⟩
      have hbound : c.toNat < 0x100000000 := c.val.toNat_lt
      exact ⟨_, ⟨_, hvalue, if_pos hbound⟩, rfl⟩

theorem codeChar_eq_ok_iff {digits : List Char} {c : Char} :
    codeChar digits = .ok c ↔ Hexadecimal (Text.dropPlus digits) c := by
  rw [← charOfHex_eq_some_iff, codeChar]
  cases (Text.readHex 0x100000000 (Text.dropPlus digits)).bind Text.charOfCode? with
  | none => simp
  | some d => simp

theorem Hexadecimal.isHexDigit {digits : List Char} {c : Char} (h : Hexadecimal digits c) :
    ∀ d ∈ digits, Text.isHexDigit d = true :=
  Text.isSome_of_digitsValue? h.2

/-- A number is made of digits and at most a plus sign in front of them. -/
theorem mem_number {number : List Char} {c d : Char} (h : Hexadecimal (Text.dropPlus number) c)
    (hd : d ∈ number) : d = '+' ∨ Text.isHexDigit d = true := by
  unfold Text.dropPlus at h
  split at h
  · rcases List.mem_cons.mp hd with rfl | hd
    · exact .inl rfl
    · exact .inr (h.isHexDigit d hd)
  · exact .inr (h.isHexDigit d hd)

theorem not_mem_number {number : List Char} {c : Char} (h : Hexadecimal (Text.dropPlus number) c) :
    '\x7b' ∉ number ∧ '\x7d' ∉ number := by
  constructor <;> intro hin <;> rcases mem_number h hin with heq | hdigit
  · cases heq
  · revert hdigit
    decide
  · cases heq
  · revert hdigit
    decide

theorem head?_ne_brace {number after : List Char} {c : Char}
    (h : Hexadecimal (Text.dropPlus number) c) : (number ++ after).head? ≠ some '\x7b' := by
  intro hopen
  cases number with
  | nil => exact h.1 rfl
  | cons d number =>
      refine (not_mem_number h).1 ?_
      rw [Option.some.inj hopen]
      exact List.mem_cons_self

theorem codeDigits_of_ne {cs : List Char} (h : cs.head? ≠ some '\x7b') :
    codeDigits cs = (cs.take 4, cs.drop 4) := by
  unfold codeDigits
  split
  · exact absurd rfl h
  · rfl

theorem codeDigits_braced {digits rest : List Char} (h : '\x7d' ∉ digits) :
    codeDigits ('\x7b' :: digits ++ '\x7d' :: rest) = (digits, rest) := by
  have hstop : ∀ d ∈ digits, (d != '\x7d') = true := fun d hd =>
    bne_iff_ne.mpr fun heq => h (heq ▸ hd)
  have htake : (digits ++ '\x7d' :: rest).takeWhile (· != '\x7d') = digits := by
    rw [List.takeWhile_append_of_pos hstop]
    simp
  have hdrop : (digits ++ '\x7d' :: rest).dropWhile (· != '\x7d') = '\x7d' :: rest := by
    rw [List.dropWhile_append_of_pos hstop]
    simp
  rw [List.cons_append, codeDigits, htake, hdrop]
  rfl

theorem codeDigits_unclosed {digits : List Char} (h : '\x7d' ∉ digits) :
    codeDigits ('\x7b' :: digits) = (digits, []) := by
  have hstop : ∀ d ∈ digits, (d != '\x7d') = true := fun d hd =>
    bne_iff_ne.mpr fun heq => h (heq ▸ hd)
  have htake : digits.takeWhile (· != '\x7d') = digits := List.takeWhile_eq_self_iff.mpr hstop
  have hdrop : digits.dropWhile (· != '\x7d') = [] := List.dropWhile_eq_nil_iff.mpr hstop
  rw [codeDigits, htake, hdrop]
  rfl

/-- The digits that are cut off and what follows them make up the text. -/
theorem accepted_codeDigits {cs : List Char} {c : Char}
    (h : Hexadecimal (Text.dropPlus (codeDigits cs).1) c) :
    ∃ form, cs = form ++ (codeDigits cs).2 ∧ Accepted form (codeDigits cs).2 c := by
  by_cases hopen : cs.head? = some '\x7b'
  · obtain ⟨tail, rfl⟩ := List.head?_eq_some_iff.mp hopen
    by_cases hclose : '\x7d' ∈ tail
    · obtain ⟨digits, rest, rfl, hdigits⟩ := List.eq_append_cons_of_mem hclose
      have hcut : codeDigits ('\x7b' :: digits ++ '\x7d' :: rest) = (digits, rest) :=
        codeDigits_braced hdigits
      rw [List.cons_append] at hcut
      rw [hcut] at h ⊢
      exact ⟨'\x7b' :: digits ++ ['\x7d'], by simp, .braced h⟩
    · rw [codeDigits_unclosed hclose] at h ⊢
      exact ⟨'\x7b' :: tail, (List.append_nil _).symm, .unclosed h⟩
  · rw [codeDigits_of_ne hopen] at h ⊢
    refine ⟨cs.take 4, (List.take_append_drop 4 cs).symm, ?_⟩
    rcases Nat.lt_or_ge cs.length 4 with hshort | hlong
    · rw [List.drop_eq_nil_of_le (Nat.le_of_lt hshort)]
      refine .short ?_ h
      rw [List.length_take]
      omega
    · refine .four ?_ h
      rw [List.length_take]
      omega

/-- Every accepted number is cut off. -/
theorem Accepted.codeDigits {form rest : List Char} {c : Char} (h : Accepted form rest c) :
    ∃ number, Literal.codeDigits (form ++ rest) = (number, rest) ∧
      Hexadecimal (Text.dropPlus number) c := by
  cases h with
  | four hlength hnumber =>
      refine ⟨_, ?_, hnumber⟩
      rw [codeDigits_of_ne (head?_ne_brace hnumber), ← hlength, List.take_left, List.drop_left]
  | @braced number _ _ hnumber =>
      refine ⟨number, ?_, hnumber⟩
      rw [List.append_assoc, List.singleton_append]
      exact codeDigits_braced (not_mem_number hnumber).2
  | short hlength hnumber =>
      refine ⟨form, ?_, hnumber⟩
      rw [codeDigits_of_ne (head?_ne_brace hnumber), List.append_nil,
        List.take_of_length_le (Nat.le_of_lt hlength),
        List.drop_eq_nil_of_le (Nat.le_of_lt hlength)]
  | @unclosed number _ hnumber =>
      rw [List.append_nil]
      exact ⟨number, codeDigits_unclosed (not_mem_number hnumber).2, hnumber⟩

/-- An escape that is read denotes its character. -/
theorem takes_of_escape {cs : List Char} {t : Taken Char cs} (h : escape cs = .ok t) :
    Takes Accepted ('\\' :: cs) t.1 t.2.val := by
  unfold escape at h
  split at h
  · cases h
  · next c rest =>
    split at h
    · next hu =>
      obtain rfl := beq_iff_eq.mp hu
      split at h
      · next d hd =>
        obtain rfl := Except.ok.inj h
        obtain ⟨form, hform, hcode⟩ := accepted_codeDigits (codeChar_eq_ok_iff.mp hd)
        have htakes := Takes.code hcode
        rwa [← hform] at htakes
      · cases h
    · next hu =>
      split at h
      · cases h
      · next hp =>
        obtain rfl := Except.ok.inj h
        rw [Bool.or_eq_true, not_or] at hp
        cases hcontrol : controlEscape? c with
        | some d => exact .control hcontrol
        | none =>
            exact .itself hcontrol (by simpa using hu) (by simpa using hp.1) (by simpa using hp.2)

/-- Every escape that denotes a character is read. -/
theorem exists_escape {cs rest : List Char} {c : Char} (h : Takes Accepted ('\\' :: cs) c rest) :
    ∃ hlt, escape cs = .ok (c, ⟨rest, hlt⟩) := by
  generalize htext : '\\' :: cs = text at h
  cases h with
  | ordinary hne => exact absurd (List.cons.inj htext).1.symm hne
  | @control k _ _ hcontrol =>
      obtain rfl := (List.cons.inj htext).2
      have hu : (k == 'u') = false := beq_false_of_ne fun heq => by
        rw [heq] at hcontrol
        cases hcontrol
      have hp : (k == 'p' || k == 'P') = false := by
        rw [Bool.or_eq_false_iff]
        constructor <;> refine beq_false_of_ne fun heq => ?_ <;> rw [heq] at hcontrol <;>
          cases hcontrol
      exact ⟨Nat.lt_succ_self _, by simp [escape, hu, hp, hcontrol]⟩
  | @code form _ _ hcode =>
      obtain rfl := (List.cons.inj htext).2
      obtain ⟨number, hcut, hnumber⟩ := hcode.codeDigits
      have hread : codeChar (codeDigits (form ++ rest)).1 = .ok c := by
        rw [hcut]
        exact codeChar_eq_ok_iff.mpr hnumber
      have hrest : (codeDigits (form ++ rest)).2 = rest := by rw [hcut]
      have hlt : rest.length < ('u' :: (form ++ rest)).length := by
        rw [List.length_cons, List.length_append]
        omega
      refine ⟨hlt, ?_⟩
      simp only [escape, beq_self_eq_true, if_true, hread, hrest]
  | @itself k _ hcontrol hu hp hP =>
      obtain rfl := (List.cons.inj htext).2
      refine ⟨Nat.lt_succ_self _, ?_⟩
      simp [escape, hu, hp, hP, hcontrol]

theorem takes_of_setChar {cs : List Char} {t : Taken Char cs} (h : setChar cs = .ok (some t)) :
    Takes Accepted cs t.1 t.2.val := by
  unfold setChar at h
  split at h
  · cases h
  · next c rest =>
    split at h
    · next hc =>
      obtain rfl := beq_iff_eq.mp hc
      split at h
      · next hescape =>
        obtain rfl := Option.some.inj (Except.ok.inj h)
        exact takes_of_escape hescape
      · cases h
    · next hc =>
      obtain rfl := Option.some.inj (Except.ok.inj h)
      exact .ordinary (by simpa using hc)

theorem exists_setChar {cs rest : List Char} {c : Char} (h : Takes Accepted cs c rest) :
    ∃ hlt, setChar cs = .ok (some (c, ⟨rest, hlt⟩)) := by
  cases cs with
  | nil => cases h
  | cons k tail =>
      by_cases hk : k = '\\'
      · subst hk
        obtain ⟨hlt, hescape⟩ := exists_escape h
        exact ⟨Nat.lt_succ_of_lt hlt, by simp [setChar, hescape]⟩
      · cases h with
        | ordinary hne => exact ⟨Nat.lt_succ_self _, by simp [setChar, hne]⟩
        | control | code | itself => exact absurd rfl hk

theorem setChar_eq_none_iff {cs : List Char} : setChar cs = .ok none ↔ cs = [] := by
  constructor
  · intro h
    cases cs with
    | nil => rfl
    | cons c rest =>
        simp only [setChar] at h
        split at h
        · split at h <;> cases h
        · cases h
  · rintro rfl
    rfl

theorem malformed_of_setChar {cs : List Char} {fault : Fault} (h : setChar cs = .error fault) :
    Malformed Accepted cs := by
  constructor
  · rintro rfl
    cases h
  · intro c rest htakes
    obtain ⟨_, hread⟩ := exists_setChar htakes
    rw [h] at hread
    cases hread

/-- A text denotes one first character. -/
theorem Takes.unique {cs rest rest' : List Char} {c c' : Char} (h : Takes Accepted cs c rest)
    (h' : Takes Accepted cs c' rest') : c = c' ∧ rest = rest' := by
  obtain ⟨hlt, hread⟩ := exists_setChar h
  obtain ⟨hlt', hread'⟩ := exists_setChar h'
  have heq := Option.some.inj (Except.ok.inj (hread.symm.trans hread'))
  exact ⟨congrArg (·.1) heq, congrArg (·.2.val) heq⟩

/-! ## Literals -/

theorem unescape_of_takes {cs rest : List Char} {c : Char} (h : Takes Accepted cs c rest) :
    unescape cs = (unescape rest).map (c :: ·) := by
  cases cs with
  | nil => cases h
  | cons k tail =>
      by_cases hk : k = '\\'
      · subst hk
        obtain ⟨hlt, hescape⟩ := exists_escape h
        rw [unescape, hescape]
      · cases h with
        | ordinary hne =>
            rw [unescape]
            exact hne
        | control | code | itself => exact absurd rfl hk

theorem unescape_eq_ok_iff {cs text : List Char} :
    unescape cs = .ok text ↔ Denotes Accepted cs text := by
  constructor
  · intro h
    induction cs using unescape.induct generalizing text with
    | case1 =>
        rw [unescape] at h
        obtain rfl := Except.ok.inj h
        exact .nil
    | case2 rest c after hlt hescape ih =>
        rw [unescape, hescape] at h
        obtain ⟨tail, htail, rfl⟩ := map_eq_ok.mp h
        exact .cons (takes_of_escape hescape) (ih htail)
    | case3 rest fault hescape =>
        rw [unescape, hescape] at h
        cases h
    | case4 c rest hne ih =>
        rw [unescape] at h
        · obtain ⟨tail, htail, rfl⟩ := map_eq_ok.mp h
          exact .cons (.ordinary hne) (ih htail)
        · exact hne
  · intro h
    induction h with
    | nil => rw [unescape]
    | cons htakes _ ih =>
        rw [unescape_of_takes htakes, ih]
        rfl

/-! ## Sets -/

/-- Whether an item is a range is seen behind its first character. -/
theorem Item.behind_low {cs mid rest : List Char} {r : Char × Char} {low : Char}
    (h : Item Accepted cs r rest) (hlow : Takes Accepted cs low mid) :
    (afterHyphen? mid = none ∧ r = (low, low) ∧ rest = mid) ∨
      ∃ upper high, afterHyphen? mid = some upper ∧ Takes Accepted upper high rest ∧ low ≤ high ∧
        r = (low, high) := by
  cases h with
  | single htakes hnone =>
      obtain ⟨rfl, rfl⟩ := htakes.unique hlow
      exact .inl ⟨hnone, rfl, rfl⟩
  | range htakes hupper hhigh hle =>
      obtain ⟨rfl, rfl⟩ := htakes.unique hlow
      exact .inr ⟨_, _, hupper, hhigh, hle, rfl⟩

theorem Item.unique {cs rest rest' : List Char} {r r' : Char × Char} (h : Item Accepted cs r rest)
    (h' : Item Accepted cs r' rest') : r = r' ∧ rest = rest' := by
  cases h with
  | single hlow hnone =>
      rcases h'.behind_low hlow with ⟨-, rfl, rfl⟩ | ⟨upper, high, hupper, -⟩
      · exact ⟨rfl, rfl⟩
      · cases hnone.symm.trans hupper
  | range hlow hupper hhigh =>
      rcases h'.behind_low hlow with ⟨hnone, -⟩ | ⟨upper', high', hupper', hhigh', -, rfl⟩
      · cases hnone.symm.trans hupper
      · obtain rfl := Option.some.inj (hupper.symm.trans hupper')
        obtain ⟨rfl, rfl⟩ := hhigh.unique hhigh'
        exact ⟨rfl, rfl⟩

theorem BadItem.not_item {cs rest : List Char} {r : Char × Char} (h : BadItem Accepted cs) :
    ¬ Item Accepted cs r rest := by
  intro hitem
  cases h with
  | low hmalformed =>
      cases hitem with
      | single hlow | range hlow => exact hmalformed.2 _ _ hlow
  | high hlow hupper hmalformed =>
      rcases hitem.behind_low hlow with ⟨hnone, -⟩ | ⟨upper', high', hupper', hhigh', -⟩
      · cases hnone.symm.trans hupper
      · obtain rfl := Option.some.inj (hupper.symm.trans hupper')
        exact hmalformed.2 _ _ hhigh'
  | descending hlow hupper hhigh hlt =>
      rcases hitem.behind_low hlow with ⟨hnone, -⟩ | ⟨upper', high', hupper', hhigh', hle, -⟩
      · cases hnone.symm.trans hupper
      · obtain rfl := Option.some.inj (hupper.symm.trans hupper')
        obtain ⟨rfl, rfl⟩ := hhigh.unique hhigh'
        exact absurd hlt (Char.not_lt.mpr hle)

theorem Item.ne_nil {cs rest : List Char} {r : Char × Char} (h : Item Accepted cs r rest) :
    cs ≠ [] := by
  rintro rfl
  cases h with
  | single hlow | range hlow => cases hlow

theorem BadItem.ne_nil {cs : List Char} (h : BadItem Accepted cs) : cs ≠ [] := by
  rintro rfl
  cases h with
  | low hmalformed => exact hmalformed.1 rfl
  | high hlow | descending hlow => cases hlow

/-- A set is at its end, or it starts with an item or with a bad one, and is read as such. -/
theorem setItem_cases (cs : List Char) :
    (cs = [] ∧ setItem cs = .ok none) ∨
      (∃ t, setItem cs = .ok (some t) ∧ Item Accepted cs t.1 t.2.val) ∨
      ∃ fault, setItem cs = .error fault ∧ BadItem Accepted cs := by
  cases hitem : setItem cs with
  | error fault =>
      refine .inr (.inr ⟨fault, rfl, ?_⟩)
      unfold setItem at hitem
      split at hitem
      · next hlow => exact .low (malformed_of_setChar hlow)
      · cases hitem
      · next low rest hlt hlow =>
        split at hitem
        · cases hitem
        · next upper hupper =>
          split at hitem
          · next hhigh => exact .high (takes_of_setChar hlow) hupper (malformed_of_setChar hhigh)
          · cases hitem
          · next hhigh =>
            split at hitem
            · next hlt =>
              exact .descending (takes_of_setChar hlow) hupper (takes_of_setChar hhigh) hlt
            · cases hitem
  | ok item =>
      unfold setItem at hitem
      split at hitem
      · cases hitem
      · next hnone =>
        obtain rfl := Except.ok.inj hitem
        exact .inl ⟨setChar_eq_none_iff.mp hnone, rfl⟩
      · next low rest hlt hlow =>
        split at hitem
        · next hnone =>
          obtain rfl := Except.ok.inj hitem
          exact .inr (.inl ⟨_, rfl, .single (takes_of_setChar hlow) hnone⟩)
        · next upper hupper =>
          split at hitem
          · cases hitem
          · next hnone =>
            exact absurd (setChar_eq_none_iff.mp hnone) (afterHyphen?_ne_nil hupper)
          · next hhigh =>
            split at hitem
            · cases hitem
            · next hnot =>
              obtain rfl := Except.ok.inj hitem
              exact .inr (.inl ⟨_, rfl, .range (takes_of_setChar hlow) hupper
                (takes_of_setChar hhigh) (Char.not_lt.mp hnot)⟩)

theorem ranges_of_item {cs rest : List Char} {r : Char × Char} (h : Item Accepted cs r rest) :
    ranges cs = (ranges rest).map (r :: ·) := by
  rcases setItem_cases cs with ⟨hnil, -⟩ | ⟨t, hread, hitem⟩ | ⟨fault, -, hbad⟩
  · exact absurd hnil h.ne_nil
  · obtain ⟨rfl, rfl⟩ := h.unique hitem
    rw [ranges, hread]
  · exact absurd h hbad.not_item

theorem ranges_of_badItem {cs : List Char} (h : BadItem Accepted cs) :
    ∃ fault, ranges cs = .error fault := by
  rcases setItem_cases cs with ⟨hnil, -⟩ | ⟨t, -, hitem⟩ | ⟨fault, hread, -⟩
  · exact absurd hnil h.ne_nil
  · exact absurd hitem h.not_item
  · exact ⟨fault, by rw [ranges, hread]⟩

/-- A set is read to its end, or its items lead to a bad one. -/
theorem ranges_cases (cs : List Char) :
    (∃ rs, ranges cs = .ok rs ∧ Items Accepted cs rs) ∨
      ∃ fault, ranges cs = .error fault ∧ Spoiled Accepted cs := by
  rcases setItem_cases cs with ⟨rfl, -⟩ | ⟨⟨r, rest, hlt⟩, -, hitem⟩ | ⟨-, -, hbad⟩
  · exact .inl ⟨[], by rw [ranges]; rfl, .nil⟩
  · have hread := ranges_of_item hitem
    rcases ranges_cases rest with ⟨rs, hrs, hitems⟩ | ⟨fault, hfault, hspoiled⟩
    · exact .inl ⟨r :: rs, by rw [hread, hrs]; rfl, .cons hitem hitems⟩
    · exact .inr ⟨fault, by rw [hread, hfault]; rfl, .behind hitem hspoiled⟩
  · obtain ⟨fault, hfault⟩ := ranges_of_badItem hbad
    exact .inr ⟨fault, hfault, .here hbad⟩
termination_by cs.length

theorem ranges_eq_ok_iff {cs : List Char} {rs : List (Char × Char)} :
    ranges cs = .ok rs ↔ Items Accepted cs rs := by
  constructor
  · intro h
    rcases ranges_cases cs with ⟨rs', hread, hitems⟩ | ⟨fault, hread, -⟩
    · obtain rfl := Except.ok.inj (h.symm.trans hread)
      exact hitems
    · cases h.symm.trans hread
  · intro h
    induction h with
    | nil =>
        rw [ranges]
        rfl
    | cons hitem _ ih =>
        rw [ranges_of_item hitem, ih]
        rfl

theorem ranges_fails_iff {cs : List Char} :
    (∃ fault, ranges cs = .error fault) ↔ Spoiled Accepted cs := by
  constructor
  · rintro ⟨fault, h⟩
    rcases ranges_cases cs with ⟨rs, hread, -⟩ | ⟨_, -, hspoiled⟩
    · cases h.symm.trans hread
    · exact hspoiled
  · intro h
    induction h with
    | here hbad => exact ranges_of_badItem hbad
    | behind hitem _ ih =>
        obtain ⟨fault, hfault⟩ := ih
        exact ⟨fault, by rw [ranges_of_item hitem, hfault]; rfl⟩

theorem charSet_eq_ok_iff {cs : List Char} {rs : List (Char × Char)} :
    charSet cs = .ok rs ↔ Items Accepted cs rs ∧ rs ≠ [] := by
  rw [← ranges_eq_ok_iff, charSet]
  rcases hread : ranges cs with fault | _ | ⟨r, rs'⟩
  · simp
  · simp only [reduceCtorEq, Except.ok.injEq, false_iff, not_and, not_not]
    exact Eq.symm
  · simp only [Except.ok.injEq]
    constructor
    · rintro rfl
      exact ⟨rfl, List.cons_ne_nil r rs'⟩
    · exact And.left

theorem charSet_fails_iff {cs : List Char} :
    (∃ fault, charSet cs = .error fault) ↔ cs = [] ∨ Spoiled Accepted cs := by
  rw [← ranges_fails_iff, charSet]
  rcases setItem_cases cs with ⟨rfl, hread⟩ | ⟨⟨r, rest, hlt⟩, -, hitem⟩ | ⟨-, -, hbad⟩
  · rw [ranges, hread]
    simp
  · rw [ranges_of_item hitem]
    have hne := hitem.ne_nil
    cases ranges rest with
    | error fault => simp [Except.map]
    | ok rs => simp [Except.map, hne]
  · obtain ⟨fault, hfault⟩ := ranges_of_badItem hbad
    rw [hfault]
    simp

/-! ## Notations compared -/

/-- Along all texts with a property, what one notation reads the other one reads too. -/
structure Carries (code code' : CodeNotation) (P : List Char → Prop) : Prop where
  takes : ∀ {cs c rest}, P cs → Takes code cs c rest → Takes code' cs c rest
  rest : ∀ {cs c rest}, P cs → Takes code cs c rest → P rest

section Carries

variable {code code' : CodeNotation} {P : List Char → Prop} {cs rest : List Char}

theorem Carries.denotes {text : List Char} (h : Carries code code' P) (hcs : P cs)
    (hdenotes : Denotes code cs text) : Denotes code' cs text := by
  induction hdenotes with
  | nil => exact .nil
  | cons htakes _ ih => exact .cons (h.takes hcs htakes) (ih (h.rest hcs htakes))

theorem Carries.upper {upper : List Char} {c : Char} (h : Carries code code' P) (hcs : P cs)
    (hlow : Takes code cs c rest) (hupper : afterHyphen? rest = some upper) : P upper := by
  have hrest := h.rest hcs hlow
  unfold afterHyphen? at hupper
  split at hupper
  · obtain rfl := Option.some.inj hupper
    exact h.rest hrest (.ordinary (by decide))
  · cases hupper

theorem Carries.item {r : Char × Char} (h : Carries code code' P) (hcs : P cs)
    (hitem : Item code cs r rest) : Item code' cs r rest ∧ P rest := by
  cases hitem with
  | single hlow hnone => exact ⟨.single (h.takes hcs hlow) hnone, h.rest hcs hlow⟩
  | range hlow hupper hhigh hle =>
      have hmore := h.upper hcs hlow hupper
      exact ⟨.range (h.takes hcs hlow) hupper (h.takes hmore hhigh) hle, h.rest hmore hhigh⟩

theorem Carries.items {rs : List (Char × Char)} (h : Carries code code' P) (hcs : P cs)
    (hitems : Items code cs rs) : Items code' cs rs := by
  induction hitems with
  | nil => exact .nil
  | cons hitem _ ih =>
      obtain ⟨hitem', hrest⟩ := h.item hcs hitem
      exact .cons hitem' (ih hrest)

theorem Carries.malformed (h : Carries code' code P) (hcs : P cs) (hbad : Malformed code cs) :
    Malformed code' cs :=
  ⟨hbad.1, fun c rest htakes => hbad.2 c rest (h.takes hcs htakes)⟩

theorem Carries.spoiled (h : Carries code code' P) (hback : Carries code' code P) (hcs : P cs)
    (hspoiled : Spoiled code cs) : Spoiled code' cs := by
  induction hspoiled with
  | here hbad =>
      refine .here ?_
      cases hbad with
      | low hmalformed => exact .low (hback.malformed hcs hmalformed)
      | high hlow hupper hmalformed =>
          have hmore := h.upper hcs hlow hupper
          exact .high (h.takes hcs hlow) hupper (hback.malformed hmore hmalformed)
      | descending hlow hupper hhigh hlt =>
          have hmore := h.upper hcs hlow hupper
          exact .descending (h.takes hcs hlow) hupper (h.takes hmore hhigh) hlt
  | behind hitem _ ih =>
      obtain ⟨hitem', hrest⟩ := h.item hcs hitem
      exact .behind hitem' (ih hrest)

end Carries

/-! ## Well-formed code points -/

/-- A code point that starts without a plus sign and whose digits are not cut off by the end of the
text. -/
def wholeCode : List Char → Bool
  | '\x7b' :: rest => rest.head? != some '+' && rest.contains '\x7d'
  | cs => cs.head? != some '+' && decide (4 ≤ cs.length)

/-- Every code point that is read is whole. -/
def Regular (body : List Char) : Prop :=
  ∀ before form rest text c, body = before ++ '\\' :: 'u' :: (form ++ rest) →
    Denotes WellFormed before text → Accepted form rest c → wholeCode (form ++ rest) = true

theorem dropPlus_of_head? {cs : List Char} (h : cs.head? ≠ some '+') : Text.dropPlus cs = cs := by
  unfold Text.dropPlus
  split
  · exact absurd rfl h
  · rfl

theorem Hexadecimal.head?_ne_plus {digits : List Char} {c : Char} (h : Hexadecimal digits c) :
    digits.head? ≠ some '+' := by
  intro hplus
  have hdigit := h.isHexDigit '+' (List.mem_of_mem_head? hplus)
  revert hdigit
  decide

theorem WellFormed.accepted {form rest : List Char} {c : Char} (h : WellFormed form rest c) :
    Accepted form rest c := by
  cases h with
  | four hlength hdigits =>
      refine .four hlength ?_
      rwa [dropPlus_of_head? hdigits.head?_ne_plus]
  | braced hdigits =>
      refine .braced ?_
      rwa [dropPlus_of_head? hdigits.head?_ne_plus]

theorem Takes.accepted {cs rest : List Char} {c : Char} (h : Takes WellFormed cs c rest) :
    Takes Accepted cs c rest := by
  cases h with
  | ordinary hne => exact .ordinary hne
  | control hcontrol => exact .control hcontrol
  | code hform => exact .code hform.accepted
  | itself hcontrol hu hp hP => exact .itself hcontrol hu hp hP

theorem carries_accepted : Carries WellFormed Accepted fun _ => True :=
  ⟨fun _ => Takes.accepted, fun _ _ => trivial⟩

/-- A number without a plus sign consists of digits. -/
theorem hexadecimal_of_head? {number after : List Char} {c : Char}
    (h : Hexadecimal (Text.dropPlus number) c) (hplus : (number ++ after).head? ≠ some '+') :
    Hexadecimal number c := by
  cases number with
  | nil => exact absurd rfl h.1
  | cons d number =>
      rwa [dropPlus_of_head?] at h
      exact hplus

theorem wholeCode_of_ne {cs : List Char} (hopen : cs.head? ≠ some '\x7b')
    (h : wholeCode cs = true) : cs.head? ≠ some '+' ∧ 4 ≤ cs.length := by
  unfold wholeCode at h
  split at h
  · exact absurd rfl hopen
  · simpa using h

theorem Accepted.wellFormed {form rest : List Char} {c : Char} (h : Accepted form rest c)
    (hwhole : wholeCode (form ++ rest) = true) : WellFormed form rest c := by
  cases h with
  | four hlength hnumber =>
      obtain ⟨hplus, -⟩ := wholeCode_of_ne (head?_ne_brace hnumber) hwhole
      exact .four hlength (hexadecimal_of_head? hnumber hplus)
  | @braced number _ _ hnumber =>
      rw [List.append_assoc, List.cons_append, wholeCode, Bool.and_eq_true] at hwhole
      exact .braced (hexadecimal_of_head? hnumber (bne_iff_ne.mp hwhole.1))
  | short hlength hnumber =>
      obtain ⟨-, hlong⟩ := wholeCode_of_ne (head?_ne_brace hnumber) hwhole
      rw [List.append_nil] at hlong
      omega
  | @unclosed number _ hnumber =>
      rw [List.append_nil, wholeCode, Bool.and_eq_true, List.contains_iff_mem] at hwhole
      exact absurd hwhole.2 (not_mem_number hnumber).2

/-- What a text starts with denotes the same in front of any other text. -/
theorem Takes.exists_piece {cs rest : List Char} {c : Char} (h : Takes WellFormed cs c rest) :
    ∃ piece, cs = piece ++ rest ∧ ∀ other, Takes WellFormed (piece ++ other) c other := by
  cases h with
  | @ordinary _ _ hne => exact ⟨[c], rfl, fun _ => .ordinary hne⟩
  | @control k _ _ hcontrol => exact ⟨['\\', k], rfl, fun _ => .control hcontrol⟩
  | @code form _ _ hform =>
      refine ⟨'\\' :: 'u' :: form, rfl, fun other => .code ?_⟩
      cases hform with
      | four hlength hdigits => exact .four hlength hdigits
      | braced hdigits => exact .braced hdigits
  | @itself _ _ hcontrol hu hp hP =>
      exact ⟨['\\', c], rfl, fun _ => .itself hcontrol hu hp hP⟩

theorem Regular.rest {cs rest : List Char} {c : Char} (h : Regular cs)
    (htakes : Takes WellFormed cs c rest) : Regular rest := by
  obtain ⟨piece, rfl, hpiece⟩ := htakes.exists_piece
  intro before form after text d hrest hbefore
  refine h (piece ++ before) form after (c :: text) d ?_ (.cons (hpiece before) hbefore)
  rw [hrest, List.append_assoc]

/-- Whether a text that starts with an escape of a code point starts with a whole one. -/
def startsWhole : List Char → Bool
  | '\\' :: 'u' :: after => wholeCode after
  | _ => true

/-- Looking at every place of a text is enough, whether or not it is read from there. -/
theorem regular_of_tails {body : List Char} (h : ∀ tail ∈ body.tails, startsWhole tail = true) :
    Regular body := by
  intro before form rest text c hbody _ _
  exact h _ ((List.mem_tails _ _).mpr ⟨before, hbody.symm⟩)

theorem Regular.takes {cs rest : List Char} {c : Char} (h : Regular cs)
    (htakes : Takes Accepted cs c rest) : Takes WellFormed cs c rest := by
  cases htakes with
  | ordinary hne => exact .ordinary hne
  | control hcontrol => exact .control hcontrol
  | code hform => exact .code (hform.wellFormed (h [] _ _ [] _ rfl .nil hform))
  | itself hcontrol hu hp hP => exact .itself hcontrol hu hp hP

theorem carries_wellFormed : Carries Accepted WellFormed Regular :=
  ⟨Regular.takes, fun h htakes => h.rest (h.takes htakes)⟩

theorem carries_regular : Carries WellFormed Accepted Regular :=
  ⟨fun _ => Takes.accepted, Regular.rest⟩

/-- The bodies of literals and sets are read as what they denote in the notation that is accepted.
What is well formed is therefore read as what it denotes, and where every code point is whole,
nothing else is read. -/
theorem escapes_exact (body : List Char) :
    ((∀ text, unescape body = .ok text ↔ Denotes Accepted body text) ∧
      (∀ rs, charSet body = .ok rs ↔ Items Accepted body rs ∧ rs ≠ []) ∧
      ((∃ fault, charSet body = .error fault) ↔ body = [] ∨ Spoiled Accepted body)) ∧
    ((∀ text, Denotes WellFormed body text → unescape body = .ok text) ∧
      ∀ rs, Items WellFormed body rs → rs ≠ [] → charSet body = .ok rs) ∧
    (Regular body →
      (∀ text, unescape body = .ok text ↔ Denotes WellFormed body text) ∧
        (∀ rs, charSet body = .ok rs ↔ Items WellFormed body rs ∧ rs ≠ []) ∧
        ((∃ fault, charSet body = .error fault) ↔ body = [] ∨ Spoiled WellFormed body)) := by
  refine ⟨⟨fun _ => unescape_eq_ok_iff, fun _ => charSet_eq_ok_iff, charSet_fails_iff⟩,
    ⟨?_, ?_⟩, fun hregular => ⟨fun text => ?_, fun rs => ?_, ?_⟩⟩
  · intro text hdenotes
    exact unescape_eq_ok_iff.mpr (carries_accepted.denotes trivial hdenotes)
  · intro rs hitems hne
    exact charSet_eq_ok_iff.mpr ⟨carries_accepted.items trivial hitems, hne⟩
  · rw [unescape_eq_ok_iff]
    exact ⟨carries_wellFormed.denotes hregular, carries_regular.denotes hregular⟩
  · rw [charSet_eq_ok_iff]
    exact and_congr_left fun _ =>
      ⟨carries_wellFormed.items hregular, carries_regular.items hregular⟩
  · rw [charSet_fails_iff]
    exact or_congr_right ⟨carries_wellFormed.spoiled carries_regular hregular,
      carries_regular.spoiled carries_wellFormed hregular⟩

/-- Escaped and plain characters, a range and hyphens that make none. -/
def letterRange : List Char := "\\u0041-\\u\x7b5A\x7d\\n\\-x-".toList

theorem letterRange_read :
    Regular letterRange ∧ Denotes WellFormed letterRange "A-Z\n-x-".toList ∧
      Items WellFormed letterRange
        [('A', 'Z'), ('\n', '\n'), ('-', '-'), ('x', 'x'), ('-', '-')] := by
  have hregular : Regular letterRange := regular_of_tails (by decide +kernel)
  obtain ⟨hliteral, hset, -⟩ := (escapes_exact letterRange).2.2 hregular
  exact ⟨hregular, (hliteral _).mp (by decide +kernel), ((hset _).mp (by decide +kernel)).1⟩

end Literal

end GrammarEngine

import GrammarEngine.Proofs.Automaton.Instructions
import GrammarEngine.Proofs.Automaton.Rules
import GrammarEngine.Proofs.Lexer.Marks
import GrammarEngine.Proofs.Text

/-!
# Letter case is ignored

A rule that is compiled for any letter case reads both cases of an ASCII letter alike, with two
exceptions. Ranges over the limit of folding stand for the characters that they name, so a set may
name one case in such a range and not name the other. And the case forms of a character beyond ASCII
may bring in one case of a letter alone. Neither concerns a rule that names ASCII characters only.

Where the instructions of a program do not tell two texts apart, neither do its matches.
-/
namespace GrammarEngine

/-! ## Sets -/

namespace CharRanges

variable {ranges others : List Range} {r : Range} {a c d : Char} {x : UInt32}

/-- The ranges to which case forms are added. -/
def short (ranges : List Range) : List Range :=
  ranges.filter fun r => decide (r.2.toNat - r.1.toNat ≤ foldLimit)

theorem contains_append :
    Contains (ranges ++ others) x ↔ Contains ranges x ∨ Contains others x := by
  simp only [Contains, List.mem_append, or_and_right, exists_or]

theorem contains_flatMap {α : Type} {xs : List α} {f : α → List Range} :
    Contains (xs.flatMap f) x ↔ ∃ a ∈ xs, Contains (f a) x := by
  simp only [Contains, List.mem_flatMap]
  constructor
  · rintro ⟨r, ⟨a, ha, hr⟩, hin⟩
    exact ⟨a, ha, r, hr, hin⟩
  · rintro ⟨a, ha, r, hr, hin⟩
    exact ⟨r, ⟨a, ha, hr⟩, hin⟩

theorem mem_members_iff : a ∈ members r ↔ r.1 ≤ a.val ∧ a.val ≤ r.2 := by
  have hcode : a.val.toNat = a.toNat := rfl
  rw [members, List.mem_filterMap, UInt32.le_iff_toNat_le, UInt32.le_iff_toNat_le, hcode]
  constructor
  · rintro ⟨i, hi, ha⟩
    have hvalue := Text.charOfCode?_eq_some_iff.mp ha
    rw [List.mem_range] at hi
    omega
  · rintro ⟨hlow, hhigh⟩
    refine ⟨a.toNat - r.1.toNat, List.mem_range.mpr (by omega), ?_⟩
    rw [Nat.add_sub_cancel' hlow, Text.charOfCode?_toNat]

theorem contains_singles_iff {cs : List Char} : Contains (cs.map single) c.val ↔ c ∈ cs := by
  constructor
  · rintro ⟨r, hr, hlow, hhigh⟩
    obtain ⟨b, hb, rfl⟩ := List.mem_map.mp hr
    obtain rfl : b = c := Char.ext (UInt32.le_antisymm hlow hhigh)
    exact hb
  · intro hc
    exact ⟨single c, List.mem_map_of_mem hc, UInt32.le_refl _, UInt32.le_refl _⟩

theorem contains_variants_iff :
    Contains (variants a) c.val ↔ c ∈ Text.caseForms a ∧ c ≠ a := by
  rw [variants, contains_singles_iff, List.mem_filter, bne_iff_ne, Text.caseForms]

theorem contains_foldedVariants_iff : Contains (foldedVariants r) c.val ↔
    r.2.toNat - r.1.toNat ≤ foldLimit ∧
      ∃ a ∈ members r, c ∈ Text.caseForms a ∧ c ≠ a := by
  rw [foldedVariants]
  split
  · next hlong =>
    exact ⟨fun ⟨_, hr, _⟩ => absurd hr List.not_mem_nil,
      fun ⟨hshort, _⟩ => absurd hshort (Nat.not_le_of_lt hlong)⟩
  · next hshort =>
    simp only [contains_flatMap, contains_variants_iff, Nat.le_of_not_lt hshort, true_and]

/-- A set in which case is ignored contains what it names, and the case forms of what it names in
short ranges. -/
theorem contains_foldCase_iff : Contains (foldCase ranges) c.val ↔
    Contains ranges c.val ∨ ∃ a, Contains (short ranges) a.val ∧ c ∈ Text.caseForms a := by
  have hshort {a : Char} : Contains (short ranges) a.val ↔
      ∃ r ∈ ranges, r.2.toNat - r.1.toNat ≤ foldLimit ∧ a ∈ members r := by
    simp only [Contains, short, List.mem_filter, decide_eq_true_eq, mem_members_iff, and_assoc]
  rw [foldCase, contains_normalize, contains_append, contains_flatMap]
  constructor
  · rintro (hnamed | ⟨r, hr, hc⟩)
    · exact .inl hnamed
    · obtain ⟨hlimit, a, ha, hform, -⟩ := contains_foldedVariants_iff.mp hc
      exact .inr ⟨a, hshort.mpr ⟨r, hr, hlimit, ha⟩, hform⟩
  · rintro (hnamed | ⟨a, ha, hform⟩)
    · exact .inl hnamed
    · obtain ⟨r, hr, hlimit, hmem⟩ := hshort.mp ha
      by_cases hsame : c = a
      · exact .inl ⟨r, hr, hsame ▸ mem_members_iff.mp hmem⟩
      · exact .inr ⟨r, hr, contains_foldedVariants_iff.mpr ⟨hlimit, a, hmem, hform, hsame⟩⟩

/-- A set that contains the other case of a letter if it contains the one: it names the other case
too, or the one in a short range, unless it names neither case and none of the characters beyond
ASCII in its short ranges has the one as a form. -/
structure Pairs (ranges : List Range) (c d : Char) : Prop where
  named : Contains ranges c.val → Contains (short ranges) c.val ∨ Contains ranges d.val
  foreign : ∀ a, Contains (short ranges) a.val → 128 ≤ a.toNat → c ∈ Text.caseForms a →
    Contains ranges c.val ∨ Contains ranges d.val

theorem Pairs.contains (h : Pairs ranges c d) (hcase : c.toLower = d.toLower)
    (hascii : c.toNat < 128) (hc : Contains (foldCase ranges) c.val) :
    Contains (foldCase ranges) d.val := by
  have hnamed (hc : Contains ranges c.val) : Contains (foldCase ranges) d.val := by
    rw [contains_foldCase_iff]
    rcases h.named hc with hshort | hd
    · exact .inr ⟨c, hshort, (Text.mem_caseForms_iff hascii).mpr hcase.symm⟩
    · exact .inl hd
  rcases contains_foldCase_iff.mp hc with hc | ⟨a, ha, hform⟩
  · exact hnamed hc
  · by_cases hletter : a.toNat < 128
    -- Both cases are forms of an ASCII letter, so the one brings in the other.
    · rw [Text.mem_caseForms_iff hletter, hcase, ← Text.mem_caseForms_iff hletter] at hform
      exact contains_foldCase_iff.mpr (.inr ⟨a, ha, hform⟩)
    · rcases h.foreign a ha (Nat.le_of_not_lt hletter) hform with hc | hd
      · exact hnamed hc
      · exact contains_foldCase_iff.mpr (.inl hd)

end CharRanges

/-! ## Instructions -/

namespace Automaton

open LexerCode

variable {table : Table} {alternatives : List (List UnitExpr)} {a c d : Char}
  {i : Instruction}

theorem reads_ranges_iff {ranges : List CharRanges.Range} :
    reads c (.ranges ranges false) = true ↔ CharRanges.Contains ranges c.val := by
  have hreads : reads c (.ranges ranges false) = (inRanges c.val ranges != false) := rfl
  rw [hreads, Bool.bne_false, inRanges_iff]

theorem reads_char_iff : reads c (.char a.val) = true ↔ c = a := by
  rw [← charInstruction_eq, reads_charInstruction, eq_comm]

theorem reads_cases_iff {lower upper : Char} :
    reads c (.ranges (CharRanges.normalize [CharRanges.single lower, CharRanges.single upper])
      false) = true ↔ c = lower ∨ c = upper := by
  have hset : [CharRanges.single lower, CharRanges.single upper] =
      [lower, upper].map CharRanges.single := rfl
  rw [reads_ranges_iff, CharRanges.contains_normalize, hset, CharRanges.contains_singles_iff]
  simp

/-- A literal that ignores case reads either case of an ASCII letter. -/
theorem reads_of_ascii (ha : a.toNat < 128) :
    reads c (charInstruction true a) = true ↔ c.toLower = a.toLower := by
  simp only [charInstruction, Text.lowerForm_ascii a ha, Text.upperForm_ascii a ha,
    List.headD_cons, Bool.true_and]
  rw [Text.toLower_eq_iff ha]
  by_cases hcases : a.toLower = a.toUpper
  · have hself : a = a.toUpper := (Text.eq_toLower_or_toUpper ha).elim (·.trans hcases) id
    rw [if_neg (by simpa using hcases), reads_char_iff, hcases, or_self, ← hself]
  · rw [if_pos (by simpa using hcases), reads_cases_iff]

/-- At other characters it reads what their forms begin with. -/
theorem eq_of_reads (h : reads c (charInstruction true a) = true) :
    c = a ∨ c = (Text.lowerForm a).headD a ∨ c = (Text.upperForm a).headD a := by
  simp only [charInstruction] at h
  split at h
  · exact .inr (reads_cases_iff.mp h)
  · exact .inl (reads_char_iff.mp h)

/-! ## Rules -/

/-- A rule that reads the other case of a letter where it reads the one: no form of a character
beyond ASCII in its literals begins with the one, and its sets pair the cases. -/
structure Pairs (table : Table) (alternatives : List (List UnitExpr)) (c d : Char) : Prop where
  literals : ∀ text p, OccursIn table (.literal text p) alternatives → ∀ a ∈ text.toList,
    128 ≤ a.toNat → c ≠ (Text.lowerForm a).headD a ∧ c ≠ (Text.upperForm a).headD a
  sets : ∀ ranges negated, OccursIn table (.ranges ranges negated) alternatives →
    CharRanges.Pairs ranges c d

/-- Equal characters, or the cases of a letter that a rule pairs. -/
def Alike (table : Table) (alternatives : List (List UnitExpr)) (c d : Char) : Prop :=
  c = d ∨ c.toLower = d.toLower ∧ Pairs table alternatives c d ∧ Pairs table alternatives d c

theorem Pairs.reads_literal {text : String} {p : Position} (h : Pairs table alternatives c d)
    (hoccurs : OccursIn table (.literal text p) alternatives) (ha : a ∈ text.toList)
    (hcase : c.toLower = d.toLower) (hascii : c.toNat < 128)
    (hc : reads c (charInstruction true a) = true) : reads d (charInstruction true a) = true := by
  by_cases hletter : a.toNat < 128
  · rwa [reads_of_ascii hletter, ← hcase, ← reads_of_ascii hletter]
  · have hbeyond := Nat.le_of_not_lt hletter
    obtain ⟨hlower, hupper⟩ := h.literals text p hoccurs a ha hbeyond
    rcases eq_of_reads hc with rfl | hc | hc
    · exact absurd hascii hletter
    · exact absurd hc hlower
    · exact absurd hc hupper

theorem reads_eq_of_pairs (hcase : c.toLower = d.toLower) (hne : c ≠ d)
    (hcd : Pairs table alternatives c d) (hdc : Pairs table alternatives d c)
    {inner : UnitExpr} (hoccurs : OccursIn table inner alternatives)
    (hi : WrittenFor true inner i) : reads c i = reads d i := by
  have hc := Text.ascii_of_toLower_eq hcase hne
  have hd := Text.ascii_of_toLower_eq hcase.symm (Ne.symm hne)
  cases hi with
  | literal p ha =>
      rw [Bool.eq_iff_iff]
      exact ⟨hcd.reads_literal hoccurs ha hcase hc, hdc.reads_literal hoccurs ha hcase.symm hd⟩
  | ranges ranges negated =>
      have hsame : inRanges c.val (CharRanges.foldCase ranges) =
          inRanges d.val (CharRanges.foldCase ranges) := by
        rw [Bool.eq_iff_iff, inRanges_iff, inRanges_iff]
        exact ⟨(hcd.sets ranges negated hoccurs).contains hcase hc,
          (hdc.sets ranges negated hoccurs).contains hcase.symm hd⟩
      exact congrArg (· != negated) hsame
  | any => rfl

/-- A compiled rule reads characters alike that it pairs. -/
theorem Alike.reads_eq {name : String} {code : Code}
    (h : compileRule true table name alternatives = .ok code)
    (halike : Alike table alternatives c d) (hi : i ∈ code.instructions) :
    reads c i = reads d i := by
  by_cases hne : c = d
  · rw [hne]
  · rcases halike with hsame | ⟨hcase, hcd, hdc⟩
    · exact absurd hsame hne
    · rcases compileRule_writes h i hi with hsilent | ⟨inner, hoccurs, hwritten⟩
      · rw [hsilent c, hsilent d]
      · exact reads_eq_of_pairs hcase hne hcd hdc hoccurs hwritten

end Automaton

/-! ## Texts that a program does not tell apart -/

namespace LexerCode

/-- No instruction of a program reads one of two characters and not the other. -/
def Indifferent (code : LexerCode) (c d : Char) : Prop := ∀ i ∈ code, reads c i = reads d i

variable {code : LexerCode} {see : Char → Char} {c d : Char} {text other : List Char}

theorem Indifferent.step_eq (h : Indifferent code c d) (threads : List Nat) :
    step code c threads = step code d threads := by
  have hread (pc : Nat) : (code[pc]?).any (reads c) = (code[pc]?).any (reads d) := by
    cases hi : code[pc]? with
    | none => rfl
    | some i => exact h i (Array.mem_of_getElem? hi)
  simp only [step, hread]

theorem longest?_of_indifferent
    (h : List.Forall₂ (fun c d => Indifferent code (see c) (see d)) text other)
    (threads : List Nat) (n : Nat) :
    longest? code see threads n text = longest? code see threads n other := by
  induction h generalizing threads n with
  | nil => rfl
  | cons hcd _ ih => rw [longest?_cons, longest?_cons, hcd.step_eq, ih]

theorem first?_of_indifferent
    (h : List.Forall₂ (fun c d => Indifferent code (see c) (see d)) text other)
    (threads : List Nat) (n : Nat) :
    first? code see threads n text = first? code see threads n other := by
  induction h generalizing threads n with
  | nil => rfl
  | cons hcd _ ih => rw [first?_cons, first?_cons, hcd.step_eq, ih]

theorem shortest?_of_indifferent
    (h : List.Forall₂ (fun c d => Indifferent code (see c) (see d)) text other) :
    shortest? code see text = shortest? code see other := by
  cases h with
  | nil => rfl
  | cons hcd hrest => rw [shortest?, shortest?, hcd.step_eq, first?_of_indifferent hrest]

end LexerCode

theorem LexerRule.match?_of_indifferent {r : LexerRule} {see : Char → Char}
    {text other : List Char}
    (h : List.Forall₂ (fun c d => LexerCode.Indifferent r.code (see c) (see d)) text other) :
    r.match? see text = r.match? see other := by
  rw [match?, match?, LexerCode.shortest?_of_indifferent h, LexerCode.longest?_of_indifferent h]

/-! ## Letter case -/

namespace Automaton

open LexerCode

variable {table : Table} {name : String} {alternatives : List (List UnitExpr)} {code : Code}

/-- Characters that a rule pairs are read alike, also as a folding shows them. -/
theorem Alike.indifferent (h : compileRule true table name alternatives = .ok code)
    {c d : Char} (halike : Alike table alternatives c d) (f : CaseFolding) :
    Indifferent code.instructions.toArray (f.fold c) (f.fold d) := by
  have hshown : Alike table alternatives (f.fold c) (f.fold d) := by
    rcases halike with rfl | ⟨hcase, hpairs⟩
    · exact .inl rfl
    · rcases f.fold_eq_or hcase with hsame | ⟨hc, hd⟩
      · exact .inl hsame
      · rw [hc, hd]
        exact .inr ⟨hcase, hpairs⟩
  exact fun i hi => hshown.reads_eq h (List.mem_toArray.mp hi)

/-- A rule that is compiled for any letter case matches two texts in the same way, at any start and
under any folding, if they differ only in cases of ASCII letters that the rule pairs. -/
theorem match_of_alike (h : compileRule true table name alternatives = .ok code)
    {input other : List Char} (hinput : List.Forall₂ (Alike table alternatives) input other)
    (rule : LexerRule) (f : CaseFolding) (start : Nat) :
    let compiled := { rule with shortest := code.isLazy, code := code.instructions.toArray }
    compiled.match? f.fold (input.drop start) = compiled.match? f.fold (other.drop start) := by
  intro compiled
  exact LexerRule.match?_of_indifferent
    ((List.forall₂_drop start hinput).imp fun _ _ halike => halike.indifferent h f)

/-- A set that ignores letter case reads what its ranges and their variants give when they are put
in order. -/
theorem setInstruction_eq_merge {ranges sorted : List CharRanges.Range} (negated : Bool)
    (hperm : (ranges ++ ranges.flatMap CharRanges.foldedVariants).Perm sorted)
    (hsorted : sorted.Pairwise fun a b => CharRanges.le a b = true) :
    setInstruction true ranges negated = .ranges (CharRanges.merge sorted) negated := by
  rw [setInstruction, if_pos rfl, CharRanges.foldCase,
    CharRanges.normalize_eq_merge hperm hsorted]

/-- Hexadecimal numbers, and single characters from the capital letters on. -/
def hexTable : Table := [("Digit", [[.ranges [(0x30, 0x39), (0x61, 0x66)] false]])]

def hexAlternatives : List (List UnitExpr) :=
  [[.literal "0x" .unknown, .repeated .oneOrMore false (.ref "Digit" .unknown)],
    [.ranges [(0x41, 0xffff)] false]]

def hexCode : Code where
  instructions := [.split 1 6, .char 48, .ranges [(88, 88), (120, 120)] false,
    .ranges [(48, 57), (65, 70), (97, 102)] false, .split 3 5, .accept 0,
    .ranges [(65, 65535)] false, .accept 1]

def hexRule : LexerRule := ⟨"Hex", 1, 0, false, hexCode.instructions.toArray, #[[], []]⟩

theorem hex_parts {inner : UnitExpr} (h : OccursIn hexTable inner hexAlternatives) :
    inner ∈ [.literal "0x" .unknown, .repeated .oneOrMore false (.ref "Digit" .unknown),
      .ref "Digit" .unknown, .ranges [(0x30, 0x39), (0x61, 0x66)] false,
      .ranges [(0x41, 0xffff)] false] := by
  obtain ⟨items, hitems, item, hitem, hinner⟩ := h
  simp only [hexAlternatives, List.mem_cons, List.not_mem_nil, or_false] at hitems
  rcases hitems with rfl | rfl
  · simp only [List.mem_cons, List.not_mem_nil, or_false] at hitem
    rcases hitem with rfl | rfl
    · cases hinner
      simp
    · rcases hinner with _ | _ | _ | ⟨_, _, _ | _ | _ | _ | ⟨_, hlookup, hitems, hitem, hinner⟩⟩
      · simp
      · simp
      · obtain rfl := Option.some.inj hlookup
        obtain rfl := List.mem_singleton.mp hitems
        obtain rfl := List.mem_singleton.mp hitem
        cases hinner
        simp
  · obtain rfl := List.mem_singleton.mp hitem
    cases hinner
    simp

/-- The long range names both cases of every letter. -/
theorem hex_pairs {c d : Char} (hlow : 0x41 ≤ d.val) (hhigh : d.val ≤ 0xffff) :
    Pairs hexTable hexAlternatives c d where
  literals text p h a ha hbeyond := by
    obtain ⟨rfl, -⟩ : text = "0x" ∧ p = .unknown := by simpa using hex_parts h
    have hall : "0x".toList.all (fun a => decide (a.toNat < 128)) = true := by decide
    have hletter : a.toNat < 128 := of_decide_eq_true (List.all_eq_true.mp hall a ha)
    exact absurd hletter (Nat.not_lt_of_le hbeyond)
  sets ranges negated h := by
    have hparts := hex_parts h
    simp only [List.mem_cons, reduceCtorEq, UnitExpr.ranges.injEq, List.not_mem_nil, or_false,
      false_or] at hparts
    rcases hparts with ⟨rfl, -⟩ | ⟨rfl, -⟩
    · refine ⟨fun hc => .inl hc, fun a ha hbeyond _ => ?_⟩
      obtain ⟨r, hr, -, ha⟩ := ha
      have hall : (CharRanges.short [(0x30, 0x39), (0x61, 0x66)]).all
          (fun r => decide (r.2.toNat < 128)) = true := by decide
      have hlow : r.2.toNat < 128 := of_decide_eq_true (List.all_eq_true.mp hall r hr)
      have hle := UInt32.le_iff_toNat_le.mp ha
      exact absurd (Nat.lt_of_le_of_lt hle hlow) (Nat.not_lt_of_le hbeyond)
    · have hd : CharRanges.Contains [(0x41, 0xffff)] d.val := ⟨_, List.mem_cons_self, hlow, hhigh⟩
      exact ⟨fun _ => .inr hd, fun _ _ _ _ => .inr hd⟩

theorem hex_compiled : compileRule true hexTable "Hex" hexAlternatives = .ok hexCode := by
  have hwritten : compileRule true hexTable "Hex" hexAlternatives =
      .ok ⟨[.split 1 6, charInstruction true '0', charInstruction true 'x',
        setInstruction true [(0x30, 0x39), (0x61, 0x66)] false, .split 3 5, .accept 0,
        setInstruction true [(0x41, 0xffff)] false, .accept 1], false⟩ := rfl
  have hforms : [CharRanges.single 'x', CharRanges.single 'X'].Perm [(88, 88), (120, 120)] := by
    decide
  have hletter : charInstruction true 'x' = .ranges [(88, 88), (120, 120)] false :=
    congrArg (Instruction.ranges · false) (CharRanges.normalize_eq_merge hforms (by decide))
  have hdigits : ([(0x30, 0x39), (0x61, 0x66)] ++
      [(0x30, 0x39), (0x61, 0x66)].flatMap CharRanges.foldedVariants).Perm
      [(48, 57), (65, 65), (66, 66), (67, 67), (68, 68), (69, 69), (70, 70), (97, 102)] := by
    decide
  have hlong : ([(0x41, 0xffff)] ++ [(0x41, 0xffff)].flatMap CharRanges.foldedVariants).Perm
      [(65, 65535)] := by decide
  rw [hwritten, hletter, setInstruction_eq_merge false hdigits (by decide),
    setInstruction_eq_merge false hlong (by decide)]
  rfl

/-- The digits of a number, and the letter in front of them, are written in either case. -/
theorem hex_match_of_alike :
    compileRule true hexTable "Hex" hexAlternatives = .ok hexCode ∧
      List.Forall₂ (Alike hexTable hexAlternatives) "-0xAb".toList "-0XaB".toList ∧
      hexRule.match? (CaseFolding.fold .none) ("-0xAb".toList.drop 1) = some ⟨4, 0⟩ ∧
      hexRule.match? (CaseFolding.fold .none) ("-0XaB".toList.drop 1) = some ⟨4, 0⟩ := by
  have hletter {c d : Char} (hcase : c.toLower = d.toLower) (hc : 0x41 ≤ c.val ∧ c.val ≤ 0xffff)
      (hd : 0x41 ≤ d.val ∧ d.val ≤ 0xffff) : Alike hexTable hexAlternatives c d :=
    .inr ⟨hcase, hex_pairs hd.1 hd.2, hex_pairs hc.1 hc.2⟩
  have halike : List.Forall₂ (Alike hexTable hexAlternatives) "-0xAb".toList "-0XaB".toList :=
    .cons (.inl rfl) (.cons (.inl rfl) (.cons (hletter rfl (by decide) (by decide))
      (.cons (hletter rfl (by decide) (by decide))
        (.cons (hletter rfl (by decide) (by decide)) .nil))))
  have hsame := match_of_alike hex_compiled halike hexRule .none 1
  have hfound : hexRule.match? (CaseFolding.fold .none) ("-0xAb".toList.drop 1) = some ⟨4, 0⟩ := by
    decide +kernel
  exact ⟨hex_compiled, halike, hfound, hsame.symm.trans hfound⟩

/-- A range over the limit stands for the characters that it names: a small letter in it is read,
and its capital form is not. -/
theorem long_range_keeps_case :
    ∃ code, compileRule true [] "Any" [[.ranges [(0x61, 0xffff)] false]] = .ok code ∧
      "b".toList.map Char.toLower = "B".toList.map Char.toLower ∧
      let rule : LexerRule := ⟨"Any", 1, 0, code.isLazy, code.instructions.toArray, #[[]]⟩
      rule.match? (CaseFolding.fold .none) "b".toList = some ⟨1, 0⟩ ∧
        rule.match? (CaseFolding.fold .none) "B".toList = none := by
  refine ⟨⟨[.ranges [(0x61, 0xffff)] false, .accept 0], false⟩, ?_, by decide, ?_⟩
  · decide +kernel
  · decide +kernel

/-- A rule that names ASCII characters only. -/
structure NamesAscii (table : Table) (alternatives : List (List UnitExpr)) : Prop where
  literals : ∀ text p, OccursIn table (.literal text p) alternatives →
    ∀ a ∈ text.toList, a.toNat < 128
  sets : ∀ ranges negated, OccursIn table (.ranges ranges negated) alternatives →
    ∀ r ∈ ranges, r.2.toNat < 128

theorem NamesAscii.pairs (h : NamesAscii table alternatives) (c d : Char) :
    Pairs table alternatives c d where
  literals text p hoccurs a ha hbeyond :=
    absurd (h.literals text p hoccurs a ha) (Nat.not_lt_of_le hbeyond)
  sets ranges negated hoccurs := by
    have hascii := h.sets ranges negated hoccurs
    constructor
    · intro ⟨r, hr, hc⟩
      have hlimit : r.2.toNat - r.1.toNat ≤ CharRanges.foldLimit :=
        Nat.le_trans (Nat.sub_le _ _) (Nat.le_trans (Nat.le_of_lt (hascii r hr)) (by decide))
      exact .inl ⟨r, List.mem_filter.mpr ⟨hr, decide_eq_true hlimit⟩, hc⟩
    · intro a ⟨r, hr, _, hle⟩ hbeyond
      have hlast := hascii r (List.mem_of_mem_filter hr)
      have hcode := UInt32.le_iff_toNat_le.mp hle
      exact absurd (Nat.lt_of_le_of_lt hcode hlast) (Nat.not_lt_of_le hbeyond)

/-- Such a rule ignores the case of ASCII letters altogether. -/
theorem NamesAscii.match_eq (hascii : NamesAscii table alternatives)
    (h : compileRule true table name alternatives = .ok code) {input other : List Char}
    (hinput : input.map Char.toLower = other.map Char.toLower)
    (rule : LexerRule) (f : CaseFolding) (start : Nat) :
    let compiled := { rule with shortest := code.isLazy, code := code.instructions.toArray }
    compiled.match? f.fold (input.drop start) = compiled.match? f.fold (other.drop start) := by
  intro compiled
  have hcases : List.Forall₂ (fun c d => c.toLower = d.toLower) input other := by
    rw [← List.forall₂_eq_eq_eq, List.forall₂_map_left_iff, List.forall₂_map_right_iff] at hinput
    exact hinput
  refine LexerRule.match?_of_indifferent ((List.forall₂_drop start hcases).imp fun c d hcase => ?_)
  have halike : Alike table alternatives c d := .inr ⟨hcase, hascii.pairs c d, hascii.pairs d c⟩
  exact halike.indifferent h f

end Automaton

end GrammarEngine

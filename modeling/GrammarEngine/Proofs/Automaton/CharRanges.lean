import GrammarEngine.Compile.Automaton
import GrammarEngine.Compile.CharRanges
import Mathlib.Data.List.Sort

/-!
# The normal form of character ranges

Sorting and merging keep the characters that ranges contain, also where a range is empty because it
ends before it starts: what touches it is then merged with nothing, and starts where it starts. The
last range that has been found and the ranges that are left stay in the order of their starts.

Where no range is empty, what comes out ascends with a gap between any two ranges, and there is only
one such list for given characters. So lists contain the same characters exactly if they have the
same normal form. Gaps are measured in natural numbers, since the greatest word has no successor.
-/
namespace GrammarEngine.CharRanges

/-- Whether some range contains a code point. -/
def Contains (ranges : List Range) (c : UInt32) : Prop :=
  ∃ r ∈ ranges, r.1 ≤ c ∧ c ≤ r.2

theorem contains_cons {r : Range} {ranges : List Range} {c : UInt32} :
    Contains (r :: ranges) c ↔ (r.1 ≤ c ∧ c ≤ r.2) ∨ Contains ranges c := by
  rw [Contains, List.exists_mem_cons_iff, Contains]

theorem not_contains_nil (c : UInt32) : ¬ Contains [] c := by
  rintro ⟨r, hr, -⟩
  exact List.not_mem_nil hr

/-! ## Sorting -/

theorem le_iff {a b : Range} :
    le a b = true ↔ a.1.toNat < b.1.toNat ∨ a.1.toNat = b.1.toNat ∧ a.2.toNat ≤ b.2.toNat := by
  rw [le, Bool.or_eq_true, Bool.and_eq_true, decide_eq_true_iff, decide_eq_true_iff, beq_iff_eq,
    UInt32.lt_iff_toNat_lt, UInt32.le_iff_toNat_le, UInt32.toNat_inj]

theorem le_trans (a b c : Range) (hab : le a b = true) (hbc : le b c = true) : le a c = true := by
  rw [le_iff] at *
  omega

theorem le_total (a b : Range) : (le a b || le b a) = true := by
  rw [Bool.or_eq_true, le_iff, le_iff]
  omega

theorem le_antisymm {a b : Range} (hab : le a b = true) (hba : le b a = true) : a = b := by
  rw [le_iff] at hab hba
  exact Prod.ext (UInt32.toNat_inj.mp (by omega)) (UInt32.toNat_inj.mp (by omega))

/-- Ranges that stand in order are merged, and the order in which they were given does not count. -/
theorem normalize_eq_merge {ranges sorted : List Range} (hperm : ranges.Perm sorted)
    (hsorted : sorted.Pairwise fun a b => le a b = true) : normalize ranges = merge sorted := by
  have hsame : ranges.mergeSort le = sorted :=
    ((List.mergeSort_perm ranges le).trans hperm).eq_of_pairwise (fun _ _ _ _ => le_antisymm)
      (List.pairwise_mergeSort le_trans le_total ranges) hsorted
  rw [normalize, hsame]

/-- Ranges in the order of their starts. -/
def Ascending (ranges : List Range) : Prop :=
  ranges.Pairwise fun a b => a.1.toNat ≤ b.1.toNat

theorem ascending_mergeSort (ranges : List Range) : Ascending (ranges.mergeSort le) := by
  refine (List.pairwise_mergeSort le_trans le_total ranges).imp fun {a b} hle => ?_
  rw [le_iff] at hle
  omega

theorem contains_mergeSort {ranges : List Range} {c : UInt32} :
    Contains (ranges.mergeSort le) c ↔ Contains ranges c := by
  simp only [Contains, List.mem_mergeSort]

/-! ## Merging -/

variable {last r : Range} {rest : List Range}

theorem toNat_max (a b : UInt32) : (max a b).toNat = max a.toNat b.toNat := by
  have hmax : max a b = if a ≤ b then b else a := rfl
  rw [hmax, Nat.max_def, apply_ite UInt32.toNat]
  simp only [UInt32.le_iff_toNat_le]

/-- Two ranges that touch contain what their union contains. -/
theorem contains_union {c : UInt32} (hle : last.1.toNat ≤ r.1.toNat)
    (htouches : touches last.2 r.1 = true) :
    (last.1 ≤ c ∧ c ≤ max last.2 r.2) ↔ (last.1 ≤ c ∧ c ≤ last.2) ∨ (r.1 ≤ c ∧ c ≤ r.2) := by
  have hnear : r.1.toNat ≤ last.2.toNat + 1 := of_decide_eq_true htouches
  simp only [UInt32.le_iff_toNat_le, toNat_max]
  omega

/-- Taking in the range behind the last one leaves what is to be merged in order. -/
theorem Ascending.union (h : Ascending (last :: r :: rest)) (stop : UInt32) :
    Ascending ((last.1, stop) :: rest) := by
  obtain ⟨hlast, hrest⟩ := List.pairwise_cons.mp h
  exact List.pairwise_cons.mpr ⟨fun b hb => hlast b (List.mem_cons_of_mem r hb), hrest.of_cons⟩

theorem contains_mergeInto {ranges : List Range} {c : UInt32} (h : Ascending (last :: ranges)) :
    Contains (mergeInto last ranges) c ↔ Contains (last :: ranges) c := by
  induction ranges generalizing last with
  | nil => exact Iff.rfl
  | cons r rest ih =>
      obtain ⟨hlast, hrest⟩ := List.pairwise_cons.mp h
      rw [mergeInto]
      by_cases htouches : touches last.2 r.1 = true
      · rw [if_pos htouches, ih (h.union _), contains_cons, contains_cons, contains_cons,
          contains_union (hlast r List.mem_cons_self) htouches, or_assoc]
      · rw [if_neg htouches, contains_cons, contains_cons, ih hrest]

theorem contains_merge {ranges : List Range} {c : UInt32} (h : Ascending ranges) :
    Contains (merge ranges) c ↔ Contains ranges c := by
  cases ranges with
  | nil => exact Iff.rfl
  | cons r rest => exact contains_mergeInto h

theorem contains_normalize (ranges : List Range) (c : UInt32) :
    Contains (normalize ranges) c ↔ Contains ranges c :=
  (contains_merge (ascending_mergeSort ranges)).trans contains_mergeSort

/-! ## What comes out -/

/-- A range ends, at least one number follows, and the other range starts. -/
def Before (a b : Range) : Prop := a.2.toNat + 1 < b.1.toNat

/-- Ranges of which none is empty, in order, and no two of them overlap or touch. -/
structure Normal (ranges : List Range) : Prop where
  nonempty : ∀ r ∈ ranges, r.1 ≤ r.2
  apart : ranges.Pairwise Before

theorem before_of_not_touches (h : ¬ touches last.2 r.1 = true) : Before last r := by
  rw [touches, decide_eq_true_iff] at h
  exact Nat.lt_of_not_le h

theorem start_le_of_mem_mergeInto {ranges : List Range} (h : Ascending (last :: ranges)) :
    ∀ a ∈ mergeInto last ranges, last.1.toNat ≤ a.1.toNat := by
  induction ranges generalizing last with
  | nil =>
      intro a ha
      rw [List.mem_singleton.mp ha]
  | cons r rest ih =>
      obtain ⟨hlast, hrest⟩ := List.pairwise_cons.mp h
      rw [mergeInto]
      split
      · exact ih (h.union _)
      · intro a ha
        rcases List.mem_cons.mp ha with rfl | ha
        · exact Nat.le_refl _
        · exact (hlast r List.mem_cons_self).trans (ih hrest a ha)

/-- What comes out behind a gap starts no earlier than the range that left the gap, so the gap lies
before all of it. -/
theorem apart_mergeInto {ranges : List Range} (h : Ascending (last :: ranges)) :
    (mergeInto last ranges).Pairwise Before := by
  induction ranges generalizing last with
  | nil => exact List.pairwise_singleton Before last
  | cons r rest ih =>
      have hrest : Ascending (r :: rest) := h.of_cons
      rw [mergeInto]
      split
      · exact ih (h.union _)
      · next htouches =>
        have hgap : Before last r := before_of_not_touches htouches
        refine List.pairwise_cons.mpr ⟨fun a ha => ?_, ih hrest⟩
        exact Nat.lt_of_lt_of_le hgap (start_le_of_mem_mergeInto hrest a ha)

theorem nonempty_mergeInto {ranges : List Range} (h : ∀ a ∈ last :: ranges, a.1 ≤ a.2) :
    ∀ a ∈ mergeInto last ranges, a.1 ≤ a.2 := by
  induction ranges generalizing last with
  | nil => exact h
  | cons r rest ih =>
      obtain ⟨hlast, hranges⟩ := List.forall_mem_cons.mp h
      rw [mergeInto]
      split
      · refine ih (List.forall_mem_cons.mpr ⟨?_, (List.forall_mem_cons.mp hranges).2⟩)
        simp only [UInt32.le_iff_toNat_le, toNat_max] at hlast ⊢
        exact hlast.trans (Nat.le_max_left _ _)
      · exact List.forall_mem_cons.mpr ⟨hlast, ih hranges⟩

theorem normal_merge {ranges : List Range} (h : Ascending ranges)
    (hnonempty : ∀ r ∈ ranges, r.1 ≤ r.2) : Normal (merge ranges) := by
  cases ranges with
  | nil => exact ⟨hnonempty, .nil⟩
  | cons r rest => exact ⟨nonempty_mergeInto hnonempty, apart_mergeInto h⟩

theorem normal_normalize {ranges : List Range} (h : ∀ r ∈ ranges, r.1 ≤ r.2) :
    Normal (normalize ranges) :=
  normal_merge (ascending_mergeSort ranges) fun r hr => h r (List.mem_mergeSort.mp hr)

/-! ## Only one list is in normal form -/

namespace Normal

variable {first head : Range} {tail ranges others : List Range} {c : UInt32}

theorem of_cons (h : Normal (first :: rest)) : Normal rest where
  nonempty r hr := h.nonempty r (List.mem_cons_of_mem first hr)
  apart := h.apart.of_cons

theorem first_le (h : Normal (first :: rest)) : first.1.toNat ≤ first.2.toNat :=
  UInt32.le_iff_toNat_le.mp (h.nonempty first List.mem_cons_self)

theorem contains_start (h : Normal (first :: rest)) : Contains (first :: rest) first.1 :=
  ⟨first, List.mem_cons_self, UInt32.le_refl _, h.nonempty first List.mem_cons_self⟩

/-- What later ranges contain lies behind the first range and the gap after it. -/
theorem lt_of_contains (h : Normal (first :: rest)) (hc : Contains rest c) :
    first.2.toNat + 1 < c.toNat := by
  obtain ⟨r, hr, hlow, -⟩ := hc
  have hbefore : Before first r := List.rel_of_pairwise_cons h.apart hr
  exact Nat.lt_of_lt_of_le hbefore (UInt32.le_iff_toNat_le.mp hlow)

theorem start_le_of_contains (h : Normal (first :: rest)) (hc : Contains (first :: rest) c) :
    first.1.toNat ≤ c.toNat := by
  rcases contains_cons.mp hc with ⟨hlow, -⟩ | hc
  · exact UInt32.le_iff_toNat_le.mp hlow
  · have hbehind := h.lt_of_contains hc
    have hfirst := h.first_le
    omega

theorem contains_rest_iff (h : Normal (first :: rest)) :
    Contains rest c ↔ Contains (first :: rest) c ∧ first.2.toNat < c.toNat := by
  rw [contains_cons, UInt32.le_iff_toNat_le, UInt32.le_iff_toNat_le]
  constructor
  · intro hc
    exact ⟨.inr hc, Nat.lt_of_succ_lt (h.lt_of_contains hc)⟩
  · rintro ⟨⟨-, hhigh⟩ | hc, hbehind⟩
    · exact absurd hbehind (Nat.not_lt_of_le hhigh)
    · exact hc

theorem start_le_start (h : Normal (first :: rest)) (hother : Normal (head :: tail))
    (hsame : ∀ c, Contains (first :: rest) c ↔ Contains (head :: tail) c) :
    first.1.toNat ≤ head.1.toNat :=
  h.start_le_of_contains ((hsame head.1).mpr hother.contains_start)

/-- The number behind the first range is in no range, so a range that starts with the first one and
contains nothing else does not reach it. -/
theorem stop_le_stop (h : Normal (first :: rest)) (hstart : first.1 = head.1)
    (hsame : ∀ c, Contains (first :: rest) c ↔ Contains (head :: tail) c) :
    head.2.toNat ≤ first.2.toNat := by
  by_contra hlonger
  have hfirst := h.first_le
  -- The other range ends beyond this one, so the number behind this one is a word.
  have hsucc : (first.2 + 1).toNat = first.2.toNat + 1 := by
    have hword := head.2.toNat_lt
    rw [UInt32.toNat_add, UInt32.toNat_one]
    omega
  have hhead : Contains (head :: tail) (first.2 + 1) := by
    refine contains_cons.mpr (.inl ?_)
    rw [UInt32.le_iff_toNat_le, UInt32.le_iff_toNat_le, hsucc, ← hstart]
    omega
  rcases contains_cons.mp ((hsame _).mpr hhead) with ⟨-, hhigh⟩ | hlater
  · rw [UInt32.le_iff_toNat_le, hsucc] at hhigh
    omega
  · have hbehind := h.lt_of_contains hlater
    omega

/-- A list in normal form can be read off from what it contains: its first range starts at the least
number and ends before the first number that is missing, and the later ranges contain the rest. -/
theorem eq_of_contains_iff (h : Normal ranges) (hother : Normal others)
    (hsame : ∀ c, Contains ranges c ↔ Contains others c) : ranges = others := by
  induction ranges generalizing others with
  | nil =>
      cases others with
      | nil => rfl
      | cons head tail =>
          exact absurd ((hsame head.1).mpr hother.contains_start) (not_contains_nil head.1)
  | cons first rest ih =>
      cases others with
      | nil => exact absurd ((hsame first.1).mp h.contains_start) (not_contains_nil first.1)
      | cons head tail =>
          have hback (c : UInt32) := (hsame c).symm
          have hstart : first.1 = head.1 := UInt32.toNat_inj.mp
            (Nat.le_antisymm (h.start_le_start hother hsame) (hother.start_le_start h hback))
          have hstop : first.2 = head.2 := UInt32.toNat_inj.mp
            (Nat.le_antisymm (hother.stop_le_stop hstart.symm hback) (h.stop_le_stop hstart hsame))
          have hrest : rest = tail := ih h.of_cons hother.of_cons fun c => by
            rw [h.contains_rest_iff, hother.contains_rest_iff, hsame c, hstop]
          rw [Prod.ext hstart hstop, hrest]

theorem normalize_eq (h : Normal ranges) : normalize ranges = ranges :=
  (normal_normalize h.nonempty).eq_of_contains_iff h (contains_normalize ranges)

end Normal

theorem normalize_eq_iff {ranges others : List Range} (hranges : ∀ r ∈ ranges, r.1 ≤ r.2)
    (hothers : ∀ r ∈ others, r.1 ≤ r.2) :
    normalize ranges = normalize others ↔ ∀ c, Contains ranges c ↔ Contains others c := by
  constructor
  · intro h c
    rw [← contains_normalize ranges, h, contains_normalize]
  · intro hsame
    refine (normal_normalize hranges).eq_of_contains_iff (normal_normalize hothers) fun c => ?_
    rw [contains_normalize, contains_normalize, hsame c]

/-- Ranges have one normal form: it contains what they contain, lists that contain the same have the
same one, and it is its own normal form. -/
theorem normalize_canonical {ranges others : List Range} (hranges : ∀ r ∈ ranges, r.1 ≤ r.2)
    (hothers : ∀ r ∈ others, r.1 ≤ r.2) :
    Normal (normalize ranges) ∧
      (∀ c, Contains (normalize ranges) c ↔ Contains ranges c) ∧
      ((∀ c, Contains ranges c ↔ Contains others c) ↔ normalize ranges = normalize others) ∧
      normalize (normalize ranges) = normalize ranges := by
  have hnormal := normal_normalize hranges
  exact ⟨hnormal, contains_normalize ranges, (normalize_eq_iff hranges hothers).symm,
    hnormal.normalize_eq⟩

/-- Digits, small letters and the greatest words, in pieces that are out of order, overlap, touch
and lie in one another. -/
def scattered : List Range :=
  [(0xfffffff0, 0xfffffffe), (0x61, 0x7a), (0x36, 0x39), (0x64, 0x66), (0xffffffff, 0xffffffff),
    (0x30, 0x35)]

/-- The same numbers in other pieces. -/
def gathered : List Range :=
  [(0x30, 0x39), (0x6b, 0x7a), (0xfffffff8, 0xffffffff), (0x61, 0x70), (0xfffffff0, 0xffffffff)]

theorem scattered_canonical :
    (∀ r ∈ scattered, r.1 ≤ r.2) ∧ (∀ r ∈ gathered, r.1 ≤ r.2) ∧
      normalize scattered = [(0x30, 0x39), (0x61, 0x7a), (0xfffffff0, 0xffffffff)] ∧
      Normal (normalize scattered) ∧
      (∀ c, Contains (normalize scattered) c ↔ Contains scattered c) ∧
      (∀ c, Contains scattered c ↔ Contains gathered c) ∧
      normalize (normalize scattered) = normalize scattered := by
  have hscattered : ∀ r ∈ scattered, r.1 ≤ r.2 := by simp [scattered]
  have hgathered : ∀ r ∈ gathered, r.1 ≤ r.2 := by simp [gathered]
  -- Merging is evaluated by `decide`; sorting is not, for its recursion is on lengths.
  have hform : normalize scattered = [(0x30, 0x39), (0x61, 0x7a), (0xfffffff0, 0xffffffff)] := by
    have hsorted : scattered.Perm [(0x30, 0x35), (0x36, 0x39), (0x61, 0x7a), (0x64, 0x66),
        (0xfffffff0, 0xfffffffe), (0xffffffff, 0xffffffff)] := by decide
    rw [normalize_eq_merge hsorted (by decide)]
    decide
  have hforms : normalize scattered = normalize gathered := by
    have hsorted : gathered.Perm [(0x30, 0x39), (0x61, 0x70), (0x6b, 0x7a),
        (0xfffffff0, 0xffffffff), (0xfffffff8, 0xffffffff)] := by decide
    rw [hform, normalize_eq_merge hsorted (by decide)]
    decide
  obtain ⟨hnormal, hcontains, hsame, hagain⟩ := normalize_canonical hscattered hgathered
  exact ⟨hscattered, hgathered, hform, hnormal, hcontains, hsame.mpr hforms, hagain⟩

/-! ## Compiled sets -/

theorem normal_foldCase {ranges : List Range} (h : ∀ r ∈ ranges, r.1 ≤ r.2) :
    Normal (foldCase ranges) := by
  refine normal_normalize fun r hr => ?_
  rcases List.mem_append.mp hr with hr | hr
  · exact h r hr
  · obtain ⟨a, -, hr⟩ := List.mem_flatMap.mp hr
    have hforms : r ∈ if a.2.toNat - a.1.toNat > foldLimit then []
      else (members a).flatMap variants := hr
    split at hforms
    · exact absurd hforms List.not_mem_nil
    -- A case form is added as a range of its own.
    · obtain ⟨c, -, hr⟩ := List.mem_flatMap.mp hforms
      obtain ⟨d, -, rfl⟩ := List.mem_map.mp hr
      exact UInt32.le_refl _

end GrammarEngine.CharRanges

namespace GrammarEngine.Automaton

open CharRanges

/-- The ranges of a compiled set are in normal form, whether or not case is ignored. -/
theorem exists_normal_setInstruction {ranges : List Range} (h : ∀ r ∈ ranges, r.1 ≤ r.2)
    (ignoreCase negated : Bool) : ∃ normal,
      setInstruction ignoreCase ranges negated = .ranges normal negated ∧ Normal normal := by
  cases ignoreCase with
  | false => exact ⟨normalize ranges, rfl, normal_normalize h⟩
  | true => exact ⟨foldCase ranges, rfl, normal_foldCase h⟩

end GrammarEngine.Automaton

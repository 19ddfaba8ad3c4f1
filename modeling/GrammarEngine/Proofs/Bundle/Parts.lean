import GrammarEngine.Proofs.Bundle.Calls

/-!
# Which parts make up a set

A list of units and a table of bundles are checked in several passes, each of which can end with a
refusal. Together the passes ask for no more and no less than that the parts fit: names are
distinct, every unit is listed once, and names and flags are those of the places where the units are
listed. The order of the table is free; the set has it sorted.
-/
namespace GrammarEngine.BundleSet

variable {s : BundleSet} {units : List CompiledUnit} {bundles : List Bundle}

/-- Parts that make up a set. Every unit is listed once in the whole table, as the primary unit of a
bundle, whose name it then bears, or as an inner one. -/
structure PartsFit (units : List CompiledUnit) (bundles : List Bundle) : Prop where
  names : (units.map CompiledUnit.name).Nodup
  sources : (bundles.map fun b => b.source.name).Nodup
  inRange : ∀ b ∈ bundles, ∀ id ∈ b.unitIds, id < units.length
  once : ∀ id < units.length, (bundles.flatMap Bundle.unitIds).count id = 1
  primary : ∀ b ∈ bundles, ∀ u, units[b.primary]? = some u →
    u.inner = false ∧ u.name = b.source.name
  inner : ∀ b ∈ bundles, ∀ id ∈ b.inner, ∀ u, units[id]? = some u → u.inner = true

/-- Numbers are those of a range exactly if all of them lie in it and each of it occurs once. -/
theorem perm_range_iff {ids : List Nat} {n : Nat} :
    ids.Perm (List.range n) ↔ (∀ id ∈ ids, id < n) ∧ ∀ id < n, ids.count id = 1 := by
  constructor
  · intro h
    constructor
    · intro id hid
      exact List.mem_range.mp (h.mem_iff.mp hid)
    · intro id hid
      rw [h.count_eq]
      exact List.count_eq_one_of_mem List.nodup_range (List.mem_range.mpr hid)
  · intro ⟨hrange, honce⟩
    rw [List.perm_iff_count]
    intro id
    by_cases hid : id < n
    · rw [honce id hid, List.count_eq_one_of_mem List.nodup_range (List.mem_range.mpr hid)]
    · have hfree : id ∉ ids := fun hmem => hid (hrange id hmem)
      have hout : id ∉ List.range n := fun hmem => hid (List.mem_range.mp hmem)
      rw [List.count_eq_zero_of_not_mem hfree, List.count_eq_zero_of_not_mem hout]

theorem PartsFit.placed (h : PartsFit units bundles) :
    (bundles.flatMap Bundle.unitIds).Perm (List.range units.length) := by
  apply perm_range_iff.mpr
  refine ⟨?_, h.once⟩
  intro id hid
  rcases List.mem_flatMap.mp hid with ⟨b, hb, hmem⟩
  exact h.inRange b hb id hmem

theorem PartsFit.fits (h : PartsFit units bundles) : ∀ b ∈ bundles, Fits units b := by
  intro b hb
  have hunit : ∀ id ∈ b.unitIds, ∃ u, units[id]? = some u := fun id hid =>
    ⟨_, List.getElem?_eq_getElem (h.inRange b hb id hid)⟩
  constructor
  · obtain ⟨u, hu⟩ := hunit b.primary List.mem_cons_self
    have hflag := h.primary b hb u hu
    exact ⟨u, hu, by simp [isPrimaryOf, hflag, Bundle.name]⟩
  · intro id hid
    obtain ⟨u, hu⟩ := hunit id (List.mem_cons_of_mem _ hid)
    exact ⟨u, hu, h.inner b hb id hid u hu⟩

/-- The parts of a consistent set fit in any order of the bundles. -/
theorem Consistent.partsFit (hs : s.Consistent) (hperm : s.bundles.Perm bundles) :
    PartsFit s.units bundles := by
  have hplaced : (bundles.flatMap Bundle.unitIds).Perm (List.range s.units.length) :=
    (hperm.symm.flatMap_right Bundle.unitIds).trans hs.placed
  have hlisted := perm_range_iff.mp hplaced
  have hfits : ∀ b ∈ bundles, Fits s.units b := fun b hb => hs.fits b (hperm.mem_iff.mpr hb)
  constructor
  · exact hs.units_nodup
  · exact (hperm.map Bundle.name).nodup_iff.mp hs.bundles_nodup
  · intro b hb id hid
    exact hlisted.1 id (List.mem_flatMap.mpr ⟨b, hb, hid⟩)
  · exact hlisted.2
  · intro b hb u hu
    obtain ⟨v, hv, hprimary⟩ := (hfits b hb).primary
    obtain rfl : v = u := Option.some.inj (hv.symm.trans hu)
    simp only [isPrimaryOf, Bool.and_eq_true, Bool.not_eq_true', beq_iff_eq] at hprimary
    exact hprimary
  · intro b hb id hid u hu
    obtain ⟨v, hv, hflag⟩ := (hfits b hb).inner id hid
    obtain rfl : v = u := Option.some.inj (hv.symm.trans hu)
    exact hflag

theorem PartsFit.exists_ofParts (h : PartsFit units bundles) :
    ∃ s, ofParts units bundles = .ok s :=
  ⟨_, ofParts_eq_ok h.names h.sources h.placed h.fits⟩

/-- Bundles that stand in the order of their names can stand in no other one. -/
theorem eq_of_sorted {bundles' : List Bundle} (hperm : bundles.Perm bundles')
    (h : bundles.Pairwise fun b c => b.name < c.name)
    (h' : bundles'.Pairwise fun b c => b.name < c.name) : bundles = bundles' := by
  apply List.Perm.eq_of_pairwise _ h h' hperm
  intro b c _ _ hbc hcb
  exact absurd hcb (String.lt_asymm hbc)

/-- Parts make up a set exactly if they fit. The set has the given units and the given bundles, and
its bundles stand in the order of their names. -/
theorem ofParts_exact (units : List CompiledUnit) (bundles : List Bundle) :
    ((∃ s, ofParts units bundles = .ok s) ↔ PartsFit units bundles) ∧
      ∀ s, ofParts units bundles = .ok s ↔
        PartsFit units bundles ∧ s.units = units ∧ s.bundles.Perm bundles ∧
          s.bundles.Pairwise fun b c => b.name < c.name := by
  have hmade : ∀ s, ofParts units bundles = .ok s → PartsFit units bundles ∧ s.units = units ∧
      s.bundles.Perm bundles ∧ s.bundles.Pairwise fun b c => b.name < c.name := by
    intro s h
    obtain ⟨rfl, hs⟩ := consistent_of_ofParts h
    have hperm := perm_of_ofParts h
    exact ⟨hs.partsFit hperm, rfl, hperm, hs.sorted⟩
  constructor
  · constructor
    · intro ⟨s, h⟩
      exact (hmade s h).1
    · exact PartsFit.exists_ofParts
  · intro s
    constructor
    · exact hmade s
    · intro ⟨hfit, hunits, hperm, hsorted⟩
      obtain ⟨t, ht⟩ := hfit.exists_ofParts
      have hgiven := hmade t ht
      have hbundles : t.bundles = s.bundles :=
        eq_of_sorted (hgiven.2.2.1.trans hperm.symm) hgiven.2.2.2 hsorted
      have heq : t = s := by
        cases t
        cases s
        simp only at hgiven hunits hbundles
        rw [hgiven.2.1, hunits, hbundles]
      rw [ht, heq]

end GrammarEngine.BundleSet

import GrammarEngine.Recognizer.Basic
import GrammarEngine.Proofs.Bundle.Grouping

/-!
# The arena holds every unit

Units are appended to the arena one after the other. What is appended later leaves the slices of the
earlier units as they are, so the payload of every unit of a partitioned set is found by its name.
-/
namespace GrammarEngine.Recognizer

variable {s : BundleSet} {r : Recognizer} {units : List CompiledUnit} {u : CompiledUnit}

/-- The arena consists of these units, and each of them is found by its name. -/
structure Holds (r : Recognizer) (units : List CompiledUnit) : Prop where
  names : r.entries.map UnitEntry.name = units.map CompiledUnit.name
  inside : ∀ e ∈ r.entries, e.offset + e.length ≤ r.arena.length
  payloads : ∀ u ∈ units, r.unit? u.name = some u.payload

theorem holds_empty : Holds {} [] where
  names := rfl
  inside _ he := absurd he List.not_mem_nil
  payloads _ hu := absurd hu List.not_mem_nil

theorem Holds.entry?_eq_none (h : Holds r units) {name : String}
    (hnew : name ∉ units.map CompiledUnit.name) : r.entry? name = none := by
  rw [← h.names] at hnew
  exact find?_key_eq_none.mpr hnew

/-- The recognizer with one more unit. -/
def withUnit (r : Recognizer) (u : CompiledUnit) (bundle : String) : Recognizer :=
  { r with
    arena := r.arena ++ u.payload
    entries := r.entries ++ [⟨u.name, r.arena.length, u.payload.length, bundle, u.inner⟩] }

theorem Holds.unit?_withUnit (h : Holds r units) {v : CompiledUnit} (hv : v ∈ units)
    (bundle : String) : (r.withUnit u bundle).unit? v.name = some v.payload := by
  have hpayload := h.payloads v hv
  obtain ⟨e, he, hslice⟩ := Option.map_eq_some_iff.mp hpayload
  have hinside := h.inside e (List.mem_of_find?_eq_some he)
  have hentry : entry? (r.withUnit u bundle) v.name = some e := by
    rw [ entry?] at he
    rw [ entry?, withUnit, List.find?_append, he, Option.some_or]
  rw [unit?, hentry, Option.map_some, ← hslice]
  rw [withUnit, List.drop_append_of_le_length (by omega),
    List.take_append_of_le_length (by rw [List.length_drop]; omega)]

theorem unit?_withUnit_self (hnew : r.entry? u.name = none) (bundle : String) :
    (r.withUnit u bundle).unit? u.name = some u.payload := by
  have hentry : entry? (r.withUnit u bundle) u.name =
      some ⟨u.name, r.arena.length, u.payload.length, bundle, u.inner⟩ := by
    rw [ entry?] at hnew
    rw [ entry?, withUnit, List.find?_append, hnew, Option.none_or]
    simp
  rw [unit?, hentry, Option.map_some, withUnit]
  simp

theorem Holds.withUnit (h : Holds r units) (hnew : u.name ∉ units.map CompiledUnit.name)
    (bundle : String) : Holds (r.withUnit u bundle) (units ++ [u]) where
  names := by
    rw [Recognizer.withUnit, List.map_append, List.map_append, h.names]
    rfl
  inside e he := by
    rw [Recognizer.withUnit, List.length_append]
    rcases List.mem_append.mp he with he | he
    · have hinside := h.inside e he
      omega
    · rw [List.mem_singleton.mp he]
  payloads v hv := by
    rcases List.mem_append.mp hv with hv | hv
    · exact h.unit?_withUnit hv bundle
    · rw [List.mem_singleton.mp hv]
      exact unit?_withUnit_self (h.entry?_eq_none hnew) bundle

theorem addUnit_of_holds {b : Bundle} {id : Nat} (h : Holds r units)
    (hu : s.unit? id = some u) (hnew : u.name ∉ units.map CompiledUnit.name) :
    addUnit s b r id = .ok (r.withUnit u b.name) := by
  simp only [addUnit, hu]
  rw [h.entry?_eq_none hnew, if_neg (by simp)]
  rfl

/-- The units of the given numbers. -/
def unitsOf (s : BundleSet) (ids : List Nat) : List CompiledUnit := ids.filterMap s.unit?

theorem foldlM_addUnit {b : Bundle} {ids : List Nat} (h : Holds r units)
    (hids : ∀ id ∈ ids, id < s.units.length)
    (hnodup : ((units ++ unitsOf s ids).map CompiledUnit.name).Nodup) :
    ∃ r', ids.foldlM (addUnit s b) r = .ok r' ∧ Holds r' (units ++ unitsOf s ids) ∧
      r'.lexers = r.lexers ∧ r'.parsers = r.parsers := by
  induction ids generalizing r units with
  | nil =>
      refine ⟨r, rfl, ?_, rfl, rfl⟩
      rwa [unitsOf, List.filterMap_nil, List.append_nil]
  | cons id ids ih =>
      obtain ⟨u, hu⟩ : ∃ u, s.unit? id = some u :=
        ⟨_, List.getElem?_eq_getElem (hids id List.mem_cons_self)⟩
      have hunits : units ++ unitsOf s (id :: ids) = (units ++ [u]) ++ unitsOf s ids := by
        rw [unitsOf, List.filterMap_cons_some hu, ← unitsOf, List.append_cons]
      rw [hunits] at hnodup ⊢
      have hnew : u.name ∉ units.map CompiledUnit.name := by
        have hfront : ((units ++ [u]).map CompiledUnit.name).Nodup :=
          hnodup.sublist ((List.sublist_append_left _ _).map CompiledUnit.name)
        rw [List.map_append, List.map_singleton] at hfront
        exact (List.nodup_cons.mp ((List.perm_append_singleton _ _).nodup_iff.mp hfront)).1
      obtain ⟨r', hrun, hholds, hregistered⟩ := ih (h.withUnit hnew b.name)
        (fun i hi => hids i (List.mem_cons_of_mem id hi)) hnodup
      refine ⟨r', ?_, hholds, hregistered⟩
      rw [List.foldlM_cons, addUnit_of_holds h hu hnew]
      exact hrun

theorem foldlM_addBundle {bundles : List Bundle} (h : Holds r units)
    (hids : ∀ id ∈ bundles.flatMap Bundle.unitIds, id < s.units.length)
    (hnodup : ((units ++ unitsOf s (bundles.flatMap Bundle.unitIds)).map
      CompiledUnit.name).Nodup) :
    ∃ r', bundles.foldlM (fun r b => b.unitIds.foldlM (addUnit s b) r) r = .ok r' ∧
      Holds r' (units ++ unitsOf s (bundles.flatMap Bundle.unitIds)) ∧
      r'.lexers = r.lexers ∧ r'.parsers = r.parsers := by
  induction bundles generalizing r units with
  | nil =>
      refine ⟨r, rfl, ?_, rfl, rfl⟩
      rwa [List.flatMap_nil, unitsOf, List.filterMap_nil, List.append_nil]
  | cons b rest ih =>
      have hunits : units ++ unitsOf s ((b :: rest).flatMap Bundle.unitIds) =
          (units ++ unitsOf s b.unitIds) ++ unitsOf s (rest.flatMap Bundle.unitIds) := by
        rw [List.flatMap_cons, unitsOf, List.filterMap_append, List.append_assoc, unitsOf, unitsOf]
      rw [List.flatMap_cons] at hids
      rw [hunits] at hnodup ⊢
      have hfront : ((units ++ unitsOf s b.unitIds).map CompiledUnit.name).Nodup :=
        hnodup.sublist ((List.sublist_append_left _ _).map CompiledUnit.name)
      obtain ⟨r₁, hfirst, hholds, hlexers, hparsers⟩ := foldlM_addUnit (b := b) h
        (fun id hid => hids id (List.mem_append_left _ hid)) hfront
      obtain ⟨r', hrest, hholds', hlexers', hparsers'⟩ := ih hholds
        (fun id hid => hids id (List.mem_append_right _ hid)) hnodup
      refine ⟨r', ?_, hholds', hlexers'.trans hlexers, hparsers'.trans hparsers⟩
      rw [List.foldlM_cons, hfirst]
      exact hrest

theorem unitsOf_range (s : BundleSet) : unitsOf s (List.range s.units.length) = s.units := by
  have hall := filterMap_getElem?_range' s.units 0 s.units.length
  rw [List.drop_zero, List.take_length, ← List.range_eq_range'] at hall
  exact hall

/-- A partitioned set has an arena, which consists of the units of the set. -/
theorem exists_holds (hs : s.Partitioned) :
    ∃ r units, ofUnits s = .ok r ∧ Holds r units ∧ units.Perm s.units ∧ r.lexers = [] ∧
      r.parsers = [] := by
  have hperm : (unitsOf s (s.bundles.flatMap Bundle.unitIds)).Perm s.units := by
    have hunits : (unitsOf s (s.bundles.flatMap Bundle.unitIds)).Perm
        (unitsOf s (List.range s.units.length)) := hs.placed.filterMap s.unit?
    rwa [unitsOf_range] at hunits
  have hids : ∀ id ∈ s.bundles.flatMap Bundle.unitIds, id < s.units.length :=
    fun id hid => List.mem_range.mp (hs.placed.mem_iff.mp hid)
  have hnodup : (([] ++ unitsOf s (s.bundles.flatMap Bundle.unitIds)).map
      CompiledUnit.name).Nodup := (hperm.map CompiledUnit.name).nodup_iff.mpr hs.units_nodup
  obtain ⟨r, hrun, hholds, hlexers, hparsers⟩ := foldlM_addBundle holds_empty hids hnodup
  exact ⟨r, _, hrun, hholds, hperm, hlexers, hparsers⟩

/-- In the arena of a partitioned set each of its units is found. -/
theorem exists_ofUnits (hs : s.Partitioned) :
    ∃ r, ofUnits s = .ok r ∧ (∀ u ∈ s.units, r.unit? u.name = some u.payload) ∧
      r.lexers = [] ∧ r.parsers = [] := by
  obtain ⟨r, units, hrun, hholds, hperm, hlexers, hparsers⟩ := exists_holds hs
  exact ⟨r, hrun, fun u hu => hholds.payloads u (hperm.mem_iff.mpr hu), hlexers, hparsers⟩

end GrammarEngine.Recognizer

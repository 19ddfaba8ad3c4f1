import GrammarEngine.Proofs.Bundle.Calls
import GrammarEngine.Proofs.Recognizer.Linked
import Mathlib.Algebra.GroupWithZero.Nat

/-!
# Units tile the arena

The entries of a recognizer are made while its arena grows, so that each of them begins where the
one before it stops. They lie in the order in which bundles list their units, and as every unit of a
set is listed once, every unit has one entry. Linking adds programs and leaves the arena as it is.
-/
namespace GrammarEngine

/-- One past the last place of the arena that belongs to a unit. -/
def UnitEntry.stop (e : UnitEntry) : Nat := e.offset + e.length

namespace Recognizer

variable {s : BundleSet} {r r' r₀ : Recognizer} {entries : List UnitEntry} {e : UnitEntry}
  {start stop i : Nat} {name : String}

/-! ## Tilings -/

/-- Entries from one place of the arena up to another. Each of them begins where the one before it
stops. -/
def Tiles : Nat → List UnitEntry → Nat → Prop
  | start, [], stop => start = stop
  | start, e :: rest, stop => e.offset = start ∧ Tiles e.stop rest stop

theorem Tiles.concat (h : Tiles start entries stop) (he : e.offset = stop) :
    Tiles start (entries ++ [e]) e.stop := by
  induction entries generalizing start with
  | nil =>
      have hstart : start = stop := h
      exact ⟨he.trans hstart.symm, rfl⟩
  | cons d rest ih => exact ⟨h.1, ih h.2⟩

theorem Tiles.stop_eq (h : Tiles start entries stop) :
    stop = start + (entries.map UnitEntry.length).sum := by
  induction entries generalizing start with
  | nil =>
      have hstart : start = stop := h
      simp [hstart]
  | cons d rest ih =>
      have hrest := ih h.2
      rw [hrest, UnitEntry.stop, h.1, List.map_cons, List.sum_cons, Nat.add_assoc]

/-- No entry begins before the tiling does. -/
theorem Tiles.start_le (h : Tiles start entries stop) : ∀ e ∈ entries, start ≤ e.offset := by
  induction entries generalizing start with
  | nil => exact fun e he => absurd he List.not_mem_nil
  | cons d rest ih =>
      intro e he
      rcases List.mem_cons.mp he with rfl | he
      · exact Nat.le_of_eq h.1.symm
      · have hstart := h.1
        have hlater := ih h.2 e he
        rw [UnitEntry.stop] at hlater
        omega

theorem Tiles.pairwise (h : Tiles start entries stop) :
    entries.Pairwise fun e f => e.stop ≤ f.offset := by
  induction entries generalizing start with
  | nil => exact .nil
  | cons d rest ih => exact .cons h.2.start_le (ih h.2)

/-- Every place of a tiling belongs to one entry. -/
theorem Tiles.exists_unique (h : Tiles start entries stop) (hstart : start ≤ i) (hstop : i < stop) :
    ∃! e, e ∈ entries ∧ e.offset ≤ i ∧ i < e.stop := by
  induction entries generalizing start with
  | nil =>
      have hempty : start = stop := h
      omega
  | cons d rest ih =>
      by_cases hi : i < d.stop
      · refine ⟨d, ⟨List.mem_cons_self, by rw [h.1]; exact hstart, hi⟩, ?_⟩
        rintro f ⟨hf, hle, -⟩
        rcases List.mem_cons.mp hf with rfl | hf
        · rfl
        · have hlater := h.2.start_le f hf
          omega
      · obtain ⟨f, ⟨hf, hplace⟩, honly⟩ := ih h.2 (Nat.le_of_not_lt hi)
        refine ⟨f, ⟨List.mem_cons_of_mem d hf, hplace⟩, ?_⟩
        intro g ⟨hg, hgplace⟩
        rcases List.mem_cons.mp hg with rfl | hg
        · exact absurd hgplace.2 hi
        · exact honly g ⟨hg, hgplace⟩

/-! ## Entries -/

/-- An entry says of a unit what the set says of it. -/
structure EntryOf (s : BundleSet) (id : Nat) (e : UnitEntry) : Prop where
  unit : ∃ u, s.unit? id = some u ∧ e.name = u.name ∧ e.length = u.size ∧ e.inner = u.inner
  bundle : ∃ b, s.bundleOf? id = some b ∧ e.bundle = b.name

theorem addUnit_cases {b : Bundle} {id : Nat} (h : addUnit s b r id = .ok r') :
    ∃ u, s.unit? id = some u ∧ r' = r.withUnit u b.name := by
  unfold addUnit at h
  split at h
  · cases h
  · next u hu =>
    split at h
    · cases h
    · exact ⟨u, hu, (Except.ok.inj h).symm⟩

theorem tiles_addUnit {b : Bundle} {id : Nat} (hr : Tiles 0 r.entries r.arena.length)
    (h : addUnit s b r id = .ok r') : Tiles 0 r'.entries r'.arena.length := by
  obtain ⟨u, -, rfl⟩ := addUnit_cases h
  rw [withUnit, List.length_append]
  exact hr.concat rfl

theorem tiles_ofUnits (h : ofUnits s = .ok r) : Tiles 0 r.entries r.arena.length := by
  have hempty : Tiles 0 ({} : Recognizer).entries ({} : Recognizer).arena.length := rfl
  apply foldlM_invariant (fun r : Recognizer => Tiles 0 r.entries r.arena.length) hempty _ h
  intro b _ r₁ r₂ hr₁ hrun
  exact foldlM_invariant (fun r : Recognizer => Tiles 0 r.entries r.arena.length) hr₁
    (fun _ _ _ _ hr hadd => tiles_addUnit hr hadd) hrun

theorem entries_addUnits {b : Bundle} {ids : List Nat}
    (hb : ∀ id ∈ ids, s.bundleOf? id = some b) (h : ids.foldlM (addUnit s b) r = .ok r') :
    ∃ added, r'.entries = r.entries ++ added ∧ List.Forall₂ (EntryOf s) ids added := by
  induction ids generalizing r with
  | nil =>
      obtain rfl := Except.ok.inj h
      exact ⟨[], (List.append_nil _).symm, .nil⟩
  | cons id rest ih =>
      rw [List.foldlM_cons, bind_eq_ok] at h
      obtain ⟨r₁, hadd, hrest⟩ := h
      obtain ⟨u, hu, rfl⟩ := addUnit_cases hadd
      obtain ⟨added, hentries, hadded⟩ :=
        ih (fun i hi => hb i (List.mem_cons_of_mem id hi)) hrest
      have hentry : EntryOf s id ⟨u.name, r.arena.length, u.payload.length, b.name, u.inner⟩ :=
        ⟨⟨u, hu, rfl, rfl, rfl⟩, b, hb id List.mem_cons_self, rfl⟩
      refine ⟨_ :: added, ?_, .cons hentry hadded⟩
      rw [hentries, withUnit, List.append_assoc, List.singleton_append]

theorem entries_addBundles {bundles : List Bundle}
    (hb : ∀ b ∈ bundles, ∀ id ∈ b.unitIds, s.bundleOf? id = some b)
    (h : bundles.foldlM (fun r b => b.unitIds.foldlM (addUnit s b) r) r = .ok r') :
    ∃ added, r'.entries = r.entries ++ added ∧
      List.Forall₂ (EntryOf s) (bundles.flatMap Bundle.unitIds) added := by
  induction bundles generalizing r with
  | nil =>
      obtain rfl := Except.ok.inj h
      exact ⟨[], (List.append_nil _).symm, .nil⟩
  | cons b rest ih =>
      rw [List.foldlM_cons, bind_eq_ok] at h
      obtain ⟨r₁, hfirst, hrest⟩ := h
      obtain ⟨front, hfront, hfrontOf⟩ := entries_addUnits (hb b List.mem_cons_self) hfirst
      obtain ⟨back, hback, hbackOf⟩ := ih (fun c hc => hb c (List.mem_cons_of_mem b hc)) hrest
      refine ⟨front ++ back, ?_, ?_⟩
      · rw [hback, hfront, List.append_assoc]
      · rw [List.flatMap_cons]
        exact List.rel_append hfrontOf hbackOf

end Recognizer

/-! ## Sets -/

namespace BundleSet

variable {s : BundleSet} {id : Nat} {u : CompiledUnit} {name : String}

theorem Partitioned.bundleOf?_eq (hs : s.Partitioned) {b : Bundle} (hb : b ∈ s.bundles)
    (hid : id ∈ b.unitIds) : s.bundleOf? id = some b := by
  cases hfound : s.bundleOf? id with
  | none =>
      have hnone := List.find?_eq_none.mp hfound b hb
      exact absurd (List.contains_iff_mem.mpr hid) hnone
  | some c =>
      rw [bundleOf?] at hfound
      have hmem : id ∈ c.unitIds := by simpa [Bundle.contains] using List.find?_some hfound
      have hc := List.mem_of_find?_eq_some hfound
      rw [hs.bundle_unique hc hb hmem hid]

theorem Partitioned.unitByName?_eq (hs : s.Partitioned) (hu : s.unit? id = some u) :
    s.unitByName? u.name = some (id, u) := by
  obtain ⟨hid, hget⟩ := List.getElem?_eq_some_iff.mp hu
  have hfound : s.units.findIdx? (fun v => v.name == u.name) = some id := by
    rw [List.findIdx?_eq_some_iff_getElem]
    refine ⟨hid, by simp [hget], ?_⟩
    intro j hj hname
    have hdistinct : s.units.Pairwise fun v w => v.name ≠ w.name :=
      List.pairwise_map.mp hs.units_nodup
    have hne := List.pairwise_iff_getElem.mp hdistinct j id (by omega) hid hj
    rw [hget] at hne
    exact hne (by simpa using hname)
  rw [unitByName?, hfound]
  simp [← hu, unit?]

theorem unitByName?_eq_none (h : name ∉ s.units.map CompiledUnit.name) :
    s.unitByName? name = none := by
  have hnone : s.units.findIdx? (fun v => v.name == name) = none := by
    rw [List.findIdx?_eq_none_iff]
    intro u hu
    rw [beq_eq_false_iff_ne]
    intro hname
    exact h (List.mem_map.mpr ⟨u, hu, hname⟩)
  rw [unitByName?, hnone]

theorem totalSize_eq (s : BundleSet) : s.totalSize = (s.units.map CompiledUnit.size).sum := by
  rw [totalSize, ← List.foldl_map, List.sum_eq_foldl]

end BundleSet

namespace Recognizer

variable {s : BundleSet} {r : Recognizer} {ids : List Nat} {entries : List UnitEntry}

theorem map_length_of_entryOf (h : List.Forall₂ (EntryOf s) ids entries) :
    entries.map UnitEntry.length = (unitsOf s ids).map CompiledUnit.size := by
  induction h with
  | nil => rfl
  | cons hentry _ ih =>
      obtain ⟨u, hu, -, hlength, -⟩ := hentry.unit
      rw [unitsOf, List.filterMap_cons_some hu, List.map_cons, List.map_cons, hlength, ih, unitsOf]

/-- The arena of a loaded recognizer is that of its set. -/
theorem exists_ofUnits_of_load (h : load s = .ok r) :
    ∃ r₀ lexers parsers, ofUnits s = .ok r₀ ∧ r = r₀.withPrograms lexers parsers := by
  obtain ⟨r₀, primaries, r₁, hunits, -, hfirst, hsecond⟩ := load_cases h
  have hmid : ∃ lexers parsers, r₁ = r₀.withPrograms lexers parsers := by
    apply foldlM_invariant (fun r => ∃ lexers parsers, r = r₀.withPrograms lexers parsers)
      _ _ hfirst
    · exact ⟨r₀.lexers, r₀.parsers, rfl⟩
    · rintro primary - r r' ⟨lexers, parsers, rfl⟩ hrun
      obtain ⟨more, rfl⟩ := lexers_of_linkPrimary hrun
      exact ⟨more, parsers, rfl⟩
  have hend : ∃ lexers parsers, r = r₀.withPrograms lexers parsers := by
    apply foldlM_invariant (fun r => ∃ lexers parsers, r = r₀.withPrograms lexers parsers) hmid _
      hsecond
    rintro primary - r r' ⟨lexers, parsers, rfl⟩ hrun
    obtain ⟨more, rfl⟩ := parsers_of_linkDeferred hrun
    exact ⟨lexers, more, rfl⟩
  obtain ⟨lexers, parsers, hr⟩ := hend
  exact ⟨r₀, lexers, parsers, hunits, hr⟩

/-! ## Loaded sets -/

/-- A recognizer that holds a set. Its entries follow the bundles in the order of their names, and
in every bundle the primary unit comes first; they divide the arena among them, and through them the
payload of every unit of the set is found, and nothing else. -/
structure Stores (r : Recognizer) (s : BundleSet) : Prop where
  sorted : s.bundles.Pairwise fun b c => b.name < c.name
  once : (s.bundles.flatMap Bundle.unitIds).Perm (List.range s.units.length)
  entries : List.Forall₂ (EntryOf s) (s.bundles.flatMap Bundle.unitIds) r.entries
  tiles : Tiles 0 r.entries r.totalSize
  disjoint : r.entries.Pairwise fun e f => e.stop ≤ f.offset
  covered : ∀ i < r.totalSize, ∃! e, e ∈ r.entries ∧ e.offset ≤ i ∧ i < e.stop
  names : r.entries.Pairwise fun e f => e.name ≠ f.name
  entry : ∀ id u, s.unit? id = some u → ∃ e, r.entry? u.name = some e ∧ EntryOf s id e
  payload : ∀ name, r.unit? name = (s.unitByName? name).map fun found => found.2.payload
  totalSize : r.totalSize = s.totalSize
  unitCount : r.unitCount = s.unitCount

/-- The arena of a consistent set holds the set. -/
theorem stores_of_ofUnits (hs : s.Consistent) (h : ofUnits s = .ok r) : Stores r s := by
  obtain ⟨r₀, units, hr₀, hholds, hperm, -, -⟩ := exists_holds hs.toPartitioned
  obtain rfl := Except.ok.inj (hr₀.symm.trans h)
  have htiles := tiles_ofUnits h
  have howner : ∀ b ∈ s.bundles, ∀ id ∈ b.unitIds, s.bundleOf? id = some b :=
    fun b hb id hid => hs.bundleOf?_eq hb hid
  obtain ⟨added, hadded, hentries⟩ := entries_addBundles howner h
  have hall : added = r₀.entries := hadded.symm
  rw [hall] at hentries
  have hnames : (r₀.entries.map UnitEntry.name).Nodup := by
    rw [hholds.names]
    exact (hperm.map CompiledUnit.name).nodup_iff.mpr hs.units_nodup
  have hdistinct : r₀.entries.Pairwise fun e f => e.name ≠ f.name := List.pairwise_map.mp hnames
  have hlisted : (unitsOf s (s.bundles.flatMap Bundle.unitIds)).Perm s.units := by
    have hunits := hs.placed.filterMap s.unit?
    exact hunits.trans (.of_eq (unitsOf_range s))
  refine
    { sorted := hs.sorted
      once := hs.placed
      entries := hentries
      tiles := htiles
      disjoint := htiles.pairwise
      covered := fun i hi => htiles.exists_unique (Nat.zero_le i) hi
      names := hdistinct
      entry := ?_
      payload := ?_
      totalSize := ?_
      unitCount := ?_ }
  · intro id u hu
    have hid : id ∈ s.bundles.flatMap Bundle.unitIds :=
      hs.placed.mem_iff.mpr (List.mem_range.mpr (List.getElem?_eq_some_iff.mp hu).1)
    obtain ⟨e, he, hentry⟩ := exists_of_mem_right hentries.flip hid
    obtain ⟨v, hv, hname, -⟩ := hentry.unit
    obtain rfl : v = u := Option.some.inj (hv.symm.trans hu)
    rw [← hname]
    exact ⟨e, find?_key_of_mem hnames he, hentry⟩
  · intro name
    by_cases hname : name ∈ s.units.map CompiledUnit.name
    · obtain ⟨u, hu, rfl⟩ := List.mem_map.mp hname
      obtain ⟨id, hid⟩ := List.getElem?_of_mem hu
      rw [hs.unitByName?_eq hid, hholds.payloads u (hperm.mem_iff.mpr hu), Option.map_some]
    · have hfree : name ∉ units.map CompiledUnit.name :=
        fun hmem => hname ((hperm.map CompiledUnit.name).mem_iff.mp hmem)
      rw [BundleSet.unitByName?_eq_none hname, unit?, hholds.entry?_eq_none hfree, Option.map_none,
        Option.map_none]
  · have hlength := htiles.stop_eq
    rw [Nat.zero_add, map_length_of_entryOf hentries] at hlength
    rw [BundleSet.totalSize_eq, Recognizer.totalSize, hlength]
    exact (hlisted.map CompiledUnit.size).sum_nat
  · rw [Recognizer.unitCount, BundleSet.unitCount, ← hentries.length_eq, hs.placed.length_eq,
      List.length_range]

/-- Whatever set is made and loaded, the recognizer holds it. Every unit has one entry, which names
its bundle and its flag; taken in the order of the bundles and of the units in them, the entries
divide the arena without gaps; and a name leads to the payload of the unit that bears it, if there
is one. -/
theorem stores_of_load (hs : s.Made) (hload : load s = .ok r) : Stores r s := by
  obtain ⟨r₀, lexers, parsers, hunits, rfl⟩ := exists_ofUnits_of_load hload
  have hstores := stores_of_ofUnits hs.consistent hunits
  exact { hstores with }

/-- Two libraries, of which the one that is loaded first has a unit without a single byte. -/
def librarySet : BundleSet where
  units := [⟨"B", [0x49, 0x47, 0x55, 1, 4, 1, 0x42, 0, 0], false⟩,
    ⟨"A", [0x49, 0x47, 0x55, 1, 4, 1, 0x41, 0, 0], false⟩, ⟨"A$none", [], true⟩,
    ⟨"A$two", [7, 8], true⟩]
  bundles := [⟨⟨"A", "", .utility⟩, 1, [2, 3]⟩, ⟨⟨"B", "", .generated⟩, 0, []⟩]

theorem librarySet_stored :
    librarySet.Made ∧ ∃ r, load librarySet = .ok r ∧
      r.entries = [⟨"A", 0, 9, "A", false⟩, ⟨"A$none", 9, 0, "A", true⟩, ⟨"A$two", 9, 2, "A", true⟩,
        ⟨"B", 11, 9, "B", false⟩] ∧ Stores r librarySet := by
  have hmade : librarySet.Made := by
    have hparts :
        BundleSet.ofParts librarySet.units librarySet.bundles.reverse = .ok librarySet := by
      decide
    exact .ofParts hparts
  have hcheck : (load librarySet).map entries = .ok [⟨"A", 0, 9, "A", false⟩,
      ⟨"A$none", 9, 0, "A", true⟩, ⟨"A$two", 9, 2, "A", true⟩, ⟨"B", 11, 9, "B", false⟩] := by
    decide
  obtain ⟨r, hload, hentries⟩ := map_eq_ok.mp hcheck
  exact ⟨hmade, r, hload, hentries, stores_of_load hmade hload⟩

end Recognizer

end GrammarEngine

import GrammarEngine.Compile.Bundling
import GrammarEngine.Proofs.Checked
import Mathlib.Data.List.Perm.Basic
import Mathlib.Data.List.Range

/-!
# Grouping keeps every artifact

A set that grows by bundles and inner units stays partitioned: units have different names, bundles
have different names, and every unit belongs to exactly one bundle. Grouping puts every artifact
into such a set under its own name, and the bundles bear the names of the sources.

A set that has grown from the empty one is also consistent: its bundles stand in the order of their
names, the primary unit of a bundle bears the bundle's name, and inner units are flagged inner.
Putting the units and the bundles of a consistent set together gives the set again, as every check
of the parts passes.
-/
namespace GrammarEngine.BundleSet

variable {s t : BundleSet} {u : CompiledUnit} {source : UnitSource} {payload : List UInt8}
  {name : String} {id : Nat}

/-- Units and bundles have different names and every unit belongs to one bundle. -/
structure Partitioned (s : BundleSet) : Prop where
  units_nodup : (s.units.map CompiledUnit.name).Nodup
  bundles_nodup : (s.bundles.map Bundle.name).Nodup
  placed : (s.bundles.flatMap Bundle.unitIds).Perm (List.range s.units.length)

theorem partitioned_empty : Partitioned {} where
  units_nodup := List.nodup_nil
  bundles_nodup := List.nodup_nil
  placed := .nil

/-! ## Growing -/

theorem perm_insertSorted (b : Bundle) (bundles : List Bundle) :
    (insertSorted b bundles).Perm (b :: bundles) := by
  induction bundles with
  | nil => exact .refl _
  | cons c rest ih =>
      unfold insertSorted
      split
      · exact .refl _
      · exact (ih.cons c).trans (.swap b c rest)

theorem pushUnit_cases (h : s.pushUnit u = .ok (id, t)) :
    u.name ∉ s.units.map CompiledUnit.name ∧ id = s.units.length ∧
      t = { s with units := s.units ++ [u] } := by
  unfold pushUnit at h
  split at h
  · cases h
  · next hnew =>
    cases h
    refine ⟨fun hmem => hnew ?_, rfl, rfl⟩
    obtain ⟨v, hv, hname⟩ := List.mem_map.mp hmem
    exact List.any_eq_true.mpr ⟨v, hv, by simpa using hname⟩

theorem insertBundle_cases (h : s.insertBundle source payload = .ok (id, t)) :
    source.name ∉ s.bundles.map Bundle.name ∧ source.name ∉ s.units.map CompiledUnit.name ∧
      t = ⟨s.units ++ [⟨source.name, payload, false⟩],
        insertSorted ⟨source, s.units.length, []⟩ s.bundles⟩ := by
  unfold insertBundle at h
  split at h
  · cases h
  · next hnew =>
    obtain ⟨⟨_, grown⟩, hpush, heq⟩ := map_eq_ok.mp h
    obtain ⟨hname, rfl, rfl⟩ := pushUnit_cases hpush
    cases heq
    refine ⟨fun hmem => hnew ?_, hname, rfl⟩
    obtain ⟨b, hb, hb'⟩ := List.mem_map.mp hmem
    exact List.find?_isSome.mpr ⟨b, hb, by simpa using hb'⟩

theorem addInner_cases {owner : String} (h : s.addInner owner name payload = .ok (id, t)) :
    owner ∈ s.bundles.map Bundle.name ∧ name ∉ s.units.map CompiledUnit.name ∧
      t = ⟨s.units ++ [⟨name, payload, true⟩], s.bundles.map (give owner s.units.length)⟩ := by
  unfold addInner at h
  split at h
  · cases h
  · next hfound =>
    obtain ⟨⟨_, grown⟩, hpush, heq⟩ := map_eq_ok.mp h
    obtain ⟨hname, rfl, rfl⟩ := pushUnit_cases hpush
    cases heq
    refine ⟨?_, hname, rfl⟩
    obtain ⟨b, hb⟩ := Option.ne_none_iff_exists'.mp (by simpa using hfound)
    exact List.mem_map.mpr ⟨b, List.mem_of_find?_eq_some hb, by simpa using List.find?_some hb⟩

theorem nodup_concat_name (h : (s.units.map CompiledUnit.name).Nodup)
    (hnew : u.name ∉ s.units.map CompiledUnit.name) :
    ((s.units ++ [u]).map CompiledUnit.name).Nodup := by
  rw [List.map_append, List.map_singleton]
  exact (List.perm_append_singleton _ _).nodup_iff.mpr (List.nodup_cons.mpr ⟨hnew, h⟩)

theorem perm_range_succ {ids : List Nat} {n : Nat} (h : ids.Perm (List.range n)) :
    (n :: ids).Perm (List.range (n + 1)) := by
  rw [List.range_succ]
  exact (h.cons n).trans (List.perm_append_singleton n _).symm

theorem Partitioned.insertBundle (hs : s.Partitioned)
    (h : s.insertBundle source payload = .ok (id, t)) : t.Partitioned := by
  obtain ⟨hbundle, hname, rfl⟩ := insertBundle_cases h
  have hperm := perm_insertSorted ⟨source, s.units.length, []⟩ s.bundles
  refine ⟨nodup_concat_name hs.units_nodup hname, ?_, ?_⟩
  · have hnames : (source.name :: s.bundles.map Bundle.name).Nodup :=
      List.nodup_cons.mpr ⟨hbundle, hs.bundles_nodup⟩
    exact (hperm.map Bundle.name).nodup_iff.mpr hnames
  · rw [List.length_append, List.length_singleton]
    exact (hperm.flatMap_right Bundle.unitIds).trans (perm_range_succ hs.placed)

theorem name_give (owner : String) (id : Nat) (b : Bundle) : (give owner id b).name = b.name := by
  unfold give
  split <;> rfl

theorem primary_give (owner : String) (id : Nat) (b : Bundle) :
    (give owner id b).primary = b.primary := by
  unfold give
  split <;> rfl

/-- The bundle of the name has the unit behind its inner units, the others have what they had. -/
theorem mem_inner_give {owner : String} {b : Bundle} {i : Nat} (h : i ∈ (give owner id b).inner) :
    i ∈ b.inner ∨ i = id ∧ b.name = owner := by
  unfold give at h
  split at h
  · next hname =>
    rcases List.mem_append.mp h with h | h
    · exact .inl h
    · exact .inr ⟨List.mem_singleton.mp h, by simpa using hname⟩
  · exact .inl h

theorem map_name_give (owner : String) (id : Nat) (bundles : List Bundle) :
    (bundles.map (give owner id)).map Bundle.name = bundles.map Bundle.name := by
  rw [List.map_map]
  exact List.map_congr_left fun b _ => name_give owner id b

theorem map_give_of_not_mem {owner : String} {bundles : List Bundle}
    (h : owner ∉ bundles.map Bundle.name) : bundles.map (give owner id) = bundles := by
  have hsame : ∀ b ∈ bundles, give owner id b = b := by
    intro b hb
    have hname : b.name ≠ owner := fun hname => h (List.mem_map.mpr ⟨b, hb, hname⟩)
    simp [give, hname]
  exact (List.map_congr_left hsame).trans (List.map_id' bundles)

/-- As bundles have different names, exactly one of them gets the unit. -/
theorem perm_give {owner : String} {bundles : List Bundle}
    (hmem : owner ∈ bundles.map Bundle.name) (hnodup : (bundles.map Bundle.name).Nodup) :
    ((bundles.map (give owner id)).flatMap Bundle.unitIds).Perm
      (id :: bundles.flatMap Bundle.unitIds) := by
  induction bundles with
  | nil => exact absurd hmem List.not_mem_nil
  | cons b rest ih =>
      rw [List.map_cons] at hmem hnodup
      obtain ⟨hfresh, hrest⟩ := List.nodup_cons.mp hnodup
      rw [List.map_cons, List.flatMap_cons, List.flatMap_cons]
      by_cases hname : b.name = owner
      · subst hname
        have hb : (give b.name id b).unitIds = b.unitIds ++ [id] := by
          simp [give, Bundle.unitIds]
        rw [map_give_of_not_mem hfresh, hb, List.append_assoc]
        exact List.perm_middle
      · have hb : give owner id b = b := by simp [give, hname]
        have hin : owner ∈ rest.map Bundle.name :=
          (List.mem_cons.mp hmem).resolve_left fun h => hname h.symm
        rw [hb]
        exact ((ih hin hrest).append_left b.unitIds).trans List.perm_middle

theorem Partitioned.addInner {owner : String} (hs : s.Partitioned)
    (h : s.addInner owner name payload = .ok (id, t)) : t.Partitioned := by
  obtain ⟨howner, hname, rfl⟩ := addInner_cases h
  refine ⟨nodup_concat_name hs.units_nodup hname, ?_, ?_⟩
  · have hnames := map_name_give owner s.units.length s.bundles
    exact hnames ▸ hs.bundles_nodup
  · rw [List.length_append, List.length_singleton]
    exact (perm_give howner hs.bundles_nodup).trans (perm_range_succ hs.placed)

/-! ## Grouping -/

/-- A unit as it was produced. -/
def artifactOf (u : CompiledUnit) : Artifact := ⟨u.name, u.payload⟩

/-- The artifacts that have become units. -/
def artifacts (s : BundleSet) : List Artifact := s.units.map artifactOf

theorem takeArtifact?_cases {artifacts others : List Artifact} {a : Artifact}
    (h : takeArtifact? name artifacts = some (a, others)) :
    a.name = name ∧ artifacts.Perm (a :: others) := by
  induction artifacts generalizing others with
  | nil => cases h
  | cons b rest ih =>
      unfold takeArtifact? at h
      split at h
      · next hname =>
        cases h
        exact ⟨by simpa using hname, .refl _⟩
      · obtain ⟨⟨_, others'⟩, hrest, heq⟩ := Option.map_eq_some_iff.mp h
        cases heq
        obtain ⟨hname, hperm⟩ := ih hrest
        exact ⟨hname, (hperm.cons b).trans (.swap a b others')⟩

theorem liftBundle_eq_ok {α : Type} {r : Except BundleError α} {a : α} :
    liftBundle r = .ok a ↔ r = .ok a := by
  cases r <;> simp [liftBundle, Except.mapError]

/-- What has become units and what remains are the artifacts together. -/
theorem addPrimaries_grouped {sources : List UnitSource} {given rest : List Artifact}
    (hs : s.Partitioned) (h : addPrimaries sources given s = .ok (rest, t)) :
    t.Partitioned ∧ (t.artifacts ++ rest).Perm (s.artifacts ++ given) ∧
      (t.bundles.map Bundle.name).Perm
        (s.bundles.map Bundle.name ++ sources.map UnitSource.name) := by
  induction sources generalizing given s with
  | nil =>
      cases h
      refine ⟨hs, .refl _, ?_⟩
      rw [List.map_nil, List.append_nil]
  | cons source sources ih =>
      unfold addPrimaries at h
      split at h
      · cases h
      · next a others htake =>
        obtain ⟨⟨id, s'⟩, hinsert, h⟩ := bind_eq_ok.mp h
        have hinsert := liftBundle_eq_ok.mp hinsert
        obtain ⟨ht, hunits, hbundles⟩ := ih (hs.insertBundle hinsert) h
        obtain ⟨hname, hperm⟩ := takeArtifact?_cases htake
        obtain ⟨_, _, rfl⟩ := insertBundle_cases hinsert
        refine ⟨ht, hunits.trans ?_, hbundles.trans ?_⟩
        · have ha : artifactOf ⟨source.name, a.payload, false⟩ = a := by
            rw [artifactOf, ← hname]
          rw [artifacts, List.map_append, List.map_singleton, ha, List.append_assoc]
          exact hperm.symm.append_left _
        · have hinserted :=
            (perm_insertSorted ⟨source, s.units.length, []⟩ s.bundles).map Bundle.name
          exact (hinserted.append_right _).trans List.perm_middle.symm

theorem addArtifact_grouped {k : NamingScheme} {names : List String} {a : Artifact}
    (hs : s.Partitioned) (h : addArtifact k names s a = .ok t) :
    t.Partitioned ∧ t.artifacts = s.artifacts ++ [a] ∧
      t.bundles.map Bundle.name = s.bundles.map Bundle.name := by
  unfold addArtifact at h
  split at h
  · cases h
  · next owner _ =>
    obtain ⟨⟨id, s'⟩, hadd, rfl⟩ := map_eq_ok.mp h
    have hadd := liftBundle_eq_ok.mp hadd
    have hpartitioned := hs.addInner hadd
    obtain ⟨_, _, rfl⟩ := addInner_cases hadd
    refine ⟨hpartitioned, ?_, map_name_give owner s.units.length s.bundles⟩
    rw [artifacts, List.map_append]
    rfl

theorem addArtifacts_grouped {k : NamingScheme} {names : List String} {given : List Artifact}
    (hs : s.Partitioned) (h : given.foldlM (addArtifact k names) s = .ok t) :
    t.Partitioned ∧ t.artifacts = s.artifacts ++ given ∧
      t.bundles.map Bundle.name = s.bundles.map Bundle.name := by
  induction given generalizing s with
  | nil =>
      cases h
      exact ⟨hs, (List.append_nil _).symm, rfl⟩
  | cons a rest ih =>
      rw [List.foldlM_cons, bind_eq_ok] at h
      obtain ⟨s', hadd, h⟩ := h
      obtain ⟨hs', hunits, hbundles⟩ := addArtifact_grouped hs hadd
      obtain ⟨ht, hunits', hbundles'⟩ := ih hs' h
      refine ⟨ht, ?_, hbundles'.trans hbundles⟩
      rw [hunits', hunits, List.append_assoc, List.singleton_append]

/-- A set that grouping gives is partitioned, consists of the artifacts and has one bundle for every
source. -/
theorem group_grouped {k : NamingScheme} {sources : List UnitSource} {given : List Artifact}
    (h : group k sources given = .ok s) :
    s.Partitioned ∧ s.artifacts.Perm given ∧
      (s.bundles.map Bundle.name).Perm (sources.map UnitSource.name) := by
  obtain ⟨⟨rest, s'⟩, hprimaries, h⟩ := bind_eq_ok.mp h
  obtain ⟨hs', hunits, hbundles⟩ := addPrimaries_grouped partitioned_empty hprimaries
  obtain ⟨hs, hunits', hbundles'⟩ := addArtifacts_grouped hs' h
  refine ⟨hs, ?_, ?_⟩
  · rw [hunits']
    exact hunits
  · rw [hbundles']
    exact hbundles

end GrammarEngine.BundleSet

/-! ## Consistent sets -/
namespace GrammarEngine.BundleSet

variable {s t : BundleSet} {u : CompiledUnit} {units : List CompiledUnit} {b : Bundle}
  {bundles : List Bundle} {source : UnitSource} {payload : List UInt8} {name : String} {id : Nat}

/-- The sets that grow from the empty one. -/
inductive Built : BundleSet → Prop where
  | empty : Built {}
  | insertBundle {s t : BundleSet} {source : UnitSource} {payload : List UInt8} {id : Nat} :
      Built s → s.insertBundle source payload = .ok (id, t) → Built t
  | addInner {s t : BundleSet} {bundle name : String} {payload : List UInt8} {id : Nat} :
      Built s → s.addInner bundle name payload = .ok (id, t) → Built t

/-- The primary unit of a bundle bears its name, and the listed inner units are flagged inner. -/
structure Fits (units : List CompiledUnit) (b : Bundle) : Prop where
  primary : ∃ u, units[b.primary]? = some u ∧ isPrimaryOf u b.name = true
  inner : ∀ id ∈ b.inner, ∃ u, units[id]? = some u ∧ u.inner = true

structure Consistent (s : BundleSet) : Prop extends Partitioned s where
  sorted : s.bundles.Pairwise fun b c => b.name < c.name
  fits : ∀ b ∈ s.bundles, Fits s.units b

/-! ### Order -/

theorem mem_insertSorted {c : Bundle} : c ∈ insertSorted b bundles ↔ c = b ∨ c ∈ bundles := by
  rw [(perm_insertSorted b bundles).mem_iff, List.mem_cons]

theorem sorted_insertSorted (hnew : b.name ∉ bundles.map Bundle.name)
    (h : bundles.Pairwise fun b c => b.name < c.name) :
    (insertSorted b bundles).Pairwise fun b c => b.name < c.name := by
  induction bundles with
  | nil => exact List.pairwise_singleton _ _
  | cons c rest ih =>
      obtain ⟨hc, hrest⟩ := List.pairwise_cons.mp h
      rw [List.map_cons, List.mem_cons, not_or] at hnew
      unfold insertSorted
      split
      · next hlt =>
        apply List.pairwise_cons.mpr
        refine ⟨?_, h⟩
        intro d hd
        rcases List.mem_cons.mp hd with rfl | hd
        · exact hlt
        · exact String.lt_trans hlt (hc d hd)
      · next hnlt =>
        have hlt : c.name < b.name := by
          by_contra hge
          exact hnew.1 (String.le_antisymm (String.not_lt.mp hge) (String.not_lt.mp hnlt))
        apply List.pairwise_cons.mpr
        refine ⟨?_, ih hnew.2 hrest⟩
        intro d hd
        rcases mem_insertSorted.mp hd with rfl | hd
        · exact hlt
        · exact hc d hd

theorem insertSorted_of_forall_lt (h : ∀ c ∈ bundles, c.name < b.name) :
    insertSorted b bundles = bundles ++ [b] := by
  induction bundles with
  | nil => rfl
  | cons c rest ih =>
      obtain ⟨hc, hrest⟩ := List.forall_mem_cons.mp h
      unfold insertSorted
      rw [if_neg (String.lt_asymm hc), ih hrest, List.cons_append]

/-- Bundles that come in order are put in this order. -/
theorem foldl_insertSorted {front : List Bundle}
    (h : (front ++ bundles).Pairwise fun b c => b.name < c.name) :
    bundles.foldl (fun sorted b => insertSorted b sorted) front = front ++ bundles := by
  induction bundles generalizing front with
  | nil => simp
  | cons b rest ih =>
      have hlast : insertSorted b front = front ++ [b] := by
        apply insertSorted_of_forall_lt
        intro c hc
        exact (List.pairwise_append.mp h).2.2 c hc b List.mem_cons_self
      rw [List.foldl_cons, hlast, ih (by simpa using h), List.append_assoc, List.singleton_append]

/-! ### Growing -/

/-- Units that are added later do not change what is there. -/
theorem Fits.append (h : Fits units b) (more : List CompiledUnit) : Fits (units ++ more) b := by
  have hkeep : ∀ {id : Nat} {u : CompiledUnit}, units[id]? = some u →
      (units ++ more)[id]? = some u := by
    intro id u hu
    rw [List.getElem?_append_left (List.getElem?_eq_some_iff.mp hu).1, hu]
  constructor
  · obtain ⟨u, hu, hname⟩ := h.primary
    exact ⟨u, hkeep hu, hname⟩
  · intro id hid
    obtain ⟨u, hu, hinner⟩ := h.inner id hid
    exact ⟨u, hkeep hu, hinner⟩

/-- A unit that has just been added may be given to a bundle as an inner one. -/
theorem Fits.give (h : Fits units b) (owner name : String) (payload : List UInt8) :
    Fits (units ++ [⟨name, payload, true⟩]) (give owner units.length b) := by
  have hold := h.append [⟨name, payload, true⟩]
  constructor
  · rw [name_give, primary_give]
    exact hold.primary
  · intro id hid
    rcases mem_inner_give hid with hid | ⟨rfl, -⟩
    · exact hold.inner id hid
    · exact ⟨⟨name, payload, true⟩, by simp, rfl⟩

theorem consistent_empty : Consistent {} where
  toPartitioned := partitioned_empty
  sorted := List.Pairwise.nil
  fits := fun _ hb => absurd hb List.not_mem_nil

theorem Consistent.insertBundle (hs : s.Consistent)
    (h : s.insertBundle source payload = .ok (id, t)) : t.Consistent := by
  have hpartitioned := hs.toPartitioned.insertBundle h
  obtain ⟨hbundle, _, rfl⟩ := insertBundle_cases h
  refine ⟨hpartitioned, sorted_insertSorted hbundle hs.sorted, ?_⟩
  intro b hb
  rcases mem_insertSorted.mp hb with rfl | hb
  · constructor
    · exact ⟨⟨source.name, payload, false⟩, by simp, by simp [isPrimaryOf, Bundle.name]⟩
    · simp
  · exact (hs.fits b hb).append _

theorem Consistent.addInner {owner : String} (hs : s.Consistent)
    (h : s.addInner owner name payload = .ok (id, t)) : t.Consistent := by
  have hpartitioned := hs.toPartitioned.addInner h
  obtain ⟨_, _, rfl⟩ := addInner_cases h
  refine ⟨hpartitioned, ?_, ?_⟩
  · apply List.pairwise_map.mpr
    apply hs.sorted.imp
    intro b c hlt
    exact (name_give owner s.units.length b).symm ▸ (name_give owner s.units.length c).symm ▸ hlt
  · intro b hb
    obtain ⟨c, hc, rfl⟩ := List.mem_map.mp hb
    exact (hs.fits c hc).give owner name payload

theorem Built.consistent (h : Built s) : s.Consistent := by
  induction h with
  | empty => exact consistent_empty
  | insertBundle _ hinsert ih => exact ih.insertBundle hinsert
  | addInner _ hadd ih => exact ih.addInner hadd

/-! ### Putting parts together -/

theorem firstRepeated?_eq_none {seen : List String} :
    firstRepeated? seen units = none ↔
      (units.map CompiledUnit.name).Nodup ∧ ∀ u ∈ units, u.name ∉ seen := by
  induction units generalizing seen with
  | nil => simp [firstRepeated?]
  | cons u rest ih =>
      unfold firstRepeated?
      by_cases hseen : u.name ∈ seen
      · simp [hseen]
      · simp only [List.contains_iff_mem, hseen, if_false, ih, List.map_cons, List.nodup_cons,
          List.mem_cons, not_or, List.mem_map]
        grind

theorem claim_eq_ok {claimed : List Nat} (hrange : id < units.length) (hfree : id ∉ claimed) :
    claim units claimed id = .ok (id :: claimed) := by
  simp [claim, List.getElem?_eq_getElem hrange, hfree]

/-- Units of the arena that no bundle has can be claimed one after the other. -/
theorem claims_eq_ok {ids claimed : List Nat} (hrange : ∀ id ∈ ids, id < units.length)
    (hfree : (ids.reverse ++ claimed).Nodup) :
    ids.foldlM (claim units) claimed = .ok (ids.reverse ++ claimed) := by
  induction ids generalizing claimed with
  | nil => rfl
  | cons id rest ih =>
      obtain ⟨hid, hrest⟩ := List.forall_mem_cons.mp hrange
      rw [List.reverse_cons, List.append_assoc, List.singleton_append] at hfree ⊢
      have hnew : id ∉ claimed := (List.nodup_cons.mp (List.nodup_append.mp hfree).2.1).1
      rw [List.foldlM_cons, claim_eq_ok hid hnew]
      exact ih hrest hfree

theorem Fits.checkPrimary_eq_ok (h : Fits units b) : checkPrimary units b = .ok () := by
  obtain ⟨u, hu, hname⟩ := h.primary
  simp [checkPrimary, hu, hname]

theorem Fits.firstUnflagged?_eq_none (h : Fits units b) :
    firstUnflagged? units b.inner = none := by
  unfold firstUnflagged?
  rw [List.findSome?_eq_none_iff]
  intro id hid
  obtain ⟨u, hu, hinner⟩ := h.inner id hid
  simp [hu, hinner]

theorem Fits.addPart_eq_ok {a : Assembly} (h : Fits units b)
    (hname : b.name ∉ a.bundles.map Bundle.name) (hrange : ∀ id ∈ b.unitIds, id < units.length)
    (hfree : (b.unitIds.reverse ++ a.claimed).Nodup) :
    addPart units a b = .ok ⟨insertSorted b a.bundles, b.unitIds.reverse ++ a.claimed⟩ := by
  have hany : (a.bundles.any fun c => c.name == b.name) = false := by
    rw [List.any_eq_false]
    intro c hc heq
    exact hname (List.mem_map.mpr ⟨c, hc, by simpa using heq⟩)
  simp only [addPart, hany, claims_eq_ok hrange hfree, h.checkPrimary_eq_ok,
    h.firstUnflagged?_eq_none, Bool.false_eq_true, if_false]
  rfl

/-- Bundles that fit and share neither names nor units are all put into the table. -/
theorem addParts_eq_ok {a : Assembly} (hfits : ∀ b ∈ bundles, Fits units b)
    (hnames : ((a.bundles ++ bundles).map Bundle.name).Nodup)
    (hrange : ∀ b ∈ bundles, ∀ id ∈ b.unitIds, id < units.length)
    (hfree : ((bundles.flatMap Bundle.unitIds).reverse ++ a.claimed).Nodup) :
    bundles.foldlM (addPart units) a =
      .ok ⟨bundles.foldl (fun sorted b => insertSorted b sorted) a.bundles,
        (bundles.flatMap Bundle.unitIds).reverse ++ a.claimed⟩ := by
  induction bundles generalizing a with
  | nil => rfl
  | cons b rest ih =>
      obtain ⟨hb, hrest⟩ := List.forall_mem_cons.mp hfits
      obtain ⟨hbrange, hrestrange⟩ := List.forall_mem_cons.mp hrange
      rw [List.flatMap_cons, List.reverse_append, List.append_assoc] at hfree ⊢
      have hmoved : ((insertSorted b a.bundles ++ rest).map Bundle.name).Perm
          ((a.bundles ++ b :: rest).map Bundle.name) :=
        (((perm_insertSorted b a.bundles).append_right rest).trans
          List.perm_middle.symm).map Bundle.name
      have hname : b.name ∉ a.bundles.map Bundle.name := by
        intro hmem
        rw [List.map_append, List.map_cons] at hnames
        exact (List.nodup_append.mp hnames).2.2 b.name hmem b.name List.mem_cons_self rfl
      rw [List.foldlM_cons, hb.addPart_eq_ok hname hbrange (List.nodup_append.mp hfree).2.1]
      exact ih hrest (hmoved.nodup_iff.mpr hnames) hrestrange hfree

theorem firstOrphan?_eq_none {claimed : List Nat} (h : ∀ id < units.length, id ∈ claimed) :
    firstOrphan? units claimed = none := by
  have hfind : ((List.range units.length).find? fun id => !claimed.contains id) = none := by
    rw [List.find?_eq_none]
    intro id hid
    simpa using h id (List.mem_range.mp hid)
  unfold firstOrphan?
  rw [hfind, Option.bind_none]

/-- Parts that fit and leave no unit over make up a set. -/
theorem ofParts_eq_ok (hunits : (units.map CompiledUnit.name).Nodup)
    (hnames : (bundles.map Bundle.name).Nodup)
    (hplaced : (bundles.flatMap Bundle.unitIds).Perm (List.range units.length))
    (hfits : ∀ b ∈ bundles, Fits units b) :
    ofParts units bundles =
      .ok ⟨units, bundles.foldl (fun sorted b => insertSorted b sorted) []⟩ := by
  have hrepeated : firstRepeated? [] units = none :=
    firstRepeated?_eq_none.mpr ⟨hunits, by simp⟩
  have hreversed := (List.reverse_perm (bundles.flatMap Bundle.unitIds)).trans hplaced
  have hrange : ∀ b ∈ bundles, ∀ id ∈ b.unitIds, id < units.length := by
    intro b hb id hid
    exact List.mem_range.mp (hplaced.mem_iff.mp (List.mem_flatMap.mpr ⟨b, hb, hid⟩))
  have hparts := addParts_eq_ok (a := {}) hfits hnames hrange
    (by simpa using hreversed.nodup_iff.mpr List.nodup_range)
  have horphan : firstOrphan? units (bundles.flatMap Bundle.unitIds).reverse = none := by
    apply firstOrphan?_eq_none
    intro id hid
    exact hreversed.mem_iff.mpr (List.mem_range.mpr hid)
  simp only [List.append_nil] at hparts
  simp only [ofParts, hrepeated, hparts, bind, Except.bind, horphan]
  rfl

/-- The parts of a consistent set make up the set. -/
theorem Consistent.ofParts_eq_ok (hs : s.Consistent) : ofParts s.units s.bundles = .ok s := by
  have hsorted : s.bundles.foldl (fun sorted b => insertSorted b sorted) [] = s.bundles :=
    foldl_insertSorted hs.sorted
  rw [BundleSet.ofParts_eq_ok hs.units_nodup hs.bundles_nodup hs.placed hs.fits, hsorted]

end GrammarEngine.BundleSet

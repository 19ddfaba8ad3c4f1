import GrammarEngine.Proofs.Bundle.Grouping
import GrammarEngine.Proofs.Compile.Units

/-!
# Grouped sets are classified

An inner artifact goes to the longest name that classifies it, so it is inner to the name of its
bundle, and no bundle with a longer name takes it. A set that grouping gives therefore passes the
check of its classification, whatever the naming scheme.
-/
namespace GrammarEngine.BundleSet

variable {k : NamingScheme} {s t : BundleSet} {names : List String} {artifact : String}

/-! ## The longest name -/

/-- The longer of two names, the later one of equal lengths. -/
def longer (best : Option String) (n : String) : Option String :=
  match best with
  | none => some n
  | some b => if b.utf8ByteSize ≤ n.utf8ByteSize then some n else some b

theorem ownerOf?_eq (k : NamingScheme) (names : List String) (artifact : String) :
    ownerOf? k names artifact = (names.filter fun n => k.isInner n artifact).foldl longer none :=
  rfl

/-- What is found is one of the names or what was there before, and nothing is longer. -/
theorem foldl_longer {best : Option String} {n : String}
    (h : names.foldl longer best = some n) :
    (n ∈ names ∨ best = some n) ∧ (∀ m ∈ names, m.utf8ByteSize ≤ n.utf8ByteSize) ∧
      ∀ b, best = some b → b.utf8ByteSize ≤ n.utf8ByteSize := by
  induction names generalizing best with
  | nil =>
      simp only [List.foldl_nil] at h
      simp [h]
  | cons m rest ih =>
      rw [List.foldl_cons] at h
      obtain ⟨hmem, hrest, hbest⟩ := ih h
      have hm : m.utf8ByteSize ≤ n.utf8ByteSize ∧
          ∀ b, best = some b → b.utf8ByteSize ≤ n.utf8ByteSize := by
        cases best with
        | none => exact ⟨hbest m rfl, fun _ hb => absurd hb nofun⟩
        | some b =>
            simp only [longer] at hbest
            split at hbest
            · next hle =>
              have hmn := hbest m rfl
              exact ⟨hmn, fun c hc => Option.some.inj hc ▸ Nat.le_trans hle hmn⟩
            · next hlt =>
              have hbn := hbest b rfl
              exact ⟨Nat.le_trans (Nat.le_of_not_le hlt) hbn, fun c hc => Option.some.inj hc ▸ hbn⟩
      refine ⟨?_, List.forall_mem_cons.mpr ⟨hm.1, hrest⟩, hm.2⟩
      rcases hmem with hmem | hmem
      · exact .inl (List.mem_cons_of_mem m hmem)
      · cases best with
        | none => exact .inl (Option.some.inj hmem ▸ List.mem_cons_self)
        | some b =>
            simp only [longer] at hmem
            split at hmem
            · exact .inl (Option.some.inj hmem ▸ List.mem_cons_self)
            · exact .inr hmem

theorem exists_foldl_longer {best : Option String} (h : best.isSome ∨ names ≠ []) :
    ∃ n, names.foldl longer best = some n := by
  induction names generalizing best with
  | nil => exact Option.isSome_iff_exists.mp (h.resolve_right fun hne => hne rfl)
  | cons m rest ih =>
      have hkept : (longer best m).isSome := by
        cases best with
        | none => rfl
        | some b =>
            simp only [longer]
            split <;> rfl
      exact ih (.inl hkept)

/-- An artifact that some name classifies has an owner. -/
theorem exists_ownerOf? (h : ∃ n ∈ names, k.isInner n artifact = true) :
    ∃ owner ∈ names, ownerOf? k names artifact = some owner := by
  obtain ⟨n, hn, hinner⟩ := h
  have hcandidates : names.filter (fun n => k.isInner n artifact) ≠ [] :=
    List.ne_nil_of_mem (List.mem_filter.mpr ⟨hn, hinner⟩)
  obtain ⟨owner, howner⟩ : ∃ owner, ownerOf? k names artifact = some owner :=
    exists_foldl_longer (.inr hcandidates)
  have hfound := howner
  rw [ownerOf?_eq] at hfound
  have hmem := (foldl_longer hfound).1.resolve_right nofun
  exact ⟨owner, List.mem_of_mem_filter hmem, howner⟩

/-- A name classifies an artifact, and no other name that does is longer. -/
structure Owns (k : NamingScheme) (names : List String) (owner artifact : String) : Prop where
  inner : k.isInner owner artifact = true
  longest : ∀ n ∈ names, k.isInner n artifact = true → n.utf8ByteSize ≤ owner.utf8ByteSize

theorem owns_of_ownerOf? {owner : String} (h : ownerOf? k names artifact = some owner) :
    Owns k names owner artifact := by
  rw [ownerOf?_eq] at h
  obtain ⟨hmem, hlongest, _⟩ := foldl_longer h
  have howner := hmem.resolve_right nofun
  refine ⟨(List.mem_filter.mp howner).2, ?_⟩
  intro n hn hinner
  exact hlongest n (List.mem_filter.mpr ⟨hn, hinner⟩)

/-! ## Owned units -/

/-- Every inner unit is in the bundle of the name that owns it. -/
def Owned (k : NamingScheme) (names : List String) (s : BundleSet) : Prop :=
  ∀ b ∈ s.bundles, ∀ id ∈ b.inner, ∃ u, s.units[id]? = some u ∧ Owns k names b.name u.name

theorem owned_of_no_inner (h : ∀ b ∈ s.bundles, b.inner = []) : Owned k names s := by
  intro b hb id hid
  rw [h b hb] at hid
  exact absurd hid List.not_mem_nil

theorem Owned.addArtifact {a : Artifact} (hs : Owned k names s)
    (h : addArtifact k names s a = .ok t) : Owned k names t := by
  unfold BundleSet.addArtifact at h
  split at h
  · cases h
  · next owner howner =>
    have howns := owns_of_ownerOf? howner
    obtain ⟨⟨id, s'⟩, hadd, rfl⟩ := map_eq_ok.mp h
    obtain ⟨_, _, rfl⟩ := addInner_cases (liftBundle_eq_ok.mp hadd)
    intro c hc i hi
    obtain ⟨b, hb, rfl⟩ := List.mem_map.mp hc
    have hold : ∀ j ∈ b.inner, ∃ u, (s.units ++ [⟨a.name, a.payload, true⟩])[j]? = some u ∧
        Owns k names b.name u.name := by
      intro j hj
      obtain ⟨u, hu, hname⟩ := hs b hb j hj
      have hrange := (List.getElem?_eq_some_iff.mp hu).1
      exact ⟨u, by rw [List.getElem?_append_left hrange, hu], hname⟩
    rw [name_give]
    rcases mem_inner_give hi with hi | ⟨rfl, hbundle⟩
    · exact hold i hi
    · exact ⟨⟨a.name, a.payload, true⟩, by simp, hbundle.symm ▸ howns⟩

/-- A consistent set in which every inner unit is where it is owned passes the check. -/
theorem Owned.verify_eq_ok (howned : Owned k names s) (hs : s.Consistent)
    (hnames : ∀ b ∈ s.bundles, b.name ∈ names) : s.verify k = .ok () := by
  apply forM_eq_ok.mpr
  intro b hb
  apply forM_eq_ok.mpr
  intro id hid
  by_cases hprimary : id = b.primary
  · obtain ⟨u, hu, hname⟩ := (hs.fits b hb).primary
    subst hprimary
    simp [verifyUnit, unit?, hu, hname]
  · have hinner : id ∈ b.inner := (List.mem_cons.mp hid).resolve_left hprimary
    obtain ⟨u, hu, hflag⟩ := (hs.fits b hb).inner id hinner
    obtain ⟨v, hv, howns⟩ := howned b hb id hinner
    obtain rfl : u = v := Option.some.inj (hu.symm.trans hv)
    have hlonger : s.longerOwner? k b u = none := by
      apply List.find?_eq_none.mpr
      intro c hc hlong
      simp only [Bool.and_eq_true, decide_eq_true_eq] at hlong
      exact Nat.not_le.mpr hlong.1 (howns.longest c.name (hnames c hc) hlong.2)
    simp [verifyUnit, unit?, hu, hprimary, hflag, howns.inner, hlonger]

/-! ## Grouping -/

theorem addPrimaries_built {sources : List UnitSource} {given rest : List Artifact}
    (hs : Built s) (hempty : ∀ b ∈ s.bundles, b.inner = [])
    (h : addPrimaries sources given s = .ok (rest, t)) :
    Built t ∧ ∀ b ∈ t.bundles, b.inner = [] := by
  induction sources generalizing given s with
  | nil =>
      cases h
      exact ⟨hs, hempty⟩
  | cons source sources ih =>
      unfold addPrimaries at h
      split at h
      · cases h
      · next a others _ =>
        obtain ⟨⟨id, s'⟩, hinsert, h⟩ := bind_eq_ok.mp h
        have hinsert := liftBundle_eq_ok.mp hinsert
        apply ih (hs.insertBundle hinsert) _ h
        obtain ⟨_, _, rfl⟩ := insertBundle_cases hinsert
        intro b hb
        rcases mem_insertSorted.mp hb with rfl | hb
        · rfl
        · exact hempty b hb

theorem addArtifact_built {a : Artifact} (hs : Built s) (h : addArtifact k names s a = .ok t) :
    Built t := by
  unfold addArtifact at h
  split at h
  · cases h
  · obtain ⟨⟨id, s'⟩, hadd, rfl⟩ := map_eq_ok.mp h
    exact hs.addInner (liftBundle_eq_ok.mp hadd)

/-- Grouping grows a set in which every inner unit is where it is owned. -/
theorem group_owned {sources : List UnitSource} {given : List Artifact}
    (h : group k sources given = .ok s) :
    Built s ∧ Owned k (sources.map UnitSource.name) s := by
  obtain ⟨⟨inner, t⟩, hprimaries, h⟩ := bind_eq_ok.mp h
  obtain ⟨hbuilt, hempty⟩ := addPrimaries_built .empty (by simp) hprimaries
  refine foldlM_invariant (fun s => Built s ∧ Owned k (sources.map UnitSource.name) s)
    ⟨hbuilt, owned_of_no_inner hempty⟩ ?_ h
  rintro a - r r' ⟨hr, hrowned⟩ hadd
  exact ⟨addArtifact_built hr hadd, hrowned.addArtifact hadd⟩

/-- What is grouped passes the check of the scheme it was grouped with. -/
theorem group_verified {sources : List UnitSource} {given : List Artifact}
    (h : group k sources given = .ok s) : s.verify k = .ok () := by
  obtain ⟨hbuilt, howned⟩ := group_owned h
  obtain ⟨_, _, hnames⟩ := group_grouped h
  refine howned.verify_eq_ok hbuilt.consistent ?_
  intro b hb
  exact hnames.mem_iff.mp (List.mem_map_of_mem hb)

/-- What is compiled has grown from the empty set and passes the check of the scheme it was grouped
with. -/
theorem compile_verified {compiler : Compiler} {sources : List UnitSource}
    (h : compile compiler k sources = .ok s) : Built s ∧ s.verify k = .ok () := by
  have hgroup := (compile_cases h).2
  exact ⟨(group_owned hgroup).1, group_verified hgroup⟩

end GrammarEngine.BundleSet

import GrammarEngine.Proofs.Bundle.Calls
import GrammarEngine.Proofs.Bundle.Classification

/-!
# Units are assigned by their names

Two names that both extend to a third one and are equally long are the same name. So where every
unit is in the bundle that a classifier puts it into, the names alone say which bundle that is: a
unit that bears a bundle's name is that bundle's primary unit, and any other belongs to the longest
bundle name that classifies it. Grouping puts every artifact where its name belongs, and the check
of the classification, which follows its own criterion, admits nothing else.
-/
namespace GrammarEngine

namespace Classifier

variable {k : Classifier} {primary candidate : String}

theorem isPrefix_of_isInner (h : k.isInner primary candidate = true) :
    primary.toList <+: candidate.toList := by
  unfold isInner at h
  split at h
  · next rest hrest => exact ⟨rest, List.isPrefixOf?_eq_some_iff_append_eq.mp hrest⟩
  · cases h

theorem eq_of_begins {n m : String} (h : n.toList <+: m.toList)
    (hsize : m.utf8ByteSize ≤ n.utf8ByteSize) : n = m := by
  obtain ⟨rest, hrest⟩ := h
  have hm : m = n ++ String.ofList rest := by
    rw [← String.toList_inj, String.toList_append, String.toList_ofList, hrest]
  rw [hm, String.utf8ByteSize_append] at hsize
  have hempty : String.ofList rest = "" := String.utf8ByteSize_eq_zero_iff.mp (by omega)
  rw [hm, hempty, String.append_empty]

/-- Of the names that classify a unit no two are equally long. -/
theorem eq_of_isInner {n m : String} (hn : k.isInner n candidate = true)
    (hm : k.isInner m candidate = true) (hsize : n.utf8ByteSize = m.utf8ByteSize) : n = m := by
  have hn := isPrefix_of_isInner hn
  have hm := isPrefix_of_isInner hm
  rcases List.prefix_or_prefix_of_prefix hn hm with h | h
  · exact eq_of_begins h (Nat.le_of_eq hsize.symm)
  · exact (eq_of_begins h (Nat.le_of_eq hsize)).symm

end Classifier

namespace BundleSet

variable {k : Classifier} {s t : BundleSet} {b : Bundle} {u : CompiledUnit} {id : Nat}
  {names : List String} {unit bundle : String}

def bundleNames (s : BundleSet) : List String := s.bundles.map Bundle.name

def unitNames (s : BundleSet) : List String := s.units.map CompiledUnit.name

/-- A bundle of the one name holds a unit of the other. -/
def Assigns (s : BundleSet) (unit bundle : String) : Prop :=
  ∃ b ∈ s.bundles, b.name = bundle ∧ ∃ id ∈ b.unitIds, ∃ u, s.unit? id = some u ∧ u.name = unit

/-! ## Where the check admits a unit -/

theorem Sound.unit_eq (hs : s.Sound) {v : CompiledUnit} (hu : u ∈ s.units) (hv : v ∈ s.units)
    (hname : u.name = v.name) : u = v :=
  List.inj_on_of_nodup_map hs.names hu hv hname

theorem Sound.exists_bundle (hs : s.Sound) (hu : s.unit? id = some u) :
    ∃ b ∈ s.bundles, id ∈ b.unitIds := by
  obtain ⟨b, hb, -⟩ := hs.owned id (List.getElem?_eq_some_iff.mp hu).1
  exact ⟨b, hb⟩

theorem Sound.inner_eq_true (hs : s.Sound) (hb : b ∈ s.bundles) (hid : id ∈ b.inner)
    (hu : s.unit? id = some u) : u.inner = true := by
  obtain ⟨v, hv, hinner⟩ := hs.inner b hb id hid
  rwa [Option.some.inj (hu.symm.trans hv)]

/-- Of the units in a bundle only the primary one bears the name of a bundle. -/
theorem Sound.mem_inner (hs : s.Sound) (hb : b ∈ s.bundles) (hid : id ∈ b.unitIds)
    (hu : s.unit? id = some u) (hfree : u.name ∉ s.bundleNames) : id ∈ b.inner := by
  refine (List.mem_cons.mp hid).resolve_left fun hprimary => hfree ?_
  obtain ⟨v, hv, hname, -⟩ := hs.primary b hb
  rw [hprimary] at hu
  rw [Option.some.inj (hu.symm.trans hv), hname]
  exact List.mem_map_of_mem hb

theorem Sound.exists_assigns (hs : s.Sound) (h : unit ∈ s.unitNames) :
    ∃ bundle, s.Assigns unit bundle := by
  obtain ⟨u, hu, hname⟩ := List.mem_map.mp h
  obtain ⟨id, hid⟩ := List.getElem?_of_mem hu
  obtain ⟨b, hb, hmem⟩ := hs.exists_bundle hid
  exact ⟨b.name, b, hb, rfl, id, hmem, u, hid, hname⟩

theorem Assigns.mem_unitNames (h : s.Assigns unit bundle) : unit ∈ s.unitNames := by
  obtain ⟨b, -, -, id, -, u, hu, rfl⟩ := h
  exact List.mem_map_of_mem (List.mem_of_getElem? hu)

theorem verifyUnit_cases (h : s.verifyUnit k b id = .ok ()) :
    ∃ u, s.unit? id = some u ∧ (u.name = b.name ∨
      u.inner = true ∧ k.isInner b.name u.name = true ∧ s.longerOwner? k b u = none) := by
  unfold verifyUnit at h
  split at h
  · cases h
  · next u hu =>
    refine ⟨u, hu, ?_⟩
    split at h
    · split at h
      · next hprimary =>
        simp only [isPrimaryOf, Bool.and_eq_true, beq_iff_eq] at hprimary
        exact .inl hprimary.2
      · cases h
    · split at h
      · cases h
      · next hinner =>
        simp only [Bool.or_eq_true, Bool.not_eq_true', not_or, Bool.not_eq_false] at hinner
        split at h
        · cases h
        · next hlonger => exact .inr ⟨hinner.1, hinner.2, hlonger⟩

/-- An inner unit bears no bundle's name, as the primary unit of that bundle does. -/
theorem Sound.name_not_mem (hs : s.Sound) (hu : u ∈ s.units) (hinner : u.inner = true) :
    u.name ∉ s.bundleNames := by
  intro hmem
  obtain ⟨c, hc, hname⟩ := List.mem_map.mp hmem
  obtain ⟨v, hv, hvname, hflag⟩ := hs.primary c hc
  obtain rfl := hs.unit_eq (List.mem_of_getElem? hv) hu (hvname.trans hname)
  rw [hinner] at hflag
  cases hflag

/-- Where the check admits a unit: with the bundle of its own name, or, if there is none, with the
longest name that classifies it. -/
theorem Assigns.cases (h : s.Assigns unit bundle) (hs : s.Sound) (hverify : s.verify k = .ok ()) :
    bundle ∈ s.bundleNames ∧
      (unit = bundle ∨ unit ∉ s.bundleNames ∧ Owns k s.bundleNames bundle unit) := by
  obtain ⟨b, hb, rfl, id, hid, u, hu, rfl⟩ := h
  obtain ⟨v, hv, hplace⟩ := verifyUnit_cases (forM_eq_ok.mp (forM_eq_ok.mp hverify b hb) id hid)
  obtain rfl := Option.some.inj (hu.symm.trans hv)
  refine ⟨List.mem_map_of_mem hb, hplace.imp_right ?_⟩
  rintro ⟨hinner, hclassified, hlonger⟩
  refine ⟨hs.name_not_mem (List.mem_of_getElem? hu) hinner, hclassified, ?_⟩
  intro n hn hin
  obtain ⟨c, hc, rfl⟩ := List.mem_map.mp hn
  have hnot := List.find?_eq_none.mp hlonger c hc
  simp only [Bool.and_eq_true, decide_eq_true_eq, not_and] at hnot
  exact Nat.le_of_not_lt fun hlt => hnot hlt hin

/-- Two owners of a name are equally long, and thus the same. -/
theorem Owns.unique {n m artifact : String} (hn : Owns k names n artifact)
    (hm : Owns k names m artifact) (hnmem : n ∈ names) (hmmem : m ∈ names) : n = m :=
  Classifier.eq_of_isInner hn.inner hm.inner
    (Nat.le_antisymm (hm.longest n hnmem hn.inner) (hn.longest m hmmem hm.inner))

theorem Owns.lt {n m artifact : String} (hn : Owns k names n artifact) (hm : m ∈ names)
    (hinner : k.isInner m artifact = true) (hne : m ≠ n) : m.utf8ByteSize < n.utf8ByteSize :=
  Nat.lt_of_le_of_ne (hn.longest m hm hinner) fun hsize =>
    hne (Classifier.eq_of_isInner hinner hn.inner hsize)

theorem Owns.congr {names' : List String} (hnames : ∀ n, n ∈ names ↔ n ∈ names')
    {n artifact : String} (hn : Owns k names' n artifact) : Owns k names n artifact :=
  ⟨hn.inner, fun m hm => hn.longest m ((hnames m).mp hm)⟩

/-- The names decide which bundle a unit is assigned to. -/
theorem Assigns.unique {bundle' : String} (h : s.Assigns unit bundle) (h' : t.Assigns unit bundle')
    (hs : s.Sound) (ht : t.Sound) (hnames : ∀ n, n ∈ s.bundleNames ↔ n ∈ t.bundleNames)
    (hsv : s.verify k = .ok ()) (htv : t.verify k = .ok ()) : bundle = bundle' := by
  obtain ⟨hmem, hplace⟩ := h.cases hs hsv
  obtain ⟨hmem', hplace'⟩ := h'.cases ht htv
  rcases hplace with hown | ⟨hfree, howns⟩ <;> rcases hplace' with hown' | ⟨hfree', howns'⟩
  · exact hown.symm.trans hown'
  · exact absurd ((hnames unit).mp (hown ▸ hmem)) hfree'
  · exact absurd ((hnames unit).mpr (hown' ▸ hmem')) hfree
  · exact howns.unique (howns'.congr hnames) hmem ((hnames bundle').mpr hmem')

theorem Assigns.transfer (h : s.Assigns unit bundle) (hs : s.Sound) (ht : t.Sound)
    (hnames : ∀ n, n ∈ s.bundleNames ↔ n ∈ t.bundleNames)
    (hunits : ∀ n, n ∈ s.unitNames ↔ n ∈ t.unitNames) (hsv : s.verify k = .ok ())
    (htv : t.verify k = .ok ()) : t.Assigns unit bundle := by
  obtain ⟨bundle', h'⟩ := ht.exists_assigns ((hunits unit).mp h.mem_unitNames)
  rwa [h.unique h' hs ht hnames hsv htv]

/-! ## Sources of grouped sets -/

theorem source_give (owner : String) (id : Nat) (b : Bundle) :
    (give owner id b).source = b.source := by
  unfold give
  split <;> rfl

theorem addPrimaries_sources {sources : List UnitSource} {given rest : List Artifact}
    (h : addPrimaries sources given s = .ok (rest, t)) :
    (t.bundles.map Bundle.source).Perm (s.bundles.map Bundle.source ++ sources) := by
  induction sources generalizing given s with
  | nil =>
      cases h
      rw [List.append_nil]
  | cons source sources ih =>
      unfold addPrimaries at h
      split at h
      · cases h
      · obtain ⟨⟨id, s'⟩, hinsert, h⟩ := bind_eq_ok.mp h
        obtain ⟨_, _, rfl⟩ := insertBundle_cases (liftBundle_eq_ok.mp hinsert)
        have hinserted :=
          (perm_insertSorted ⟨source, s.units.length, []⟩ s.bundles).map Bundle.source
        exact ((ih h).trans (hinserted.append_right _)).trans List.perm_middle.symm

theorem addArtifact_sources {k : NamingScheme} {a : Artifact}
    (h : addArtifact k names s a = .ok t) :
    t.bundles.map Bundle.source = s.bundles.map Bundle.source := by
  unfold addArtifact at h
  split at h
  · cases h
  · next owner _ =>
    obtain ⟨⟨id, s'⟩, hadd, rfl⟩ := map_eq_ok.mp h
    obtain ⟨_, _, rfl⟩ := addInner_cases (liftBundle_eq_ok.mp hadd)
    rw [List.map_map]
    exact List.map_congr_left fun b _ => source_give owner s.units.length b

theorem group_sources {k : NamingScheme} {sources : List UnitSource} {given : List Artifact}
    (h : group k sources given = .ok s) : (s.bundles.map Bundle.source).Perm sources := by
  obtain ⟨⟨rest, s'⟩, hprimaries, h⟩ := bind_eq_ok.mp h
  have hkept : s.bundles.map Bundle.source = s'.bundles.map Bundle.source :=
    foldlM_invariant (fun r => r.bundles.map Bundle.source = s'.bundles.map Bundle.source) rfl
      (fun _ _ _ _ hr hadd => (addArtifact_sources hadd).trans hr) h
  rw [hkept]
  exact addPrimaries_sources hprimaries

/-! ## What is compiled -/

/-- A set that consists of artifacts, each of them once, in one bundle for every source. The
artifact of a source's name is the primary unit of its bundle, and every other one is inner to the
longest name that classifies it. -/
structure Bundled (k : Classifier) (sources : List UnitSource) (given : List Artifact)
    (s : BundleSet) : Prop where
  artifacts : s.artifacts.Perm given
  distinct : (given.map Artifact.name).Nodup
  bundles : (s.bundles.map Bundle.source).Perm sources
  primary : ∀ b ∈ s.bundles, ∃ a ∈ given, a.name = b.source.name ∧
    s.unit? b.primary = some ⟨a.name, a.payload, false⟩
  inner : ∀ a ∈ given, a.name ∉ sources.map UnitSource.name → ∃ b ∈ s.bundles, ∃ id ∈ b.inner,
    s.unit? id = some ⟨a.name, a.payload, true⟩ ∧ k.isInner b.name a.name = true ∧
      ∀ u ∈ sources, k.isInner u.name a.name = true → u.name ≠ b.name →
        u.name.utf8ByteSize < b.name.utf8ByteSize

theorem group_bundled {sources : List UnitSource} {given : List Artifact}
    (h : group k sources given = .ok s) : Bundled k sources given s := by
  obtain ⟨hpartitioned, hartifacts, hbundles⟩ := group_grouped h
  obtain ⟨hbuilt, howned⟩ := group_owned h
  have hs := hbuilt.consistent.sound
  have hunits : s.artifacts.map Artifact.name = s.units.map CompiledUnit.name := by
    rw [artifacts, List.map_map]
    rfl
  refine ⟨hartifacts, ?_, group_sources h, ?_, ?_⟩
  · exact (hartifacts.map Artifact.name).nodup_iff.mp (hunits ▸ hs.names)
  · intro b hb
    obtain ⟨u, hu, hname, hflag⟩ := hs.primary b hb
    have hmem : artifactOf u ∈ s.artifacts := List.mem_map_of_mem (List.mem_of_getElem? hu)
    exact ⟨artifactOf u, hartifacts.mem_iff.mp hmem, hname, by rw [hu, artifactOf, ← hflag]⟩
  · intro a ha hfree
    obtain ⟨u, hu, rfl⟩ := List.mem_map.mp (hartifacts.mem_iff.mpr ha)
    obtain ⟨id, hid⟩ := List.getElem?_of_mem hu
    obtain ⟨b, hb, hmem⟩ := hs.exists_bundle hid
    have hinner : id ∈ b.inner :=
      hs.mem_inner hb hmem hid fun hname => hfree (hbundles.mem_iff.mp hname)
    have hflag := hs.inner_eq_true hb hinner hid
    obtain ⟨v, hv, howns⟩ := howned b hb id hinner
    obtain rfl := Option.some.inj (hid.symm.trans hv)
    refine ⟨b, hb, id, hinner, by rw [unit?, hid, artifactOf, ← hflag], howns.inner, ?_⟩
    intro source hsource hin hne
    exact howns.lt (List.mem_map_of_mem hsource) hin hne

/-- Whatever a compiler makes of the sources, and whatever the classifier is: a set that is compiled
holds the artifacts, each in its place, and the check of the classification admits it. And whichever
sets are made of bundles and units of the same names, if the check admits them, every unit is
assigned to the same bundle in both of them. -/
theorem compiled_bundled (k : Classifier) :
    (∀ compiler sources s, compile compiler k sources = .ok s →
      Bundled k sources (compiler sources).artifacts s ∧ s.verify k = .ok ()) ∧
    ∀ s t, Made s → Made t → (∀ n, n ∈ s.bundleNames ↔ n ∈ t.bundleNames) →
      (∀ n, n ∈ s.unitNames ↔ n ∈ t.unitNames) → s.verify k = .ok () → t.verify k = .ok () →
      ∀ unit bundle, s.Assigns unit bundle ↔ t.Assigns unit bundle := by
  constructor
  · intro compiler sources s h
    exact ⟨group_bundled (compile_cases h).2, (compile_verified h).2⟩
  · intro s t hs ht hnames hunits hsv htv unit bundle
    have hsound := hs.consistent.sound
    have htsound := ht.consistent.sound
    constructor
    · intro h
      exact h.transfer hsound htsound hnames hunits hsv htv
    · intro h
      exact h.transfer htsound hsound (fun n => (hnames n).symm) (fun n => (hunits n).symm) htv hsv

/-- A compiler that gives two units whose names look like inner ones of each other, and an inner
unit of each. -/
def nestedNames : Compiler := fun _ =>
  { artifacts := [⟨"A$B$c", [3]⟩, ⟨"A$d", [4]⟩, ⟨"A$B", [2]⟩, ⟨"A", [1]⟩] }

def nestedSources : List UnitSource := [⟨"A", "", .generated⟩, ⟨"A$B", "", .utility⟩]

theorem nestedNames_bundled :
    ∃ s t, compile nestedNames ({} : Classifier) nestedSources = .ok s ∧
      compile nestedNames ({} : Classifier) nestedSources.reverse = .ok t ∧ s ≠ t ∧
      Bundled {} nestedSources (nestedNames nestedSources).artifacts s ∧
      s.verify ({} : Classifier) = .ok () ∧
      ∀ unit bundle, s.Assigns unit bundle ↔ t.Assigns unit bundle := by
  have hs : compile nestedNames ({} : Classifier) nestedSources = .ok
      ⟨[⟨"A", [1], false⟩, ⟨"A$B", [2], false⟩, ⟨"A$B$c", [3], true⟩, ⟨"A$d", [4], true⟩],
        [⟨⟨"A", "", .generated⟩, 0, [3]⟩, ⟨⟨"A$B", "", .utility⟩, 1, [2]⟩]⟩ := by
    decide
  have ht : compile nestedNames ({} : Classifier) nestedSources.reverse = .ok
      ⟨[⟨"A$B", [2], false⟩, ⟨"A", [1], false⟩, ⟨"A$B$c", [3], true⟩, ⟨"A$d", [4], true⟩],
        [⟨⟨"A", "", .generated⟩, 1, [3]⟩, ⟨⟨"A$B", "", .utility⟩, 0, [2]⟩]⟩ := by
    decide
  obtain ⟨hcompiled, hassigned⟩ := compiled_bundled {}
  obtain ⟨hbundled, hverify⟩ := hcompiled _ _ _ hs
  refine ⟨_, _, hs, ht, by decide, hbundled, hverify, ?_⟩
  have hunits : ["A", "A$B", "A$B$c", "A$d"].Perm ["A$B", "A", "A$B$c", "A$d"] := .swap _ _ _
  exact hassigned _ _ (compile_verified hs).1.made (compile_verified ht).1.made
    (fun _ => Iff.rfl) (fun _ => hunits.mem_iff) hverify (hcompiled _ _ _ ht).2

end BundleSet

end GrammarEngine

import GrammarEngine.Proofs.Acceptance.Units
import GrammarEngine.Proofs.Bundle.Assignment

/-!
# Units in any order

Artifacts are grouped by their names, so their order, and that of the sources, shows only in the
numbers that units get: it decides neither whether there is a set nor what is in its bundles. That
is not seen from the steps of grouping, where an artifact in front of another of its name would be
taken first. It is seen from what is known of every set that grouping gives: names are different,
the primary unit of a bundle bears its source's name, and names alone assign the others.

A unit sees the units that it is compiled with only by looking up names. As long as no two of them
bear one name, what is found does not depend on their order, so every unit becomes the same images
or the same faults. Only the order of the images changes, and that makes no difference to the set.
-/
namespace GrammarEngine

namespace BundleSet

variable {k : Classifier} {s t : BundleSet} {b c : Bundle} {u : CompiledUnit}
  {sources sources' : List UnitSource} {given given' : List Artifact}

/-! ## Whether there is a set -/

/-- What can be grouped can be grouped in any order. -/
theorem exists_group_of_perm (hsources : sources.Perm sources') (hgiven : given.Perm given')
    (h : group k sources given = .ok s) : ∃ t, group k sources' given' = .ok t := by
  have hbundled := group_bundled h
  have hnames : (sources.map UnitSource.name).Nodup :=
    (group_grouped h).2.2.nodup_iff.mp (group_grouped h).1.bundles_nodup
  refine exists_group ((hsources.map UnitSource.name).nodup_iff.mp hnames)
    ((hgiven.map Artifact.name).nodup_iff.mp hbundled.distinct) (fun source hsource => ?_)
    fun a ha => ?_
  · have hbundle := hbundled.bundles.mem_iff.mpr (hsources.mem_iff.mpr hsource)
    obtain ⟨b, hb, rfl⟩ := List.mem_map.mp hbundle
    obtain ⟨a, ha, hname, _⟩ := hbundled.primary b hb
    exact hname ▸ List.mem_map_of_mem (hgiven.mem_iff.mp ha)
  · refine (em (a.name ∈ sources'.map UnitSource.name)).imp_right fun hfree => ?_
    obtain ⟨b, hb, -, -, -, hinner, -⟩ := hbundled.inner a (hgiven.mem_iff.mpr ha)
      fun hmem => hfree ((hsources.map UnitSource.name).mem_iff.mp hmem)
    have hbundle := hbundled.bundles.mem_iff.mp (List.mem_map_of_mem hb)
    exact ⟨b.name, List.mem_map_of_mem (hsources.mem_iff.mp hbundle), hinner⟩

/-! ## What is in it -/

/-- Bundles of two sets with the same source and, wherever these are in their sets, the same primary
unit and the same inner units. -/
structure SameBundle (s t : BundleSet) (b c : Bundle) : Prop where
  source : b.source = c.source
  primary : ∃ u, s.unit? b.primary = some u ∧ t.unit? c.primary = some u
  inner : (b.inner.filterMap s.unit?).Perm (c.inner.filterMap t.unit?)

/-- Two sets that consist of the same artifacts and that one classifier admits. -/
structure Regrouped (k : Classifier) (s t : BundleSet) : Prop where
  left : s.Consistent
  right : t.Consistent
  verifyLeft : s.verify k = .ok ()
  verifyRight : t.verify k = .ok ()
  sources : (s.bundles.map Bundle.source).Perm (t.bundles.map Bundle.source)
  artifacts : s.artifacts.Perm t.artifacts

theorem Regrouped.symm (h : Regrouped k s t) : Regrouped k t s :=
  ⟨h.right, h.left, h.verifyRight, h.verifyLeft, h.sources.symm, h.artifacts.symm⟩

/-- A unit is found in the other set, apart from its flag. -/
theorem Regrouped.exists_unit (h : Regrouped k s t) (hu : u ∈ s.units) :
    ∃ v ∈ t.units, v.name = u.name ∧ v.payload = u.payload := by
  have hmem : artifactOf u ∈ t.artifacts := h.artifacts.mem_iff.mp (List.mem_map_of_mem hu)
  obtain ⟨v, hv, heq⟩ := List.mem_map.mp hmem
  obtain ⟨hname, hpayload⟩ := Artifact.mk.inj heq
  exact ⟨v, hv, hname, hpayload⟩

/-- A unit is the one of its name in the other set if both are inner or neither is. -/
theorem Regrouped.unit_eq (h : Regrouped k s t) {v : CompiledUnit} (hu : u ∈ s.units)
    (hv : v ∈ t.units) (hname : v.name = u.name) (hinner : v.inner = u.inner) : v = u := by
  obtain ⟨w, hw, hwname, hpayload⟩ := h.exists_unit hu
  obtain rfl := h.right.sound.unit_eq hw hv (hwname.trans hname.symm)
  cases u
  cases w
  rw [CompiledUnit.mk.injEq]
  exact ⟨hname, hpayload, hinner⟩

theorem Regrouped.mem_bundleNames (h : Regrouped k s t) (n : String) :
    n ∈ s.bundleNames ↔ n ∈ t.bundleNames := by
  have hnames := h.sources.map UnitSource.name
  rw [List.map_map, List.map_map] at hnames
  exact hnames.mem_iff

theorem Regrouped.mem_unitNames (h : Regrouped k s t) (n : String) :
    n ∈ s.unitNames ↔ n ∈ t.unitNames := by
  have hnames := h.artifacts.map Artifact.name
  rw [BundleSet.artifacts, BundleSet.artifacts, List.map_map, List.map_map] at hnames
  exact hnames.mem_iff

theorem Regrouped.primary (h : Regrouped k s t) (hb : b ∈ s.bundles) (hc : c ∈ t.bundles)
    (hsource : b.source = c.source) :
    ∃ u, s.unit? b.primary = some u ∧ t.unit? c.primary = some u := by
  obtain ⟨u, hu, hname, hflag⟩ := h.left.sound.primary b hb
  obtain ⟨v, hv, hname', hflag'⟩ := h.right.sound.primary c hc
  obtain rfl := h.unit_eq (List.mem_of_getElem? hu) (List.mem_of_getElem? hv)
    (by rw [hname, hname', hsource]) (hflag'.trans hflag.symm)
  exact ⟨v, hu, hv⟩

/-- An inner unit is assigned to the bundle of the same name, and it is inner there as well, as no
bundle bears its name. -/
theorem Regrouped.mem_inner (h : Regrouped k s t) (hb : b ∈ s.bundles) (hc : c ∈ t.bundles)
    (hsource : b.source = c.source) (hu : u ∈ b.inner.filterMap s.unit?) :
    u ∈ c.inner.filterMap t.unit? := by
  obtain ⟨id, hid, hu⟩ := List.mem_filterMap.mp hu
  have hmem := List.mem_of_getElem? hu
  have hinner := h.left.sound.inner_eq_true hb hid hu
  have hfree : u.name ∉ t.bundleNames := fun hname =>
    h.left.sound.name_not_mem hmem hinner ((h.mem_bundleNames u.name).mpr hname)
  have hassigned : s.Assigns u.name b.name :=
    ⟨b, hb, rfl, id, List.mem_cons_of_mem b.primary hid, u, hu, rfl⟩
  obtain ⟨c', hc', hname, id', hid', v, hv, hvname⟩ := hassigned.transfer h.left.sound
    h.right.sound h.mem_bundleNames h.mem_unitNames h.verifyLeft h.verifyRight
  obtain rfl := List.inj_on_of_nodup_map h.right.bundles_nodup hc' hc
    (hname.trans (congrArg UnitSource.name hsource))
  have hid' := h.right.sound.mem_inner hc hid' hv (hvname ▸ hfree)
  have hinner' := h.right.sound.inner_eq_true hc hid' hv
  obtain rfl := h.unit_eq hmem (List.mem_of_getElem? hv) hvname (hinner'.trans hinner.symm)
  exact List.mem_filterMap.mpr ⟨id', hid', hv⟩

theorem Sound.inner_nodup (hs : s.Sound) (hb : b ∈ s.bundles) :
    (b.inner.filterMap s.unit?).Nodup := by
  refine List.Nodup.filterMap (fun id id' u hu hu' => ?_) (List.nodup_cons.mp (hs.once b hb)).2
  have hu : s.units[id]? = some u := hu
  have hu' : s.units[id']? = some u := hu'
  have hrange := (List.getElem?_eq_some_iff.mp hu).1
  exact (List.getElem?_inj hrange hs.names.of_map).mp (hu.trans hu'.symm)

theorem Regrouped.sameBundle (h : Regrouped k s t) (hb : b ∈ s.bundles) (hc : c ∈ t.bundles)
    (hsource : b.source = c.source) : SameBundle s t b c where
  source := hsource
  primary := h.primary hb hc hsource
  inner := by
    refine (List.perm_ext_iff_of_nodup (h.left.sound.inner_nodup hb)
      (h.right.sound.inner_nodup hc)).mpr fun u => ⟨?_, ?_⟩
    · exact h.mem_inner hb hc hsource
    · exact h.symm.mem_inner hc hb hsource.symm

/-- As bundles are sorted by the names of their sources, these stand in the same order. -/
theorem Regrouped.sources_eq (h : Regrouped k s t) :
    s.bundles.map Bundle.source = t.bundles.map Bundle.source := by
  have hsorted {r : BundleSet} (hr : r.Consistent) :
      (r.bundles.map Bundle.source).Pairwise fun a b => a.name < b.name :=
    List.pairwise_map.mpr hr.sorted
  refine List.Perm.eq_of_pairwise (fun a b _ _ hab hba => ?_) (hsorted h.left) (hsorted h.right)
    h.sources
  exact absurd hba (String.lt_asymm hab)

theorem Regrouped.sameBundles (h : Regrouped k s t) :
    List.Forall₂ (SameBundle s t) s.bundles t.bundles := by
  have hsources : List.Forall₂ (fun b c => b.source = c.source) s.bundles t.bundles := by
    rw [← List.forall₂_map_left_iff (R := fun source c => source = Bundle.source c),
      ← List.forall₂_map_right_iff, List.forall₂_eq_eq_eq]
    exact h.sources_eq
  rw [List.forall₂_iff_zip] at hsources ⊢
  refine ⟨hsources.1, fun {b c} hzip => ?_⟩
  obtain ⟨hb, hc⟩ := List.of_mem_zip hzip
  exact h.sameBundle hb hc (hsources.2 hzip)

theorem group_regrouped (hsources : sources.Perm sources') (hgiven : given.Perm given')
    (h : group k sources given = .ok s) (h' : group k sources' given' = .ok t) :
    Regrouped k s t where
  left := (group_owned h).1.consistent
  right := (group_owned h').1.consistent
  verifyLeft := group_verified h
  verifyRight := group_verified h'
  sources := (group_sources h).trans (hsources.trans (group_sources h').symm)
  artifacts := (group_grouped h).2.1.trans (hgiven.trans (group_grouped h').2.1.symm)

end BundleSet

/-! ## Compilation -/

variable {index index' : UnitIndex}

theorem UnitIndex.find?_perm (hnodup : (index.map UnitDecl.name).Nodup) (h : index.Perm index')
    (name : String) : index.find? name = index'.find? name := by
  have hnodup' : (index'.map UnitDecl.name).Nodup := (h.map UnitDecl.name).nodup_iff.mp hnodup
  refine Option.ext fun d => ⟨fun hd => ?_, fun hd => ?_⟩
  · obtain ⟨hmem, rfl⟩ := ParserDecl.mem_of_find? hd
    exact ParserDecl.find?_eq_some_of_nodup hnodup' (h.mem_iff.mp hmem)
  · obtain ⟨hmem, rfl⟩ := ParserDecl.mem_of_find? hd
    exact ParserDecl.find?_eq_some_of_nodup hnodup (h.mem_iff.mpr hmem)

namespace Compiler

variable {sources sources' : List UnitSource}

theorem baseLibrary_congr (h : ∀ name, index.find? name = index'.find? name)
    (base : Option NameAt) : baseLibrary base index = baseLibrary base index' := by
  cases base with
  | none => rfl
  | some n => rw [baseLibrary, baseLibrary, h]

/-- Of the other units only what is found by name matters. -/
theorem compileUnit_congr (h : ∀ name, index.find? name = index'.find? name) (d : UnitDecl) :
    compileUnit index d = compileUnit index' d := by
  cases d with
  | lexer d =>
      rw [compileUnit, compileUnit, LexerDecl.compile, LexerDecl.compile, baseLibrary_congr h]
  | parser d =>
      have hlexer : d.vocabularyLexer index = d.vocabularyLexer index' := by
        rw [ParserDecl.vocabularyLexer, ParserDecl.vocabularyLexer, h]
      rw [compileUnit, compileUnit, ParserDecl.compile, ParserDecl.compile, hlexer,
        baseLibrary_congr h]
  | library d => rfl

/-- The units that sources declare, as far as they can be read. -/
def declared (sources : List UnitSource) : UnitIndex :=
  LexerDecl.values (sources.map declaration)

theorem declared_names (sources : List UnitSource) :
    ((declared sources).map UnitDecl.name).Sublist (sources.map UnitSource.name) := by
  induction sources with
  | nil => exact .slnil
  | cons u rest ih =>
      cases hd : declaration u with
      | error e =>
          have hrest : declared (u :: rest) = declared rest := by
            rw [declared, List.map_cons, hd]
            rfl
          rw [hrest]
          exact ih.cons u.name
      | ok d =>
          have hrest : declared (u :: rest) = d :: declared rest := by
            rw [declared, List.map_cons, hd]
            rfl
          rw [hrest, List.map_cons, (declaration_cases hd).2]
          exact ih.cons_cons u.name

/-- Units in another order become the same artifacts and diagnostics in another order. -/
theorem units_perm (h : sources.Perm sources') (hnodup : (sources.map UnitSource.name).Nodup) :
    (units sources).artifacts.Perm (units sources').artifacts ∧
      (units sources).diagnostics.Perm (units sources').diagnostics := by
  have hdeclared : (declared sources).Perm (declared sources') :=
    (h.map declaration).filterMap _
  have hfind := UnitIndex.find?_perm (hnodup.sublist (declared_names sources)) hdeclared
  have houtput : unitOutput (declared sources) = unitOutput (declared sources') := by
    funext d
    rw [unitOutput, unitOutput, compileUnit_congr hfind]
  have houtputs : ((declared sources).map (unitOutput (declared sources))).Perm
      ((declared sources').map (unitOutput (declared sources'))) := by
    rw [houtput]
    exact hdeclared.map _
  constructor
  · exact houtputs.flatMap_right _
  · exact ((h.map declaration).filterMap _).append (houtputs.flatMap_right _)

end Compiler

namespace BundleSet

variable {k : Classifier} {s t : BundleSet} {sources sources' : List UnitSource}

/-- Sources that become a set are there, and no two of them have one name. -/
theorem sources_of_compile {compiler : Compiler} (h : compile compiler k sources = .ok s) :
    sources ≠ [] ∧ (sources.map UnitSource.name).Nodup := by
  obtain ⟨hs, -, hnames⟩ := group_grouped (compile_cases h).2
  refine ⟨fun hempty => ?_, hnames.nodup_iff.mp hs.bundles_nodup⟩
  subst hempty
  cases h

theorem exists_compile_of_perm (hperm : sources.Perm sources')
    (h : compile Compiler.units k sources = .ok s) :
    ∃ t, compile Compiler.units k sources' = .ok t := by
  obtain ⟨hne, hnodup⟩ := sources_of_compile h
  obtain ⟨herrors, hgroup⟩ := compile_cases h
  obtain ⟨hartifacts, hdiagnostics⟩ := Compiler.units_perm hperm hnodup
  have hne' : sources' ≠ [] := fun hempty => hne (hempty ▸ hperm).eq_nil
  have herrors' : (Compiler.units sources').diagnostics.filter Diagnostic.isError = [] :=
    (herrors ▸ hdiagnostics.filter Diagnostic.isError).nil_eq.symm
  rw [compile_eq_group hne' ((hperm.map UnitSource.name).nodup_iff.mp hnodup) herrors']
  exact exists_group_of_perm hperm hartifacts hgroup

theorem compile_regrouped (hperm : sources.Perm sources')
    (h : compile Compiler.units k sources = .ok s)
    (h' : compile Compiler.units k sources' = .ok t) : Regrouped k s t :=
  group_regrouped hperm (Compiler.units_perm hperm (sources_of_compile h).2).1 (compile_cases h).2
    (compile_cases h').2

end BundleSet

end GrammarEngine

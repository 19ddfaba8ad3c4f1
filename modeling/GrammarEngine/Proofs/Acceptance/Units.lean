import GrammarEngine.Proofs.Acceptance.Parsers
import GrammarEngine.Proofs.Bundle.Classification
import GrammarEngine.Proofs.Compile.Units
import Mathlib.Data.List.Basic

/-!
# Units that compile together

Sources that declare units which compile, with rules of different names, become a set if the names
of the units are words behind a common qualifier. The names of units and of rules inside them can
then be told apart by the separator. Artifacts of different names are grouped if there is one under
the name of every source and every other one is inner to some source.
-/
namespace GrammarEngine.BundleSet

/-! ## Artifacts that can be grouped -/

variable {s t : BundleSet} {k : NamingScheme} {name : String}

def artifactNames (artifacts : List Artifact) : List String := artifacts.map Artifact.name

theorem artifactNames_artifacts (s : BundleSet) :
    artifactNames s.artifacts = s.units.map CompiledUnit.name := by
  rw [artifactNames, artifacts, List.map_map]
  rfl

theorem exists_pushUnit {u : CompiledUnit} (h : u.name ∉ s.units.map CompiledUnit.name) :
    ∃ id t, s.pushUnit u = .ok (id, t) := by
  have hnew : s.hasUnit u.name = false := by
    rw [hasUnit, List.any_eq_false]
    intro v hv hname
    exact h (List.mem_map.mpr ⟨v, hv, by simpa using hname⟩)
  exact ⟨_, _, by rw [pushUnit, if_neg (by simp [hnew])]⟩

theorem bundle?_eq_none_iff : s.bundle? name = none ↔ name ∉ s.bundles.map Bundle.name := by
  rw [bundle?, List.find?_eq_none]
  constructor
  · intro h hmem
    obtain ⟨b, hb, hname⟩ := List.mem_map.mp hmem
    exact h b hb (by simpa using hname)
  · intro h b hb hname
    exact h (List.mem_map.mpr ⟨b, hb, by simpa using hname⟩)

theorem exists_insertBundle {source : UnitSource} (payload : List UInt8)
    (hbundle : source.name ∉ s.bundles.map Bundle.name)
    (hunit : source.name ∉ s.units.map CompiledUnit.name) :
    ∃ id t, s.insertBundle source payload = .ok (id, t) := by
  obtain ⟨id, t, hpush⟩ := exists_pushUnit (u := ⟨source.name, payload, false⟩) hunit
  rw [insertBundle, bundle?_eq_none_iff.mpr hbundle, if_neg (by simp)]
  exact ⟨_, _, map_eq_ok.mpr ⟨_, hpush, rfl⟩⟩

theorem exists_addInner {owner : String} (payload : List UInt8)
    (hbundle : owner ∈ s.bundles.map Bundle.name) (hunit : name ∉ s.units.map CompiledUnit.name) :
    ∃ id t, s.addInner owner name payload = .ok (id, t) := by
  obtain ⟨id, t, hpush⟩ := exists_pushUnit (u := ⟨name, payload, true⟩) hunit
  have hsome : (s.bundle? owner).isNone = false := by
    rw [Option.isNone_eq_false_iff, Option.isSome_iff_ne_none]
    exact fun hnone => bundle?_eq_none_iff.mp hnone hbundle
  rw [addInner, hsome, if_neg (by simp)]
  exact ⟨_, _, map_eq_ok.mpr ⟨_, hpush, rfl⟩⟩

/-! ### Primary artifacts -/

theorem exists_takeArtifact? {given : List Artifact} (h : name ∈ artifactNames given) :
    ∃ a others, takeArtifact? name given = some (a, others) := by
  induction given with
  | nil => exact absurd h List.not_mem_nil
  | cons b rest ih =>
      rw [takeArtifact?]
      split
      · exact ⟨b, rest, rfl⟩
      · next hne =>
        have hrest := (List.mem_cons.mp h).resolve_left fun heq => hne (by simpa using heq.symm)
        obtain ⟨a, others, htake⟩ := ih hrest
        exact ⟨a, b :: others, by rw [htake, Option.map_some]⟩

/-- The induction is on the sources: what one of them takes is no other one's primary artifact. -/
theorem exists_addPrimaries {sources : List UnitSource} {given : List Artifact}
    (hnames : (artifactNames (s.artifacts ++ given)).Nodup)
    (hsources : (sources.map UnitSource.name).Nodup)
    (hbundles : ∀ u ∈ sources, u.name ∉ s.bundles.map Bundle.name)
    (hprimary : ∀ u ∈ sources, u.name ∈ artifactNames given) :
    ∃ rest t, addPrimaries sources given s = .ok (rest, t) := by
  induction sources generalizing s given with
  | nil => exact ⟨given, s, rfl⟩
  | cons u sources ih =>
      rw [List.map_cons, List.nodup_cons] at hsources
      obtain ⟨a, others, htake⟩ := exists_takeArtifact? (hprimary u List.mem_cons_self)
      obtain ⟨hname, hperm⟩ := takeArtifact?_cases htake
      have hunit : u.name ∉ s.units.map CompiledUnit.name := by
        rw [artifactNames, List.map_append, List.nodup_append] at hnames
        rw [← artifactNames_artifacts]
        exact fun hin => hnames.2.2 _ hin _ (hprimary u List.mem_cons_self) rfl
      obtain ⟨id, t, hinsert⟩ :=
        exists_insertBundle a.payload (hbundles u List.mem_cons_self) hunit
      obtain ⟨_, _, rfl⟩ := insertBundle_cases hinsert
      have ha : artifactOf ⟨u.name, a.payload, false⟩ = a := by rw [artifactOf, ← hname]
      have hall : (s.artifacts ++ given).Perm ((s.artifacts ++ [a]) ++ others) := by
        rw [List.append_assoc]
        exact hperm.append_left _
      rw [addPrimaries, htake]
      dsimp only
      rw [hinsert]
      refine ih ?_ hsources.2 (fun v hv => ?_) fun v hv => ?_
      · rw [artifacts, List.map_append, List.map_singleton, ha]
        exact ((hall.map Artifact.name).nodup_iff).mp hnames
      · intro hin
        have hinserted := (perm_insertSorted ⟨u, s.units.length, []⟩ s.bundles).map Bundle.name
        rcases List.mem_cons.mp (hinserted.subset hin) with heq | hin
        · exact hsources.1 (List.mem_map.mpr ⟨v, hv, heq⟩)
        · exact hbundles v (List.mem_cons_of_mem u hv) hin
      · have hin := (hperm.map Artifact.name).subset (hprimary v (List.mem_cons_of_mem u hv))
        rcases List.mem_cons.mp hin with heq | hin
        · exact absurd (List.mem_map.mpr ⟨v, hv, heq.trans hname⟩) hsources.1
        · exact hin

theorem names_of_addPrimaries {sources : List UnitSource} {given rest : List Artifact}
    (h : addPrimaries sources given s = .ok (rest, t)) :
    t.units.map CompiledUnit.name =
      s.units.map CompiledUnit.name ++ sources.map UnitSource.name := by
  induction sources generalizing s given with
  | nil =>
      cases h
      rw [List.map_nil, List.append_nil]
  | cons u sources ih =>
      unfold addPrimaries at h
      split at h
      · cases h
      · obtain ⟨⟨id, s'⟩, hinsert, h⟩ := bind_eq_ok.mp h
        obtain ⟨_, _, rfl⟩ := insertBundle_cases (liftBundle_eq_ok.mp hinsert)
        rw [ih h, List.map_append, List.append_assoc]
        rfl

/-! ### Inner artifacts -/

theorem exists_addArtifacts (names : List String) {given : List Artifact}
    (hnames : (artifactNames (s.artifacts ++ given)).Nodup)
    (hbundles : ∀ n ∈ names, n ∈ s.bundles.map Bundle.name)
    (howned : ∀ a ∈ given, ∃ n ∈ names, k.isInner n a.name = true) :
    ∃ t, given.foldlM (addArtifact k names) s = .ok t := by
  induction given generalizing s with
  | nil => exact ⟨s, rfl⟩
  | cons a rest ih =>
      obtain ⟨owner, howner, hfound⟩ := exists_ownerOf? (howned a List.mem_cons_self)
      have hunit : a.name ∉ s.units.map CompiledUnit.name := by
        rw [artifactNames, List.map_append, List.nodup_append] at hnames
        rw [← artifactNames_artifacts]
        exact fun hin => hnames.2.2 _ hin _ (List.mem_map_of_mem List.mem_cons_self) rfl
      obtain ⟨id, t, hadd⟩ :=
        exists_addInner a.payload (hbundles owner howner) hunit
      have hstep : addArtifact k names s a = .ok t := by
        rw [addArtifact, hfound]
        dsimp only
        rw [hadd]
        rfl
      obtain ⟨-, -, ht⟩ := addInner_cases hadd
      rw [List.foldlM_cons, hstep]
      refine ih ?_ (fun n hn => ?_) fun b hb => howned b (List.mem_cons_of_mem a hb)
      · have hunits : t.artifacts = s.artifacts ++ [a] := by
          rw [ht, artifacts, List.map_append]
          rfl
        rw [hunits, List.append_assoc]
        exact hnames
      · have hkept : t.bundles.map Bundle.name = s.bundles.map Bundle.name := by
          rw [ht]
          exact map_name_give owner s.units.length s.bundles
        rw [hkept]
        exact hbundles n hn

/-! ### Grouping -/

theorem exists_group {sources : List UnitSource} {given : List Artifact}
    (hsources : (sources.map UnitSource.name).Nodup) (hgiven : (artifactNames given).Nodup)
    (hprimary : ∀ u ∈ sources, u.name ∈ artifactNames given)
    (howned : ∀ a ∈ given, a.name ∈ sources.map UnitSource.name ∨
      ∃ n ∈ sources.map UnitSource.name, k.isInner n a.name = true) :
    ∃ s, group k sources given = .ok s := by
  obtain ⟨rest, t, hprimaries⟩ := exists_addPrimaries (s := {}) hgiven hsources
    (fun _ _ => List.not_mem_nil) hprimary
  obtain ⟨-, hunits, hbundles⟩ := addPrimaries_grouped partitioned_empty hprimaries
  have hnames : (artifactNames (t.artifacts ++ rest)).Nodup :=
    ((hunits.map Artifact.name).nodup_iff).mpr hgiven
  have hinner : ∀ a ∈ rest, ∃ n ∈ sources.map UnitSource.name, k.isInner n a.name = true := by
    intro a ha
    refine (howned a (hunits.subset (List.mem_append_right _ ha))).resolve_left fun hin => ?_
    rw [artifactNames, List.map_append, List.nodup_append] at hnames
    have htaken : t.artifacts.map Artifact.name = sources.map UnitSource.name :=
      (artifactNames_artifacts t).trans (names_of_addPrimaries hprimaries)
    exact hnames.2.2 a.name (htaken ▸ hin) a.name (List.mem_map_of_mem ha) rfl
  obtain ⟨s, hs⟩ := exists_addArtifacts (sources.map UnitSource.name) hnames
    (fun n hn => hbundles.symm.subset hn) hinner
  exact ⟨s, by rw [group, hprimaries]; exact hs⟩

end GrammarEngine.BundleSet

/-! ## Sets of units -/
namespace GrammarEngine

/-- The rules of a unit of which there are images. -/
def UnitDecl.ruleNames : UnitDecl → List String
  | .lexer d => d.rules.map LexerRuleDecl.name
  | .parser d => d.ruleNames
  | .library _ => []

/-- The names of all images of a unit. -/
def UnitDecl.imageNames (d : UnitDecl) : List String :=
  d.name :: d.ruleNames.map (innerName d.name)

/-! ### Names of images -/

/-- A name behind a qualifier, without the separator of inner units. -/
def Qualified (front name : String) : Prop := ∃ w, name = front ++ w ∧ '$' ∉ w.toList

theorem toList_innerName (unit rule : String) :
    (innerName unit rule).toList = unit.toList ++ '$' :: rule.toList := by
  have heq : innerName unit rule = unit ++ "$" ++ rule := rfl
  rw [heq, String.toList_append, String.toList_append, List.append_assoc]
  rfl

theorem isInner_innerName {rule : String} (h : rule ≠ "") (unit : String) :
    Classifier.isInner {} unit (innerName unit rule) = true := by
  have hne : rule.toList.isEmpty = false := by
    rw [List.isEmpty_eq_false_iff]
    exact fun hnil => h (String.toList_eq_nil_iff.mp hnil)
  have hfront : unit.toList.isPrefixOf? (innerName unit rule).toList =
      some ('$' :: rule.toList) := by
    rw [toList_innerName]
    exact List.isPrefixOf?_eq_some_iff_append_eq.mpr rfl
  rw [Classifier.isInner, hfront]
  simp [Classifier.admits, hne]

/-- Without the separator in front of it, what stands in front of a separator is determined. -/
theorem append_separator_inj {w w' rest rest' : List Char} (hw : '$' ∉ w) (hw' : '$' ∉ w')
    (h : w ++ '$' :: rest = w' ++ '$' :: rest') : w = w' ∧ rest = rest' := by
  induction w generalizing w' with
  | nil =>
      cases w' with
      | nil => exact ⟨rfl, (List.cons.inj h).2⟩
      | cons c w' => exact absurd ((List.cons.inj h).1 ▸ List.mem_cons_self) hw'
  | cons c w ih =>
      cases w' with
      | nil => exact absurd ((List.cons.inj h).1 ▸ List.mem_cons_self) hw
      | cons c' w' =>
          obtain ⟨hhead, htail⟩ := List.cons.inj h
          obtain ⟨hrest, heq⟩ := ih (fun hin => hw (List.mem_cons_of_mem c hin))
            (fun hin => hw' (List.mem_cons_of_mem c' hin)) htail
          exact ⟨by rw [hhead, hrest], heq⟩

theorem innerName_inj {front unit unit' rule rule' : String} (hunit : Qualified front unit)
    (hunit' : Qualified front unit') (h : innerName unit rule = innerName unit' rule') :
    unit = unit' ∧ rule = rule' := by
  obtain ⟨w, rfl, hw⟩ := hunit
  obtain ⟨w', rfl, hw'⟩ := hunit'
  have hlists := congrArg String.toList h
  simp only [toList_innerName, String.toList_append, List.append_assoc,
    List.append_cancel_left_eq] at hlists
  obtain ⟨hwords, hrules⟩ := append_separator_inj hw hw' hlists
  exact ⟨by rw [String.toList_injective hwords], String.toList_injective hrules⟩

theorem innerName_ne {front unit unit' : String} (hunit : Qualified front unit)
    (hunit' : Qualified front unit') (rule : String) : innerName unit rule ≠ unit' := by
  intro h
  obtain ⟨w, rfl, hw⟩ := hunit
  obtain ⟨w', rfl, hw'⟩ := hunit'
  have hlists := congrArg String.toList h
  simp only [toList_innerName, String.toList_append, List.append_assoc,
    List.append_cancel_left_eq] at hlists
  exact hw' (hlists ▸ List.mem_append_right _ List.mem_cons_self)

/-- All images of units have different names. -/
theorem nodup_imageNames {front : String} {decls : List UnitDecl}
    (hqualified : ∀ d ∈ decls, Qualified front d.name)
    (hunits : (decls.map UnitDecl.name).Nodup) (hrules : ∀ d ∈ decls, d.ruleNames.Nodup) :
    (decls.flatMap UnitDecl.imageNames).Nodup := by
  rw [List.nodup_flatMap]
  refine ⟨fun d hd => List.nodup_cons.mpr ⟨fun hin => ?_, ?_⟩, ?_⟩
  · obtain ⟨rule, -, hname⟩ := List.mem_map.mp hin
    exact innerName_ne (hqualified d hd) (hqualified d hd) rule hname
  · refine (hrules d hd).map fun rule rule' h => ?_
    exact (innerName_inj (hqualified d hd) (hqualified d hd) h).2
  · refine (List.pairwise_map.mp hunits).imp_of_mem fun {d d'} hd hd' hne => ?_
    intro name hname hname'
    have hq := hqualified d hd
    have hq' := hqualified d' hd'
    rcases List.mem_cons.mp hname with rfl | hname
    · rcases List.mem_cons.mp hname' with heq | hname'
      · exact hne heq
      · obtain ⟨rule, -, heq⟩ := List.mem_map.mp hname'
        exact innerName_ne hq' hq rule heq
    · obtain ⟨rule, -, rfl⟩ := List.mem_map.mp hname
      rcases List.mem_cons.mp hname' with heq | hname'
      · exact innerName_ne hq hq' rule heq
      · obtain ⟨rule', -, heq⟩ := List.mem_map.mp hname'
        exact hne (innerName_inj hq' hq heq).1.symm

/-! ### Sets -/

namespace Compiler

variable {sources : List UnitSource} {decls : UnitIndex}

/-- A unit compiles among others, and its images bear its name and those of its rules. -/
structure Compiles (index : UnitIndex) (d : UnitDecl) : Prop where
  images : ∃ images, compileUnit index d = .ok images ∧ images.map Prod.fst = d.imageNames
  distinct : d.ruleNames.Nodup
  nonempty : "" ∉ d.ruleNames

theorem Compiles.unitOutput {index : UnitIndex} {d : UnitDecl} (h : Compiles index d) :
    (unitOutput index d).diagnostics = [] ∧
      BundleSet.artifactNames (unitOutput index d).artifacts = d.imageNames := by
  obtain ⟨images, hcompile, hnames⟩ := h.images
  unfold Compiler.unitOutput
  rw [hcompile]
  refine ⟨rfl, ?_⟩
  dsimp only
  rw [BundleSet.artifactNames, List.map_map, ← hnames]
  rfl

theorem values_eq_of_forall₂ {α ε β : Type} {f : α → Except ε β} {xs : List α} {ys : List β}
    (h : List.Forall₂ (fun x y => f x = .ok y) xs ys) : LexerDecl.values (xs.map f) = ys := by
  induction h with
  | nil => rfl
  | cons hx _ ih =>
      rw [List.map_cons, hx]
      exact congrArg _ ih

/-- The compiler reports nothing about such units. -/
theorem units_of_compiles (hdecls : List.Forall₂ (fun u d => declaration u = .ok d) sources decls)
    (hcompiles : ∀ d ∈ decls, Compiles decls d) :
    (units sources).diagnostics = [] ∧
      BundleSet.artifactNames (units sources).artifacts = decls.flatMap UnitDecl.imageNames := by
  simp only [units, values_eq_of_forall₂ hdecls]
  constructor
  · rw [List.append_eq_nil_iff, List.filterMap_eq_nil_iff, List.flatMap_eq_nil_iff]
    constructor
    · intro result hresult
      obtain ⟨u, hu, rfl⟩ := List.mem_map.mp hresult
      obtain ⟨d, -, hd⟩ := exists_of_mem_right hdecls.flip hu
      rw [hd]
    · intro output houtput
      obtain ⟨d, hd, rfl⟩ := List.mem_map.mp houtput
      exact (hcompiles d hd).unitOutput.1
  · rw [BundleSet.artifactNames, List.flatMap_map, List.map_flatMap]
    exact List.flatMap_congr fun d hd => (hcompiles d hd).unitOutput.2

end Compiler

namespace BundleSet

theorem firstRepeatedSource?_eq_none {sources : List UnitSource} {seen : List String}
    (hnodup : (sources.map UnitSource.name).Nodup) (hnew : ∀ u ∈ sources, u.name ∉ seen) :
    firstRepeatedSource? seen sources = none := by
  induction sources generalizing seen with
  | nil => rfl
  | cons u rest ih =>
      rw [List.map_cons] at hnodup
      obtain ⟨hfresh, hrest⟩ := List.nodup_cons.mp hnodup
      rw [firstRepeatedSource?, if_neg (by simpa using hnew u List.mem_cons_self)]
      refine ih hrest fun v hv hin => ?_
      rcases List.mem_cons.mp hin with hname | hin
      · exact hfresh (hname ▸ List.mem_map_of_mem hv)
      · exact hnew v (List.mem_cons_of_mem u hv) hin

/-- Sources of which no error is reported, and whose artifacts can be grouped, become a set. -/
theorem compile_eq_group {compiler : Compiler} {k : NamingScheme} {sources : List UnitSource}
    (hne : sources ≠ []) (hnodup : (sources.map UnitSource.name).Nodup)
    (hreports : (compiler sources).diagnostics.filter Diagnostic.isError = []) :
    compile compiler k sources = group k sources (compiler sources).artifacts := by
  have hrepeated := firstRepeatedSource?_eq_none hnodup fun _ _ => List.not_mem_nil
  rw [compile, if_neg (by simpa using hne), hrepeated]
  dsimp only
  rw [hreports]
  rfl

/-- Sources of units that compile become a set. -/
theorem exists_compile {sources : List UnitSource} {decls : UnitIndex} (front : String)
    (hne : sources ≠ [])
    (hdecls : List.Forall₂ (fun u d => Compiler.declaration u = .ok d) sources decls)
    (hnodup : (sources.map UnitSource.name).Nodup)
    (hqualified : ∀ u ∈ sources, Qualified front u.name)
    (hcompiles : ∀ d ∈ decls, Compiler.Compiles decls d) :
    ∃ s, compile Compiler.units {} sources = .ok s := by
  have hnames : sources.map UnitSource.name = decls.map UnitDecl.name :=
    (Compiler.names_of_declared hdecls).symm
  have hqualified : ∀ d ∈ decls, Qualified front d.name := fun d hd => by
    obtain ⟨u, hu, hdecl⟩ := exists_of_mem_right hdecls hd
    exact (Compiler.declaration_cases hdecl).2 ▸ hqualified u hu
  obtain ⟨hreports, hartifacts⟩ := Compiler.units_of_compiles hdecls hcompiles
  rw [compile_eq_group hne hnodup (by rw [hreports, List.filter_nil])]
  refine exists_group hnodup ?_ (fun u hu => ?_) fun a ha => ?_
  · rw [hartifacts]
    exact nodup_imageNames hqualified (hnames ▸ hnodup) fun d hd => (hcompiles d hd).distinct
  · have hin : u.name ∈ decls.map UnitDecl.name := hnames ▸ List.mem_map_of_mem hu
    obtain ⟨d, hd, hname⟩ := List.mem_map.mp hin
    rw [hartifacts]
    exact List.mem_flatMap.mpr ⟨d, hd, hname ▸ List.mem_cons_self⟩
  · have hin : a.name ∈ decls.flatMap UnitDecl.imageNames :=
      hartifacts ▸ List.mem_map_of_mem ha
    obtain ⟨d, hd, hname⟩ := List.mem_flatMap.mp hin
    have hunit : d.name ∈ sources.map UnitSource.name := hnames ▸ List.mem_map_of_mem hd
    rcases List.mem_cons.mp hname with heq | hinner
    · exact .inl (heq ▸ hunit)
    · obtain ⟨rule, hrule, heq⟩ := List.mem_map.mp hinner
      have hne : rule ≠ "" := fun hempty => (hcompiles d hd).nonempty (hempty ▸ hrule)
      exact .inr ⟨d.name, hunit, heq ▸ isInner_innerName hne d.name⟩

end BundleSet

end GrammarEngine

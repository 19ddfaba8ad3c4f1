import GrammarEngine.Proofs.Bundle.Grouping
import GrammarEngine.Proofs.Compile.Parsers

/-!
# What a compiled set holds

A set is compiled only if every source declares a unit of its own name and every unit compiles. The
set then holds the images of all units under their names.
-/
namespace GrammarEngine

theorem LibraryDecl.compile_cases {d : LibraryDecl} :
    (∃ header, d.compile = .ok [(d.name, .library header)]) ∨
      ∃ faults, d.compile = .error faults ∧ faults ≠ [] := by
  unfold LibraryDecl.compile
  split
  · exact .inl ⟨_, rfl⟩
  · next hne => exact .inr ⟨_, rfl, hne⟩

namespace Compiler

variable {index : UnitIndex} {d : UnitDecl} {images : NamedImages}

/-- The images of a unit: a header under the unit's name and, for lexers and parsers, the images of
the rules that the header lists. -/
def UnitImages (index : UnitIndex) : UnitDecl → NamedImages → Prop
  | .lexer d, images => d.LexerImages images
  | .parser d, images => d.ParserImages index images
  | .library d, images => ∃ header, images = [(d.name, .library header)]

theorem UnitImages.head (h : UnitImages index d images) :
    ∃ image, images.head? = some (d.name, image) := by
  cases d with
  | lexer d =>
      obtain ⟨rules, rfl, _⟩ := h
      exact ⟨_, rfl⟩
  | parser d =>
      obtain ⟨header, rules, rfl, _⟩ := h
      exact ⟨_, rfl⟩
  | library d =>
      obtain ⟨header, rfl⟩ := h
      exact ⟨_, rfl⟩

theorem unitImages_of_compileUnit (h : compileUnit index d = .ok images) :
    UnitImages index d images := by
  cases d with
  | lexer d => exact LexerDecl.lexerImages_of_compile h
  | parser d => exact ParserDecl.parserImages_of_compile h
  | library d =>
      rcases d.compile_cases with ⟨header, hok⟩ | ⟨faults, herror, _⟩
      · exact ⟨header, Except.ok.inj (h.symm.trans hok)⟩
      · cases h.symm.trans herror

theorem compileUnit_ne_error_nil : compileUnit index d ≠ .error [] := by
  cases d with
  | lexer d => exact LexerDecl.compile_ne_error_nil
  | parser d => exact ParserDecl.compile_ne_error_nil
  | library d =>
      intro h
      rcases d.compile_cases with ⟨header, hok⟩ | ⟨faults, herror, hne⟩
      · cases h.symm.trans hok
      · exact hne (Except.error.inj (h.symm.trans herror)).symm

/-- A unit that reports nothing compiles. -/
theorem compileUnit_of_no_diagnostics (h : (unitOutput index d).diagnostics = []) :
    ∃ images, compileUnit index d = .ok images ∧
      (unitOutput index d).artifacts = images.map fun i => ⟨i.1, Image.encode i.2⟩ := by
  unfold unitOutput at h ⊢
  cases hcompile : compileUnit index d with
  | ok images => exact ⟨images, rfl, rfl⟩
  | error faults =>
      rw [hcompile] at h
      obtain rfl := List.map_eq_nil_iff.mp h
      exact absurd hcompile compileUnit_ne_error_nil

theorem declaration_cases {u : UnitSource} (h : declaration u = .ok d) :
    UnitDecl.read u.source = .ok d ∧ d.name = u.name := by
  unfold declaration at h
  split at h
  · cases h
  · next found hread =>
    split at h
    · next hname =>
      cases h
      exact ⟨hread, by simpa using hname⟩
    · cases h

theorem names_of_declared {sources : List UnitSource}
    (h : List.Forall₂ (fun u d => declaration u = .ok d) sources index) :
    index.map UnitDecl.name = sources.map UnitSource.name := by
  rw [← List.forall₂_eq_eq_eq, List.forall₂_map_left_iff, List.forall₂_map_right_iff]
  exact (h.imp fun u d hd => (declaration_cases hd).2).flip

theorem isError_of_declaration {u : UnitSource} {e : Diagnostic} (h : declaration u = .error e) :
    e.isError = true := by
  unfold declaration at h
  split at h
  · cases h
    rfl
  · split at h
    · cases h
    · cases h
      rfl

theorem isError_of_mem_unitOutput {e : Diagnostic} (h : e ∈ (unitOutput index d).diagnostics) :
    e.isError = true := by
  unfold unitOutput at h
  split at h
  · exact absurd h List.not_mem_nil
  · obtain ⟨fault, _, rfl⟩ := List.mem_map.mp h
    rfl

/-- Sources of which nothing is reported declare units that compile. -/
theorem compileUnit_cases {sources : List UnitSource}
    (h : (units sources).diagnostics.filter Diagnostic.isError = []) :
    ∃ decls : UnitIndex, List.Forall₂ (fun u d => declaration u = .ok d) sources decls ∧
      ∀ d ∈ decls, ∃ images, compileUnit decls d = .ok images ∧
        ∀ i ∈ images, ⟨i.1, Image.encode i.2⟩ ∈ (units sources).artifacts := by
  simp only [units, List.filter_append, List.append_eq_nil_iff, List.filter_eq_nil_iff] at h ⊢
  obtain ⟨hfaults, hreports⟩ := h
  have hdeclared : ∀ e, Except.error e ∉ sources.map declaration := by
    intro e he
    obtain ⟨u, _, hu⟩ := List.mem_map.mp he
    exact hfaults e (List.mem_filterMap.mpr ⟨_, he, rfl⟩) (isError_of_declaration hu)
  refine ⟨_, LexerDecl.forall₂_values hdeclared, fun d hd => ?_⟩
  have hnone : (unitOutput (LexerDecl.values (sources.map declaration)) d).diagnostics = [] := by
    rw [List.eq_nil_iff_forall_not_mem]
    intro e he
    refine hreports e (List.mem_flatMap.mpr ⟨_, List.mem_map_of_mem hd, he⟩) ?_
    exact isError_of_mem_unitOutput he
  obtain ⟨images, hcompile, hartifacts⟩ := compileUnit_of_no_diagnostics hnone
  refine ⟨images, hcompile, fun i hi => ?_⟩
  refine List.mem_flatMap.mpr ⟨_, List.mem_map_of_mem hd, ?_⟩
  rw [hartifacts]
  exact List.mem_map.mpr ⟨i, hi, rfl⟩

theorem units_cases {sources : List UnitSource}
    (h : (units sources).diagnostics.filter Diagnostic.isError = []) :
    ∃ decls : UnitIndex, List.Forall₂ (fun u d => declaration u = .ok d) sources decls ∧
      ∀ d ∈ decls, ∃ images, UnitImages decls d images ∧
        ∀ i ∈ images, ⟨i.1, Image.encode i.2⟩ ∈ (units sources).artifacts := by
  obtain ⟨decls, hdeclared, hcompiled⟩ := compileUnit_cases h
  refine ⟨decls, hdeclared, fun d hd => ?_⟩
  obtain ⟨images, hcompile, hartifacts⟩ := hcompiled d hd
  exact ⟨images, unitImages_of_compileUnit hcompile, hartifacts⟩

end Compiler

namespace BundleSet

variable {s : BundleSet} {compiler : Compiler} {k : NamingScheme} {sources : List UnitSource}

theorem compile_cases (h : compile compiler k sources = .ok s) :
    (compiler sources).diagnostics.filter Diagnostic.isError = [] ∧
      group k sources (compiler sources).artifacts = .ok s := by
  cases hempty : sources.isEmpty with
  | true =>
      rw [compile, if_pos hempty] at h
      cases h
  | false =>
      rw [compile, if_neg (by simp [hempty])] at h
      cases hrepeated : firstRepeatedSource? [] sources with
      | some name =>
          simp only [hrepeated] at h
          cases h
      | none =>
          simp only [hrepeated] at h
          cases herrors : (compiler sources).diagnostics.filter Diagnostic.isError with
          | nil => exact ⟨rfl, by simpa [herrors] using h⟩
          | cons e rest =>
              rw [herrors, if_pos (by rfl)] at h
              cases h

end BundleSet

end GrammarEngine

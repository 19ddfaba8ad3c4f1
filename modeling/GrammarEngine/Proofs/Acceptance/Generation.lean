import GrammarEngine.Proofs.Acceptance.Parsers
import GrammarEngine.Proofs.Acceptance.Units
import GrammarEngine.Proofs.Unit.RoundTrip

/-!
# Generated units compile

The units of a set of grammar files compile together, as long as the files keep to what the analysis
leaves unchecked: file names are one line, fragments have no commands, no two units and no two rules
of a lexer have the same name, and no lexer rule leads back to itself.

What is compiled of the units of an analysis is the same if they are not written out first. Examples
are compiled in this way, as the kernel takes long to decode texts.
-/
namespace GrammarEngine

namespace Analysis

variable {grammars : List Grammar} {package : Option String} {a : Analysis}

/-! ## Names of units -/

/-- What stands in front of every unit name. -/
def front (package : Option String) : String := qualify package ""

theorem qualify_eq (package : Option String) (name : String) :
    qualify package name = front package ++ name := by
  unfold front qualify
  cases package with
  | none => exact String.empty_append.symm
  | some p =>
      dsimp only
      split
      · exact String.empty_append.symm
      · have heq : ∀ name : String, s!"{p}.{name}" = p ++ "." ++ name := fun _ => rfl
        rw [heq, heq, String.append_empty]

theorem not_mem_of_isWord {name : String} (h : IsWord name) : '$' ∉ name.toList := by
  intro hin
  have hchar := h.2 '$' hin
  revert hchar
  decide

/-- A unit is named after a grammar. -/
structure NamedAfter (grammars : List Grammar) (package : Option String) (unit grammar : String) :
    Prop where
  qualified : Qualified (front package) unit
  grammar : ∃ g ∈ grammars, g.name = grammar

theorem namedAfter_of_word {g : Grammar} (hg : g ∈ grammars) {suffix : String}
    (hword : IsWord g.name) (hsuffix : '$' ∉ suffix.toList) :
    NamedAfter grammars package (qualify package (g.name ++ suffix)) g.name where
  qualified := by
    refine ⟨g.name ++ suffix, qualify_eq _ _, ?_⟩
    rw [String.toList_append, List.mem_append, not_or]
    exact ⟨not_mem_of_isWord hword, hsuffix⟩
  grammar := ⟨g, hg, rfl⟩

/-! ## Recognizers of an analysis -/

/-- A lexer of grammars that extend no library. -/
structure GoodLexer (grammars : List Grammar) (package : Option String) (l : LexerSpec) :
    Prop where
  resolved : l.Resolved
  named : NamedAfter grammars package l.unit l.grammar

/-- A parser of grammars that extend no library, over one of the lexers. -/
structure GoodParser (grammars : List Grammar) (package : Option String) (lexers : List LexerSpec)
    (p : ParserSpec) : Prop where
  resolved : ∃ l ∈ lexers, l.unit = p.vocabularyUnit ∧ p.Resolved l.vocabulary
  named : NamedAfter grammars package p.unit p.grammar

theorem GoodParser.mono {lexers lexers' : List LexerSpec} {p : ParserSpec}
    (h : GoodParser grammars package lexers p) (hsub : lexers ⊆ lexers') :
    GoodParser grammars package lexers' p := by
  obtain ⟨l, hl, hunit, hresolved⟩ := h.resolved
  exact ⟨⟨l, hsub hl, hunit, hresolved⟩, h.named⟩

/-- All recognizers of an analysis are resolved and named after grammars. -/
theorem good_of_ofGrammars (h : ofGrammars grammars package = .ok a)
    (hgrammars : ∀ g ∈ grammars, g.FromFile)
    (hbase : ∀ g ∈ grammars, g.option? "superClass" = none) :
    (∀ l ∈ a.lexers, GoodLexer grammars package l) ∧
      ∀ p ∈ a.parsers, GoodParser grammars package a.lexers p := by
  let P (p : Progress) : Prop := (∀ l ∈ p.lexers, GoodLexer grammars package l) ∧
    ∀ q ∈ p.parsers, GoodParser grammars package p.lexers q
  have hP : ∃ p, P p ∧ a.lexers = p.lexers ∧ a.parsers = p.parsers := by
    refine progress_invariant P h hgrammars ⟨by simp, by simp⟩
      fun g₀ hg₀ g p p' hmerge hfile hold hstep => ?_
    have hoption : g.option? "superClass" = none :=
      (hmerge.option? _).trans (hbase g₀ hg₀)
    have hnamed (suffix : String) (hsuffix : '$' ∉ suffix.toList) :
        NamedAfter grammars package (qualify package (g.name ++ suffix)) g.name := by
      rw [hmerge.name]
      exact namedAfter_of_word hg₀ (hmerge.name ▸ hfile.name) hsuffix
    have hplain : NamedAfter grammars package (qualify package g.name) g.name := by
      have hempty := hnamed "" List.not_mem_nil
      rwa [String.append_empty] at hempty
    have hold' (l : LexerSpec) :
        ∀ q ∈ p.parsers, GoodParser grammars package (p.lexers ++ [l]) q :=
      fun q hq => (hold.2 q hq).mono (List.subset_append_left _ _)
    cases hstep with
    | lexer _ hbuilt =>
        have hnew := GoodLexer.mk (hbuilt.resolved hfile (List.Subset.refl _) hoption)
          (by rw [hbuilt.unit, hbuilt.grammar]; exact hplain)
        exact ⟨List.forall_mem_append.mpr ⟨hold.1, by simpa using hnew⟩, hold' _⟩
    | combinedLexer _ hbuilt =>
        have hnew := GoodLexer.mk (hbuilt.resolved hfile (List.filter_subset_self _) hoption)
          (by rw [hbuilt.unit, hbuilt.grammar]; exact hnamed "Lexer" (by decide))
        exact ⟨List.forall_mem_append.mpr ⟨hold.1, by simpa using hnew⟩, hold' _⟩
    | @combined l l' parser _ _ hbuilt hparser =>
        have hunit : l'.unit = l.unit := by rw [hparser.completes]
        have hgrammar : l'.grammar = l.grammar := by rw [hparser.completes]
        have hresolved := hbuilt.resolved hfile (List.filter_subset_self _) hoption
        have hnew := GoodLexer.mk
          (hresolved.completed hparser.completes hparser.grows.isPrefix)
          (by rw [hunit, hgrammar, hbuilt.unit, hbuilt.grammar]; exact hnamed "Lexer" (by decide))
        have hover : GoodParser grammars package (p.lexers ++ [l']) parser := {
          resolved := ⟨l', List.mem_append_right _ List.mem_cons_self,
            hunit.trans hparser.vocabularyUnit.symm,
            hparser.resolved hoption fun r hr => hfile.rules r (List.mem_of_mem_filter hr)⟩
          named := by
            rw [hparser.unit, hparser.grammar]
            exact hnamed "Parser" (by decide) }
        exact ⟨List.forall_mem_append.mpr ⟨hold.1, by simpa using hnew⟩,
          List.forall_mem_append.mpr ⟨hold' l', by simpa using hover⟩⟩
    | @parser l l' parser _ _ hl hparser =>
        have hsame : l'.vocabulary = l.vocabulary := hparser.grows.unchanged rfl
        have hover : GoodParser grammars package p.lexers parser := {
          resolved := ⟨l, hl, hparser.vocabularyUnit.symm,
            hsame ▸ hparser.resolved hoption hfile.rules⟩
          named := by
            rw [hparser.unit, hparser.grammar]
            exact hplain }
        exact ⟨hold.1, List.forall_mem_append.mpr ⟨hold.2, by simpa using hover⟩⟩
  obtain ⟨p, ⟨hlexers, hparsers⟩, hl, hp⟩ := hP
  rw [hl, hp]
  exact ⟨hlexers, hparsers⟩

/-! ## Declarations -/

/-- Unit names and rule names are told apart, and no lexer rule leads back to itself. -/
structure Distinct (a : Analysis) : Prop where
  units : (a.lexers.map LexerSpec.unit ++ a.parsers.map ParserSpec.unit).Nodup
  rules : ∀ l ∈ a.lexers, l.ruleNames.Nodup
  acyclic : ∀ l ∈ a.lexers, ∀ name, ¬ Relation.TransGen l.Refers name name

theorem declaration_of_readAll {u : UnitSource} {w : Sexpr} {d : UnitDecl}
    (hread : Sexpr.readAll u.source = .ok [w]) (hd : UnitDecl.ofForms [w] = .ok d)
    (hname : d.name = u.name) : Compiler.declaration u = .ok d := by
  have hdecl : UnitDecl.read u.source = .ok d := by
    rw [UnitDecl.read, hread]
    exact hd
  rw [Compiler.declaration, hdecl]
  dsimp only
  rw [if_pos (beq_iff_eq.mpr hname)]

/-- A declared lexer of an analysis compiles among any units. -/
theorem compiles_declaredLexer {l : LexerSpec} {d : LexerDecl} (index : UnitIndex)
    (h : d.unplaced = l.declared) (hresolved : l.Resolved) (hdistinct : l.ruleNames.Nodup)
    (hacyclic : ∀ name, ¬ Relation.TransGen l.Refers name name) :
    Compiler.Compiles index (.lexer d) := by
  have hcomplete : d.Complete :=
    .of_unplaced (h ▸ hresolved.complete_declared hdistinct hacyclic)
  have hsub : (d.rules.map LexerRuleDecl.name).Sublist (d.names.map NameAt.name) := by
    rw [LexerDecl.names, List.map_append, List.map_map]
    exact List.sublist_append_left _ _
  have hnames : d.names.map NameAt.name ⊆ l.ruleNames := by
    rw [← d.names_unplaced, h, LexerDecl.names, List.map_append, List.map_map, List.map_map]
    exact (LexerSpec.perm_declared_names l.rules).subset
  obtain ⟨images, himages⟩ := hcomplete.exists_compile index
  refine ⟨⟨images, himages, ?_⟩, hcomplete.distinct.sublist hsub, fun hin => ?_⟩
  · rw [LexerDecl.map_fst_of_compile himages, UnitDecl.imageNames, UnitDecl.ruleNames, List.map_map]
    rfl
  · exact hresolved.named (hnames (hsub.subset hin))

/-- A declared parser of an analysis compiles where its lexer is found. -/
theorem compiles_declaredParser {l : LexerSpec} {p : ParserSpec} {lexer : LexerDecl}
    {d : ParserDecl} {index : UnitIndex} (hl : lexer.unplaced = l.declared)
    (h : d.unplaced = p.declared)
    (hresolved : p.Resolved l.vocabulary)
    (hfind : index.find? p.vocabularyUnit = some (.lexer lexer)) :
    Compiler.Compiles index (.parser d) := by
  have htokens : lexer.tokens.map TokenDecl.name = TokenSpec.names l.vocabulary := by
    have hsame : lexer.unplaced.tokens = l.declared.tokens := congrArg LexerDecl.tokens hl
    have hkept : lexer.unplaced.tokens = lexer.tokens := rfl
    rw [← hkept, hsame, LexerSpec.declared, List.map_map]
    rfl
  have hcomplete : d.Complete (lexer.tokens.map TokenDecl.name) := by
    rw [htokens]
    exact .of_unplaced (h ▸ hresolved.complete_declared)
  have hvocabulary : d.vocabulary.name = p.vocabularyUnit :=
    congrArg (fun d => NameAt.name (ParserDecl.vocabulary d)) h
  have hnames : d.ruleNames = p.ruleNames := by
    rw [← d.ruleNames_unplaced, h, p.ruleNames_declared]
  obtain ⟨images, himages, hfst⟩ := hcomplete.exists_compile (hvocabulary ▸ hfind)
  refine ⟨⟨images, himages, hfst⟩, hcomplete.distinct, ?_⟩
  rw [UnitDecl.ruleNames, hnames]
  exact hresolved.named

end Analysis

namespace Compiler

/-- The declaration in the forms of a source. -/
def declarationIn (name : String) (forms : Except Sexpr.ReadError (List Sexpr)) :
    Except Diagnostic UnitDecl :=
  match forms with
  | .error e => .error (.ofFault name (e.position, .declaration (.unreadable e.fault)))
  | .ok forms =>
    match UnitDecl.ofForms forms with
    | .error (p, fault) => .error (.ofFault name (p, .declaration fault))
    | .ok d =>
      if d.name == name then .ok d
      else .error (.ofFault name (d.position, .misnamed d.name name))

theorem declaration_eq (u : UnitSource) :
    declaration u = declarationIn u.name (Sexpr.readAll u.source) := by
  rw [declaration, UnitDecl.read]
  cases Sexpr.readAll u.source <;> rfl

/-- What becomes of units with these declarations. -/
def outputOf (declared : List (Except Diagnostic UnitDecl)) : CompilerOutput :=
  let faults := declared.filterMap fun
    | .error d => some d
    | .ok _ => none
  let decls := LexerDecl.values declared
  let outputs := decls.map (unitOutput decls)
  { artifacts := outputs.flatMap CompilerOutput.artifacts
    diagnostics := faults ++ outputs.flatMap CompilerOutput.diagnostics }

theorem units_eq (sources : List UnitSource) :
    units sources = outputOf (sources.map declaration) := rfl

end Compiler

namespace GeneratedUnits

variable {grammars : List Grammar} {package : Option String} {a : Analysis}

theorem exists_fileOf {grammar : String} (h : ∃ g ∈ grammars, g.name = grammar) :
    ∃ g ∈ grammars, fileOf grammars grammar = g.file := by
  obtain ⟨g, hg, hname⟩ := h
  have hfound : (grammars.find? fun g => g.name == grammar).isSome = true :=
    List.find?_isSome.mpr ⟨g, hg, beq_iff_eq.mpr hname⟩
  obtain ⟨found, hfound⟩ := Option.isSome_iff_exists.mp hfound
  exact ⟨found, List.mem_of_find?_eq_some hfound, by rw [fileOf, hfound]⟩

def lexerUnit (grammars : List Grammar) (l : LexerSpec) : UnitSource :=
  ⟨l.unit, (UnitText.ofLexer l (fileOf grammars l.grammar)).toString, .generated⟩

def parserUnit (grammars : List Grammar) (p : ParserSpec) : UnitSource :=
  ⟨p.unit, (UnitText.ofParser p (fileOf grammars p.grammar)).toString, .generated⟩

theorem unitsOf_eq (grammars : List Grammar) (a : Analysis) : unitsOf grammars a =
    a.lexers.map (lexerUnit grammars) ++ a.parsers.map (parserUnit grammars) := rfl

/-- A declared lexer as the unit of a lexer declares it. -/
def DeclaresLexer (grammars : List Grammar) (l : LexerSpec) (d : LexerDecl) : Prop :=
  d.unplaced = l.declared ∧ Compiler.declaration (lexerUnit grammars l) = .ok (.lexer d)

/-- A declared parser as the unit of a parser declares it. -/
def DeclaresParser (grammars : List Grammar) (p : ParserSpec) (d : ParserDecl) : Prop :=
  d.unplaced = p.declared ∧ Compiler.declaration (parserUnit grammars p) = .ok (.parser d)

theorem DeclaresLexer.name {l : LexerSpec} {d : LexerDecl} (h : DeclaresLexer grammars l d) :
    d.name = l.unit :=
  congrArg LexerDecl.name h.1

theorem exists_declaresLexer {l : LexerSpec} (h : l.Writable)
    (hfile : '\n' ∉ (fileOf grammars l.grammar).toList) : ∃ d, DeclaresLexer grammars l d := by
  obtain ⟨w, d, hread, hd, hdeclared⟩ := UnitText.readAll_ofLexer h hfile
  have hname : d.name = l.unit := congrArg LexerDecl.name hdeclared
  exact ⟨d, hdeclared, Analysis.declaration_of_readAll hread hd hname⟩

theorem exists_declaresParser {p : ParserSpec} (h : ∀ r ∈ p.rules, r.Writable)
    (hfile : '\n' ∉ (fileOf grammars p.grammar).toList) : ∃ d, DeclaresParser grammars p d := by
  obtain ⟨w, d, hread, hd, hdeclared⟩ := UnitText.readAll_ofParser h hfile
  have hname : d.name = p.unit := congrArg ParserDecl.name hdeclared
  exact ⟨d, hdeclared, Analysis.declaration_of_readAll hread hd hname⟩

variable {lexers : List LexerDecl} {parsers : List ParserDecl}

theorem declarations_unitsOf (hlexers : List.Forall₂ (DeclaresLexer grammars) a.lexers lexers)
    (hparsers : List.Forall₂ (DeclaresParser grammars) a.parsers parsers) :
    List.Forall₂ (fun u d => Compiler.declaration u = .ok d) (unitsOf grammars a)
      (lexers.map UnitDecl.lexer ++ parsers.map UnitDecl.parser) := by
  rw [unitsOf_eq]
  refine List.rel_append ?_ ?_
  · rw [List.forall₂_map_left_iff, List.forall₂_map_right_iff]
    exact hlexers.imp fun l d hd => hd.2
  · rw [List.forall₂_map_left_iff, List.forall₂_map_right_iff]
    exact hparsers.imp fun p d hd => hd.2

theorem map_name_unitsOf (grammars : List Grammar) (a : Analysis) :
    (unitsOf grammars a).map UnitSource.name =
      a.lexers.map LexerSpec.unit ++ a.parsers.map ParserSpec.unit := by
  rw [unitsOf, List.map_append, List.map_map, List.map_map]
  rfl

/-- Every declared unit compiles among all of them. -/
theorem compiles_unitsOf (hlexers : List.Forall₂ (DeclaresLexer grammars) a.lexers lexers)
    (hparsers : List.Forall₂ (DeclaresParser grammars) a.parsers parsers)
    (hgoodLexers : ∀ l ∈ a.lexers, Analysis.GoodLexer grammars package l)
    (hgoodParsers : ∀ p ∈ a.parsers, Analysis.GoodParser grammars package a.lexers p)
    (hdistinct : a.Distinct) :
    ∀ d ∈ lexers.map UnitDecl.lexer ++ parsers.map UnitDecl.parser,
      Compiler.Compiles (lexers.map UnitDecl.lexer ++ parsers.map UnitDecl.parser) d := by
  have hnames : (unitsOf grammars a).map UnitSource.name =
      (lexers.map UnitDecl.lexer ++ parsers.map UnitDecl.parser).map UnitDecl.name :=
    (Compiler.names_of_declared (declarations_unitsOf hlexers hparsers)).symm
  have hnodup := hdistinct.units
  rw [← map_name_unitsOf grammars, hnames] at hnodup
  refine List.forall_mem_append.mpr ⟨fun u hu => ?_, fun u hu => ?_⟩
  · obtain ⟨d, hd, rfl⟩ := List.mem_map.mp hu
    obtain ⟨l, hl, hdecl⟩ := exists_of_mem_right hlexers hd
    exact Analysis.compiles_declaredLexer _ hdecl.1 (hgoodLexers l hl).resolved
      (hdistinct.rules l hl) (hdistinct.acyclic l hl)
  · obtain ⟨d, hd, rfl⟩ := List.mem_map.mp hu
    obtain ⟨p, hp, hdecl⟩ := exists_of_mem_right hparsers hd
    obtain ⟨l, hl, hunit, hresolved⟩ := (hgoodParsers p hp).resolved
    obtain ⟨lexer, hlexer, hdeclLexer⟩ := exists_of_mem_right hlexers.flip hl
    have hfind := ParserDecl.find?_eq_some_of_nodup hnodup
      (List.mem_append_left _ (List.mem_map_of_mem hlexer))
    have hname : (UnitDecl.lexer lexer).name = p.vocabularyUnit :=
      (DeclaresLexer.name hdeclLexer).trans hunit
    exact Analysis.compiles_declaredParser hdeclLexer.1 hdecl.1 hresolved (hname ▸ hfind)

/-- The units of an analysis compile together. -/
theorem exists_compile_unitsOf (h : Analysis.ofGrammars grammars package = .ok a)
    (hgrammars : ∀ g ∈ grammars, g.FromFile)
    (hbase : ∀ g ∈ grammars, g.option? "superClass" = none)
    (hfiles : ∀ g ∈ grammars, '\n' ∉ g.file.toList)
    (hfragments : ∀ g ∈ grammars, ∀ r ∈ g.rules, r.fragment = true →
      ∀ b ∈ r.alternatives, b.commands = [])
    (hwords : a.FitsWords) (hdistinct : a.Distinct) :
    ∃ s, BundleSet.compile Compiler.units {} (unitsOf grammars a) = .ok s := by
  obtain ⟨hgoodLexers, hgoodParsers⟩ := Analysis.good_of_ofGrammars h hgrammars hbase
  obtain ⟨hlexers, hparsers⟩ := Analysis.writable_of_ofGrammars h hgrammars hfragments hwords
  have hfile {grammar : String} (hnamed : ∃ g ∈ grammars, g.name = grammar) :
      '\n' ∉ (fileOf grammars grammar).toList := by
    obtain ⟨g, hg, hgfile⟩ := exists_fileOf hnamed
    exact hgfile ▸ hfiles g hg
  obtain ⟨lexers, hlexers⟩ := exists_forall₂ fun l hl =>
    exists_declaresLexer (hlexers l hl) (hfile (hgoodLexers l hl).named.grammar)
  obtain ⟨parsers, hparsers⟩ := exists_forall₂ fun p hp =>
    exists_declaresParser (hparsers p hp) (hfile (hgoodParsers p hp).named.grammar)
  refine BundleSet.exists_compile (Analysis.front package) ?_
    (declarations_unitsOf hlexers hparsers) ?_ ?_
    (compiles_unitsOf hlexers hparsers hgoodLexers hgoodParsers hdistinct)
  · intro hnil
    obtain ⟨hlexers, hparsers⟩ := List.append_eq_nil_iff.mp (unitsOf_eq grammars a ▸ hnil)
    rcases Analysis.nonempty_of_ofGrammars h hgrammars with hne | hne
    · exact hne (List.map_eq_nil_iff.mp hlexers)
    · exact hne (List.map_eq_nil_iff.mp hparsers)
  · rw [map_name_unitsOf]
    exact hdistinct.units
  · rw [unitsOf_eq]
    refine List.forall_mem_append.mpr ⟨fun u hu => ?_, fun u hu => ?_⟩
    · obtain ⟨l, hl, rfl⟩ := List.mem_map.mp hu
      exact (hgoodLexers l hl).named.qualified
    · obtain ⟨p, hp, rfl⟩ := List.mem_map.mp hu
      exact (hgoodParsers p hp).named.qualified

/-- What generated units need besides the analysis of their grammars. -/
structure Tidy (files : List GrammarFile) (grammars : List Grammar) (a : Analysis) : Prop where
  base : ∀ g ∈ grammars, g.option? "superClass" = none
  lines : ∀ f ∈ files, '\n' ∉ f.name.toList
  fragments : ∀ g ∈ grammars, ∀ r ∈ g.rules, r.fragment = true → ∀ b ∈ r.alternatives,
    b.commands = []
  words : a.FitsWords
  distinct : a.Distinct

theorem units_of_ofFiles {files : List GrammarFile} {options : GenerationOptions}
    {g : GeneratedUnits} {warnings : List Warning} (h : ofFiles files options = .ok g)
    (hread : readFiles files = .ok (grammars, warnings))
    (ha : Analysis.ofGrammars grammars options.package = .ok a) :
    g.units = unitsOf grammars a := by
  unfold ofFiles at h
  split at h
  · cases h
  · obtain ⟨⟨grammars', warnings'⟩, hread', h⟩ := bind_eq_ok.mp h
    obtain ⟨rfl, rfl⟩ := Prod.mk.inj (Except.ok.inj (hread.symm.trans hread'))
    obtain ⟨a', ha', h⟩ := bind_eq_ok.mp h
    obtain rfl := Except.ok.inj (ha.symm.trans ha')
    dsimp only at h
    split at h
    · cases h
    · obtain rfl := Except.ok.inj h
      rfl

/-- Where warnings are no errors, units are generated from everything that can be analysed. -/
theorem exists_ofFiles {files : List GrammarFile} {options : GenerationOptions}
    {warnings : List Warning} (hne : files ≠ []) (hoptions : options.warningsAsErrors = false)
    (hread : readFiles files = .ok (grammars, warnings))
    (ha : Analysis.ofGrammars grammars options.package = .ok a) :
    ∃ g, ofFiles files options = .ok g := by
  have hfiles : files.isEmpty = false := List.isEmpty_eq_false_iff.mpr hne
  rw [ofFiles, hfiles, hread]
  simp [bind, Except.bind, pure, Except.pure, ha, hoptions]

/-! ### Sets without texts -/

/-- The forms of a unit that is laid out. -/
def formsOf (u : UnitText) : Except Sexpr.ReadError (List Sexpr) := do
  (← ({} : Sexpr.ReaderState).run u.chars).finish

theorem readAll_toString (u : UnitText) : Sexpr.readAll u.toString = formsOf u := by
  rw [Sexpr.readAll, UnitText.toString, String.toList_ofList, formsOf]

/-- What the units of an analysis declare. -/
def declarationsOf (grammars : List Grammar) (a : Analysis) : List (Except Diagnostic UnitDecl) :=
  a.lexers.map (fun l => Compiler.declarationIn l.unit
      (formsOf (UnitText.ofLexer l (fileOf grammars l.grammar)))) ++
    a.parsers.map fun p => Compiler.declarationIn p.unit
      (formsOf (UnitText.ofParser p (fileOf grammars p.grammar)))

theorem map_declaration_unitsOf (grammars : List Grammar) (a : Analysis) :
    (unitsOf grammars a).map Compiler.declaration = declarationsOf grammars a := by
  rw [unitsOf, List.map_append, List.map_map, List.map_map]
  simp only [declarationsOf, ← readAll_toString, Function.comp_def, Compiler.declaration_eq]

theorem compile_unitsOf (k : Classifier) (grammars : List Grammar) (a : Analysis) :
    BundleSet.compile Compiler.units k (unitsOf grammars a) =
      BundleSet.compile (fun _ => Compiler.outputOf (declarationsOf grammars a)) k
        (unitsOf grammars a) := by
  rw [← map_declaration_unitsOf, ← Compiler.units_eq]
  rfl

/-- Whether files are read, analysed and compiled to a set that passes a check. -/
def compilesTo (files : List GrammarFile) (check : Analysis → BundleSet → Bool) : Bool :=
  match readFiles files with
  | .error _ => false
  | .ok (grammars, _) =>
    match Analysis.ofGrammars grammars none with
    | .error _ => false
    | .ok a =>
      match BundleSet.compile (fun _ => Compiler.outputOf (declarationsOf grammars a)) {}
          (unitsOf grammars a) with
      | .error _ => false
      | .ok s => check a s

theorem exists_of_compilesTo {files : List GrammarFile} {check : Analysis → BundleSet → Bool}
    (hne : files ≠ []) (h : compilesTo files check = true) :
    ∃ g grammars warnings a s, ofFiles files {} = .ok g ∧
      readFiles files = .ok (grammars, warnings) ∧ Analysis.ofGrammars grammars none = .ok a ∧
      BundleSet.compile Compiler.units {} g.units = .ok s ∧ check a s = true := by
  cases hread : readFiles files with
  | error e => simp [compilesTo, hread] at h
  | ok found =>
      obtain ⟨grammars, warnings⟩ := found
      cases ha : Analysis.ofGrammars grammars none with
      | error e => simp [compilesTo, hread, ha] at h
      | ok a =>
          have hoptions : ({} : GenerationOptions).warningsAsErrors = false := rfl
          obtain ⟨g, hg⟩ := exists_ofFiles hne hoptions hread ha
          have hunits := units_of_ofFiles hg hread ha
          simp only [compilesTo, hread, ha, ← compile_unitsOf] at h
          rw [← hunits] at h
          cases hcompile : BundleSet.compile Compiler.units {} g.units with
          | error e => simp [hcompile] at h
          | ok s =>
              simp only [hcompile] at h
              exact ⟨g, grammars, warnings, a, s, hg, rfl, ha, hcompile, h⟩

/-- What is generated from tidy files compiles. -/
theorem units_compile {files : List GrammarFile} {options : GenerationOptions}
    {g : GeneratedUnits} {warnings : List Warning} (h : ofFiles files options = .ok g)
    (hread : readFiles files = .ok (grammars, warnings))
    (ha : Analysis.ofGrammars grammars options.package = .ok a) (htidy : Tidy files grammars a) :
    ∃ s, BundleSet.compile Compiler.units {} g.units = .ok s := by
  have hgrammars := fromFile_of_readFiles hread
  have hfiles : ∀ g ∈ grammars, '\n' ∉ g.file.toList := by
    intro g hg
    obtain ⟨f, hf, -, hname⟩ := exists_of_mem_right (forall₂_of_readFiles hread) hg
    exact hname ▸ htidy.lines f hf
  rw [units_of_ofFiles h hread ha]
  exact exists_compile_unitsOf ha hgrammars htidy.base hfiles htidy.fragments htidy.words
    htidy.distinct

/-! ## Checking -/

/-- Where every reference of a lexer leads to a rule of lower rank, none leads back. -/
theorem acyclic_of_rank {l : LexerSpec} (rank : String → Nat)
    (h : ∀ r ∈ l.rules, ∀ b ∈ r.alternatives,
      ∀ other ∈ Element.referencesOfAll b.elements, rank other < rank r.name) (name : String) :
    ¬ Relation.TransGen l.Refers name name := by
  have hstep : ∀ name other, l.Refers name other → rank other < rank name := by
    rintro _ other ⟨r, hr, rfl, b, hb, hother⟩
    exact h r hr b hb other hother
  have hchain : ∀ other, Relation.TransGen l.Refers name other → rank other < rank name := by
    intro other hpath
    induction hpath with
    | single hrefers => exact hstep _ _ hrefers
    | tail _ hrefers ih => exact Nat.lt_trans (hstep _ _ hrefers) ih
  exact fun hpath => Nat.lt_irrefl _ (hchain name hpath)

/-- Whether files are tidy, with ranks for the rules of their lexers. -/
def isTidy (rank : String → Nat) (files : List GrammarFile) (grammars : List Grammar)
    (a : Analysis) : Bool :=
  grammars.all (fun g => (g.option? "superClass").isNone) &&
  files.all (fun f => !f.name.toList.contains '\n') &&
  grammars.all (fun g => g.rules.all fun r =>
    !r.fragment || r.alternatives.all fun b => b.commands.isEmpty) &&
  a.lexers.all (fun l => decide (l.vocabulary.length < 2 ^ 31)) &&
  a.parsers.all (fun p => p.rules.all fun r => decide (r.size + 1 < 2 ^ 32)) &&
  decide (a.lexers.map LexerSpec.unit ++ a.parsers.map ParserSpec.unit).Nodup &&
  a.lexers.all (fun l => decide l.ruleNames.Nodup) &&
  a.lexers.all fun l => l.rules.all fun r => r.alternatives.all fun b =>
    (Element.referencesOfAll b.elements).all fun other => decide (rank other < rank r.name)

theorem tidy_of_isTidy {rank : String → Nat} {files : List GrammarFile}
    (h : isTidy rank files grammars a = true) : Tidy files grammars a := by
  simp only [isTidy, Bool.and_eq_true, List.all_eq_true, decide_eq_true_eq] at h
  obtain ⟨⟨⟨⟨⟨⟨⟨hbase, hlines⟩, hfragments⟩, htypes⟩, hprecedences⟩, hunits⟩, hrules⟩, hranks⟩ := h
  exact {
    base := fun g hg => Option.isNone_iff_eq_none.mp (hbase g hg)
    lines := fun f hf => by simpa using hlines f hf
    fragments := fun g hg r hr hfragment b hb => by
      have hnone := hfragments g hg r hr
      rw [hfragment, Bool.not_true, Bool.false_or, List.all_eq_true] at hnone
      exact List.isEmpty_iff.mp (hnone b hb)
    words := ⟨htypes, hprecedences⟩
    distinct := ⟨hunits, hrules, fun l hl => acyclic_of_rank rank (hranks l hl)⟩ }

/-- A lexer with modes and a fragment, and a parser over its tokens, in a package. -/
def bracketFiles : List GrammarFile :=
  [⟨"L.g4", "lexer grammar L;\nOPEN : NAME? '(' -> pushMode(INNER) ;\n" ++
      "fragment NAME : [a-z]+ ;\nmode INNER;\nCLOSE : ')' -> popMode ;\n" ++
      "DEEP : OPEN -> type(OPEN) ;\n"⟩,
    ⟨"P.g4", "parser grammar P;\noptions \x7b tokenVocab = L; \x7d\n" ++
      "s : s s | OPEN s? (CLOSE | DEEP) ;\n"⟩]

def bracketOptions : GenerationOptions := { package := some "p" }

theorem bracket_units_compile :
    ∃ g grammars warnings a, ofFiles bracketFiles bracketOptions = .ok g ∧
      readFiles bracketFiles = .ok (grammars, warnings) ∧
      Analysis.ofGrammars grammars bracketOptions.package = .ok a ∧
      Tidy bracketFiles grammars a ∧
      ∃ s, BundleSet.compile Compiler.units {} g.units = .ok s := by
  let rank (name : String) : Nat := if name = "DEEP" then 2 else if name = "OPEN" then 1 else 0
  have hcheck : (match readFiles bracketFiles with
      | .error _ => false
      | .ok (grammars, _) => (match Analysis.ofGrammars grammars bracketOptions.package with
        | .error _ => false
        | .ok a => isTidy rank bracketFiles grammars a)) = true := by
    decide +kernel
  cases hread : readFiles bracketFiles with
  | error e => simp [hread] at hcheck
  | ok found =>
      obtain ⟨grammars, warnings⟩ := found
      cases ha : Analysis.ofGrammars grammars bracketOptions.package with
      | error e => simp [hread, ha] at hcheck
      | ok a =>
          simp only [hread, ha] at hcheck
          have htidy := tidy_of_isTidy hcheck
          obtain ⟨g, hg⟩ := exists_ofFiles (List.cons_ne_nil _ _) rfl hread ha
          exact ⟨g, grammars, warnings, a, hg, rfl, ha, htidy, units_compile hg hread ha htidy⟩

end GeneratedUnits

end GrammarEngine

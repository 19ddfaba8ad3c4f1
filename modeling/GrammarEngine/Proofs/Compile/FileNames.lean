import GrammarEngine.Compile.Bundling
import GrammarEngine.Proofs.Acceptance.Generation
import GrammarEngine.Proofs.Analysis.FileNames
import GrammarEngine.Proofs.Checked

/-!
# Units of renamed files

Grammar files with the same texts give the same units under any names, apart from the comment in
front of each unit. The compiler skips this comment if it is one line, so the bundle sets differ in
the texts of their sources only. A line feed in the name of a file would end the comment early.

A bundle keeps the source that it was compiled from, and the text of the source goes no further:
artifacts are grouped in the same way, or refused for the same reason, whatever the texts are.
-/
namespace GrammarEngine

/-! ## The texts of sources -/

def UnitSource.withoutText (u : UnitSource) : UnitSource := { u with source := "" }

def Bundle.withoutText (b : Bundle) : Bundle := { b with source := b.source.withoutText }

namespace BundleSet

def withoutTexts (s : BundleSet) : BundleSet :=
  { s with bundles := s.bundles.map Bundle.withoutText }

variable (s : BundleSet) (source : UnitSource) (payload : List UInt8)

theorem bundle?_withoutTexts (name : String) :
    s.withoutTexts.bundle? name = (s.bundle? name).map Bundle.withoutText :=
  List.find?_map

theorem pushUnit_withoutTexts (u : CompiledUnit) :
    s.withoutTexts.pushUnit u = (s.pushUnit u).map (Prod.map id withoutTexts) := by
  have hunit : s.withoutTexts.hasUnit u.name = s.hasUnit u.name := rfl
  rw [pushUnit, pushUnit, hunit]
  split <;> rfl

theorem insertSorted_withoutText (b : Bundle) (bundles : List Bundle) :
    insertSorted b.withoutText (bundles.map Bundle.withoutText) =
      (insertSorted b bundles).map Bundle.withoutText := by
  induction bundles with
  | nil => rfl
  | cons c bundles ih =>
      rw [List.map_cons, insertSorted, insertSorted, ih, apply_ite (List.map Bundle.withoutText)]
      rfl

theorem give_withoutText (owner : String) (id : Nat) (b : Bundle) :
    give owner id b.withoutText = (give owner id b).withoutText := by
  have hname : b.withoutText.name = b.name := rfl
  rw [give, give, hname, apply_ite Bundle.withoutText]
  rfl

theorem insertBundle_withoutTexts :
    s.withoutTexts.insertBundle source.withoutText payload =
      (s.insertBundle source payload).map (Prod.map id withoutTexts) := by
  have hname : source.withoutText.name = source.name := rfl
  rw [insertBundle, insertBundle, hname, bundle?_withoutTexts, Option.isSome_map,
    pushUnit_withoutTexts]
  split
  · rfl
  · cases s.pushUnit ⟨source.name, payload, false⟩ with
    | error e => rfl
    | ok found =>
        refine congrArg (fun bundles => Except.ok (found.1, BundleSet.mk found.2.units bundles)) ?_
        exact insertSorted_withoutText ⟨source, found.1, []⟩ found.2.bundles

theorem addInner_withoutTexts (owner name : String) :
    s.withoutTexts.addInner owner name payload =
      (s.addInner owner name payload).map (Prod.map id withoutTexts) := by
  rw [addInner, addInner, bundle?_withoutTexts, Option.isNone_map, pushUnit_withoutTexts]
  split
  · rfl
  · cases s.pushUnit ⟨name, payload, true⟩ with
    | error e => rfl
    | ok found =>
        refine congrArg (fun bundles => Except.ok (found.1, BundleSet.mk found.2.units bundles)) ?_
        change (found.2.bundles.map _).map _ = (found.2.bundles.map _).map _
        rw [List.map_map, List.map_map]
        exact List.map_congr_left fun b _ => give_withoutText owner found.1 b

theorem addPrimaries_withoutTexts (sources : List UnitSource) (given : List Artifact) :
    addPrimaries (sources.map UnitSource.withoutText) given s.withoutTexts =
      (addPrimaries sources given s).map (Prod.map id withoutTexts) := by
  induction sources generalizing given s with
  | nil => rfl
  | cons source sources ih =>
      have hname : source.withoutText.name = source.name := rfl
      rw [List.map_cons, addPrimaries, addPrimaries, hname]
      cases takeArtifact? source.name given with
      | none => rfl
      | some found =>
          dsimp only
          rw [insertBundle_withoutTexts]
          cases s.insertBundle source found.1.payload with
          | error e => rfl
          | ok added => exact ih added.2 found.2

theorem addArtifact_withoutTexts (k : NamingScheme) (names : List String) (a : Artifact) :
    addArtifact k names s.withoutTexts a = (addArtifact k names s a).map withoutTexts := by
  rw [addArtifact, addArtifact]
  split
  · rfl
  · rw [addInner_withoutTexts]
    cases s.addInner _ a.name a.payload <;> rfl

theorem group_withoutTexts (k : NamingScheme) (sources : List UnitSource) (given : List Artifact) :
    group k (sources.map UnitSource.withoutText) given =
      (group k sources given).map withoutTexts := by
  have hnames : (sources.map UnitSource.withoutText).map UnitSource.name =
      sources.map UnitSource.name :=
    List.map_map
  have hadded := addPrimaries_withoutTexts {} sources given
  have hempty : withoutTexts {} = {} := rfl
  rw [hempty] at hadded
  rw [group, group, hnames, hadded]
  cases addPrimaries sources given {} with
  | error e => rfl
  | ok found => exact map_foldlM (fun s a => addArtifact_withoutTexts s k _ a) found.1 found.2

theorem firstRepeatedSource?_withoutText (seen : List String) (sources : List UnitSource) :
    firstRepeatedSource? seen (sources.map UnitSource.withoutText) =
      firstRepeatedSource? seen sources := by
  induction sources generalizing seen with
  | nil => rfl
  | cons source sources ih =>
      rw [List.map_cons, firstRepeatedSource?, firstRepeatedSource?, ih]
      rfl

/-- Only the compiler sees the texts: with its output at hand they are not needed. -/
theorem compile_withoutTexts (compiler : Compiler) (k : NamingScheme)
    (sources : List UnitSource) :
    compile (fun _ => compiler sources) k (sources.map UnitSource.withoutText) =
      (compile compiler k sources).map withoutTexts := by
  rw [compile, compile, List.isEmpty_map, firstRepeatedSource?_withoutText]
  split
  · rfl
  · cases firstRepeatedSource? [] sources with
    | some name => rfl
    | none =>
        dsimp only
        split
        · rfl
        · exact group_withoutTexts k sources (compiler sources).artifacts

/-- Sources that differ in their texts only and of which the compiler makes the same have the same
set, the texts in it aside. -/
theorem compile_congr {compiler : Compiler} {sources sources' : List UnitSource}
    (h : sources.map UnitSource.withoutText = sources'.map UnitSource.withoutText)
    (houtput : compiler sources = compiler sources') (k : NamingScheme) :
    (compile compiler k sources).map withoutTexts =
      (compile compiler k sources').map withoutTexts := by
  rw [← compile_withoutTexts, ← compile_withoutTexts, h, houtput]

end BundleSet

end GrammarEngine

/-! ## Files under other names -/
namespace GrammarEngine

/-! ### Comments -/

theorem UnitText.readAll_generatedFrom (u : UnitText) {file file' : String}
    (hfile : '\n' ∉ file.toList) (hfile' : '\n' ∉ file'.toList) :
    Sexpr.readAll { u with comment := generatedFrom file' }.toString =
      Sexpr.readAll { u with comment := generatedFrom file }.toString :=
  readAll_withComment { u with comment := generatedFrom file } (not_mem_generatedFrom hfile)
    (not_mem_generatedFrom hfile')

namespace Compiler

/-- Of the text of a unit only its forms are looked at. -/
theorem declaration_congr {u u' : UnitSource} (hname : u.name = u'.name)
    (hread : Sexpr.readAll u.source = Sexpr.readAll u'.source) :
    declaration u = declaration u' := by
  rw [declaration, declaration, UnitDecl.read, UnitDecl.read, hname, hread]

theorem units_congr {sources sources' : List UnitSource}
    (h : sources.map declaration = sources'.map declaration) : units sources = units sources' := by
  rw [units, units, h]

end Compiler

namespace GeneratedUnits

variable {files files' : List GrammarFile} {grammars grammars' : List Grammar} {a a' : Analysis}

/-! ### Files of grammars -/

theorem fileOf_of_not_mem {name : String} (h : name ∉ grammars.map Grammar.name) :
    fileOf grammars name = name := by
  have hnone : (grammars.find? fun g => g.name == name) = none := by
    rw [List.find?_eq_none]
    intro g hg heq
    exact h (beq_iff_eq.mp heq ▸ List.mem_map_of_mem hg)
  rw [fileOf, hnone]

/-- The grammars of a name have files in both lists or in neither. -/
theorem fileOf_cases (h : grammars.map Grammar.unnamed = grammars'.map Grammar.unnamed)
    (name : String) : fileOf grammars name = fileOf grammars' name ∨
      (∃ g ∈ grammars, fileOf grammars name = g.file) ∧
        ∃ g ∈ grammars', fileOf grammars' name = g.file := by
  have hnames := congrArg (List.map Grammar.name) h
  rw [List.map_map, List.map_map] at hnames
  by_cases hname : name ∈ grammars.map Grammar.name
  · have hname' : name ∈ grammars'.map Grammar.name := hnames ▸ hname
    exact .inr ⟨exists_fileOf (List.mem_map.mp hname), exists_fileOf (List.mem_map.mp hname')⟩
  · have hname' : name ∉ grammars'.map Grammar.name := fun hmem => hname (hnames ▸ hmem)
    exact .inl ((fileOf_of_not_mem hname).trans (fileOf_of_not_mem hname').symm)

section Units

variable (hgrammars : grammars.map Grammar.unnamed = grammars'.map Grammar.unnamed)
  (hlines : ∀ g ∈ grammars, '\n' ∉ g.file.toList) (hlines' : ∀ g ∈ grammars', '\n' ∉ g.file.toList)

include hgrammars hlines hlines'

/-- A unit reads the same with the file of either list in its comment. -/
theorem readAll_fileOf (u : UnitText) (name : String) :
    Sexpr.readAll { u with comment := UnitText.generatedFrom (fileOf grammars name) }.toString =
      Sexpr.readAll
        { u with comment := UnitText.generatedFrom (fileOf grammars' name) }.toString := by
  rcases fileOf_cases hgrammars name with hsame | ⟨⟨g, hg, hfile⟩, g', hg', hfile'⟩
  · rw [hsame]
  · rw [hfile, hfile']
    exact UnitText.readAll_generatedFrom u (hlines' g' hg') (hlines g hg)

theorem declaration_lexerUnit (l : LexerSpec) :
    Compiler.declaration (lexerUnit grammars l) = Compiler.declaration (lexerUnit grammars' l) :=
  Compiler.declaration_congr rfl
    (readAll_fileOf hgrammars hlines hlines' (UnitText.ofLexer l "") l.grammar)

theorem declaration_parserUnit (p : ParserSpec) :
    Compiler.declaration (parserUnit grammars p) = Compiler.declaration (parserUnit grammars' p) :=
  Compiler.declaration_congr rfl
    (readAll_fileOf hgrammars hlines hlines' (UnitText.ofParser p "") p.grammar)

end Units

/-- Two lists of units are alike if the units of each lexer and each parser are. -/
theorem map_unitsOf_eq {β : Type} {f : UnitSource → β} (hlexers : a.lexers = a'.lexers)
    (hparsers : a.parsers = a'.parsers)
    (hlexer : ∀ l, f (lexerUnit grammars l) = f (lexerUnit grammars' l))
    (hparser : ∀ p, f (parserUnit grammars p) = f (parserUnit grammars' p)) :
    (unitsOf grammars a).map f = (unitsOf grammars' a').map f := by
  rw [unitsOf_eq, unitsOf_eq, ← hlexers, ← hparsers, List.map_append, List.map_append, List.map_map,
    List.map_map, List.map_map, List.map_map]
  exact congrArg₂ (· ++ ·) (List.map_congr_left fun l _ => hlexer l)
    (List.map_congr_left fun p _ => hparser p)

theorem withoutText_lexerUnit (grammars : List Grammar) (l : LexerSpec) :
    (lexerUnit grammars l).withoutText = ⟨l.unit, "", .generated⟩ := rfl

theorem withoutText_parserUnit (grammars : List Grammar) (p : ParserSpec) :
    (parserUnit grammars p).withoutText = ⟨p.unit, "", .generated⟩ := rfl

theorem withoutText_unitsOf (hlexers : a.lexers = a'.lexers) (hparsers : a.parsers = a'.parsers) :
    (unitsOf grammars a).map UnitSource.withoutText =
      (unitsOf grammars' a').map UnitSource.withoutText :=
  map_unitsOf_eq hlexers hparsers
    (fun l => by rw [withoutText_lexerUnit, withoutText_lexerUnit])
    fun p => by rw [withoutText_parserUnit, withoutText_parserUnit]

/-! ### Generated units -/

/-- Generated units that differ in the texts of the units and of the warnings at most. -/
structure SameApartTexts (g g' : GeneratedUnits) : Prop where
  grammarName : g.grammarName = g'.grammarName
  lexer : g.lexer = g'.lexer
  parser : g.parser = g'.parser
  units : g.units.map UnitSource.withoutText = g'.units.map UnitSource.withoutText
  warnings : g.warnings.length = g'.warnings.length

/-- The units of analysed grammars, if the warnings are none or are let pass. -/
def written (options : GenerationOptions) (r : List Grammar × List Warning) (a : Analysis) :
    Except GenerationError GeneratedUnits :=
  let warnings := (r.2 ++ a.warnings).map Warning.message
  if options.warningsAsErrors && !warnings.isEmpty then .error (.warningsAsErrors warnings)
  else .ok ⟨a.grammarName, unitsOf r.1 a, defaultLexer a, a.parsers.head?.map ParserSpec.unit,
    warnings⟩

theorem ofFiles_eq (hne : files ≠ []) (options : GenerationOptions) :
    ofFiles files options = readFiles files >>= fun r =>
      Analysis.ofGrammars r.1 options.package >>= written options r := by
  rw [ofFiles, List.isEmpty_eq_false_iff.mpr hne]
  rfl

/-- Grammars and warnings that were read from files of other names. -/
structure Reread (files files' : List GrammarFile) (r r' : List Grammar × List Warning) : Prop where
  grammars : r.1.map Grammar.unnamed = r'.1.map Grammar.unnamed
  warnings : r.2.map Warning.unnamed = r'.2.map Warning.unnamed
  files : ∀ g ∈ r.1, ∃ f ∈ files, g.file = f.name
  files' : ∀ g ∈ r'.1, ∃ f ∈ files', g.file = f.name

theorem agree_readFiles (h : files.map GrammarFile.text = files'.map GrammarFile.text) :
    Agree (Reread files files') (readFiles files) (readFiles files') := by
  have hunnamed : files.map GrammarFile.unnamed = files'.map GrammarFile.unnamed := by
    have htexts := congrArg (List.map (GrammarFile.mk "")) h
    rwa [List.map_map, List.map_map] at htexts
  have hfile : ∀ {fs : List GrammarFile} {r : List Grammar × List Warning},
      readFiles fs = .ok r → ∀ g ∈ r.1, ∃ f ∈ fs, g.file = f.name := by
    intro fs r hread g hg
    obtain ⟨f, hf, -, hname⟩ := exists_of_mem_right (forall₂_of_readFiles hread) hg
    exact ⟨f, hf, hname⟩
  have houtcome := (readFiles_unnamed files).trans (hunnamed ▸ (readFiles_unnamed files').symm)
  refine (agree_of_outcome_eq houtcome).mono fun r r' ⟨hread, hread', hsame⟩ => ?_
  exact ⟨congrArg Prod.fst hsame, congrArg Prod.snd hsame, hfile hread, hfile hread'⟩

theorem agree_ofGrammars (h : grammars.map Grammar.unnamed = grammars'.map Grammar.unnamed)
    (package : Option String) :
    Agree (fun a a' => a.unnamed = a'.unnamed) (Analysis.ofGrammars grammars package)
      (Analysis.ofGrammars grammars' package) := by
  have houtcome := (Analysis.ofGrammars_unnamed grammars package).trans
    (h ▸ (Analysis.ofGrammars_unnamed grammars' package).symm)
  exact (agree_of_outcome_eq houtcome).mono fun a a' hsame => hsame.2.2

/-- Both lists of units are refused for the same reason, or both give sets of the same units in the
same bundles, the texts of the sources aside. -/
def CompileAlike (k : NamingScheme) (units units' : List UnitSource) : Prop :=
  (∃ e, BundleSet.compile Compiler.units k units = .error e ∧
    BundleSet.compile Compiler.units k units' = .error e) ∨
  ∃ s s', BundleSet.compile Compiler.units k units = .ok s ∧
    BundleSet.compile Compiler.units k units' = .ok s' ∧ s.units = s'.units ∧
    s.bundles.map Bundle.withoutText = s'.bundles.map Bundle.withoutText

theorem compileAlike_of_declarations {units units' : List UnitSource}
    (htexts : units.map UnitSource.withoutText = units'.map UnitSource.withoutText)
    (hdeclarations : units.map Compiler.declaration = units'.map Compiler.declaration)
    (k : NamingScheme) : CompileAlike k units units' := by
  have hsame := BundleSet.compile_congr htexts (Compiler.units_congr hdeclarations) k
  refine (map_eq_map_cases hsame).imp_right fun ⟨s, s', h, h', hsets⟩ => ?_
  obtain ⟨hunits, hbundles⟩ := BundleSet.mk.inj hsets
  exact ⟨s, s', h, h', hunits, hbundles⟩

/-- The texts of alike units may differ, but they compile alike where no name of a file has a line
feed. -/
def WrittenAlike (files files' : List GrammarFile) (g g' : GeneratedUnits) : Prop :=
  g.SameApartTexts g' ∧
    ((∀ f ∈ files ++ files', '\n' ∉ f.name.toList) → ∀ k, CompileAlike k g.units g'.units)

theorem agree_written {r r' : List Grammar × List Warning} (hread : Reread files files' r r')
    (hanalysed : a.unnamed = a'.unnamed) (options : GenerationOptions) :
    Agree (WrittenAlike files files') (written options r a) (written options r' a') := by
  obtain ⟨hname, hlexers, hparsers, hwarnings⟩ := Analysis.mk.inj hanalysed
  have hmessages : ((r.2 ++ a.warnings).map Warning.message).length =
      ((r'.2 ++ a'.warnings).map Warning.message).length := by
    have hall := congrArg List.length (congrArg₂ (· ++ ·) hread.warnings hwarnings)
    simpa using hall
  have hempty : ((r.2 ++ a.warnings).map Warning.message).isEmpty =
      ((r'.2 ++ a'.warnings).map Warning.message).isEmpty := by
    rw [Bool.eq_iff_iff, List.isEmpty_iff_length_eq_zero, List.isEmpty_iff_length_eq_zero,
      hmessages]
  have htexts : (unitsOf r.1 a).map UnitSource.withoutText =
      (unitsOf r'.1 a').map UnitSource.withoutText :=
    withoutText_unitsOf hlexers hparsers
  unfold written
  dsimp only
  rw [hempty]
  split
  · refine .inl ⟨_, _, rfl, rfl, ?_⟩
    simp only [GenerationError.unnamed, List.map_const', hmessages]
  · refine .inr ⟨_, _, rfl, rfl, ⟨hname, ?_, ?_, htexts, hmessages⟩, fun hlines k => ?_⟩
    · rw [defaultLexer, defaultLexer, hlexers, hparsers]
    · rw [hparsers]
    · refine compileAlike_of_declarations htexts ?_ k
      have hfirst : ∀ g ∈ r.1, '\n' ∉ g.file.toList := by
        intro g hg
        obtain ⟨f, hf, hfile⟩ := hread.files g hg
        exact hfile ▸ hlines f (List.mem_append_left _ hf)
      have hsecond : ∀ g ∈ r'.1, '\n' ∉ g.file.toList := by
        intro g hg
        obtain ⟨f, hf, hfile⟩ := hread.files' g hg
        exact hfile ▸ hlines f (List.mem_append_right _ hf)
      exact map_unitsOf_eq hlexers hparsers
        (declaration_lexerUnit hread.grammars hfirst hsecond)
        (declaration_parserUnit hread.grammars hfirst hsecond)

/-- The names of the files decide neither whether units are generated nor which. If no name has a
line feed, what is compiled of the units does not depend on them either. -/
theorem ofFiles_renamed (htexts : files.map GrammarFile.text = files'.map GrammarFile.text)
    (options : GenerationOptions) :
    (∃ e e', ofFiles files options = .error e ∧ ofFiles files' options = .error e' ∧
      e.unnamed = e'.unnamed) ∨
    ∃ g g', ofFiles files options = .ok g ∧ ofFiles files' options = .ok g' ∧
      g.SameApartTexts g' ∧
      ((∀ f ∈ files ++ files', '\n' ∉ f.name.toList) → ∀ k, CompileAlike k g.units g'.units) := by
  change Agree (WrittenAlike files files') _ _
  cases files with
  | nil =>
      obtain rfl := List.map_eq_nil_iff.mp htexts.symm
      exact .inl ⟨_, _, rfl, rfl, rfl⟩
  | cons f rest =>
      have hne : files' ≠ [] := by
        rintro rfl
        cases htexts
      rw [ofFiles_eq (List.cons_ne_nil f rest), ofFiles_eq hne]
      refine (agree_readFiles htexts).bind fun r r' hread => ?_
      exact (agree_ofGrammars hread.grammars options.package).bind fun a a' hanalysed =>
        agree_written hread hanalysed options

def letterText : String := "lexer grammar L;\nA : 'a' ;\n"

/-- A grammar in two files, of which one has blanks and a semicolon in its name. -/
theorem letter_renamed : ∃ g g' s s', ofFiles [⟨"L.g4", letterText⟩] {} = .ok g ∧
    ofFiles [⟨"old; copy of L", letterText⟩] {} = .ok g' ∧ g.SameApartTexts g' ∧
    BundleSet.compile Compiler.units {} g.units = .ok s ∧
    BundleSet.compile Compiler.units {} g'.units = .ok s' ∧ s.units = s'.units ∧
    s.bundles.map Bundle.withoutText = s'.bundles.map Bundle.withoutText := by
  have hcheck : compilesTo [⟨"L.g4", letterText⟩] (fun _ _ => true) = true := by
    decide +kernel
  obtain ⟨g, grammars, warnings, a, s, h, -, -, hs, -⟩ :=
    exists_of_compilesTo (List.cons_ne_nil _ _) hcheck
  have htexts : [(⟨"L.g4", letterText⟩ : GrammarFile)].map GrammarFile.text =
      [(⟨"old; copy of L", letterText⟩ : GrammarFile)].map GrammarFile.text := rfl
  rcases ofFiles_renamed htexts {} with ⟨e, e', herror, -⟩ | ⟨g₀, g', h₀, h', hsame, halike⟩
  · rw [h] at herror
    cases herror
  · obtain rfl := Except.ok.inj (h.symm.trans h₀)
    rcases halike (by decide) {} with ⟨e, herror, -⟩ | ⟨s₀, s', hs₀, hs', hunits, hbundles⟩
    · rw [hs] at herror
      cases herror
    · exact ⟨g, g', s₀, s', h, h', hsame, hs₀, hs', hunits, hbundles⟩

end GeneratedUnits

end GrammarEngine

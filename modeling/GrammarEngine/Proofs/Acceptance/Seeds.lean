import GrammarEngine.Proofs.Acceptance.Generation
import GrammarEngine.Proofs.Parser.Seeds
import GrammarEngine.Proofs.Recognizer.Linked

/-!
# Generated parsers find no failure seed

The analysis refuses rules that lead back to themselves, so far as it explores them, and the program
that is loaded for a parser leads to no more rules than these do. What the analysis leaves out are
the suffixes behind a primary that can match nothing; where these move on, no call of a loaded
parser finds the failure seed of an unfinished one.
-/
namespace GrammarEngine

namespace LeftRecursion

/-- Whether no suffix behind a primary that can match nothing refers to a rule at its own place. -/
def movesOn (specs : List ParserRuleSpec) : Bool :=
  let empty := nullableRules specs
  specs.all fun
    | .plain _ _ => true
    | .leftRecursive _ primaries suffixes =>
      !nullableAny empty primaries || suffixes.all fun s => (edgeOfAll empty s.elements).isEmpty

theorem suffixesMoveOn_of_movesOn {specs : List ParserRuleSpec} (h : movesOn specs = true) :
    SuffixesMoveOn specs := by
  rintro name other ⟨primaries, suffixes, hspec, hnull, s, hs, hother⟩
  have hmoves := List.all_eq_true.mp h _ hspec
  dsimp only at hmoves
  rw [hnull, Bool.not_true, Bool.false_or, List.all_eq_true] at hmoves
  rw [List.isEmpty_iff.mp (hmoves s hs)] at hother
  exact absurd hother List.not_mem_nil

end LeftRecursion

namespace GeneratedUnits

variable {files : List GrammarFile} {options : GenerationOptions} {grammars : List Grammar}
  {warnings : List Warning} {a : Analysis} {q : ParserSpec}

/-- The unit of an analysed parser declares that parser. -/
theorem declares_of_mem_parsers (hread : readFiles files = .ok (grammars, warnings))
    (ha : Analysis.ofGrammars grammars options.package = .ok a) (hq : q ∈ a.parsers)
    (hlines : ∀ f ∈ files, '\n' ∉ f.name.toList) (hwords : ∀ r ∈ q.rules, r.size + 1 < 2 ^ 32) :
    ∃ d, DeclaresParser grammars q d := by
  obtain ⟨g₀, hg₀, g, _, _, _, _, _, hname, hbuilt⟩ :=
    Analysis.exists_builtParser ha (fromFile_of_readFiles hread) q hq
  refine exists_declaresParser (fun r hr => ?_) ?_
  · obtain ⟨_, -, -, hsound⟩ := exists_of_mem_right hbuilt.rules hr
    exact hsound.writable (hwords r hr)
  · obtain ⟨g₁, hg₁, hfile⟩ := exists_fileOf ⟨g₀, hg₀, hname.symm.trans hbuilt.grammar.symm⟩
    obtain ⟨f, hf, -, hfname⟩ := exists_of_mem_right (forall₂_of_readFiles hread) hg₁
    rw [hfile, hfname]
    exact hlines f hf

/-- The program that is loaded for an analysed parser is taken over from what its unit declares. -/
theorem loadedFrom_of_parser? {g : GeneratedUnits} {k : Classifier} {s : BundleSet}
    {r : Recognizer} {p : ParserProgram} {d : ParserDecl} (h : ofFiles files options = .ok g)
    (hread : readFiles files = .ok (grammars, warnings))
    (ha : Analysis.ofGrammars grammars options.package = .ok a)
    (hcompile : BundleSet.compile Compiler.units k g.units = .ok s) (hs : s.Representable)
    (hload : Recognizer.load s = .ok r) (hq : q ∈ a.parsers) (hd : DeclaresParser grammars q d)
    (hp : r.parser? q.unit = some p) : ∃ index, ParserProgram.LoadedFrom index d p := by
  obtain ⟨index, hdeclared, hnodup, hparsers⟩ := Recognizer.exists_loadedFrom hcompile hs hload
  obtain ⟨d', hd', hfrom⟩ := hparsers p (List.mem_of_find?_eq_some hp)
  have hunit : p.name = q.unit := by simpa using List.find?_some hp
  have hmem : parserUnit grammars q ∈ g.units := by
    rw [units_of_ofFiles h hread ha, unitsOf_eq]
    exact List.mem_append_right _ (List.mem_map_of_mem hq)
  obtain ⟨found, hfound, hdecl⟩ := exists_of_mem_right hdeclared.flip hmem
  obtain rfl := Except.ok.inj (hd.2.symm.trans hdecl)
  have hname : (UnitDecl.parser d').name = (UnitDecl.parser d).name :=
    (hfrom.name.symm.trans hunit).trans (Compiler.declaration_cases hd.2).2.symm
  obtain rfl := UnitDecl.parser.inj (List.inj_on_of_nodup_map hnodup hd' hfound hname)
  exact ⟨index, hfrom⟩

/-- No call of a parser that was generated, compiled and loaded finds the failure seed of an
unfinished invocation, if no suffix behind an empty primary leads back to its rule. -/
theorem findsNoSeed_of_loaded {g : GeneratedUnits} {k : Classifier} {s : BundleSet}
    {r : Recognizer} {p : ParserProgram} (h : ofFiles files options = .ok g)
    (hread : readFiles files = .ok (grammars, warnings))
    (ha : Analysis.ofGrammars grammars options.package = .ok a)
    (hcompile : BundleSet.compile Compiler.units k g.units = .ok s) (hs : s.Representable)
    (hload : Recognizer.load s = .ok r) (hq : q ∈ a.parsers) (hp : r.parser? q.unit = some p)
    (hbase : q.extends = none) (hlines : ∀ f ∈ files, '\n' ∉ f.name.toList)
    (hwords : ∀ r ∈ q.rules, r.size + 1 < 2 ^ 32)
    (hsuffixes : LeftRecursion.SuffixesMoveOn q.rules) (input : Array Token) (depth : Nat)
    (i : Invocation) : Parser.FindsNoSeed p.bodies input depth i := by
  obtain ⟨d, hd⟩ := declares_of_mem_parsers hread ha hq hlines hwords
  obtain ⟨index, hfrom⟩ := loadedFrom_of_parser? h hread ha hcompile hs hload hq hd hp
  obtain ⟨_, -, _, _, _, _, _, _, -, hbuilt⟩ :=
    Analysis.exists_builtParser ha (fromFile_of_readFiles hread) q hq
  have hnames : (q.rules.map ParserRuleSpec.name).Nodup := by
    have hdistinct := nodup_of_checkDuplicates hbuilt.distinct
    rwa [← hbuilt.ruleNames_eq] at hdistinct
  have hguarded : Parser.Guarded p.bodies :=
    (hfrom.bounded hd.1 hbase).guarded hnames hbuilt.acyclic hsuffixes
  exact hguarded.findsNoSeed input depth i

/-- A rule with a primary that matches nothing and a suffix that moves on. -/
def emptySumFiles : List GrammarFile := [⟨"G.g4", "grammar G; e : e '+' | ;"⟩]

/-- Whether the parsers of an analysis extend nothing, are small enough and move on. -/
def hasMovingParsers (a : Analysis) : Bool :=
  a.parsers.any fun q => q.extends.isNone && LeftRecursion.movesOn q.rules &&
    q.rules.all fun r => decide (r.size + 1 < 2 ^ 32)

/-- Whether a set can be represented and loaded with the parsers of an analysis. -/
def loadsParsers (a : Analysis) (s : BundleSet) : Bool :=
  Recognizer.isRepresentable s &&
    match Recognizer.load s with
    | .error _ => false
    | .ok r => a.parsers.all fun q => (r.parser? q.unit).isSome

theorem emptySum_findsNoSeed :
    ∃ g grammars warnings a s r q p, ofFiles emptySumFiles {} = .ok g ∧
      readFiles emptySumFiles = .ok (grammars, warnings) ∧
      Analysis.ofGrammars grammars none = .ok a ∧
      BundleSet.compile Compiler.units {} g.units = .ok s ∧ s.Representable ∧
      Recognizer.load s = .ok r ∧ q ∈ a.parsers ∧ r.parser? q.unit = some p ∧
      q.extends = none ∧ (∀ f ∈ emptySumFiles, '\n' ∉ f.name.toList) ∧
      (∀ r ∈ q.rules, r.size + 1 < 2 ^ 32) ∧ LeftRecursion.SuffixesMoveOn q.rules ∧
      ∀ input depth i, Parser.FindsNoSeed p.bodies input depth i := by
  have hcheck : compilesTo emptySumFiles (fun a s => hasMovingParsers a && loadsParsers a s) =
      true := by
    decide +kernel
  obtain ⟨g, grammars, warnings, a, s, hg, hread, ha, hcompile, hcheck⟩ :=
    exists_of_compilesTo (List.cons_ne_nil _ _) hcheck
  simp only [Bool.and_eq_true, loadsParsers] at hcheck
  obtain ⟨hmoving, hrepresentable, hloads⟩ := hcheck
  cases hload : Recognizer.load s with
  | error e => simp [hload] at hloads
  | ok r =>
      simp only [hload, List.all_eq_true] at hloads
      obtain ⟨q, hq, hmoves⟩ := List.any_eq_true.mp hmoving
      simp only [Bool.and_eq_true, List.all_eq_true, decide_eq_true_eq,
        Option.isNone_iff_eq_none] at hmoves
      obtain ⟨⟨hbase, hmoves⟩, hwords⟩ := hmoves
      obtain ⟨p, hp⟩ := Option.isSome_iff_exists.mp (hloads q hq)
      have hs := Recognizer.representable_of_isRepresentable hrepresentable
      have hsuffixes := LeftRecursion.suffixesMoveOn_of_movesOn hmoves
      have hlines : ∀ f ∈ emptySumFiles, '\n' ∉ f.name.toList := by decide
      exact ⟨g, grammars, warnings, a, s, r, q, p, hg, hread, ha, hcompile, hs, hload, hq, hp,
        hbase, hlines, hwords, hsuffixes, findsNoSeed_of_loaded hg hread ha hcompile hs hload hq hp
          hbase hlines hwords hsuffixes⟩

end GeneratedUnits

end GrammarEngine

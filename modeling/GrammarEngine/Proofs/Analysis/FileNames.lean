import GrammarEngine.Generation
import GrammarEngine.Proofs.Grammar.Read

/-!
# The names of grammar files

The name of a file is copied into messages and into the comment of the generated units, and nothing
else looks at it. So reading and analysing commute with forgetting names: what is made of grammars
without the names of their files is what is made of the grammars, without the names in it.
-/
namespace GrammarEngine

def Grammar.unnamed (g : Grammar) : Grammar := { g with file := "" }

namespace Grammar

variable (g : Grammar)

@[simp] theorem unnamed_tokens : g.unnamed.tokens = g.tokens := rfl

@[simp] theorem unnamed_channels : g.unnamed.channels = g.channels := rfl

@[simp] theorem unnamed_modes : g.unnamed.modes = g.modes := rfl

@[simp] theorem unnamed_rules : g.unnamed.rules = g.rules := rfl

@[simp] theorem unnamed_kind : g.unnamed.kind = g.kind := rfl

@[simp] theorem unnamed_option? (key : String) : g.unnamed.option? key = g.option? key := rfl

end Grammar

def Warning.unnamed : Warning → Warning
  | .located _ p notice => .located "" p notice
  | .noParser grammar => .noParser grammar

/-- Of warnings that became an error only the number is kept, as their texts start with names. -/
def GenerationError.unnamed : GenerationError → GenerationError
  | .syntaxError _ p fault => .syntaxError "" p fault
  | .rule _ p name fault => .rule "" p name fault
  | .warningsAsErrors warnings => .warningsAsErrors (warnings.map fun _ => "")
  | e => e

/-! ## Outcomes -/

section Outcomes

variable {α α' β β' : Type}

/-- The outcome of a computation without the names of files. -/
def outcome (f : α → β) : Except GenerationError α → Except GenerationError β
  | .ok a => .ok (f a)
  | .error e => .error e.unnamed

theorem outcome_bind {x : Except GenerationError α} {x' : Except GenerationError α'}
    {k : α → Except GenerationError β} {k' : α' → Except GenerationError β'} {f : α → α'}
    {g : β → β'} (hx : outcome f x = x') (hk : ∀ a, outcome g (k a) = k' (f a)) :
    outcome g (x >>= k) = x' >>= k' := by
  subst hx
  cases x with
  | ok a => exact hk a
  | error e => rfl

theorem outcome_ite {c : Prop} [Decidable c] {x y : Except GenerationError α}
    {x' y' : Except GenerationError β} {f : α → β} (hx : outcome f x = x')
    (hy : outcome f y = y') : outcome f (if c then x else y) = if c then x' else y' := by
  split
  · exact hx
  · exact hy

theorem outcome_map {x : Except GenerationError α} {x' : Except GenerationError α'} {k : α → β}
    {k' : α' → β'} {f : α → α'} {g : β → β'} (hx : outcome f x = x')
    (hk : ∀ a, g (k a) = k' (f a)) : outcome g (x.map k) = x'.map k' := by
  subst hx
  cases x with
  | ok a => exact congrArg Except.ok (hk a)
  | error e => rfl

theorem outcome_mapM {k : α → Except GenerationError β} {k' : α' → Except GenerationError β'}
    {f : α → α'} {g : β → β'} (h : ∀ a, outcome g (k a) = k' (f a)) (xs : List α) :
    outcome (List.map g) (xs.mapM k) = (xs.map f).mapM k' := by
  induction xs with
  | nil => rfl
  | cons x xs ih =>
      rw [List.map_cons, List.mapM_cons, List.mapM_cons]
      exact outcome_bind (h x) fun b => outcome_bind ih fun bs => rfl

theorem outcome_mapM_id {k k' : α → Except GenerationError β} (h : ∀ a, outcome id (k a) = k' a)
    (xs : List α) : outcome id (xs.mapM k) = xs.mapM k' := by
  simpa using outcome_mapM (f := id) (g := id) h xs

theorem outcome_foldlM {k : β → α → Except GenerationError β}
    {k' : β' → α' → Except GenerationError β'} {f : α → α'} {g : β → β'}
    (h : ∀ b a, outcome g (k b a) = k' (g b) (f a)) (xs : List α) (b : β) :
    outcome g (xs.foldlM k b) = (xs.map f).foldlM k' (g b) := by
  induction xs generalizing b with
  | nil => rfl
  | cons x xs ih =>
      rw [List.map_cons, List.foldlM_cons, List.foldlM_cons]
      exact outcome_bind (h b x) ih

theorem outcome_foldlM_id {k : β → α → Except GenerationError β}
    {k' : β' → α → Except GenerationError β'} {g : β → β'}
    (h : ∀ b a, outcome g (k b a) = k' (g b) a) (xs : List α) (b : β) :
    outcome g (xs.foldlM k b) = xs.foldlM k' (g b) := by
  simpa using outcome_foldlM (f := id) h xs b

/-- Both computations give values that are related, or both are refused for the same reason. -/
def Agree (R : α → β → Prop) (x : Except GenerationError α) (y : Except GenerationError β) : Prop :=
  (∃ e e', x = .error e ∧ y = .error e' ∧ e.unnamed = e'.unnamed) ∨
    ∃ a b, x = .ok a ∧ y = .ok b ∧ R a b

theorem agree_of_outcome_eq {x : Except GenerationError α} {y : Except GenerationError α'}
    {f : α → β} {f' : α' → β} (h : outcome f x = outcome f' y) :
    Agree (fun a b => x = .ok a ∧ y = .ok b ∧ f a = f' b) x y := by
  cases x with
  | error e =>
      cases y with
      | error e' => exact .inl ⟨e, e', rfl, rfl, Except.error.inj h⟩
      | ok b => cases h
  | ok a =>
      cases y with
      | error e' => cases h
      | ok b => exact .inr ⟨a, b, rfl, rfl, rfl, rfl, Except.ok.inj h⟩

theorem Agree.mono {R S : α → β → Prop} {x : Except GenerationError α}
    {y : Except GenerationError β} (h : Agree R x y) (hRS : ∀ a b, R a b → S a b) :
    Agree S x y :=
  h.imp_right fun ⟨a, b, hx, hy, hab⟩ => ⟨a, b, hx, hy, hRS a b hab⟩

theorem Agree.bind {R : α → β → Prop} {S : α' → β' → Prop} {x : Except GenerationError α}
    {y : Except GenerationError β} {k : α → Except GenerationError α'}
    {k' : β → Except GenerationError β'} (h : Agree R x y)
    (hk : ∀ a b, R a b → Agree S (k a) (k' b)) : Agree S (x >>= k) (y >>= k') := by
  rcases h with ⟨e, e', rfl, rfl, he⟩ | ⟨a, b, rfl, rfl, hab⟩
  · exact .inl ⟨e, e', rfl, rfl, he⟩
  · exact hk a b hab

end Outcomes

/-! ## Reading -/

namespace Reading

theorem Effect.unnamed {f : Grammar → Grammar} (h : Effect f) (g : Grammar) :
    (f g).unnamed = f g.unnamed := by
  cases h <;> rfl

theorem unnamed_foldl {fs : List (Grammar → Grammar)} (h : ∀ f ∈ fs, Effect f) (g : Grammar) :
    (fs.foldl (fun g f => f g) g).unnamed = fs.foldl (fun g f => f g) g.unnamed := by
  induction fs generalizing g with
  | nil => rfl
  | cons f fs ih =>
      rw [List.foldl_cons, List.foldl_cons, ih fun f' hf' => h f' (List.mem_cons_of_mem f hf'),
        (h f List.mem_cons_self).unnamed]

theorem body_unnamed (kind : GrammarKind) (bound : Nat) (mode : String) (g : Grammar) :
    Grammar.unnamed <$> body kind bound mode g = body kind bound mode g.unnamed := by
  induction bound generalizing mode g with
  | zero => rfl
  | succ bound ih =>
      simp only [body, map_bind]
      refine congrArg _ (funext fun found => ?_)
      split
      · rfl
      · simp only [map_bind]
        refine congrArg _ (funext fun taken => ?_)
        cases taken with
        | true =>
          simp only [if_true, map_bind, ih]
          rfl
        | false =>
          simp only [Bool.false_eq_true, if_false, map_bind, ih]
          rfl

theorem grammar_unnamed (file : String) (s : State) (hs : Spelled s) :
    (grammar "").run s = (fun r => (r.1.unnamed, r.2)) <$> (grammar file).run s := by
  rw [← StateT.run_map]
  symm
  simp only [grammar, map_bind, body_unnamed]
  refine grammarKind_passes.bind_congr (fun kind _ => ?_) s hs
  refine (expect_yields _).bind_congr fun _ _ => (name_yields _).bind_congr fun name _ => ?_
  refine (expectSign_yields _).bind_congr fun _ _ => ?_
  refine (many_yields declaration_effects).bind_congr fun declarations heffects t _ => ?_
  rw [unnamed_foldl heffects]
  rfl

end Reading

theorem Grammar.read_unnamed (file text : String) :
    outcome (Prod.map Grammar.unnamed (List.map Warning.unnamed)) (Grammar.read file text) =
      Grammar.read "" text := by
  unfold Grammar.read
  cases hscan : Lexeme.scan text with
  | error e => rfl
  | ok lexemes =>
      have hspelled : Lexeme.scanFrom {} text.toList = .ok lexemes := hscan
      dsimp only
      rw [Reading.grammar_unnamed file _ (Lexeme.scanFrom_spelled hspelled)]
      cases (Reading.grammar file).run _ with
      | error fault => rfl
      | ok found =>
          refine congrArg (fun warnings => Except.ok (found.1.unnamed, warnings)) ?_
          rw [List.map_map]
          rfl

def GrammarFile.unnamed (f : GrammarFile) : GrammarFile := { f with name := "" }

theorem GeneratedUnits.readFiles_unnamed (files : List GrammarFile) :
    outcome (Prod.map (List.map Grammar.unnamed) (List.map Warning.unnamed)) (readFiles files) =
      readFiles (files.map GrammarFile.unnamed) := by
  induction files with
  | nil => rfl
  | cons f files ih =>
      rw [List.map_cons, readFiles, readFiles]
      refine outcome_bind (Grammar.read_unnamed f.name f.text) fun _ => outcome_bind ih fun _ => ?_
      simp [outcome, pure, Except.pure]

/-! ## Imports -/

namespace Imports

theorem find?_unnamed (all : List Grammar) (name : String) :
    find? (all.map Grammar.unnamed) name = (find? all name).map Grammar.unnamed :=
  List.find?_map

theorem merge_unnamed (all : List Grammar) (bound : Nat) (chain : List String) (g : Grammar) :
    outcome Grammar.unnamed (merge all bound chain g) =
      merge (all.map Grammar.unnamed) bound chain g.unnamed := by
  induction bound generalizing chain g with
  | zero => rfl
  | succ bound ih =>
      rw [merge, merge]
      refine outcome_ite rfl ?_
      refine outcome_foldlM_id (fun merged name => ?_) g.imports g
      rw [find?_unnamed]
      cases find? all name with
      | none => rfl
      | some imported => exact outcome_map (ih _ imported) fun _ => rfl

theorem mergeRoot_unnamed (all : List Grammar) (g : Grammar) :
    outcome Grammar.unnamed (mergeRoot all g) =
      mergeRoot (all.map Grammar.unnamed) g.unnamed := by
  rw [mergeRoot, mergeRoot, List.length_map]
  exact merge_unnamed all all.length [] g

theorem firstDuplicate?_unnamed (seen : List String) (all : List Grammar) :
    firstDuplicate? seen (all.map Grammar.unnamed) =
      (firstDuplicate? seen all).map Grammar.unnamed := by
  induction all generalizing seen with
  | nil => rfl
  | cons g all ih =>
      rw [List.map_cons, firstDuplicate?, firstDuplicate?, apply_ite (Option.map Grammar.unnamed),
        ← ih]
      rfl

theorem firstMissing?_unnamed (all : List Grammar) :
    firstMissing? (all.map Grammar.unnamed) = firstMissing? all := by
  simp only [firstMissing?, List.findSome?_map, find?_unnamed, Option.isNone_map]
  rfl

theorem roots_unnamed (all : List Grammar) :
    outcome (List.map Grammar.unnamed) (roots all) = roots (all.map Grammar.unnamed) := by
  rw [roots, roots, firstDuplicate?_unnamed, firstMissing?_unnamed]
  cases firstDuplicate? [] all with
  | some g => rfl
  | none =>
      cases firstMissing? all with
      | some missing => rfl
      | none =>
          have himports : (all.map Grammar.unnamed).flatMap Grammar.imports =
              all.flatMap Grammar.imports :=
            List.flatMap_map _ _ _
          have hkept : (all.map Grammar.unnamed).filter
              (fun g => !((all.map Grammar.unnamed).flatMap Grammar.imports).contains g.name) =
              (all.filter fun g => !(all.flatMap Grammar.imports).contains g.name).map
                Grammar.unnamed := by
            rw [himports, List.filter_map]
            rfl
          dsimp only
          rw [hkept]
          exact outcome_mapM (fun g => mergeRoot_unnamed all g) _

end Imports

/-! ## Lexers -/

theorem Grammar.checkDuplicates_unnamed (g : Grammar) (rules : List Rule) :
    outcome id (g.checkDuplicates rules) = g.unnamed.checkDuplicates rules := by
  unfold Grammar.checkDuplicates
  split <;> rfl

theorem LexerSpec.build_unnamed (g : Grammar) (unit : String) (rules : List Rule)
    (literals : List String) :
    outcome id (build g unit rules literals) = build g.unnamed unit rules literals := by
  unfold build
  refine outcome_ite rfl (outcome_bind (g.checkDuplicates_unnamed rules) fun _ => ?_)
  rw [Grammar.unnamed_tokens]
  cases g.tokens.find? fun n => !isValidTokenName n with
  | some name => rfl
  | none =>
      refine outcome_bind (outcome_mapM_id (fun r => ?_) rules) fun written => rfl
      rw [Grammar.unnamed_channels, Grammar.unnamed_modes, Grammar.unnamed_option?]
      split <;> rfl

/-! ## Parsers -/

namespace Analysis

def ParserRules.unnamed (built : ParserRules) : ParserRules :=
  { built with warnings := built.warnings.map Warning.unnamed }

def Progress.unnamed (p : Progress) : Progress :=
  { p with warnings := p.warnings.map Warning.unnamed }

def unnamed (a : Analysis) : Analysis := { a with warnings := a.warnings.map Warning.unnamed }

theorem addParserRule_unnamed (g : Grammar) (scope : References.Scope) (built : ParserRules)
    (r : Rule) :
    outcome ParserRules.unnamed (addParserRule g scope built r) =
      addParserRule g.unnamed scope built.unnamed r := by
  have hvocabulary : built.unnamed.vocabulary = built.vocabulary := rfl
  unfold addParserRule
  rw [hvocabulary]
  dsimp only
  split
  · rfl
  · next spec s _ =>
    refine congrArg (fun warnings => Except.ok (ParserRules.mk _ _ warnings)) ?_
    rw [List.map_append, List.map_map]
    rfl

/-- A parser and its lexer with warnings that name no files. -/
def unnamedParser (found : ParserSpec × LexerSpec × List Warning) :
    ParserSpec × LexerSpec × List Warning :=
  (found.1, found.2.1, found.2.2.map Warning.unnamed)

theorem buildParser_unnamed (g : Grammar) (unit : String) (rules : List Rule) (lexer : LexerSpec)
    (allowImplicit : Bool) :
    outcome unnamedParser (buildParser g unit rules lexer allowImplicit) =
      buildParser g.unnamed unit rules lexer allowImplicit := by
  unfold buildParser
  refine outcome_bind (g.checkDuplicates_unnamed rules) fun _ => ?_
  refine outcome_bind (outcome_foldlM_id (addParserRule_unnamed g _) rules _) fun built => ?_
  have hspecs : built.unnamed.specs = built.specs := rfl
  rw [hspecs]
  cases LeftRecursion.cycle? built.specs with
  | some path => rfl
  | none =>
      dsimp only
      split <;> rfl

/-- The warnings that a grammar adds lose their names with those that were there. -/
theorem outcome_progress (lexers : List LexerSpec) (parsers : List ParserSpec)
    (warnings more : List Warning) :
    outcome Progress.unnamed (.ok ⟨lexers, parsers, warnings ++ more⟩) =
      .ok ⟨lexers, parsers, warnings.map Warning.unnamed ++ more.map Warning.unnamed⟩ :=
  congrArg (fun warnings => Except.ok (Progress.mk lexers parsers warnings)) List.map_append

theorem addLexerGrammar_unnamed (package : Option String) (p : Progress) (g : Grammar) :
    outcome Progress.unnamed (addLexerGrammar package p g) =
      addLexerGrammar package p.unnamed g.unnamed := by
  unfold addLexerGrammar
  rw [Grammar.unnamed_rules]
  cases g.rules.find? fun r => !r.isLexerRule with
  | some r => rfl
  | none => exact outcome_bind (LexerSpec.build_unnamed g _ _ _) fun lexer => rfl

theorem addCombinedGrammar_unnamed (package : Option String) (p : Progress) (g : Grammar) :
    outcome Progress.unnamed (addCombinedGrammar package p g) =
      addCombinedGrammar package p.unnamed g.unnamed := by
  unfold addCombinedGrammar
  rw [Grammar.unnamed_rules]
  refine outcome_ite rfl (outcome_bind (LexerSpec.build_unnamed g _ _ _) fun lexer => ?_)
  refine outcome_ite (outcome_progress _ _ _ _) ?_
  exact outcome_bind (buildParser_unnamed g _ _ _ _) fun found => outcome_progress _ _ _ _

theorem addParserGrammar_unnamed (package : Option String) (p : Progress) (g : Grammar) :
    outcome Progress.unnamed (addParserGrammar package p g) =
      addParserGrammar package p.unnamed g.unnamed := by
  have hlexers : p.unnamed.lexers = p.lexers := rfl
  unfold addParserGrammar
  rw [Grammar.unnamed_rules, Grammar.unnamed_option?, hlexers]
  cases g.rules.find? Rule.isLexerRule with
  | some r => rfl
  | none =>
      dsimp only
      split
      · rfl
      · split
        · rfl
        · exact outcome_bind (buildParser_unnamed g _ _ _ _) fun found => outcome_progress _ _ _ _

theorem addGrammar_unnamed (package : Option String) (p : Progress) (g : Grammar) :
    outcome Progress.unnamed (addGrammar package p g) =
      addGrammar package p.unnamed g.unnamed := by
  unfold addGrammar
  rw [Grammar.unnamed_kind]
  cases g.kind with
  | lexer => exact addLexerGrammar_unnamed package p g
  | combined => exact addCombinedGrammar_unnamed package p g
  | parser => exact addParserGrammar_unnamed package p g

theorem ofGrammars_unnamed (grammars : List Grammar) (package : Option String) :
    outcome unnamed (ofGrammars grammars package) =
      ofGrammars (grammars.map Grammar.unnamed) package := by
  unfold ofGrammars
  rw [List.isEmpty_map]
  refine outcome_ite rfl (outcome_bind (Imports.roots_unnamed grammars) fun roots => ?_)
  have hlexers : (roots.map Grammar.unnamed).filter (fun g => g.kind == .lexer) =
      (roots.filter fun g => g.kind == .lexer).map Grammar.unnamed := List.filter_map
  have hothers : (roots.map Grammar.unnamed).filter (fun g => g.kind != .lexer) =
      (roots.filter fun g => g.kind != .lexer).map Grammar.unnamed := List.filter_map
  rw [hlexers, hothers]
  dsimp only
  rw [← List.map_append, ← List.map_append]
  cases (roots.filter fun g => g.kind != .lexer) ++ roots.filter fun g => g.kind == .lexer with
  | nil => rfl
  | cons first rest =>
      exact outcome_bind (outcome_foldlM (addGrammar_unnamed package) _ {}) fun p => rfl

end Analysis

end GrammarEngine

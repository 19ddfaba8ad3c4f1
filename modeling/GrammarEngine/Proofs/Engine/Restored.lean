import GrammarEngine.Engine.Basic
import GrammarEngine.Proofs.Container.RoundTrip
import GrammarEngine.Proofs.Recognizer.Reports
import GrammarEngine.Tree.Render

/-!
# Restored engines

What an engine answers depends on its recognizer, on what it requests of it, and on its listener.
Two engines that agree on these give the same answers to any sequence of parses, since no parse
makes them differ.

The set of a compiled engine passes the scheme it was grouped by, so a container of it is restored
by every engine with this scheme and gives the same recognizer and the same metadata. An engine with
the configuration of the compiled one then requests the same. A configuration that is first given
when the container is loaded counts for the entry rule and for the depth of rules, as it does when a
grammar is compiled with it. It does not count for the folding, which a loaded engine takes from the
metadata unless the options of a parse name one.
-/
namespace GrammarEngine.Engine

open Container (letterLexer letterParser letterSet letterSet_compiled letterSet_kept newYear)
open Recognizer (exists_letters lettersLexer lettersParser oneLetter run_of_listedResult?
  selectLexer_of_lexers selectParser_of_parsers)

def withConfig (e : Engine) (config : EngineConfig) : Engine := { e with config }

variable {l : Container.Library} {d e original direct : Engine} {createdAt : String}
  {stream : CharStream} {options : ParseOptions} {adjust : ParseOptions → ParseOptions}
  {r : ParseResult}

/-! ## What parses show -/

/-- The engine after a parse. A parse that gives no result changes nothing. -/
def after (e : Engine) (stream : CharStream) (options : ParseOptions) : Engine :=
  match e.parse stream options with
  | .ok (_, next) => next
  | .error _ => e

/-- What a parse shows: its result or why there is none, and the tree that the listener holds
then. -/
def outcome (e : Engine) (stream : CharStream) (options : ParseOptions) :
    Except EngineFault ParseResult × Option ParseTree :=
  ((e.parse stream options).map Prod.fst, (e.after stream options).tree?)

/-- What parses show one after another. -/
def outcomes (e : Engine) : List (CharStream × ParseOptions) →
    List (Except EngineFault ParseResult × Option ParseTree)
  | [] => []
  | (stream, options) :: rest =>
    e.outcome stream options :: (e.after stream options).outcomes rest

/-- Two engines of which the first requests of the same recognizer what the second requests under
adjusted options. -/
structure Alike (adjust : ParseOptions → ParseOptions) (d e : Engine) : Prop where
  recognizer : d.recognizer? = e.recognizer?
  state : d.state = e.state
  request : ∀ options, d.request options = e.request (adjust options)
  listener : d.listener = e.listener

theorem run_eq (e : Engine) (stream : CharStream) (options : ParseOptions) :
    e.run stream options =
      match e.recognizer? with
      | some recognizer => (recognizer.run stream (e.request options)).mapError .parsing
      | none => .error (.workflow (.notLoaded "parse" e.state)) := by
  cases h : e.loaded <;>
    simp only [run, requireLoaded, recognizer?, h, bind, Except.bind, Option.map_none,
      Option.map_some]

theorem Alike.run_eq (h : Alike adjust d e) :
    d.run stream options = e.run stream (adjust options) := by
  rw [Engine.run_eq, Engine.run_eq, h.recognizer, h.state, h.request]

/-- Whether an engine is ready depends on what is loaded and on the result alone. -/
theorem state_noteResult (e : Engine) (r : ParseResult) :
    (e.noteResult r).state =
      if r.root.isSome && e.recognizer?.isSome then .ready else e.state := by
  cases hroot : r.root.isSome <;> cases hloaded : e.loaded <;>
    simp [noteResult, hroot, state, recognizer?, hloaded]

@[simp] theorem recognizer?_noteResult (e : Engine) (r : ParseResult) :
    (e.noteResult r).recognizer? = e.recognizer? := by
  cases hroot : r.root.isSome <;> simp [noteResult, hroot, recognizer?, Function.comp_def]

@[simp] theorem metadata?_noteResult (e : Engine) (r : ParseResult) :
    (e.noteResult r).metadata? = e.metadata? := by
  cases hroot : r.root.isSome <;> simp [noteResult, hroot, metadata?, Function.comp_def]

@[simp] theorem config_noteResult (e : Engine) (r : ParseResult) :
    (e.noteResult r).config = e.config := by
  cases hroot : r.root.isSome <;> simp [noteResult, hroot]

@[simp] theorem listener_noteResult (e : Engine) (r : ParseResult) :
    (e.noteResult r).listener = e.listener := by
  cases hroot : r.root.isSome <;> simp [noteResult, hroot]

theorem request_noteResult (e : Engine) (r : ParseResult) :
    (e.noteResult r).request = e.request := by
  funext options
  simp only [request, metadata?_noteResult, config_noteResult]

/-- A run that gives a result is shown to the listener. -/
theorem outcome_of_run (h : e.run stream options = .ok r) :
    e.outcome stream options = (.ok r, e.listener.bind fun l => (l.hear r).tree) := by
  simp only [outcome, after, Engine.parse, h, bind, Except.bind, pure, Except.pure, Except.map,
    tree?, listener_noteResult]
  cases e.listener <;> rfl

theorem Alike.noteResult (h : Alike adjust d e) (r : ParseResult) :
    Alike adjust (d.noteResult r) (e.noteResult r) where
  recognizer := by simp [h.recognizer]
  state := by rw [state_noteResult, state_noteResult, h.recognizer, h.state]
  request options := by rw [request_noteResult, request_noteResult, h.request]
  listener := by simp [h.listener]

/-- The engine that has shown a result to its listener. -/
theorem Alike.heard (h : Alike adjust d e) (r : ParseResult) :
    Alike adjust { d with listener := d.listener.map fun l => l.hear r }
      { e with listener := e.listener.map fun l => l.hear r } where
  recognizer := h.recognizer
  state := h.state
  request := h.request
  listener := congrArg (Option.map fun l => l.hear r) h.listener

/-- A parse shows the same on engines that are alike, and leaves them alike. -/
theorem Alike.parse (h : Alike adjust d e) (stream : CharStream) (options : ParseOptions) :
    d.outcome stream options = e.outcome stream (adjust options) ∧
      Alike adjust (d.after stream options) (e.after stream (adjust options)) := by
  have hrun : d.run stream options = e.run stream (adjust options) := h.run_eq
  cases hr : e.run stream (adjust options) with
  | error fault =>
      rw [hr] at hrun
      simp only [outcome, after, Engine.parse, hrun, hr, bind, Except.bind, Except.map, tree?,
        h.listener]
      exact ⟨trivial, h⟩
  | ok r =>
      rw [hr] at hrun
      have hnext := (h.heard r).noteResult r
      simp only [outcome, after, Engine.parse, hrun, hr, bind, Except.bind, pure, Except.pure,
        Except.map, tree?, hnext.listener]
      exact ⟨trivial, hnext⟩

theorem Alike.outcomes_eq (h : Alike adjust d e) (parses : List (CharStream × ParseOptions)) :
    d.outcomes parses = e.outcomes (parses.map fun p => (p.1, adjust p.2)) := by
  induction parses generalizing d e with
  | nil => rfl
  | cons p rest ih =>
      obtain ⟨houtcome, hafter⟩ := h.parse p.1 p.2
      simp only [outcomes, List.map_cons, houtcome, ih hafter]

/-! ## Compiling and loading -/

theorem alike_install {a b : LoadedBundle} (hrecognizer : a.recognizer = b.recognizer)
    (hparsed : a.parsed = b.parsed) (hlistener : d.listener = e.listener)
    (hrequest : ∀ options, (d.install a).request options = (e.install b).request (adjust options)) :
    Alike adjust (d.install a) (e.install b) where
  recognizer := congrArg some hrecognizer
  state := by simp [state, install, hparsed]
  request := hrequest
  listener := congrArg (Option.map TreeListener.reset) hlistener

theorem compile_eq_ok (h : e.compile = .ok original) :
    ∃ files g artifacts recognizer, e.grammar = some files ∧
      e.generator files e.config.generationOptions = .ok g ∧
      BundleSet.compile e.compiler e.classifier (g.units ++ e.config.utilities) = .ok artifacts ∧
      Recognizer.load artifacts = .ok recognizer ∧
      original = e.install
        { artifacts, recognizer, metadata := e.compiledMetadata files g, generated := some g } := by
  unfold compile at h
  split at h
  · cases h
  · next files hgrammar =>
    obtain ⟨g, hg, h⟩ := bind_eq_ok.mp h
    obtain ⟨artifacts, hartifacts, h⟩ := bind_eq_ok.mp h
    obtain ⟨recognizer, hrecognizer, h⟩ := bind_eq_ok.mp h
    exact ⟨files, g, artifacts, recognizer, hgrammar, mapError_eq_ok.mp hg,
      mapError_eq_ok.mp hartifacts, mapError_eq_ok.mp hrecognizer, (Except.ok.inj h).symm⟩

theorem compile_of_steps {files : List GrammarFile} {g : GeneratedUnits} {artifacts : BundleSet}
    {recognizer : Recognizer} (hgrammar : e.grammar = some files)
    (hg : e.generator files e.config.generationOptions = .ok g)
    (hartifacts : BundleSet.compile e.compiler e.classifier (g.units ++ e.config.utilities) =
      .ok artifacts)
    (hrecognizer : Recognizer.load artifacts = .ok recognizer) :
    e.compile = .ok (e.install
      { artifacts, recognizer, metadata := e.compiledMetadata files g, generated := some g }) := by
  simp only [compile, hgrammar, hg, hartifacts, hrecognizer, Except.mapError, bind, Except.bind]
  rfl

/-- What a compiled engine stores can be loaded by every engine with the same naming scheme, and is
what the compiled engine holds. This is so with any archives and documents by which it is kept. -/
theorem exists_loadBundle_pack (hcompile : e.compile = .ok original)
    (hscheme : d.classifier = e.classifier)
    (hkept : ∀ b, original.loaded = some b →
      Container.Kept l b.artifacts b.metadata createdAt) :
    ∃ p b, original.pack createdAt l = .ok p ∧ original = e.install b ∧ b.parsed = false ∧
      d.loadBundle p l = .ok (d.install
        { artifacts := b.artifacts, recognizer := b.recognizer, metadata := b.metadata }) := by
  obtain ⟨files, g, artifacts, recognizer, _, _, hartifacts, hrecognizer, rfl⟩ :=
    compile_eq_ok hcompile
  obtain ⟨hbuilt, hverify⟩ := BundleSet.compile_verified hartifacts
  have hrestore := Container.restore_eq_ok hbuilt.consistent hverify (hkept _ rfl)
  refine ⟨_, _, rfl, rfl, rfl, ?_⟩
  simp only [loadBundle, hscheme, hrestore, hrecognizer, Except.mapError, bind, Except.bind]
  rfl

/-! ## Restored engines -/

/-- Storing a compiled engine succeeds, loading what was stored with the same configuration
succeeds, and no sequence of parses tells the loaded engine from the compiled one. -/
theorem outcomes_restored (hcompile : e.compile = .ok original) (hconfig : d.config = e.config)
    (hlistener : d.listener = e.listener)
    (hkept : ∀ b, original.loaded = some b →
      Container.Kept l b.artifacts b.metadata createdAt) :
    ∃ p restored, original.pack createdAt l = .ok p ∧ d.loadBundle p l = .ok restored ∧
      ∀ parses, restored.outcomes parses = original.outcomes parses := by
  have hscheme : d.classifier = e.classifier := by rw [classifier, classifier, hconfig]
  obtain ⟨p, b, hpack, horiginal, hparsed, hload⟩ := exists_loadBundle_pack hcompile hscheme hkept
  refine ⟨p, _, hpack, hload, fun parses => ?_⟩
  have halike : Alike id (d.install
      { artifacts := b.artifacts, recognizer := b.recognizer, metadata := b.metadata })
      original := by
    rw [horiginal]
    refine alike_install rfl hparsed.symm hlistener fun options => ?_
    simp only [request, install, metadata?, hconfig, Option.map_some, Option.getD_some, id]
  simpa using halike.outcomes_eq parses

def letterUnits : GeneratedUnits := ⟨"G", [letterLexer, letterParser], some "L", some "P", []⟩

/-- An engine whose generator always gives a lexer of one token and a parser of one rule. -/
def letterEngine : Engine where
  grammar := some []
  generator := fun _ _ => .ok letterUnits

/-- What the engine holds once it is compiled with a configuration. -/
def letterBundle (config : EngineConfig) (recognizer : Recognizer) : LoadedBundle where
  artifacts := letterSet
  recognizer := recognizer
  metadata := (letterEngine.withConfig config).compiledMetadata [] letterUnits
  generated := some letterUnits

theorem letterEngine_compiles (config : EngineConfig) (hutilities : config.utilities = [])
    (hscheme : config.classifier = none) :
    ∃ r, r.lexers = [lettersLexer] ∧ r.parsers = [lettersParser] ∧
      (letterEngine.withConfig config).compile =
        .ok ((letterEngine.withConfig config).install (letterBundle config r)) := by
  obtain ⟨r, hload, hlexers, hparsers⟩ := exists_letters
  refine ⟨r, hlexers, hparsers, compile_of_steps rfl rfl ?_ hload⟩
  simp only [withConfig, letterEngine, letterUnits, classifier, hutilities, hscheme,
    List.append_nil]
  exact letterSet_compiled

/-- The tree of a letter, and what the listener makes of it. -/
theorem letter_listed :
    (Parser.listedResult? lettersParser "s" (lettersLexer.tokenize oneLetter) 8).map (fun result =>
      (result.stringTree?, (TreeListener.hear {} result).tree.map ParseTree.render)) =
      some (some "(s a)", some "(s a)") := by
  decide +kernel

theorem letterEngine_outcome {r : Recognizer} (hlexers : r.lexers = [lettersLexer])
    (hparsers : r.parsers = [lettersParser]) :
    ∃ result tree, result.stringTree? = some "(s a)" ∧ tree.render = "(s a)" ∧
      (letterEngine.install (letterBundle {} r)).outcome oneLetter {} =
        (.ok result, some tree) := by
  obtain ⟨result, hlisted, hshown⟩ := Option.map_eq_some_iff.mp letter_listed
  obtain ⟨htext, hheard⟩ := Prod.mk.inj hshown
  obtain ⟨tree, htree, hrender⟩ := Option.map_eq_some_iff.mp hheard
  have hrequest : (letterEngine.install (letterBundle {} r)).request {} =
      { lexer := some "L", parser := some "P" } := rfl
  have hparser : r.selectParser (some "P") = .ok lettersParser :=
    selectParser_of_parsers hparsers rfl
  have hlexer : r.selectLexer (some "L") lettersParser = .ok lettersLexer :=
    selectLexer_of_lexers hlexers rfl
  have hlinked : lettersParser.Linked := ParserProgram.linked_of_isLinked rfl
  have hguarded : Parser.Guarded lettersParser.bodies := Parser.guarded_of_inOrder rfl
  have hrun : r.run oneLetter { lexer := some "L", parser := some "P" } = .ok result :=
    run_of_listedResult? hparser hlexer hlinked hguarded (by decide +kernel) hlisted
  have hparse : (letterEngine.install (letterBundle {} r)).run oneLetter {} = .ok result := by
    rw [run_eq, hrequest]
    exact congrArg (Except.mapError EngineFault.parsing) hrun
  refine ⟨result, tree, htext, hrender, ?_⟩
  rw [outcome_of_run hparse]
  exact congrArg (Prod.mk _) htree

/-- What is compiled and what is restored from its container find the same tree of a letter. -/
theorem letterEngine_restored :
    ∃ original p restored result tree, letterEngine.compile = .ok original ∧
      (∀ b, original.loaded = some b → Container.Kept .plain b.artifacts b.metadata newYear) ∧
      original.pack newYear = .ok p ∧ ({} : Engine).loadBundle p = .ok restored ∧
      (∀ parses, restored.outcomes parses = original.outcomes parses) ∧
      result.stringTree? = some "(s a)" ∧ tree.render = "(s a)" ∧
      original.outcome oneLetter {} = (.ok result, some tree) ∧
      restored.outcome oneLetter {} = (.ok result, some tree) := by
  obtain ⟨r, hlexers, hparsers, hcompile⟩ := letterEngine_compiles {} rfl rfl
  have hkept : ∀ b, (letterEngine.install (letterBundle {} r)).loaded = some b →
      Container.Kept .plain b.artifacts b.metadata newYear := by
    rintro b ⟨⟩
    exact letterSet_kept
  obtain ⟨p, restored, hpack, hload, hparses⟩ := outcomes_restored (d := {}) hcompile rfl rfl hkept
  obtain ⟨result, tree, htext, hrender, houtcome⟩ := letterEngine_outcome hlexers hparsers
  have hsame := (List.cons.inj (hparses [(oneLetter, {})])).1
  exact ⟨_, p, restored, result, tree, hcompile, hkept, hpack, hload, hparses, htext, hrender,
    houtcome, hsame.trans houtcome⟩

/-! ## Configurations given on loading -/

/-- A configuration of no more than an entry rule, a folding and a depth. -/
def runConfig (rule : Option String) (folding : CaseFolding) (depth : Option Nat) : EngineConfig :=
  { entryRule := rule, folding := folding, maxDepth := depth }

/-- Options that leave nothing to say about folding to a configuration. -/
def namingFolding (options : ParseOptions) : ParseOptions :=
  { options with folding := some (options.folding.getD .none) }

theorem namingFolding_of_isSome (h : options.folding.isSome) : namingFolding options = options := by
  cases options with
  | mk entryRule folding =>
    obtain ⟨folding, rfl⟩ := Option.isSome_iff_exists.mp h
    rfl

section RunConfig

variable {rule : Option String} {folding : CaseFolding} {depth : Option Nat}

/-- What is compiled without a configuration and loaded with one goes with what is compiled with
it, if the folding of the configuration is never asked for. -/
theorem alike_runConfig (files : List GrammarFile) (g : GeneratedUnits) (artifacts : BundleSet)
    (recognizer : Recognizer) (hdefault : e.config = {})
    (hconfig : d.config = runConfig rule folding depth) (hlistener : d.listener = e.listener)
    (hentry : ∀ options, (adjust options).entryRule = options.entryRule)
    (hfolding : ∀ options, (adjust options).folding.getD folding = options.folding.getD .none) :
    Alike adjust
      (d.install { artifacts, recognizer, metadata := e.compiledMetadata files g })
      ((e.withConfig (runConfig rule folding depth)).install
        { artifacts, recognizer, generated := some g
          metadata :=
            (e.withConfig (runConfig rule folding depth)).compiledMetadata files g }) := by
  refine alike_install rfl rfl hlistener fun options => ?_
  have hrule : (options.entryRule.or rule).or none = (options.entryRule.or rule).or rule := by
    cases options.entryRule <;> cases rule <;> rfl
  simp only [request, install, metadata?, compiledMetadata, withConfig, hconfig, hdefault,
    runConfig, Option.map_some, Option.getD_some, Option.none_or, hentry, hfolding, hrule]
  rfl

/-- An engine that stores what it has compiled without a configuration, one that loads it with an
entry rule, a folding and a depth, and one that has compiled the same grammar with these. Loading
succeeds, and the loaded engine answers as the compiled one does where every parse says that it
wants no folding or says which it wants. So it answers alike if no folding is configured, or if the
options of every parse name one. -/
theorem outcomes_runConfig (hdefault : e.config = {})
    (hconfig : d.config = runConfig rule folding depth) (hlistener : d.listener = e.listener)
    (hcompile : (e.withConfig (runConfig rule folding depth)).compile = .ok direct)
    (hkept : ∀ stored b, e.compile = .ok stored → stored.loaded = some b →
      Container.Kept l b.artifacts b.metadata createdAt) :
    ∃ stored p loaded, e.compile = .ok stored ∧ stored.pack createdAt l = .ok p ∧
      d.loadBundle p l = .ok loaded ∧ ∀ parses,
        loaded.outcomes parses = direct.outcomes (parses.map fun q => (q.1, namingFolding q.2)) ∧
        (folding = .none ∨ (∀ q ∈ parses, q.2.folding.isSome) →
          loaded.outcomes parses = direct.outcomes parses) := by
  obtain ⟨files, g, artifacts, recognizer, hgrammar, hg, hartifacts, hrecognizer, rfl⟩ :=
    compile_eq_ok hcompile
  have hstored : e.compile = .ok (e.install
      { artifacts, recognizer, metadata := e.compiledMetadata files g, generated := some g }) := by
    apply compile_of_steps (e := e) hgrammar _ _ hrecognizer
    · rw [hdefault]
      exact hg
    · rw [classifier, hdefault]
      exact hartifacts
  have hscheme : d.classifier = e.classifier := by
    rw [classifier, classifier, hconfig, hdefault]
    rfl
  obtain ⟨p, b, hpack, hinstall, -, hload⟩ :=
    exists_loadBundle_pack hstored hscheme fun b hb => hkept _ b hstored hb
  obtain rfl := Option.some.inj (congrArg loaded hinstall)
  have hnamed : Alike namingFolding (d.install _) _ :=
    alike_runConfig files g artifacts recognizer hdefault hconfig hlistener
      (fun _ => rfl) (fun _ => rfl)
  refine ⟨_, p, _, hstored, hpack, hload, fun parses => ⟨hnamed.outcomes_eq parses, ?_⟩⟩
  rintro (rfl | hall)
  · have hplain : Alike id (d.install _) _ :=
      alike_runConfig files g artifacts recognizer hdefault hconfig hlistener
        (fun _ => rfl) (fun _ => rfl)
    simpa using hplain.outcomes_eq parses
  · have hsame : (parses.map fun q => (q.1, namingFolding q.2)) = parses := by
      have hid : ∀ q ∈ parses, (q.1, namingFolding q.2) = id q := by
        intro q hq
        rw [namingFolding_of_isSome (hall q hq), id]
      rw [List.map_congr_left hid, List.map_id]
    rw [hnamed.outcomes_eq parses, hsame]

theorem letterEngine_runConfig :
    ∃ direct stored p loaded,
      (letterEngine.withConfig (runConfig (some "s") .upper (some 5))).compile = .ok direct ∧
      letterEngine.compile = .ok stored ∧
      (∀ b, stored.loaded = some b → Container.Kept .plain b.artifacts b.metadata newYear) ∧
      stored.pack newYear = .ok p ∧
      (withConfig {} (runConfig (some "s") .upper (some 5))).loadBundle p = .ok loaded ∧
      ∀ parses,
        loaded.outcomes parses = direct.outcomes (parses.map fun q => (q.1, namingFolding q.2)) ∧
        (CaseFolding.upper = .none ∨ (∀ q ∈ parses, q.2.folding.isSome) →
          loaded.outcomes parses = direct.outcomes parses) := by
  obtain ⟨r, -, -, hcompile⟩ := letterEngine_compiles {} rfl rfl
  obtain ⟨_, -, -, hdirect⟩ :=
    letterEngine_compiles (runConfig (some "s") .upper (some 5)) rfl rfl
  have hkept : ∀ stored b, letterEngine.compile = .ok stored → stored.loaded = some b →
      Container.Kept .plain b.artifacts b.metadata newYear := by
    intro stored b hstored hb
    obtain rfl := Except.ok.inj (hcompile.symm.trans hstored)
    obtain rfl := Option.some.inj hb
    exact letterSet_kept
  obtain ⟨stored, p, loaded, hstored, hpack, hload, hparses⟩ :=
    outcomes_runConfig (e := letterEngine)
      (d := withConfig {} (runConfig (some "s") .upper (some 5))) rfl rfl rfl hdirect hkept
  exact ⟨_, stored, p, loaded, hdirect, hstored, fun b => hkept stored b hstored, hpack, hload,
    hparses⟩

end RunConfig

end GrammarEngine.Engine

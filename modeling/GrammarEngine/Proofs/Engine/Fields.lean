import GrammarEngine.Proofs.Engine.Operations

/-!
# Engines field by field

An engine that holds its recognizer, the bundles, the metadata and the generated units each for
itself could hold some of them without the others, and an operation that fails on the way could
leave some of them changed. The operations of such a machine set one field after the other, and a
failure keeps what has been set by then. The machine still goes with the engine, operation by
operation: everything that can fail comes before the first field is set, so no failure is seen in
any field, and the fields are always there together.
-/
namespace GrammarEngine

/-- An engine whose fields are set one by one. -/
structure EngineFields where
  grammar : Option (List GrammarFile)
  config : EngineConfig
  generator : Generator
  compiler : Compiler
  state : Lifecycle
  generated : Option GeneratedUnits
  artifacts : Option BundleSet
  recognizer : Option Recognizer
  metadata : Option Metadata
  listener : Option TreeListener

/-- What sets fields and can fail, in which case the fields stay as they have been set. -/
abbrev FieldProgram := ExceptT EngineFault (StateM EngineFields)

/-- How the fields of an engine are set. -/
def Engine.fields (e : Engine) : EngineFields where
  grammar := e.grammar
  config := e.config
  generator := e.generator
  compiler := e.compiler
  state := e.state
  generated := e.generated?
  artifacts := e.artifacts?
  recognizer := e.recognizer?
  metadata := e.metadata?
  listener := e.listener

namespace EngineFields

/-! ## Operations -/

def attempt {α : Type} (x : Except EngineFault α) : FieldProgram α := ExceptT.mk (pure x)

/-- The recognizer, for an operation that needs it. -/
def requireLoaded (operation : String) : FieldProgram Recognizer := do
  let f ← get
  match f.recognizer with
  | some recognizer =>
    if f.state = .uncompiled then throw (.workflow (.notLoaded operation f.state))
    else return recognizer
  | none => throw (.workflow (.notLoaded operation f.state))

def install (artifacts : BundleSet) (recognizer : Recognizer) (metadata : Metadata) :
    FieldProgram Unit := do
  modify fun f => { f with artifacts := some artifacts }
  modify fun f => { f with recognizer := some recognizer }
  modify fun f => { f with metadata := some metadata }
  modify fun f => { f with state := .compiled }
  modify fun f => { f with listener := f.listener.map TreeListener.reset }

def compile : FieldProgram EngineAnswer := do
  let f ← get
  match f.grammar with
  | none => throw (.workflow (.noGrammar f.state))
  | some files =>
    let g ← attempt ((f.generator files f.config.generationOptions).mapError .generation)
    let sources := g.units ++ f.config.utilities
    let scheme := f.config.classifier.getD {}
    let artifacts ← attempt ((BundleSet.compile f.compiler scheme sources).mapError .compilation)
    let recognizer ← attempt ((Recognizer.load artifacts).mapError .load)
    let metadata := Engine.compiledMetadata { config := f.config } files g
    modify fun f => { f with generated := some g }
    install artifacts recognizer metadata
    return .done

def loadBundle (p : PersistedBundle) : FieldProgram EngineAnswer := do
  let f ← get
  let (artifacts, metadata) ← attempt ((p.restore (f.config.classifier.getD {})).mapError .restore)
  let recognizer ← attempt ((Recognizer.load artifacts).mapError .load)
  modify fun f => { f with generated := none }
  install artifacts recognizer metadata
  return .done

/-- The request of a parse. -/
def request (f : EngineFields) (options : ParseOptions) : RunRequest :=
  let metadata := f.metadata.getD {}
  { lexer := f.config.lexer.or metadata.lexer
    parser := f.config.parser.or metadata.parser
    entryRule := (options.entryRule.or f.config.entryRule).or metadata.entryRule
    folding := options.folding.getD metadata.folding
    maxDepth := f.config.maxDepth }

/-- Run the recognizer, and show the result to the listener if it is attached to the parse. -/
def parse (attached : Bool) (stream : CharStream) (options : ParseOptions) :
    FieldProgram EngineAnswer := do
  let recognizer ← requireLoaded "parse"
  let f ← get
  let r ← attempt ((recognizer.run stream (f.request options)).mapError .parsing)
  if attached then modify fun f => { f with listener := f.listener.map fun l => l.hear r }
  if r.root.isSome then modify fun f => { f with state := .ready }
  return .result r

def pack (createdAt : String) : FieldProgram EngineAnswer := do
  let _ ← requireLoaded "store"
  let f ← get
  match f.artifacts, f.metadata with
  | some artifacts, some metadata =>
    return .container (PersistedBundle.store artifacts metadata createdAt)
  | _, _ => throw (.workflow (.notLoaded "store" f.state))

def takeListener : FieldProgram EngineAnswer := do
  let f ← get
  modify fun f => { f with listener := none }
  return .listener f.listener

def program : EngineOperation → FieldProgram EngineAnswer
  | .compile => compile
  | .loadBundle p => loadBundle p
  | .parse stream options => parse true stream options
  | .parseAside text options =>
    parse false (CharStream.ofString CharStream.unknownName text) options
  | .setListener l => do
    modify fun f => { f with listener := some l }
    return .done
  | .takeListener => takeListener
  | .addUtility name source => do
    modify fun f => { f with config := f.config.addUtility name source }
    return .done
  | .pack createdAt => pack createdAt
  | .equip generator compiler => do
    modify fun f => { f with generator, compiler }
    return .done

/-- What a program gives, with the fields that it leaves. -/
def runOn {α : Type} (f : EngineFields) (x : FieldProgram α) :
    Except EngineFault α × EngineFields := x.run.run f

def step (f : EngineFields) (op : EngineOperation) :
    Except EngineFault EngineAnswer × EngineFields := f.runOn (program op)

/-! ## Running programs -/

section RunOn

variable {α β : Type} (f : EngineFields)

@[simp] theorem runOn_pure (a : α) : f.runOn (pure a) = (.ok a, f) := rfl

@[simp] theorem runOn_throw (fault : EngineFault) :
    f.runOn (throw fault : FieldProgram α) = (.error fault, f) := rfl

@[simp] theorem runOn_get_bind (k : EngineFields → FieldProgram β) :
    f.runOn (get >>= k) = f.runOn (k f) := rfl

@[simp] theorem runOn_modify_bind (g : EngineFields → EngineFields) (k : PUnit → FieldProgram β) :
    f.runOn (modify g >>= k) = (g f).runOn (k ()) := rfl

end RunOn

/-! ## Agreement -/

section Agreement

variable {α β : Type} {e : Engine} {answer : α → EngineAnswer × Engine}

/-- A program sets the fields of an engine as an attempt of the engine does. -/
def Agrees (e : Engine) (x : FieldProgram EngineAnswer) (r : Except EngineFault α)
    (answer : α → EngineAnswer × Engine) : Prop :=
  e.fields.runOn x = ((e.settle (r.map answer)).1, (e.settle (r.map answer)).2.fields)

theorem Agrees.throw (fault : EngineFault) :
    Agrees e (MonadExcept.throw fault) (.error fault) answer := rfl

/-- Where both attempt the same, a failure ends both, before any field has been set. -/
theorem Agrees.attempt_bind {y : Except EngineFault β} {k : β → FieldProgram EngineAnswer}
    {k' : β → Except EngineFault α} (h : ∀ b, Agrees e (k b) (k' b) answer) :
    Agrees e (attempt y >>= k) (y >>= k') answer := by
  cases y with
  | error fault => exact Agrees.throw fault
  | ok b => exact h b

theorem Agrees.get_bind {r : Except EngineFault α} {k : EngineFields → FieldProgram EngineAnswer}
    (h : Agrees e (k e.fields) r answer) : Agrees e (get >>= k) r answer := h

theorem runOn_requireLoaded_bind {b : LoadedBundle} (h : e.loaded = some b) (operation : String)
    (k : Recognizer → FieldProgram β) :
    e.fields.runOn (requireLoaded operation >>= k) = e.fields.runOn (k b.recognizer) := by
  have hstate : e.state ≠ .uncompiled := by
    cases hb : b.parsed <;> simp [Engine.state, h, hb]
  simp [requireLoaded, Engine.fields, Engine.recognizer?, h, hstate]

theorem Agrees.requireLoaded_bind {operation : String}
    {k : Recognizer → FieldProgram EngineAnswer} {k' : LoadedBundle → Except EngineFault α}
    (h : ∀ b, e.loaded = some b → Agrees e (k b.recognizer) (k' b) answer) :
    Agrees e (requireLoaded operation >>= k) (e.requireLoaded operation >>= k') answer := by
  obtain ⟨grammar, config, generator, compiler, loaded, listener⟩ := e
  cases loaded with
  | none => exact .throw _
  | some b => exact (runOn_requireLoaded_bind rfl operation k).trans (h b rfl)

theorem agrees_compile (e : Engine) :
    Agrees e compile e.compile fun next => (.done, next) := by
  refine .get_bind ?_
  unfold Engine.compile
  obtain ⟨grammar, config, generator, compiler, loaded, listener⟩ := e
  cases grammar with
  | none => exact .throw _
  | some files =>
      exact .attempt_bind fun _ => .attempt_bind fun _ => .attempt_bind fun _ => rfl

theorem agrees_loadBundle (e : Engine) (p : PersistedBundle) :
    Agrees e (loadBundle p) (e.loadBundle p) fun next => (.done, next) :=
  .get_bind (.attempt_bind fun _ => .attempt_bind fun _ => rfl)

theorem agrees_pack (e : Engine) (createdAt : String) :
    Agrees e (pack createdAt) (e.pack createdAt) fun p => (.container p, e) := by
  refine .requireLoaded_bind fun b hb => .get_bind ?_
  simp only [Engine.fields, Engine.artifacts?, Engine.metadata?, hb]
  rfl

/-- A result is noted in the state as it is in what is loaded. -/
theorem runOn_noteResult {b : LoadedBundle} (h : e.loaded = some b) (r : ParseResult) :
    e.fields.runOn (do
      if r.root.isSome then modify fun f => { f with state := .ready }
      return EngineAnswer.result r) = (.ok (.result r), (e.noteResult r).fields) := by
  cases hroot : r.root.isSome with
  | false => simp [Engine.noteResult, hroot]
  | true =>
      simp only [Engine.noteResult, hroot, if_true, runOn_modify_bind, runOn_pure, h, Engine.fields]
      simp [Engine.state, Engine.generated?, Engine.artifacts?, Engine.recognizer?,
        Engine.metadata?, h]

theorem agrees_parse (e : Engine) (stream : CharStream) (options : ParseOptions) :
    Agrees e (parse true stream options) (e.parse stream options) fun r => (.result r.1, r.2) := by
  simp only [Engine.parse, Engine.run, bind_assoc]
  exact .requireLoaded_bind fun b hb => .get_bind <| .attempt_bind fun r =>
    runOn_noteResult (e := { e with listener := e.listener.map fun l => l.hear r }) hb r

theorem agrees_parseAside (e : Engine) (text : String) (options : ParseOptions) :
    Agrees e (parse false (CharStream.ofString CharStream.unknownName text) options)
      (e.parseAside text options) fun r => (.result r.1, r.2) := by
  simp only [Engine.parseAside, Engine.run, bind_assoc]
  exact .requireLoaded_bind fun b hb => .get_bind <| .attempt_bind fun r => runOn_noteResult hb r

/-- The fields are set as the engine goes. -/
theorem step_fields (e : Engine) (op : EngineOperation) :
    e.fields.step op = ((e.step op).1, (e.step op).2.fields) := by
  cases op with
  | compile => exact agrees_compile e
  | loadBundle p => exact agrees_loadBundle e p
  | parse stream options => exact agrees_parse e stream options
  | parseAside text options => exact agrees_parseAside e text options
  | pack createdAt => exact agrees_pack e createdAt
  | setListener l => rfl
  | takeListener => rfl
  | addUtility name source => rfl
  | equip generator compiler => rfl

theorem perform_fields (e : Engine) (ops : List EngineOperation) :
    perform step e.fields ops =
      ((perform Engine.step e ops).1, (perform Engine.step e ops).2.fields) := by
  induction ops generalizing e with
  | nil => rfl
  | cons op ops ih =>
      simp only [perform, step_fields, ih]

end Agreement

/-! ## What holds throughout -/

/-- Fields that are there together, and are as a history says. -/
structure Sound (history : List EngineEvent) (f : EngineFields) : Prop where
  recognizer : f.recognizer.isSome = true ↔ f.state = .compiled ∨ f.state = .ready
  artifacts : f.artifacts.isSome = true ↔ f.state = .compiled ∨ f.state = .ready
  metadata : f.metadata.isSome = true ↔ f.state = .compiled ∨ f.state = .ready
  loaded : f.recognizer.isSome = true ↔ (lastInstall? history).isSome = true
  generated : f.generated.isSome = true ↔ lastInstall? history = some .compile
  ready : f.state = .ready ↔
    f.recognizer.isSome = true ∧ ∃ event ∈ sinceInstall history, event.roots = true

theorem isSome_loaded_iff (e : Engine) :
    e.loaded.isSome = true ↔ e.state = .compiled ∨ e.state = .ready := by
  cases h : e.loaded with
  | none => simp [Engine.state, h]
  | some b => cases hb : b.parsed <;> simp [Engine.state, h, hb]

theorem sound_fields {history : List EngineEvent} {e : Engine} (h : e.Follows history) :
    e.fields.Sound history where
  recognizer := by simpa [Engine.fields, Engine.recognizer?] using isSome_loaded_iff e
  artifacts := by simpa [Engine.fields, Engine.artifacts?] using isSome_loaded_iff e
  metadata := by simpa [Engine.fields, Engine.metadata?] using isSome_loaded_iff e
  loaded := by simpa [Engine.fields, Engine.recognizer?] using h.loaded
  generated := h.generated
  ready := by simpa [Engine.fields, Engine.recognizer?] using h.ready

/-- Let any operations be performed one after the other on an engine that nothing has been done
with, whatever its tools are, and let the fields be set along. The fields are then those of the
engine, and they are there together and are as the history of the operations says. While nothing is
loaded, what needs it fails as an operation out of order. And where an operation fails, neither the
engine nor any field has changed. -/
theorem performed_fresh (grammar : Option (List GrammarFile)) (config : EngineConfig)
    (generator : Generator) (compiler : Compiler) (ops : List EngineOperation) :
    let start := Engine.fresh grammar config generator compiler
    let (history, e) := perform Engine.step start ops
    let (outcomes, f) := perform step start.fields ops
    outcomes = history ∧ f = e.fields ∧ f.Sound history ∧
      (∀ op name, f.state = .uncompiled → op.needs? = some name →
        (e.step op).1 = .error (.workflow (.notLoaded name .uncompiled))) ∧
      ∀ op, (f.step op).1 = (e.step op).1 ∧
        ∀ fault, (e.step op).1 = .error fault → (e.step op).2 = e ∧ (f.step op).2 = f := by
  intro start
  have hfollows := Engine.Follows.perform (e := start) (Engine.follows_nil rfl) ops
  rw [perform_fields]
  cases hran : perform Engine.step start ops with
  | mk history e =>
      rw [hran] at hfollows
      refine ⟨rfl, rfl, sound_fields hfollows, ?_, ?_⟩
      · intro op name hstate hop
        have hloaded : e.loaded = none := by
          have hiff := isSome_loaded_iff e
          rw [show e.state = .uncompiled from hstate] at hiff
          simpa using hiff
        rw [Engine.step_of_loaded_eq_none hloaded hop, show e.state = .uncompiled from hstate]
      · intro op
        rw [step_fields]
        refine ⟨rfl, fun fault hfault => ?_⟩
        have hsame := Engine.step_of_error hfault
        exact ⟨hsame, congrArg Engine.fields hsame⟩

end EngineFields

end GrammarEngine

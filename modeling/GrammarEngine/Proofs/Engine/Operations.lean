import GrammarEngine.Proofs.Engine.Restored

/-!
# Operations on engines

Whoever holds an engine performs one operation after another. An operation that fails leaves the
engine as it was. What has been performed is a history of operations with their outcomes, and the
state of an engine that started with nothing loaded can be read off it: something is loaded once a
compilation or a load has succeeded, there are generated units if the last of these was a
compilation, and the engine is ready if a parse has produced a tree since.
-/
namespace GrammarEngine

inductive EngineOperation where
  | compile
  | loadBundle (p : PersistedBundle)
  | parse (stream : CharStream) (options : ParseOptions)
  | parseAside (text : String) (options : ParseOptions)
  | setListener (l : TreeListener)
  | takeListener
  | addUtility (name source : String)
  | pack (createdAt : String)
  /-- Exchange the tools, so that any outcome of generation and compilation can come next. -/
  | equip (generator : Generator) (compiler : Compiler)

/-- What a successful operation gives. -/
inductive EngineAnswer where
  | done
  | result (r : ParseResult)
  | listener (l : Option TreeListener)
  | container (p : PersistedBundle)

/-- An operation that has been performed. -/
structure EngineEvent where
  operation : EngineOperation
  outcome : Except EngineFault EngineAnswer

/-- Perform operations in a row. -/
def perform {σ : Type} (step : σ → EngineOperation → Except EngineFault EngineAnswer × σ) (s : σ) :
    List EngineOperation → List EngineEvent × σ
  | [] => ([], s)
  | op :: rest =>
    let first := step s op
    let others := perform step first.2 rest
    (⟨op, first.1⟩ :: others.1, others.2)

namespace Engine

/-- The engine after an attempt. -/
def settle (e : Engine) :
    Except EngineFault (EngineAnswer × Engine) → Except EngineFault EngineAnswer × Engine
  | .ok (answer, next) => (.ok answer, next)
  | .error fault => (.error fault, e)

def step (e : Engine) : EngineOperation → Except EngineFault EngineAnswer × Engine
  | .compile => e.settle (e.compile.map fun next => (.done, next))
  | .loadBundle p => e.settle ((e.loadBundle p).map fun next => (.done, next))
  | .parse stream options =>
    e.settle ((e.parse stream options).map fun r => (.result r.1, r.2))
  | .parseAside text options =>
    e.settle ((e.parseAside text options).map fun r => (.result r.1, r.2))
  | .setListener l => (.ok .done, { e with listener := some l })
  | .takeListener => (.ok (.listener e.listener), { e with listener := none })
  | .addUtility name source => (.ok .done, { e with config := e.config.addUtility name source })
  | .pack createdAt => e.settle ((e.pack createdAt).map fun p => (.container p, e))
  | .equip generator compiler => (.ok .done, { e with generator, compiler })

end Engine

/-! ## Histories -/

namespace EngineOperation

/-- Whether an operation replaces what is loaded if it succeeds. -/
def replaces : EngineOperation → Bool
  | compile => true
  | loadBundle _ => true
  | _ => false

/-- Whether an operation parses. -/
def parses : EngineOperation → Bool
  | parse .. => true
  | parseAside .. => true
  | _ => false

/-- What an operation that needs something loaded is called when there is nothing. -/
def needs? : EngineOperation → Option String
  | parse .. => some "parse"
  | parseAside .. => some "parse"
  | pack _ => some "store"
  | _ => none

end EngineOperation

namespace EngineEvent

/-- A successful compilation or load. -/
def installs (event : EngineEvent) : Bool := event.operation.replaces && event.outcome.isOk

/-- A parse with a root. -/
def roots (event : EngineEvent) : Bool :=
  event.operation.parses &&
    match event.outcome with
    | .ok (.result r) => r.root.isSome
    | _ => false

end EngineEvent

variable {history : List EngineEvent} {event : EngineEvent}

/-- The last successful compilation or load. -/
def lastInstall? (history : List EngineEvent) : Option EngineOperation :=
  (history.reverse.find? EngineEvent.installs).map EngineEvent.operation

/-- What has been performed since, the last operation first. -/
def sinceInstall (history : List EngineEvent) : List EngineEvent :=
  history.reverse.takeWhile fun event => !event.installs

theorem lastInstall?_concat_of_installs (h : event.installs = true) :
    lastInstall? (history ++ [event]) = some event.operation := by
  simp [lastInstall?, h]

theorem lastInstall?_concat_of_not_installs (h : event.installs = false) :
    lastInstall? (history ++ [event]) = lastInstall? history := by
  simp [lastInstall?, h]

theorem sinceInstall_concat_of_installs (h : event.installs = true) :
    sinceInstall (history ++ [event]) = [] := by
  simp [sinceInstall, h]

theorem sinceInstall_concat_of_not_installs (h : event.installs = false) :
    sinceInstall (history ++ [event]) = event :: sinceInstall history := by
  simp [sinceInstall, h]

namespace Engine

variable {e : Engine} {op : EngineOperation}

/-- An engine that nothing has been done with. -/
def fresh (grammar : Option (List GrammarFile)) (config : EngineConfig) (generator : Generator)
    (compiler : Compiler) : Engine :=
  { grammar, config, generator, compiler }

/-! ## Steps -/

/-- An operation that fails changes nothing. -/
theorem step_of_error {fault : EngineFault} (h : (e.step op).1 = .error fault) :
    (e.step op).2 = e := by
  have hsettle : ∀ x : Except EngineFault (EngineAnswer × Engine),
      (e.settle x).1 = .error fault → (e.settle x).2 = e := by
    intro x hx
    cases x with
    | error _ => rfl
    | ok r => cases hx
  cases op with
  | compile => exact hsettle _ h
  | loadBundle p => exact hsettle _ h
  | parse stream options => exact hsettle _ h
  | parseAside text options => exact hsettle _ h
  | pack createdAt => exact hsettle _ h
  | setListener l => cases h
  | takeListener => cases h
  | addUtility name source => cases h
  | equip generator compiler => cases h

/-- Nothing is parsed or stored before something has been loaded. -/
theorem step_of_loaded_eq_none {name : String} (h : e.loaded = none) (hop : op.needs? = some name) :
    (e.step op).1 = .error (.workflow (.notLoaded name e.state)) := by
  have hrequire : ∀ operation,
      e.requireLoaded operation = .error (.workflow (.notLoaded operation e.state)) := by
    intro operation
    simp only [requireLoaded, h]
  cases op with
  | parse stream options =>
      obtain rfl := Option.some.inj hop
      rw [step, Engine.parse, Engine.run, hrequire]
      rfl
  | parseAside text options =>
      obtain rfl := Option.some.inj hop
      rw [step, Engine.parseAside, Engine.run, hrequire]
      rfl
  | pack createdAt =>
      obtain rfl := Option.some.inj hop
      rw [step, Engine.pack, hrequire]
      rfl
  | compile => cases hop
  | loadBundle p => cases hop
  | setListener l => cases hop
  | takeListener => cases hop
  | addUtility name source => cases hop
  | equip generator compiler => cases hop

theorem loadBundle_eq_ok {p : PersistedBundle} {next : Engine} (h : e.loadBundle p = .ok next) :
    ∃ artifacts metadata recognizer, next = e.install { artifacts, recognizer, metadata } := by
  obtain ⟨⟨artifacts, metadata⟩, -, h⟩ := bind_eq_ok.mp h
  obtain ⟨recognizer, -, h⟩ := bind_eq_ok.mp h
  exact ⟨artifacts, metadata, recognizer, (Except.ok.inj h).symm⟩

theorem run_eq_ok {stream : CharStream} {options : ParseOptions} {r : ParseResult}
    (h : e.run stream options = .ok r) : ∃ b, e.loaded = some b := by
  cases hloaded : e.loaded with
  | some b => exact ⟨b, rfl⟩
  | none =>
      rw [run_eq, recognizer?, hloaded] at h
      cases h

theorem loaded_noteResult (e : Engine) (r : ParseResult) :
    (e.noteResult r).loaded =
      e.loaded.map fun b => { b with parsed := b.parsed || r.root.isSome } := by
  cases hroot : r.root.isSome <;> cases hloaded : e.loaded <;> simp [noteResult, hroot, hloaded]

/-- The event of performing an operation. -/
def performed (e : Engine) (op : EngineOperation) : EngineEvent := ⟨op, (e.step op).1⟩

/-- What an operation can do to what is loaded: replace it by something that has not produced a tree
and has generated units only from a compilation, take note of a result, or leave it as it is. -/
inductive Steps (e : Engine) (op : EngineOperation) : Prop
  | installed (b : LoadedBundle) (installs : (e.performed op).installs = true)
      (loaded : (e.step op).2.loaded = some b) (fresh : b.parsed = false)
      (generated : b.generated.isSome = true ↔ op = .compile)
  | noted (b : LoadedBundle) (installs : (e.performed op).installs = false)
      (before : e.loaded = some b)
      (loaded : (e.step op).2.loaded =
        some { b with parsed := b.parsed || (e.performed op).roots })
  | kept (installs : (e.performed op).installs = false) (roots : (e.performed op).roots = false)
      (loaded : (e.step op).2.loaded = e.loaded)

theorem steps_of_error {fault : EngineFault} (h : (e.step op).1 = .error fault) : Steps e op := by
  refine .kept ?_ ?_ (by rw [step_of_error h])
  · simp [performed, EngineEvent.installs, h, Except.isOk, Except.toBool]
  · simp [performed, EngineEvent.roots, h]

theorem steps_of_result {r : ParseResult} {next : Engine} (hreplaces : op.replaces = false)
    (hparses : op.parses = true) (hstep : e.step op = (.ok (.result r), next))
    (hloaded : ∃ b, e.loaded = some b)
    (hnext : next.loaded =
      e.loaded.map fun b => { b with parsed := b.parsed || r.root.isSome }) : Steps e op := by
  obtain ⟨b, hb⟩ := hloaded
  refine .noted b ?_ hb ?_
  · simp [performed, EngineEvent.installs, hreplaces]
  · have hroots : (e.performed op).roots = r.root.isSome := by
      simp [performed, EngineEvent.roots, hstep, hparses]
    rw [hstep, hnext, hb, hroots]
    rfl

theorem steps_of_attempt {α : Type} {x : Except EngineFault α} {answer : α → EngineAnswer × Engine}
    (hstep : e.step op = e.settle (x.map answer))
    (hok : ∀ a, x = .ok a → e.step op = (.ok (answer a).1, (answer a).2) → Steps e op) :
    Steps e op := by
  cases x with
  | error fault => exact steps_of_error (by rw [hstep]; rfl)
  | ok a => exact hok a rfl hstep

theorem steps (e : Engine) (op : EngineOperation) : Steps e op := by
  cases op with
  | compile =>
      refine steps_of_attempt rfl fun next h hstep => ?_
      obtain ⟨files, g, artifacts, recognizer, -, -, -, -, rfl⟩ := compile_eq_ok h
      exact .installed _ (by rw [performed, hstep]; rfl) (by rw [hstep]; rfl) rfl (by simp)
  | loadBundle p =>
      refine steps_of_attempt rfl fun next h hstep => ?_
      obtain ⟨artifacts, metadata, recognizer, rfl⟩ := loadBundle_eq_ok h
      exact .installed _ (by rw [performed, hstep]; rfl) (by rw [hstep]; rfl) rfl (by simp)
  | parse stream options =>
      refine steps_of_attempt rfl fun r h hstep => ?_
      obtain ⟨result, hrun, h⟩ := bind_eq_ok.mp h
      obtain rfl := Except.ok.inj h
      exact steps_of_result rfl rfl hstep (run_eq_ok hrun) (loaded_noteResult _ _)
  | parseAside text options =>
      refine steps_of_attempt rfl fun r h hstep => ?_
      obtain ⟨result, hrun, h⟩ := bind_eq_ok.mp h
      obtain rfl := Except.ok.inj h
      exact steps_of_result rfl rfl hstep (run_eq_ok hrun) (loaded_noteResult _ _)
  | pack createdAt =>
      refine steps_of_attempt rfl fun p h hstep => ?_
      exact .kept rfl (by rw [performed, hstep]; rfl) (by rw [hstep])
  | setListener l => exact .kept rfl rfl rfl
  | takeListener => exact .kept rfl rfl rfl
  | addUtility name source => exact .kept rfl rfl rfl
  | equip generator compiler => exact .kept rfl rfl rfl

/-! ## Reading the history -/

/-- An engine that is as its history says. -/
structure Follows (history : List EngineEvent) (e : Engine) : Prop where
  loaded : e.loaded.isSome = true ↔ (lastInstall? history).isSome = true
  generated : e.generated?.isSome = true ↔ lastInstall? history = some .compile
  ready : e.state = .ready ↔
    e.loaded.isSome = true ∧ ∃ event ∈ sinceInstall history, event.roots = true

theorem state_eq_ready_iff : e.state = .ready ↔ ∃ b, e.loaded = some b ∧ b.parsed = true := by
  cases h : e.loaded with
  | none => simp [state, h]
  | some b => cases hb : b.parsed <;> simp [state, h, hb]

theorem follows_nil (h : e.loaded = none) : Follows [] e := by
  constructor <;> simp [lastInstall?, sinceInstall, generated?, state, h]

theorem follows_of_installed {b : LoadedBundle} (hinstalls : event.installs = true)
    (hloaded : e.loaded = some b) (hfresh : b.parsed = false)
    (hgenerated : b.generated.isSome = true ↔ event.operation = .compile) :
    Follows (history ++ [event]) e := by
  constructor
  · simp [lastInstall?_concat_of_installs hinstalls, hloaded]
  · simp [lastInstall?_concat_of_installs hinstalls, generated?, hloaded, hgenerated]
  · simp [sinceInstall_concat_of_installs hinstalls, state_eq_ready_iff, hloaded, hfresh]

theorem Follows.of_noted {next : Engine} {b : LoadedBundle} (h : Follows history e)
    (hinstalls : event.installs = false) (hbefore : e.loaded = some b)
    (hloaded : next.loaded = some { b with parsed := b.parsed || event.roots }) :
    Follows (history ++ [event]) next := by
  have hready := h.ready
  rw [state_eq_ready_iff] at hready
  constructor
  · simp [lastInstall?_concat_of_not_installs hinstalls, hloaded, ← h.loaded, hbefore]
  · simp [lastInstall?_concat_of_not_installs hinstalls, ← h.generated, generated?, hloaded,
      hbefore]
  · simp only [hbefore, Option.some.injEq, exists_eq_left', Option.isSome_some, true_and] at hready
    simp [sinceInstall_concat_of_not_installs hinstalls, state_eq_ready_iff, hloaded, hready,
      or_comm]

theorem Follows.of_kept {next : Engine} (h : Follows history e) (hinstalls : event.installs = false)
    (hroots : event.roots = false) (hloaded : next.loaded = e.loaded) :
    Follows (history ++ [event]) next := by
  constructor
  · rw [lastInstall?_concat_of_not_installs hinstalls, hloaded, h.loaded]
  · rw [lastInstall?_concat_of_not_installs hinstalls, ← h.generated, generated?, generated?,
      hloaded]
  · have hready := h.ready
    rw [state_eq_ready_iff] at hready ⊢
    simp [sinceInstall_concat_of_not_installs hinstalls, hloaded, hready, hroots]

/-- An operation leaves an engine as its history says with the operation behind it. -/
theorem Follows.step (h : Follows history e) (op : EngineOperation) :
    Follows (history ++ [e.performed op]) (e.step op).2 := by
  cases steps e op with
  | installed b installs loaded fresh generated =>
      exact follows_of_installed installs loaded fresh generated
  | noted b installs before loaded => exact h.of_noted installs before loaded
  | kept installs roots loaded => exact h.of_kept installs roots loaded

/-- Whatever is performed, the engine is as the history says. -/
theorem Follows.perform (h : Follows history e) (ops : List EngineOperation) :
    Follows (history ++ (perform Engine.step e ops).1) (perform Engine.step e ops).2 := by
  induction ops generalizing history e with
  | nil => simpa [GrammarEngine.perform] using h
  | cons op ops ih =>
      have hrest := ih (h.step op)
      rw [List.append_assoc] at hrest
      exact hrest

end Engine

end GrammarEngine

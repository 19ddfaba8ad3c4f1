import GrammarEngine.Compile.Lexer
import GrammarEngine.Proofs.Automaton.Instructions

/-!
# Images of lexers

The compiler writes the images of a lexer so that they can be taken over: the header lists the units
of the rules in order, and every mode, address and alternative in the image of a rule exists.
-/
namespace GrammarEngine

/-- Names without duplicates differ. -/
theorem nodup_of_duplicates {what : String} {repeated : List NameAt} {seen : List String}
    (h : duplicates what seen repeated = []) :
    (repeated.map NameAt.name).Nodup ∧ ∀ n ∈ repeated, n.name ∉ seen := by
  induction repeated generalizing seen with
  | nil => exact ⟨List.nodup_nil, List.forall_mem_nil _⟩
  | cons n rest ih =>
      rw [duplicates] at h
      split at h
      · cases h
      · next hfresh => exact nodup_cons_of_fresh (by simpa using hfresh) (ih h)

namespace LexerDecl

variable {α β ε : Type} {d : LexerDecl} {index : UnitIndex}

/-! ## Results without faults -/

theorem mem_values {results : List (Except ε α)} {a : α} :
    a ∈ values results ↔ .ok a ∈ results := by
  simp only [values, List.mem_filterMap]
  constructor
  · rintro ⟨r, hr, ha⟩
    cases r with
    | error e => cases ha
    | ok b =>
        obtain rfl := Option.some.inj ha
        exact hr
  · intro h
    exact ⟨.ok a, h, rfl⟩

theorem mem_faults {results : List (Except CompileFault.Located α)} {e : CompileFault.Located} :
    e ∈ faults results ↔ .error e ∈ results := by
  simp only [faults, List.mem_filterMap]
  constructor
  · rintro ⟨r, hr, he⟩
    cases r with
    | error e' =>
        obtain rfl := Option.some.inj he
        exact hr
    | ok a => cases he
  · intro h
    exact ⟨.error e, h, rfl⟩

/-- Results that hold no fault are those of their values. -/
theorem eq_map_values {results : List (Except ε α)} (h : ∀ e, .error e ∉ results) :
    results = (values results).map .ok := by
  induction results with
  | nil => rfl
  | cons r rest ih =>
      have hrest := ih fun e he => h e (List.mem_cons_of_mem r he)
      cases r with
      | error e => exact absurd List.mem_cons_self (h e)
      | ok a =>
          have hvalues : values (.ok a :: rest) = a :: values rest := rfl
          rw [hvalues, List.map_cons, ← hrest]

theorem forall₂_values {f : α → Except ε β} {xs : List α} (h : ∀ e, .error e ∉ xs.map f) :
    List.Forall₂ (fun x b => f x = .ok b) xs (values (xs.map f)) := by
  have heq : List.Forall₂ Eq (xs.map f) ((values (xs.map f)).map .ok) :=
    List.forall₂_eq_eq_eq ▸ eq_map_values h
  exact List.forall₂_map_left_iff.mp (List.forall₂_map_right_iff.mp heq)

/-! ## Rules -/

theorem modeIndex?_lt {name : String} {m : UInt32} (h : d.modeIndex? name = some m) :
    m.toNat < d.modes.length := by
  obtain ⟨i, hi, rfl⟩ := Option.map_eq_some_iff.mp h
  have hle := Automaton.toNat_ofNat_le i
  have hlt := (List.findIdx?_eq_some_iff_findIdx_eq.mp hi).1
  omega

/-- An action switches to a mode that exists. -/
theorem switchedMode_lt {command : LexerCommand} {action : LexerAction} {m : UInt32}
    (h : d.action command = .ok action) (hm : LexerProgram.switchedMode? action = some m) :
    m.toNat < d.modes.length := by
  cases command with
  | skip | more | popMode =>
      cases h
      cases hm
  | channel name =>
      simp only [LexerDecl.action] at h
      split at h
      · cases h
        cases hm
      · cases h
  | type name =>
      simp only [LexerDecl.action] at h
      split at h
      · cases h
        cases hm
      · cases h
  | mode name | pushMode name =>
      simp only [LexerDecl.action] at h
      split at h
      · next hindex =>
        cases h
        cases hm
        exact modeIndex?_lt hindex
      · cases h

theorem compileRule_ne_error_nil {table : Automaton.Table} {r : LexerRuleDecl} :
    d.compileRule table r ≠ .error [] := by
  intro h
  simp only [compileRule] at h
  split at h
  · cases h
  · next hne =>
    injection h with h
    exact hne h
  · injection h with h
    exact absurd h (by simp)

/-- What a rule that compiles has been checked for. -/
theorem compileRule_cases {table : Automaton.Table} {r : LexerRuleDecl} {image : LexerRuleImage}
    (h : d.compileRule table r = .ok image) :
    ∃ code, Automaton.compileRule d.caseInsensitive table r.name
        (r.alternatives.map LexerAlternative.items) = .ok code ∧
      image.name = r.name ∧ d.modeIndex? r.mode = some image.mode ∧
      image.program = code.instructions ∧
      image.actions = r.alternatives.map fun a => values (a.commands.map d.actionAt) := by
  simp only [compileRule] at h
  split at h
  · next code hcode hfaults =>
    cases h
    obtain ⟨hmode, _⟩ := List.append_eq_nil_iff.mp (List.append_assoc _ _ _ ▸ hfaults)
    refine ⟨code, hcode, rfl, ?_, rfl, by rw [List.map_map]; rfl⟩
    cases hindex : d.modeIndex? r.mode with
    | none => simp [hindex] at hmode
    | some m => rfl
  · cases h
  · cases h

/-- A rule that compiles has the type of a token of its name, and every command of it has become an
action. -/
theorem compileRule_resolved {table : Automaton.Table} {r : LexerRuleDecl} {image : LexerRuleImage}
    (h : d.compileRule table r = .ok image) :
    image.name = r.name ∧ image.tokenType = r.type ∧ d.declares r = true ∧
      List.Forall₂ (fun a actions => List.Forall₂ (fun command action =>
        d.actionAt command = .ok action) a.commands actions) r.alternatives image.actions := by
  simp only [compileRule] at h
  split at h
  · next code hcode hfaults =>
    cases h
    obtain ⟨hfaults, hactions⟩ := List.append_eq_nil_iff.mp hfaults
    obtain ⟨-, htoken⟩ := List.append_eq_nil_iff.mp hfaults
    refine ⟨rfl, rfl, ?_, ?_⟩
    · cases hdeclares : d.declares r with
      | true => rfl
      | false => simp [hdeclares] at htoken
    · rw [List.map_map, List.forall₂_map_right_iff, List.forall₂_same]
      intro a ha
      apply forall₂_values
      intro e he
      have hnone := List.flatMap_eq_nil_iff.mp hactions _ (List.mem_map_of_mem ha)
      have hmem := mem_faults.mpr he
      rw [hnone] at hmem
      exact absurd hmem List.not_mem_nil
  · cases h
  · cases h

/-- The image of a rule refers to nothing in vain. -/
theorem corruption?_compileRule {table : Automaton.Table} {r : LexerRuleDecl}
    {image : LexerRuleImage} (h : d.compileRule table r = .ok image) :
    LexerProgram.corruption? d.modes.length image = none := by
  obtain ⟨code, hcode, _, hmode, hprogram, hactions⟩ := compileRule_cases h
  have hrange := Automaton.inRange_compileRule hcode
  rw [List.length_map] at hrange
  have hinstructions : (image.program.find? fun i =>
      !LexerProgram.inRange image.program.length image.actions.length i) = none := by
    rw [List.find?_eq_none, hprogram, hactions, List.length_map]
    intro i hi
    rw [hrange i hi]
    exact Bool.false_ne_true
  have hswitched : ((image.actions.flatten.filterMap LexerProgram.switchedMode?).find? fun m =>
      !decide (m.toNat < d.modes.length)) = none := by
    rw [List.find?_eq_none]
    intro m hm
    obtain ⟨action, haction, hm⟩ := List.mem_filterMap.mp hm
    rw [hactions] at haction
    obtain ⟨actions, hmem, haction⟩ := List.mem_flatten.mp haction
    obtain ⟨alternative, _, rfl⟩ := List.mem_map.mp hmem
    obtain ⟨command, _, hcommand⟩ := List.mem_map.mp (mem_values.mp haction)
    rw [actionAt] at hcommand
    cases hresult : d.action command.1 with
    | error e => simp [hresult, Except.mapError] at hcommand
    | ok found =>
        rw [hresult] at hcommand
        cases hcommand
        have hlt := switchedMode_lt hresult hm
        simpa using hlt
  rw [LexerProgram.corruption?, if_pos (modeIndex?_lt hmode), hinstructions]
  simp only
  rw [hswitched, Option.map_none]

/-! ## Lexers -/

/-- The images of a lexer: its header, which lists the units of its rules, and the rules, which
refer to nothing in vain. -/
def LexerImages (d : LexerDecl) (images : NamedImages) : Prop :=
  ∃ rules : List LexerRuleImage,
    images = (d.name, .lexerHeader d.header) ::
      rules.map (fun r => (innerName d.name r.name, .lexerRule r)) ∧
    d.header.ruleUnits = rules.map (fun r => innerName d.name r.name) ∧
    ∀ r ∈ rules, LexerProgram.corruption? d.header.modes.length r = none

theorem compile_ne_error_nil : d.compile index ≠ .error [] := by
  intro h
  simp only [compile] at h
  split at h
  · injection h with h
    cases h
  · split at h
    · cases h
    · next hne =>
      injection h with h
      exact hne h

/-- A lexer that compiles gives its header and an image for each of its rules. -/
theorem compile_cases {images : NamedImages} (h : d.compile index = .ok images) :
    ∃ library rules, baseLibrary d.base index = .ok library ∧
      images = (d.name, .lexerHeader d.header) ::
        rules.map (fun r => (innerName d.name r.name, .lexerRule r)) ∧
      List.Forall₂ (fun r image => d.compileRule (d.table library) r = .ok image)
        d.rules rules := by
  simp only [compile] at h
  split at h
  · cases h
  · next library hlibrary =>
    split at h
    · next hfaults =>
      cases h
      simp only [List.append_eq_nil_iff] at hfaults
      obtain ⟨⟨_, hrules⟩, _⟩ := hfaults
      have hnone : ∀ es, Except.error es ∉ d.rules.map (d.compileRule (d.table library)) := by
        intro es hes
        have hnil : es = [] := List.flatMap_eq_nil_iff.mp hrules _ hes
        obtain ⟨r, _, hr⟩ := List.mem_map.mp hes
        rw [hnil] at hr
        exact compileRule_ne_error_nil hr
      exact ⟨library, _, hlibrary, rfl, forall₂_values hnone⟩
    · cases h

theorem nodup_names_of_compile {images : NamedImages} (h : d.compile index = .ok images) :
    (d.names.map NameAt.name).Nodup := by
  simp only [compile] at h
  split at h
  · cases h
  · split at h
    · next hfaults =>
      obtain ⟨hrepeated, -⟩ := List.append_eq_nil_iff.mp (List.append_assoc _ _ _ ▸ hfaults)
      exact (nodup_of_duplicates hrepeated).1
    · cases h

theorem lexerImages_of_compile {images : NamedImages} (h : d.compile index = .ok images) :
    d.LexerImages images := by
  obtain ⟨library, rules, -, himages, hrules⟩ := compile_cases h
  refine ⟨rules, himages, ?_, fun image himage => ?_⟩
  · have hnames := hrules.imp fun r image hr => (compileRule_cases hr).choose_spec.2.1
    refine List.forall₂_eq_eq_eq ▸ ?_
    rw [header, List.forall₂_map_left_iff, List.forall₂_map_right_iff]
    exact hnames.imp fun r image hname => by rw [hname]
  · obtain ⟨r, _, hr⟩ := exists_of_mem_right hrules himage
    exact corruption?_compileRule hr

end LexerDecl

/-- Images that refer to nothing in vain can be taken over. -/
theorem LexerProgram.exists_ofImages {header : LexerHeader} {rules : List LexerRuleImage}
    (h : ∀ r ∈ rules, corruption? header.modes.length r = none) :
    ∃ l, ofImages header rules = .ok l ∧ l.name = header.name := by
  have hload : ∀ r ∈ rules, ∃ rule, loadRule header r = .ok rule := by
    intro r hr
    simp only [loadRule, h r hr]
    exact ⟨_, rfl⟩
  obtain ⟨loaded, hloaded⟩ := exists_mapM_eq_ok hload
  exact ⟨_, bind_eq_ok.mpr ⟨loaded, hloaded, rfl⟩, rfl⟩

end GrammarEngine

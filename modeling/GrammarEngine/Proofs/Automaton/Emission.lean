import GrammarEngine.Proofs.Automaton.Rules
import Mathlib.Data.List.Perm.Subperm
import Mathlib.Logic.Relation

/-!
# Rules that have a program

Code is written for every expression that is made of literals, sets, repetitions and references to
rules of the table, as long as no rule leads back to itself. The rules that are being inlined then
differ from each other, so there are never more of them than entries of the table, and the bound on
inlining is not reached.
-/
namespace GrammarEngine.Automaton

variable {P Q : String → Prop} {es : List Emitter} {e : Emitter} {ignoreCase : Bool}
  {inline : Inliner} {table : Table}

/-- An expression for which code can be written if it can be written for the rules that it names. -/
inductive Emits (P : String → Prop) : UnitExpr → Prop
  | empty : Emits P .empty
  | seq {items : List UnitExpr} : (∀ item ∈ items, Emits P item) → Emits P (.seq items)
  | choice {items : List UnitExpr} : (∀ item ∈ items, Emits P item) → Emits P (.choice items)
  | repeated {body : UnitExpr} (kind : Repetition) (isLazy : Bool) :
      Emits P body → Emits P (.repeated kind isLazy body)
  | literal (text : String) (p : Position) : Emits P (.literal text p)
  | ranges (ranges : List CharRanges.Range) (negated : Bool) : Emits P (.ranges ranges negated)
  | any : Emits P .any
  | ref {name : String} (p : Position) : P name → Emits P (.ref name p)

/-! ## Emitters that succeed -/

/-- Code is written at every address. -/
def Succeeds (e : Emitter) : Prop := ∀ pc, ∃ c, e pc = .ok c

theorem succeeds_skip : Succeeds skip := fun _ => ⟨_, rfl⟩

theorem succeeds_emit (instructions : List Instruction) : Succeeds (emit instructions) :=
  fun _ => ⟨_, rfl⟩

theorem succeeds_markLazy (h : Succeeds e) (isLazy : Bool) : Succeeds (markLazy isLazy e) := by
  intro pc
  obtain ⟨c, hc⟩ := h pc
  exact ⟨_, map_eq_ok.mpr ⟨c, hc, rfl⟩⟩

theorem succeeds_sequence (h : ∀ e ∈ es, Succeeds e) : Succeeds (sequence es) := by
  induction es with
  | nil => exact succeeds_skip
  | cons e rest ih =>
      intro pc
      obtain ⟨first, hfirst⟩ := h e List.mem_cons_self pc
      obtain ⟨others, hothers⟩ :=
        ih (fun e' he' => h e' (List.mem_cons_of_mem e he')) (pc + first.size)
      exact ⟨_, sequence_cons_eq_ok.mpr ⟨first, hfirst, others, hothers, rfl⟩⟩

theorem succeeds_alternation (h : ∀ e ∈ es, Succeeds e) : Succeeds (alternation es) := by
  induction es with
  | nil => exact succeeds_skip
  | cons e rest ih =>
      have he := h e List.mem_cons_self
      cases rest with
      | nil => exact he
      | cons e' rest =>
          intro pc
          obtain ⟨first, hfirst⟩ := he (pc + 1)
          obtain ⟨others, hothers⟩ :=
            ih (fun d hd => h d (List.mem_cons_of_mem e hd)) (pc + 1 + first.size + 1)
          exact ⟨_, alternation_cons_eq_ok.mpr ⟨first, hfirst, _, rfl, others, hothers, rfl⟩⟩

theorem succeeds_repetition (h : Succeeds e) (kind : Repetition) :
    Succeeds (repetition kind e) := by
  intro pc
  cases kind with
  | optional =>
      obtain ⟨body, hbody⟩ := h (pc + 1)
      exact ⟨_, optional_eq_ok.mpr ⟨body, hbody, rfl⟩⟩
  | zeroOrMore =>
      obtain ⟨body, hbody⟩ := h (pc + 1)
      exact ⟨_, zeroOrMore_eq_ok.mpr ⟨body, hbody, rfl⟩⟩
  | oneOrMore =>
      obtain ⟨body, hbody⟩ := h pc
      exact ⟨_, oneOrMore_eq_ok.mpr ⟨body, hbody, rfl⟩⟩

theorem succeeds_ruleEmitter (h : ∀ e ∈ es, Succeeds e) (index : Nat) :
    Succeeds (ruleEmitter index es) := by
  induction es generalizing index with
  | nil => exact fun _ => ⟨_, rfl⟩
  | cons e rest ih =>
      intro pc
      have he := h e List.mem_cons_self
      cases rest with
      | nil =>
          obtain ⟨only, honly⟩ := he pc
          exact ⟨only ++ accept index, by rw [ruleEmitter, honly]; rfl⟩
      | cons e' rest =>
          obtain ⟨first, hfirst⟩ := he (pc + 1)
          obtain ⟨others, hothers⟩ :=
            ih (fun d hd => h d (List.mem_cons_of_mem e hd)) (index + 1) (pc + 1 + first.size + 1)
          refine ⟨split (pc + 1) (pc + 1 + first.size + 1) ++ first ++ accept index ++ others, ?_⟩
          simp [ruleEmitter, hfirst, hothers, bind, Except.bind, pure, Except.pure]

theorem succeeds_emitter {u : UnitExpr} (hu : Emits P u)
    (hinline : ∀ name, P name → ∀ p, Succeeds (inline name p)) :
    Succeeds (emitter ignoreCase inline u) := by
  induction hu with
  | empty => exact succeeds_skip
  | seq _ ih =>
      rw [emitter, emitters_eq_map]
      refine succeeds_sequence fun e he => ?_
      obtain ⟨item, hitem, rfl⟩ := List.mem_map.mp he
      exact ih item hitem
  | choice _ ih =>
      rw [emitter, emitters_eq_map]
      refine succeeds_alternation fun e he => ?_
      obtain ⟨item, hitem, rfl⟩ := List.mem_map.mp he
      exact ih item hitem
  | repeated kind isLazy _ ih => exact succeeds_markLazy (succeeds_repetition ih kind) isLazy
  | literal text p => exact succeeds_emit _
  | ranges rs negated => exact succeeds_emit _
  | any => exact succeeds_emit _
  | ref p hname => exact hinline _ hname p

theorem succeeds_items {items : List UnitExpr} (hitems : ∀ u ∈ items, Emits P u)
    (hinline : ∀ name, P name → ∀ p, Succeeds (inline name p)) :
    Succeeds (sequence (emitters ignoreCase inline items)) := by
  rw [emitters_eq_map]
  refine succeeds_sequence fun e he => ?_
  obtain ⟨u, hu, rfl⟩ := List.mem_map.mp he
  exact succeeds_emitter (hitems u hu) hinline

/-! ## Tables without cycles -/

def Table.names (table : Table) : List String := table.map Prod.fst

/-- The rules of a table name each other as a relation says, and no rule leads back to itself. -/
structure Grounded (R : String → String → Prop) (table : Table) : Prop where
  emits : ∀ name alternatives, (name, alternatives) ∈ table → ∀ items ∈ alternatives,
    ∀ u ∈ items, Emits (fun other => R name other ∧ other ∈ table.names) u
  acyclic : ∀ name, ¬ Relation.TransGen R name name

theorem exists_lookup {name : String} (h : name ∈ table.names) :
    ∃ alternatives, table.lookup name = some alternatives ∧ (name, alternatives) ∈ table := by
  induction table with
  | nil => cases h
  | cons entry rest ih =>
      obtain ⟨key, alternatives⟩ := entry
      by_cases hkey : name = key
      · subst hkey
        exact ⟨alternatives, List.lookup_cons_self, List.mem_cons_self⟩
      · have hrest : name ∈ Table.names rest := (List.mem_cons.mp h).resolve_left hkey
        obtain ⟨found, hlookup, hmem⟩ := ih hrest
        have hne : (name == key) = false := by simpa using hkey
        exact ⟨found, by rw [List.lookup_cons, hne, hlookup], List.mem_cons_of_mem _ hmem⟩

variable {R : String → String → Prop}

/-- The induction is on the bound: with every rule that is inlined there is one more that must not
appear again, and all of them are names of the table. -/
theorem Grounded.succeeds_inlineAt (h : Grounded R table) (bound : Nat) {active : List String}
    {name : String} (hactive : ∀ other ∈ active, Relation.TransGen R other name)
    (hnodup : active.Nodup) (hsub : active ⊆ table.names) (hname : name ∈ table.names)
    (hbound : table.length < active.length + bound) (p : Position) :
    Succeeds (inlineAt ignoreCase table bound active name p) := by
  induction bound generalizing active name p with
  | zero =>
      have hle : active.length ≤ table.names.length :=
        (List.subperm_of_subset hnodup hsub).length_le
      rw [Table.names, List.length_map] at hle
      omega
  | succ bound ih =>
      have hfresh : name ∉ active := fun hin => h.acyclic name (hactive name hin)
      obtain ⟨alternatives, hlookup, hmem⟩ := exists_lookup hname
      rw [inlineAt, if_neg (by simpa using hfresh), hlookup]
      refine succeeds_alternation fun e he => ?_
      obtain ⟨items, hitems, rfl⟩ := List.mem_map.mp he
      refine succeeds_items (h.emits name alternatives hmem items hitems) ?_
      intro next hnext p'
      refine ih ?_ (List.nodup_cons.mpr ⟨hfresh, hnodup⟩) ?_ hnext.2 ?_ p'
      · intro other hother
        rcases List.mem_cons.mp hother with rfl | hother
        · exact .single hnext.1
        · exact (hactive other hother).tail hnext.1
      · exact List.cons_subset.mpr ⟨hname, hsub⟩
      · rw [List.length_cons]
        omega

/-- Every rule of such a table has a program. -/
theorem Grounded.exists_compileRule (h : Grounded R table) {name : String}
    {alternatives : List (List UnitExpr)} (hmem : (name, alternatives) ∈ table) :
    ∃ code, compileRule ignoreCase table name alternatives = .ok code := by
  have hname : name ∈ table.names := List.mem_map.mpr ⟨_, hmem, rfl⟩
  refine succeeds_ruleEmitter (fun e he => ?_) 0 0
  obtain ⟨items, hitems, rfl⟩ := List.mem_map.mp he
  refine succeeds_items (h.emits name alternatives hmem items hitems) fun next hnext p => ?_
  refine h.succeeds_inlineAt _ (fun other hother => ?_) (List.nodup_singleton name)
    (List.cons_subset.mpr ⟨hname, List.nil_subset _⟩) hnext.2 ?_ p
  · rw [List.mem_singleton.mp hother]
    exact .single hnext.1
  · rw [List.length_singleton]
    omega

end GrammarEngine.Automaton

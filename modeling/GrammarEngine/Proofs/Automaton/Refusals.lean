import GrammarEngine.Proofs.Automaton.Emission
import GrammarEngine.Proofs.Automaton.Instructions

/-!
# Rules that have no program

A rule is refused exactly if a reference can be reached from it that leads back to a rule on the way
or names no rule, or a construct that only parsers have. References are followed through every
alternative, whatever a text may look like. The bound on inlining does not tell: the names on the
way differ from each other and all but the first are names of the table, so a walk ends before it.
-/
namespace GrammarEngine.Automaton

variable {ignoreCase : Bool} {inline : Inliner} {table : Table} {path : List String}
  {e : Emitter} {es : List Emitter} {u : UnitExpr}

/-- An expression is met inside another one after references have been followed. The names of the
rules on the way are kept, the latest one first. -/
inductive Reaches (table : Table) : List String → UnitExpr → List String → UnitExpr → Prop
  | here (path : List String) (u : UnitExpr) : Reaches table path u path u
  | seq {path path' : List String} {items : List UnitExpr} {item v : UnitExpr} :
      item ∈ items → Reaches table path item path' v → Reaches table path (.seq items) path' v
  | choice {path path' : List String} {items : List UnitExpr} {item v : UnitExpr} :
      item ∈ items → Reaches table path item path' v → Reaches table path (.choice items) path' v
  | repeated {path path' : List String} {body v : UnitExpr} (kind : Repetition) (isLazy : Bool) :
      Reaches table path body path' v → Reaches table path (.repeated kind isLazy body) path' v
  | ref {path path' : List String} {name : String} {alternatives : List (List UnitExpr)}
      {items : List UnitExpr} {item v : UnitExpr} (p : Position) :
      table.lookup name = some alternatives → items ∈ alternatives → item ∈ items →
      Reaches table (name :: path) item path' v → Reaches table path (.ref name p) path' v

/-- An expression that ends inlining: a reference to a rule on the way or to no rule at all, or a
construct of parsers. -/
def Forbidden (table : Table) (path : List String) : UnitExpr → Prop
  | .ref name _ => name ∈ path ∨ table.lookup name = none
  | .token _ _ | .notTokens _ _ | .invoke _ _ _ | .eof => True
  | _ => False

/-- Nothing forbidden is met in an expression. -/
def Clear (table : Table) (path : List String) (u : UnitExpr) : Prop :=
  ∀ path' v, Reaches table path u path' v → ¬Forbidden table path' v

/-! ## Expressions in which nothing is forbidden -/

/-- A name whose rule can be inlined and is clear itself. -/
def Enterable (table : Table) (path : List String) (name : String) : Prop :=
  name ∉ path ∧ ∃ alternatives, table.lookup name = some alternatives ∧
    ∀ items ∈ alternatives, ∀ item ∈ items, Clear table (name :: path) item

theorem Clear.enterable {name : String} {p : Position} (h : Clear table path (.ref name p)) :
    Enterable table path name := by
  have hname := h path (.ref name p) (.here path _)
  have hfresh : name ∉ path := fun hin => hname (.inl hin)
  cases hlookup : table.lookup name with
  | none => exact absurd (.inr hlookup) hname
  | some alternatives =>
      refine ⟨hfresh, alternatives, hlookup, fun items hitems item hitem path' v hv => ?_⟩
      exact h path' v (.ref p hlookup hitems hitem hv)

mutual
/-- A clear expression only needs code for the rules that it names. -/
theorem Clear.emits : ∀ u : UnitExpr, Clear table path u → Emits (Enterable table path) u
  | .empty, _ => .empty
  | .seq items, h =>
      .seq (clear_emits_items items fun _ hitem path' v hv => h path' v (.seq hitem hv))
  | .choice items, h =>
      .choice (clear_emits_items items fun _ hitem path' v hv => h path' v (.choice hitem hv))
  | .repeated kind isLazy body, h =>
      .repeated kind isLazy
        (Clear.emits body fun path' v hv => h path' v (.repeated kind isLazy hv))
  | .literal text p, _ => .literal text p
  | .ranges rs negated, _ => .ranges rs negated
  | .any, _ => .any
  | .ref _ p, h => .ref p h.enterable
  | .token name p, h => absurd trivial (h path (.token name p) (.here path _))
  | .notTokens names p, h => absurd trivial (h path (.notTokens names p) (.here path _))
  | .invoke name precedence p, h =>
      absurd trivial (h path (.invoke name precedence p) (.here path _))
  | .eof, h => absurd trivial (h path .eof (.here path _))

theorem clear_emits_items : ∀ items : List UnitExpr, (∀ item ∈ items, Clear table path item) →
    ∀ item ∈ items, Emits (Enterable table path) item
  | [], _, _, hitem => absurd hitem List.not_mem_nil
  | first :: rest, h, item, hitem => by
      rcases List.mem_cons.mp hitem with heq | hitem
      · rw [heq]
        exact Clear.emits first (h first List.mem_cons_self)
      · exact clear_emits_items rest (fun u hu => h u (List.mem_cons_of_mem first hu)) item hitem
end

theorem succeeds_alternatives {alternatives : List (List UnitExpr)}
    (h : ∀ items ∈ alternatives, ∀ item ∈ items, Clear table path item)
    (hinline : ∀ name, Enterable table path name → ∀ p, Succeeds (inline name p)) :
    ∀ e ∈ alternatives.map fun items => sequence (emitters ignoreCase inline items),
      Succeeds e := by
  intro e he
  obtain ⟨items, hitems, rfl⟩ := List.mem_map.mp he
  exact succeeds_items (fun item hitem => Clear.emits item (h items hitems item hitem)) hinline

/-! ## The bound on inlining -/

theorem mem_names_of_lookup {name : String} {alternatives : List (List UnitExpr)}
    (h : table.lookup name = some alternatives) : name ∈ table.names := by
  induction table with
  | nil => cases h
  | cons entry rest ih =>
      obtain ⟨key, found⟩ := entry
      rw [List.lookup_cons] at h
      by_cases hkey : name = key
      · exact List.mem_cons.mpr (.inl hkey)
      · have hne : (name == key) = false := by simpa using hkey
        rw [hne] at h
        exact List.mem_cons_of_mem key (ih h)

/-- The names on the way to an inlined rule: different names of the table after a first one that
may be any. The bound leaves room for every name that is not among them. -/
structure Room (table : Table) (bound : Nat) (path : List String) : Prop where
  exists_inlined : ∃ inlined name, path = inlined ++ [name] ∧ path.Nodup ∧
    inlined ⊆ table.names ∧ table.length < inlined.length + bound

theorem Room.rule {bound : Nat} (name : String) (h : table.length < bound) :
    Room table bound [name] :=
  ⟨[], name, rfl, List.nodup_singleton name, List.nil_subset _, by simpa using h⟩

theorem Room.ne_zero (h : Room table 0 path) : False := by
  obtain ⟨inlined, name, hpath, hnodup, hsub, hbound⟩ := h.exists_inlined
  rw [hpath] at hnodup
  have hle : inlined.length ≤ table.names.length :=
    (List.subperm_of_subset hnodup.of_append_left hsub).length_le
  rw [Table.names, List.length_map] at hle
  omega

theorem Room.enter {bound : Nat} {name : String} {alternatives : List (List UnitExpr)}
    (h : Room table (bound + 1) path) (hfresh : name ∉ path)
    (hlookup : table.lookup name = some alternatives) : Room table bound (name :: path) := by
  obtain ⟨inlined, first, hpath, hnodup, hsub, hbound⟩ := h.exists_inlined
  refine ⟨name :: inlined, first, ?_, List.nodup_cons.mpr ⟨hfresh, hnodup⟩, ?_, ?_⟩
  · rw [hpath, List.cons_append]
  · exact List.cons_subset.mpr ⟨mem_names_of_lookup hlookup, hsub⟩
  · rw [List.length_cons]
    omega

/-- With room for every name, the bound does not tell. -/
theorem inlineAt_eq {bound bound' : Nat} (h : Room table bound path) (h' : Room table bound' path) :
    inlineAt ignoreCase table bound path = inlineAt ignoreCase table bound' path := by
  induction bound generalizing bound' path with
  | zero => exact h.ne_zero.elim
  | succ bound ih =>
      cases bound' with
      | zero => exact h'.ne_zero.elim
      | succ bound' =>
          funext name p
          rw [inlineAt, inlineAt]
          by_cases hfresh : name ∈ path
          · have hactive : path.contains name = true := by simpa using hfresh
            rw [if_pos hactive, if_pos hactive]
          · have hinactive : ¬path.contains name = true := by simpa using hfresh
            rw [if_neg hinactive, if_neg hinactive]
            cases hlookup : table.lookup name with
            | none => rfl
            | some alternatives => rw [ih (h.enter hfresh hlookup) (h'.enter hfresh hlookup)]

theorem succeeds_inlineAt {bound : Nat} (h : Room table bound path) {name : String}
    (hname : Enterable table path name) (p : Position) :
    Succeeds (inlineAt ignoreCase table bound path name p) := by
  induction bound generalizing path name p with
  | zero => exact h.ne_zero.elim
  | succ bound ih =>
      obtain ⟨hfresh, alternatives, hlookup, hclear⟩ := hname
      have hroom := h.enter hfresh hlookup
      rw [inlineAt, if_neg (by simpa using hfresh), hlookup]
      apply succeeds_alternation
      apply succeeds_alternatives hclear
      intro next hnext p'
      exact ih hroom hnext p'

/-! ## Parts of code that is written -/

/-- Code is written at some address. -/
def Answers (e : Emitter) : Prop := ∃ pc c, e pc = .ok c

theorem not_answers_refuse (p : Position) (fault : CompileFault) : ¬Answers (refuse p fault) := by
  intro ⟨_, _, h⟩
  cases h

theorem Answers.of_sequence (h : Answers (sequence es)) : ∀ e ∈ es, Answers e := by
  induction es with
  | nil => exact fun e he => absurd he List.not_mem_nil
  | cons first rest ih =>
      obtain ⟨pc, c, hc⟩ := h
      obtain ⟨code, hcode, others, hothers, -⟩ := sequence_cons_eq_ok.mp hc
      intro e he
      rcases List.mem_cons.mp he with rfl | he
      · exact ⟨pc, code, hcode⟩
      · exact ih ⟨_, others, hothers⟩ e he

theorem Answers.of_alternation (h : Answers (alternation es)) : ∀ e ∈ es, Answers e := by
  induction es with
  | nil => exact fun e he => absurd he List.not_mem_nil
  | cons first rest ih =>
      intro e he
      cases rest with
      | nil =>
          rw [List.mem_singleton.mp he]
          exact h
      | cons second rest =>
          obtain ⟨pc, c, hc⟩ := h
          obtain ⟨code, hcode, next, -, others, hothers, -⟩ := alternation_cons_eq_ok.mp hc
          rcases List.mem_cons.mp he with rfl | he
          · exact ⟨_, code, hcode⟩
          · exact ih ⟨next, others, hothers⟩ e he

theorem Answers.of_repetition {kind : Repetition} (h : Answers (repetition kind e)) :
    Answers e := by
  obtain ⟨pc, c, hc⟩ := h
  cases kind with
  | optional =>
      obtain ⟨body, hbody, -⟩ := optional_eq_ok.mp hc
      exact ⟨_, body, hbody⟩
  | zeroOrMore =>
      obtain ⟨body, hbody, -⟩ := zeroOrMore_eq_ok.mp hc
      exact ⟨_, body, hbody⟩
  | oneOrMore =>
      obtain ⟨body, hbody, -⟩ := oneOrMore_eq_ok.mp hc
      exact ⟨_, body, hbody⟩

theorem Answers.of_markLazy {isLazy : Bool} (h : Answers (markLazy isLazy e)) : Answers e := by
  obtain ⟨pc, c, hc⟩ := h
  obtain ⟨body, hbody, -⟩ := map_eq_ok.mp hc
  exact ⟨pc, body, hbody⟩

theorem Answers.of_ruleEmitter {index : Nat} (h : Answers (ruleEmitter index es)) :
    ∀ e ∈ es, Answers e := by
  induction es generalizing index with
  | nil => exact fun e he => absurd he List.not_mem_nil
  | cons first rest ih =>
      intro e he
      obtain ⟨pc, c, hc⟩ := h
      cases rest with
      | nil =>
          obtain ⟨body, hbody, -⟩ := ruleEmitter_singleton_eq_ok.mp hc
          rw [List.mem_singleton.mp he]
          exact ⟨pc, body, hbody⟩
      | cons second rest =>
          obtain ⟨code, hcode, next, -, others, hothers, -⟩ := ruleEmitter_cons_eq_ok.mp hc
          rcases List.mem_cons.mp he with rfl | he
          · exact ⟨_, code, hcode⟩
          · exact ih ⟨next, others, hothers⟩ e he

theorem Answers.of_emitters {items : List UnitExpr}
    (h : ∀ e ∈ emitters ignoreCase inline items, Answers e) :
    ∀ item ∈ items, Answers (emitter ignoreCase inline item) := by
  intro item hitem
  apply h
  rw [emitters_eq_map]
  exact List.mem_map_of_mem hitem

/-- The items of every alternative that is written have been written. -/
theorem Answers.of_items {alternatives : List (List UnitExpr)} {items : List UnitExpr}
    {item : UnitExpr}
    (h : ∀ e ∈ alternatives.map fun items => sequence (emitters ignoreCase inline items), Answers e)
    (hitems : items ∈ alternatives) (hitem : item ∈ items) :
    Answers (emitter ignoreCase inline item) :=
  Answers.of_emitters (h _ (List.mem_map_of_mem hitems)).of_sequence item hitem

/-- A rule that has been inlined was not on the way, and has been found. -/
theorem Answers.of_inlineAt {bound : Nat} {name : String} {p : Position}
    (h : Answers (inlineAt ignoreCase table bound path name p)) :
    name ∉ path ∧ ∃ alternatives, table.lookup name = some alternatives ∧ ∃ bound',
      ∀ items ∈ alternatives, ∀ item ∈ items,
        Answers (emitter ignoreCase (inlineAt ignoreCase table bound' (name :: path)) item) := by
  cases bound with
  | zero => exact absurd h (not_answers_refuse p _)
  | succ bound =>
      rw [inlineAt] at h
      by_cases hactive : path.contains name = true
      · rw [if_pos hactive] at h
        exact absurd h (not_answers_refuse p _)
      · rw [if_neg hactive] at h
        cases hlookup : table.lookup name with
        | none =>
            rw [hlookup] at h
            exact absurd h (not_answers_refuse p _)
        | some alternatives =>
            rw [hlookup] at h
            refine ⟨by simpa using hactive, alternatives, rfl, bound, ?_⟩
            intro items hitems item hitem
            exact Answers.of_items h.of_alternation hitems hitem

/-- What is met in an expression for which code is written is not forbidden. The induction is on the
way to it; every reference on the way has been inlined, so code was written for what it named. -/
theorem Answers.not_forbidden {path' : List String} {v : UnitExpr}
    (hv : Reaches table path u path' v) {bound : Nat}
    (h : Answers (emitter ignoreCase (inlineAt ignoreCase table bound path) u)) :
    ¬Forbidden table path' v := by
  induction hv generalizing bound with
  | here path u =>
      intro hforbidden
      cases u with
      | ref name p =>
          obtain ⟨hfresh, alternatives, hlookup, -⟩ := Answers.of_inlineAt h
          rcases hforbidden with hin | hnone
          · exact hfresh hin
          · rw [hlookup] at hnone
            cases hnone
      | token | notTokens | invoke | eof => exact not_answers_refuse _ _ h
      | empty | seq | choice | repeated | literal | ranges | any => exact hforbidden
  | seq hitem _ ih =>
      rw [emitter] at h
      exact ih (Answers.of_emitters h.of_sequence _ hitem)
  | choice hitem _ ih =>
      rw [emitter] at h
      exact ih (Answers.of_emitters h.of_alternation _ hitem)
  | repeated kind isLazy _ ih =>
      rw [emitter] at h
      exact ih h.of_markLazy.of_repetition
  | ref p hlookup hitems hitem _ ih =>
      rw [emitter] at h
      obtain ⟨-, found, hfound, bound', hbodies⟩ := Answers.of_inlineAt h
      rw [hlookup] at hfound
      cases hfound
      exact ih (hbodies _ hitems _ hitem)

/-! ## Refused rules -/

/-- Inlining ends for every table, whatever its rules name. It fails exactly if a reference can be
reached from the rule that names a rule on the way or no rule, or a construct of parsers; the
program of a rule that does not fail stays inside itself, and reports alternatives of the rule. -/
theorem compileRule_exact (ignoreCase : Bool) (table : Table) (name : String)
    (alternatives : List (List UnitExpr)) :
    (∀ bound, table.length < bound →
      ruleEmitter 0 (alternatives.map fun items =>
          sequence (emitters ignoreCase (inlineAt ignoreCase table bound [name]) items)) 0 =
        compileRule ignoreCase table name alternatives) ∧
    ((∃ fault, compileRule ignoreCase table name alternatives = .error fault) ↔
      ∃ items ∈ alternatives, ∃ item ∈ items, ∃ path v,
        Reaches table [name] item path v ∧ Forbidden table path v) ∧
    ∀ code, compileRule ignoreCase table name alternatives = .ok code →
      (∀ first second, .split first second ∈ code.instructions →
        first.toNat < code.size ∧ second.toNat < code.size) ∧
      (∀ target, .jump target ∈ code.instructions → target.toNat < code.size) ∧
      ∀ alternative, .accept alternative ∈ code.instructions →
        alternative.toNat < alternatives.length := by
  have hroom : Room table (table.length + 1) [name] := .rule name (Nat.lt_succ_self _)
  refine ⟨fun bound hbound => ?_, ⟨?_, ?_⟩, fun code hcode => ⟨?_, ?_, ?_⟩⟩
  · rw [compileRule, inlineAt_eq (.rule name hbound) hroom]
  · intro ⟨fault, hfault⟩
    by_contra hnone
    have hclear : ∀ items ∈ alternatives, ∀ item ∈ items, Clear table [name] item :=
      fun items hitems item hitem path v hv hforbidden =>
        hnone ⟨items, hitems, item, hitem, path, v, hv, hforbidden⟩
    have hemitters : ∀ e ∈ alternatives.map fun items => sequence (emitters ignoreCase
        (inlineAt ignoreCase table (table.length + 1) [name]) items), Succeeds e :=
      succeeds_alternatives hclear fun next hnext p => succeeds_inlineAt hroom hnext p
    obtain ⟨code, hcode⟩ := succeeds_ruleEmitter hemitters 0 0
    have hok : compileRule ignoreCase table name alternatives = .ok code := hcode
    rw [hfault] at hok
    cases hok
  · intro ⟨items, hitems, item, hitem, path, v, hv, hforbidden⟩
    cases hcode : compileRule ignoreCase table name alternatives with
    | error fault => exact ⟨fault, rfl⟩
    | ok code =>
        have hanswers := Answers.of_ruleEmitter ⟨0, code, hcode⟩
        exact absurd hforbidden (Answers.not_forbidden hv (Answers.of_items hanswers hitems hitem))
  · intro first second hmem
    have hrange := inRange_compileRule hcode _ hmem
    simpa [LexerProgram.inRange, Code.size] using hrange
  · intro target hmem
    have hrange := inRange_compileRule hcode _ hmem
    simpa [LexerProgram.inRange, Code.size] using hrange
  · intro alternative hmem
    have hrange := inRange_compileRule hcode _ hmem
    simpa [LexerProgram.inRange] using hrange

/-- Round brackets hold square ones, and these hold round ones again. -/
def bracketTable : Table :=
  [("Round", [[.literal "(" .unknown, .repeated .zeroOrMore false (.ref "Square" .unknown),
      .literal ")" .unknown]]),
    ("Square", [[.any], [.literal "[" .unknown, .ref "Round" .unknown, .literal "]" .unknown]])]

def lineAlternatives : List (List UnitExpr) :=
  [[.repeated .zeroOrMore false .any], [.literal "." .unknown]]

def lineCode : Code where
  instructions := [.split 1 5, .split 2 4, .any, .jump 1, .accept 0, .char 46, .accept 1]

/-- The second alternative of square brackets leads back to the round ones, so these have no
program. A rule that does not name them has one. -/
theorem bracketTable_programs :
    (bracketTable.length < 3 ∧ ruleEmitter 0 (lineAlternatives.map fun items =>
        sequence (emitters false (inlineAt false bracketTable 3 ["Line"]) items)) 0 =
      compileRule false bracketTable "Line" lineAlternatives) ∧
      (Reaches bracketTable ["Round"] (.ref "Square" .unknown) ["Square", "Round"]
          (.ref "Round" .unknown) ∧
        ∃ fault, compileRule false bracketTable "Round" [[.any, .ref "Square" .unknown]] =
          .error fault) ∧
      compileRule false bracketTable "Line" lineAlternatives = .ok lineCode ∧
      (5 : UInt32).toNat < lineCode.size := by
  have hround := compileRule_exact false bracketTable "Round" [[.any, .ref "Square" .unknown]]
  have hline := compileRule_exact false bracketTable "Line" lineAlternatives
  have hreaches : Reaches bracketTable ["Round"] (.ref "Square" .unknown) ["Square", "Round"]
      (.ref "Round" .unknown) := by
    apply Reaches.ref .unknown rfl (List.mem_cons_of_mem _ List.mem_cons_self)
      (List.mem_cons_of_mem _ List.mem_cons_self)
    apply Reaches.here
  have hforbidden : Forbidden bracketTable ["Square", "Round"] (.ref "Round" .unknown) :=
    .inl (List.mem_cons_of_mem _ List.mem_cons_self)
  have hcode : compileRule false bracketTable "Line" lineAlternatives = .ok lineCode := rfl
  refine ⟨⟨by decide, hline.1 3 (by decide)⟩, ⟨hreaches, ?_⟩, hcode, ?_⟩
  · apply hround.2.1.mpr
    exact ⟨_, List.mem_cons_self, _, List.mem_cons_of_mem _ List.mem_cons_self, _, _, hreaches,
      hforbidden⟩
  · exact ((hline.2.2 lineCode hcode).1 1 5 List.mem_cons_self).2

end GrammarEngine.Automaton

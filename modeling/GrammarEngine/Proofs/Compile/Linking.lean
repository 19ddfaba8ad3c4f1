import GrammarEngine.Proofs.Acceptance.Parsers
import GrammarEngine.Proofs.Compile.Edges

/-!
# Libraries that are linked

Lowering appends the rules of a library as it meets their names. What a step leaves behind is told
by the names that it invokes alone, so the table of rules at the end is the table at the start with
the rules behind all these names, in order. Whatever is appended, a name keeps its number; that is
why a body that was lowered while the table was growing is the body that the finished table gives.
-/
namespace GrammarEngine

mutual
/-- The names of the rules that an expression invokes, in order. -/
def UnitExpr.invoked : UnitExpr → List String
  | .seq items => UnitExpr.invokedAll items
  | .choice items => UnitExpr.invokedAll items
  | .repeated _ _ body => body.invoked
  | .invoke name _ _ => [name]
  | _ => []

def UnitExpr.invokedAll : List UnitExpr → List String
  | [] => []
  | u :: us => u.invoked ++ UnitExpr.invokedAll us
end

/-- The names of the rules that a body invokes, in order. -/
def ParserRuleBody.invoked : ParserRuleBody → List String
  | .plain alternatives => alternatives.flatMap UnitExpr.invokedAll
  | .leftRecursive primaries suffixes =>
    primaries.flatMap UnitExpr.invokedAll ++ suffixes.flatMap fun s => UnitExpr.invokedAll s.2

namespace ParserDecl

variable {α β : Type} {scope : Scope} {own rules rules' : List ParserRuleDecl}
  {name other : String} {names names' : List String}

/-! ## Rules behind names -/

/-- A table with the rule of a name, which is taken from the library if the table has none. -/
def demand (scope : Scope) (rules : List ParserRuleDecl) (name : String) : List ParserRuleDecl :=
  match indexOf? rules name with
  | some _ => rules
  | none => rules ++ (libraryRule? scope name).toList

def demandAll (scope : Scope) (rules : List ParserRuleDecl) (names : List String) :
    List ParserRuleDecl :=
  names.foldl (demand scope) rules

theorem demandAll_cons : demandAll scope rules (name :: names) =
    demandAll scope (demand scope rules name) names := rfl

theorem demandAll_append : demandAll scope rules (names ++ names') =
    demandAll scope (demandAll scope rules names) names' :=
  List.foldl_append

theorem indexOf?_eq_none : indexOf? rules name = none ↔ name ∉ rules.map ParserRuleDecl.name := by
  constructor
  · intro h hname
    obtain ⟨i, hi⟩ := exists_indexOf? hname
    rw [h] at hi
    cases hi
  · intro h
    cases hindex : indexOf? rules name with
    | none => rfl
    | some i =>
        obtain ⟨r, hr, rfl⟩ := name_of_indexOf? hindex
        exact absurd (List.mem_map_of_mem (List.mem_of_getElem? hr)) h

/-- A rule that is appended takes the number of its place, and the names before it keep theirs. -/
theorem indexOf?_concat (rules : List ParserRuleDecl) (r : ParserRuleDecl) (name : String) :
    indexOf? (rules ++ [r]) name =
      if r.name = name then some rules.length else indexOf? rules name := by
  rw [indexOf?, indexOf?, List.reverse_append, List.reverse_singleton, List.singleton_append,
    List.findIdx?_cons, List.length_append, List.length_singleton]
  by_cases hname : r.name = name
  · rw [if_pos hname, if_pos (beq_iff_eq.mpr hname)]
    rfl
  · rw [if_neg hname, if_neg (by simpa using hname), Option.map_map]
    congr 1
    funext i
    simp only [Function.comp_apply]
    omega

theorem name_of_libraryRule? {r : ParserRuleDecl} (h : libraryRule? scope name = some r) :
    r.name = name := by
  obtain ⟨l, -, hfind⟩ := Option.bind_eq_some_iff.mp h
  simpa using List.find?_some hfind

theorem demand_eq_self {i : Nat} (h : indexOf? rules name = some i) :
    demand scope rules name = rules := by
  rw [demand, h]

theorem demand_eq_concat {r : ParserRuleDecl} (h : indexOf? rules name = none)
    (hr : libraryRule? scope name = some r) : demand scope rules name = rules ++ [r] := by
  rw [demand, h, hr]
  rfl

theorem demand_eq_of_none (h : libraryRule? scope name = none) :
    demand scope rules name = rules := by
  rw [demand, h]
  cases indexOf? rules name with
  | some i => rfl
  | none => exact List.append_nil rules

theorem indexOf?_demand {i : Nat} (h : indexOf? rules name = some i) :
    indexOf? (demand scope rules other) name = some i := by
  cases hother : indexOf? rules other with
  | some j => rwa [demand_eq_self hother]
  | none =>
      cases hr : libraryRule? scope other with
      | none => rwa [demand_eq_of_none hr]
      | some r =>
          have hne : r.name ≠ name := by
            intro hname
            rw [← hname, name_of_libraryRule? hr, hother] at h
            cases h
          rwa [demand_eq_concat hother hr, indexOf?_concat, if_neg hne]

theorem indexOf?_demandAll {i : Nat} (h : indexOf? rules name = some i) :
    indexOf? (demandAll scope rules names) name = some i := by
  induction names generalizing rules with
  | nil => exact h
  | cons first rest ih => exact ih (indexOf?_demand h)

/-- What holds of a table and of every table with one more rule behind one of the names. -/
theorem demandAll_induction {I : List ParserRuleDecl → Prop}
    (hconcat : ∀ rules name r, name ∈ names → I rules → indexOf? rules name = none →
      libraryRule? scope name = some r → I (rules ++ [r])) (hrules : I rules) :
    I (demandAll scope rules names) := by
  induction names generalizing rules with
  | nil => exact hrules
  | cons first rest ih =>
      apply ih fun rules name r hname => hconcat rules name r (List.mem_cons_of_mem first hname)
      cases hindex : indexOf? rules first with
      | some i => rwa [demand_eq_self hindex]
      | none =>
          cases hr : libraryRule? scope first with
          | none => rwa [demand_eq_of_none hr]
          | some r =>
              rw [demand_eq_concat hindex hr]
              exact hconcat rules first r List.mem_cons_self hrules hindex hr

theorem prefix_demandAll (names : List String) : rules <+: demandAll scope rules names :=
  demandAll_induction (fun _ _ _ _ h _ _ => h.trans (List.prefix_append _ _)) List.prefix_rfl

theorem Linked.concatAll (h : Linked scope own rules) (names : List String) :
    Linked scope own (demandAll scope rules names) :=
  demandAll_induction (fun _ _ _ _ h hnew hr => h.concat hnew hr) h

/-! ## Steps of linking -/

/-- A step appends rules behind some of its names only. If it gives a value, it has appended the
rules behind all of them, and it gives this value again in the table that it leaves or in one that
has grown since, where it appends nothing more. -/
structure Demands (scope : Scope) (names : List String) (x : Linking α)
    (P : List ParserRuleDecl → α → Prop) : Prop where
  grows : ∀ rules, ∃ used, used ⊆ names ∧ (x.run.run rules).2 = demandAll scope rules used
  gives : ∀ rules a rules', x.run.run rules = (.ok a, rules') →
    rules' = demandAll scope rules names ∧ ∀ more,
      x.run.run (demandAll scope rules' more) = (.ok a, demandAll scope rules' more) ∧
        P (demandAll scope rules' more) a

variable {P : List ParserRuleDecl → α → Prop} {Q : List ParserRuleDecl → β → Prop}

theorem demands_pure {a : α} (h : ∀ table, P table a) : Demands scope [] (pure a) P where
  grows := fun _ => ⟨[], List.nil_subset _, rfl⟩
  gives := fun rules b rules' hrun => by
    cases hrun
    exact ⟨rfl, fun more => ⟨rfl, h _⟩⟩

theorem demands_throw (e : CompileFault.Located) : Demands scope names (throw e) P where
  grows := fun _ => ⟨[], List.nil_subset _, rfl⟩
  gives := fun rules b rules' hrun => by cases hrun

theorem run_bind_of_ok {x : Linking α} {f : α → Linking β} {a : α}
    (h : x.run.run rules = (.ok a, rules')) :
    (x >>= f).run.run rules = (f a).run.run rules' := by
  rw [ExceptT.run_bind, StateT.run_bind, h]
  rfl

theorem Demands.bind {x : Linking α} {f : α → Linking β} (hx : Demands scope names x P)
    (hf : ∀ a, Demands scope names' (f a) fun table b => P table a → Q table b) :
    Demands scope (names ++ names') (x >>= f) Q where
  grows := fun rules => by
    cases hstep : x.run.run rules with
    | mk outcome rules₁ =>
        cases outcome with
        | error e =>
            obtain ⟨used, hused, hrules⟩ := hx.grows rules
            refine ⟨used, fun n hn => List.mem_append_left _ (hused hn), ?_⟩
            rw [ExceptT.run_bind, StateT.run_bind, hstep, ← hrules, hstep]
            rfl
        | ok a =>
            obtain ⟨hrules₁, -⟩ := hx.gives rules a rules₁ hstep
            obtain ⟨used, hused, hrules⟩ := (hf a).grows rules₁
            refine ⟨names ++ used, List.append_subset.mpr ⟨List.subset_append_left _ _, ?_⟩, ?_⟩
            · exact fun n hn => List.mem_append_right _ (hused hn)
            · rw [run_bind_of_ok hstep, hrules, hrules₁, demandAll_append]
  gives := fun rules b rules' hrun => by
    cases hstep : x.run.run rules with
    | mk outcome rules₁ =>
        cases outcome with
        | error e =>
            rw [ExceptT.run_bind, StateT.run_bind, hstep] at hrun
            cases hrun
        | ok a =>
            rw [run_bind_of_ok hstep] at hrun
            obtain ⟨hrules₁, hsettled₁⟩ := hx.gives rules a rules₁ hstep
            obtain ⟨hrules', hsettled⟩ := (hf a).gives rules₁ b rules' hrun
            refine ⟨by rw [hrules', hrules₁, demandAll_append], fun more => ?_⟩
            have hfirst := hsettled₁ (names' ++ more)
            rw [demandAll_append, ← hrules'] at hfirst
            obtain ⟨hagain, ha⟩ := hfirst
            obtain ⟨hagain', hb⟩ := hsettled more
            exact ⟨by rw [run_bind_of_ok hagain, hagain'], hb ha⟩

theorem Demands.map {x : Linking α} {f : α → β} (hx : Demands scope names x P)
    (hf : ∀ table a, P table a → Q table (f a)) :
    Demands scope names (x >>= fun a => pure (f a)) Q := by
  have hbind : Demands scope (names ++ []) (x >>= fun a => pure (f a)) Q :=
    hx.bind fun a => demands_pure fun table ha => hf table a ha
  rwa [List.append_nil] at hbind

theorem Demands.mapM {f : α → Linking β} {invoked : α → List String}
    {R : List ParserRuleDecl → α → β → Prop} {xs : List α}
    (h : ∀ x ∈ xs, Demands scope (invoked x) (f x) fun table b => R table x b) :
    Demands scope (xs.flatMap invoked) (xs.mapM f)
      fun table bs => List.Forall₂ (R table) xs bs := by
  induction xs with
  | nil =>
      rw [List.mapM_nil]
      exact demands_pure fun table => .nil
  | cons x xs ih =>
      rw [List.mapM_cons, List.flatMap_cons]
      apply (h x List.mem_cons_self).bind
      intro b
      have hrest := ih fun y hy => h y (List.mem_cons_of_mem x hy)
      exact hrest.map fun table bs hbs hb => .cons hb hbs

/-! ## Expressions and bodies -/

/-- A rule number is the one that a name has in a table. -/
def Numbered (table : List ParserRuleDecl) (name : String) (index : UInt32) : Prop :=
  ∃ i, indexOf? table name = some i ∧ index = UInt32.ofNat i

/-- Rule numbers are those of the names in a table, in order. -/
abbrev NumberedAll (table : List ParserRuleDecl) (names : List String) (refs : List UInt32) :
    Prop :=
  List.Forall₂ (Numbered table) names refs

theorem demands_ruleIndex (name : String) (p : Position) :
    Demands scope [name] (ruleIndex scope name p) fun table i => Numbered table name i where
  grows := fun rules => by
    rw [run_ruleIndex]
    cases hindex : indexOf? rules name with
    | some i => exact ⟨[], List.nil_subset _, rfl⟩
    | none =>
        cases hr : libraryRule? scope name with
        | none => exact ⟨[], List.nil_subset _, rfl⟩
        | some r => exact ⟨[name], fun _ h => h, (demand_eq_concat hindex hr).symm⟩
  gives := fun rules index rules' hrun => by
    have hsettled {i : Nat} (hi : indexOf? rules' name = some i) (more : List String) :
        (ruleIndex scope name p).run.run (demandAll scope rules' more) =
          (.ok (UInt32.ofNat i), demandAll scope rules' more) ∧
        Numbered (demandAll scope rules' more) name (UInt32.ofNat i) := by
      have hkept : indexOf? (demandAll scope rules' more) name = some i := indexOf?_demandAll hi
      exact ⟨by rw [run_ruleIndex, hkept], i, hkept, rfl⟩
    rw [run_ruleIndex] at hrun
    split at hrun
    · next i hi =>
      cases hrun
      exact ⟨(demand_eq_self hi).symm, hsettled hi⟩
    · next hnone =>
      split at hrun
      · cases hrun
      · next r hr =>
        cases hrun
        refine ⟨(demand_eq_concat hnone hr).symm, hsettled ?_⟩
        rw [indexOf?_concat, if_pos (name_of_libraryRule? hr)]

/-- The type that a name stands for in a parser: the last declaration of the name counts, and the
end of the input is never declared. -/
def TypedBy (tokens : List TokenDecl) (name : String) (t : TokenType) : Prop :=
  (name = eofName → t = TokenType.eof) ∧
    (name ≠ eofName →
      ∃ token, (tokens.reverse.find? fun token => token.name == name) = some token ∧
        token.type = t)

theorem demands_tokenType (name : String) (p : Position) :
    Demands scope [] (tokenType scope name p) fun _ t => TypedBy scope.tokens name t := by
  unfold tokenType
  by_cases heof : name = eofName
  · rw [if_pos (beq_iff_eq.mpr heof)]
    exact demands_pure fun _ => ⟨fun _ => rfl, fun hne => absurd heof hne⟩
  · rw [if_neg (by simpa using heof)]
    cases hfind : scope.tokens.reverse.find? fun token => token.name == name with
    | some token =>
        exact demands_pure fun _ => ⟨fun h => absurd h heof, fun _ => ⟨token, hfind, rfl⟩⟩
    | none => exact demands_throw _

theorem demands_literalType (text : String) (p : Position) :
    Demands scope [] (literalType scope text p) fun _ _ => True := by
  unfold literalType
  split
  · exact demands_pure fun _ => trivial
  · exact demands_throw _

theorem demands_tokenTypes (excluded : List String) (p : Position) :
    Demands scope [] (excluded.mapM fun name => tokenType scope name p)
      fun _ types => List.Forall₂ (TypedBy scope.tokens) excluded types := by
  have hall : Demands scope (excluded.flatMap fun _ => [])
      (excluded.mapM fun name => tokenType scope name p)
      fun _ types => List.Forall₂ (TypedBy scope.tokens) excluded types :=
    Demands.mapM fun name _ => demands_tokenType name p
  rwa [List.flatMap_eq_nil_iff.mpr fun _ _ => rfl] at hall

mutual
/-- The induction follows the lowering of nested expressions. -/
theorem lower_demands : ∀ u : UnitExpr, Demands scope u.invoked (lower scope u)
    fun table e => NumberedAll table u.invoked e.ruleRefs
  | .empty => demands_pure fun _ => .nil
  | .seq items => by
      rw [lower]
      apply (lowerAll_demands items).map
      intro table es hes
      rwa [ruleRefs_sequenceOf]
  | .choice items => by
      rw [lower]
      exact (lowerAll_demands items).map fun table es hes => hes
  | .repeated kind isLazy body => by
      rw [lower]
      apply (lower_demands body).map
      intro table e he
      rwa [ruleRefs_repetitionOf]
  | .literal text p => by
      rw [lower]
      exact (demands_literalType text p).map fun _ _ _ => .nil
  | .token name p => by
      rw [lower]
      exact (demands_tokenType name p).map fun _ _ _ => .nil
  | .notTokens names p => by
      rw [lower]
      exact (demands_tokenTypes names p).map fun _ _ _ => .nil
  | .any => demands_pure fun _ => .nil
  | .eof => demands_pure fun _ => .nil
  | .invoke name precedence p => by
      rw [lower]
      exact (demands_ruleIndex name p).map fun table i hi => .cons hi .nil
  | .ref name p => demands_throw _
  | .ranges ranges negated => demands_throw _

theorem lowerAll_demands : ∀ us : List UnitExpr,
    Demands scope (UnitExpr.invokedAll us) (lowerAll scope us)
      fun table es => NumberedAll table (UnitExpr.invokedAll us) (ParseExpr.ruleRefsAll es)
  | [] => demands_pure fun _ => .nil
  | u :: us => by
      rw [lowerAll]
      apply (lower_demands u).bind
      intro e
      exact (lowerAll_demands us).map fun table es hes he => List.rel_append he hes
end

theorem lowerSequence_demands (items : List UnitExpr) :
    Demands scope (UnitExpr.invokedAll items) (lowerSequence scope items)
      fun table e => NumberedAll table (UnitExpr.invokedAll items) e.ruleRefs := by
  apply (lowerAll_demands items).map
  intro table es hes
  rwa [ruleRefs_sequenceOf]

/-- Values whose rule numbers are those of their names have them one after the other. -/
theorem numberedAll_flatMap {table : List ParserRuleDecl} {invoked : α → List String}
    {refs : β → List UInt32} {xs : List α} {bs : List β}
    (h : List.Forall₂ (fun x b => NumberedAll table (invoked x) (refs b)) xs bs) :
    NumberedAll table (xs.flatMap invoked) (bs.flatMap refs) := by
  induction h with
  | nil => exact .nil
  | cons hb _ ih =>
      rw [List.flatMap_cons, List.flatMap_cons]
      exact List.rel_append hb ih

theorem lowerAlternatives_demands (alternatives : List (List UnitExpr)) :
    Demands scope (alternatives.flatMap UnitExpr.invokedAll) (lowerAlternatives scope alternatives)
      fun table e => NumberedAll table (alternatives.flatMap UnitExpr.invokedAll) e.ruleRefs := by
  have hitems : ∀ items ∈ alternatives, Demands scope (UnitExpr.invokedAll items)
      (lowerSequence scope items)
      fun table e => NumberedAll table (UnitExpr.invokedAll items) e.ruleRefs :=
    fun items _ => lowerSequence_demands items
  apply (Demands.mapM hitems).map
  intro table es hes
  rw [ruleRefs_choiceOf, ruleRefsAll_eq_flatMap]
  exact numberedAll_flatMap hes

theorem lowerBody_demands (body : ParserRuleBody) :
    Demands scope body.invoked (lowerBody scope body)
      fun table b => NumberedAll table body.invoked b.ruleRefs := by
  cases body with
  | plain alternatives => exact (lowerAlternatives_demands alternatives).map fun table e he => he
  | leftRecursive primaries suffixes =>
      have hsuffixes : ∀ s ∈ suffixes, Demands scope (UnitExpr.invokedAll s.2)
          (lowerSuffix scope s)
          fun table t => NumberedAll table (UnitExpr.invokedAll s.2) t.body.ruleRefs :=
        fun s _ => (lowerSequence_demands s.2).map fun table e he => he
      apply (lowerAlternatives_demands primaries).bind
      intro e
      apply (Demands.mapM hsuffixes).map
      intro table ss hss he
      exact List.rel_append he (numberedAll_flatMap hss)

/-! ## All rules -/

/-- What holds of a table and after every step that lowers a rule of it. -/
theorem lowerRules_induction {I : List ParserRuleDecl → Prop}
    (hstep : ∀ rules r, r ∈ rules → I rules → I ((lowerBody scope r.body).run.run rules).2)
    (bound index : Nat) (hrules : I rules) :
    I ((lowerRules scope bound index).run rules).2 := by
  induction bound generalizing index rules with
  | zero => exact hrules
  | succ bound ih =>
      rw [run_lowerRules]
      cases hr : rules[index]? with
      | none => exact hrules
      | some r => exact ih (index + 1) (hstep rules r (List.mem_of_getElem? hr) hrules)

theorem run_lowerRules_end {index : Nat} (h : rules.length ≤ index) (bound : Nat) :
    (lowerRules scope bound index).run rules = ([], rules) := by
  cases bound with
  | zero => rfl
  | succ bound => rw [run_lowerRules, List.getElem?_eq_none_iff.mpr h]

/-- The first rule that is lowered, and the ones after it in the table that it leaves. -/
theorem run_lowerRules_some {index : Nat} {r : ParserRuleDecl} {rules₁ : List ParserRuleDecl}
    {outcome : Except CompileFault.Located RuleBody} (hr : rules[index]? = some r)
    (hstep : (lowerBody scope r.body).run.run rules = (outcome, rules₁)) (bound : Nat) :
    (lowerRules scope (bound + 1) index).run rules =
      (outcome :: ((lowerRules scope bound (index + 1)).run rules₁).1,
        ((lowerRules scope bound (index + 1)).run rules₁).2) := by
  have hfirst : ((lowerBody scope r.body).run.run rules).1 = outcome := congrArg Prod.fst hstep
  have htable : ((lowerBody scope r.body).run.run rules).2 = rules₁ := congrArg Prod.snd hstep
  rw [run_lowerRules, hr, ← hfirst, ← htable]

theorem Linked.lowered {body : ParserRuleBody} {outcome : Except CompileFault.Located RuleBody}
    (h : Linked scope own rules)
    (hstep : (lowerBody scope body).run.run rules = (outcome, rules')) :
    Linked scope own rules' ∧ rules <+: rules' := by
  obtain ⟨used, -, hrules⟩ := (lowerBody_demands body).grows rules
  rw [hstep] at hrules
  obtain rfl : rules' = demandAll scope rules used := hrules
  exact ⟨h.concatAll used, prefix_demandAll used⟩

/-- The table cannot grow beyond the own rules and those of the library, so the loop comes to its
end by itself: every bound that is large enough gives the same, and there is a result for each
rule. -/
theorem Linked.lowerRules_eq (h : Linked scope own rules) {index bound bound' : Nat}
    (hindex : index ≤ rules.length)
    (hbound : own.length + (scope.library.elim 0 fun l => l.rules.length) ≤ index + bound)
    (hbound' : own.length + (scope.library.elim 0 fun l => l.rules.length) ≤ index + bound') :
    (lowerRules scope bound index).run rules = (lowerRules scope bound' index).run rules ∧
      index + ((lowerRules scope bound index).run rules).1.length =
        ((lowerRules scope bound index).run rules).2.length := by
  induction bound generalizing rules index bound' with
  | zero =>
      have hend : rules.length ≤ index := Nat.le_trans h.length_le hbound
      rw [run_lowerRules_end hend, run_lowerRules_end hend]
      exact ⟨rfl, Nat.le_antisymm hindex hend⟩
  | succ bound ih =>
      by_cases hend : rules.length ≤ index
      · rw [run_lowerRules_end hend, run_lowerRules_end hend]
        exact ⟨rfl, Nat.le_antisymm hindex hend⟩
      · have hle := h.length_le
        obtain ⟨bound', rfl⟩ : ∃ n, bound' = n + 1 := ⟨bound' - 1, by omega⟩
        have hlt : index < rules.length := Nat.lt_of_not_le hend
        have hr : rules[index]? = some rules[index] := List.getElem?_eq_getElem hlt
        cases hstep : (lowerBody scope rules[index].body).run.run rules with
        | mk outcome rules₁ =>
            obtain ⟨hlinked, hgrown⟩ := h.lowered hstep
            have hindex' : index + 1 ≤ rules₁.length := Nat.le_trans hlt hgrown.length_le
            have hroom' : own.length + (scope.library.elim 0 fun l => l.rules.length) ≤
                index + 1 + bound' := by omega
            obtain ⟨hsame, hcount⟩ := ih hlinked hindex' (by omega) hroom'
            rw [run_lowerRules_some hr hstep, run_lowerRules_some hr hstep, ← hsame]
            refine ⟨rfl, ?_⟩
            dsimp only
            rw [List.length_cons]
            omega

/-- A body is what lowering makes of a rule, with nothing left to append, and its rule numbers are
those of the names that the rule invokes. -/
structure LoweredIn (scope : Scope) (table : List ParserRuleDecl) (r : ParserRuleDecl)
    (b : RuleBody) : Prop where
  lowered : (lowerBody scope r.body).run.run table = (.ok b, table)
  numbered : NumberedAll table r.body.invoked b.ruleRefs

/-- Where every rule is lowered, the table at the end has the rules behind all the names that are
invoked in it, and the bodies are those of its rules. The induction is on the bound: a body holds in
every table that grows from the one after it. -/
theorem lowerRules_demands {bound index : Nat} {bodies : List RuleBody}
    (hrun : (lowerRules scope bound index).run rules = (bodies.map .ok, rules'))
    (hbound : rules'.length ≤ index + bound) :
    rules' = demandAll scope rules ((rules'.drop index).flatMap fun r => r.body.invoked) ∧
      ∀ more, List.Forall₂ (LoweredIn scope (demandAll scope rules' more)) (rules'.drop index)
        bodies := by
  induction bound generalizing index rules bodies with
  | zero =>
      obtain ⟨hbodies, rfl⟩ : [] = bodies.map Except.ok ∧ rules = rules' := Prod.mk.inj hrun
      rw [List.map_eq_nil_iff.mp hbodies.symm, List.drop_eq_nil_of_le (by omega)]
      exact ⟨rfl, fun _ => .nil⟩
  | succ bound ih =>
      by_cases hend : rules.length ≤ index
      · rw [run_lowerRules_end hend] at hrun
        obtain ⟨hbodies, rfl⟩ : [] = bodies.map Except.ok ∧ rules = rules' := Prod.mk.inj hrun
        rw [List.map_eq_nil_iff.mp hbodies.symm, List.drop_eq_nil_of_le hend]
        exact ⟨rfl, fun _ => .nil⟩
      · have hlt : index < rules.length := Nat.lt_of_not_le hend
        have hr : rules[index]? = some rules[index] := List.getElem?_eq_getElem hlt
        cases hstep : (lowerBody scope rules[index].body).run.run rules with
        | mk outcome rules₁ =>
            rw [run_lowerRules_some hr hstep] at hrun
            obtain ⟨hbodies, hothers⟩ := Prod.mk.inj hrun
            obtain ⟨b, rest, rfl, rfl, hrest⟩ := List.map_eq_cons_iff.mp hbodies.symm
            obtain ⟨hrules₁, hsettled⟩ := (lowerBody_demands _).gives rules b rules₁ hstep
            obtain ⟨hrules', hbodies'⟩ := ih (Prod.ext hrest.symm hothers) (by omega)
            have hgrown : rules <+: rules' := by
              rw [hrules', hrules₁]
              exact (prefix_demandAll _).trans (prefix_demandAll _)
            have hlt' : index < rules'.length := Nat.lt_of_lt_of_le hlt hgrown.length_le
            have hdrop : rules'.drop index = rules[index] :: rules'.drop (index + 1) := by
              rw [List.drop_eq_getElem_cons hlt', hgrown.getElem hlt]
            rw [hdrop, List.flatMap_cons]
            refine ⟨?_, fun more => .cons ?_ (hbodies' more)⟩
            · rw [demandAll_append, ← hrules₁]
              exact hrules'
            · have hfinal := hsettled
                (((rules'.drop (index + 1)).flatMap fun r => r.body.invoked) ++ more)
              rw [demandAll_append, ← hrules'] at hfinal
              exact ⟨hfinal.1, hfinal.2⟩

end ParserDecl

end GrammarEngine

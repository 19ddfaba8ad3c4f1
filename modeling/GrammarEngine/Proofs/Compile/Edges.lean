import GrammarEngine.Proofs.Compile.Parsers
import GrammarEngine.Proofs.LeftRecursion.Edges
import GrammarEngine.Proofs.Parser.Memory
import GrammarEngine.Proofs.Unit.Clauses

/-!
# Edges of compiled rules

A compiled rule matches nothing, and invokes other rules at its own place, only as far as the rule
that it comes from does. So rules that were checked for left recursion are guarded once they are
compiled, if no suffix behind a primary that can match nothing leads back to its rule.

What the edges of compiled rules are defined by is what expressions derive; lowering keeps their
form, so the form is what the bounds are about.
-/
namespace GrammarEngine.Parser

variable {bodies : Array RuleBody} {rules : UInt32 → Bool}

/-- A phrase matches nothing, and leads to rules, only as far as is known of it. -/
structure Bounded (bodies : Array RuleBody) (rules : UInt32 → Bool) (name : UInt32 → String)
    (phrase : Phrase) (nullable : Bool) (edge : List String) : Prop where
  skips : phrase.skips rules = true → nullable = true
  leads : Covers bodies rules → ∀ r, Leads bodies phrase r → name r ∈ edge

variable {name : UInt32 → String} {edge edge' : List String} {nullable nullable' : Bool}

theorem bounded_of_not_leads {e : ParseExpr} (hskips : Parser.skips rules e = false)
    (h : ∀ r, ¬ Leads bodies (.expr e) r) : Bounded bodies rules name (.expr e) nullable edge where
  skips := fun hs => absurd (hskips.symm.trans hs) Bool.false_ne_true
  leads := fun _ r hr => absurd hr (h r)

/-- A call of a rule by one of its numbers. -/
theorem bounded_rule {names : List String} {index : UInt32} {n : String} (h : name index = n)
    (precedence : UInt32) :
    Bounded bodies (fun index => names.contains (name index)) name (.expr (.rule index precedence))
      (names.contains n) [n] where
  skips := fun hs => h ▸ hs
  leads := fun _ r hr => by
    cases hr with
    | call => exact List.mem_singleton.mpr h

theorem bounded_nil : Bounded bodies rules name (.row []) true [] where
  skips := fun _ => rfl
  leads := nofun

theorem Bounded.cons {e : ParseExpr} {es : List ParseExpr}
    (he : Bounded bodies rules name (.expr e) nullable edge)
    (hes : Bounded bodies rules name (.row es) nullable' edge') :
    Bounded bodies rules name (.row (e :: es)) (nullable && nullable')
      (edge ++ if nullable then edge' else []) where
  skips := fun h => by
    obtain ⟨h, h'⟩ := Bool.and_eq_true_iff.mp h
    exact Bool.and_eq_true_iff.mpr ⟨he.skips h, hes.skips h'⟩
  leads := fun hcovers r hr => by
    cases hr with
    | head _ hr => exact List.mem_append_left _ (he.leads hcovers r hr)
    | tail hnull hr =>
        rw [he.skips (hcovers.skips hnull rfl), if_pos rfl]
        exact List.mem_append_right _ (hes.leads hcovers r hr)

theorem bounded_choice_nil : Bounded bodies rules name (.expr (.choice [])) false [] :=
  bounded_of_not_leads rfl fun r hr => by
    cases hr with
    | choice he _ => exact absurd he List.not_mem_nil

theorem Bounded.or {e : ParseExpr} {es : List ParseExpr}
    (he : Bounded bodies rules name (.expr e) nullable edge)
    (hes : Bounded bodies rules name (.expr (.choice es)) nullable' edge') :
    Bounded bodies rules name (.expr (.choice (e :: es))) (nullable || nullable')
      (edge ++ edge') where
  skips := fun h => Bool.or_eq_true_iff.mpr ((Bool.or_eq_true_iff.mp h).imp he.skips hes.skips)
  leads := fun hcovers r hr => by
    cases hr with
    | choice hmem hr =>
        rcases List.mem_cons.mp hmem with rfl | hmem
        · exact List.mem_append_left _ (he.leads hcovers r hr)
        · exact List.mem_append_right _ (hes.leads hcovers r (.choice hmem hr))

theorem Bounded.sequenceOf {es : List ParseExpr}
    (h : Bounded bodies rules name (.row es) nullable edge) :
    Bounded bodies rules name (.expr (ParserDecl.sequenceOf es)) nullable edge := by
  match es, h with
  | [], h => exact ⟨h.skips, nofun⟩
  | [e], h =>
      refine ⟨fun hs => h.skips (Bool.and_eq_true_iff.mpr ⟨hs, rfl⟩), fun hcovers r hr => ?_⟩
      exact h.leads hcovers r (.head [] hr)
  | d :: e :: rest, h =>
      refine ⟨h.skips, fun hcovers r hr => ?_⟩
      cases hr with
      | seq hr => exact h.leads hcovers r hr

theorem Bounded.choiceOf {es : List ParseExpr}
    (h : Bounded bodies rules name (.expr (.choice es)) nullable edge) :
    Bounded bodies rules name (.expr (ParserDecl.choiceOf es)) nullable edge := by
  match es, h with
  | [], h => exact h
  | [e], h =>
      refine ⟨fun hs => h.skips (Bool.or_eq_true_iff.mpr (.inl hs)), fun hcovers r hr => ?_⟩
      exact h.leads hcovers r (.choice List.mem_cons_self hr)
  | d :: e :: rest, h => exact h

theorem Bounded.repetitionOf {e : ParseExpr} (kind : Repetition) (greedy : Bool)
    (h : Bounded bodies rules name (.expr e) nullable edge) :
    Bounded bodies rules name (.expr (ParserDecl.repetitionOf kind e greedy))
      (kind != .oneOrMore || nullable) edge := by
  cases kind with
  | optional =>
      refine ⟨fun _ => rfl, fun hcovers r hr => ?_⟩
      cases hr with
      | optional _ hr => exact h.leads hcovers r hr
  | zeroOrMore =>
      refine ⟨fun _ => rfl, fun hcovers r hr => ?_⟩
      cases hr with
      | star _ hr => exact h.leads hcovers r hr
  | oneOrMore =>
      refine ⟨h.skips, fun hcovers r hr => ?_⟩
      cases hr with
      | plus _ hr => exact h.leads hcovers r hr

end GrammarEngine.Parser

namespace GrammarEngine.ParserDecl

open GrammarEngine.Parser LeftRecursion

variable {α β : Type} {scope : Scope}

/-! ## Places -/

/-- Where the first step gives a value, the second one gives it as well. -/
def Same (x y : Linking α) : Prop :=
  ∀ rules a rules', x.run.run rules = (.ok a, rules') → y.run.run rules = (.ok a, rules')

theorem Same.refl (x : Linking α) : Same x x := fun _ _ _ h => h

theorem same_throw (e : CompileFault.Located) (y : Linking α) : Same (throw e) y := by
  intro rules a rules' h
  cases h

theorem Same.bind {x y : Linking α} {f g : α → Linking β} (hx : Same x y)
    (hf : ∀ a, Same (f a) (g a)) : Same (x >>= f) (y >>= g) := by
  intro rules b rules' h
  rw [ExceptT.run_bind, StateT.run_bind] at h ⊢
  cases hstep : x.run.run rules with
  | mk outcome rules₁ =>
      rw [hstep] at h
      cases outcome with
      | error e => cases h
      | ok a =>
          rw [hx rules a rules₁ hstep]
          exact hf a rules₁ b rules' h

theorem Same.map {x y : Linking α} {f : α → β} (hx : Same x y) :
    Same (x >>= fun a => pure (f a)) (y >>= fun a => pure (f a)) :=
  hx.bind fun _ => .refl _

theorem Same.mapM {f g : α → Linking β} {xs : List α} (h : ∀ x ∈ xs, Same (f x) (g x)) :
    Same (xs.mapM f) (xs.mapM g) := by
  induction xs with
  | nil => exact .refl _
  | cons x xs ih =>
      rw [List.mapM_cons, List.mapM_cons]
      refine (h x List.mem_cons_self).bind fun b => ?_
      exact (ih fun y hy => h y (List.mem_cons_of_mem x hy)).map

theorem same_ruleIndex (name : String) (p q : Position) :
    Same (ruleIndex scope name p) (ruleIndex scope name q) := by
  intro rules i rules' h
  rw [run_ruleIndex] at h ⊢
  split at h
  · exact h
  · split at h
    · cases h
    · exact h

theorem same_tokenType (name : String) (p q : Position) :
    Same (tokenType scope name p) (tokenType scope name q) := by
  unfold tokenType
  split
  · exact .refl _
  · split
    · exact .refl _
    · exact same_throw _ _

theorem same_literalType (text : String) (p q : Position) :
    Same (literalType scope text p) (literalType scope text q) := by
  unfold literalType
  split
  · exact .refl _
  · exact same_throw _ _

mutual
/-- Places matter only for faults. -/
theorem lower_unplaced : ∀ u : UnitExpr, Same (lower scope u) (lower scope u.unplaced)
  | .empty => .refl _
  | .seq items => by
      rw [UnitExpr.unplaced, lower, lower]
      exact (lowerAll_unplaced items).map
  | .choice items => by
      rw [UnitExpr.unplaced, lower, lower]
      exact (lowerAll_unplaced items).map
  | .repeated kind isLazy body => by
      rw [UnitExpr.unplaced, lower, lower]
      exact (lower_unplaced body).map
  | .literal text p => by
      rw [UnitExpr.unplaced, lower, lower]
      exact (same_literalType text p {}).map
  | .token name p => by
      rw [UnitExpr.unplaced, lower, lower]
      exact (same_tokenType name p {}).map
  | .notTokens names p => by
      rw [UnitExpr.unplaced, lower, lower]
      exact (Same.mapM fun name _ => same_tokenType name p {}).map
  | .any => .refl _
  | .eof => .refl _
  | .invoke name precedence p => by
      rw [UnitExpr.unplaced, lower, lower]
      exact (same_ruleIndex name p {}).map
  | .ref name p => by
      rw [UnitExpr.unplaced, lower]
      exact same_throw _ _
  | .ranges ranges negated => .refl _

theorem lowerAll_unplaced : ∀ us : List UnitExpr,
    Same (lowerAll scope us) (lowerAll scope (UnitExpr.unplacedAll us))
  | [] => .refl _
  | u :: us => by
      rw [UnitExpr.unplacedAll, lowerAll, lowerAll]
      exact (lower_unplaced u).bind fun e => (lowerAll_unplaced us).map
end

theorem lowerSequence_unplaced (items : List UnitExpr) :
    Same (lowerSequence scope items) (lowerSequence scope (items.map UnitExpr.unplaced)) := by
  rw [← UnitExpr.unplacedAll_eq_map]
  exact (lowerAll_unplaced items).map

theorem lowerAlternatives_unplaced (alternatives : List (List UnitExpr)) :
    Same (lowerAlternatives scope alternatives)
      (lowerAlternatives scope (alternatives.map (List.map UnitExpr.unplaced))) := by
  rw [lowerAlternatives, lowerAlternatives, List.mapM_map]
  exact (Same.mapM fun items _ => lowerSequence_unplaced items).map

theorem lowerBody_unplaced (b : ParserRuleBody) :
    Same (lowerBody scope b) (lowerBody scope b.unplaced) := by
  cases b with
  | plain alternatives => exact (lowerAlternatives_unplaced alternatives).map
  | leftRecursive primaries suffixes =>
      rw [ParserRuleBody.unplaced, lowerBody, lowerBody, List.mapM_map]
      refine (lowerAlternatives_unplaced primaries).bind fun e => ?_
      exact (Same.mapM fun s _ => (lowerSequence_unplaced s.2).map).map

/-! ## Lowering without a library -/

variable {rules : List ParserRuleDecl}

/-- A step that gives a value leaves the list of rules as it is, and the value has a property. -/
def Stays (rules : List ParserRuleDecl) (x : Linking α) (P : α → Prop) : Prop :=
  ∀ a rules', x.run.run rules = (.ok a, rules') → rules' = rules ∧ P a

theorem stays_pure {a : α} {P : α → Prop} (h : P a) : Stays rules (pure a) P := by
  intro b rules' hrun
  cases hrun
  exact ⟨rfl, h⟩

theorem stays_throw {e : CompileFault.Located} {P : α → Prop} : Stays rules (throw e) P := by
  intro b rules' hrun
  cases hrun

theorem Stays.bind {x : Linking α} {f : α → Linking β} {P : α → Prop} {Q : β → Prop}
    (hx : Stays rules x P) (hf : ∀ a, P a → Stays rules (f a) Q) : Stays rules (x >>= f) Q := by
  intro b rules' hrun
  rw [ExceptT.run_bind, StateT.run_bind] at hrun
  cases hstep : x.run.run rules with
  | mk outcome rules₁ =>
      rw [hstep] at hrun
      cases outcome with
      | error e => cases hrun
      | ok a =>
          obtain ⟨rfl, ha⟩ := hx a rules₁ hstep
          exact hf a ha b rules' hrun

theorem Stays.map {x : Linking α} {f : α → β} {P : α → Prop} {Q : β → Prop}
    (hx : Stays rules x P) (hf : ∀ a, P a → Q (f a)) :
    Stays rules (x >>= fun a => pure (f a)) Q :=
  hx.bind fun a ha => stays_pure (hf a ha)

theorem Stays.mono {x : Linking α} {P Q : α → Prop} (hx : Stays rules x P) (h : ∀ a, P a → Q a) :
    Stays rules x Q :=
  fun a rules' hrun => (hx a rules' hrun).imp id (h a)

theorem Stays.mapM {f : α → Linking β} {xs : List α} {Q : α → β → Prop}
    (h : ∀ x ∈ xs, Stays rules (f x) (Q x)) :
    Stays rules (xs.mapM f) fun ys => ∀ y ∈ ys, ∃ x ∈ xs, Q x y := by
  induction xs with
  | nil =>
      rw [List.mapM_nil]
      exact stays_pure fun y hy => absurd hy List.not_mem_nil
  | cons x xs ih =>
      rw [List.mapM_cons]
      refine (h x List.mem_cons_self).bind fun y hy => ?_
      refine (ih fun z hz => h z (List.mem_cons_of_mem x hz)).map fun ys hys => ?_
      refine List.forall_mem_cons.mpr ⟨⟨x, List.mem_cons_self, hy⟩, fun z hz => ?_⟩
      obtain ⟨w, hw, hq⟩ := hys z hz
      exact ⟨w, List.mem_cons_of_mem x hw, hq⟩

theorem Stays.of_same {x y : Linking α} {P : α → Prop} (hy : Stays rules y P) (h : Same x y) :
    Stays rules x P :=
  fun a rules' hrun => hy a rules' (h rules a rules' hrun)

/-- The name of the rule with a number. -/
def ruleName (rules : List ParserRuleDecl) (index : UInt32) : String :=
  ((rules[index.toNat]?).map ParserRuleDecl.name).getD ""

theorem name_of_indexOf? {name : String} {i : Nat} (h : indexOf? rules name = some i) :
    ∃ r, rules[i]? = some r ∧ r.name = name := by
  obtain ⟨j, hj, rfl⟩ := Option.map_eq_some_iff.mp h
  obtain ⟨hlt, hname, -⟩ := List.findIdx?_eq_some_iff_getElem.mp hj
  rw [List.length_reverse] at hlt
  rw [List.getElem_reverse] at hname
  exact ⟨_, List.getElem?_eq_getElem (by omega), by simpa using hname⟩

/-- What lowering without a library makes of names of rules. -/
structure Closed (scope : Scope) (rules : List ParserRuleDecl) : Prop where
  library : scope.library = none
  words : rules.length ≤ 2 ^ 32

theorem stays_ruleIndex (h : Closed scope rules) (name : String) (p : Position) :
    Stays rules (ruleIndex scope name p) fun index => ruleName rules index = name := by
  intro index rules' hrun
  have hlibrary : libraryRule? scope name = none := by rw [libraryRule?, h.library]; rfl
  rw [run_ruleIndex, hlibrary] at hrun
  split at hrun
  · next i hi =>
    cases hrun
    obtain ⟨r, hr, hname⟩ := name_of_indexOf? hi
    have hlt := indexOf?_lt hi
    have hwords := h.words
    refine ⟨rfl, ?_⟩
    dsimp only
    rw [ruleName, Automaton.toNat_address (by omega), hr]
    exact hname
  · cases hrun

theorem stays_tokenType (name : String) (p : Position) :
    Stays rules (tokenType scope name p) fun _ => True := by
  unfold tokenType
  split
  · exact stays_pure trivial
  · split
    · exact stays_pure trivial
    · exact stays_throw

theorem stays_literalType (text : String) (p : Position) :
    Stays rules (literalType scope text p) fun _ => True := by
  unfold literalType
  split
  · exact stays_pure trivial
  · exact stays_throw

variable {bodies : Array RuleBody} {names : List String} {null : Bool} {edge : List String}

/-- A phrase over numbered rules that is bounded by what is known of a rule with names. -/
abbrev Bounds (bodies : Array RuleBody) (rules : List ParserRuleDecl) (names : List String) :
    Phrase → Bool → List String → Prop :=
  Bounded bodies (fun index => names.contains (ruleName rules index)) (ruleName rules)

theorem stays_token {x : Linking TokenType} (h : Stays rules x fun _ => True) :
    Stays rules (x >>= fun t => pure (ParseExpr.token t)) fun e =>
      Bounds bodies rules names (.expr e) null edge :=
  h.map fun _ _ => bounded_of_not_leads rfl fun _ => nofun

theorem stays_single {u : UnitExpr} {P : List ParseExpr → Prop}
    (h : Stays rules (lowerAll scope [u]) P) : Stays rules (lower scope u) fun e => P [e] := by
  intro e rules' hrun
  refine h [e] rules' ?_
  rw [lowerAll, ExceptT.run_bind, StateT.run_bind, hrun]
  rfl

theorem stays_sequenceOf {us : List UnitExpr} (h : Stays rules (lowerAll scope us) fun es =>
      Bounds bodies rules names (.row es) null edge) :
    Stays rules (lower scope (.sequenceOf us)) fun e =>
      Bounds bodies rules names (.expr e) null edge := by
  match us, h with
  | [], h =>
      rw [UnitExpr.sequenceOf, lower]
      exact stays_pure (h [] rules rfl).2.sequenceOf
  | [u], h => exact (stays_single h).mono fun e he => he.sequenceOf
  | u :: v :: rest, h =>
      rw [UnitExpr.sequenceOf, lower]
      · exact h.map fun es hes => hes.sequenceOf
      all_goals nofun

theorem stays_choiceOf {us : List UnitExpr} (h : Stays rules (lowerAll scope us) fun es =>
      Bounds bodies rules names (.expr (.choice es)) null edge) :
    Stays rules (lower scope (.choiceOf us)) fun e =>
      Bounds bodies rules names (.expr e) null edge := by
  match us, h with
  | [], h =>
      rw [UnitExpr.choiceOf, lower]
      · exact h.map fun es hes => hes
      all_goals nofun
  | [u], h => exact (stays_single h).mono fun e he => he.choiceOf
  | u :: v :: rest, h =>
      rw [UnitExpr.choiceOf, lower]
      · exact h.map fun es hes => hes
      all_goals nofun

mutual
/-- The induction follows the nesting of elements. -/
theorem lower_bounds (h : Closed scope rules) : ∀ e : Element,
    Stays rules (lower scope (e.declared .parser)) fun d =>
      Bounds bodies rules names (.expr d) (nullable names e) (edgeOf names e)
  | .literal text => by
      rw [Element.declared, lower]
      exact stays_token (stays_literalType text {})
  | .token name => by
      rw [Element.declared, if_neg (by decide), lower]
      exact stays_token (stays_tokenType name {})
  | .rule name => by
      rw [Element.declared, lower]
      exact (stays_ruleIndex h name {}).map fun i hi => bounded_rule hi 0
  | .ruleAt name precedence => by
      rw [Element.declared, lower]
      exact (stays_ruleIndex h name {}).map fun i hi => bounded_rule hi _
  | .charSet ranges negated => by
      rw [Element.declared, lower]
      exact stays_throw
  | .any => by
      rw [Element.declared, lower]
      exact stays_pure (bounded_of_not_leads rfl fun _ => nofun)
  | .eof => by
      rw [Element.declared, lower]
      exact stays_pure (bounded_of_not_leads rfl fun _ => nofun)
  | .notTokens excluded => by
      rw [Element.declared, lower]
      exact (Stays.mapM fun name _ => stays_tokenType name {}).map fun _ _ =>
        bounded_of_not_leads rfl fun _ => nofun
  | .not members => by
      rw [Element.declared, if_neg (by decide), lower]
      exact (Stays.mapM fun name _ => stays_tokenType name {}).map fun _ _ =>
        bounded_of_not_leads rfl fun _ => nofun
  | .block alternatives => by
      rw [Element.declared, nullable, edgeOf]
      exact stays_choiceOf (lowerBlocks_bounds h alternatives)
  | .repeated e kind greedy => by
      rw [Element.declared, nullable, edgeOf, lower]
      exact (lower_bounds h e).map fun d hd => hd.repetitionOf kind _

theorem lowerAll_bounds (h : Closed scope rules) : ∀ es : List Element,
    Stays rules (lowerAll scope (Element.declaredAll .parser es)) fun ds =>
      Bounds bodies rules names (.row ds) (nullableAll names es) (edgeOfAll names es)
  | [] => by
      rw [Element.declaredAll, nullableAll, edgeOfAll, lowerAll]
      exact stays_pure bounded_nil
  | e :: es => by
      rw [Element.declaredAll, nullableAll, edgeOfAll, lowerAll]
      exact (lower_bounds h e).bind fun d hd => (lowerAll_bounds h es).map fun ds hds =>
        hd.cons hds

theorem lowerBlock_bounds (h : Closed scope rules) : ∀ a : AlternativeOf Element,
    Stays rules (lower scope (Element.declaredBlock .parser a)) fun d =>
      Bounds bodies rules names (.expr d) (nullableAlternative names a) (edgeOfAlternative names a)
  | ⟨elements, _, _, _⟩ => by
      rw [Element.declaredBlock, nullableAlternative, edgeOfAlternative]
      exact stays_sequenceOf (lowerAll_bounds h elements)

theorem lowerBlocks_bounds (h : Closed scope rules) : ∀ alternatives : List (AlternativeOf Element),
    Stays rules (lowerAll scope (Element.declaredBlocks .parser alternatives)) fun ds =>
      Bounds bodies rules names (.expr (.choice ds)) (nullableAny names alternatives)
        (edgeOfAny names alternatives)
  | [] => by
      rw [Element.declaredBlocks, nullableAny, edgeOfAny, lowerAll]
      exact stays_pure bounded_choice_nil
  | a :: rest => by
      rw [Element.declaredBlocks, nullableAny, edgeOfAny, lowerAll]
      exact (lowerBlock_bounds h a).bind fun d hd => (lowerBlocks_bounds h rest).map fun ds hds =>
        hd.or hds
end

/-! ## Rules -/

theorem lowerSequence_bounds (h : Closed scope rules) (es : List Element) :
    Stays rules (lowerSequence scope (Element.declaredAll .parser es)) fun d =>
      Bounds bodies rules names (.expr d) (nullableAll names es) (edgeOfAll names es) :=
  (lowerAll_bounds h es).map fun _ hds => hds.sequenceOf

theorem lowerAlternatives_bounds (h : Closed scope rules) (alternatives : List Alternative) :
    Stays rules (lowerAlternatives scope (alternatives.map (declaredItems .parser))) fun d =>
      Bounds bodies rules names (.expr d) (nullableAny names alternatives)
        (edgeOfAny names alternatives) := by
  have hall : Stays rules ((alternatives.map (declaredItems .parser)).mapM (lowerSequence scope))
      fun ds => Bounds bodies rules names (.expr (.choice ds)) (nullableAny names alternatives)
        (edgeOfAny names alternatives) := by
    induction alternatives with
    | nil => exact stays_pure bounded_choice_nil
    | cons a rest ih =>
        obtain ⟨elements, _, _, _⟩ := a
        rw [List.map_cons, List.mapM_cons, nullableAny, nullableAlternative, edgeOfAny,
          edgeOfAlternative]
        exact (lowerSequence_bounds h elements).bind fun d hd => ih.map fun ds hds => hd.or hds
  exact hall.map fun ds hds => hds.choiceOf

/-- The body that a rule is compiled to leads to no more rules than the rule does. -/
inductive BoundedBody (bodies : Array RuleBody) (rules : List ParserRuleDecl)
    (names : List String) : ParserRuleSpec → RuleBody → Prop
  | plain {name : String} {alternatives : List Alternative} {d : ParseExpr} :
      Bounds bodies rules names (.expr d) (nullableAny names alternatives)
        (edgeOfAny names alternatives) →
      BoundedBody bodies rules names (.plain name alternatives) (.plain d)
  | leftRecursive {name : String} {primaries : List Alternative} {suffixes : List SuffixSpec}
      {d : ParseExpr} {compiled : List Suffix} :
      Bounds bodies rules names (.expr d) (nullableAny names primaries)
        (edgeOfAny names primaries) →
      (∀ s ∈ compiled, ∃ t ∈ suffixes, Bounds bodies rules names (.expr s.body)
        (nullableAll names t.elements) (edgeOfAll names t.elements)) →
      BoundedBody bodies rules names (.leftRecursive name primaries suffixes)
        (.leftRecursive d compiled)

theorem lowerBody_bounds (h : Closed scope rules) (r : ParserRuleSpec) :
    Stays rules (lowerBody scope r.declaredBody) (BoundedBody bodies rules names r) := by
  cases r with
  | plain name alternatives =>
      exact (lowerAlternatives_bounds h alternatives).map fun _ hd => .plain hd
  | leftRecursive name primaries suffixes =>
      rw [ParserRuleSpec.declaredBody, lowerBody, List.mapM_map]
      refine Stays.bind (P := fun d => Bounds bodies rules names (.expr d)
        (nullableAny names primaries) (edgeOfAny names primaries))
        (lowerAlternatives_bounds h primaries) fun d hd => ?_
      refine Stays.map (Stays.mapM fun t _ => ?_) fun _ hcompiled => .leftRecursive hd hcompiled
      exact (lowerSequence_bounds h t.elements).map fun _ hs => hs

variable {specs : List ParserRuleSpec}

/-- The compiled rules are bounded one by one. -/
structure BoundedBodies (bodies : Array RuleBody) (rules : List ParserRuleDecl)
    (specs : List ParserRuleSpec) : Prop where
  names : rules.map ParserRuleDecl.name = specs.map ParserRuleSpec.name
  bodies : ∀ (i : Nat) body, bodies[i]? = some body →
    ∃ r, specs[i]? = some r ∧ BoundedBody bodies rules (nullableRules specs) r body

theorem BoundedBodies.exists_spec (h : BoundedBodies bodies rules specs) {index : UInt32}
    {body : RuleBody} (hbody : bodies[index.toNat]? = some body) :
    ∃ r ∈ specs, ruleName rules index = r.name ∧
      BoundedBody bodies rules (nullableRules specs) r body := by
  obtain ⟨r, hr, hbounded⟩ := h.bodies index.toNat body hbody
  refine ⟨r, List.mem_of_getElem? hr, ?_, hbounded⟩
  have hname := congrArg (·[index.toNat]?) h.names
  simp only [List.getElem?_map, hr] at hname
  rw [ruleName, hname]
  rfl

theorem BoundedBodies.covers (h : BoundedBodies bodies rules specs) :
    Covers bodies fun index => (nullableRules specs).contains (ruleName rules index) where
  plain := fun hbody hskips => by
    obtain ⟨r, hr, hname, hbounded⟩ := h.exists_spec hbody
    cases hbounded with
    | plain hd =>
        rw [hname, List.contains_iff_mem]
        exact nullClosed_nullableRules specs _ hr (hd.skips hskips)
  primary := fun hbody hskips => by
    obtain ⟨r, hr, hname, hbounded⟩ := h.exists_spec hbody
    cases hbounded with
    | leftRecursive hd _ =>
        rw [hname, List.contains_iff_mem]
        exact nullClosed_nullableRules specs _ hr (hd.skips hskips)

/-- Every rule that a compiled rule can invoke at its own place starts the rule that it comes from.
-/
theorem BoundedBodies.starts (h : BoundedBodies bodies rules specs) {r r' : UInt32}
    (hreaches : Reaches bodies r r') : Starts specs (ruleName rules r) (ruleName rules r') := by
  have hcovers := h.covers
  cases hreaches with
  | plain hbody hleads =>
      obtain ⟨spec, hspec, hname, hbounded⟩ := h.exists_spec hbody
      cases hbounded with
      | plain hd => exact .inl ⟨_, hspec, hname.symm, hd.leads hcovers _ hleads⟩
  | primary hbody hleads =>
      obtain ⟨spec, hspec, hname, hbounded⟩ := h.exists_spec hbody
      cases hbounded with
      | leftRecursive hd _ => exact .inl ⟨_, hspec, hname.symm, hd.leads hcovers _ hleads⟩
  | suffix hbody hnull hs hleads =>
      obtain ⟨spec, hspec, hname, hbounded⟩ := h.exists_spec hbody
      cases hbounded with
      | leftRecursive hd hcompiled =>
          obtain ⟨t, ht, hbound⟩ := hcompiled _ hs
          rw [hname]
          exact .inr ⟨_, _, hspec, hd.skips (hcovers.skips hnull rfl), t, ht,
            hbound.leads hcovers _ hleads⟩

/-- Rules that have been checked are guarded when they are compiled. -/
theorem BoundedBodies.guarded (h : BoundedBodies bodies rules specs)
    (hnames : (specs.map ParserRuleSpec.name).Nodup) (hcycle : cycle? specs = none)
    (hsuffixes : SuffixesMoveOn specs) : Guarded bodies := by
  intro r hpath
  refine not_transGen_starts hnames hcycle hsuffixes (ruleName rules r) ?_
  exact Relation.TransGen.lift (ruleName rules) (fun _ _ hreaches => h.starts hreaches) _ _ hpath

end GrammarEngine.ParserDecl

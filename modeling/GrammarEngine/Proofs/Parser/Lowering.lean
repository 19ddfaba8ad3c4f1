import GrammarEngine.Proofs.Parser.Operands
import GrammarEngine.Proofs.Unit.Marks

/-!
# Lowering of rewritten rules

Lowering replaces names by numbers and keeps the shape of a rule, so that precedences stay where the
rewrite has put them: a rule that comes from the rewrite has the form on which the search relies.
-/
namespace GrammarEngine.ParserDecl

open GrammarEngine.Parser

variable {α β : Type}

/-- A value that a step of linking gives from some list of rules. -/
def Gives (x : Linking α) (a : α) : Prop := ∃ rules rules', x.run.run rules = (.ok a, rules')

theorem gives_pure {a b : α} (h : Gives (pure a) b) : a = b := by
  obtain ⟨rules, rules', h⟩ := h
  cases h
  rfl

theorem gives_bind {x : Linking α} {f : α → Linking β} {b : β} (h : Gives (x >>= f) b) :
    ∃ a, Gives x a ∧ Gives (f a) b := by
  obtain ⟨rules, rules', h⟩ := h
  rw [ExceptT.run_bind, StateT.run_bind] at h
  cases hx : x.run.run rules with
  | mk outcome rules₁ =>
      rw [hx] at h
      cases outcome with
      | error e => cases h
      | ok a => exact ⟨a, ⟨rules, rules₁, hx⟩, ⟨rules₁, rules', h⟩⟩

/-- A list of steps gives the list of what each of them gives. -/
theorem gives_mapM {f : α → Linking β} {xs : List α} {ys : List β} (h : Gives (xs.mapM f) ys) :
    List.Forall₂ (fun x y => Gives (f x) y) xs ys := by
  induction xs generalizing ys with
  | nil =>
      rw [List.mapM_nil] at h
      exact gives_pure h ▸ .nil
  | cons x xs ih =>
      rw [List.mapM_cons] at h
      obtain ⟨y, hy, h⟩ := gives_bind h
      obtain ⟨rest, hrest, h⟩ := gives_bind h
      exact gives_pure h ▸ .cons hy (ih hrest)

variable {scope : Scope}

theorem gives_lowerAll {us : List UnitExpr} {es : List ParseExpr}
    (h : Gives (lowerAll scope us) es) :
    List.Forall₂ (fun u e => Gives (lower scope u) e) us es := by
  induction us generalizing es with
  | nil =>
      rw [lowerAll] at h
      exact gives_pure h ▸ .nil
  | cons u us ih =>
      rw [lowerAll] at h
      obtain ⟨e, he, h⟩ := gives_bind h
      obtain ⟨rest, hrest, h⟩ := gives_bind h
      exact gives_pure h ▸ .cons he (ih hrest)

theorem sequenceOf_unmarked {es : List ParseExpr} (h : ∀ e ∈ es, Unmarked e) :
    Unmarked (sequenceOf es) := by
  match es, h with
  | [], _ => exact .empty
  | [e], h => exact h e List.mem_cons_self
  | e :: d :: rest, h => exact .seq h

theorem repetitionOf_unmarked (kind : Repetition) {e : ParseExpr} (greedy : Bool)
    (h : Unmarked e) : Unmarked (repetitionOf kind e greedy) := by
  cases kind with
  | optional => exact .optional greedy h
  | zeroOrMore => exact .star greedy h
  | oneOrMore => exact .plus greedy h

theorem not_gives_throw {e : CompileFault.Located} {a : α} : ¬ Gives (throw e : Linking α) a := by
  intro ⟨rules, rules', h⟩
  cases h

mutual
/-- The induction follows the lowering of nested expressions. -/
theorem lower_unmarked : ∀ (u : UnitExpr) {e : ParseExpr}, u.Unmarked → Gives (lower scope u) e →
    Unmarked e
  | .empty, e, _, h => by
      rw [lower] at h
      exact gives_pure h ▸ .empty
  | .seq items, e, hu, h => by
      rw [lower] at h
      obtain ⟨es, hes, h⟩ := gives_bind h
      cases hu with
      | seq hu => exact gives_pure h ▸ sequenceOf_unmarked (lowerAll_unmarked items hu hes)
  | .choice items, e, hu, h => by
      rw [lower] at h
      obtain ⟨es, hes, h⟩ := gives_bind h
      cases hu with
      | choice hu => exact gives_pure h ▸ .choice (lowerAll_unmarked items hu hes)
  | .repeated kind isLazy body, e, hu, h => by
      rw [lower] at h
      obtain ⟨b, hb, h⟩ := gives_bind h
      cases hu with
      | repeated _ _ hu =>
          exact gives_pure h ▸ repetitionOf_unmarked kind _ (lower_unmarked body hu hb)
  | .literal text p, e, _, h => by
      rw [lower] at h
      obtain ⟨t, -, h⟩ := gives_bind h
      exact gives_pure h ▸ .token t
  | .token name p, e, _, h => by
      rw [lower] at h
      obtain ⟨t, -, h⟩ := gives_bind h
      exact gives_pure h ▸ .token t
  | .notTokens names p, e, _, h => by
      rw [lower] at h
      obtain ⟨ts, -, h⟩ := gives_bind h
      exact gives_pure h ▸ .notTokens _
  | .any, e, _, h => by
      rw [lower] at h
      exact gives_pure h ▸ .anyToken
  | .eof, e, _, h => by
      rw [lower] at h
      exact gives_pure h ▸ .token _
  | .invoke name precedence p, e, hu, h => by
      rw [lower] at h
      obtain ⟨index, -, h⟩ := gives_bind h
      cases hu with
      | invoke => exact gives_pure h ▸ .rule index
  | .ref name p, e, _, h => by
      rw [lower] at h
      exact (not_gives_throw h).elim
  | .ranges ranges negated, e, _, h => by
      rw [lower] at h
      exact (not_gives_throw h).elim

theorem lowerAll_unmarked : ∀ (us : List UnitExpr) {es : List ParseExpr},
    (∀ u ∈ us, u.Unmarked) → Gives (lowerAll scope us) es → ∀ e ∈ es, Unmarked e
  | [], es, _, h => by
      rw [lowerAll] at h
      obtain rfl := gives_pure h
      simp
  | u :: us, es, hu, h => by
      rw [lowerAll] at h
      obtain ⟨e, he, h⟩ := gives_bind h
      obtain ⟨rest, hrest, h⟩ := gives_bind h
      obtain rfl := gives_pure h
      intro d hd
      rcases List.mem_cons.mp hd with rfl | hd
      · exact lower_unmarked u (hu u List.mem_cons_self) he
      · exact lowerAll_unmarked us (fun v hv => hu v (List.mem_cons_of_mem u hv)) hrest d hd
end

/-- A row of expressions that ends with an operand. -/
theorem sequenceOf_operated {allowed : UInt32 → Prop} {es : List ParseExpr}
    {index precedence : UInt32} (h : ∀ e ∈ es, Unmarked e) (hallowed : allowed precedence) :
    Operated allowed (sequenceOf (es ++ [.rule index precedence])) := by
  match es, h with
  | [], _ => exact .rule index hallowed
  | [e], h => exact .seq index h hallowed
  | e :: d :: rest, h => exact .seq index h hallowed

theorem lowerSequence_operated {allowed : UInt32 → Prop} {items : List UnitExpr} {e : ParseExpr}
    (hitems : MarkedItems allowed items) (h : Gives (lowerSequence scope items) e) :
    Operated allowed e := by
  obtain ⟨es, hes, h⟩ := gives_bind h
  obtain rfl := gives_pure h
  rcases hitems with hplain | ⟨init, name, precedence, p, rfl, hinit, hallowed⟩
  · exact .unmarked (sequenceOf_unmarked (lowerAll_unmarked items hplain hes))
  · obtain ⟨front, back, rfl, hfront, hback⟩ := forall₂_append_left (gives_lowerAll hes)
    obtain ⟨last, rest, hlast, hrest, rfl⟩ := List.forall₂_cons_left_iff.mp hback
    obtain rfl := List.forall₂_nil_left_iff.mp hrest
    rw [lower] at hlast
    obtain ⟨index, -, hlast⟩ := gives_bind hlast
    obtain rfl := gives_pure hlast
    refine sequenceOf_operated (fun e he => ?_) hallowed
    obtain ⟨u, hu, hlower⟩ := exists_of_mem_right hfront he
    exact lower_unmarked u (hinit u hu) hlower

theorem lowerAlternatives_operated {allowed : UInt32 → Prop} {alternatives : List (List UnitExpr)}
    {e : ParseExpr} (halternatives : ∀ items ∈ alternatives, MarkedItems allowed items)
    (h : Gives (lowerAlternatives scope alternatives) e) : Operated allowed e := by
  obtain ⟨es, hes, h⟩ := gives_bind h
  obtain rfl := gives_pure h
  have hoperated : ∀ e ∈ es, Operated allowed e := by
    intro e he
    obtain ⟨items, hitems, hlower⟩ := exists_of_mem_right (gives_mapM hes) he
    exact lowerSequence_operated (halternatives items hitems) hlower
  match es, hoperated with
  | [], h => exact .choice h
  | [e], h => exact h e List.mem_cons_self
  | e :: d :: rest, h => exact .choice h

theorem lowerAlternatives_unmarked {alternatives : List (List UnitExpr)} {e : ParseExpr}
    (halternatives : ∀ items ∈ alternatives, ∀ u ∈ items, u.Unmarked)
    (h : Gives (lowerAlternatives scope alternatives) e) : Unmarked e := by
  obtain ⟨es, hes, h⟩ := gives_bind h
  obtain rfl := gives_pure h
  have hunmarked : ∀ e ∈ es, Unmarked e := by
    intro e he
    obtain ⟨items, hitems, hlower⟩ := exists_of_mem_right (gives_mapM hes) he
    obtain ⟨es', hes', hlower⟩ := gives_bind hlower
    obtain rfl := gives_pure hlower
    exact sequenceOf_unmarked (lowerAll_unmarked items (halternatives items hitems) hes')
  match es, hunmarked with
  | [], h => exact .choice h
  | [e], h => exact h e List.mem_cons_self
  | e :: d :: rest, h => exact .choice h

/-- Lowering a rule keeps the places of its precedences. -/
theorem lowerBody_rewritten {d : ParserRuleBody} {body : RuleBody} (hd : MarkedBody d)
    (h : Gives (lowerBody scope d) body) : Rewritten body := by
  cases d with
  | plain alternatives =>
      obtain ⟨e, he, h⟩ := gives_bind h
      obtain rfl := gives_pure h
      exact lowerAlternatives_unmarked hd he
  | leftRecursive primaries suffixes =>
      obtain ⟨e, he, h⟩ := gives_bind h
      obtain ⟨ss, hss, h⟩ := gives_bind h
      obtain rfl := gives_pure h
      refine ⟨lowerAlternatives_operated hd.1 he, fun s hs => ?_⟩
      obtain ⟨declared, hdeclared, hlower⟩ := exists_of_mem_right (gives_mapM hss) hs
      obtain ⟨e', he', hlower⟩ := gives_bind hlower
      obtain rfl := gives_pure hlower
      exact lowerSequence_operated (hd.2 declared hdeclared) he'

end GrammarEngine.ParserDecl

namespace GrammarEngine.Parser

/-- The body of a rule that was split by the rewrite, written as a unit, read back and lowered. The
alternatives are such as a file can contain. -/
def FromRewrite (body : RuleBody) : Prop :=
  ∃ name alternatives spec w declared scope,
    (∀ a ∈ alternatives, a.commands = [] ∧ ∀ e ∈ a.elements, e.Written) ∧
    LeftRecursion.eliminate name alternatives = .ok spec ∧
    w.form = (UnitText.parserRuleClause spec).form ∧
    UnitDecl.parserRuleBody w = .ok declared ∧
    ParserDecl.Gives (ParserDecl.lowerBody scope declared) body

theorem FromRewrite.rewritten {body : RuleBody} (h : FromRewrite body) : Rewritten body := by
  obtain ⟨name, alternatives, spec, w, declared, scope, hwritten, helim, hw, hread, hlower⟩ := h
  have hmarked := UnitDecl.parserRuleBody_marked hwritten helim hw hread
  exact ParserDecl.lowerBody_rewritten hmarked hlower

end GrammarEngine.Parser

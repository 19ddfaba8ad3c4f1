import GrammarEngine.Proofs.Checked
import GrammarEngine.Proofs.Parser.Run
import GrammarEngine.Proofs.Search.Visit

/-!
# The depth limit

The limit is asked for in one place: where an invocation is neither remembered nor may nest any
deeper. There a search stops, and with a higher limit it goes on. In all other places both searches
do the same, so a search that comes to an end under one limit comes to the same end, with the same
memory and the same refused tokens, under every higher one.

A search refines another one if it ends as that one does wherever that one comes to an end. It may
still find something where the other one stops because rules nest too deep. Every way of putting
searches together keeps this.
-/
namespace GrammarEngine.Search

/-! ## Searches that go further -/

variable {α β : Type}

/-- Whatever one search ends with, the answer with the state, the other one ends with too. -/
def Refines (x y : Search α) : Prop := ∀ s r, x.run s = .ok r → y.run s = .ok r

namespace Refines

theorem refl (x : Search α) : Refines x x := fun _ _ h => h

/-- A search that stops everywhere is refined by any other. -/
theorem throw {e : NestingFault} {x : Search α} : Refines (MonadExcept.throw e) x := nofun

theorem bind {x y : Search α} {f g : α → Search β} (hx : Refines x y)
    (hf : ∀ a, Refines (f a) (g a)) : Refines (x >>= f) (y >>= g) := by
  intro s r hrun
  rw [StateT.run_bind] at hrun ⊢
  obtain ⟨t, hstep, hrest⟩ := bind_eq_ok.mp hrun
  exact bind_eq_ok.mpr ⟨t, hx s t hstep, hf t.1 t.2 r hrest⟩

theorem map {x y : Search α} (hx : Refines x y) (f : α → β) :
    Refines (x >>= fun a => pure (f a)) (y >>= fun a => pure (f a)) :=
  hx.bind fun a => refl (pure (f a))

theorem mapM {f g : α → Search β} {items : List α} (h : ∀ a ∈ items, Refines (f a) (g a)) :
    Refines (items.mapM f) (items.mapM g) := by
  induction items with
  | nil => exact refl _
  | cons a rest ih =>
      rw [List.mapM_cons, List.mapM_cons]
      refine (h a List.mem_cons_self).bind fun b => ?_
      exact (ih fun c hc => h c (List.mem_cons_of_mem a hc)).map (b :: ·)

theorem foldlM {f g : β → α → Search β} (h : ∀ b a, Refines (f b a) (g b a)) (items : List α)
    (init : β) : Refines (items.foldlM f init) (items.foldlM g init) := by
  induction items generalizing init with
  | nil => exact refl _
  | cons a rest ih =>
      rw [List.foldlM_cons, List.foldlM_cons]
      exact (h init a).bind ih

end Refines

variable {next next' : Branch α → Search (List (Branch α))}

theorem visit_refines (h : ∀ b, Refines (next b) (next' b)) (greedy : Bool) (bound : Nat)
    (v : Visit α) (b : Branch α) :
    Refines (visit next greedy bound v b) (visit next' greedy bound v b) := by
  induction bound generalizing v b with
  | zero => exact .refl _
  | succ bound ih =>
      rw [visit_succ, visit_succ]
      split
      · exact .refl _
      · refine (h b).bind fun following => ?_
        exact (Refines.foldlM ih following (v.enter greedy b)).map (Visit.leave greedy · b)

theorem visitAll_refines (h : ∀ b, Refines (next b) (next' b)) (greedy : Bool) (bound : Nat)
    (roots : List (Branch α)) :
    Refines (visitAll next greedy bound roots) (visitAll next' greedy bound roots) :=
  (Refines.foldlM (visit_refines h greedy bound) roots {}).map fun v => v.kept.reverse

end GrammarEngine.Search

/-! ## Parsing under a limit -/
namespace GrammarEngine.Parser

open Search

variable {bodies : Array RuleBody} {input : Array Token}

/-! ### Expressions -/

theorem extend_refines {next next' : Nat → Search (List Row)}
    (h : ∀ place, Refines (next place) (next' place)) (r : Row) :
    Refines (extend next r) (extend next' r) :=
  (h r.stop).map (·.map r.then)

theorem round_refines {body body' : Nat → Search (List Row)}
    (h : ∀ place, Refines (body place) (body' place)) (r : Row) :
    Refines (Search.round body r) (Search.round body' r) :=
  (extend_refines h r).map (List.filter fun n : Row => r.stop < n.stop)

theorem extendAll_refines {next next' : Nat → Search (List Row)}
    (h : ∀ place, Refines (next place) (next' place)) (rows : List Row) :
    Refines (extendAll next rows) (extendAll next' rows) :=
  (Refines.mapM fun r _ => extend_refines h r).map (Branch.distinct ·.flatten)

variable {inv inv' : Invoker}

mutual
theorem eval_refines (h : ∀ i, Refines (inv i) (inv' i)) : ∀ (e : ParseExpr) (place : Nat),
    Refines (eval input inv e place) (eval input inv' e place)
  | .empty, _ | .token _, _ | .notTokens _, _ | .anyToken, _ => .refl _
  | .rule index precedence, place => by
      simp only [eval]
      exact (h ⟨index, precedence, place⟩).map fun found =>
        found.map fun b => Row.single b.stop b.value
  | .seq items, place => by
      simp only [eval]
      exact evalSeq_refines h items [Row.empty place]
  | .choice alternatives, place => by
      simp only [eval]
      exact (evalChoice_refines h alternatives place).map Branch.distinct
  | .optional body greedy, place => by
      simp only [eval]
      exact (eval_refines h body place).map fun found => Branch.distinct
        ((if greedy then found else Row.empty place :: found) ++ [Row.empty place])
  | .star body greedy, place => by
      simp only [eval]
      exact visitAll_refines (round_refines (eval_refines h body)) greedy (input.size + 1)
        [Row.empty place]
  | .plus body greedy, place => by
      simp only [eval]
      exact (eval_refines h body place).bind
        (visitAll_refines (round_refines (eval_refines h body)) greedy (input.size + 1))

theorem evalSeq_refines (h : ∀ i, Refines (inv i) (inv' i)) :
    ∀ (es : List ParseExpr) (rows : List Row),
      Refines (evalSeq input inv es rows) (evalSeq input inv' es rows)
  | [], _ => .refl _
  | e :: rest, rows => by
      simp only [evalSeq]
      exact (extendAll_refines (eval_refines h e) rows).bind (evalSeq_refines h rest)

theorem evalChoice_refines (h : ∀ i, Refines (inv i) (inv' i)) :
    ∀ (es : List ParseExpr) (place : Nat),
      Refines (evalChoice input inv es place) (evalChoice input inv' es place)
  | [], _ => .refl _
  | e :: rest, place => by
      simp only [evalChoice]
      exact (eval_refines h e place).bind fun first =>
        (evalChoice_refines h rest place).map (first ++ ·)
end

/-! ### Rules -/

theorem growth_refines (h : ∀ i, Refines (inv i) (inv' i)) (i : Invocation)
    (suffixes : List Suffix) (operand : Branch Derivation) :
    Refines (growth input inv i suffixes operand) (growth input inv' i suffixes operand) := by
  refine (Refines.mapM fun s _ => ?_).map List.flatten
  exact (round_refines (eval_refines h s.body) _).map (·.map (derivation i (some s.precedence)))

theorem matchBody_refines (h : ∀ i, Refines (inv i) (inv' i)) (i : Invocation) (body : RuleBody) :
    Refines (matchBody input inv i body) (matchBody input inv' i body) := by
  cases body with
  | plain body => exact (eval_refines h body i.start).map (·.map (derivation i none))
  | leftRecursive primary suffixes =>
      refine (eval_refines h primary i.start).bind fun seeds => ?_
      exact visitAll_refines (growth_refines h i suffixes) true (input.size + 1)
        (seeds.map (derivation i none))

theorem memoized_refines {find find' : Search (List (Branch Derivation))} (h : Refines find find')
    (i : Invocation) : Refines (memoized i find) (memoized i find') := by
  intro s r hrun
  cases hmemo : s.memo[i]? with
  | some known =>
      rw [run_memoized_of_some hmemo] at hrun ⊢
      exact hrun
  | none =>
      rw [run_memoized_of_none hmemo] at hrun ⊢
      obtain ⟨t, hfind, hrest⟩ := bind_eq_ok.mp hrun
      exact bind_eq_ok.mpr ⟨t, h _ t hfind, hrest⟩

/-- The induction is on the lower depth; without any depth left, only remembered invocations are
answered. -/
theorem invoke_refines {depth depth' : Nat} (hle : depth ≤ depth') (i : Invocation) :
    Refines (invoke bodies input depth i) (invoke bodies input depth' i) := by
  induction depth generalizing depth' i with
  | zero => cases depth' <;> exact memoized_refines .throw i
  | succ depth ih =>
      obtain ⟨depth', rfl⟩ : ∃ n, depth' = n + 1 := ⟨depth' - 1, by omega⟩
      refine memoized_refines ?_ i
      split
      · exact .refl _
      · exact matchBody_refines (ih (by omega)) i _

/-! ### Runs -/

/-- A parse was stopped because rules nest too deep. -/
def CutOff (x : Except ParsingFault ParseResult) : Prop :=
  ∃ rule limit, x = .error (.recursionLimit rule limit)

theorem clampDepth_mono {d d' : Nat} (h : d ≤ d') :
    ParserProgram.clampDepth d ≤ ParserProgram.clampDepth d' := by
  unfold ParserProgram.clampDepth
  omega

theorem parse_of_le (p : ParserProgram) (rule : String) (stream : TokenStream) {d d' : Nat}
    (hle : d ≤ d') (h : ¬ CutOff (p.parse rule stream d)) :
    p.parse rule stream d' = p.parse rule stream d := by
  unfold ParserProgram.parse at h ⊢
  cases hrule : p.ruleIndex? rule with
  | none => rfl
  | some index =>
      simp only [hrule] at h ⊢
      cases hrun : p.search stream.visible.toArray index (ParserProgram.clampDepth d) with
      | error e =>
          rw [hrun] at h
          exact absurd ⟨_, _, rfl⟩ h
      | ok r =>
          have hmore :
              p.search stream.visible.toArray index (ParserProgram.clampDepth d') = .ok r :=
            invoke_refines (clampDepth_mono hle) _ {} r hrun
          obtain ⟨_ | _, _⟩ := r <;> rw [hmore]

/-- A depth limit only cuts off. A parse that one limit does not stop has the same result, with its
tree, its tokens and its faults, under every higher limit, and a parse that a limit stops is stopped
by every lower one. -/
theorem depth_limit_only_cuts (p : ParserProgram) (rule : String) (stream : TokenStream)
    {d d' : Nat} (hle : d ≤ d') :
    (¬ CutOff (p.parse rule stream d) → p.parse rule stream d' = p.parse rule stream d) ∧
      (CutOff (p.parse rule stream d') → CutOff (p.parse rule stream d)) := by
  refine ⟨parse_of_le p rule stream hle, fun hcut => ?_⟩
  by_contra h
  exact h (parse_of_le p rule stream hle h ▸ hcut)

/-- A sum in brackets nests two deep: the limit 1 stops its parse and the limit 2 does not, so the
limit 3 gives what the limit 2 gives. -/
theorem sums_depth_limit :
    let stream : TokenStream := ⟨[letter 2 0, letter 1 1, letter 3 2], []⟩
    CutOff (sums.parse "sum" stream 1) ∧
      (∃ r, sums.parse "sum" stream 2 = .ok r ∧ r.root.isSome = true) ∧
      sums.parse "sum" stream 3 = sums.parse "sum" stream 2 ∧
      (CutOff (sums.parse "sum" stream 1) → CutOff (sums.parse "sum" stream 0)) := by
  intro stream
  have hrule : sums.ruleIndex? "sum" = some 0 := by decide
  have hruns : (∃ fault, (invoke sums.bodies stream.visible.toArray 1 ⟨0, 0, 0⟩).run {} =
      .error fault) ∧ ∃ b s, (invoke sums.bodies stream.visible.toArray 2 ⟨0, 0, 0⟩).run {} =
      .ok ([b], s) := by
    simp [stream, sums, sumBody, letter, TokenStream.visible, Token.isVisible, invoke, memoized,
      get, getThe, MonadStateOf.get, StateT.get, StateT.run, bind, StateT.bind, Except.bind, pure,
      stateT_pure, Except.pure, modify, modifyGet, MonadStateOf.modifyGet, StateT.modifyGet,
      matchBody, eval, evalChoice, evalSeq, matchToken, SearchState.remember, SearchState.refuse,
      extend, extendAll, Branch.distinct, Branch.keepFirst, Row.single, Row.empty, Row.then,
      visitAll, visit, growth, Search.round, throw, throwThe, MonadExceptOf.throw, StateT.lift]
  obtain ⟨⟨fault, hshallow⟩, b, s, hdeep⟩ := hruns
  have hcut : CutOff (sums.parse "sum" stream 1) := by
    rcases parse_cases sums stream 1 hrule with ⟨name, _, -, h⟩ | ⟨_, _, _, hrun, -⟩
    · exact ⟨name, _, h⟩
    · cases hshallow.symm.trans hrun
  obtain ⟨r, hparse, hroot⟩ := parse_of_search sums stream 2 hrule hdeep
  have hends : ¬ CutOff (sums.parse "sum" stream 2) := by
    rintro ⟨rule, limit, h⟩
    cases hparse.symm.trans h
  exact ⟨hcut, ⟨r, hparse, by rw [hroot, Option.isSome_some]⟩,
    (depth_limit_only_cuts sums "sum" stream (by decide : 2 ≤ 3)).1 hends,
    (depth_limit_only_cuts sums "sum" stream (by decide : 0 ≤ 1)).2⟩

end GrammarEngine.Parser

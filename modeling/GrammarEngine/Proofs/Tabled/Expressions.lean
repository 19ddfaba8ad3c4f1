import GrammarEngine.Proofs.Search.Visit
import GrammarEngine.Proofs.Tabled.Follows

/-!
# Expressions over tables

A visit that goes on as long as there are branches to follow comes to the end of the bounded visit,
since each branch is followed by longer ones only and all of them end inside the input. So a run
follows the search through every expression, provided that it does so for the invocations which the
expression makes.
-/
namespace GrammarEngine.Tabled

open Search (Visit visit_succ)

variable {α β : Type} {g : Setting} {input : Array Token} {keys : Finset Invocation}
  {depth : Nat} {table : Table}

/-! ## Branches -/

section Branches

variable {size : Nat} {V : α → β → Prop} {bs : List (Branch α)} {cs : List (Branch β)}

theorem forall₂_keepFirst (h : List.Forall₂ (SameEnd size V) bs cs) (seen : Std.HashSet Nat) :
    List.Forall₂ (SameEnd size V) (Branch.keepFirst seen bs) (Branch.keepFirst seen cs) := by
  induction h generalizing seen with
  | nil => exact .nil
  | cons hbc _ ih =>
      rw [Branch.keepFirst, Branch.keepFirst, hbc.stop]
      split
      · exact ih seen
      · exact .cons hbc (ih _)

/-- Keeping the first branch for each place looks at places only. -/
theorem forall₂_distinct (h : List.Forall₂ (SameEnd size V) bs cs) :
    List.Forall₂ (SameEnd size V) (Branch.distinct bs) (Branch.distinct cs) :=
  forall₂_keepFirst h {}

theorem forall₂_and_right {R : α → β → Prop} {p : β → Prop} {as : List α} {bs : List β}
    (h : List.Forall₂ R as bs) (hp : ∀ b ∈ bs, p b) :
    List.Forall₂ (fun a b => R a b ∧ p b) as bs := by
  induction h with
  | nil => exact .nil
  | cons hab _ ih =>
      exact .cons ⟨hab, hp _ List.mem_cons_self⟩ (ih fun b hb => hp b (List.mem_cons_of_mem _ hb))

theorem forall₂_filter_longer (h : List.Forall₂ (SameEnd size V) bs cs) (place : Nat) :
    List.Forall₂ (fun b c => SameEnd size V b c ∧ place < c.stop)
      (bs.filter fun b => place < b.stop) (cs.filter fun c => place < c.stop) := by
  refine forall₂_and_right (List.rel_filter (fun b c hbc => ?_) h) fun c hc => ?_
  · simp only [hbc.stop]
  · simpa using (List.mem_filter.mp hc).2

end Branches

/-! ## Visits -/

/-- Visits that have been to the same places and have kept branches that correspond. -/
structure SameVisit (size : Nat) (V : α → β → Prop) (v : Visit α) (w : Visit β) : Prop where
  seen : v.seen = w.seen
  kept : List.Forall₂ (SameEnd size V) v.kept w.kept

variable {V : Table → α → β → Prop} {next : Branch α → Run (List (Branch α))}
  {next' : Branch β → Search (List (Branch β))} {greedy : Bool}

theorem lasting_sameVisit (hV : Lasting V) :
    Lasting fun t => SameVisit (α := α) (β := β) input.size (V t) :=
  fun _ _ hext _ _ h => ⟨h.seen, (hV.sameEnd _).forall₂ hext h.kept⟩

theorem SameVisit.enter {size : Nat} {V : α → β → Prop} {v : Visit α} {w : Visit β} {b : Branch α}
    {c : Branch β} (h : SameVisit size V v w) (hbc : SameEnd size V b c) :
    SameVisit size V (v.enter greedy b) (w.enter greedy c) where
  seen := by rw [Visit.enter, Visit.enter, h.seen, hbc.stop]
  kept := by
    cases greedy with
    | true => exact h.kept
    | false => exact .cons hbc h.kept

theorem SameVisit.leave {size : Nat} {V : α → β → Prop} {v : Visit α} {w : Visit β} {b : Branch α}
    {c : Branch β} (h : SameVisit size V v w) (hbc : SameEnd size V b c) :
    SameVisit size V (v.leave greedy b) (w.leave greedy c) := by
  cases greedy with
  | true => exact ⟨h.seen, .cons hbc h.kept⟩
  | false => exact h

theorem visit_eq (next : Branch α → Run (List (Branch α))) (greedy : Bool) (v : Visit α)
    (b : Branch α) :
    visit next greedy v b =
      if v.seen.contains b.stop then pure v
      else next b >>= fun following =>
        following.foldlM (visit next greedy) (v.enter greedy b) >>= fun left =>
          pure (left.leave greedy b) := by
  rw [visit]
  rfl

/-- What follows a branch corresponds, and is longer. -/
def GoesOn (V : Table → α → β → Prop) (size : Nat) (c : Branch β) (t : Table) :
    List (Branch α) → List (Branch β) → Prop :=
  List.Forall₂ fun b d => SameEnd size (V t) b d ∧ c.stop < d.stop

/-- The induction is on the bound of the search, which is never met: each branch is followed by
longer ones, and none goes beyond the input. -/
theorem visit_follows (hV : Lasting V)
    (hnext : ∀ u b c, Extends table u → SameEnd input.size (V u) b c →
      Follows g input keys depth u (next b) (next' c) (GoesOn V input.size c))
    {bound : Nat} {u : Table} (hu : Extends table u) {v : Visit α} {w : Visit β}
    (hvw : SameVisit input.size (V u) v w) {b : Branch α} {c : Branch β}
    (hbc : SameEnd input.size (V u) b c) (hbound : input.size < bound + c.stop) :
    Follows g input keys depth u (visit next greedy v b) (Search.visit next' greedy bound w c)
      fun t => SameVisit input.size (V t) := by
  induction bound generalizing u v w b c with
  | zero =>
      have := hbc.le
      omega
  | succ bound ih =>
      rw [visit_eq, visit_succ, hvw.seen, hbc.stop]
      split
      · exact .pure fun _ hext => lasting_sameVisit hV hext hvw
      · refine (hnext u b c hu hbc).bind fun u₁ bs cs hu₁ hgoes => ?_
        have hbc₁ := hV.sameEnd input.size hu₁ hbc
        refine (Follows.foldlM (lasting_sameVisit hV) ?_
          ((lasting_sameVisit hV hu₁ hvw).enter hbc₁)).bind fun u₂ left left' hu₂ hleft => ?_
        · refine hgoes.imp fun b' d hd u' v' w' hu' hvw' => ?_
          have hlonger := hd.2
          exact ih ((hu.trans hu₁).trans hu') hvw'
            (hV.sameEnd _ hu' hd.1) (by omega)
        · exact .pure fun _ hext => lasting_sameVisit hV hext
            (hleft.leave (hV.sameEnd _ hu₂ hbc₁))

theorem visitAll_follows (hV : Lasting V)
    (hnext : ∀ u b c, Extends table u → SameEnd input.size (V u) b c →
      Follows g input keys depth u (next b) (next' c) (GoesOn V input.size c))
    {u : Table} (hu : Extends table u) {bs : List (Branch α)} {cs : List (Branch β)}
    (hroots : List.Forall₂ (SameEnd input.size (V u)) bs cs) :
    Follows g input keys depth u (visitAll next greedy bs)
      (Search.visitAll next' greedy (input.size + 1) cs)
      fun t => List.Forall₂ (SameEnd input.size (V t)) := by
  refine (Follows.foldlM (lasting_sameVisit hV) ?_ ⟨rfl, .nil⟩).bind fun t v w _ hvw =>
    .pure fun _ hext => (hV.sameEnd _).forall₂ hext (List.rel_reverse hvw.kept)
  refine hroots.imp fun b c hbc u' v w hu' hvw => ?_
  exact visit_follows hV hnext (hu.trans hu') hvw (hV.sameEnd _ hu' hbc) (by omega)

/-! ## Tokens and rounds -/

/-- A setting in which the tokens that a search sees are found by their places and indices. -/
structure Shows (g : Setting) (input : Array Token) : Prop where
  visible : g.visible = input.map Token.index
  tokens : ∀ (place : Nat) t, input[place]? = some t → g.tokens[t.index]? = some t

theorem lookUp_bind (a : α) (f : α → Run β) : (lookUp (some a) >>= f) = f a := rfl

theorem tokenAt?_eq (hg : Shows g input) (place : Nat) :
    tokenAt? g place = pure input[place]? := by
  rw [tokenAt?, hg.visible, Array.getElem?_map]
  cases h : input[place]? with
  | none => rfl
  | some t =>
      simp only [Option.map_some, hg.tokens place t h]
      rfl

theorem refuse_follows (place : Nat) (expected : Option TokenType) :
    Follows g input keys depth table (modify fun s : State => s.refuse place expected)
      (modify fun s : SearchState => s.refuse place expected : Search Unit) fun _ _ _ => True where
  answers s t hst _ b t' hrun := by
    obtain ⟨-, rfl⟩ := Prod.mk.inj (Except.ok.inj hrun)
    refine ⟨(), s.refuse place expected, rfl, hst.refuse place expected, ?_,
      Nat.le_of_eq (room_refuse t place expected), trivial⟩
    rw [State.table_refuse]
    exact .refl _
  fails s t _ _ e hrun := by cases hrun

theorem matchToken_follows (hg : Shows g input) (expected : Option TokenType)
    (accepts : TokenType → Bool) (place : Nat) :
    Follows g input keys depth table (matchToken g expected accepts place)
      (Search.matchToken input expected accepts place) (Lines input) := by
  rw [matchToken, Search.matchToken, tokenAt?_eq hg, pure_bind]
  cases h : input[place]? with
  | none => exact .pure fun _ _ => .nil
  | some t =>
      dsimp only
      split
      · refine .pure fun _ _ => .cons ⟨rfl, ?_, .cons (.token h) .nil⟩ .nil
        exact (Array.getElem?_eq_some_iff.mp h).1
      · exact (refuse_follows place expected).bind fun _ _ _ _ _ => .pure fun _ _ => .nil

variable {body : Nat → Run (List Line)} {body' : Nat → Search (List Row)}

theorem Lines.then {r : Line} {r' : Row}
    (hr : DenotesAll input table r.value.toList r'.value.toList)
    {rows : List Line} {rows' : List Row} (h : Lines input table rows rows') :
    Lines input table (rows.map r.then) (rows'.map r'.then) := by
  refine List.forall₂_map_left_iff.mpr (List.forall₂_map_right_iff.mpr (h.imp fun n n' hn => ?_))
  refine ⟨hn.stop, hn.le, ?_⟩
  simpa [Line.then, Row.then, SameParts] using hr.append hn.value

theorem extend_follows {r : Line} {r' : Row}
    (hr : SameEnd input.size (SameParts input table) r r')
    (h : Follows g input keys depth table (body r'.stop) (body' r'.stop) (Lines input)) :
    Follows g input keys depth table (extend body r) (Search.extend body' r') (Lines input) := by
  rw [extend, Search.extend, hr.stop]
  refine h.bind fun u rows rows' hu hrows => .pure fun v hv => ?_
  exact Lines.then (hr.value.mono (hu.trans hv)) (lasting_lines hv hrows)

theorem round_follows {r : Line} {r' : Row}
    (hr : SameEnd input.size (SameParts input table) r r')
    (h : Follows g input keys depth table (body r'.stop) (body' r'.stop) (Lines input)) :
    Follows g input keys depth table (round body r) (Search.round body' r')
      (GoesOn (SameParts input) input.size r') := by
  rw [round, Search.round, hr.stop]
  refine (extend_follows hr h).bind fun _ rows rows' _ hrows => .pure fun _ hext => ?_
  exact forall₂_filter_longer (lasting_lines hext hrows) r'.stop

theorem extendAll_follows {rows : List Line} {rows' : List Row}
    (hrows : Lines input table rows rows')
    (h : ∀ u place, Extends table u → place ≤ input.size →
      Follows g input keys depth u (body place) (body' place) (Lines input)) :
    Follows g input keys depth table (extendAll body rows) (Search.extendAll body' rows')
      (Lines input) := by
  rw [extendAll, Search.extendAll]
  refine (Follows.mapM (Q := Lines input) lasting_lines (hrows.imp fun r r' hr u hu => ?_)).bind
    fun _ found found' _ hfound => .pure fun _ hext => ?_
  · exact extend_follows (lasting_sameParts.sameEnd _ hu hr) (h u r'.stop hu hr.le)
  · exact lasting_lines hext (forall₂_distinct (List.rel_flatten hfound))

end GrammarEngine.Tabled

namespace GrammarEngine

/-! ## Calls -/

namespace ParseExpr

mutual
/-- The rules that an expression invokes, with the precedences that it passes to them. -/
def calls : ParseExpr → List (UInt32 × UInt32)
  | rule index precedence => [(index, precedence)]
  | seq items => callsAll items
  | choice alternatives => callsAll alternatives
  | optional body _ => body.calls
  | star body _ => body.calls
  | plus body _ => body.calls
  | _ => []

def callsAll : List ParseExpr → List (UInt32 × UInt32)
  | [] => []
  | e :: rest => e.calls ++ callsAll rest
end

end ParseExpr

def RuleBody.calls : RuleBody → List (UInt32 × UInt32)
  | plain body => body.calls
  | leftRecursive primary suffixes => primary.calls ++ suffixes.flatMap fun s => s.body.calls

namespace Tabled

variable {g : Setting} {input : Array Token} {keys : Finset Invocation} {depth : Nat}
  {table : Table}

/-- All invocations that calls can lead to, wherever in the input they are made. -/
def Admits (input : Array Token) (keys : Finset Invocation) (calls : List (UInt32 × UInt32)) :
    Prop :=
  ∀ c ∈ calls, ∀ place ≤ input.size, (⟨c.1, c.2, place⟩ : Invocation) ∈ keys

theorem Admits.left {calls more : List (UInt32 × UInt32)} (h : Admits input keys (calls ++ more)) :
    Admits input keys calls :=
  fun c hc => h c (List.mem_append_left more hc)

theorem Admits.right {calls more : List (UInt32 × UInt32)} (h : Admits input keys (calls ++ more)) :
    Admits input keys more :=
  fun c hc => h c (List.mem_append_right calls hc)

theorem lines_empty {place : Nat} (hplace : place ≤ input.size) (table : Table) :
    Lines input table [⟨place, .empty⟩] [Row.empty place] :=
  .cons ⟨rfl, hplace, .nil⟩ .nil

variable {inv : Invoker} {inv' : Search.Invoker}

/-- Invocations among the given ones follow those of the search, over a table and its extensions. -/
def InvokesAlike (g : Setting) (input : Array Token) (keys : Finset Invocation) (depth : Nat)
    (table : Table) (inv : Invoker) (inv' : Search.Invoker) : Prop :=
  ∀ u k, Extends table u → k ∈ keys →
    Follows g input keys depth u (inv k) (inv' k) (Matches input)

mutual
/-- The cases are those of expressions. -/
theorem eval_follows (hg : Shows g input)
    (hinv : InvokesAlike g input keys depth table inv inv') :
    ∀ (e : ParseExpr), Admits input keys e.calls → ∀ u place, Extends table u →
      place ≤ input.size → Follows g input keys depth u (eval g inv e place)
        (Search.eval input inv' e place) (Lines input)
  | .empty, _, u, place, hu, hplace => by
      rw [eval, Search.eval]
      exact .pure fun v _ => lines_empty hplace v
  | .token t, _, u, place, _, _ => by
      rw [eval, Search.eval]
      exact matchToken_follows hg _ _ place
  | .notTokens ts, _, u, place, _, _ => by
      rw [eval, Search.eval]
      exact matchToken_follows hg _ _ place
  | .anyToken, _, u, place, _, _ => by
      rw [eval, Search.eval]
      exact matchToken_follows hg _ _ place
  | .rule index precedence, hcalls, u, place, hu, hplace => by
      rw [eval, Search.eval]
      refine (hinv u ⟨index, precedence, place⟩ hu (hcalls _ List.mem_cons_self place hplace)).bind
        fun _ found found' _ hfound => .pure fun _ hext => ?_
      refine List.forall₂_map_left_iff.mpr (List.forall₂_map_right_iff.mpr
        ((lasting_matches hext hfound).imp fun b b' hb => ?_))
      exact ⟨hb.stop, hb.le, .cons hb.value .nil⟩
  | .seq items, hcalls, u, place, hu, hplace => by
      rw [eval, Search.eval]
      exact evalSeq_follows hg hinv items hcalls u hu (lines_empty hplace u)
  | .choice alternatives, hcalls, u, place, hu, hplace => by
      rw [eval, Search.eval]
      exact (evalChoice_follows hg hinv alternatives hcalls u place hu hplace).map
        (fun _ _ _ h => forall₂_distinct h) lasting_lines
  | .optional body greedy, hcalls, u, place, hu, hplace => by
      rw [eval, Search.eval]
      refine (eval_follows hg hinv body hcalls u place hu hplace).bind
        fun _ found found' _ hfound => .pure fun v hext => forall₂_distinct ?_
      have hempty := lines_empty hplace v
      have hfound := lasting_lines hext hfound
      cases greedy with
      | true => exact List.rel_append hfound hempty
      | false => exact List.rel_append (List.rel_append hempty hfound) hempty
  | .star body greedy, hcalls, u, place, hu, hplace => by
      rw [eval, Search.eval]
      exact visitAll_follows lasting_sameParts (fun v r r' hv hr =>
        round_follows hr (eval_follows hg hinv body hcalls v r'.stop hv hr.le)) hu
        (lines_empty hplace u)
  | .plus body greedy, hcalls, u, place, hu, hplace => by
      rw [eval, Search.eval]
      refine (eval_follows hg hinv body hcalls u place hu hplace).bind
        fun v first first' hv hfirst => ?_
      exact visitAll_follows lasting_sameParts (fun w r r' hw hr =>
        round_follows hr (eval_follows hg hinv body hcalls w r'.stop hw hr.le)) (hu.trans hv) hfirst

theorem evalSeq_follows (hg : Shows g input)
    (hinv : InvokesAlike g input keys depth table inv inv') :
    ∀ (es : List ParseExpr), Admits input keys (ParseExpr.callsAll es) → ∀ u, Extends table u →
      ∀ {rows rows'}, Lines input u rows rows' → Follows g input keys depth u
        (evalSeq g inv es rows) (Search.evalSeq input inv' es rows') (Lines input)
  | [], _, u, hu, rows, rows', hrows => by
      rw [evalSeq, Search.evalSeq]
      exact .pure fun _ hext => lasting_lines hext hrows
  | e :: rest, hcalls, u, hu, rows, rows', hrows => by
      rw [evalSeq, Search.evalSeq]
      refine (extendAll_follows hrows fun v place hv hplace =>
        eval_follows hg hinv e hcalls.left v place (hu.trans hv) hplace).bind
        fun v mid mid' hv hmid => ?_
      exact evalSeq_follows hg hinv rest hcalls.right v (hu.trans hv) hmid

theorem evalChoice_follows (hg : Shows g input)
    (hinv : InvokesAlike g input keys depth table inv inv') :
    ∀ (es : List ParseExpr), Admits input keys (ParseExpr.callsAll es) → ∀ u place,
      Extends table u → place ≤ input.size → Follows g input keys depth u
        (evalChoice g inv es place) (Search.evalChoice input inv' es place) (Lines input)
  | [], _, u, place, _, _ => by
      rw [evalChoice, Search.evalChoice]
      exact .pure fun _ _ => .nil
  | e :: rest, hcalls, u, place, hu, hplace => by
      rw [evalChoice, Search.evalChoice]
      refine (eval_follows hg hinv e hcalls.left u place hu hplace).bind
        fun v first first' hv hfirst => ?_
      refine (evalChoice_follows hg hinv rest hcalls.right v place (hu.trans hv) hplace).bind
        fun w others others' hw hothers => .pure fun _ hext => ?_
      exact List.rel_append (lasting_lines (hw.trans hext) hfirst)
        (lasting_lines hext hothers)
end

end Tabled

end GrammarEngine

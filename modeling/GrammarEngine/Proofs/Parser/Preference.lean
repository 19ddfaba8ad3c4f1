import GrammarEngine.Proofs.Parser.Enumeration
import GrammarEngine.Proofs.Parser.Run
import GrammarEngine.Proofs.Tabled.Programs

/-!
# Preference of runs

If no rule can reach itself at the same place, the matches that a run finds are the first ones, for
each place at which they end, of all that plain backtracking lists. Dropping the later ways to reach
a place loses nothing, because what can go on from a place does not depend on how it was reached; so
the ways that are dropped inside an expression would be dropped later all the same.

A loaded parser therefore gives what plain backtracking gives, as long as rules may nest as deep as
there are ways to invoke them.
-/
namespace GrammarEngine

namespace Search.Ensures

open Branch

variable {I : SearchState → Prop} {ι α β : Type} {f : α → β}

/-- If each item gives the first branches of what goes on from it, all of them together do. -/
theorem spread {step : ι → Search (List (Branch α))} {g : ι → Option (List (Branch β))}
    {items : List ι} (h : ∀ a ∈ items, Ensures I (step a) (FirstsOf f (g a))) :
    Ensures I (items.mapM step) fun lists => FirstsOf f (Branch.spread g items) lists.flatten := by
  induction items with
  | nil =>
      rw [List.mapM_nil]
      exact pure ⟨[], rfl, .refl []⟩
  | cons a items ih =>
      rw [List.mapM_cons]
      refine (h a List.mem_cons_self).bind fun found hfound => ?_
      refine (ih fun b hb => h b (List.mem_cons_of_mem a hb)).bind fun lists hlists => pure ?_
      rw [spread_cons, List.flatten_cons]
      exact hfound.append hlists

end Search.Ensures

namespace Parser

open Branch Search

variable {bodies : Array RuleBody} {input : Array Token} {I : SearchState → Prop} {inv : Invoker}

/-- The matches of an invocation reach every place once and are the first ones that do. -/
structure Preferred (bodies : Array RuleBody) (input : Array Token) (i : Invocation)
    (found : List (Branch Derivation)) : Prop where
  exact : Recognizes bodies input (fun _ => True) i found
  firsts : FirstsOf id (enumerate bodies input i) found

theorem Answers.exact {phrase : Phrase} {place : Nat}
    (h : Answers bodies (Preferred bodies input) I inv phrase place) :
    Answers bodies (Recognizes bodies input fun _ => True) I inv phrase place :=
  fun k hk => (h k hk).mono fun _ => Preferred.exact

/-- The way of a row. -/
abbrev way (r : Row) : Way := r.view Rope.toList

@[simp] theorem way_empty (place : Nat) : way (Row.empty place) = Way.empty place := rfl

theorem way_single (b : Branch Derivation) : way (Row.single b.stop b.value) = Way.single b := rfl

theorem way_then (r n : Row) : way (r.then n) = (way r).then (way n) := by
  simp [way, view, Way.then]

/-! ## Rows -/

variable {next : Nat → Search (List Row)} {list : Nat → Option (List Way)}

theorem matchToken_firsts {expected : Option TokenType} {accepts : TokenType → Bool} {place : Nat}
    (hI : ∀ s place expected, I s → I (s.refuse place expected)) :
    Ensures I (matchToken input expected accepts place)
      (FirstsOf Rope.toList (some (tokenWays input accepts place))) := by
  unfold matchToken tokenWays
  cases input[place]? with
  | none => exact .pure ⟨[], rfl, .refl []⟩
  | some t =>
      dsimp only
      split
      · exact .pure ⟨_, rfl, .refl _⟩
      · refine (Ensures.modify fun s hs => hI s place expected hs).bind fun _ _ => .pure ?_
        exact ⟨[], rfl, .refl []⟩

theorem extend_firsts {r : Row} (h : Ensures I (next r.stop) (FirstsOf Rope.toList (list r.stop))) :
    Ensures I (extend next r) (FirstsOf Rope.toList (onward list (way r))) :=
  h.bind fun _ hrows => .pure (hrows.map (fun _ => rfl) (way_then r))

theorem extendAll_firsts {rows : List Row}
    (h : ∀ r ∈ rows, Ensures I (next r.stop) (FirstsOf Rope.toList (list r.stop))) :
    Ensures I (extendAll next rows) (FirstsOf Rope.toList (spread (onward list) (rows.map way))) :=
  (Ensures.spread fun r hr => extend_firsts (h r hr)).bind fun lists hlists => by
    rw [spread_map]
    exact .pure hlists.distinct

theorem round_firsts {r : Row} (h : Ensures I (next r.stop) (FirstsOf Rope.toList (list r.stop))) :
    Ensures I (Search.round next r) (FirstsOf Rope.toList (onward (longer list) (way r))) := by
  refine (extend_firsts h).bind fun rows hrows => .pure ?_
  rw [onward_longer]
  exact hrows.filter fun j => r.stop < j

/-- One more round leads from a row to the first of all that it reaches. -/
theorem round_leading {body : ParseExpr} {place : Nat} {r : Row} (hr : place ≤ r.stop)
    (hexact : Ensures I (eval input inv body r.stop)
      (ExactRows bodies input (fun _ => True) body r.stop))
    (hfirsts : Ensures I (eval input inv body r.stop)
      (FirstsOf Rope.toList (ways bodies input body r.stop))) :
    Ensures I (Search.round (eval input inv body) r)
      (Leading Rope.toList (onward (longer (ways bodies input body))) (fun r => place ≤ r.stop)
        input.size r) := by
  have hwithin : (roundCourse bodies input (fun _ => True) body).Within (fun r => place ≤ r.stop)
      input.size := roundCourse_within body place
  refine ((round_offers hexact).and (round_firsts hfirsts)).mono fun found hfound => ?_
  exact ⟨fun d hd => hwithin.good r d hr (hfound.1.follows d hd),
    fun d hd => hwithin.bounded r d (hfound.1.follows d hd), hfound.2⟩

/-- A repetition visits the first of all that is reached by rounds. -/
theorem repeat_firsts {body : ParseExpr} {greedy : Bool} {place : Nat} {roots : List Row}
    {seeds : List Way}
    (hexact : ∀ p, place ≤ p →
      Ensures I (eval input inv body p) (ExactRows bodies input (fun _ => True) body p))
    (hfirsts : ∀ p, place ≤ p →
      Ensures I (eval input inv body p) (FirstsOf Rope.toList (ways bodies input body p)))
    (hroots : ∀ r ∈ roots, place ≤ r.stop) (hseeds : SameFirsts (roots.map way) seeds) :
    Ensures I (visitAll (Search.round (eval input inv body)) greedy (input.size + 1) roots)
      (FirstsOf Rope.toList (spread (onward (rounds bodies input body greedy)) seeds)) := by
  exact visitAll_lists (rounds_unfolds body greedy)
    (fun r hr => round_leading hr (hexact r.stop hr) (hfirsts r.stop hr)) hroots hseeds

/-- An option skips its body at last, or at first if it is not greedy. -/
theorem firsts_optional {greedy : Bool} {place : Nat} {rows : List Row} {full : Option (List Way)}
    (h : FirstsOf Rope.toList full rows) :
    FirstsOf Rope.toList
      (do
        let found ← full
        return placed greedy (Way.empty place) found)
      (distinct ((if greedy then rows else Row.empty place :: rows) ++ [Row.empty place])) := by
  obtain ⟨xs, rfl, hsame⟩ := h
  refine FirstsOf.distinct ⟨_, rfl, ?_⟩
  cases greedy with
  | true =>
      rw [if_pos rfl, List.map_append]
      exact hsame.append (.refl _)
  | false =>
      have hfront : SameFirsts (Way.empty place :: rows.map way) (Way.empty place :: xs) :=
        (SameFirsts.refl [Way.empty place]).append hsame
      rw [if_neg Bool.false_ne_true, List.map_append]
      refine (SameFirsts.append_left fun j hj => ?_).trans hfront
      rw [List.mem_singleton.mp hj]
      exact List.mem_cons_self

/-! ## Expressions -/

mutual
/-- The cases are those of expressions, as for the places that are reached. -/
theorem eval_firsts (hI : ∀ s place expected, I s → I (s.refuse place expected)) :
    ∀ (e : ParseExpr) (place : Nat), Answers bodies (Preferred bodies input) I inv (.expr e) place →
      Ensures I (eval input inv e place) (FirstsOf Rope.toList (ways bodies input e place))
  | .empty, place, _ => by
      rw [eval, ways_empty]
      exact .pure ⟨_, rfl, .refl _⟩
  | .token t, place, _ => by
      rw [eval, ways_token]
      exact matchToken_firsts hI
  | .notTokens ts, place, _ => by
      rw [eval, ways_notTokens]
      exact matchToken_firsts hI
  | .anyToken, place, _ => by
      rw [eval, ways_anyToken]
      exact matchToken_firsts hI
  | .rule index precedence, place, h => by
      rw [eval, ways_rule]
      exact (h ⟨index, precedence, place⟩ (.inr ⟨rfl, .call index precedence⟩)).bind
        fun found hfound => .pure (hfound.firsts.map (fun _ => rfl) way_single)
  | .seq items, place, h => by
      rw [eval, ways_seq]
      refine (evalSeq_firsts hI items [Row.empty place] place
        (h.of_le (Nat.le_refl _) fun _ => .seq) (by simp)).mono fun rows hrows => ?_
      rwa [List.map_singleton, spread_singleton, way_empty, onward_empty] at hrows
  | .choice alternatives, place, h => by
      rw [eval, ways_choice]
      exact (evalChoice_firsts hI alternatives place fun e he =>
        h.of_le (Nat.le_refl _) fun _ => .choice he).bind fun rows hrows => .pure hrows.distinct
  | .optional body greedy, place, h => by
      rw [eval, ways_optional]
      refine (eval_firsts hI body place (h.of_le (Nat.le_refl _) fun _ => .optional greedy)).bind
        fun rows hrows => .pure (firsts_optional hrows)
  | .star body greedy, place, h => by
      have hbody : ∀ p, place ≤ p → Answers bodies (Preferred bodies input) I inv (.expr body) p :=
        fun p hp => h.of_le hp fun _ => .star greedy
      rw [eval, ways_star]
      refine (repeat_firsts (fun p hp => eval_exact hI (fun _ => trivial) body p (hbody p hp).exact)
        (fun p hp => eval_firsts hI body p (hbody p hp)) (by simp) (.refl _)).mono
        fun rows hrows => ?_
      rwa [List.map_singleton, spread_singleton, way_empty, onward_empty] at hrows
  | .plus body greedy, place, h => by
      have hbody : ∀ p, place ≤ p → Answers bodies (Preferred bodies input) I inv (.expr body) p :=
        fun p hp => h.of_le hp fun _ => .plus greedy
      have hexact : ∀ p, place ≤ p →
          Ensures I (eval input inv body p) (ExactRows bodies input (fun _ => True) body p) :=
        fun p hp => eval_exact hI (fun _ => trivial) body p (hbody p hp).exact
      have hfirsts : ∀ p, place ≤ p →
          Ensures I (eval input inv body p) (FirstsOf Rope.toList (ways bodies input body p)) :=
        fun p hp => eval_firsts hI body p (hbody p hp)
      rw [eval, ways_plus]
      refine ((hexact place (Nat.le_refl _)).and (hfirsts place (Nat.le_refl _))).bind ?_
      intro first ⟨hfirst, seeds, hseeds, hsame⟩
      rw [hseeds]
      exact repeat_firsts hexact hfirsts (fun r hr => (hfirst.sound r hr).1.le) hsame

theorem evalSeq_firsts (hI : ∀ s place expected, I s → I (s.refuse place expected)) :
    ∀ (items : List ParseExpr) (rows : List Row) (place : Nat),
      Answers bodies (Preferred bodies input) I inv (.row items) place →
      (∀ r ∈ rows, place ≤ r.stop) →
      Ensures I (evalSeq input inv items rows)
        (FirstsOf Rope.toList (spread (onward (rowWays bodies input items)) (rows.map way)))
  | [], rows, place, _, _ => by
      rw [evalSeq, spread_rowWays_nil]
      exact .pure ⟨_, rfl, .refl _⟩
  | e :: rest, rows, place, h, hplace => by
      have hitem : ∀ r ∈ rows, Answers bodies (Preferred bodies input) I inv (.expr e) r.stop :=
        fun r hr => h.of_le (hplace r hr) fun _ => .head rest
      rw [evalSeq, spread_rowWays_cons]
      refine ((extendAll_continues fun r hr => eval_exact hI (fun _ => trivial) e r.stop
        (hitem r hr).exact).and (extendAll_firsts fun r hr =>
          eval_firsts hI e r.stop (hitem r hr))).bind fun mid hmid => ?_
      obtain ⟨hmid, hfirsts⟩ := hmid
      obtain ⟨place', hrest, hplace'⟩ := h.rest (hmid.behind hplace)
      exact (evalSeq_firsts hI rest mid place' hrest hplace').mono
        fun next hnext => hfirsts.spread onward_alike hnext

theorem evalChoice_firsts (hI : ∀ s place expected, I s → I (s.refuse place expected)) :
    ∀ (es : List ParseExpr) (place : Nat),
      (∀ e ∈ es, Answers bodies (Preferred bodies input) I inv (.expr e) place) →
      Ensures I (evalChoice input inv es place)
        (FirstsOf Rope.toList (spread (fun e => ways bodies input e place) es))
  | [], place, _ => by
      rw [evalChoice]
      exact .pure ⟨[], rfl, .refl []⟩
  | e :: rest, place, h => by
      rw [evalChoice, spread_cons]
      refine (eval_firsts hI e place (h e List.mem_cons_self)).bind fun first hfirst => ?_
      exact (evalChoice_firsts hI rest place fun e' he => h e' (List.mem_cons_of_mem e he)).bind
        fun others hothers => .pure (hfirst.append hothers)
end

/-! ## Bodies -/

variable {i : Invocation} {primary : ParseExpr} {suffixes : List Suffix}

/-- A match grows by each suffix to the first of all that the suffix leads to. -/
theorem growth_firsts {b : Branch Derivation}
    (h : ∀ s ∈ suffixes, Ensures I (eval input inv s.body b.stop)
      (FirstsOf Rope.toList (ways bodies input s.body b.stop))) :
    Ensures I (growth input inv i suffixes b)
      (FirstsOf id (lengthened bodies input i suffixes b)) := by
  refine (Ensures.spread fun s hs => ?_).bind fun lists hlists => .pure hlists
  refine (round_firsts (r := operandRow b) (h s (List.mem_filter.mp hs).1)).bind fun rows hrows =>
    .pure ?_
  exact hrows.map (Way.stop_derivation i (some s.precedence)) fun _ => rfl

/-- Admitted suffixes lead from a match to the first of all that it grows to. -/
theorem growth_leading (hI : ∀ s place expected, I s → I (s.refuse place expected))
    (h : ∀ k, Calls bodies i k → Ensures I (inv k) (Preferred bodies input k))
    (hbody : bodies[i.rule.toNat]? = some (.leftRecursive primary suffixes))
    {b : Branch Derivation} (hb : IsMatch bodies input i b) :
    Ensures I (growth input inv i suffixes b)
      (Leading id (lengthened bodies input i suffixes) (IsMatch bodies input i) input.size b) := by
  have hwithin :
      (growthCourse bodies input (fun _ => True) i suffixes fun _ _ => False).Within
        (IsMatch bodies input i) input.size :=
    growthCourse_within i suffixes nofun fun _ _ => IsMatch.follows hbody
  have hsuffix : ∀ s ∈ suffixes, Answers bodies (Preferred bodies input) I inv (.expr s.body)
      b.stop := fun s hs => answers_suffix h hbody hs hb
  have hoffers : Ensures I (growth input inv i suffixes b)
      ((growthCourse bodies input (fun _ => True) i suffixes fun _ _ => False).Offers b) :=
    growth_offers fun s hs =>
      (round_offers (r := operandRow b)
        (eval_exact hI (fun _ => trivial) s.body b.stop (hsuffix s hs).exact)).mono
        fun rows hrows => ⟨hrows, .of_forall_not fun _ _ _ h => h⟩
  refine (hoffers.and (growth_firsts fun s hs =>
    eval_firsts hI s.body b.stop (hsuffix s hs))).mono fun found hfound => ?_
  exact ⟨fun d hd => hwithin.good b d hb (hfound.1.follows d hd),
    fun d hd => hwithin.bounded b d (hfound.1.follows d hd), hfound.2⟩

theorem leftRecursive_firsts (hI : ∀ s place expected, I s → I (s.refuse place expected))
    (h : ∀ k, Calls bodies i k → Ensures I (inv k) (Preferred bodies input k))
    (hbody : bodies[i.rule.toNat]? = some (.leftRecursive primary suffixes)) :
    Ensures I (matchBody input inv i (.leftRecursive primary suffixes))
      (FirstsOf id (enumerate bodies input i)) := by
  have hprimary := answers_primary h hbody
  have hall : Unfolds true (lengthened bodies input i suffixes) (growths bodies input i suffixes) :=
    growths_unfolds i suffixes
  refine ((eval_exact hI (fun _ => trivial) primary i.start hprimary.exact).and
    (eval_firsts hI primary i.start hprimary)).bind fun rows hrows => ?_
  obtain ⟨hexact, seeds, hseeds, hsame⟩ := hrows
  have henumerate : enumerate bodies input i =
      spread (growths bodies input i suffixes) (seeds.map (Way.derivation i none)) := by
    rw [enumerate_leftRecursive hbody, hseeds, spread_map]
    rfl
  have hroots : SameFirsts ((rows.map (Search.derivation i none)).map (view id))
      (seeds.map (Way.derivation i none)) := by
    have hview : (rows.map (Search.derivation i none)).map (view id) =
        (rows.map way).map (Way.derivation i none) := by
      rw [List.map_map, List.map_map]
      rfl
    rw [hview]
    exact hsame.map (Way.stop_derivation i none)
  rw [henumerate]
  have hgood : ∀ b ∈ rows.map (Search.derivation i none), IsMatch bodies input i b := by
    intro b hb
    obtain ⟨r, hr, rfl⟩ := List.mem_map.mp hb
    exact IsMatch.seed hbody (hexact.sound r hr).1
  exact visitAll_lists hall (fun b => growth_leading hI h hbody) hgood hroots

/-- The matches of every body are preferred if those of the invocations that it makes are. -/
theorem preferred_hereditary : Hereditary bodies input (Preferred bodies input) where
  absent i habsent := by
    refine ⟨recognizes_absent habsent, [], ?_, .refl []⟩
    exact enumerate_absent habsent
  body I inv i body hI h hbody := by
    have hexact := recognizes_hereditary.body I inv i body hI
      (fun k hk => (h k hk).mono fun _ => Preferred.exact) hbody
    have hfirsts : Ensures I (matchBody input inv i body)
        (FirstsOf id (enumerate bodies input i)) := by
      cases body with
      | plain body =>
          refine (eval_firsts hI body i.start (answers_plain h hbody)).bind fun rows hrows =>
            .pure ?_
          rw [enumerate_plain hbody]
          exact hrows.map (Way.stop_derivation i none) fun _ => rfl
      | leftRecursive primary suffixes => exact leftRecursive_firsts hI h hbody
    exact (hexact.and hfirsts).mono fun found hfound => ⟨hfound.1, hfound.2⟩

/-! ## Runs -/

/-- Matches that are what is left when, of all that plain backtracking lists, only the first ones
for each end are kept. -/
def FirstMatches (bodies : Array RuleBody) (input : Array Token) (i : Invocation)
    (found : List (Branch Derivation)) : Prop :=
  ∃ all, Enumerates bodies input i all ∧ found = distinct all

theorem Preferred.firstMatches {found : List (Branch Derivation)}
    (h : Preferred bodies input i found) : FirstMatches bodies input i found := by
  obtain ⟨all, hall, hfound⟩ := h.firsts.eq_distinct h.exact.nodup
  exact ⟨all, enumerate_eq_some_iff.mp hall, hfound⟩

/-- Every invocation of a run is answered with the first matches of plain backtracking for each end,
and the tree of a parse is that of the first match of all. -/
theorem run_preferred (p : ParserProgram) (guarded : Guarded p.bodies) (stream : TokenStream) :
    (∀ limit i, (∃ fault,
        (invoke p.bodies stream.visible.toArray limit i).run {} = .error fault) ∨
      ∃ found s, (invoke p.bodies stream.visible.toArray limit i).run {} = .ok (found, s) ∧
        FirstMatches p.bodies stream.visible.toArray i found ∧
        ∀ k known, s.memo[k]? = some known →
          FirstMatches p.bodies stream.visible.toArray k known) ∧
    ∀ rule index maxDepth, p.ruleIndex? rule = some index →
      (∃ name, p.parse rule stream maxDepth =
        .error (.recursionLimit name (ParserProgram.clampDepth maxDepth))) ∨
      ∃ r all, p.parse rule stream maxDepth = .ok r ∧
        Enumerates p.bodies stream.visible.toArray ⟨UInt32.ofNat index, 0, 0⟩ all ∧
        r.root = all.head?.map fun b => SyntaxTree.ofDerivation stream.visible.toArray b.value := by
  refine ⟨fun limit i => ?_, fun rule index maxDepth hrule => ?_⟩
  · cases hrun : (invoke p.bodies stream.visible.toArray limit i).run {} with
    | error fault => exact .inl ⟨fault, rfl⟩
    | ok r =>
        obtain ⟨hfound, hmemo⟩ := of_run_invoke guarded preferred_hereditary hrun
        exact .inr ⟨r.1, r.2, rfl, hfound.firstMatches, fun k known hk =>
          (hmemo k known hk).firstMatches⟩
  · rcases parse_cases p stream maxDepth hrule with
      ⟨name, fault, -, hfault⟩ | ⟨found, s, r, hrun, hparse, hroot⟩
    · exact .inl ⟨name, hfault⟩
    · obtain ⟨all, hall, rfl⟩ := (of_run_invoke guarded preferred_hereditary hrun).1.firstMatches
      refine .inr ⟨r, all, hparse, hall, ?_⟩
      rw [hroot, head?_distinct]

/-- Two letters or one. -/
def pairBody : ParseExpr := .choice [.rule 1 0, .rule 2 0]

/-- Rows of letters that are taken in pairs or one by one. -/
def pairs : ParserProgram where
  names := ⟨"Pairs", "PairTokens", ["row", "two", "one"], {}⟩
  grammar := "Pairs"
  bodies := #[.plain (.star pairBody true), .plain (.seq [.token 1, .token 1]), .plain (.token 1)]
  startRule := 0

theorem pairs_guarded : Guarded pairs.bodies := guarded_of_inOrder rfl

def twoLetters : TokenStream := ⟨[letter 1 0, letter 1 1], []⟩

/-- A pair of letters. -/
def pairAt (place : Nat) : Way :=
  ⟨place + 2, [.rule ⟨1, 0, place⟩ none (place + 2) [.token place, .token (place + 1)]]⟩

/-- A letter for itself. -/
def oneAt (place : Nat) : Way :=
  ⟨place + 1, [.rule ⟨2, 0, place⟩ none (place + 1) [.token place]]⟩

/-- Plain backtracking takes two letters as a pair or one after the other. -/
theorem pairs_enumerates :
    Enumerates pairs.bodies twoLetters.visible.toArray ⟨0, 0, 0⟩
      ([pairAt 0, (oneAt 0).then (oneAt 1), oneAt 0, Way.empty 0].map
        (Way.derivation ⟨0, 0, 0⟩ none)) :=
  ⟨12, rfl⟩

/-- Of the two ways to match both letters the pair is kept. -/
theorem pairs_run_preferred :
    Guarded pairs.bodies ∧
      (∃ found s, (invoke pairs.bodies twoLetters.visible.toArray 2 ⟨0, 0, 0⟩).run {} =
          .ok (found, s) ∧
        found = [pairAt 0, oneAt 0, Way.empty 0].map (Way.derivation ⟨0, 0, 0⟩ none)) ∧
      ∃ r, pairs.parse "row" twoLetters 2 = .ok r ∧
        r.root = some (SyntaxTree.ofDerivation twoLetters.visible.toArray
          ((pairAt 0).derivation ⟨0, 0, 0⟩ none).value) := by
  have hok : ((invoke pairs.bodies twoLetters.visible.toArray 2 ⟨0, 0, 0⟩).run {}).isOk = true := by
    have hvisible : twoLetters.visible.toArray = #[letter 1 0, letter 1 1] := by decide
    rw [hvisible]
    simp [pairs, pairBody, letter, invoke, memoized, get, getThe, MonadStateOf.get, StateT.get,
      StateT.run, bind, StateT.bind, Except.bind, pure, stateT_pure, Except.pure, modify, modifyGet,
      MonadStateOf.modifyGet, StateT.modifyGet, matchBody, eval, evalSeq, evalChoice, visitAll,
      visit, Search.round, extend, extendAll, matchToken, SearchState.remember, Row.empty,
      Row.single, Row.then, Branch.distinct, keepFirst, Search.derivation, Except.isOk,
      Except.toBool]
  have hrun : ∃ found s, (invoke pairs.bodies twoLetters.visible.toArray 2 ⟨0, 0, 0⟩).run {} =
      .ok (found, s) := by
    cases hresult : (invoke pairs.bodies twoLetters.visible.toArray 2 ⟨0, 0, 0⟩).run {} with
    | error fault =>
        rw [hresult] at hok
        cases hok
    | ok r => exact ⟨r.1, r.2, rfl⟩
  obtain ⟨found, s, hrun⟩ := hrun
  obtain ⟨hmatches, hparses⟩ := run_preferred pairs pairs_guarded twoLetters
  have hfound : found = [pairAt 0, oneAt 0, Way.empty 0].map (Way.derivation ⟨0, 0, 0⟩ none) := by
    rcases hmatches 2 ⟨0, 0, 0⟩ with ⟨fault, h⟩ | ⟨_, _, h, ⟨all, hall, hdistinct⟩, -⟩
    · cases hrun.symm.trans h
    · cases hrun.symm.trans h
      obtain rfl := pairs_enumerates.unique hall
      rw [hdistinct]
      simp [distinct, keepFirst, pairAt, oneAt, Way.then, Way.empty, Way.derivation]
  have hrule : pairs.ruleIndex? "row" = some 0 := by decide
  refine ⟨pairs_guarded, ⟨found, s, hrun, hfound⟩, ?_⟩
  rcases hparses "row" 0 2 hrule with ⟨name, h⟩ | ⟨r, all, hparse, hall, hroot⟩
  · obtain ⟨r, hparse, -⟩ := parse_of_search pairs twoLetters 2 hrule (hfound ▸ hrun)
    cases hparse.symm.trans h
  · obtain rfl := pairs_enumerates.unique hall
    exact ⟨r, hparse, hroot⟩

/-! ## Results of plain backtracking -/

/-- The result that plain backtracking to some depth gives, with the tree of its first match. -/
def listedResult? (p : ParserProgram) (rule : String) (stream : TokenStream) (depth : Nat) :
    Option ParseResult := do
  let input := stream.visible.toArray
  let index ← p.ruleIndex? rule
  let all ← listsWithin p.bodies input depth (.enumerate ⟨UInt32.ofNat index, 0, 0⟩)
  let first ← all.head?
  return ⟨some (.ofDerivation input first.value), stream.tokens.toArray, stream.faults, p.names,
    rule⟩

/-- A parse that may nest as deep as there are ways to invoke rules gives what plain backtracking
gives. -/
theorem parse_of_listedResult? {p : ParserProgram} {rule : String} {stream : TokenStream}
    {maxDepth depth : Nat} {r : ParseResult} (linked : p.Linked) (guarded : Guarded p.bodies)
    (hindex : ∀ (k : Nat) t, stream.tokens[k]? = some t → t.index = k)
    (hdepth : p.ruleNames.length * p.precedences.card * (stream.visible.length + 1) ≤
      ParserProgram.clampDepth maxDepth)
    (h : listedResult? p rule stream depth = some r) : p.parse rule stream maxDepth = .ok r := by
  obtain ⟨index, hrule, hlisted⟩ := Option.bind_eq_some_iff.mp h
  obtain ⟨all, hall, hhead⟩ := Option.bind_eq_some_iff.mp hlisted
  obtain ⟨first, hfirst, hresult⟩ := Option.bind_eq_some_iff.mp hhead
  have hlimit := linked.parse_ne_recursionLimit hindex rule hdepth
  unfold ParserProgram.parse at hlimit ⊢
  rw [hrule] at hlimit ⊢
  simp only [ParserProgram.search] at hlimit ⊢
  cases hrun : (invoke p.bodies stream.visible.toArray (ParserProgram.clampDepth maxDepth)
      ⟨UInt32.ofNat index, 0, 0⟩).run {} with
  | error fault =>
      rw [hrun] at hlimit
      exact absurd rfl (hlimit _ _)
  | ok found =>
      obtain ⟨all', hall', hfound⟩ :=
        (of_run_invoke guarded preferred_hereditary hrun).1.firstMatches
      obtain rfl := hall'.unique ⟨depth, hall⟩
      rw [← head?_distinct, ← hfound] at hfirst
      obtain ⟨rest, hrest⟩ := List.head?_eq_some_iff.mp hfirst
      obtain ⟨_, s⟩ := found
      obtain rfl : _ = first :: rest := hrest
      rw [← Option.some.inj hresult, List.append_nil]

end Parser

end GrammarEngine

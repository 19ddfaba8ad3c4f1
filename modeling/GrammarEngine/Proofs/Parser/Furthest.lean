import GrammarEngine.Proofs.Parser.Preference
import GrammarEngine.Proofs.Parser.Refusals
import GrammarEngine.Proofs.Parser.Seeds

/-!
# The furthest refused token

A run leaves out much of what plain backtracking does: an invocation that is remembered is not tried
again, and of the ways that end at one place only the first is gone on from. Neither hides a refused
token. What an invocation refuses has been noted by the time its matches are remembered, and what
goes on from a place meets the same refusals however the place was reached. So a run that ends has
noted what plain backtracking refuses, and nothing else; its state names the furthest place and all
token types that were asked for there.
-/
namespace GrammarEngine.Parser

open Branch Search

variable {bodies : Array RuleBody} {input : Array Token} {I : SearchState → Prop} {inv : Invoker}

/-- Invocations that a phrase can make at a place are answered with preferred matches, and what is
refused on the way to them is gathered. -/
structure Reports (bodies : Array RuleBody) (input : Array Token) (I : SearchState → Prop)
    (inv : Invoker) (phrase : Phrase) (place : Nat) : Prop where
  answers : Answers bodies (Preferred bodies input) I inv phrase place
  gathers : ∀ k, Invokable bodies phrase place k →
    Gathers I (inv k) (refused bodies input (.enumerate k))

theorem Reports.of_le {phrase phrase' : Phrase} {place place' : Nat}
    (h : Reports bodies input I inv phrase place) (hle : place ≤ place')
    (hleads : ∀ r, Leads bodies phrase' r → Leads bodies phrase r) :
    Reports bodies input I inv phrase' place' :=
  ⟨h.answers.of_le hle hleads, fun k hk => h.gathers k (hk.of_le hle hleads)⟩

theorem Reports.later {phrase phrase' : Phrase} {place place' : Nat}
    (h : Reports bodies input I inv phrase place) (hlt : place < place') :
    Reports bodies input I inv phrase' place' :=
  ⟨h.answers.later (.inl hlt), fun k hk => h.gathers k (hk.later hlt)⟩

/-! ## Rows -/

variable {next : Nat → Search (List Row)}

theorem matchToken_gathers {expected : Option TokenType} {accepts : TokenType → Bool}
    {place : Nat} :
    Gathers I (matchToken input expected accepts place)
      (refusedToken input expected accepts place) := by
  unfold matchToken
  cases htoken : input[place]? with
  | none =>
      have hnone : refusedToken input expected accepts place = ∅ := by
        ext r
        simp [refusedToken, htoken]
      exact hnone ▸ .pure []
  | some u =>
      dsimp only
      cases haccepts : accepts u.type with
      | true =>
          have hnone : refusedToken input expected accepts place = ∅ := by
            ext r
            simp [refusedToken, htoken, haccepts]
          exact hnone ▸ .pure _
      | false =>
          have hone : refusedToken input expected accepts place = {⟨place, expected⟩} := by
            ext r
            simp [refusedToken, htoken, haccepts]
          exact hone ▸ (Gathers.refuse place expected).map fun _ => []

theorem extend_gathers {r : Row} {refusals : Set Refusal} (h : Gathers I (next r.stop) refusals) :
    Gathers I (extend next r) refusals :=
  h.map (·.map r.then)

theorem round_gathers {r : Row} {refusals : Set Refusal} (h : Gathers I (next r.stop) refusals) :
    Gathers I (Search.round next r) refusals :=
  (extend_gathers h).map (List.filter fun n : Row => r.stop < n.stop)

theorem extendAll_gathers (refusals : Nat → Set Refusal) {rows : List Row}
    (hv : ∀ r ∈ rows, Ensures I (next r.stop) fun _ => True)
    (h : ∀ r ∈ rows, Gathers I (next r.stop) (refusals r.stop)) :
    Gathers I (extendAll next rows) (⋃ r ∈ rows, refusals r.stop) := by
  refine (Gathers.mapM (fun r hr => ?_) fun r hr => extend_gathers (h r hr)).map
    (distinct ·.flatten)
  exact (hv r hr).bind fun _ _ => .pure trivial

/-- A repetition meets what is refused in any number of rounds. -/
theorem repeat_gathers {body : ParseExpr} {greedy : Bool} {place : Nat} {roots : List Row}
    (hexact : ∀ p, place ≤ p →
      Ensures I (eval input inv body p) (ExactRows bodies input (fun _ => True) body p))
    (hfirsts : ∀ p, place ≤ p →
      Ensures I (eval input inv body p) (FirstsOf Rope.toList (ways bodies input body p)))
    (hgathers : ∀ p, place ≤ p →
      Gathers I (eval input inv body p) (refused bodies input (.ways body p)))
    (hroots : ∀ r ∈ roots, place ≤ r.stop) :
    Gathers I (visitAll (Search.round (eval input inv body)) greedy (input.size + 1) roots)
      (⋃ r ∈ roots, refused bodies input (.rounds body greedy r.stop)) :=
  visitAll_gathers (fun p => refused bodies input (.ways body p))
    (fun w => refused bodies input (.rounds body greedy w.stop)) (rounds_unfolds body greedy)
    (fun r hr => round_leading hr (hexact r.stop hr) (hfirsts r.stop hr))
    (fun r hr => round_gathers (hgathers r.stop hr)) (fun _ _ => refused_rounds) hroots

/-! ## Expressions -/

/-- Behind its first item a row goes on at a later place, or the item can be empty. -/
theorem Reports.rest {e : ParseExpr} {es : List ParseExpr} {place : Nat} {mid : List Row}
    (h : Reports bodies input I inv (.row (e :: es)) place)
    (hmid : ∀ m ∈ mid, place ≤ m.stop ∧ (place = m.stop → Nullable bodies e)) :
    ∃ place', Reports bodies input I inv (.row es) place' ∧ ∀ m ∈ mid, place' ≤ m.stop := by
  by_cases hnull : Nullable bodies e
  · exact ⟨place, h.of_le (Nat.le_refl _) fun _ => .tail hnull, fun m hm => (hmid m hm).1⟩
  · refine ⟨place + 1, h.later (Nat.lt_succ_self _), fun m hm => ?_⟩
    exact Nat.lt_of_le_of_ne (hmid m hm).1 fun hstop => hnull ((hmid m hm).2 hstop)

/-- The rows behind the first item of a row. -/
theorem item_rows (hI : ∀ s place expected, I s → I (s.refuse place expected)) {e : ParseExpr}
    {place : Nat} {rows : List Row} (hplace : ∀ r ∈ rows, place ≤ r.stop)
    (h : ∀ r ∈ rows, Answers bodies (Preferred bodies input) I inv (.expr e) r.stop) :
    Ensures I (extendAll (eval input inv e) rows) fun mid =>
      (∀ m ∈ mid, place ≤ m.stop ∧ (place = m.stop → Nullable bodies e)) ∧
        FirstsOf Rope.toList (spread (onward (ways bodies input e)) (rows.map way)) mid := by
  refine ((extendAll_continues fun r hr => eval_exact hI (fun _ => trivial) e r.stop
    (h r hr).exact).and (extendAll_firsts fun r hr => eval_firsts hI e r.stop (h r hr))).mono ?_
  intro mid ⟨hmid, hfirsts⟩
  exact ⟨hmid.behind hplace, hfirsts⟩

/-- Behind the rows of an item everything is refused that is refused behind its ways. -/
theorem refused_rest {e : ParseExpr} {rows mid : List Row}
    (h : FirstsOf Rope.toList (spread (onward (ways bodies input e)) (rows.map way)) mid)
    (refusals : Nat → Set Refusal) :
    (⋃ m ∈ mid, refusals m.stop) =
      ⋃ r ∈ rows, refusedBehind (ways bodies input e r.stop) refusals := by
  obtain ⟨all, hall, -⟩ := id h
  rw [← refusedBehind_firsts h, refusedBehind_spread hall]
  simp only [refusedBehind_onward]
  ext r
  simp

mutual
/-- The cases are those of expressions, as for the places that are reached. -/
theorem eval_gathers (hI : ∀ s place expected, I s → I (s.refuse place expected)) :
    ∀ (e : ParseExpr) (place : Nat), Reports bodies input I inv (.expr e) place →
      Gathers I (eval input inv e place) (refused bodies input (.ways e place))
  | .empty, place, _ => by
      rw [eval, refused_empty]
      exact .pure _
  | .token t, place, _ => by
      rw [eval, refused_token]
      exact matchToken_gathers
  | .notTokens ts, place, _ => by
      rw [eval, refused_notTokens]
      exact matchToken_gathers
  | .anyToken, place, _ => by
      rw [eval, refused_anyToken]
      exact matchToken_gathers
  | .rule index precedence, place, h => by
      rw [eval, refused_rule]
      exact (h.gathers ⟨index, precedence, place⟩ (.inr ⟨rfl, .call index precedence⟩)).map
        (·.map fun b => Row.single b.stop b.value)
  | .seq items, place, h => by
      rw [eval, refused_seq]
      have hrow := evalSeq_gathers hI items [Row.empty place] place
        (h.of_le (Nat.le_refl _) fun _ => .seq) (by simp)
      simpa using hrow
  | .choice alternatives, place, h => by
      rw [eval, refused_choice]
      exact (evalChoice_gathers hI alternatives place fun e he =>
        h.of_le (Nat.le_refl _) fun _ => .choice he).map distinct
  | .optional body greedy, place, h => by
      rw [eval, refused_optional]
      exact (eval_gathers hI body place (h.of_le (Nat.le_refl _) fun _ => .optional greedy)).map
        fun found => distinct
          ((if greedy then found else Row.empty place :: found) ++ [Row.empty place])
  | .star body greedy, place, h => by
      have hbody : ∀ p, place ≤ p → Reports bodies input I inv (.expr body) p :=
        fun p hp => h.of_le hp fun _ => .star greedy
      rw [eval, refused_star]
      have hrounds : Gathers I
          (visitAll (Search.round (eval input inv body)) greedy (input.size + 1) [Row.empty place])
          (⋃ r ∈ [Row.empty place], refused bodies input (.rounds body greedy r.stop)) :=
        repeat_gathers
          (fun p hp => eval_exact hI (fun _ => trivial) body p (hbody p hp).answers.exact)
          (fun p hp => eval_firsts hI body p (hbody p hp).answers)
          (fun p hp => eval_gathers hI body p (hbody p hp)) (by simp)
      simpa using hrounds
  | .plus body greedy, place, h => by
      have hbody : ∀ p, place ≤ p → Reports bodies input I inv (.expr body) p :=
        fun p hp => h.of_le hp fun _ => .plus greedy
      have hexact : ∀ p, place ≤ p →
          Ensures I (eval input inv body p) (ExactRows bodies input (fun _ => True) body p) :=
        fun p hp => eval_exact hI (fun _ => trivial) body p (hbody p hp).answers.exact
      have hfirsts : ∀ p, place ≤ p →
          Ensures I (eval input inv body p) (FirstsOf Rope.toList (ways bodies input body p)) :=
        fun p hp => eval_firsts hI body p (hbody p hp).answers
      have hgathers : ∀ p, place ≤ p →
          Gathers I (eval input inv body p) (refused bodies input (.ways body p)) :=
        fun p hp => eval_gathers hI body p (hbody p hp)
      rw [eval, refused_plus]
      refine (hgathers place (Nat.le_refl _)).bind
        ((hexact place (Nat.le_refl _)).and (hfirsts place (Nat.le_refl _))) ?_
      intro first ⟨hfirst, hfirsts'⟩
      rw [refusedBehind_firsts hfirsts']
      exact repeat_gathers hexact hfirsts hgathers fun r hr => (hfirst.sound r hr).1.le

theorem evalSeq_gathers (hI : ∀ s place expected, I s → I (s.refuse place expected)) :
    ∀ (items : List ParseExpr) (rows : List Row) (place : Nat),
      Reports bodies input I inv (.row items) place → (∀ r ∈ rows, place ≤ r.stop) →
      Gathers I (evalSeq input inv items rows)
        (⋃ r ∈ rows, refused bodies input (.rowWays items r.stop))
  | [], rows, place, _, _ => by
      simp only [evalSeq, refused_rowWays_nil, Set.iUnion_empty]
      exact .pure rows
  | e :: rest, rows, place, h, hplace => by
      have hitem : ∀ r ∈ rows, Reports bodies input I inv (.expr e) r.stop :=
        fun r hr => h.of_le (hplace r hr) fun _ => .head rest
      simp only [evalSeq, refused_rowWays_cons, Set.iUnion_union_distrib]
      refine (extendAll_gathers (fun p => refused bodies input (.ways e p))
        (fun r hr => (eval_firsts hI e r.stop (hitem r hr).answers).mono fun _ _ => trivial)
        fun r hr => eval_gathers hI e r.stop (hitem r hr)).bind
        (item_rows hI hplace fun r hr => (hitem r hr).answers) fun mid hmid => ?_
      obtain ⟨place', hrest, hmid_le⟩ := h.rest hmid.1
      rw [← refused_rest hmid.2]
      exact evalSeq_gathers hI rest mid place' hrest hmid_le

theorem evalChoice_gathers (hI : ∀ s place expected, I s → I (s.refuse place expected)) :
    ∀ (es : List ParseExpr) (place : Nat),
      (∀ e ∈ es, Reports bodies input I inv (.expr e) place) →
      Gathers I (evalChoice input inv es place) (⋃ e ∈ es, refused bodies input (.ways e place))
  | [], place, _ => by
      simp only [evalChoice, List.not_mem_nil, Set.iUnion_of_empty, Set.iUnion_empty]
      exact .pure []
  | e :: rest, place, h => by
      have he : Reports bodies input I inv (.expr e) place := h e List.mem_cons_self
      simp only [evalChoice, List.mem_cons, Set.iUnion_iUnion_eq_or_left]
      refine (eval_gathers hI e place he).bind (eval_firsts hI e place he.answers) fun first _ => ?_
      exact (evalChoice_gathers hI rest place fun e' he => h e' (List.mem_cons_of_mem e he)).map
        (first ++ ·)
end

/-! ## Bodies -/

variable {i : Invocation} {primary : ParseExpr} {suffixes : List Suffix}

/-- What a match meets by growing with one suffix. -/
def refusedSuffixes (bodies : Array RuleBody) (input : Array Token) (i : Invocation)
    (suffixes : List Suffix) (place : Nat) : Set Refusal :=
  ⋃ s ∈ suffixes.filter fun s => i.precedence ≤ s.precedence,
    refused bodies input (.ways s.body place)

theorem growth_gathers {b : Branch Derivation}
    (hv : ∀ s ∈ suffixes, Ensures I (eval input inv s.body b.stop) fun _ => True)
    (h : ∀ s ∈ suffixes, Gathers I (eval input inv s.body b.stop)
      (refused bodies input (.ways s.body b.stop))) :
    Gathers I (growth input inv i suffixes b) (refusedSuffixes bodies input i suffixes b.stop) := by
  refine (Gathers.mapM (fun s hs => ?_) fun s hs => ?_).map List.flatten
  · exact (((hv s (List.mem_filter.mp hs).1).answers _).answers _).answers _
  · exact (round_gathers (r := operandRow b) (h s (List.mem_filter.mp hs).1)).map
      (·.map (derivation i (some s.precedence)))

/-- Growing from some matches meets what plain backtracking refuses when it grows from each. -/
theorem growths_gathers (hI : ∀ s place expected, I s → I (s.refuse place expected))
    (hv : ∀ k, Calls bodies i k → Ensures I (inv k) (Preferred bodies input k))
    (h : ∀ k, Calls bodies i k → Gathers I (inv k) (refused bodies input (.enumerate k)))
    (hbody : bodies[i.rule.toNat]? = some (.leftRecursive primary suffixes))
    {roots : List (Branch Derivation)} (hroots : ∀ b ∈ roots, IsMatch bodies input i b) :
    Gathers I (visitAll (growth input inv i suffixes) true (input.size + 1) roots)
      (⋃ b ∈ roots, refused bodies input (.growths i suffixes b)) := by
  have hsuffix : ∀ b, IsMatch bodies input i b → ∀ s ∈ suffixes,
      Reports bodies input I inv (.expr s.body) b.stop := fun b hb s hs =>
    ⟨answers_suffix hv hbody hs hb, fun k hk => h k (calls_suffix hbody hs hb hk)⟩
  refine visitAll_gathers (f := id) (refusedSuffixes bodies input i suffixes)
    (fun b => refused bodies input (.growths i suffixes b)) (growths_unfolds i suffixes)
    (fun b => growth_leading hI hv hbody)
    (fun b hb => growth_gathers (fun s hs => ?_) fun s hs => ?_)
    (fun _ _ hfollowing => refused_growths hfollowing) hroots
  · exact (eval_firsts hI s.body b.stop (hsuffix b hb s hs).answers).mono fun _ _ => trivial
  · exact eval_gathers hI s.body b.stop (hsuffix b hb s hs)

/-- The body of a rule meets what plain backtracking refuses on the way to the matches. -/
theorem matchBody_gathers (hI : ∀ s place expected, I s → I (s.refuse place expected))
    (hv : ∀ k, Calls bodies i k → Ensures I (inv k) (Preferred bodies input k))
    (h : ∀ k, Calls bodies i k → Gathers I (inv k) (refused bodies input (.enumerate k)))
    {body : RuleBody} (hbody : bodies[i.rule.toNat]? = some body) :
    Gathers I (matchBody input inv i body) (refused bodies input (.enumerate i)) := by
  cases body with
  | plain body =>
      have hreports : Reports bodies input I inv (.expr body) i.start :=
        ⟨answers_plain hv hbody, fun k hk => h k (hk.imp id fun hk => ⟨hk.1, .plain hbody hk.2⟩)⟩
      rw [refused_plain hbody]
      exact (eval_gathers hI body i.start hreports).map (·.map (derivation i none))
  | leftRecursive primary suffixes =>
      have hreports : Reports bodies input I inv (.expr primary) i.start :=
        ⟨answers_primary hv hbody,
          fun k hk => h k (hk.imp id fun hk => ⟨hk.1, .primary hbody hk.2⟩)⟩
      rw [refused_leftRecursive hbody]
      refine (eval_gathers hI primary i.start hreports).bind
        ((eval_exact hI (fun _ => trivial) primary i.start hreports.answers.exact).and
          (eval_firsts hI primary i.start hreports.answers)) ?_
      intro rows ⟨hexact, hfirsts⟩
      have hroots : ∀ b ∈ rows.map (derivation i none), IsMatch bodies input i b := by
        intro b hb
        obtain ⟨r, hr, rfl⟩ := List.mem_map.mp hb
        exact IsMatch.seed hbody (hexact.sound r hr).1
      have hseeds : (⋃ r ∈ rows, refused bodies input (.growths i suffixes ⟨r.stop, default⟩)) =
          ⋃ b ∈ rows.map (derivation i none), refused bodies input (.growths i suffixes b) := by
        have hstop : ∀ r : Row, refused bodies input (.growths i suffixes ⟨r.stop, default⟩) =
            refused bodies input (.growths i suffixes (derivation i none r)) :=
          fun r => refused_growths_congr rfl
        simp only [hstop, List.mem_map, Set.iUnion_exists, Set.biUnion_and',
          Set.iUnion_iUnion_eq_right]
      rw [refusedBehind_firsts hfirsts, hseeds]
      exact growths_gathers hI hv h hbody hroots

/-! ## Invocations -/

/-- What is remembered of a run: preferred matches of invocations of which everything that is
refused on the way to them has been noted, those under way left out. -/
structure Kept (bodies : Array RuleBody) (input : Array Token) (active : List Invocation)
    (s : SearchState) : Prop where
  recalls : Recalls (Preferred bodies input) active s
  noted : ∀ k known, s.memo[k]? = some known → k ∉ active →
    ∀ r ∈ refused bodies input (.enumerate k), s.Notes r
  sorted : s.expected.Pairwise (· < ·)

variable {active : List Invocation}

theorem kept_empty : Kept bodies input [] {} := by
  refine ⟨recalls_empty, fun k known h => ?_, .nil⟩
  simp at h

theorem Kept.refuse {s : SearchState} (h : Kept bodies input active s) (place : Nat)
    (expected : Option TokenType) : Kept bodies input active (s.refuse place expected) := by
  refine ⟨h.recalls.refuse place expected, fun k known hk hactive r hr => ?_,
    SearchState.sorted_refuse h.sorted⟩
  rw [memo_refuse] at hk
  exact (s.gathers_refuse place expected).kept r (h.noted k known hk hactive r hr)

theorem Kept.begin {s : SearchState} (h : Kept bodies input active s) (i : Invocation) :
    Kept bodies input (i :: active) (s.remember i []) := by
  refine ⟨h.recalls.begin i [], fun k known hk hactive => ?_, h.sorted⟩
  rw [List.mem_cons, not_or] at hactive
  rw [memo_remember, if_neg (Ne.symm hactive.1)] at hk
  exact h.noted k known hk hactive.2

/-- An invocation is remembered when all that is refused on the way to its matches is noted. -/
theorem Kept.finish {s : SearchState} {found : List (Branch Derivation)}
    (h : Kept bodies input (i :: active) s) (hfound : Preferred bodies input i found)
    (hnoted : ∀ r ∈ refused bodies input (.enumerate i), s.Notes r) :
    Kept bodies input active (s.remember i found) := by
  refine ⟨h.recalls.finish hfound, fun k known hk hactive => ?_, h.sorted⟩
  rw [memo_remember] at hk
  split at hk
  · next he => exact he ▸ hnoted
  · next hne => exact h.noted k known hk (by simp [Ne.symm hne, hactive])

/-- What is remembered has been noted, so it need not be tried again. -/
theorem memoized_gathers {find : Search (List (Branch Derivation))} (hi : i ∉ active)
    (hv : Ensures (Kept bodies input (i :: active)) find (Preferred bodies input i))
    (h : Gathers (Kept bodies input (i :: active)) find (refused bodies input (.enumerate i))) :
    Ensures (Kept bodies input active) (memoized i find) (Preferred bodies input i) ∧
      Gathers (Kept bodies input active) (memoized i find)
        (refused bodies input (.enumerate i)) := by
  have hrun : ∀ s, Kept bodies input active s → ∀ found s',
      (memoized i find).run s = .ok (found, s') →
      (Preferred bodies input i found ∧ Kept bodies input active s') ∧
        s.Gathers (refused bodies input (.enumerate i)) s' := by
    intro s hs found s' hrun
    cases hmemo : s.memo[i]? with
    | some known =>
        rw [run_memoized_of_some hmemo] at hrun
        cases hrun
        exact ⟨⟨hs.recalls i _ hmemo hi, hs⟩, .of_noted (hs.noted i _ hmemo hi)⟩
    | none =>
        rw [run_memoized_of_none hmemo] at hrun
        obtain ⟨⟨found, s₁⟩, hfind, hrun⟩ := bind_eq_ok.mp hrun
        cases hrun
        obtain ⟨hfound, hs₁⟩ := hv _ (hs.begin i) found s₁ hfind
        have hgathers := h _ (hs.begin i) found s₁ hfind
        exact ⟨⟨hfound, hs₁.finish hfound hgathers.noted⟩, hgathers.remember⟩
  exact ⟨fun s hs found s' h => (hrun s hs found s' h).1,
    fun s hs found s' h => (hrun s hs found s' h).2⟩

/-- The induction is on the depth that is left, as for the matches. -/
theorem invoke_gathers (guarded : Guarded bodies) {depth : Nat} {i : Invocation}
    (hactive : ∀ a ∈ active, Precedes bodies a i) :
    Ensures (Kept bodies input active) (invoke bodies input depth i) (Preferred bodies input i) ∧
      Gathers (Kept bodies input active) (invoke bodies input depth i)
        (refused bodies input (.enumerate i)) := by
  induction depth generalizing i active with
  | zero =>
      exact memoized_gathers (fun h => guarded.not_precedes i (hactive i h)) .throw nofun
  | succ depth ih =>
      have hcalls : ∀ k, Calls bodies i k → ∀ a ∈ i :: active, Precedes bodies a k := by
        intro k hk a ha
        rcases List.mem_cons.mp ha with rfl | ha
        · exact hk.precedes
        · exact (hactive a ha).trans hk.precedes
      have hI : ∀ s place expected, Kept bodies input (i :: active) s →
          Kept bodies input (i :: active) (s.refuse place expected) :=
        fun s place expected h => h.refuse place expected
      refine memoized_gathers (fun h => guarded.not_precedes i (hactive i h)) ?_ ?_
      · cases hbody : bodies[i.rule.toNat]? with
        | none => exact .pure (preferred_hereditary.absent i hbody)
        | some body =>
            exact preferred_hereditary.body _ _ i body hI (fun k hk => (ih (hcalls k hk)).1) hbody
      · cases hbody : bodies[i.rule.toNat]? with
        | none =>
            rw [refused_absent hbody]
            exact .pure []
        | some body =>
            exact matchBody_gathers hI (fun k hk => (ih (hcalls k hk)).1)
              (fun k hk => (ih (hcalls k hk)).2) hbody

/-! ## Runs -/

/-- The furthest place of refusals and the types that were asked for there, in increasing order; the
first place if there are none. -/
structure Furthest (refusals : Set Refusal) (place : Nat) (expected : List TokenType) : Prop where
  reached : place = 0 ∨ ∃ r ∈ refusals, r.place = place
  furthest : ∀ r ∈ refusals, r.place ≤ place
  sorted : expected.Pairwise (· < ·)
  mem_iff : ∀ t, t ∈ expected ↔ ⟨place, some t⟩ ∈ refusals

theorem Furthest.unique {refusals : Set Refusal} {place place' : Nat}
    {expected expected' : List TokenType} (h : Furthest refusals place expected)
    (h' : Furthest refusals place' expected') : place = place' ∧ expected = expected' := by
  have hle : ∀ {i j : Nat} {ts us : List TokenType}, Furthest refusals i ts →
      Furthest refusals j us → i ≤ j := by
    intro i j ts us hi hj
    rcases hi.reached with rfl | ⟨r, hr, rfl⟩
    · exact Nat.zero_le j
    · exact hj.furthest r hr
  obtain rfl := Nat.le_antisymm (hle h h') (hle h' h)
  have hnodup : ∀ {ts : List TokenType}, ts.Pairwise (· < ·) → ts.Nodup :=
    fun hts => hts.imp Int32.ne_of_lt
  have hperm : expected.Perm expected' :=
    (List.perm_ext_iff_of_nodup (hnodup h.sorted) (hnodup h'.sorted)).mpr fun t =>
      (h.mem_iff t).trans (h'.mem_iff t).symm
  refine ⟨rfl, hperm.eq_of_pairwise (fun t u _ _ htu hut => ?_) h.sorted h'.sorted⟩
  exact absurd (Int32.lt_trans htu hut) Int32.lt_irrefl

/-- What has been gathered since the start is told by the furthest place and what is expected. -/
theorem furthest_of_gathers {refusals : Set Refusal} {s : SearchState}
    (h : ({} : SearchState).Gathers refusals s) (hsorted : s.expected.Pairwise (· < ·)) :
    Furthest refusals s.furthest s.expected where
  reached := h.furthest
  furthest r hr := (h.noted r hr).elim Nat.le_of_lt fun hr => Nat.le_of_eq hr.1
  sorted := hsorted
  mem_iff t := by
    constructor
    · intro ht
      rcases h.expected t ht with ⟨-, ht⟩ | ht
      · cases ht
      · exact ht
    · intro ht
      rcases h.noted _ ht with hlt | ⟨-, ht⟩
      · exact absurd hlt (Nat.lt_irrefl _)
      · exact ht t rfl

/-- A run that ends has preferred matches and tells the furthest refusals of plain backtracking. -/
theorem search_furthest (guarded : Guarded bodies) {limit : Nat}
    {found : List (Branch Derivation)} {s : SearchState}
    (h : (invoke bodies input limit i).run {} = .ok (found, s)) :
    Preferred bodies input i found ∧
      Furthest (refused bodies input (.enumerate i)) s.furthest s.expected := by
  have hactive : ∀ a ∈ ([] : List Invocation), Precedes bodies a i := fun a ha => nomatch ha
  obtain ⟨hv, hgathers⟩ := invoke_gathers guarded hactive
  obtain ⟨hfound, hkept⟩ := hv {} kept_empty found s h
  exact ⟨hfound, furthest_of_gathers (hgathers {} kept_empty found s h) hkept.sorted⟩

/-- A fault that names the visible token at a place and the types that were asked for instead. -/
structure Blames (p : ParserProgram) (stream : TokenStream) (place : Nat)
    (expected : List TokenType) (fault : InputFault) : Prop where
  names : ∃ text,
    fault.cause = .unexpected text (expected.map p.names.vocabulary.displayName)
  token : stream.visible ≠ [] → ∃ t, stream.visible[place]? = some t ∧
    fault.position = t.position ∧
      fault.cause = .unexpected t.text (expected.map p.names.vocabulary.displayName)

theorem Blames.kind {p : ParserProgram} {stream : TokenStream} {place : Nat}
    {expected : List TokenType} {fault : InputFault} (h : Blames p stream place expected fault) :
    fault.kind = .noViableAlternative ↔ expected = [] := by
  obtain ⟨text, hcause⟩ := h.names
  rw [InputFault.kind_eq_noViableAlternative_iff, hcause]
  simp

/-- The place of a furthest refusal is one of a visible token, and so is the first place. -/
theorem searchFault_blames (p : ParserProgram) (stream : TokenStream) {q : Question}
    {s : SearchState}
    (h : Furthest (refused p.bodies stream.visible.toArray q) s.furthest s.expected) :
    Blames p stream s.furthest s.expected (p.searchFault stream.visible.toArray s) := by
  unfold ParserProgram.searchFault
  constructor
  · split <;> exact ⟨_, rfl⟩
  · intro hvisible
    have hlt : s.furthest < stream.visible.length := by
      rcases h.reached with h | ⟨r, hr, h⟩
      · exact h ▸ List.length_pos_iff.mpr hvisible
      · obtain ⟨u, hu⟩ := Refuses.exists_token hr
        exact h ▸ (List.getElem?_eq_some_iff.mp (List.getElem?_toArray ▸ hu)).1
    have hmin : min s.furthest (stream.visible.toArray.size - 1) = s.furthest := by
      rw [List.size_toArray]
      omega
    have htoken : stream.visible.toArray[s.furthest]? = some stream.visible[s.furthest] := by
      simp [hlt]
    rw [hmin, htoken]
    exact ⟨_, by simp [hlt], rfl, rfl⟩

/-- A parse without a tree ends with the fault that names the furthest token that plain backtracking
refuses, with all types that it asks for in the place of that token. -/
theorem failure_names_furthest (p : ParserProgram) (guarded : Guarded p.bodies) {rule : String}
    {stream : TokenStream} {maxDepth : Nat} {r : ParseResult}
    (hparse : p.parse rule stream maxDepth = .ok r) (hroot : r.root = none) :
    ∃ index place expected fault, p.ruleIndex? rule = some index ∧
      Enumerates p.bodies stream.visible.toArray ⟨UInt32.ofNat index, 0, 0⟩ [] ∧
      Furthest (refused p.bodies stream.visible.toArray
        (.enumerate ⟨UInt32.ofNat index, 0, 0⟩)) place expected ∧
      r.faults = stream.faults ++ [fault] ∧ Blames p stream place expected fault ∧
      (fault.kind = .noViableAlternative ↔ expected = []) := by
  unfold ParserProgram.parse at hparse
  cases hrule : p.ruleIndex? rule with
  | none =>
      rw [hrule] at hparse
      cases hparse
  | some index =>
      simp only [hrule] at hparse
      split at hparse
      · cases hparse
      · next s hrun =>
        cases hparse
        obtain ⟨hpreferred, hfurthest⟩ := search_furthest guarded hrun
        have hblames := searchFault_blames p stream hfurthest
        obtain ⟨all, hall, hfirsts⟩ := hpreferred.firstMatches
        have hnone : all = [] := by
          rw [← List.head?_eq_none_iff, ← head?_distinct, ← hfirsts]
          rfl
        exact ⟨index, _, _, _, rfl, hnone ▸ hall, hfurthest, rfl, hblames, hblames.kind⟩
      · cases hparse
        cases hroot

/-- Behind a bracket and a letter a sum goes on with a sign, or the bracket is closed. -/
theorem sums_failure :
    let stream : TokenStream := ⟨[letter 2 0, letter 1 1, letter 1 2], []⟩
    ∃ r fault, sums.parse "sum" stream 4 = .ok r ∧ r.root = none ∧
      Furthest (refused sums.bodies stream.visible.toArray (.enumerate ⟨0, 0, 0⟩)) 2 [3, 4] ∧
      r.faults = [fault] ∧ Blames sums stream 2 [3, 4] fault := by
  intro stream
  have hrule : sums.ruleIndex? "sum" = some 0 := by decide
  have hrun : ∃ s, (invoke sums.bodies stream.visible.toArray 4 ⟨0, 0, 0⟩).run {} = .ok ([], s) ∧
      s.furthest = 2 ∧ s.expected = [3, 4] := by
    simp [stream, sums, sumBody, letter, TokenStream.visible, Token.isVisible, invoke, memoized,
      get, getThe, MonadStateOf.get, StateT.get, StateT.run, bind, StateT.bind, Except.bind, pure,
      stateT_pure, Except.pure, modify, modifyGet, MonadStateOf.modifyGet, StateT.modifyGet,
      matchBody, eval, evalChoice, evalSeq, matchToken, SearchState.remember, SearchState.refuse,
      extend, extendAll, Branch.distinct, keepFirst, Row.single, Row.empty, Row.then, visitAll,
      visit, growth, Search.round, Sorted.insert]
  obtain ⟨s, hrun, hplace, hexpected⟩ := hrun
  have hfurthest := (search_furthest sums_guarded hrun).2
  rw [hplace, hexpected] at hfurthest
  rcases parse_cases sums stream 4 hrule with ⟨_, _, h, -⟩ | ⟨_, _, r, h, hparse, hroot⟩
  · cases hrun.symm.trans h
  · cases hrun.symm.trans h
    obtain ⟨index, place, expected, fault, hindex, -, hfurthest', hfaults, hblames, -⟩ :=
      failure_names_furthest sums sums_guarded hparse hroot
    obtain rfl := Option.some.inj (hrule.symm.trans hindex)
    obtain ⟨rfl, rfl⟩ := hfurthest.unique hfurthest'
    exact ⟨r, fault, hparse, hroot, hfurthest, hfaults, hblames⟩

end GrammarEngine.Parser

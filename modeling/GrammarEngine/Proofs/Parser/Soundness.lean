import GrammarEngine.Proofs.Parser.Growth

/-!
# Soundness of searches

Whatever a search finds is there: each of its branches is a derivation over the tokens up to the
place where it ends. Nothing is asked of the rules for it. A rule that reaches itself without
reading a token finds less than it derives, but what it finds is derived, because an invocation that
is under way is remembered to fail, and to find nothing is sound.
-/
namespace GrammarEngine.Parser

open Branch Search

variable {bodies : Array RuleBody} {input : Array Token} {I : SearchState → Prop} {inv : Invoker}
  {i : Invocation} {α : Type}

/-- Rows by which a phrase spans the input from a place on. -/
def SoundRows (bodies : Array RuleBody) (input : Array Token) (phrase : Phrase) (place : Nat)
    (rows : List Row) : Prop :=
  ∀ r ∈ rows, Spans bodies input phrase place r.stop r.value.toList

/-- Matches of an invocation. -/
def SoundMatches (bodies : Array RuleBody) (input : Array Token) (i : Invocation)
    (found : List (Branch Derivation)) : Prop :=
  ∀ b ∈ found, IsMatch bodies input i b

/-- A row that goes on from another by a phrase. -/
def Appends (bodies : Array RuleBody) (input : Array Token) (phrase : Phrase) (r n : Row) : Prop :=
  ∃ ds, n.value.toList = r.value.toList ++ ds ∧ Spans bodies input phrase r.stop n.stop ds

/-! ## Visits -/

/-- A visit keeps only branches of a kind that what follows a branch belongs to as well. The
induction is on the bound, which may be met. -/
theorem visit_keeps {P : Branch α → Prop} {next : Branch α → Search (List (Branch α))}
    {greedy : Bool} (hnext : ∀ b, P b → Ensures I (next b) fun found => ∀ d ∈ found, P d)
    {bound : Nat} {v : Visit α} {b : Branch α} (hv : ∀ d ∈ v.kept, P d) (hb : P b) :
    Ensures I (visit next greedy bound v b) fun w => ∀ d ∈ w.kept, P d := by
  induction bound generalizing v b with
  | zero => exact .pure hv
  | succ bound ih =>
      rw [visit_succ]
      split
      · exact .pure hv
      · refine (hnext b hb).bind fun following hfollowing => ?_
        have henter : ∀ d ∈ (v.enter greedy b).kept, P d := by
          intro d hd
          rcases Visit.mem_kept_enter.mp hd with ⟨-, rfl⟩ | hd
          · exact hb
          · exact hv d hd
        refine Ensures.bind (P := fun w : Visit α => ∀ d ∈ w.kept, P d)
          (Ensures.foldlM (fun _ (w : Visit α) => ∀ d ∈ w.kept, P d) henter ?_) ?_
        · intro front d back w hsplit hw
          exact ih hw (hfollowing d (by simp [hsplit]))
        · intro w hw
          refine .pure fun d hd => ?_
          rcases Visit.mem_kept_leave.mp hd with ⟨-, rfl⟩ | hd
          · exact hb
          · exact hw d hd

theorem visitAll_keeps {P : Branch α → Prop} {next : Branch α → Search (List (Branch α))}
    {greedy : Bool} {bound : Nat} {roots : List (Branch α)} (hroots : ∀ b ∈ roots, P b)
    (hnext : ∀ b, P b → Ensures I (next b) fun found => ∀ d ∈ found, P d) :
    Ensures I (visitAll next greedy bound roots) fun found => ∀ b ∈ found, P b := by
  refine Ensures.bind (P := fun v : Visit α => ∀ d ∈ v.kept, P d)
    (Ensures.foldlM (fun _ (v : Visit α) => ∀ d ∈ v.kept, P d) (by simp) ?_) ?_
  · intro front b back v hsplit hv
    exact visit_keeps hnext hv (hroots b (by simp [hsplit]))
  · intro v hv
    exact .pure fun b hb => hv b (List.mem_reverse.mp hb)

/-! ## Rows -/

theorem extend_sound {next : Nat → Search (List Row)} {phrase : Phrase} {r : Row}
    (h : Ensures I (next r.stop) (SoundRows bodies input phrase r.stop)) :
    Ensures I (extend next r) fun found => ∀ n ∈ found, Appends bodies input phrase r n := by
  refine h.bind fun rows hrows => .pure fun n hn => ?_
  obtain ⟨m, hm, rfl⟩ := List.mem_map.mp hn
  exact ⟨m.value.toList, toList_then r m, hrows m hm⟩

/-- A round goes on, and reads a token. -/
theorem round_sound {next : Nat → Search (List Row)} {phrase : Phrase} {r : Row}
    (h : Ensures I (next r.stop) (SoundRows bodies input phrase r.stop)) :
    Ensures I (Search.round next r) fun found =>
      ∀ n ∈ found, Appends bodies input phrase r n ∧ r.stop < n.stop := by
  refine (extend_sound h).bind fun found hfound => .pure fun n hn => ?_
  obtain ⟨hn, hlt⟩ := List.mem_filter.mp hn
  exact ⟨hfound n hn, by simpa using hlt⟩

theorem extendAll_sound {next : Nat → Search (List Row)} {phrase : Phrase} {rows : List Row}
    (h : ∀ place, Ensures I (next place) (SoundRows bodies input phrase place)) :
    Ensures I (extendAll next rows) fun found =>
      ∀ n ∈ found, ∃ r ∈ rows, Appends bodies input phrase r n := by
  refine (Ensures.mapM fun r _ => extend_sound (h r.stop)).bind fun found hfound =>
    .pure fun n hn => ?_
  obtain ⟨list, hlist, hn⟩ := List.mem_flatten.mp (mem_of_mem_distinct hn)
  obtain ⟨r, hr, happends⟩ := hfound.1 list hlist
  exact ⟨r, hr, happends n hn⟩

/-! ## Expressions -/

theorem matchToken_sound {e : ParseExpr} {place : Nat} {expected : Option TokenType}
    {accepts : TokenType → Bool} (hI : ∀ s place expected, I s → I (s.refuse place expected))
    (hspans : ∀ t, input[place]? = some t → accepts t.type = true →
      Spans bodies input (.expr e) place (place + 1) [.token place]) :
    Ensures I (matchToken input expected accepts place)
      (SoundRows bodies input (.expr e) place) := by
  unfold matchToken
  split
  · exact .pure fun r hr => absurd hr List.not_mem_nil
  · next t ht =>
    split
    · next haccepts =>
      refine .pure fun r hr => ?_
      obtain rfl := List.mem_singleton.mp hr
      exact hspans t ht haccepts
    · refine Ensures.bind (Ensures.modify fun s hs => hI s place expected hs) fun _ _ => ?_
      exact .pure fun r hr => absurd hr List.not_mem_nil

mutual
/-- The cases are those of expressions. -/
theorem eval_sound (hI : ∀ s place expected, I s → I (s.refuse place expected))
    (hinv : ∀ k, Ensures I (inv k) (SoundMatches bodies input k)) :
    ∀ (e : ParseExpr) (place : Nat),
      Ensures I (eval input inv e place) (SoundRows bodies input (.expr e) place)
  | .empty, place => by
      rw [eval]
      refine .pure fun r hr => ?_
      obtain rfl := List.mem_singleton.mp hr
      exact .empty place
  | .token t, place => by
      rw [eval]
      exact matchToken_sound hI fun u hu haccepts =>
        spans_token_iff.mpr ⟨⟨u, hu, haccepts⟩, rfl, rfl⟩
  | .notTokens ts, place => by
      rw [eval]
      exact matchToken_sound hI fun u hu haccepts =>
        spans_notTokens_iff.mpr ⟨⟨u, hu, haccepts⟩, rfl, rfl⟩
  | .anyToken, place => by
      rw [eval]
      exact matchToken_sound hI fun u hu haccepts =>
        spans_anyToken_iff.mpr ⟨⟨u, hu, haccepts⟩, rfl, rfl⟩
  | .rule index precedence, place => by
      rw [eval]
      refine (hinv ⟨index, precedence, place⟩).bind fun found hfound => .pure fun r hr => ?_
      obtain ⟨b, hb, rfl⟩ := List.mem_map.mp hr
      exact .call (hfound b hb)
  | .seq items, place => by
      rw [eval]
      refine (evalSeq_sound hI hinv items [Row.empty place]).mono fun rows hrows n hn => ?_
      obtain ⟨r, hr, ds, hds, hspans⟩ := hrows n hn
      obtain rfl := List.mem_singleton.mp hr
      rw [hds]
      exact .seq hspans
  | .choice alternatives, place => by
      rw [eval]
      refine (evalChoice_sound hI hinv alternatives place).bind fun rows hrows =>
        .pure fun r hr => ?_
      obtain ⟨e, he, hspans⟩ := hrows r (mem_of_mem_distinct hr)
      exact .choice he hspans
  | .optional body greedy, place => by
      rw [eval]
      refine (eval_sound hI hinv body place).bind fun rows hrows => .pure fun r hr => ?_
      rcases mem_optional_iff.mp (mem_of_mem_distinct hr) with hr | rfl
      · exact .take greedy (hrows r hr)
      · exact .skip body greedy place
  | .star body greedy, place => by
      rw [eval]
      refine visitAll_keeps (fun r hr => ?_) fun r hr => ?_
      · obtain rfl := List.mem_singleton.mp hr
        exact .starNil body greedy place
      · refine (round_sound (eval_sound hI hinv body r.stop)).mono fun found hfound n hn => ?_
        obtain ⟨⟨ds, hds, hspans⟩, -⟩ := hfound n hn
        rw [hds]
        exact hr.starMore hspans
  | .plus body greedy, place => by
      rw [eval]
      refine (eval_sound hI hinv body place).bind fun first hfirst =>
        visitAll_keeps (fun r hr => .plusOne greedy (hfirst r hr)) fun r hr => ?_
      refine (round_sound (eval_sound hI hinv body r.stop)).mono fun found hfound n hn => ?_
      obtain ⟨⟨ds, hds, hspans⟩, -⟩ := hfound n hn
      rw [hds]
      exact hr.plusMore hspans

theorem evalSeq_sound (hI : ∀ s place expected, I s → I (s.refuse place expected))
    (hinv : ∀ k, Ensures I (inv k) (SoundMatches bodies input k)) :
    ∀ (items : List ParseExpr) (rows : List Row),
      Ensures I (evalSeq input inv items rows) fun next =>
        ∀ n ∈ next, ∃ r ∈ rows, Appends bodies input (.row items) r n
  | [], rows => by
      rw [evalSeq]
      exact .pure fun r hr => ⟨r, hr, [], (List.append_nil _).symm, .nil r.stop⟩
  | e :: rest, rows => by
      rw [evalSeq]
      refine (extendAll_sound (eval_sound hI hinv e)).bind fun mid hmid =>
        (evalSeq_sound hI hinv rest mid).mono fun next hnext n hn => ?_
      obtain ⟨m, hm, ds', hds', hspans'⟩ := hnext n hn
      obtain ⟨r, hr, ds, hds, hspans⟩ := hmid m hm
      exact ⟨r, hr, ds ++ ds', by rw [hds', hds, List.append_assoc], .cons hspans hspans'⟩

theorem evalChoice_sound (hI : ∀ s place expected, I s → I (s.refuse place expected))
    (hinv : ∀ k, Ensures I (inv k) (SoundMatches bodies input k)) :
    ∀ (es : List ParseExpr) (place : Nat),
      Ensures I (evalChoice input inv es place) fun rows =>
        ∀ r ∈ rows, ∃ e ∈ es, Spans bodies input (.expr e) place r.stop r.value.toList
  | [], place => by
      rw [evalChoice]
      exact .pure fun r hr => absurd hr List.not_mem_nil
  | e :: rest, place => by
      rw [evalChoice]
      refine (eval_sound hI hinv e place).bind fun first hfirst =>
        (evalChoice_sound hI hinv rest place).bind fun others hothers => .pure fun r hr => ?_
      rcases List.mem_append.mp hr with hr | hr
      · exact ⟨e, List.mem_cons_self, hfirst r hr⟩
      · obtain ⟨e', he, hspans⟩ := hothers r hr
        exact ⟨e', List.mem_cons_of_mem e he, hspans⟩
end

/-! ## Rules -/

/-- A match grows to matches. -/
theorem growth_sound {primary : ParseExpr} {suffixes : List Suffix} {b : Branch Derivation}
    (hbody : bodies[i.rule.toNat]? = some (.leftRecursive primary suffixes))
    (heval : ∀ e place, Ensures I (eval input inv e place) (SoundRows bodies input (.expr e) place))
    (hb : IsMatch bodies input i b) :
    Ensures I (growth input inv i suffixes b) (SoundMatches bodies input i) := by
  refine (Ensures.mapM (Q := fun _ found => SoundMatches bodies input i found) fun s hs => ?_).bind
    fun found hfound => .pure fun d hd => ?_
  · obtain ⟨hs, hle⟩ := List.mem_filter.mp hs
    refine (round_sound (heval s.body b.stop)).bind fun rows hrows => .pure fun d hd => ?_
    obtain ⟨n, hn, rfl⟩ := List.mem_map.mp hd
    obtain ⟨⟨ds, hds, hspans⟩, hlt⟩ := hrows n hn
    have hchildren : n.value.toList = b.value :: ds := by simpa [Row.single] using hds
    rw [IsMatch, value_derivation, hchildren]
    exact .suffix hbody hs (by simpa using hle) hlt hb hspans
  · obtain ⟨list, hlist, hd⟩ := List.mem_flatten.mp hd
    obtain ⟨s, -, hlist⟩ := hfound.1 list hlist
    exact hlist d hd

theorem matchBody_sound {body : RuleBody} (hbody : bodies[i.rule.toNat]? = some body)
    (hI : ∀ s place expected, I s → I (s.refuse place expected))
    (hinv : ∀ k, Ensures I (inv k) (SoundMatches bodies input k)) :
    Ensures I (matchBody input inv i body) (SoundMatches bodies input i) := by
  cases body with
  | plain e =>
      refine (eval_sound hI hinv e i.start).bind fun rows hrows => .pure fun d hd => ?_
      obtain ⟨r, hr, rfl⟩ := List.mem_map.mp hd
      exact .plain i.precedence hbody (hrows r hr)
  | leftRecursive primary suffixes =>
      refine (eval_sound hI hinv primary i.start).bind fun seeds hseeds =>
        visitAll_keeps (fun d hd => ?_) fun b hb => growth_sound hbody (eval_sound hI hinv) hb
      obtain ⟨r, hr, rfl⟩ := List.mem_map.mp hd
      exact IsMatch.seed hbody (hseeds r hr)

/-- Finding nothing is sound, so that an invocation under way may be remembered to fail. -/
theorem memoized_sound {find : Search (List (Branch Derivation))}
    (hfind : Ensures (Recalls (SoundMatches bodies input) []) find (SoundMatches bodies input i)) :
    Ensures (Recalls (SoundMatches bodies input) []) (memoized i find)
      (SoundMatches bodies input i) := by
  refine memoized_keeps (fun _ known hs hmemo => hs i known hmemo List.not_mem_nil) (fun s hs => ?_)
    hfind fun _ _ hs hfound => (hs.weaken i).finish hfound
  exact (hs.weaken i).finish fun b hb => absurd hb List.not_mem_nil

/-- The induction is on the depth that is left. -/
theorem invoke_sound (depth : Nat) (i : Invocation) :
    Ensures (Recalls (SoundMatches bodies input) []) (invoke bodies input depth i)
      (SoundMatches bodies input i) := by
  induction depth generalizing i with
  | zero => exact memoized_sound .throw
  | succ depth ih =>
      refine memoized_sound ?_
      split
      · exact .pure fun b hb => absurd hb List.not_mem_nil
      · next body hbody =>
        exact matchBody_sound hbody (fun s place expected h => h.refuse place expected) ih

/-- What a run finds are matches. -/
theorem soundMatches_of_run {depth : Nat} {found : List (Branch Derivation)} {s : SearchState}
    (h : (invoke bodies input depth i).run {} = .ok (found, s)) :
    SoundMatches bodies input i found :=
  (invoke_sound depth i {} recalls_empty found s h).1

end GrammarEngine.Parser

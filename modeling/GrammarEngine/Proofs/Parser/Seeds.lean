import GrammarEngine.Proofs.Checked
import GrammarEngine.Proofs.Parser.Recognition
import GrammarEngine.Proofs.Search.Visit

/-!
# Failure seeds

An invocation that is under way is remembered to fail, so a call of the same invocation made
meanwhile is answered by a failure that nothing has been tried for. The watched search is the search
in which such calls raise an alarm instead. With an alarm that answers with the failure it is the
search itself: calls that raise the alarm are those that would find the seed of an unfinished
invocation. If no rule can reach itself at the same place, the watched search is the search for any
alarm, so no such call is made.

Two searches are alike under an invariant if from every state with it they come to the same end, be
it an answer and a state or a fault, and the answer has a property and the invariant is kept. A
property of the answers is needed even where only the ends matter: what one search does next depends
on what another one has found.
-/
namespace GrammarEngine.Search

/-! ## Searches that behave alike -/

variable {α β : Type} {I : SearchState → Prop}

structure Alike (I : SearchState → Prop) (x y : Search α) (Q : α → Prop) : Prop where
  run_eq : ∀ s, I s → x.run s = y.run s
  ensures : Ensures I x Q

namespace Alike

theorem of_ensures {x : Search α} {Q : α → Prop} (h : Ensures I x Q) : Alike I x x Q :=
  ⟨fun _ _ => rfl, h⟩

theorem pure {a : α} {Q : α → Prop} (h : Q a) : Alike I (Pure.pure a) (Pure.pure a) Q :=
  of_ensures (.pure h)

theorem mono {x y : Search α} {P Q : α → Prop} (hx : Alike I x y P) (h : ∀ a, P a → Q a) :
    Alike I x y Q :=
  ⟨hx.run_eq, hx.ensures.mono h⟩

theorem bind {x y : Search α} {f g : α → Search β} {P : α → Prop} {Q : β → Prop}
    (hx : Alike I x y P) (hf : ∀ a, P a → Alike I (f a) (g a) Q) :
    Alike I (x >>= f) (y >>= g) Q := by
  refine ⟨fun s hs => ?_, hx.ensures.bind fun a ha => (hf a ha).ensures⟩
  rw [StateT.run_bind, StateT.run_bind, ← hx.run_eq s hs]
  cases hstep : x.run s with
  | error e => rfl
  | ok r =>
      obtain ⟨ha, hs'⟩ := hx.ensures s hs r.1 r.2 hstep
      exact (hf r.1 ha).run_eq r.2 hs'

theorem map {x y : Search α} {f : α → β} {P : α → Prop} {Q : β → Prop} (hx : Alike I x y P)
    (h : ∀ a, P a → Q (f a)) : Alike I (x >>= fun a => Pure.pure (f a))
      (y >>= fun a => Pure.pure (f a)) Q :=
  hx.bind fun a ha => pure (h a ha)

theorem mapM {f g : α → Search β} {items : List α} {Q : β → Prop}
    (h : ∀ a ∈ items, Alike I (f a) (g a) Q) :
    Alike I (items.mapM f) (items.mapM g) fun bs => ∀ b ∈ bs, Q b := by
  induction items with
  | nil =>
      rw [List.mapM_nil, List.mapM_nil]
      exact pure (by simp)
  | cons a rest ih =>
      rw [List.mapM_cons, List.mapM_cons]
      refine (h a List.mem_cons_self).bind fun b hb => ?_
      refine (ih fun c hc => h c (List.mem_cons_of_mem a hc)).map fun bs hbs => ?_
      exact List.forall_mem_cons.mpr ⟨hb, hbs⟩

theorem foldlM {f g : β → α → Search β} {items : List α} {init : β} {R : β → Prop}
    (hinit : R init) (h : ∀ a ∈ items, ∀ b, R b → Alike I (f b a) (g b a) R) :
    Alike I (items.foldlM f init) (items.foldlM g init) R := by
  induction items generalizing init with
  | nil => exact pure hinit
  | cons a rest ih =>
      rw [List.foldlM_cons, List.foldlM_cons]
      refine (h a List.mem_cons_self init hinit).bind fun b hb => ?_
      exact ih hb fun c hc => h c (List.mem_cons_of_mem a hc)

end Alike

/-! ### Visits -/

variable {next next' : Branch α → Search (List (Branch α))} {greedy : Bool}
variable {P : Branch α → Prop}

/-- Visits that go on alike from branches with a property, to such branches, are alike and keep such
branches. -/
theorem visit_alike (hnext : ∀ b, P b → Alike I (next b) (next' b) fun bs => ∀ d ∈ bs, P d)
    {bound : Nat} {v : Visit α} {b : Branch α} (hb : P b) (hv : ∀ d ∈ v.kept, P d) :
    Alike I (visit next greedy bound v b) (visit next' greedy bound v b)
      fun w => ∀ d ∈ w.kept, P d := by
  induction bound generalizing v b with
  | zero => exact .pure hv
  | succ bound ih =>
      rw [visit_succ, visit_succ]
      split
      · exact .pure hv
      · have hentered : ∀ d ∈ (v.enter greedy b).kept, P d := by
          intro d hd
          rcases Visit.mem_kept_enter.mp hd with ⟨-, rfl⟩ | hd
          · exact hb
          · exact hv d hd
        refine (hnext b hb).bind fun following hfollowing => ?_
        refine Alike.map (Alike.foldlM hentered fun d hd w hw => ih (hfollowing d hd) hw)
          fun left hleft d hd => ?_
        rcases Visit.mem_kept_leave.mp hd with ⟨-, rfl⟩ | hd
        · exact hb
        · exact hleft d hd

theorem visitAll_alike {bound : Nat} {roots : List (Branch α)} (hroots : ∀ b ∈ roots, P b)
    (hnext : ∀ b, P b → Alike I (next b) (next' b) fun bs => ∀ d ∈ bs, P d) :
    Alike I (visitAll next greedy bound roots) (visitAll next' greedy bound roots)
      fun bs => ∀ b ∈ bs, P b := by
  refine Alike.map (Alike.foldlM (fun d hd => absurd hd List.not_mem_nil)
    fun b hb v hv => visit_alike hnext (hroots b hb) hv) fun v hv b hb => ?_
  exact hv b (List.mem_reverse.mp hb)

end GrammarEngine.Search

/-! ## Watched searches -/
namespace GrammarEngine.Parser

open Branch Search

variable {α : Type} {bodies : Array RuleBody} {input : Array Token} {alarm : Invoker}

/-- The matches of an invocation, where a call of an invocation under way raises an alarm. -/
def invokeWatched (alarm : Invoker) (bodies : Array RuleBody) (input : Array Token) :
    Nat → List Invocation → Invoker
  | 0, active, i => if i ∈ active then alarm i else memoized i (throw ⟨i.rule⟩)
  | depth + 1, active, i =>
    if i ∈ active then alarm i
    else memoized i <|
      match bodies[i.rule.toNat]? with
      | none => pure []
      | some body => matchBody input (invokeWatched alarm bodies input depth (i :: active)) i body

/-- No call that is made on the way to the matches of an invocation is one of an invocation under
way: what would be done there does not matter. -/
def FindsNoSeed (bodies : Array RuleBody) (input : Array Token) (depth : Nat) (i : Invocation) :
    Prop :=
  ∀ alarm : Invoker, (invokeWatched alarm bodies input depth [] i).run {} =
    (invoke bodies input depth i).run {}

/-! ### Where calls are made -/

/-- Branches from a place that do not go back, and remain there only if a phrase can be empty. -/
def Onward (bodies : Array RuleBody) (phrase : Phrase) (place : Nat) (bs : List (Branch α)) :
    Prop :=
  ∀ b ∈ bs, place ≤ b.stop ∧ (b.stop = place → Derives bodies phrase [])

/-- Matches of an invocation that it can have, as far as places are concerned. -/
abbrev Matches (bodies : Array RuleBody) (i : Invocation) : List (Branch Derivation) → Prop :=
  Onward bodies (.rule i.rule i.precedence) i.start

theorem onward_nil (phrase : Phrase) (place : Nat) :
    Onward bodies phrase place ([] : List (Branch α)) :=
  fun _ hb => absurd hb List.not_mem_nil

theorem onward_of_lt {phrase : Phrase} {place : Nat} {bs : List (Branch α)}
    (h : ∀ b ∈ bs, place < b.stop) : Onward bodies phrase place bs :=
  fun b hb => ⟨Nat.le_of_lt (h b hb), fun he => absurd he (Nat.ne_of_gt (h b hb))⟩

theorem Onward.imp {phrase phrase' : Phrase} {place : Nat} {bs : List (Branch α)}
    (h : Onward bodies phrase place bs)
    (himp : Derives bodies phrase [] → Derives bodies phrase' []) :
    Onward bodies phrase' place bs :=
  fun b hb => ⟨(h b hb).1, fun he => himp ((h b hb).2 he)⟩

/-- An invocation that a phrase can make from a place on. -/
def Invokable (bodies : Array RuleBody) (phrase : Phrase) (place : Nat) (k : Invocation) : Prop :=
  place < k.start ∨ place = k.start ∧ Leads bodies phrase k.rule

theorem Invokable.later {phrase phrase' : Phrase} {place place' : Nat} {k : Invocation}
    (h : Invokable bodies phrase' place' k) (hlt : place < place') :
    Invokable bodies phrase place k := by
  rcases h with h | ⟨h, -⟩ <;> exact .inl (by omega)

theorem Invokable.of_le {phrase phrase' : Phrase} {place place' : Nat} {k : Invocation}
    (h : Invokable bodies phrase' place' k) (hle : place ≤ place')
    (hleads : ∀ r, Leads bodies phrase' r → Leads bodies phrase r) :
    Invokable bodies phrase place k := by
  rcases Nat.lt_or_eq_of_le hle with hlt | rfl
  · exact h.later hlt
  · exact h.imp id fun h => ⟨h.1, hleads k.rule h.2⟩

/-! ### Rows -/

variable {I : SearchState → Prop} {next next' : Nat → Search (List Row)}

theorem matchToken_onward (hI : ∀ s place expected, I s → I (s.refuse place expected))
    {expected : Option TokenType} {accepts : TokenType → Bool} {place : Nat} {phrase : Phrase} :
    Ensures I (matchToken input expected accepts place) (Onward bodies phrase place) := by
  unfold matchToken
  split
  · exact .pure (onward_nil phrase place)
  · split
    · refine .pure (onward_of_lt fun b hb => ?_)
      obtain rfl := List.mem_singleton.mp hb
      exact Nat.lt_succ_self place
    · exact Ensures.bind (Ensures.modify fun s hs => hI s place expected hs) fun _ _ =>
        .pure (onward_nil phrase place)

theorem extend_alike {phrase : Phrase} {r : Row}
    (h : Alike I (next r.stop) (next' r.stop) (Onward bodies phrase r.stop)) :
    Alike I (extend next r) (extend next' r) (Onward bodies phrase r.stop) := by
  refine h.map fun rows hrows n hn => ?_
  obtain ⟨m, hm, rfl⟩ := List.mem_map.mp hn
  exact hrows m hm

theorem round_alike {phrase : Phrase} {r : Row}
    (h : Alike I (next r.stop) (next' r.stop) (Onward bodies phrase r.stop)) :
    Alike I (Search.round next r) (Search.round next' r)
      fun rows => ∀ n ∈ rows, r.stop < n.stop := by
  refine (extend_alike h).map fun rows _ n hn => ?_
  simpa using (List.mem_filter.mp hn).2

theorem extendAll_alike {phrase : Phrase} {rows : List Row} {place : Nat}
    (hplace : ∀ r ∈ rows, place ≤ r.stop)
    (h : ∀ r ∈ rows, Alike I (next r.stop) (next' r.stop) (Onward bodies phrase r.stop)) :
    Alike I (extendAll next rows) (extendAll next' rows) (Onward bodies phrase place) := by
  refine Alike.map (Alike.mapM (Q := Onward bodies phrase place) fun r hr => ?_)
    fun found hfound n hn => ?_
  · refine (extend_alike (h r hr)).mono fun rows hrows n hn => ?_
    obtain ⟨hle, hnull⟩ := hrows n hn
    have hstart := hplace r hr
    exact ⟨Nat.le_trans hstart hle, fun he => hnull (by omega)⟩
  · obtain ⟨list, hlist, hn⟩ := List.mem_flatten.mp (mem_of_mem_distinct hn)
    exact hfound list hlist n hn

/-! ### Expressions -/

variable {inv inv' : Invoker}

mutual
/-- The cases are those of expressions; the parts of an expression lead to no more rules than it. -/
theorem eval_alike (hI : ∀ s place expected, I s → I (s.refuse place expected)) :
    ∀ (e : ParseExpr) (place : Nat),
      (∀ k, Invokable bodies (.expr e) place k → Alike I (inv k) (inv' k) (Matches bodies k)) →
      Alike I (eval input inv e place) (eval input inv' e place) (Onward bodies (.expr e) place)
  | .empty, place, _ => by
      rw [eval, eval]
      refine .pure fun b hb => ?_
      obtain rfl := List.mem_singleton.mp hb
      exact ⟨Nat.le_refl _, fun _ => .empty⟩
  | .token t, place, _ => by
      rw [eval, eval]
      exact .of_ensures (matchToken_onward hI)
  | .notTokens ts, place, _ => by
      rw [eval, eval]
      exact .of_ensures (matchToken_onward hI)
  | .anyToken, place, _ => by
      rw [eval, eval]
      exact .of_ensures (matchToken_onward hI)
  | .rule index precedence, place, h => by
      rw [eval, eval]
      refine (h ⟨index, precedence, place⟩ (.inr ⟨rfl, .call index precedence⟩)).map
        fun found hfound r hr => ?_
      obtain ⟨b, hb, rfl⟩ := List.mem_map.mp hr
      exact (hfound b hb).imp id fun hnull he => .call (hnull he)
  | .seq items, place, h => by
      rw [eval, eval]
      refine (evalSeq_alike hI items [Row.empty place] place (by simp) fun k hk =>
        h k (hk.of_le (Nat.le_refl _) fun _ => .seq)).mono fun rows hrows => hrows.imp .seq
  | .choice alternatives, place, h => by
      rw [eval, eval]
      refine (evalChoice_alike hI alternatives place fun e he k hk =>
        h k (hk.of_le (Nat.le_refl _) fun _ => .choice he)).map fun rows hrows r hr => ?_
      obtain ⟨hle, hnull⟩ := hrows r (mem_of_mem_distinct hr)
      refine ⟨hle, fun he => ?_⟩
      obtain ⟨e, hmem, hempty⟩ := hnull he
      exact .choice hmem hempty
  | .optional body greedy, place, h => by
      rw [eval, eval]
      refine (eval_alike hI body place fun k hk =>
        h k (hk.of_le (Nat.le_refl _) fun _ => .optional greedy)).map fun rows hrows r hr => ?_
      refine ⟨?_, fun _ => .skip body greedy⟩
      rcases mem_optional_iff.mp (mem_of_mem_distinct hr) with hr | rfl
      · exact (hrows r hr).1
      · exact Nat.le_refl place
  | .star body greedy, place, h => by
      rw [eval, eval]
      refine (visitAll_alike (P := fun r => place ≤ r.stop) (by simp) fun r hr => ?_).mono
        fun rows hrows r hr => ⟨hrows r hr, fun _ => .starNil body greedy⟩
      refine (round_alike (eval_alike hI body r.stop fun k hk =>
        h k (hk.of_le hr fun _ => .star greedy))).mono fun rows hrows n hn => ?_
      exact Nat.le_trans hr (Nat.le_of_lt (hrows n hn))
  | .plus body greedy, place, h => by
      rw [eval, eval]
      have hbody : ∀ p, place ≤ p → Alike I (eval input inv body p) (eval input inv' body p)
          (Onward bodies (.expr body) p) := fun p hp =>
        eval_alike hI body p fun k hk => h k (hk.of_le hp fun _ => .plus greedy)
      refine (hbody place (Nat.le_refl _)).bind fun first hfirst => ?_
      refine visitAll_alike (hfirst.imp (.plusOne greedy)) fun r hr => ?_
      refine (round_alike (hbody r.stop hr.1)).mono fun rows hrows n hn => ?_
      have hlt := Nat.lt_of_le_of_lt hr.1 (hrows n hn)
      exact ⟨Nat.le_of_lt hlt, fun he => absurd he (Nat.ne_of_gt hlt)⟩

theorem evalSeq_alike (hI : ∀ s place expected, I s → I (s.refuse place expected)) :
    ∀ (items : List ParseExpr) (rows : List Row) (place : Nat), (∀ r ∈ rows, place ≤ r.stop) →
      (∀ k, Invokable bodies (.row items) place k → Alike I (inv k) (inv' k) (Matches bodies k)) →
      Alike I (evalSeq input inv items rows) (evalSeq input inv' items rows)
        (Onward bodies (.row items) place)
  | [], rows, place, hplace, _ => by
      rw [evalSeq, evalSeq]
      exact .pure fun r hr => ⟨hplace r hr, fun _ => .nil⟩
  | e :: rest, rows, place, hplace, h => by
      rw [evalSeq, evalSeq]
      refine (extendAll_alike hplace fun r hr => eval_alike hI e r.stop fun k hk =>
        h k (hk.of_le (hplace r hr) fun _ => .head rest)).bind fun mid hmid => ?_
      by_cases hnull : Nullable bodies e
      · refine (evalSeq_alike hI rest mid place (fun m hm => (hmid m hm).1) fun k hk =>
          h k (hk.of_le (Nat.le_refl _) fun _ => .tail hnull)).mono fun next hnext => ?_
        exact hnext.imp fun hrest => .cons hnull hrest
      · refine (evalSeq_alike hI rest mid (place + 1) (fun m hm => ?_) fun k hk =>
          h k (hk.later (Nat.lt_succ_self _))).mono fun next hnext => ?_
        · obtain ⟨hle, hempty⟩ := hmid m hm
          exact Nat.lt_of_le_of_ne hle fun he => hnull (hempty he.symm)
        · exact onward_of_lt fun n hn => (hnext n hn).1

theorem evalChoice_alike (hI : ∀ s place expected, I s → I (s.refuse place expected)) :
    ∀ (es : List ParseExpr) (place : Nat),
      (∀ e ∈ es, ∀ k, Invokable bodies (.expr e) place k →
        Alike I (inv k) (inv' k) (Matches bodies k)) →
      Alike I (evalChoice input inv es place) (evalChoice input inv' es place) fun rows =>
        ∀ r ∈ rows, place ≤ r.stop ∧ (r.stop = place → ∃ e ∈ es, Nullable bodies e)
  | [], place, _ => by
      rw [evalChoice, evalChoice]
      exact .pure (by simp)
  | e :: rest, place, h => by
      rw [evalChoice, evalChoice]
      refine (eval_alike hI e place (h e List.mem_cons_self)).bind fun first hfirst => ?_
      refine (evalChoice_alike hI rest place fun e' he =>
        h e' (List.mem_cons_of_mem e he)).map fun others hothers => ?_
      refine List.forall_mem_append.mpr ⟨fun r hr => ?_, fun r hr => ?_⟩
      · exact (hfirst r hr).imp id fun hnull he => ⟨e, List.mem_cons_self, hnull he⟩
      · refine (hothers r hr).imp id fun hnull he => ?_
        obtain ⟨e', he', hempty⟩ := hnull he
        exact ⟨e', List.mem_cons_of_mem e he', hempty⟩
end

/-! ### Rules -/

variable {i : Invocation}

theorem growth_alike (hI : ∀ s place expected, I s → I (s.refuse place expected))
    {suffixes : List Suffix} {b : Branch Derivation}
    (h : ∀ s ∈ suffixes, ∀ k, Invokable bodies (.expr s.body) b.stop k →
      Alike I (inv k) (inv' k) (Matches bodies k)) :
    Alike I (growth input inv i suffixes b) (growth input inv' i suffixes b) fun found =>
      ∀ d ∈ found, b.stop < d.stop := by
  refine Alike.map (Alike.mapM (Q := fun found => ∀ d ∈ found, b.stop < d.stop) fun s hs => ?_)
    fun found hfound d hd => ?_
  · have hmem := (List.mem_filter.mp hs).1
    refine (round_alike (eval_alike hI s.body b.stop (h s hmem))).map fun rows hrows d hd => ?_
    obtain ⟨n, hn, rfl⟩ := List.mem_map.mp hd
    exact hrows n hn
  · obtain ⟨list, hlist, hd⟩ := List.mem_flatten.mp hd
    exact hfound list hlist d hd

theorem onward_derivations {e : ParseExpr} {rows : List Row} (suffix : Option UInt32)
    (h : Onward bodies (.expr e) i.start rows)
    (hrule : Nullable bodies e → Derives bodies (.rule i.rule i.precedence) []) :
    Matches bodies i (rows.map (derivation i suffix)) := by
  intro b hb
  obtain ⟨r, hr, rfl⟩ := List.mem_map.mp hb
  exact (h r hr).imp id fun hnull he => hrule (hnull he)

/-- A body makes only calls that its invocation can make. -/
theorem matchBody_alike (hI : ∀ s place expected, I s → I (s.refuse place expected))
    {body : RuleBody} (hbody : bodies[i.rule.toNat]? = some body)
    (h : ∀ k, Calls bodies i k → Alike I (inv k) (inv' k) (Matches bodies k)) :
    Alike I (matchBody input inv i body) (matchBody input inv' i body) (Matches bodies i) := by
  cases body with
  | plain body =>
      refine (eval_alike hI body i.start fun k hk => h k (hk.imp id fun hk =>
        ⟨hk.1, .plain hbody hk.2⟩)).map fun rows hrows => ?_
      exact onward_derivations none hrows fun hnull => .plain i.precedence hbody hnull
  | leftRecursive primary suffixes =>
      refine (eval_alike hI primary i.start fun k hk => h k (hk.imp id fun hk =>
        ⟨hk.1, .primary hbody hk.2⟩)).bind fun rows hrows => ?_
      refine (visitAll_alike (P := fun b => i.start ≤ b.stop ∧
        (b.stop = i.start → Nullable bodies primary)) (fun b hb => ?_) fun b hb => ?_).mono
        fun found hfound b hb => ?_
      · obtain ⟨r, hr, rfl⟩ := List.mem_map.mp hb
        exact hrows r hr
      · refine (growth_alike hI fun s hs k hk => h k ?_).mono fun found hfound d hd => ?_
        · rcases Nat.lt_or_eq_of_le hb.1 with hlt | he
          · rcases hk with hk | ⟨hk, -⟩ <;> exact .inl (by omega)
          · exact hk.imp (fun hk => by omega) fun hk =>
              ⟨he.trans hk.1, .suffix hbody (hb.2 he.symm) hs hk.2⟩
        · have hlt := Nat.lt_of_le_of_lt hb.1 (hfound d hd)
          exact ⟨Nat.le_of_lt hlt, fun he => absurd he (Nat.ne_of_gt hlt)⟩
      · exact (hfound b hb).imp id fun hnull he => .primary i.precedence hbody (hnull he)

/-! ### Invocations -/

/-- All that is remembered are matches, and invocations under way are remembered to fail. -/
structure Seeded (bodies : Array RuleBody) (active : List Invocation) (s : SearchState) :
    Prop where
  recalls : Recalls (Matches bodies) [] s
  seeds : ∀ a ∈ active, s.memo[a]? = some []

variable {active : List Invocation}

theorem memo_remember (s : SearchState) (i k : Invocation) (found : List (Branch Derivation)) :
    (s.remember i found).memo[k]? = if i = k then some found else s.memo[k]? := by
  simp [SearchState.remember, Std.HashMap.getElem?_insert]

theorem Recalls.remember {P : Invocation → List (Branch Derivation) → Prop} {s : SearchState}
    {found : List (Branch Derivation)} (h : Recalls P [] s) (hfound : P i found) :
    Recalls P [] (s.remember i found) := by
  intro k known hk _
  rw [memo_remember] at hk
  split at hk
  · next he =>
    subst he
    exact Option.some.inj hk ▸ hfound
  · exact h k known hk List.not_mem_nil

theorem Seeded.refuse {s : SearchState} (h : Seeded bodies active s) (place : Nat)
    (expected : Option TokenType) : Seeded bodies active (s.refuse place expected) where
  recalls := h.recalls.refuse place expected
  seeds := fun a ha => by rw [memo_refuse, h.seeds a ha]

theorem Seeded.begin {s : SearchState} (h : Seeded bodies active s) (i : Invocation) :
    Seeded bodies (i :: active) (s.remember i []) where
  recalls := h.recalls.remember (onward_nil _ _)
  seeds := fun a ha => by
    rw [memo_remember]
    split
    · rfl
    · next hne => exact h.seeds a ((List.mem_cons.mp ha).resolve_left (Ne.symm hne))

theorem Seeded.finish {s : SearchState} {found : List (Branch Derivation)}
    (h : Seeded bodies (i :: active) s) (hi : i ∉ active) (hfound : Matches bodies i found) :
    Seeded bodies active (s.remember i found) where
  recalls := h.recalls.remember hfound
  seeds := fun a ha => by
    have hne : i ≠ a := fun he => hi (he ▸ ha)
    rw [memo_remember, if_neg hne, h.seeds a (List.mem_cons_of_mem i ha)]

theorem memoized_alike {find find' : Search (List (Branch Derivation))} (hi : i ∉ active)
    (hfind : Alike (Seeded bodies (i :: active)) find find' (Matches bodies i)) :
    Alike (Seeded bodies active) (memoized i find) (memoized i find') (Matches bodies i) := by
  refine ⟨fun s hs => ?_, fun s hs found s' hrun => ?_⟩
  · cases hmemo : s.memo[i]? with
    | some known => rw [run_memoized_of_some hmemo, run_memoized_of_some hmemo]
    | none =>
        rw [run_memoized_of_none hmemo, run_memoized_of_none hmemo, hfind.run_eq _ (hs.begin i)]
  · cases hmemo : s.memo[i]? with
    | some known =>
        rw [run_memoized_of_some hmemo] at hrun
        cases hrun
        exact ⟨hs.recalls i found hmemo List.not_mem_nil, hs⟩
    | none =>
        rw [run_memoized_of_none hmemo] at hrun
        obtain ⟨r, hfound, hr⟩ := bind_eq_ok.mp hrun
        cases hr
        obtain ⟨hmatches, hs'⟩ := hfind.ensures _ (hs.begin i) r.1 r.2 hfound
        exact ⟨hmatches, hs'.finish hi hmatches⟩

/-- The induction is on the depth that is left; `R` holds of the invocations under way and the
one that is made. -/
theorem invokeWatched_alike {R : List Invocation → Invocation → Prop}
    (halarm : ∀ depth active i, R active i → i ∈ active →
      Alike (Seeded bodies active) (alarm i) (invoke bodies input depth i) (Matches bodies i))
    (hcalls : ∀ active i k, R active i → Calls bodies i k → R (i :: active) k)
    {depth : Nat} (h : R active i) :
    Alike (Seeded bodies active) (invokeWatched alarm bodies input depth active i)
      (invoke bodies input depth i) (Matches bodies i) := by
  induction depth generalizing active i with
  | zero =>
      rw [invokeWatched]
      split
      · next hi => exact halarm 0 active i h hi
      · next hi => exact memoized_alike hi (.of_ensures .throw)
  | succ depth ih =>
      rw [invokeWatched]
      split
      · next hi => exact halarm (depth + 1) active i h hi
      · next hi =>
        refine memoized_alike hi ?_
        cases hbody : bodies[i.rule.toNat]? with
        | none => exact .pure (onward_nil _ _)
        | some body =>
            exact matchBody_alike (fun s place expected hs => hs.refuse place expected) hbody
              fun k hk => ih (hcalls active i k h hk)

theorem seeded_empty : Seeded bodies [] {} :=
  ⟨recalls_empty, fun _ ha => absurd ha List.not_mem_nil⟩

/-- The alarm is raised where the search finds a failure seed. -/
theorem invokeWatched_seed (bodies : Array RuleBody) (input : Array Token) (depth : Nat)
    (i : Invocation) :
    (invokeWatched (fun _ => pure []) bodies input depth [] i).run {} =
      (invoke bodies input depth i).run {} := by
  refine (invokeWatched_alike (R := fun _ _ => True) (fun depth active k _ hk => ?_)
    (fun _ _ _ _ _ => trivial) trivial).run_eq {} seeded_empty
  refine ⟨fun s hs => ?_, .pure (onward_nil _ _)⟩
  cases depth <;> exact (run_memoized_of_some (hs.seeds k hk)).symm

/-- If no rule can reach itself at the same place, no call finds a failure seed. -/
theorem Guarded.findsNoSeed (h : Guarded bodies) (input : Array Token) (depth : Nat)
    (i : Invocation) : FindsNoSeed bodies input depth i := by
  intro alarm
  refine (invokeWatched_alike
    (R := fun active i => ∀ a ∈ active, Precedes bodies a i)
    (fun _ active k hk hmem => absurd (hk k hmem) (h.not_precedes k))
    (fun active i k hactive hcall a ha => ?_) (by simp)).run_eq {} seeded_empty
  rcases List.mem_cons.mp ha with rfl | ha
  · exact hcall.precedes
  · exact (hactive a ha).trans hcall.precedes

end GrammarEngine.Parser

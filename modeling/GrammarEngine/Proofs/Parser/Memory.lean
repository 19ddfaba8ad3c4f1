import GrammarEngine.Proofs.Checked
import GrammarEngine.Proofs.Parser.Language
import GrammarEngine.Proofs.Search.Visit
import Mathlib.Logic.Relation

/-!
# Remembered matches

While an invocation is under way it is remembered to fail. The memory is sound all the same if no
rule reaches itself without reading a token: whatever an invocation calls at its own place is then
none of the invocations that are under way. So a property of the matches of all invocations can be
shown for one body at a time, from the same property of the invocations that the body calls.
-/
namespace GrammarEngine.Parser

open Search

variable {bodies : Array RuleBody} {input : Array Token}

/-- The rules that a phrase can invoke at the place at which it starts: those in front, and those
behind parts that match nothing. -/
inductive Leads (bodies : Array RuleBody) : Phrase → UInt32 → Prop
  | call (index precedence : UInt32) : Leads bodies (.expr (.rule index precedence)) index
  | seq {es : List ParseExpr} {r : UInt32} :
      Leads bodies (.row es) r → Leads bodies (.expr (.seq es)) r
  | choice {e : ParseExpr} {es : List ParseExpr} {r : UInt32} :
      e ∈ es → Leads bodies (.expr e) r → Leads bodies (.expr (.choice es)) r
  | optional {e : ParseExpr} {r : UInt32} (greedy : Bool) :
      Leads bodies (.expr e) r → Leads bodies (.expr (.optional e greedy)) r
  | star {e : ParseExpr} {r : UInt32} (greedy : Bool) :
      Leads bodies (.expr e) r → Leads bodies (.expr (.star e greedy)) r
  | plus {e : ParseExpr} {r : UInt32} (greedy : Bool) :
      Leads bodies (.expr e) r → Leads bodies (.expr (.plus e greedy)) r
  | head {e : ParseExpr} {r : UInt32} (es : List ParseExpr) :
      Leads bodies (.expr e) r → Leads bodies (.row (e :: es)) r
  | tail {e : ParseExpr} {es : List ParseExpr} {r : UInt32} :
      Nullable bodies e → Leads bodies (.row es) r → Leads bodies (.row (e :: es)) r

/-- A rule can invoke another at its own place: by a plain body, by a primary, or by a suffix behind
a primary that matches nothing. -/
inductive Reaches (bodies : Array RuleBody) : UInt32 → UInt32 → Prop
  | plain {r r' : UInt32} {body : ParseExpr} :
      bodies[r.toNat]? = some (.plain body) → Leads bodies (.expr body) r' → Reaches bodies r r'
  | primary {r r' : UInt32} {primary : ParseExpr} {suffixes : List Suffix} :
      bodies[r.toNat]? = some (.leftRecursive primary suffixes) →
      Leads bodies (.expr primary) r' → Reaches bodies r r'
  | suffix {r r' : UInt32} {primary : ParseExpr} {suffixes : List Suffix} {s : Suffix} :
      bodies[r.toNat]? = some (.leftRecursive primary suffixes) → Nullable bodies primary →
      s ∈ suffixes → Leads bodies (.expr s.body) r' → Reaches bodies r r'

/-- No rule can reach itself at the same place. -/
def Guarded (bodies : Array RuleBody) : Prop :=
  ∀ r, ¬ Relation.TransGen (Reaches bodies) r r

/-- One invocation can call another: further on, or at its own place as far as its rule reaches. -/
def Calls (bodies : Array RuleBody) (i k : Invocation) : Prop :=
  i.start < k.start ∨ i.start = k.start ∧ Reaches bodies i.rule k.rule

/-- One invocation can be under way while another is made. -/
def Precedes (bodies : Array RuleBody) (i k : Invocation) : Prop :=
  i.start < k.start ∨ i.start = k.start ∧ Relation.TransGen (Reaches bodies) i.rule k.rule

theorem Calls.precedes {i k : Invocation} (h : Calls bodies i k) : Precedes bodies i k := by
  rcases h with h | ⟨h, hr⟩
  · exact .inl h
  · exact .inr ⟨h, .single hr⟩

theorem Precedes.trans {i k l : Invocation} (hik : Precedes bodies i k)
    (hkl : Precedes bodies k l) : Precedes bodies i l := by
  rcases hik with hik | ⟨hik, hr⟩
  · rcases hkl with hkl | ⟨hkl, -⟩ <;> exact .inl (by omega)
  · rcases hkl with hkl | ⟨hkl, hr'⟩
    · exact .inl (by omega)
    · exact .inr ⟨hik.trans hkl, hr.trans hr'⟩

theorem Guarded.not_precedes (h : Guarded bodies) (i : Invocation) : ¬ Precedes bodies i i := by
  rintro (hlt | ⟨-, hr⟩)
  · exact Nat.lt_irrefl _ hlt
  · exact h i.rule hr

/-! ## Rules in order -/

mutual
/-- The rules that an expression can invoke at its own place as far as its form shows. -/
def leading : ParseExpr → List UInt32
  | .rule index _ => [index]
  | .seq items => leadingRow items
  | .choice alternatives => leadingAny alternatives
  | .optional body _ => leading body
  | .star body _ => leading body
  | .plus body _ => leading body
  | _ => []

def leadingRow : List ParseExpr → List UInt32
  | [] => []
  | e :: rest => leading e ++ if skips (fun _ => true) e then leadingRow rest else []

def leadingAny : List ParseExpr → List UInt32
  | [] => []
  | e :: rest => leading e ++ leadingAny rest
end

def Phrase.leading : Phrase → List UInt32
  | .expr e => Parser.leading e
  | .row es => leadingRow es
  | .rule index _ => [index]

/-- The rules that the primary and the suffixes of a rule, or its body, can invoke first. -/
def leadingOf : RuleBody → List UInt32
  | .plain body => leading body
  | .leftRecursive primary suffixes =>
    leading primary ++ suffixes.flatMap fun s => leading s.body

theorem mem_leadingAny {es : List ParseExpr} {e : ParseExpr} {r : UInt32} (he : e ∈ es)
    (h : r ∈ leading e) : r ∈ leadingAny es := by
  induction es with
  | nil => exact absurd he List.not_mem_nil
  | cons first rest ih =>
      rw [leadingAny, List.mem_append]
      rcases List.mem_cons.mp he with rfl | he
      · exact .inl h
      · exact .inr (ih he)

theorem Leads.mem_leading {phrase : Phrase} {r : UInt32} (h : Leads bodies phrase r) :
    r ∈ phrase.leading := by
  induction h with
  | call => exact List.mem_singleton.mpr rfl
  | seq _ ih | optional _ _ ih | star _ _ ih | plus _ _ ih => exact ih
  | choice he _ ih => exact mem_leadingAny he ih
  | head _ _ ih => exact List.mem_append_left _ ih
  | tail hnull _ ih =>
      have hcovers : Covers bodies fun _ => true := ⟨fun _ _ => rfl, fun _ _ => rfl⟩
      have hskips : skips (fun _ => true) _ = true := hcovers.skips hnull rfl
      apply List.mem_append_right
      rw [if_pos hskips]
      exact ih

theorem Reaches.exists_body {r r' : UInt32} (h : Reaches bodies r r') :
    ∃ body, bodies[r.toNat]? = some body ∧ r' ∈ leadingOf body := by
  cases h with
  | plain h hleads => exact ⟨_, h, hleads.mem_leading⟩
  | primary h hleads => exact ⟨_, h, List.mem_append_left _ hleads.mem_leading⟩
  | suffix h _ hs hleads =>
      exact ⟨_, h, List.mem_append_right _ (List.mem_flatMap.mpr ⟨_, hs, hleads.mem_leading⟩)⟩

/-- Whether every rule invokes only later rules before it reads a token. -/
def inOrder (bodies : Array RuleBody) : Bool :=
  bodies.toList.zipIdx.all fun b => (leadingOf b.1).all fun r => b.2 < r.toNat

/-- Rules in order never come back to themselves. -/
theorem guarded_of_inOrder (h : inOrder bodies = true) : Guarded bodies := by
  have hstep : ∀ r r', Reaches bodies r r' → r.toNat < r'.toNat := by
    intro r r' hreaches
    obtain ⟨body, hbody, hleading⟩ := hreaches.exists_body
    have hmem : (body, r.toNat) ∈ bodies.toList.zipIdx := by
      rw [List.mem_zipIdx_iff_getElem?, Array.getElem?_toList]
      exact hbody
    exact of_decide_eq_true (List.all_eq_true.mp (List.all_eq_true.mp h _ hmem) r' hleading)
  have hpath : ∀ r r', Relation.TransGen (Reaches bodies) r r' → r.toNat < r'.toNat := by
    intro r r' hreaches
    induction hreaches with
    | single hreaches => exact hstep _ _ hreaches
    | tail _ hreaches ih => exact Nat.lt_trans ih (hstep _ _ hreaches)
  exact fun r hr => Nat.lt_irrefl _ (hpath r r hr)

/-! ## Invocations under way -/

/-- What is remembered has a property, invocations that are under way left out. -/
def Recalls (P : Invocation → List (Branch Derivation) → Prop) (active : List Invocation)
    (s : SearchState) : Prop :=
  ∀ i found, s.memo[i]? = some found → i ∉ active → P i found

variable {P : Invocation → List (Branch Derivation) → Prop} {active : List Invocation}

theorem recalls_empty : Recalls P [] {} := by
  intro i found h
  simp at h

@[simp] theorem memo_refuse (s : SearchState) (place : Nat) (expected : Option TokenType) :
    (s.refuse place expected).memo = s.memo := by
  cases expected with
  | none =>
      simp only [SearchState.refuse]
      split <;> rfl
  | some t =>
      simp only [SearchState.refuse]
      split <;> split <;> rfl

theorem Recalls.refuse {s : SearchState} (h : Recalls P active s) (place : Nat)
    (expected : Option TokenType) : Recalls P active (s.refuse place expected) := by
  intro i found hfound
  rw [memo_refuse] at hfound
  exact h i found hfound

theorem Recalls.begin {s : SearchState} (h : Recalls P active s) (i : Invocation)
    (found : List (Branch Derivation)) : Recalls P (i :: active) (s.remember i found) := by
  intro k found' hfound hk
  rw [List.mem_cons, not_or] at hk
  have hne : ¬ (i == k) = true := fun he => hk.1 (beq_iff_eq.mp he).symm
  rw [SearchState.remember, Std.HashMap.getElem?_insert, if_neg hne] at hfound
  exact h k found' hfound hk.2

theorem Recalls.weaken {s : SearchState} (h : Recalls P active s) (i : Invocation) :
    Recalls P (i :: active) s :=
  fun k found hfound hk => h k found hfound fun hmem => hk (List.mem_cons_of_mem i hmem)

theorem Recalls.finish {s : SearchState} {i : Invocation} {found : List (Branch Derivation)}
    (h : Recalls P (i :: active) s) (hfound : P i found) :
    Recalls P active (s.remember i found) := by
  intro k found' hk hactive
  rw [SearchState.remember, Std.HashMap.getElem?_insert] at hk
  split at hk
  · next he =>
    obtain rfl := beq_iff_eq.mp he
    obtain rfl := Option.some.inj hk
    exact hfound
  · next he =>
    refine h k found' hk fun hmem => ?_
    rcases List.mem_cons.mp hmem with rfl | hmem
    · exact he (beq_iff_eq.mpr rfl)
    · exact hactive hmem

theorem run_memoized_of_some {i : Invocation} {find : Search (List (Branch Derivation))}
    {s : SearchState} {known : List (Branch Derivation)} (h : s.memo[i]? = some known) :
    (memoized i find).run s = .ok (known, s) := by
  simp [memoized, h, get, getThe, MonadStateOf.get, StateT.get, StateT.run, bind, StateT.bind,
    Except.bind, pure, stateT_pure, Except.pure]

theorem run_memoized_of_none {i : Invocation} {find : Search (List (Branch Derivation))}
    {s : SearchState} (h : s.memo[i]? = none) :
    (memoized i find).run s =
      (find.run (s.remember i []) >>= fun r => .ok (r.1, r.2.remember i r.1)) := by
  simp [memoized, h, get, getThe, MonadStateOf.get, StateT.get, StateT.run, bind, StateT.bind,
    Except.bind, pure, stateT_pure, Except.pure, modify_apply]

/-- An invocation is answered from the memory or remembered when found. While it is under way
another invariant may hold. -/
theorem memoized_keeps {I J : SearchState → Prop} {Q : List (Branch Derivation) → Prop}
    {i : Invocation} {find : Search (List (Branch Derivation))}
    (hknown : ∀ s known, I s → s.memo[i]? = some known → Q known)
    (hbegin : ∀ s, I s → J (s.remember i [])) (hfind : Ensures J find Q)
    (hfinish : ∀ s found, J s → Q found → I (s.remember i found)) :
    Ensures I (memoized i find) Q := by
  intro s hs found s' hrun
  cases hmemo : s.memo[i]? with
  | some known =>
      rw [run_memoized_of_some hmemo] at hrun
      cases hrun
      exact ⟨hknown s _ hs hmemo, hs⟩
  | none =>
      rw [run_memoized_of_none hmemo] at hrun
      cases hfound : find.run (s.remember i []) with
      | error e =>
          rw [hfound] at hrun
          cases hrun
      | ok r =>
          rw [hfound] at hrun
          cases hrun
          obtain ⟨hq, hj⟩ := hfind _ (hbegin s hs) r.1 r.2 hfound
          exact ⟨hq, hfinish r.2 r.1 hj hq⟩

/-- An invocation that is not under way is answered with what is remembered or found. -/
theorem memoized_ensures {i : Invocation} {find : Search (List (Branch Derivation))}
    (hi : i ∉ active) (hfind : Ensures (Recalls P (i :: active)) find (P i)) :
    Ensures (Recalls P active) (memoized i find) (P i) :=
  memoized_keeps (fun _ known hs hmemo => hs i known hmemo hi) (fun _ hs => hs.begin i []) hfind
    fun _ _ hs hfound => hs.finish hfound

/-- A property that the matches of each body have if those of the invocations it calls do. -/
structure Hereditary (bodies : Array RuleBody) (input : Array Token)
    (P : Invocation → List (Branch Derivation) → Prop) : Prop where
  absent : ∀ i : Invocation, bodies[i.rule.toNat]? = none → P i []
  body : ∀ (I : SearchState → Prop) (inv : Invoker) (i : Invocation) (body : RuleBody),
    (∀ s place expected, I s → I (s.refuse place expected)) →
    (∀ k, Calls bodies i k → Ensures I (inv k) (P k)) →
    bodies[i.rule.toNat]? = some body → Ensures I (matchBody input inv i body) (P i)

/-- The induction is on the depth that is left; the invariant is that every invocation under way
precedes the one that is made. -/
theorem invoke_ensures (guarded : Guarded bodies) (hP : Hereditary bodies input P) {depth : Nat}
    {i : Invocation} (hactive : ∀ a ∈ active, Precedes bodies a i) :
    Ensures (Recalls P active) (invoke bodies input depth i) (P i) := by
  induction depth generalizing i active with
  | zero =>
      exact memoized_ensures (fun h => guarded.not_precedes i (hactive i h)) .throw
  | succ depth ih =>
      refine memoized_ensures (fun h => guarded.not_precedes i (hactive i h)) ?_
      cases hbody : bodies[i.rule.toNat]? with
      | none => exact .pure (hP.absent i hbody)
      | some body =>
          refine hP.body _ _ i body (fun s place expected h => h.refuse place expected) ?_ hbody
          intro k hk
          refine ih fun a ha => ?_
          rcases List.mem_cons.mp ha with rfl | ha
          · exact hk.precedes
          · exact (hactive a ha).trans hk.precedes

/-- A hereditary property holds of the matches that a run finds and of all that it remembers. -/
theorem of_run_invoke (guarded : Guarded bodies) (hP : Hereditary bodies input P) {depth : Nat}
    {i : Invocation} {found : List (Branch Derivation)} {s : SearchState}
    (h : (invoke bodies input depth i).run {} = .ok (found, s)) :
    P i found ∧ ∀ k known, s.memo[k]? = some known → P k known := by
  obtain ⟨hp, hs⟩ := invoke_ensures guarded hP (by simp) {} recalls_empty found s h
  exact ⟨hp, fun k known hk => hs k known hk (by simp)⟩

end GrammarEngine.Parser

import Mathlib.Data.List.Forall2
import Mathlib.Data.List.Nodup

/-!
# Checked computations

What is known of a computation that may be refused once it has given a value, and what is known of
the value if the computation also changes a state whose invariant it keeps.
-/
namespace GrammarEngine

variable {ε α β : Type}

theorem bind_eq_ok {x : Except ε α} {f : α → Except ε β} {b : β} :
    x >>= f = .ok b ↔ ∃ a, x = .ok a ∧ f a = .ok b := by
  cases x <;> simp [bind, Except.bind]

theorem map_eq_ok {x : Except ε α} {f : α → β} {b : β} :
    x.map f = .ok b ↔ ∃ a, x = .ok a ∧ f a = b := by
  cases x <;> simp [Except.map]

theorem mapError_eq_ok {δ : Type} {x : Except ε α} {f : ε → δ} {a : α} :
    x.mapError f = .ok a ↔ x = .ok a := by
  cases x <;> simp [Except.mapError]

/-- Computations that a map of their values makes the same are refused alike. -/
theorem map_eq_map_cases {x y : Except ε α} {f : α → β} (h : x.map f = y.map f) :
    (∃ e, x = .error e ∧ y = .error e) ∨ ∃ a b, x = .ok a ∧ y = .ok b ∧ f a = f b := by
  cases x with
  | error e =>
      cases y with
      | error e' => exact .inl ⟨e, rfl, congrArg Except.error (Except.error.inj h).symm⟩
      | ok b => cases h
  | ok a =>
      cases y with
      | error e' => cases h
      | ok b => exact .inr ⟨a, b, rfl, rfl, Except.ok.inj h⟩

theorem ite_throw_eq_ok {c : Prop} [Decidable c] {e : ε} {x : Except ε β} {b : β} :
    (if c then throw e else x) = .ok b ↔ ¬c ∧ x = .ok b := by
  by_cases hc : c <;> simp [hc, throw, throwThe, MonadExceptOf.throw]

theorem ite_throw_bind_eq_ok {c : Prop} [Decidable c] {e : ε} {f : α → Except ε β}
    {x : Except ε β} {b : β} :
    (if c then throw e >>= f else x) = .ok b ↔ ¬c ∧ x = .ok b :=
  ite_throw_eq_ok

/-! ## With a state -/

section State

variable {σ : Type}

theorem stateT_pure (a : α) (s : σ) : (StateT.pure a : StateT σ (Except ε) α) s = .ok (a, s) :=
  rfl

theorem stateT_set (s t : σ) : (StateT.set t : StateT σ (Except ε) PUnit) s = .ok (⟨⟩, t) :=
  rfl

theorem modify_apply (f : σ → σ) (s : σ) :
    (modify f : StateT σ (Except ε) PUnit) s = .ok (⟨⟩, f s) :=
  rfl

end State

/-! ## Lists -/

/-- A list of computations gives the list of what each of them gives. -/
theorem mapM_eq_ok {f : α → Except ε β} {xs : List α} {ys : List β} :
    xs.mapM f = .ok ys ↔ List.Forall₂ (fun x y => f x = .ok y) xs ys := by
  induction xs generalizing ys with
  | nil => cases ys <;> simp [pure, Except.pure]
  | cons x xs ih =>
      simp only [List.mapM_cons, bind_eq_ok, ih, List.forall₂_cons_left_iff, pure, Except.pure]
      constructor
      · intro ⟨y, hy, rest, hrest, hys⟩
        exact ⟨y, rest, hy, hrest, (Except.ok.inj hys).symm⟩
      · rintro ⟨y, rest, hy, hrest, rfl⟩
        exact ⟨y, hy, rest, hrest, rfl⟩

theorem exists_forall₂ {R : α → β → Prop} {xs : List α} (h : ∀ x ∈ xs, ∃ y, R x y) :
    ∃ ys, List.Forall₂ R xs ys := by
  induction xs with
  | nil => exact ⟨[], .nil⟩
  | cons x xs ih =>
      obtain ⟨y, hy⟩ := h x List.mem_cons_self
      obtain ⟨ys, hys⟩ := ih fun z hz => h z (List.mem_cons_of_mem x hz)
      exact ⟨y :: ys, .cons hy hys⟩

theorem exists_mapM_eq_ok {f : α → Except ε β} {xs : List α}
    (h : ∀ x ∈ xs, ∃ y, f x = .ok y) : ∃ ys, xs.mapM f = .ok ys := by
  obtain ⟨ys, hys⟩ := exists_forall₂ h
  exact ⟨ys, mapM_eq_ok.mpr hys⟩

theorem forM_eq_ok {f : α → Except ε Unit} {xs : List α} :
    xs.forM f = .ok () ↔ ∀ x ∈ xs, f x = .ok () := by
  induction xs with
  | nil => simp [pure, Except.pure]
  | cons x xs ih =>
      have hstep : (x :: xs).forM f = f x >>= fun _ => xs.forM f := rfl
      rw [hstep, bind_eq_ok, List.forall_mem_cons, ← ih]
      exact ⟨fun ⟨_, hx, hxs⟩ => ⟨hx, hxs⟩, fun ⟨hx, hxs⟩ => ⟨(), hx, hxs⟩⟩

theorem exists_of_mem_right {R : α → β → Prop} {xs : List α} {ys : List β}
    (h : List.Forall₂ R xs ys) {y : β} (hy : y ∈ ys) : ∃ x ∈ xs, R x y := by
  induction h with
  | nil => simp at hy
  | @cons x z xs ys hz _ ih =>
      rcases List.mem_cons.mp hy with rfl | hy
      · exact ⟨x, List.mem_cons_self, hz⟩
      · obtain ⟨w, hw, h⟩ := ih hy
        exact ⟨w, List.mem_cons_of_mem x hw, h⟩

/-- Where keys are distinct, an element is found by its key. -/
theorem find?_key_of_mem [BEq β] [LawfulBEq β] {key : α → β} {xs : List α}
    (hdistinct : (xs.map key).Nodup) {x : α} (hx : x ∈ xs) :
    xs.find? (fun y => key y == key x) = some x := by
  cases hfound : xs.find? (fun y => key y == key x) with
  | none => exact absurd (beq_self_eq_true (key x)) (List.find?_eq_none.mp hfound x hx)
  | some y =>
      have hkey : key y = key x := by simpa using List.find?_some hfound
      have hy := List.mem_of_find?_eq_some hfound
      rw [List.inj_on_of_nodup_map hdistinct hy hx hkey]

theorem find?_key_eq_none [BEq β] [LawfulBEq β] {key : α → β} {xs : List α} {k : β} :
    xs.find? (fun y => key y == k) = none ↔ k ∉ xs.map key := by
  simp [List.find?_eq_none]

/-- A part of a list by its places. -/
theorem filterMap_getElem?_range' (l : List α) (start count : Nat) :
    (List.range' start count).filterMap (l[·]?) = (l.drop start).take count := by
  induction count generalizing start with
  | zero => simp
  | succ count ih =>
      rw [List.range'_succ, List.filterMap_cons, ih]
      cases h : l[start]? with
      | none =>
          have hle := List.getElem?_eq_none_iff.mp h
          simp [List.drop_eq_nil_of_le hle, List.drop_eq_nil_of_le (Nat.le_succ_of_le hle)]
      | some a =>
          obtain ⟨hlt, rfl⟩ := List.getElem?_eq_some_iff.mp h
          rw [List.drop_eq_getElem_cons hlt, List.take_succ_cons]

/-- A walk that refuses keys that it has seen finds distinct ones. -/
theorem nodup_cons_of_fresh {key : α → β} {x : α} {xs : List α} {seen : List β}
    (hfresh : key x ∉ seen) (h : (xs.map key).Nodup ∧ ∀ y ∈ xs, key y ∉ key x :: seen) :
    ((x :: xs).map key).Nodup ∧ ∀ y ∈ x :: xs, key y ∉ seen := by
  obtain ⟨hdistinct, hnew⟩ := h
  refine ⟨List.nodup_cons.mpr ⟨fun hin => ?_, hdistinct⟩,
    List.forall_mem_cons.mpr ⟨hfresh, fun y hy hin => hnew y hy (List.mem_cons_of_mem _ hin)⟩⟩
  obtain ⟨y, hy, hkey⟩ := List.mem_map.mp hin
  exact hnew y hy (hkey ▸ List.mem_cons_self)

theorem forall₂_trans {γ : Type} {R : α → β → Prop} {S : β → γ → Prop} {T : α → γ → Prop}
    {xs : List α} {ys : List β} {zs : List γ} (hxy : List.Forall₂ R xs ys)
    (hyz : List.Forall₂ S ys zs) (h : ∀ x y z, R x y → S y z → T x z) : List.Forall₂ T xs zs := by
  induction hxy generalizing zs with
  | nil =>
      cases hyz
      exact .nil
  | cons hr _ ih =>
      cases hyz with
      | cons hs hrest => exact .cons (h _ _ _ hr hs) (ih hrest)

theorem forall₂_append_left {R : α → β → Prop} {xs xs' : List α} {ys : List β}
    (h : List.Forall₂ R (xs ++ xs') ys) :
    ∃ front back, ys = front ++ back ∧ List.Forall₂ R xs front ∧ List.Forall₂ R xs' back := by
  induction xs generalizing ys with
  | nil => exact ⟨[], ys, rfl, .nil, h⟩
  | cons x xs ih =>
      obtain ⟨y, rest, hy, hrest, rfl⟩ := List.forall₂_cons_left_iff.mp h
      obtain ⟨front, back, rfl, hfront, hback⟩ := ih hrest
      exact ⟨y :: front, back, rfl, .cons hy hfront, hback⟩

/-- A fold goes along with a map of its states that goes along with each step. -/
theorem map_foldlM {δ : Type} {f : β → α → Except ε β} {f' : δ → α → Except ε δ} {g : β → δ}
    (h : ∀ b x, f' (g b) x = (f b x).map g) (xs : List α) (b : β) :
    xs.foldlM f' (g b) = (xs.foldlM f b).map g := by
  induction xs generalizing b with
  | nil => rfl
  | cons x xs ih =>
      rw [List.foldlM_cons, List.foldlM_cons, h]
      cases f b x with
      | error e => rfl
      | ok c => exact ih c

/-- A fold keeps what each of its steps keeps. -/
theorem foldlM_invariant {f : β → α → Except ε β} {xs : List α} {init result : β} (P : β → Prop)
    (hinit : P init) (hstep : ∀ x ∈ xs, ∀ b b', P b → f b x = .ok b' → P b')
    (h : xs.foldlM f init = .ok result) : P result := by
  induction xs generalizing init with
  | nil =>
      obtain rfl := Except.ok.inj h
      exact hinit
  | cons x xs ih =>
      rw [List.foldlM_cons, bind_eq_ok] at h
      obtain ⟨b, hb, h⟩ := h
      exact ih (hstep x List.mem_cons_self init b hinit hb)
        (fun y hy => hstep y (List.mem_cons_of_mem x hy)) h

/-! ## Computations with a state -/

variable {σ : Type} {I : σ → Prop}

/-- From a state with the invariant, a value has the property and the invariant is kept. -/
def Yields (I : σ → Prop) (x : StateT σ (Except ε) α) (P : α → Prop) : Prop :=
  ∀ s, I s → ∀ a t, x s = .ok (a, t) → P a ∧ I t

namespace Yields

theorem pure {a : α} {P : α → Prop} (h : P a) :
    Yields I (Pure.pure a : StateT σ (Except ε) α) P := by
  intro s hs b t hrun
  obtain ⟨rfl, rfl⟩ : a = b ∧ s = t := Prod.mk.inj (Except.ok.inj hrun)
  exact ⟨h, hs⟩

theorem bind {x : StateT σ (Except ε) α} {f : α → StateT σ (Except ε) β} {P : α → Prop}
    {Q : β → Prop} (hx : Yields I x P) (hf : ∀ a, P a → Yields I (f a) Q) :
    Yields I (x >>= f) Q := by
  intro s hs b t hrun
  cases hstep : x s with
  | error fault => simp [Bind.bind, StateT.bind, hstep, Except.bind] at hrun
  | ok r =>
      obtain ⟨ha, hs'⟩ := hx s hs r.1 r.2 hstep
      refine hf r.1 ha r.2 hs' b t ?_
      simpa [Bind.bind, StateT.bind, hstep, Except.bind] using hrun

/-- Only values and states that can come out of the first computation reach the second one. -/
theorem bind_congr {x : StateT σ (Except ε) α} {f f' : α → StateT σ (Except ε) β} {P : α → Prop}
    (hx : Yields I x P) (h : ∀ a, P a → ∀ s, I s → f a s = f' a s) (s : σ) (hs : I s) :
    (x >>= f) s = (x >>= f') s := by
  cases hstep : x s with
  | error fault => simp [Bind.bind, StateT.bind, hstep, Except.bind]
  | ok r =>
      obtain ⟨ha, hs'⟩ := hx s hs r.1 r.2 hstep
      simpa [Bind.bind, StateT.bind, hstep, Except.bind] using h r.1 ha r.2 hs'

theorem mono {x : StateT σ (Except ε) α} {P Q : α → Prop} (hx : Yields I x P)
    (h : ∀ a, P a → Q a) : Yields I x Q := by
  intro s hs a t hrun
  obtain ⟨ha, ht⟩ := hx s hs a t hrun
  exact ⟨h a ha, ht⟩

theorem true {x : StateT σ (Except ε) α} {P : α → Prop} (hx : Yields I x P) :
    Yields I x fun _ => True :=
  hx.mono fun _ _ => trivial

/-- What always fails yields nothing. -/
theorem refused {x : StateT σ (Except ε) α} {P : α → Prop} (h : ∀ s, ∃ e, x s = .error e) :
    Yields I x P := by
  intro s _ a t hrun
  obtain ⟨e, he⟩ := h s
  rw [he] at hrun
  cases hrun

theorem get : Yields I (MonadState.get : StateT σ (Except ε) σ) I := by
  intro s hs a t hrun
  cases hrun
  exact ⟨hs, hs⟩

theorem set {s : σ} (h : I s) :
    Yields I (MonadStateOf.set s : StateT σ (Except ε) PUnit) fun _ => True := by
  intro _ _ a t hrun
  cases hrun
  exact ⟨trivial, h⟩

theorem modify {f : σ → σ} (h : ∀ s, I s → I (f s)) :
    Yields I (modify f : StateT σ (Except ε) PUnit) fun _ => True := by
  intro s hs a t hrun
  cases hrun
  exact ⟨trivial, h s hs⟩

/-- Every result of a list of computations has the property. -/
theorem mapM {f : α → StateT σ (Except ε) β} {P : β → Prop} {xs : List α}
    (h : ∀ x ∈ xs, Yields I (f x) P) : Yields I (xs.mapM f) fun ys => ∀ y ∈ ys, P y := by
  induction xs with
  | nil => exact pure (by simp)
  | cons x xs ih =>
      rw [List.mapM_cons]
      refine (h x List.mem_cons_self).bind fun y hy => ?_
      refine (ih fun z hz => h z (List.mem_cons_of_mem x hz)).bind fun ys hys => pure ?_
      exact List.forall_mem_cons.mpr ⟨hy, hys⟩

end Yields

end GrammarEngine

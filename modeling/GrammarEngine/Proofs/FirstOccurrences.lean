import Mathlib.Data.List.Nodup

/-!
# First occurrences

Of the elements of a list those count whose keys have not occurred before. Which they are depends on
the set of keys that have been seen, and elements that do not count may be dropped at any time.
-/
namespace GrammarEngine

variable {α β γ : Type} [DecidableEq β]

/-- The elements whose keys have neither been seen nor occurred before. -/
def firstsBy (key : α → β) : List β → List α → List α
  | _, [] => []
  | seen, x :: xs =>
    if key x ∈ seen then firstsBy key seen xs else x :: firstsBy key (key x :: seen) xs

/-- The first occurrences in a list of keys. -/
abbrev firsts (xs : List β) : List β := firstsBy id [] xs

variable {key : α → β} {seen seen' : List β} {xs ys : List α}

theorem firstsBy_congr (h : ∀ k, k ∈ seen ↔ k ∈ seen') :
    firstsBy key seen xs = firstsBy key seen' xs := by
  induction xs generalizing seen seen' with
  | nil => rfl
  | cons x xs ih =>
      have hcons : ∀ k, k ∈ key x :: seen ↔ k ∈ key x :: seen' := fun k => by
        rw [List.mem_cons, List.mem_cons, h k]
      simp only [firstsBy, h (key x), ih h, ih hcons]

theorem firstsBy_append (key : α → β) (seen : List β) (xs ys : List α) :
    firstsBy key seen (xs ++ ys) =
      firstsBy key seen xs ++ firstsBy key (seen ++ xs.map key) ys := by
  induction xs generalizing seen with
  | nil => simp [firstsBy]
  | cons x xs ih =>
      rw [List.cons_append, firstsBy, firstsBy]
      split
      · next hx =>
        rw [ih]
        congr 1
        apply firstsBy_congr
        intro k
        simp only [List.mem_append, List.map_cons, List.mem_cons]
        constructor
        · exact Or.imp_right .inr
        · rintro (hk | rfl | hk)
          · exact .inl hk
          · exact .inl hx
          · exact .inr hk
      · rw [ih, List.cons_append]
        congr 2
        apply firstsBy_congr
        intro k
        simp only [List.mem_append, List.map_cons, List.mem_cons]
        tauto

theorem mem_map_firstsBy {k : β} :
    k ∈ (firstsBy key seen xs).map key ↔ k ∈ xs.map key ∧ k ∉ seen := by
  induction xs generalizing seen with
  | nil => simp [firstsBy]
  | cons x xs ih =>
      rw [firstsBy]
      split
      · next hx =>
        rw [ih, List.map_cons, List.mem_cons]
        constructor
        · exact And.imp_left .inr
        · rintro ⟨rfl | hk, hseen⟩
          · exact absurd hx hseen
          · exact ⟨hk, hseen⟩
      · next hx =>
        rw [List.map_cons, List.mem_cons, ih, List.map_cons, List.mem_cons, List.mem_cons]
        constructor
        · rintro (rfl | ⟨hk, hnot⟩)
          · exact ⟨.inl rfl, hx⟩
          · exact ⟨.inr hk, fun hseen => hnot (.inr hseen)⟩
        · rintro ⟨hk, hseen⟩
          by_cases heq : k = key x
          · exact .inl heq
          · exact .inr ⟨hk.resolve_left heq, not_or.mpr ⟨heq, hseen⟩⟩

theorem nodup_firstsBy (key : α → β) (seen : List β) (xs : List α) :
    ((firstsBy key seen xs).map key).Nodup := by
  induction xs generalizing seen with
  | nil => exact List.nodup_nil
  | cons x xs ih =>
      rw [firstsBy]
      split
      · exact ih seen
      · refine List.nodup_cons.mpr ⟨fun hx => ?_, ih _⟩
        exact (mem_map_firstsBy.mp hx).2 List.mem_cons_self

theorem firstsBy_eq_nil (h : ∀ x ∈ xs, key x ∈ seen) : firstsBy key seen xs = [] := by
  induction xs with
  | nil => rfl
  | cons x xs ih =>
      obtain ⟨hx, hxs⟩ := List.forall_mem_cons.mp h
      rw [firstsBy, if_pos hx, ih hxs]

/-- Nothing is dropped from a list with distinct keys none of which has been seen. -/
theorem firstsBy_eq_self (h : (xs.map key).Nodup) (hseen : ∀ x ∈ xs, key x ∉ seen) :
    firstsBy key seen xs = xs := by
  induction xs generalizing seen with
  | nil => rfl
  | cons x xs ih =>
      obtain ⟨hx, hxs⟩ := List.nodup_cons.mp h
      obtain ⟨hfresh, hrest⟩ := List.forall_mem_cons.mp hseen
      rw [firstsBy, if_neg hfresh, ih hxs]
      intro y hy hmem
      rcases List.mem_cons.mp hmem with heq | hmem
      · exact hx (heq ▸ List.mem_map_of_mem hy)
      · exact hrest y hy hmem

/-- Elements that do not count may be dropped before. -/
theorem firstsBy_firstsBy {less : List β} (h : less ⊆ seen) :
    firstsBy key seen (firstsBy key less xs) = firstsBy key seen xs := by
  induction xs generalizing seen less with
  | nil => rfl
  | cons x xs ih =>
      rw [firstsBy.eq_2 key less]
      split
      · next hx => rw [ih h, firstsBy, if_pos (h hx)]
      · rw [firstsBy, firstsBy]
        split
        · next hseen => exact ih (List.cons_subset.mpr ⟨hseen, h⟩)
        · rw [ih (List.cons_subset_cons (key x) h)]

/-- The first element with a property of its key is the first one among those that count. -/
theorem find?_firstsBy {p : β → Bool} (h : ∀ k ∈ seen, p k = false) :
    (firstsBy key seen xs).find? (p ∘ key) = xs.find? (p ∘ key) := by
  induction xs generalizing seen with
  | nil => rfl
  | cons x xs ih =>
      rw [firstsBy]
      split
      · next hx => rw [ih h, List.find?_cons_of_neg (by simp [h _ hx])]
      · cases hp : p (key x) with
        | true =>
            have hx : (p ∘ key) x = true := hp
            rw [List.find?_cons_of_pos hx, List.find?_cons_of_pos hx]
        | false =>
            rw [List.find?_cons_of_neg (by simp [hp]), List.find?_cons_of_neg (by simp [hp]),
              ih (List.forall_mem_cons.mpr ⟨hp, h⟩)]

theorem find?_firsts (p : β → Bool) (xs : List β) : (firsts xs).find? p = xs.find? p := by
  have hfirst : (firstsBy id [] xs).find? (p ∘ id) = xs.find? (p ∘ id) :=
    find?_firstsBy (List.forall_mem_nil _)
  exact hfirst

/-! ## Longer lists -/

/-- A list with further elements behind it, each under a key that has not occurred before. -/
def extendBy (key : α → β) (own more : List α) : List α :=
  own ++ firstsBy key (own.map key) more

/-- A list with distinct keys is extended by the first occurrences behind it. -/
theorem firstsBy_append_of_nodup {own more : List α} (h : (own.map key).Nodup) :
    firstsBy key [] (own ++ more) = extendBy key own more := by
  rw [firstsBy_append, firstsBy_eq_self h fun _ _ => List.not_mem_nil, List.nil_append]
  rfl

theorem extendBy_nil (key : α → β) (own : List α) : extendBy key own [] = own :=
  List.append_nil own

theorem extendBy_cons (key : α → β) (own more : List α) (x : α) : extendBy key own (x :: more) =
    extendBy key (if key x ∈ own.map key then own else own ++ [x]) more := by
  rw [extendBy, firstsBy, extendBy]
  split
  · rfl
  · rw [List.append_assoc, List.singleton_append]
    congr 2
    exact firstsBy_congr fun k => by simp [or_comm]

theorem mem_map_extendBy {own more : List α} {k : β} :
    k ∈ (extendBy key own more).map key ↔ k ∈ own.map key ++ more.map key := by
  rw [extendBy, List.map_append, List.mem_append, List.mem_append, mem_map_firstsBy]
  tauto

theorem mem_extendBy_id {own more : List β} {k : β} :
    k ∈ extendBy id own more ↔ k ∈ own ++ more := by
  have hmem : k ∈ (extendBy id own more).map id ↔ k ∈ own.map id ++ more.map id := mem_map_extendBy
  rwa [List.map_id, List.map_id, List.map_id] at hmem

theorem extendBy_extendBy (key : α → β) (own xs ys : List α) :
    extendBy key (extendBy key own xs) ys = extendBy key own (xs ++ ys) := by
  rw [extendBy, firstsBy_congr fun _ => mem_map_extendBy, extendBy, List.append_assoc,
    ← firstsBy_append]
  rfl

/-- What occurs again in what is added is dropped in any case. -/
theorem extendBy_extended (key : α → β) (own xs ys : List α) :
    extendBy key own (extendBy key xs ys) = extendBy key own (xs ++ ys) := by
  rw [extendBy, extendBy, extendBy, firstsBy_append, firstsBy_append,
    firstsBy_firstsBy (List.subset_append_right _ _)]

theorem find?_extendBy (p : β → Bool) (own more : List α) :
    (extendBy key own more).find? (p ∘ key) = (own ++ more).find? (p ∘ key) := by
  rw [extendBy, List.find?_append, List.find?_append]
  cases hown : own.find? (p ∘ key) with
  | some x => rfl
  | none =>
      have hseen : ∀ k ∈ own.map key, p k = false := by
        intro k hk
        obtain ⟨x, hx, rfl⟩ := List.mem_map.mp hk
        simpa using List.find?_eq_none.mp hown x hx
      rw [find?_firstsBy hseen]

/-- What lists contribute to a joined list counts the first time that they are joined. -/
theorem firstsBy_flatMap_firstsBy {name : γ → β} {parts : γ → List α} {gs : List γ}
    {names : List β} (hsame : ∀ g ∈ gs, ∀ h ∈ gs, name g = name h → parts g = parts h)
    (hnames : ∀ g ∈ gs, name g ∈ names → ∀ x ∈ parts g, key x ∈ seen) :
    firstsBy key seen ((firstsBy name names gs).flatMap parts) =
      firstsBy key seen (gs.flatMap parts) := by
  induction gs generalizing seen names with
  | nil => rfl
  | cons g gs ih =>
      have hrest : ∀ g ∈ gs, ∀ h ∈ gs, name g = name h → parts g = parts h :=
        fun g hg h hh => hsame g (List.mem_cons_of_mem _ hg) h (List.mem_cons_of_mem _ hh)
      rw [firstsBy, List.flatMap_cons, firstsBy_append]
      split
      · next hg =>
        have hparts := hnames g List.mem_cons_self hg
        rw [firstsBy_eq_nil hparts, List.nil_append,
          ih hrest fun h hh => hnames h (List.mem_cons_of_mem _ hh)]
        apply firstsBy_congr
        intro k
        simp only [List.mem_append, List.mem_map]
        constructor
        · exact .inl
        · rintro (hk | ⟨x, hx, rfl⟩)
          · exact hk
          · exact hparts x hx
      · rw [List.flatMap_cons, firstsBy_append, ih hrest]
        intro h hh hname x hx
        rcases List.mem_cons.mp hname with heq | hname
        · have hpart := hsame h (List.mem_cons_of_mem _ hh) g List.mem_cons_self heq
          exact List.mem_append_right _ (List.mem_map_of_mem (hpart ▸ hx))
        · exact List.mem_append_left _ (hnames h (List.mem_cons_of_mem _ hh) hname x hx)

end GrammarEngine

import GrammarEngine.Proofs.Search.Branches
import Mathlib.Tactic.Tauto

/-!
# First branches

Two lists of branches have the same first branches if dropping the later branches of every place
leaves the same of both. Joining lists, going on from their branches and selecting branches by their
places keep this, so later branches may be dropped at any time. What goes on from a later branch of
a place adds no new place as long as the places that follow a branch depend on its own place only.

What is listed by a recursion that may not end is approached by lists for every depth of the
recursion, which are not there where the recursion would have to go deeper. A list that is there for
some depth must stay the same for every greater one; then it is the limit. Lists that are put
together from others have the limits that are put together in the same way.
-/
namespace GrammarEngine.Branch

variable {α β : Type} {bs cs : List (Branch α)} {s t : Std.HashSet Nat}

/-! ## Dropping later branches -/

theorem keepFirst_cons_of_mem {b : Branch α} (h : b.stop ∈ s) :
    keepFirst s (b :: bs) = keepFirst s bs := by
  rw [keepFirst, if_pos (Std.HashSet.contains_iff_mem.mpr h)]

theorem keepFirst_cons_of_not_mem {b : Branch α} (h : b.stop ∉ s) :
    keepFirst s (b :: bs) = b :: keepFirst (s.insert b.stop) bs := by
  rw [keepFirst, if_neg fun hc => h (Std.HashSet.contains_iff_mem.mp hc)]

/-- Places that have been passed, with those of further branches. -/
def pass (s : Std.HashSet Nat) (bs : List (Branch α)) : Std.HashSet Nat := s.insertMany (stops bs)

theorem mem_pass {j : Nat} : j ∈ pass s bs ↔ j ∈ s ∨ j ∈ stops bs := by
  rw [pass, Std.HashSet.mem_insertMany_list, List.contains_iff_mem]

/-- Only the places of the branches matter. -/
theorem keepFirst_congr (h : ∀ j ∈ stops bs, j ∈ s ↔ j ∈ t) : keepFirst s bs = keepFirst t bs := by
  induction bs generalizing s t with
  | nil => rfl
  | cons b bs ih =>
      have hb : b.stop ∈ s ↔ b.stop ∈ t := h b.stop List.mem_cons_self
      have hbs : ∀ j ∈ stops bs, j ∈ s ↔ j ∈ t := fun j hj => h j (List.mem_cons_of_mem b.stop hj)
      by_cases hs : b.stop ∈ s
      · rw [keepFirst_cons_of_mem hs, keepFirst_cons_of_mem (hb.mp hs), ih hbs]
      · rw [keepFirst_cons_of_not_mem hs, keepFirst_cons_of_not_mem (hs ∘ hb.mpr)]
        refine congrArg (b :: ·) (ih fun j hj => ?_)
        rw [Std.HashSet.mem_insert, Std.HashSet.mem_insert, hbs j hj]

theorem keepFirst_eq_nil (h : ∀ j ∈ stops bs, j ∈ s) : keepFirst s bs = [] := by
  refine List.eq_nil_iff_forall_not_mem.mpr fun b hb => ?_
  obtain ⟨hmem, hnot⟩ := mem_of_mem_keepFirst hb
  exact hnot (h b.stop (mem_stops_of_mem hmem))

theorem keepFirst_eq_self (h : (stops bs).Nodup) (hs : ∀ j ∈ stops bs, j ∉ s) :
    keepFirst s bs = bs := by
  induction bs generalizing s with
  | nil => rfl
  | cons b bs ih =>
      obtain ⟨hb, hbs⟩ := List.nodup_cons.mp h
      rw [keepFirst_cons_of_not_mem (hs b.stop List.mem_cons_self)]
      refine congrArg (b :: ·) (ih hbs fun j hj hmem => ?_)
      rcases Std.HashSet.mem_insert.mp hmem with he | hmem
      · exact hb (beq_iff_eq.mp he ▸ hj)
      · exact hs j (List.mem_cons_of_mem b.stop hj) hmem

/-- The first of all branches is kept. -/
theorem head?_distinct (bs : List (Branch α)) : (distinct bs).head? = bs.head? := by
  cases bs with
  | nil => rfl
  | cons b bs =>
      have hb : b.stop ∉ ({} : Std.HashSet Nat) := by simp
      rw [distinct, keepFirst_cons_of_not_mem hb]
      rfl

theorem distinct_eq_self (h : (stops bs).Nodup) : distinct bs = bs := keepFirst_eq_self h (by simp)

/-- Branches that have been passed are left out behind them. -/
theorem keepFirst_append (ht : ∀ j, j ∈ t ↔ j ∈ s ∨ j ∈ stops bs) :
    keepFirst s (bs ++ cs) = keepFirst s bs ++ keepFirst t cs := by
  induction bs generalizing s with
  | nil => exact keepFirst_congr fun j _ => by simp [ht]
  | cons b bs ih =>
      rw [List.cons_append]
      by_cases hs : b.stop ∈ s
      · rw [keepFirst_cons_of_mem hs, keepFirst_cons_of_mem hs]
        refine ih fun j => ?_
        rw [ht, stops_cons, List.mem_cons]
        constructor
        · rintro (h | rfl | h)
          · exact .inl h
          · exact .inl hs
          · exact .inr h
        · exact Or.imp_right .inr
      · rw [keepFirst_cons_of_not_mem hs, keepFirst_cons_of_not_mem hs, List.cons_append]
        refine congrArg (b :: ·) (ih fun j => ?_)
        rw [ht, stops_cons, List.mem_cons, Std.HashSet.mem_insert, beq_iff_eq, eq_comm (a := j)]
        tauto

/-- What is left with fewer places passed is thinned by the other places. -/
theorem keepFirst_eq_filter (h : ∀ j ∈ t, j ∈ s) :
    keepFirst s bs = (keepFirst t bs).filter fun b => !s.contains b.stop := by
  induction bs generalizing s t with
  | nil => rfl
  | cons b bs ih =>
      by_cases ht : b.stop ∈ t
      · rw [keepFirst_cons_of_mem ht, keepFirst_cons_of_mem (h _ ht), ih h]
      · rw [keepFirst_cons_of_not_mem ht]
        by_cases hs : b.stop ∈ s
        · have hsub : ∀ j ∈ t.insert b.stop, j ∈ s := by
            intro j hj
            rcases Std.HashSet.mem_insert.mp hj with he | hj
            · exact beq_iff_eq.mp he ▸ hs
            · exact h j hj
          rw [keepFirst_cons_of_mem hs, ih hsub, List.filter_cons_of_neg (by simpa using hs)]
        · have hsub : ∀ j ∈ t.insert b.stop, j ∈ s.insert b.stop := by
            intro j hj
            exact Std.HashSet.mem_insert.mpr ((Std.HashSet.mem_insert.mp hj).imp_right (h j))
          rw [keepFirst_cons_of_not_mem hs, ih hsub, List.filter_cons_of_pos (by simpa using hs)]
          refine congrArg (b :: ·) (List.filter_congr fun c hc => ?_)
          have hne : b.stop ≠ c.stop := by
            intro he
            exact (mem_of_mem_keepFirst hc).2 (Std.HashSet.mem_insert.mpr (.inl (by simp [he])))
          simp [Std.HashSet.contains_insert, hne]

theorem keepFirst_map {f : Branch α → Branch β} (hf : ∀ b, (f b).stop = b.stop) :
    keepFirst s (bs.map f) = (keepFirst s bs).map f := by
  induction bs generalizing s with
  | nil => rfl
  | cons b bs ih =>
      rw [List.map_cons]
      by_cases hs : b.stop ∈ s
      · rw [keepFirst_cons_of_mem hs, keepFirst_cons_of_mem ((hf b).symm ▸ hs), ih]
      · rw [keepFirst_cons_of_not_mem hs, keepFirst_cons_of_not_mem ((hf b).symm ▸ hs), ih, hf,
          List.map_cons]

theorem keepFirst_filter (q : Nat → Bool) :
    keepFirst s (bs.filter fun b => q b.stop) = (keepFirst s bs).filter fun b => q b.stop := by
  induction bs generalizing s with
  | nil => rfl
  | cons b bs ih =>
      by_cases hq : q b.stop = true
      · rw [List.filter_cons, if_pos hq]
        by_cases hs : b.stop ∈ s
        · rw [keepFirst_cons_of_mem hs, keepFirst_cons_of_mem hs, ih]
        · rw [keepFirst_cons_of_not_mem hs, keepFirst_cons_of_not_mem hs, ih,
            List.filter_cons, if_pos hq]
      · rw [List.filter_cons, if_neg hq]
        by_cases hs : b.stop ∈ s
        · rw [keepFirst_cons_of_mem hs, ih]
        · rw [keepFirst_cons_of_not_mem hs, List.filter_cons, if_neg hq, ← ih]
          refine keepFirst_congr fun j hj => ?_
          obtain ⟨c, hc, rfl⟩ := mem_stops.mp hj
          have hne : b.stop ≠ c.stop := by
            intro he
            exact hq (he ▸ (List.mem_filter.mp hc).2)
          simp [Std.HashSet.mem_insert, hne]

/-- Going on from a branch whose place has been passed reaches places that have been passed, so the
branch may be left out. -/
theorem keepFirst_flatMap {g : Branch α → List (Branch β)}
    (hg : ∀ b ∈ bs, ∀ c ∈ bs, b.stop = c.stop → stops (g b) = stops (g c))
    (ht : ∀ b ∈ bs, b.stop ∈ t → ∀ j ∈ stops (g b), j ∈ s) :
    keepFirst s (bs.flatMap g) = keepFirst s ((keepFirst t bs).flatMap g) := by
  induction bs generalizing s t with
  | nil => rfl
  | cons b bs ih =>
      have hgbs : ∀ c ∈ bs, ∀ d ∈ bs, c.stop = d.stop → stops (g c) = stops (g d) :=
        fun c hc d hd => hg c (List.mem_cons_of_mem b hc) d (List.mem_cons_of_mem b hd)
      have htbs : ∀ c ∈ bs, c.stop ∈ t → ∀ j ∈ stops (g c), j ∈ s :=
        fun c hc => ht c (List.mem_cons_of_mem b hc)
      rw [List.flatMap_cons]
      by_cases hb : b.stop ∈ t
      · have hpassed := ht b List.mem_cons_self hb
        have hsame : ∀ j, j ∈ s ↔ j ∈ s ∨ j ∈ stops (g b) :=
          fun j => ⟨.inl, fun h => h.elim id (hpassed j)⟩
        rw [keepFirst_append hsame, keepFirst_eq_nil hpassed, List.nil_append,
          keepFirst_cons_of_mem hb, ih hgbs htbs]
      · rw [keepFirst_append fun _ => mem_pass, keepFirst_cons_of_not_mem hb, List.flatMap_cons,
          keepFirst_append fun _ => mem_pass]
        refine congrArg (keepFirst s (g b) ++ ·) (ih hgbs fun c hc hmem j hj => ?_)
        rw [mem_pass]
        rcases Std.HashSet.mem_insert.mp hmem with he | hmem
        · have hstop : b.stop = c.stop := beq_iff_eq.mp he
          exact .inr (hg b List.mem_cons_self c (List.mem_cons_of_mem b hc) hstop ▸ hj)
        · exact .inl (htbs c hc hmem j hj)

/-! ## Lists with the same first branches -/

/-- Two lists of branches have the same first branch at each place, in the same order. -/
def SameFirsts (bs cs : List (Branch α)) : Prop := distinct bs = distinct cs

namespace SameFirsts

variable {bs' cs' : List (Branch α)}

theorem refl (bs : List (Branch α)) : SameFirsts bs bs := rfl

theorem trans {ds : List (Branch α)} (h : SameFirsts bs cs) (h' : SameFirsts cs ds) :
    SameFirsts bs ds := Eq.trans h h'

theorem keepFirst_eq (h : SameFirsts bs cs) (s : Std.HashSet Nat) :
    keepFirst s bs = keepFirst s cs := by
  have hempty : ∀ j ∈ ({} : Std.HashSet Nat), j ∈ s := by simp
  rw [keepFirst_eq_filter hempty, keepFirst_eq_filter hempty]
  exact congrArg (List.filter _) h

theorem mem_stops (h : SameFirsts bs cs) {j : Nat} : j ∈ stops bs ↔ j ∈ stops cs := by
  rw [← mem_stops_distinct, h, mem_stops_distinct]

theorem of_distinct (bs : List (Branch α)) : SameFirsts (distinct bs) bs :=
  distinct_eq_self (nodup_stops_distinct bs)

theorem append (h : SameFirsts bs cs) (h' : SameFirsts bs' cs') :
    SameFirsts (bs ++ bs') (cs ++ cs') := by
  have hcs : ∀ j, j ∈ pass {} bs ↔ j ∈ ({} : Std.HashSet Nat) ∨ j ∈ stops cs := by
    intro j
    rw [mem_pass, h.mem_stops]
  unfold SameFirsts distinct
  rw [keepFirst_append fun _ => mem_pass, keepFirst_append hcs, h'.keepFirst_eq]
  exact congrArg (· ++ _) h

/-- Branches at places that have been reached before may be left out. -/
theorem append_left (h : ∀ j ∈ stops cs, j ∈ stops bs) : SameFirsts (bs ++ cs) bs := by
  have hnil : keepFirst (pass {} bs) cs = [] :=
    keepFirst_eq_nil fun j hj => mem_pass.mpr (.inr (h j hj))
  unfold SameFirsts distinct
  rw [keepFirst_append fun _ => mem_pass, hnil, List.append_nil]

theorem map (h : SameFirsts bs cs) {f : Branch α → Branch β} (hf : ∀ b, (f b).stop = b.stop) :
    SameFirsts (bs.map f) (cs.map f) := by
  unfold SameFirsts distinct
  rw [keepFirst_map hf, keepFirst_map hf]
  exact congrArg (List.map f) h

theorem filter (h : SameFirsts bs cs) (q : Nat → Bool) :
    SameFirsts (bs.filter fun b => q b.stop) (cs.filter fun b => q b.stop) := by
  unfold SameFirsts distinct
  rw [keepFirst_filter, keepFirst_filter]
  exact congrArg (List.filter _) h

theorem flatMap (h : SameFirsts bs cs) {g : Branch α → List (Branch β)}
    (hg : ∀ b c, b.stop ∈ stops bs → b.stop = c.stop → stops (g b) = stops (g c)) :
    SameFirsts (bs.flatMap g) (cs.flatMap g) := by
  have hflat : ∀ ds : List (Branch α), (∀ d ∈ ds, d.stop ∈ stops bs) →
      distinct (ds.flatMap g) = distinct ((distinct ds).flatMap g) := by
    intro ds hds
    exact keepFirst_flatMap (fun b hb c _ => hg b c (hds b hb)) (by simp)
  unfold SameFirsts
  rw [hflat bs fun d hd => mem_stops_of_mem hd,
    hflat cs fun d hd => h.mem_stops.mpr (mem_stops_of_mem hd), h]

end SameFirsts

/-! ## Going on from all items -/

/-- All that goes on from the items of a list, in order, if something does from each of them. -/
def spread {ι : Type} (g : ι → Option (List (Branch α))) (items : List ι) :
    Option (List (Branch α)) := do
  let found ← items.mapM g
  return found.flatten

section Spread

variable {ι κ : Type} {g : ι → Option (List (Branch α))} {items : List ι} {xs : List (Branch α)}

@[simp] theorem spread_nil : spread g [] = some [] := rfl

theorem spread_cons (a : ι) (items : List ι) :
    spread g (a :: items) = do return (← g a) ++ (← spread g items) := by
  unfold spread
  rw [List.mapM_cons]
  cases g a <;> cases items.mapM g <;> rfl

theorem spread_singleton (a : ι) : spread g [a] = g a := by
  rw [spread_cons]
  cases g a <;> simp

theorem spread_append (items others : List ι) :
    spread g (items ++ others) = do return (← spread g items) ++ (← spread g others) := by
  induction items with
  | nil => cases h : spread g others <;> simp [h]
  | cons a items ih =>
      rw [List.cons_append, spread_cons, spread_cons, ih]
      cases g a <;> cases spread g items <;> cases spread g others <;> simp

theorem spread_map (f : κ → ι) (items : List κ) :
    spread g (items.map f) = spread (fun k => g (f k)) items := by
  induction items with
  | nil => rfl
  | cons k items ih => rw [List.map_cons, spread_cons, spread_cons, ih]

theorem map_spread (f : Branch α → Branch β) (items : List ι) :
    (spread g items).map (List.map f) = spread (fun a => (g a).map (List.map f)) items := by
  induction items with
  | nil => rfl
  | cons a items ih =>
      rw [spread_cons, spread_cons, ← ih]
      cases g a <;> cases spread g items <;> simp

/-- What goes on from what goes on. -/
theorem spread_spread {h : Branch α → Option (List (Branch β))} (items : List ι) :
    spread (fun a => g a >>= spread h) items = spread g items >>= spread h := by
  induction items with
  | nil => rfl
  | cons a items ih =>
      rw [spread_cons, spread_cons, ih]
      cases g a with
      | none => rfl
      | some xs =>
          cases spread g items with
          | none => cases hxs : spread h xs <;> simp [hxs]
          | some ys => exact (spread_append xs ys).symm

theorem spread_eq_some {k : ι → List (Branch α)} (h : ∀ a ∈ items, g a = some (k a)) :
    spread g items = some (items.flatMap k) := by
  induction items with
  | nil => rfl
  | cons a items ih =>
      rw [spread_cons, h a List.mem_cons_self, ih fun b hb => h b (List.mem_cons_of_mem a hb)]
      rfl

theorem exists_of_spread (h : spread g items = some xs) : ∀ a ∈ items, ∃ ys, g a = some ys := by
  induction items generalizing xs with
  | nil => simp
  | cons a items ih =>
      rw [spread_cons] at h
      obtain ⟨ys, hys, h⟩ := Option.bind_eq_some_iff.mp h
      obtain ⟨zs, hzs, -⟩ := Option.bind_eq_some_iff.mp h
      exact List.forall_mem_cons.mpr ⟨⟨ys, hys⟩, ih hzs⟩

/-- What goes on from a list is what goes on from its items. -/
theorem mem_stops_spread (h : spread g items = some xs) {j : Nat} :
    j ∈ stops xs ↔ ∃ a ∈ items, ∃ ys, g a = some ys ∧ j ∈ stops ys := by
  have hdefined : ∀ a ∈ items, g a = some ((g a).getD []) := by
    intro a ha
    obtain ⟨ys, hys⟩ := exists_of_spread h a ha
    rw [hys, Option.getD_some]
  obtain rfl := Option.some.inj (h.symm.trans (spread_eq_some hdefined))
  constructor
  · intro hj
    obtain ⟨x, hx, rfl⟩ := mem_stops.mp hj
    obtain ⟨a, ha, hx⟩ := List.mem_flatMap.mp hx
    exact ⟨a, ha, _, hdefined a ha, mem_stops_of_mem hx⟩
  · rintro ⟨a, ha, ys, hys, hj⟩
    obtain ⟨y, hy, rfl⟩ := mem_stops.mp hj
    refine mem_stops_of_mem (List.mem_flatMap.mpr ⟨a, ha, ?_⟩)
    rwa [hys, Option.getD_some]

theorem map_stops_spread {h : ι → Option (List (Branch β))}
    (hstops : ∀ a, (g a).map stops = (h a).map stops) :
    (spread g items).map stops = (spread h items).map stops := by
  induction items with
  | nil => rfl
  | cons a items ih =>
      have ha := hstops a
      rw [spread_cons, spread_cons]
      cases hg : g a <;> cases hh : h a <;> cases hgs : spread g items <;>
        cases hhs : spread h items <;> simp_all

end Spread

/-! ## Places from which something goes on -/

section Uniform

variable {g : Branch α → Option (List (Branch β))} {xs : List (Branch β)}

/-- From every branch at a place something goes on, and it reaches the same places. -/
def Uniform (g : Branch α → Option (List (Branch β))) (place : Nat) (ends : List Nat) : Prop :=
  ∀ b : Branch α, b.stop = place → ∃ ys, g b = some ys ∧ stops ys = ends

/-- If the places that are reached from a branch depend on its own place only, so does whether
something goes on from it. -/
theorem exists_uniform (hg : ∀ b c, b.stop = c.stop → (g b).map stops = (g c).map stops)
    {b : Branch α} {ys : List (Branch β)} (h : g b = some ys) : ∃ ends, Uniform g b.stop ends := by
  refine ⟨stops ys, fun c hc => ?_⟩
  have hstops := hg b c hc.symm
  rw [h, Option.map_some] at hstops
  exact Option.map_eq_some_iff.mp hstops.symm

/-- Later branches may be dropped before something goes on from all. -/
theorem SameFirsts.spread (h : SameFirsts bs cs)
    (huniform : ∀ j ∈ stops bs, ∃ ends, Uniform g j ends) (hxs : spread g bs = some xs) :
    ∃ ys, Branch.spread g cs = some ys ∧ SameFirsts xs ys := by
  have hdefined : ∀ b : Branch α, b.stop ∈ stops bs → g b = some ((g b).getD []) := by
    intro b hb
    obtain ⟨ends, hends⟩ := huniform b.stop hb
    obtain ⟨ys, hys, -⟩ := hends b rfl
    rw [hys, Option.getD_some]
  have hbs := spread_eq_some fun b hb => hdefined b (mem_stops_of_mem hb)
  have hcs := spread_eq_some fun c hc => hdefined c (h.mem_stops.mpr (mem_stops_of_mem hc))
  obtain rfl := Option.some.inj (hxs.symm.trans hbs)
  refine ⟨_, hcs, h.flatMap fun b c hb hstop => ?_⟩
  obtain ⟨ends, hends⟩ := huniform b.stop hb
  obtain ⟨ys, hys, hysends⟩ := hends b rfl
  obtain ⟨zs, hzs, hzsends⟩ := hends c hstop.symm
  rw [hys, hzs, Option.getD_some, Option.getD_some, hysends, hzsends]

/-- From lists with the same places the same places are reached. -/
theorem exists_spread_of_stops_eq (hstops : stops bs = stops cs)
    (huniform : ∀ j ∈ stops bs, ∃ ends, Uniform g j ends) :
    ∃ xs ys, spread g bs = some xs ∧ spread g cs = some ys ∧ stops xs = stops ys := by
  induction bs generalizing cs with
  | nil =>
      obtain rfl := List.map_eq_nil_iff.mp hstops.symm
      exact ⟨[], [], rfl, rfl, rfl⟩
  | cons b bs ih =>
      obtain ⟨c, cs, rfl, hstop, hrest⟩ := List.map_eq_cons_iff.mp hstops.symm
      obtain ⟨ends, hends⟩ := huniform b.stop List.mem_cons_self
      obtain ⟨us, hus, husends⟩ := hends b rfl
      obtain ⟨vs, hvs, hvsends⟩ := hends c hstop
      obtain ⟨xs, ys, hxs, hys, hsame⟩ :=
        ih hrest.symm fun j hj => huniform j (List.mem_cons_of_mem b.stop hj)
      refine ⟨us ++ xs, vs ++ ys, ?_, ?_, ?_⟩
      · rw [spread_cons, hus, hxs]
        rfl
      · rw [spread_cons, hvs, hys]
        rfl
      · rw [stops_append, stops_append, husends, hvsends, hsame]

end Uniform

/-! ## First branches under another reading -/

/-- A branch with another reading of its value. -/
def view (f : α → β) (b : Branch α) : Branch β := ⟨b.stop, f b.value⟩

@[simp] theorem stop_view (f : α → β) (b : Branch α) : (b.view f).stop = b.stop := rfl

/-- There is a full list of branches, and others are its first ones when they are read that way. -/
def FirstsOf (f : α → β) (full : Option (List (Branch β))) (found : List (Branch α)) : Prop :=
  ∃ xs, full = some xs ∧ SameFirsts (found.map (view f)) xs

namespace FirstsOf

variable {f : α → β} {full : Option (List (Branch β))} {found : List (Branch α)}

theorem distinct (h : FirstsOf f full found) : FirstsOf f full (distinct found) := by
  obtain ⟨xs, hxs, hsame⟩ := h
  have hview : (Branch.distinct found).map (view f) = Branch.distinct (found.map (view f)) :=
    (keepFirst_map (stop_view f)).symm
  refine ⟨xs, hxs, ?_⟩
  rw [hview]
  exact (SameFirsts.of_distinct _).trans hsame

theorem append {others : Option (List (Branch β))} {found' : List (Branch α)}
    (h : FirstsOf f full found) (h' : FirstsOf f others found') :
    FirstsOf f (do return (← full) ++ (← others)) (found ++ found') := by
  obtain ⟨xs, rfl, hxs⟩ := h
  obtain ⟨ys, rfl, hys⟩ := h'
  refine ⟨xs ++ ys, rfl, ?_⟩
  rw [List.map_append]
  exact hxs.append hys

theorem map {γ δ : Type} {k : Branch α → Branch γ} {l : Branch β → Branch δ} {f' : γ → δ}
    (h : FirstsOf f full found) (hl : ∀ b, (l b).stop = b.stop)
    (hkl : ∀ b, view f' (k b) = l (view f b)) :
    FirstsOf f' (do return (← full).map l) (found.map k) := by
  obtain ⟨xs, rfl, hxs⟩ := h
  have hview : (found.map k).map (view f') = (found.map (view f)).map l := by
    simp only [List.map_map, Function.comp_def, hkl]
  refine ⟨xs.map l, rfl, ?_⟩
  rw [hview]
  exact hxs.map hl

theorem filter (h : FirstsOf f full found) (q : Nat → Bool) :
    FirstsOf f (do return (← full).filter fun b => q b.stop) (found.filter fun b => q b.stop) := by
  obtain ⟨xs, rfl, hxs⟩ := h
  have hview : (found.filter fun b => q b.stop).map (view f) =
      (found.map (view f)).filter fun b => q b.stop := by
    rw [List.filter_map]
    rfl
  refine ⟨_, rfl, ?_⟩
  rw [hview]
  exact hxs.filter q

/-- What goes on from the first branches is, as far as first branches go, what goes on from all. -/
theorem spread {γ δ : Type} {f' : γ → δ} {g : Branch β → Option (List (Branch δ))}
    {next : List (Branch γ)} (h : FirstsOf f full found)
    (hg : ∀ b c, b.stop = c.stop → (g b).map stops = (g c).map stops)
    (hnext : FirstsOf f' (spread g (found.map (view f))) next) :
    FirstsOf f' (full >>= Branch.spread g) next := by
  obtain ⟨xs, rfl, hxs⟩ := h
  obtain ⟨ys, hys, hsame⟩ := hnext
  have huniform : ∀ j ∈ stops (found.map (view f)), ∃ ends, Uniform g j ends := by
    intro j hj
    obtain ⟨b, hb, rfl⟩ := mem_stops.mp hj
    obtain ⟨zs, hzs⟩ := exists_of_spread hys b hb
    exact exists_uniform hg hzs
  obtain ⟨zs, hzs, hys'⟩ := hxs.spread huniform hys
  exact ⟨zs, hzs, hsame.trans hys'⟩

/-- Branches that end at different places are what is left of the full list. -/
theorem eq_distinct {found : List (Branch β)} (h : FirstsOf id full found)
    (hnodup : (stops found).Nodup) : ∃ xs, full = some xs ∧ found = Branch.distinct xs := by
  obtain ⟨xs, hxs, hsame⟩ := h
  have hview : found.map (view id) = found := List.map_id found
  rw [hview] at hsame
  exact ⟨xs, hxs, (distinct_eq_self hnodup).symm.trans hsame⟩

end FirstsOf

end GrammarEngine.Branch

/-! ## Limits of listings -/
namespace GrammarEngine

open Branch

/-- A sequence is at its limit from some number on and has nothing before, and it never has anything
if its limit is nothing. -/
structure IsLimit {α : Type} (x : Nat → Option α) (y : Option α) : Prop where
  sound : ∀ n a, x n = some a → y = some a
  reached : ∀ a, y = some a → ∃ n, ∀ m, n ≤ m → x m = some a

namespace IsLimit

variable {α β ι : Type} {x : Nat → Option α} {y z : Option α}

theorem const (y : Option α) : IsLimit (fun _ => y) y :=
  ⟨fun _ _ h => h, fun _ h => ⟨0, fun _ _ => h⟩⟩

theorem bind {g : Nat → α → Option β} {h : α → Option β} (hx : IsLimit x y)
    (hg : ∀ a, IsLimit (fun n => g n a) (h a)) : IsLimit (fun n => x n >>= g n) (y >>= h) where
  sound n b hb := by
    obtain ⟨a, ha, hb⟩ := Option.bind_eq_some_iff.mp hb
    exact Option.bind_eq_some_iff.mpr ⟨a, hx.sound n a ha, (hg a).sound n b hb⟩
  reached b hb := by
    obtain ⟨a, ha, hb⟩ := Option.bind_eq_some_iff.mp hb
    obtain ⟨n, hn⟩ := hx.reached a ha
    obtain ⟨k, hk⟩ := (hg a).reached b hb
    refine ⟨max n k, fun m hm => Option.bind_eq_some_iff.mpr ⟨a, hn m ?_, hk m ?_⟩⟩
    · exact Nat.le_trans (Nat.le_max_left n k) hm
    · exact Nat.le_trans (Nat.le_max_right n k) hm

theorem spread {g : Nat → ι → Option (List (Branch α))} {h : ι → Option (List (Branch α))}
    (hg : ∀ a, IsLimit (fun n => g n a) (h a)) (items : List ι) :
    IsLimit (fun n => Branch.spread (g n) items) (Branch.spread h items) := by
  induction items with
  | nil => exact const (some [])
  | cons a items ih =>
      simp only [spread_cons]
      exact (hg a).bind fun found => ih.bind fun others => const (some (found ++ others))

theorem unique (h : IsLimit x y) (h' : IsLimit x z) : y = z := by
  have hreaches : ∀ {y z : Option α}, IsLimit x y → IsLimit x z →
      ∀ a, y = some a → z = some a := by
    intro y z h h' a ha
    obtain ⟨n, hn⟩ := h.reached a ha
    exact h'.sound n a (hn n (Nat.le_refl n))
  exact Option.ext fun a => ⟨hreaches h h' a, hreaches h' h a⟩

/-- The limit does not depend on the first item. -/
theorem tail (h : IsLimit x y) : IsLimit (fun n => x (n + 1)) y where
  sound n := h.sound (n + 1)
  reached a ha := by
    obtain ⟨n, hn⟩ := h.reached a ha
    exact ⟨n, fun m hm => hn (m + 1) (Nat.le_succ_of_le hm)⟩

/-- A sequence of two answers, if the first one is kept. -/
theorem step (h : ∀ a, y = some a → z = some a) :
    IsLimit (fun n => Nat.casesOn n y fun _ => z) z where
  sound n a ha := by
    cases n with
    | zero => exact h a ha
    | succ n => exact ha
  reached a ha := by
    refine ⟨1, fun m hm => ?_⟩
    cases m with
    | zero => omega
    | succ m => exact ha

end IsLimit

/-- A sequence whose answers are kept has a limit. -/
theorem exists_isLimit {α : Type} {x : Nat → Option α}
    (h : ∀ n a, x n = some a → x (n + 1) = some a) : ∃ y, IsLimit x y := by
  have hkept : ∀ n a, x n = some a → ∀ m, n ≤ m → x m = some a := by
    intro n a ha m hm
    induction hm with
    | refl => exact ha
    | step _ ih => exact h _ a ih
  by_cases hsome : ∃ n a, x n = some a
  · obtain ⟨n, a, ha⟩ := hsome
    refine ⟨some a, fun m b hb => ?_, fun b hb => ?_⟩
    · have hmax := hkept n a ha (max n m) (Nat.le_max_left n m)
      exact hmax.symm.trans (hkept m b hb (max n m) (Nat.le_max_right n m))
    · obtain rfl := Option.some.inj hb
      exact ⟨n, hkept n a ha⟩
  · exact ⟨none, fun n a ha => absurd ⟨n, a, ha⟩ hsome, nofun⟩

end GrammarEngine

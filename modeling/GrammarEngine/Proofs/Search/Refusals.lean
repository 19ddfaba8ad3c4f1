import GrammarEngine.Proofs.Checked
import GrammarEngine.Proofs.Search.Unfolding
import Mathlib.Data.Set.Lattice

/-!
# Refused tokens

A search state keeps the furthest place at which a token was refused and what was asked for there.
So it does not know all refusals, but it can be said which of them it has taken note of: those at an
earlier place, and those at the furthest place whose type it keeps. A search gathers a set of
refusals if it takes note of all of them, loses none that had been noted, and has nothing from
elsewhere. Searches that are put together gather what their parts do; a visit gathers what is
refused when one goes on from the places that it enters, and these are all places that are reached,
however often they are.
-/
namespace GrammarEngine

open Branch

/-- A refused token: the place where it stands and the type that was asked for, if it was one. -/
structure Refusal where
  place : Nat
  expected : Option TokenType
deriving DecidableEq

namespace SearchState

/-- A refusal has been noted: there is one further on, or it is one of the furthest. -/
def Notes (s : SearchState) (r : Refusal) : Prop :=
  r.place < s.furthest ∨ r.place = s.furthest ∧ ∀ t, r.expected = some t → t ∈ s.expected

/-- From one state to another all refusals of a set have been noted and no others. -/
structure Gathers (s : SearchState) (refusals : Set Refusal) (s' : SearchState) : Prop where
  kept : ∀ r, s.Notes r → s'.Notes r
  noted : ∀ r ∈ refusals, s'.Notes r
  furthest : s'.furthest = s.furthest ∨ ∃ r ∈ refusals, r.place = s'.furthest
  expected : ∀ t ∈ s'.expected,
    s'.furthest = s.furthest ∧ t ∈ s.expected ∨ ⟨s'.furthest, some t⟩ ∈ refusals

namespace Gathers

variable {s s' s'' : SearchState} {A B : Set Refusal}

/-- Refusals that have been noted before change nothing. -/
theorem of_noted (h : ∀ r ∈ A, s.Notes r) : s.Gathers A s :=
  ⟨fun _ hr => hr, h, .inl rfl, fun _ ht => .inl ⟨rfl, ht⟩⟩

theorem trans (h : s.Gathers A s') (h' : s'.Gathers B s'') : s.Gathers (A ∪ B) s'' where
  kept r hr := h'.kept r (h.kept r hr)
  noted r hr := hr.elim (fun hr => h'.kept r (h.noted r hr)) (h'.noted r)
  furthest := by
    rcases h'.furthest with he | ⟨r, hr, hplace⟩
    · rw [he]
      exact h.furthest.imp id fun ⟨r, hr, hplace⟩ => ⟨r, .inl hr, hplace⟩
    · exact .inr ⟨r, .inr hr, hplace⟩
  expected t ht := by
    rcases h'.expected t ht with ⟨he, ht⟩ | ht
    · rw [he]
      exact (h.expected t ht).imp id .inl
    · exact .inr (.inr ht)

/-- Remembering matches does not touch what has been noted. -/
theorem remember {i : Invocation} {known found : List (Branch Derivation)}
    (h : (s.remember i known).Gathers A s') : s.Gathers A (s'.remember i found) :=
  ⟨h.kept, h.noted, h.furthest, h.expected⟩

end Gathers

/-! ## Taking note -/

theorem pairwise_insert {t : TokenType} {ts : List TokenType} (h : ts.Pairwise (· < ·)) :
    (Sorted.insert t ts).Pairwise (· < ·) := by
  induction ts with
  | nil => exact List.pairwise_singleton _ _
  | cons u rest ih =>
      obtain ⟨hu, hrest⟩ := List.pairwise_cons.mp h
      unfold Sorted.insert
      split
      · exact h
      · next hne =>
        split
        · next hlt =>
          refine List.pairwise_cons.mpr ⟨fun v hv => ?_, h⟩
          rcases List.mem_cons.mp hv with rfl | hv
          · exact hlt
          · exact Int32.lt_trans hlt (hu v hv)
        · next hnlt =>
          have hlt : u < t := (Int32.lt_or_lt_of_ne hne).resolve_left hnlt
          refine List.pairwise_cons.mpr ⟨fun v hv => ?_, ih hrest⟩
          rcases (Sorted.mem_insert t v rest).mp hv with rfl | hv
          · exact hlt
          · exact hu v hv

section Refuse

variable {s : SearchState} {place : Nat} {expected : Option TokenType}

theorem refuse_of_lt (h : place < s.furthest) : s.refuse place expected = s := by
  have hnot : ¬ s.furthest < place := Nat.lt_asymm h
  cases expected <;> simp [refuse, hnot, Nat.ne_of_lt h]

theorem refuse_of_gt (h : s.furthest < place) : s.refuse place expected =
    { s with furthest := place, expected := expected.toList } := by
  cases expected <;> simp [refuse, h, Sorted.insert]

theorem refuse_furthest (s : SearchState) (expected : Option TokenType) :
    s.refuse s.furthest expected =
      { s with expected := expected.elim s.expected fun t => Sorted.insert t s.expected } := by
  cases expected <;> simp [refuse]

/-- The token that is refused is noted, and nothing else is. -/
theorem gathers_refuse (s : SearchState) (place : Nat) (expected : Option TokenType) :
    s.Gathers {⟨place, expected⟩} (s.refuse place expected) := by
  rcases Nat.lt_trichotomy place s.furthest with h | rfl | h
  · rw [refuse_of_lt h]
    exact .of_noted fun r hr => .inl (hr ▸ h)
  · rw [refuse_furthest]
    refine ⟨fun r hr => hr.imp id fun hr => ⟨hr.1, fun t ht => ?_⟩, fun r hr => ?_, .inl rfl,
      fun t ht => ?_⟩
    · cases expected with
      | none => exact hr.2 t ht
      | some u => exact (Sorted.mem_insert u t _).mpr (.inr (hr.2 t ht))
    · obtain rfl := Set.mem_singleton_iff.mp hr
      refine .inr ⟨rfl, fun t ht => ?_⟩
      obtain rfl : expected = some t := ht
      exact (Sorted.mem_insert t t _).mpr (.inl rfl)
    · cases expected with
      | none => exact .inl ⟨rfl, ht⟩
      | some u =>
          rcases (Sorted.mem_insert u t _).mp ht with rfl | ht
          · exact .inr rfl
          · exact .inl ⟨rfl, ht⟩
  · rw [refuse_of_gt h]
    refine ⟨fun r hr => ?_, fun r hr => ?_, .inr ⟨_, rfl, rfl⟩, fun t ht => ?_⟩
    · exact .inl (hr.elim (fun hr => Nat.lt_trans hr h) fun hr => hr.1 ▸ h)
    · obtain rfl := Set.mem_singleton_iff.mp hr
      exact .inr ⟨rfl, fun t ht => Option.mem_toList.mpr ht⟩
    · obtain rfl := Option.mem_toList.mp ht
      exact .inr rfl

/-- What was asked for is kept in increasing order. -/
theorem sorted_refuse (h : s.expected.Pairwise (· < ·)) :
    (s.refuse place expected).expected.Pairwise (· < ·) := by
  rcases Nat.lt_trichotomy place s.furthest with hlt | rfl | hgt
  · rwa [refuse_of_lt hlt]
  · rw [refuse_furthest]
    cases expected with
    | none => exact h
    | some t => exact pairwise_insert h
  · rw [refuse_of_gt hgt]
    cases expected <;> simp

end Refuse

end SearchState

namespace Search

variable {α β : Type} {I : SearchState → Prop}

theorem Ensures.answers {x : Search α} {P : α → Prop} (h : Ensures I x P) (f : α → β) :
    Ensures I (x >>= fun a => Pure.pure (f a)) fun _ => True :=
  h.bind fun _ _ => .pure trivial

/-- From a state with the invariant, a search that ends has noted these refusals and no others. -/
def Gathers (I : SearchState → Prop) (x : Search α) (refusals : Set Refusal) : Prop :=
  ∀ s, I s → ∀ a s', x.run s = .ok (a, s') → s.Gathers refusals s'

namespace Gathers

variable {A B : Set Refusal}

theorem pure (a : α) : Gathers I (Pure.pure a) ∅ := by
  intro s _ b s' hrun
  obtain ⟨-, rfl⟩ : a = b ∧ s = s' := Prod.mk.inj (Except.ok.inj hrun)
  exact .of_noted (Set.forall_mem_empty.mpr trivial)

theorem refuse (place : Nat) (expected : Option TokenType) :
    Gathers I (modify fun s => s.refuse place expected) {⟨place, expected⟩} := by
  intro s _ a s' hrun
  cases hrun
  exact s.gathers_refuse place expected

theorem bind {x : Search α} {f : α → Search β} {P : α → Prop} (hx : Gathers I x A)
    (hv : Ensures I x P) (hf : ∀ a, P a → Gathers I (f a) B) : Gathers I (x >>= f) (A ∪ B) := by
  intro s hs b s' hrun
  rw [StateT.run_bind] at hrun
  obtain ⟨r, hstep, hrun⟩ := bind_eq_ok.mp hrun
  obtain ⟨ha, hs₁⟩ := hv s hs r.1 r.2 hstep
  exact (hx s hs r.1 r.2 hstep).trans (hf r.1 ha r.2 hs₁ b s' hrun)

theorem map {x : Search α} (hx : Gathers I x A) (f : α → β) :
    Gathers I (x >>= fun a => Pure.pure (f a)) A := by
  intro s hs b s' hrun
  rw [StateT.run_bind] at hrun
  obtain ⟨r, hstep, hrun⟩ := bind_eq_ok.mp hrun
  cases hrun
  exact hx s hs r.1 r.2 hstep

theorem mapM {f : α → Search β} {items : List α} {A : α → Set Refusal}
    (hv : ∀ a ∈ items, Ensures I (f a) fun _ => True) (h : ∀ a ∈ items, Gathers I (f a) (A a)) :
    Gathers I (items.mapM f) (⋃ a ∈ items, A a) := by
  induction items with
  | nil =>
      simp only [List.mapM_nil, List.not_mem_nil, Set.iUnion_of_empty, Set.iUnion_empty]
      exact pure []
  | cons a rest ih =>
      simp only [List.mapM_cons, List.mem_cons, Set.iUnion_iUnion_eq_or_left]
      refine (h a List.mem_cons_self).bind (hv a List.mem_cons_self) fun b _ => ?_
      exact (ih (fun c hc => hv c (List.mem_cons_of_mem a hc)) fun c hc =>
        h c (List.mem_cons_of_mem a hc)).map (b :: ·)

end Gathers

/-! ## Visits -/

/-- What each step of a loop keeps is kept by the loop. -/
theorem of_run_foldlM {f : β → α → Search β} {items : List α} {R : β → SearchState → Prop}
    (h : ∀ a ∈ items, ∀ b s c s', R b s → (f b a).run s = .ok (c, s') → R c s') {b c : β}
    {s s' : SearchState} (hb : R b s) (hrun : (items.foldlM f b).run s = .ok (c, s')) : R c s' := by
  induction items generalizing b s with
  | nil =>
      cases hrun
      exact hb
  | cons a rest ih =>
      rw [List.foldlM_cons, StateT.run_bind] at hrun
      obtain ⟨r, hstep, hrun⟩ := bind_eq_ok.mp hrun
      exact ih (fun d hd => h d (List.mem_cons_of_mem a hd)) (h a List.mem_cons_self b s r.1 r.2 hb
        hstep) hrun

section Visits

variable {next : Branch α → Search (List (Branch α))} {greedy : Bool} {good : Branch α → Prop}
variable {refusals : Nat → Set Refusal} {s₀ : SearchState}

/-- Since some state a visit has gathered what is refused at the places that it has seen. -/
structure Gathered (I : SearchState → Prop) (refusals : Nat → Set Refusal) (s₀ : SearchState)
    (v : Visit α) (s : SearchState) : Prop where
  keeps : I s
  gathers : s₀.Gathers {r | ∃ j ∈ v.seen, r ∈ refusals j} s

/-- The induction is on the bound; the visit goes on from each place that it enters. -/
theorem visit_gathers
    (hgood : ∀ b, good b → Ensures I (next b) fun following => ∀ d ∈ following, good d)
    (hnext : ∀ b, good b → Gathers I (next b) (refusals b.stop)) {bound : Nat} {v w : Visit α}
    {b : Branch α} {s s' : SearchState} (hb : good b) (hv : Gathered I refusals s₀ v s)
    (hrun : (visit next greedy bound v b).run s = .ok (w, s')) : Gathered I refusals s₀ w s' := by
  induction bound generalizing v w b s s' with
  | zero =>
      cases hrun
      exact hv
  | succ bound ih =>
      rw [visit_succ] at hrun
      split at hrun
      · cases hrun
        exact hv
      · rw [StateT.run_bind] at hrun
        obtain ⟨⟨following, s₁⟩, hfollowing, hrun⟩ := bind_eq_ok.mp hrun
        rw [StateT.run_bind] at hrun
        obtain ⟨⟨left, s₂⟩, hleft, hrun⟩ := bind_eq_ok.mp hrun
        cases hrun
        obtain ⟨hlong, hs₁⟩ := hgood b hb s hv.keeps following s₁ hfollowing
        have hentered : Gathered I refusals s₀ (v.enter greedy b) s₁ := by
          have hseen : {r | ∃ j ∈ (v.enter greedy b).seen, r ∈ refusals j} =
              {r | ∃ j ∈ v.seen, r ∈ refusals j} ∪ refusals b.stop := by
            ext r
            simp only [Visit.mem_seen_enter, Set.mem_ofPred_eq, Set.mem_union, or_and_right,
              exists_or, exists_eq_left']
            exact or_comm
          exact ⟨hs₁, hseen ▸ hv.gathers.trans (hnext b hb s hv.keeps following s₁ hfollowing)⟩
        have hvisited : Gathered I refusals s₀ left s₂ :=
          of_run_foldlM (R := Gathered I refusals s₀)
            (fun d hd x t y t' hx hstep => ih (hlong d hd) hx hstep) hentered hleft
        refine ⟨hvisited.keeps, ?_⟩
        simpa only [Visit.seen_leave] using hvisited.gathers

variable {f : α → β} {onward all : Branch β → Option (List (Branch β))} {size : Nat}

theorem length_placed (b : Branch β) (found : List (Branch β)) :
    (placed greedy b found).length = found.length + 1 := by
  cases greedy <;> simp [placed]

theorem length_le_of_spread {ι : Type} {g : ι → Option (List (Branch β))} {items : List ι}
    {xs ys : List (Branch β)} {a : ι} (h : spread g items = some xs) (ha : a ∈ items)
    (hys : g a = some ys) : ys.length ≤ xs.length := by
  obtain ⟨front, back, rfl⟩ := List.append_of_mem ha
  rw [spread_append, spread_cons, hys, Option.bind_eq_bind, Option.bind_some] at h
  obtain ⟨us, -, h⟩ := Option.bind_eq_some_iff.mp h
  obtain ⟨vs, hvs, h⟩ := Option.bind_eq_some_iff.mp h
  obtain ⟨zs, -, hvs⟩ := Option.bind_eq_some_iff.mp hvs
  obtain rfl := Option.some.inj hvs
  obtain rfl := Option.some.inj h
  simp only [List.length_append]
  omega

/-- If going on from a branch meets what is refused at its place and what going on from the branches
that follow it meets, then in all it meets what is refused at the places that are reached. -/
theorem Unfolds.eq_refusals (hall : Unfolds greedy onward all) {meets : Branch β → Set Refusal}
    (hmeets : ∀ b following, onward b = some following →
      meets b = refusals b.stop ∪ ⋃ d ∈ following, meets d)
    {b : Branch β} {xs : List (Branch β)} (h : all b = some xs) :
    meets b = {r | ∃ j ∈ stops xs, r ∈ refusals j} := by
  induction hn : xs.length using Nat.strong_induction_on generalizing b xs with
  | _ n ih =>
      rw [hall.all_eq] at h
      obtain ⟨following, hfollowing, h⟩ := Option.bind_eq_some_iff.mp h
      obtain ⟨found, hfound, h⟩ := Option.bind_eq_some_iff.mp h
      obtain rfl := Option.some.inj h
      have hlength : found.length < n := by
        rw [← hn, length_placed]
        exact Nat.lt_succ_self _
      have hbehind : ∀ d ∈ following, ∀ ys, all d = some ys →
          meets d = {r | ∃ j ∈ stops ys, r ∈ refusals j} := fun d hd ys hys =>
        ih _ (Nat.lt_of_le_of_lt (length_le_of_spread hfound hd hys) hlength) hys rfl
      rw [hmeets b following hfollowing]
      ext r
      simp only [Set.mem_union, Set.mem_iUnion, exists_prop, Set.mem_ofPred_eq, mem_stops_placed,
        mem_stops_spread hfound, or_and_right, exists_or, exists_eq_left]
      refine or_congr Iff.rfl ⟨?_, ?_⟩
      · rintro ⟨d, hd, hr⟩
        obtain ⟨ys, hys⟩ := exists_of_spread hfound d hd
        rw [hbehind d hd ys hys] at hr
        obtain ⟨j, hj, hr⟩ := hr
        exact ⟨j, ⟨d, hd, ys, hys, hj⟩, hr⟩
      · rintro ⟨j, ⟨d, hd, ys, hys, hj⟩, hr⟩
        refine ⟨d, hd, ?_⟩
        rw [hbehind d hd ys hys]
        exact ⟨j, hj, hr⟩

/-- A visit meets what going on from all its roots meets. -/
theorem visitAll_gathers (refusals : Nat → Set Refusal) (meets : Branch β → Set Refusal)
    (hall : Unfolds greedy onward all)
    (hleads : ∀ b, good b → Ensures I (next b) (Leading f onward good size b))
    (hnext : ∀ b, good b → Gathers I (next b) (refusals b.stop))
    (hmeets : ∀ b following, onward b = some following →
      meets b = refusals b.stop ∪ ⋃ d ∈ following, meets d)
    {roots : List (Branch α)} (hroots : ∀ b ∈ roots, good b) :
    Gathers I (visitAll next greedy (size + 1) roots) (⋃ b ∈ roots, meets (b.view f)) := by
  intro s hs found s' hrun
  rw [visitAll, StateT.run_bind] at hrun
  obtain ⟨⟨w, s₁⟩, hvisits, hrun⟩ := bind_eq_ok.mp hrun
  cases hrun
  have hstart : Gathered I refusals s ({} : Visit α) s :=
    ⟨hs, .of_noted fun r ⟨j, hj, _⟩ => by simp at hj⟩
  have hgathered : Gathered I refusals s w s₁ :=
    of_run_foldlM (R := Gathered I refusals s) (fun b hb v t w t' hv hstep =>
      visit_gathers (fun b hb => (hleads b hb).mono fun _ h => h.good) hnext (hroots b hb) hv
        hstep) hstart hvisits
  obtain ⟨⟨-, xs, hxs, hadds⟩, -⟩ := roots_list hall hleads hroots s hs w s₁ hvisits
  have hmet : (⋃ b ∈ roots, meets (b.view f)) = {r | ∃ j ∈ w.seen, r ∈ refusals j} := by
    ext r
    simp only [Set.mem_iUnion, exists_prop, Set.mem_ofPred_eq, hadds.seen,
      Std.HashSet.not_mem_empty, false_or, mem_stops_spread hxs]
    constructor
    · rintro ⟨b, hb, hr⟩
      obtain ⟨ys, hys⟩ := exists_of_spread hxs _ (List.mem_map_of_mem hb)
      rw [hall.eq_refusals hmeets hys] at hr
      obtain ⟨j, hj, hr⟩ := hr
      exact ⟨j, ⟨_, List.mem_map_of_mem hb, ys, hys, hj⟩, hr⟩
    · rintro ⟨j, ⟨d, hd, ys, hys, hj⟩, hr⟩
      obtain ⟨b, hb, rfl⟩ := List.mem_map.mp hd
      refine ⟨b, hb, ?_⟩
      rw [hall.eq_refusals hmeets hys]
      exact ⟨j, hj, hr⟩
  exact hmet ▸ hgathered.gathers

end Visits

end Search

end GrammarEngine

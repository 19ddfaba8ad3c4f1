import GrammarEngine.Parser.Search
import GrammarEngine.Proofs.Search.Branches
import Mathlib.Data.List.Nodup

/-!
# Visiting places depth first

A search ensures a property under an invariant if it keeps the invariant and all its answers have
the property. Nothing is asked of a search that stops because rules nest too deep, so these are
statements about the answers that do come.

A visit goes from each branch to the longer ones that follow it and enters every place once. Three
things are known of the branches that it keeps: each place that follows a kept branch is kept, each
kept branch was reached by steps to places that were not due before, and a greedy visit keeps a
branch only after all places that follow it or that were due before it. The invariant separates the
places above a limit, all of which are finished, from the places on the way to the branch that is
being visited, none of which reaches the limit.
-/
namespace GrammarEngine.Search

/-! ## What searches ensure -/

variable {α β : Type} {I : SearchState → Prop}

/-- From a state with the invariant, an answer has the property and the invariant is kept. -/
def Ensures (I : SearchState → Prop) (x : Search α) (Q : α → Prop) : Prop :=
  ∀ s, I s → ∀ a s', x.run s = .ok (a, s') → Q a ∧ I s'

namespace Ensures

theorem pure {a : α} {Q : α → Prop} (h : Q a) : Ensures I (Pure.pure a) Q := by
  intro s hs b s' hrun
  obtain ⟨rfl, rfl⟩ : a = b ∧ s = s' := Prod.mk.inj (Except.ok.inj hrun)
  exact ⟨h, hs⟩

theorem mono {x : Search α} {P Q : α → Prop} (hx : Ensures I x P) (h : ∀ a, P a → Q a) :
    Ensures I x Q := by
  intro s hs a s' hrun
  obtain ⟨ha, hs'⟩ := hx s hs a s' hrun
  exact ⟨h a ha, hs'⟩

theorem bind {x : Search α} {f : α → Search β} {P : α → Prop} {Q : β → Prop}
    (hx : Ensures I x P) (hf : ∀ a, P a → Ensures I (f a) Q) : Ensures I (x >>= f) Q := by
  intro s hs b s' hrun
  rw [StateT.run_bind] at hrun
  cases hstep : x.run s with
  | error e =>
      rw [hstep] at hrun
      cases hrun
  | ok r =>
      rw [hstep] at hrun
      obtain ⟨ha, hs₁⟩ := hx s hs r.1 r.2 hstep
      exact hf r.1 ha r.2 hs₁ b s' hrun

theorem modify {f : SearchState → SearchState} (h : ∀ s, I s → I (f s)) :
    Ensures I (modify f : Search Unit) fun _ => True := by
  intro s hs a s' hrun
  cases hrun
  exact ⟨trivial, h s hs⟩

theorem throw {e : NestingFault} {Q : α → Prop} : Ensures I (MonadExcept.throw e : Search α) Q := by
  intro s _ a s' hrun
  cases hrun

/-- A fold keeps a relation between the items that have been used and the value so far. -/
theorem foldlM {f : β → α → Search β} {items : List α} {init : β} (R : List α → β → Prop)
    (hinit : R [] init)
    (hstep : ∀ front a back b, items = front ++ a :: back → R front b →
      Ensures I (f b a) (R (front ++ [a]))) :
    Ensures I (items.foldlM f init) (R items) := by
  suffices h : ∀ back front b, items = front ++ back → R front b →
      Ensures I (back.foldlM f b) (R items) from h items [] init rfl hinit
  intro back
  induction back with
  | nil =>
      intro front b hitems hb
      rw [List.append_nil] at hitems
      exact pure (hitems ▸ hb)
  | cons a back ih =>
      intro front b hitems hb
      rw [List.foldlM_cons]
      exact (hstep front a back b hitems hb).bind fun c hc =>
        ih (front ++ [a]) c (by rw [hitems, List.append_assoc]; rfl) hc

/-- Each answer comes from one of the items, and each item has its answer. -/
theorem mapM {f : α → Search β} {items : List α} {Q : α → β → Prop}
    (h : ∀ a ∈ items, Ensures I (f a) (Q a)) :
    Ensures I (items.mapM f) fun bs =>
      (∀ b ∈ bs, ∃ a ∈ items, Q a b) ∧ ∀ a ∈ items, ∃ b ∈ bs, Q a b := by
  induction items with
  | nil =>
      rw [List.mapM_nil]
      exact pure ⟨by simp, by simp⟩
  | cons a rest ih =>
      rw [List.mapM_cons]
      refine (h a List.mem_cons_self).bind fun b hb => ?_
      refine (ih fun c hc => h c (List.mem_cons_of_mem a hc)).bind fun bs hbs => pure ⟨?_, ?_⟩
      · intro c hc
        rcases List.mem_cons.mp hc with rfl | hc
        · exact ⟨a, List.mem_cons_self, hb⟩
        · obtain ⟨d, hd, hq⟩ := hbs.1 c hc
          exact ⟨d, List.mem_cons_of_mem a hd, hq⟩
      · intro d hd
        rcases List.mem_cons.mp hd with rfl | hd
        · exact ⟨b, List.mem_cons_self, hb⟩
        · obtain ⟨c, hc, hq⟩ := hbs.2 d hd
          exact ⟨c, List.mem_cons_of_mem b hc, hq⟩

theorem and {x : Search α} {P Q : α → Prop} (hP : Ensures I x P) (hQ : Ensures I x Q) :
    Ensures I x fun a => P a ∧ Q a := by
  intro s hs a s' hrun
  obtain ⟨ha, hs'⟩ := hP s hs a s' hrun
  exact ⟨⟨ha, (hQ s hs a s' hrun).1⟩, hs'⟩

end Ensures

end GrammarEngine.Search

/-! ## Visits -/
namespace GrammarEngine.Search

open Branch

variable {α : Type}

/-- What is known of a way of going on: which branches can follow a branch, which places are among
those that follow it, and which places come before it wherever it is found. -/
structure Course (α : Type) where
  follows : Branch α → Branch α → Prop
  ends : Branch α → Nat → Prop
  due : Branch α → Nat → Prop

namespace Course

/-- What a search for the branches that follow a branch has to answer. -/
structure Offers (c : Course α) (b : Branch α) (found : List (Branch α)) : Prop where
  follows : ∀ d ∈ found, c.follows b d
  ends : ∀ j, c.ends b j → j ∈ stops found
  ordered : Ordered c.due found

/-- Branches that follow are longer, but not beyond a bound, and belong to the same class. -/
structure Within (c : Course α) (good : Branch α → Prop) (size : Nat) : Prop where
  longer : ∀ b d, c.follows b d → b.stop < d.stop
  bounded : ∀ b d, c.follows b d → d.stop ≤ size
  due_longer : ∀ b j, c.due b j → b.stop < j
  good : ∀ b d, good b → c.follows b d → good d

/-- Branches that are reached from others by steps to places that were not due before. -/
inductive Reached (c : Course α) (roots : List (Branch α)) : Branch α → Prop
  | root {b : Branch α} : b ∈ roots → Reached c roots b
  | step {b d : Branch α} : Reached c roots b → c.follows b d → ¬ c.due b d.stop →
      Reached c roots d

/-- What is known of the branches that a visit has kept. -/
structure Explored (c : Course α) (greedy : Bool) (roots found : List (Branch α)) : Prop where
  nodup : (stops found).Nodup
  started : ∀ b ∈ roots, b.stop ∈ stops found
  reached : ∀ b ∈ found, c.Reached roots b
  closed : ∀ b ∈ found, ∀ j, c.ends b j → j ∈ stops found
  ordered : greedy = true → Ordered (fun b j => c.due b j ∨ c.ends b j) found

end Course

namespace Visit

variable {c : Course α} {greedy : Bool} {roots : List (Branch α)}

/-- The state of a visit: all places from the limit on that have been seen are finished. -/
structure Sound (c : Course α) (greedy : Bool) (roots : List (Branch α)) (limit : Nat)
    (v : Visit α) : Prop where
  nodup : (stops v.kept).Nodup
  seen_of_kept : ∀ j ∈ stops v.kept, j ∈ v.seen
  kept_of_seen : ∀ j ∈ v.seen, limit ≤ j → j ∈ stops v.kept
  reached : ∀ b ∈ v.kept, c.Reached roots b
  ordered : greedy = true → Ordered (fun b j => c.due b j ∨ c.ends b j) v.kept.reverse

/-- A later state of a visit that has since seen places from some place on only. -/
structure Grows (c : Course α) (place : Nat) (v w : Visit α) : Prop where
  seen : ∀ j ∈ v.seen, j ∈ w.seen
  fresh : ∀ j ∈ w.seen, j ∈ v.seen ∨ place ≤ j
  kept : ∀ b ∈ v.kept, b ∈ w.kept
  closed : ∀ b ∈ w.kept, b ∈ v.kept ∨ place ≤ b.stop ∧ ∀ j, c.ends b j → j ∈ w.seen

theorem Grows.refl (place : Nat) (v : Visit α) : Grows c place v v :=
  ⟨fun _ h => h, fun _ h => .inl h, fun _ h => h, fun _ h => .inl h⟩

theorem Grows.trans {place place' : Nat} {u v w : Visit α} (huv : Grows c place u v)
    (hvw : Grows c place' v w) (hle : place ≤ place') : Grows c place u w := by
  refine ⟨fun j h => hvw.seen j (huv.seen j h), fun j h => ?_, fun b h => hvw.kept b (huv.kept b h),
    fun b h => ?_⟩
  · rcases hvw.fresh j h with h | h
    · exact huv.fresh j h
    · exact .inr (Nat.le_trans hle h)
  · rcases hvw.closed b h with h | ⟨hb, hj⟩
    · rcases huv.closed b h with h | ⟨hb, hj⟩
      · exact .inl h
      · exact .inr ⟨hb, fun j he => hvw.seen j (hj j he)⟩
    · exact .inr ⟨Nat.le_trans hle hb, hj⟩

/-- The state in which a visit enters a branch. -/
def enter (greedy : Bool) (v : Visit α) (b : Branch α) : Visit α :=
  ⟨v.seen.insert b.stop, if greedy then v.kept else b :: v.kept⟩

/-- The state in which a visit leaves a branch. -/
def leave (greedy : Bool) (v : Visit α) (b : Branch α) : Visit α :=
  if greedy then { v with kept := b :: v.kept } else v

@[simp] theorem mem_seen_enter {v : Visit α} {b : Branch α} {j : Nat} :
    j ∈ (v.enter greedy b).seen ↔ b.stop = j ∨ j ∈ v.seen := by
  simp [enter, Std.HashSet.mem_insert]

@[simp] theorem seen_leave (v : Visit α) (b : Branch α) : (v.leave greedy b).seen = v.seen := by
  unfold leave
  split <;> rfl

theorem mem_kept_leave {v : Visit α} {b d : Branch α} :
    d ∈ (v.leave greedy b).kept ↔ greedy = true ∧ d = b ∨ d ∈ v.kept := by
  cases greedy <;> simp [leave]

theorem mem_kept_enter {v : Visit α} {b d : Branch α} :
    d ∈ (v.enter greedy b).kept ↔ greedy = false ∧ d = b ∨ d ∈ v.kept := by
  cases greedy <;> simp [enter]

theorem not_mem_stops_of_not_seen {limit : Nat} {v : Visit α} {b : Branch α}
    (hv : Sound c greedy roots limit v) (hb : b.stop ∉ v.seen) : b.stop ∉ stops v.kept :=
  fun h => hb (hv.seen_of_kept b.stop h)

/-- Entering a branch raises the limit above its place. -/
theorem Sound.enter {limit : Nat} {v : Visit α} {b : Branch α}
    (hv : Sound c greedy roots limit v) (hlimit : limit ≤ b.stop) (hb : b.stop ∉ v.seen)
    (hreached : c.Reached roots b) : Sound c greedy roots (b.stop + 1) (v.enter greedy b) := by
  have hfinished : ∀ j ∈ (v.enter greedy b).seen, b.stop + 1 ≤ j → j ∈ stops v.kept := by
    intro j hj hlong
    rcases mem_seen_enter.mp hj with rfl | hj
    · omega
    · exact hv.kept_of_seen j hj (by omega)
  cases greedy with
  | true =>
      exact ⟨hv.nodup, fun j hj => mem_seen_enter.mpr (.inr (hv.seen_of_kept j hj)), hfinished,
        hv.reached, hv.ordered⟩
  | false =>
      refine ⟨?_, fun j hj => mem_seen_enter.mpr ?_, fun j hj hlong => ?_, fun d hd => ?_, nofun⟩
      · exact List.nodup_cons.mpr ⟨not_mem_stops_of_not_seen hv hb, hv.nodup⟩
      · rcases List.mem_cons.mp hj with rfl | hj
        · exact .inl rfl
        · exact .inr (hv.seen_of_kept j hj)
      · exact List.mem_cons_of_mem b.stop (hfinished j hj hlong)
      · rcases mem_kept_enter.mp hd with ⟨-, rfl⟩ | hd
        · exact hreached
        · exact hv.reached d hd

/-- Leaving a branch lowers the limit again: all that follows the branch is finished. -/
theorem Sound.leave {limit : Nat} {v w : Visit α} {b : Branch α}
    (hv : Sound c greedy roots limit v) (hlimit : limit ≤ b.stop) (hb : b.stop ∉ v.seen)
    (hreached : c.Reached roots b) (hdue : ∀ j, c.due b j → j ∈ v.seen ∧ b.stop < j)
    (hends : ∀ j, c.ends b j → j ∈ w.seen ∧ b.stop < j)
    (hw : Sound c greedy roots (b.stop + 1) w)
    (hgrows : Grows c (b.stop + 1) (v.enter greedy b) w) :
    Sound c greedy roots limit (w.leave greedy b) := by
  have hold : ∀ j ∈ stops v.kept, j ∈ stops w.kept := by
    intro j hj
    obtain ⟨d, hd, rfl⟩ := mem_stops.mp hj
    exact mem_stops_of_mem (hgrows.kept d (mem_kept_enter.mpr (.inr hd)))
  have hfinished : ∀ j ∈ w.seen, limit ≤ j → b.stop = j ∨ j ∈ stops w.kept := by
    intro j hj hle
    rcases hgrows.fresh j hj with hj | hlong
    · rcases mem_seen_enter.mp hj with he | hj
      · exact .inl he
      · exact .inr (hold j (hv.kept_of_seen j hj hle))
    · exact .inr (hw.kept_of_seen j hj hlong)
  have hseen : b.stop ∈ w.seen := hgrows.seen b.stop (mem_seen_enter.mpr (.inl rfl))
  cases greedy with
  | false =>
      refine ⟨hw.nodup, hw.seen_of_kept, fun j hj hle => ?_, hw.reached, nofun⟩
      rcases hfinished j hj hle with rfl | hj
      · exact mem_stops_of_mem (hgrows.kept b (mem_kept_enter.mpr (.inl ⟨rfl, rfl⟩)))
      · exact hj
  | true =>
      have hnew : b.stop ∉ stops w.kept := by
        intro hmem
        obtain ⟨d, hd, hstop⟩ := mem_stops.mp hmem
        rcases hgrows.closed d hd with hd | ⟨hlong, -⟩
        · exact not_mem_stops_of_not_seen hv hb (hstop ▸ mem_stops_of_mem hd)
        · omega
      refine ⟨List.nodup_cons.mpr ⟨hnew, hw.nodup⟩, fun j hj => ?_, fun j hj hle => ?_,
        fun d hd => ?_, fun _ => ?_⟩
      · rcases List.mem_cons.mp hj with rfl | hj
        · exact hseen
        · exact hw.seen_of_kept j hj
      · rcases hfinished j hj hle with rfl | hj
        · exact List.mem_cons_self
        · exact List.mem_cons_of_mem b.stop hj
      · rcases mem_kept_leave.mp hd with ⟨-, rfl⟩ | hd
        · exact hreached
        · exact hw.reached d hd
      · change Ordered _ (b :: w.kept).reverse
        rw [List.reverse_cons]
        refine (hw.ordered rfl).concat fun j hj => ?_
        rw [stops_reverse, List.mem_reverse]
        rcases hj with hj | hj
        · obtain ⟨hs, hlong⟩ := hdue j hj
          exact hold j (hv.kept_of_seen j hs (by omega))
        · obtain ⟨hs, hlong⟩ := hends j hj
          exact hw.kept_of_seen j hs hlong

theorem Grows.enter_leave {v w : Visit α} {b : Branch α}
    (hends : ∀ j, c.ends b j → j ∈ w.seen)
    (hgrows : Grows c (b.stop + 1) (v.enter greedy b) w) :
    Grows c b.stop v (w.leave greedy b) := by
  refine ⟨fun j hj => ?_, fun j hj => ?_, fun d hd => ?_, fun d hd => ?_⟩
  · rw [seen_leave]
    exact hgrows.seen j (mem_seen_enter.mpr (.inr hj))
  · rw [seen_leave] at hj
    rcases hgrows.fresh j hj with hj | hlong
    · rcases mem_seen_enter.mp hj with he | hj
      · exact .inr (Nat.le_of_eq he)
      · exact .inl hj
    · exact .inr (by omega)
  · exact mem_kept_leave.mpr (.inr (hgrows.kept d (mem_kept_enter.mpr (.inr hd))))
  · rw [seen_leave]
    rcases mem_kept_leave.mp hd with ⟨-, rfl⟩ | hd
    · exact .inr ⟨Nat.le_refl _, hends⟩
    · rcases hgrows.closed d hd with hd | ⟨hlong, hj⟩
      · rcases mem_kept_enter.mp hd with ⟨-, rfl⟩ | hd
        · exact .inr ⟨Nat.le_refl _, hends⟩
        · exact .inl hd
      · exact .inr ⟨by omega, hj⟩

/-- The state after a visit has been to some branches. -/
structure After (c : Course α) (greedy : Bool) (roots : List (Branch α)) (limit : Nat)
    (v : Visit α) (visited : List (Branch α)) (w : Visit α) : Prop where
  sound : Sound c greedy roots limit w
  grows : Grows c limit v w
  seen : ∀ b ∈ visited, b.stop ∈ w.seen

theorem After.concat {limit : Nat} {v w x : Visit α} {visited : List (Branch α)} {b : Branch α}
    (hw : After c greedy roots limit v visited w) (hlimit : limit ≤ b.stop)
    (hx : Sound c greedy roots limit x) (hgrows : Grows c b.stop w x) (hb : b.stop ∈ x.seen) :
    After c greedy roots limit v (visited ++ [b]) x := by
  refine ⟨hx, hw.grows.trans hgrows hlimit, fun d hd => ?_⟩
  rcases List.mem_append.mp hd with hd | hd
  · exact hgrows.seen d.stop (hw.seen d hd)
  · rw [List.mem_singleton.mp hd]
    exact hb

end Visit

variable {I : SearchState → Prop} {next : Branch α → Search (List (Branch α))} {greedy : Bool}
variable {c : Course α} {good : Branch α → Prop} {size : Nat} {roots : List (Branch α)}

open Visit

theorem visit_succ (next : Branch α → Search (List (Branch α))) (greedy : Bool) (bound : Nat)
    (v : Visit α) (b : Branch α) :
    visit next greedy (bound + 1) v b =
      if v.seen.contains b.stop then pure v
      else next b >>= fun following =>
        following.foldlM (visit next greedy bound) (v.enter greedy b) >>= fun left =>
          pure (left.leave greedy b) := rfl

/-- Visits to branches in a row, from what a visit to one of them ensures. -/
theorem visits_ensures {bound limit : Nat} {v : Visit α} {bs : List (Branch α)}
    (hv : Sound c greedy roots limit v) (hordered : Ordered c.due bs)
    (hlimit : ∀ b ∈ bs, limit ≤ b.stop)
    (hreached : ∀ b ∈ bs, b.stop ∉ v.seen → c.Reached roots b)
    (hvisit : ∀ b ∈ bs, ∀ w, Sound c greedy roots limit w → (∀ j, c.due b j → j ∈ w.seen) →
      (b.stop ∉ w.seen → c.Reached roots b) →
      Ensures I (visit next greedy bound w b) fun x =>
        Sound c greedy roots limit x ∧ Grows c b.stop w x ∧ b.stop ∈ x.seen) :
    Ensures I (bs.foldlM (visit next greedy bound) v) (After c greedy roots limit v bs) := by
  refine Ensures.foldlM (After c greedy roots limit v) ⟨hv, .refl limit v, by simp⟩ ?_
  intro front b back w hsplit hw
  have hmem : b ∈ bs := by simp [hsplit]
  refine (hvisit b hmem w hw.sound (fun j hj => ?_) (fun hb => ?_)).mono ?_
  · obtain ⟨d, hd, rfl⟩ := mem_stops.mp (hordered front b back hsplit j hj)
    exact hw.seen d hd
  · exact hreached b hmem fun h => hb (hw.grows.seen b.stop h)
  · intro x ⟨hx, hgrows, hb⟩
    exact hw.concat (hlimit b hmem) hx hgrows hb

/-- The induction is on the bound; that branches grow keeps it from being met. -/
theorem visit_ensures (hc : c.Within good size)
    (hnext : ∀ b, good b → Ensures I (next b) (c.Offers b)) {bound : Nat} {v : Visit α}
    {b : Branch α} {limit : Nat} (hbound : 0 < bound) (hsize : size < bound + b.stop)
    (hgood : good b) (hlimit : limit ≤ b.stop) (hv : Sound c greedy roots limit v)
    (hdue : ∀ j, c.due b j → j ∈ v.seen) (hreached : b.stop ∉ v.seen → c.Reached roots b) :
    Ensures I (visit next greedy bound v b) fun w =>
      Sound c greedy roots limit w ∧ Grows c b.stop v w ∧ b.stop ∈ w.seen := by
  induction bound generalizing v b limit with
  | zero => omega
  | succ bound ih =>
      rw [visit_succ]
      split
      · next h => exact .pure ⟨hv, .refl b.stop v, Std.HashSet.contains_iff_mem.mp h⟩
      · next h =>
        have hb : b.stop ∉ v.seen := fun hs => h (Std.HashSet.contains_iff_mem.mpr hs)
        have hr := hreached hb
        refine (hnext b hgood).bind fun following hoffers => ?_
        have hlonger : ∀ d ∈ following, b.stop < d.stop :=
          fun d hd => hc.longer b d (hoffers.follows d hd)
        refine Ensures.bind (P := After c greedy roots (b.stop + 1) (v.enter greedy b) following)
          (visits_ensures (hv.enter hlimit hb hr) hoffers.ordered hlonger ?_ ?_) ?_
        · -- a place that was due before has been seen
          intro d hd hnew
          refine hr.step (hoffers.follows d hd) fun hdue' => hnew ?_
          exact mem_seen_enter.mpr (.inr (hdue d.stop hdue'))
        · intro d hd w hw hdue' hreached'
          have hfollows := hoffers.follows d hd
          have hmax := hc.bounded b d hfollows
          have hlong := hlonger d hd
          exact ih (by omega) (by omega) (hc.good b d hgood hfollows) hlong hw hdue' hreached'
        · intro w hw
          have hends : ∀ j, c.ends b j → j ∈ w.seen ∧ b.stop < j := by
            intro j hj
            obtain ⟨d, hd, rfl⟩ := mem_stops.mp (hoffers.ends j hj)
            exact ⟨hw.seen d hd, hlonger d hd⟩
          refine .pure ⟨?_, hw.grows.enter_leave fun j hj => (hends j hj).1, ?_⟩
          · exact hv.leave hlimit hb hr (fun j hj => ⟨hdue j hj, hc.due_longer b j hj⟩) hends
              hw.sound hw.grows
          · rw [seen_leave]
            exact hw.grows.seen b.stop (mem_seen_enter.mpr (.inl rfl))

theorem visitAll_ensures (hc : c.Within good size)
    (hnext : ∀ b, good b → Ensures I (next b) (c.Offers b)) (hgood : ∀ b ∈ roots, good b)
    (hordered : Ordered c.due roots) :
    Ensures I (visitAll next greedy (size + 1) roots) (c.Explored greedy roots) := by
  have hstart : Sound c greedy roots 0 ({} : Visit α) :=
    ⟨List.nodup_nil, by simp, by simp, by simp, fun _ => .nil⟩
  refine Ensures.bind (P := After c greedy roots 0 {} roots) (visits_ensures hstart hordered
    (fun _ _ => Nat.zero_le _) (fun b hb _ => .root hb) ?_) ?_
  · intro b hb w hw hdue hreached
    exact visit_ensures hc hnext (by omega) (by omega) (hgood b hb) (Nat.zero_le _) hw hdue hreached
  · intro w hw
    refine .pure ⟨?_, fun b hb => ?_, fun b hb => ?_, fun b hb j hj => ?_, hw.sound.ordered⟩
    · rw [stops_reverse]
      exact List.nodup_reverse.mpr hw.sound.nodup
    · rw [stops_reverse, List.mem_reverse]
      exact hw.sound.kept_of_seen b.stop (hw.seen b hb) (Nat.zero_le _)
    · exact hw.sound.reached b (List.mem_reverse.mp hb)
    · rw [stops_reverse, List.mem_reverse]
      rcases hw.grows.closed b (List.mem_reverse.mp hb) with h | ⟨-, h⟩
      · simp at h
      · exact hw.sound.kept_of_seen j (h j hj) (Nat.zero_le _)

end GrammarEngine.Search

import GrammarEngine.Proofs.Search.Firsts
import GrammarEngine.Proofs.Search.Visit

/-!
# What a visit keeps

Without a set of visited places, going on from a branch in all ways lists the branch with everything
that is reached from it: behind it if later places are preferred, else in front. A visit keeps the
first branches of this list. Wherever it stops at a place that it has seen, all that the place leads
to has been kept already or is on the way, because each branch is followed by longer ones only.
-/
namespace GrammarEngine

variable {α β : Type} {f : α → β} {greedy : Bool}

namespace Branch

/-- A branch with what is reached from it. -/
def placed (greedy : Bool) (b : Branch β) (found : List (Branch β)) : List (Branch β) :=
  if greedy then found ++ [b] else b :: found

@[simp] theorem mem_stops_placed {b : Branch β} {found : List (Branch β)} {j : Nat} :
    j ∈ stops (placed greedy b found) ↔ j = b.stop ∨ j ∈ stops found := by
  cases greedy
  · simp [placed]
  · simp [placed, or_comm]

theorem stops_placed {b c : Branch β} {xs ys : List (Branch β)} (hstop : b.stop = c.stop)
    (h : stops xs = stops ys) : stops (placed greedy b xs) = stops (placed greedy c ys) := by
  cases greedy
  · simp [placed, hstop, h]
  · simp [placed, hstop, h]

end Branch

namespace Search

open Branch Visit

/-- All that is reached from a branch is the branch itself with all that is reached from the longer
branches that follow it. How far these reach depends on the place of the branch only. -/
structure Unfolds (greedy : Bool) (onward all : Branch β → Option (List (Branch β))) : Prop where
  all_eq : ∀ b, all b = do
    let following ← onward b
    let found ← spread all following
    return placed greedy b found
  longer : ∀ b following, onward b = some following → ∀ d ∈ following, b.stop < d.stop
  alike : ∀ b c, b.stop = c.stop → (onward b).map stops = (onward c).map stops

variable {onward all : Branch β → Option (List (Branch β))}

theorem Unfolds.of_onward (h : Unfolds greedy onward all) {b : Branch β}
    {following found : List (Branch β)} (hfollowing : onward b = some following)
    (hfound : spread all following = some found) : all b = some (placed greedy b found) := by
  rw [h.all_eq, hfollowing, Option.bind_eq_bind, Option.bind_some, hfound]
  rfl

/-- Everything that is reached from a branch contains it. -/
theorem Unfolds.self_mem (h : Unfolds greedy onward all) {b : Branch β} {xs : List (Branch β)}
    (hxs : all b = some xs) : b.stop ∈ stops xs := by
  rw [h.all_eq] at hxs
  obtain ⟨following, -, hxs⟩ := Option.bind_eq_some_iff.mp hxs
  obtain ⟨found, -, hxs⟩ := Option.bind_eq_some_iff.mp hxs
  obtain rfl := Option.some.inj hxs
  exact mem_stops_placed.mpr (.inl rfl)

/-- If it is known what is reached from the places that follow a branch, it is known what is reached
from its own place. -/
theorem Unfolds.uniform (h : Unfolds greedy onward all) {b : Branch β}
    {following found : List (Branch β)} (hfollowing : onward b = some following)
    (hfound : spread all following = some found)
    (huniform : ∀ j ∈ stops following, ∃ ends, Uniform all j ends) :
    Uniform all b.stop (stops (placed greedy b found)) := by
  intro c hc
  have halike := h.alike b c hc.symm
  rw [hfollowing, Option.map_some] at halike
  obtain ⟨following', hfollowing', hstops⟩ := Option.map_eq_some_iff.mp halike.symm
  obtain ⟨xs, ys, hxs, hys, hsame⟩ := exists_spread_of_stops_eq hstops.symm huniform
  obtain rfl := Option.some.inj (hfound.symm.trans hxs)
  exact ⟨_, h.of_onward hfollowing' hys, (stops_placed hc.symm hsame).symm⟩

/-! ## Settled places -/

/-- All that is reached from places that have been seen, from a limit on, has been seen. -/
def Settled (all : Branch β → Option (List (Branch β))) (limit : Nat) (seen : Std.HashSet Nat) :
    Prop :=
  ∀ j ∈ seen, limit ≤ j → ∃ ends, Uniform all j ends ∧ ∀ k ∈ ends, k ∈ seen ∧ j ≤ k

variable {limit : Nat} {u v w : Visit α} {b : Branch α} {xs ys : List (Branch β)}

theorem Settled.enter (h : Settled all limit v.seen) (hlimit : limit ≤ b.stop) :
    Settled all (b.stop + 1) (v.enter greedy b).seen := by
  intro j hj hlong
  rcases mem_seen_enter.mp hj with rfl | hj
  · omega
  · obtain ⟨ends, huniform, hends⟩ := h j hj (by omega)
    exact ⟨ends, huniform, fun k hk => ⟨mem_seen_enter.mpr (.inr (hends k hk).1), (hends k hk).2⟩⟩

/-- Once the place of a branch is settled with all longer ones, so are the places before. -/
theorem Settled.leave (hv : Settled all limit v.seen) (hw : Settled all (b.stop + 1) w.seen)
    (hsub : ∀ j ∈ v.seen, j ∈ w.seen) (hnew : ∀ j ∈ w.seen, j ∈ v.seen ∨ b.stop ≤ j)
    (hb : ∃ ends, Uniform all b.stop ends ∧ ∀ k ∈ ends, k ∈ w.seen ∧ b.stop ≤ k) :
    Settled all limit w.seen := by
  intro j hj hlimit
  rcases hnew j hj with hold | hle
  · obtain ⟨ends, huniform, hends⟩ := hv j hold hlimit
    exact ⟨ends, huniform, fun k hk => ⟨hsub k (hends k hk).1, (hends k hk).2⟩⟩
  · rcases Nat.lt_or_eq_of_le hle with hlt | rfl
    · exact hw j hj hlt
    · exact hb

/-! ## What is added -/

/-- A later state of a visit that keeps, in addition, the first branches of a list. -/
structure Adds (f : α → β) (v : Visit α) (xs : List (Branch β)) (w : Visit α) : Prop where
  kept : w.kept.map (view f) = (keepFirst v.seen xs).reverse ++ v.kept.map (view f)
  seen : ∀ j, j ∈ w.seen ↔ j ∈ v.seen ∨ j ∈ stops xs

theorem Adds.nil : Adds f v [] v := ⟨rfl, by simp⟩

theorem Adds.append (huv : Adds f u xs v) (hvw : Adds f v ys w) : Adds f u (xs ++ ys) w := by
  refine ⟨?_, fun j => ?_⟩
  · rw [hvw.kept, huv.kept, keepFirst_append huv.seen, List.reverse_append, List.append_assoc]
  · rw [hvw.seen, huv.seen, stops_append, List.mem_append, or_assoc]

/-- Nothing is added by what has been seen. -/
theorem Adds.of_seen (h : ∀ j ∈ stops xs, j ∈ v.seen) : Adds f v xs v := by
  refine ⟨by rw [keepFirst_eq_nil h]; rfl, fun j => ⟨.inl, fun hj => hj.elim id (h j)⟩⟩

theorem Adds.congr (h : Adds f v xs w) (hfirsts : SameFirsts xs ys) : Adds f v ys w := by
  refine ⟨by rw [h.kept, hfirsts.keepFirst_eq], fun j => ?_⟩
  rw [h.seen, hfirsts.mem_stops]

/-- The branch that is visited goes before or behind what is reached from it. -/
theorem Adds.enter_leave (hb : b.stop ∉ v.seen) (hxs : b.stop ∉ stops xs)
    (h : Adds f (v.enter greedy b) xs w) :
    Adds f v (placed greedy (b.view f) xs) (w.leave greedy b) := by
  have hwithout : keepFirst (v.seen.insert b.stop) xs = keepFirst v.seen xs := by
    refine keepFirst_congr fun j hj => ?_
    have hne : b.stop ≠ j := fun he => hxs (he ▸ hj)
    simp [Std.HashSet.mem_insert, hne]
  have hkept := h.kept
  refine ⟨?_, fun j => ?_⟩
  · cases greedy with
    | true =>
        have hlast : keepFirst v.seen (xs ++ [b.view f]) = keepFirst v.seen xs ++ [b.view f] := by
          rw [keepFirst_append fun _ => mem_pass, keepFirst_cons_of_not_mem]
          · rfl
          · rw [mem_pass]
            exact fun hmem => hmem.elim hb hxs
        change (b :: w.kept).map (view f) = (keepFirst v.seen (xs ++ [b.view f])).reverse ++ _
        rw [List.map_cons, hkept, hlast, List.reverse_append]
        change _ :: ((keepFirst (v.seen.insert b.stop) xs).reverse ++ _) = _
        rw [hwithout]
        rfl
    | false =>
        change w.kept.map (view f) = (keepFirst v.seen (b.view f :: xs)).reverse ++ _
        rw [hkept, keepFirst_cons_of_not_mem (b := b.view f) hb, List.reverse_cons,
          List.append_assoc]
        rfl
  · rw [seen_leave, h.seen, mem_seen_enter, mem_stops_placed, stop_view, eq_comm (a := j)]
    tauto

/-! ## Visits -/

variable {I : SearchState → Prop} {next : Branch α → Search (List (Branch α))}
variable {good : Branch α → Prop} {size : Nat}

/-- What a search for the branches that follow a branch has to answer: branches up to a bound that
belong to the same class, and the first ones of all that follow. -/
structure Leading (f : α → β) (onward : Branch β → Option (List (Branch β)))
    (good : Branch α → Prop) (size : Nat) (b : Branch α) (found : List (Branch α)) : Prop where
  good : ∀ d ∈ found, good d
  bounded : ∀ d ∈ found, d.stop ≤ size
  firsts : FirstsOf f (onward (b.view f)) found

/-- The state after a visit has been to some branches. -/
structure Listed (f : α → β) (all : Branch β → Option (List (Branch β))) (limit : Nat)
    (v : Visit α) (visited : List (Branch α)) (w : Visit α) : Prop where
  settled : Settled all limit w.seen
  adds : ∃ xs, spread all (visited.map (view f)) = some xs ∧ Adds f v xs w

theorem visits_list {bound : Nat} {bs : List (Branch α)} (hv : Settled all limit v.seen)
    (hvisit : ∀ b ∈ bs, ∀ w, Settled all limit w.seen →
      Ensures I (visit next greedy bound w b) (Listed f all limit w [b])) :
    Ensures I (bs.foldlM (visit next greedy bound) v) (Listed f all limit v bs) := by
  refine Ensures.foldlM (Listed f all limit v) ⟨hv, [], rfl, .nil⟩ ?_
  intro front b back w hsplit hw
  refine (hvisit b (by simp [hsplit]) w hw.settled).mono fun x hx => ?_
  obtain ⟨xs, hxs, hadds⟩ := hw.adds
  obtain ⟨ys, hys, hadds'⟩ := hx.adds
  refine ⟨hx.settled, xs ++ ys, ?_, hadds.append hadds'⟩
  rw [List.map_append, spread_append, hxs, hys]
  rfl

/-- What the visits to the branches that follow a branch amount to for the branch itself. -/
theorem Listed.leave (hall : Unfolds greedy onward all) {found : List (Branch α)}
    {following : List (Branch β)} (hb : b.stop ∉ v.seen)
    (hv : Settled all limit v.seen) (hfollowing : onward (b.view f) = some following)
    (hfirsts : SameFirsts (found.map (view f)) following)
    (hw : Listed f all (b.stop + 1) (v.enter greedy b) found w) :
    Listed f all limit v [b] (w.leave greedy b) := by
  obtain ⟨xs, hxs, hadds⟩ := hw.adds
  have hlonger : ∀ j ∈ stops (found.map (view f)), b.stop < j := by
    intro j hj
    obtain ⟨d, hd, rfl⟩ := mem_stops.mp (hfirsts.mem_stops.mp hj)
    exact hall.longer _ _ hfollowing d hd
  have hseen : ∀ j ∈ stops (found.map (view f)), j ∈ w.seen := by
    intro j hj
    obtain ⟨d, hd, rfl⟩ := mem_stops.mp hj
    obtain ⟨ys, hys⟩ := exists_of_spread hxs d hd
    exact (hadds.seen _).mpr (.inr ((mem_stops_spread hxs).mpr ⟨d, hd, ys, hys, hall.self_mem hys⟩))
  have huniform : ∀ j ∈ stops (found.map (view f)),
      ∃ ends, Uniform all j ends ∧ ∀ k ∈ ends, k ∈ w.seen ∧ j ≤ k :=
    fun j hj => hw.settled j (hseen j hj) (hlonger j hj)
  have hbehind : ∀ j ∈ stops xs, b.stop < j := by
    intro j hj
    obtain ⟨d, hd, ys, hys, hj⟩ := (mem_stops_spread hxs).mp hj
    obtain ⟨ends, hends, hle⟩ := huniform d.stop (mem_stops_of_mem hd)
    obtain ⟨zs, hzs, rfl⟩ := hends d rfl
    obtain rfl := Option.some.inj (hys.symm.trans hzs)
    exact Nat.lt_of_lt_of_le (hlonger d.stop (mem_stops_of_mem hd)) (hle j hj).2
  obtain ⟨ys, hys, hsame⟩ := hfirsts.spread (fun j hj => (huniform j hj).imp fun _ h => h.1) hxs
  have hself := hall.of_onward hfollowing hys
  have hnot : b.stop ∉ stops ys := fun h =>
    Nat.lt_irrefl _ (hbehind b.stop (hsame.mem_stops.mpr h))
  have hadded := (hadds.congr hsame).enter_leave hb hnot
  refine ⟨?_, placed greedy (b.view f) ys, ?_, hadded⟩
  · rw [seen_leave]
    refine hv.leave hw.settled (fun j hj => ?_) (fun j hj => ?_) ?_
    · exact (hadds.seen j).mpr (.inl (mem_seen_enter.mpr (.inr hj)))
    · rcases (hadds.seen j).mp hj with hj | hj
      · exact (mem_seen_enter.mp hj).symm.imp id Nat.le_of_eq
      · exact .inr (Nat.le_of_lt (hbehind j hj))
    · refine ⟨_, hall.uniform hfollowing hys fun j hj => ?_, fun k hk => ?_⟩
      · exact (huniform j (hfirsts.mem_stops.mpr hj)).imp fun _ h => h.1
      · rcases mem_stops_placed.mp hk with rfl | hk
        · exact ⟨(hadds.seen _).mpr (.inl (mem_seen_enter.mpr (.inl rfl))), Nat.le_refl _⟩
        · have hk' := hsame.mem_stops.mpr hk
          exact ⟨(hadds.seen k).mpr (.inr hk'), Nat.le_of_lt (hbehind k hk')⟩
  · rw [List.map_singleton, spread_cons, hself]
    simp

/-- The induction is on the bound; that branches grow keeps it from being met. -/
theorem visit_lists (hall : Unfolds greedy onward all)
    (hnext : ∀ b, good b → Ensures I (next b) (Leading f onward good size b)) {bound : Nat}
    (hbound : 0 < bound) (hsize : size < bound + b.stop) (hgood : good b) (hlimit : limit ≤ b.stop)
    (hv : Settled all limit v.seen) :
    Ensures I (visit next greedy bound v b) (Listed f all limit v [b]) := by
  induction bound generalizing v b limit with
  | zero => omega
  | succ bound ih =>
      rw [visit_succ]
      split
      · next h =>
        obtain ⟨ends, hends, hseen⟩ := hv b.stop (Std.HashSet.contains_iff_mem.mp h) hlimit
        obtain ⟨xs, hxs, rfl⟩ := hends (b.view f) rfl
        refine .pure ⟨hv, xs, ?_, .of_seen fun j hj => (hseen j hj).1⟩
        rw [List.map_singleton, spread_cons, hxs]
        simp
      · next h =>
        have hb : b.stop ∉ v.seen := fun hs => h (Std.HashSet.contains_iff_mem.mpr hs)
        refine (hnext b hgood).bind fun found hfound => ?_
        obtain ⟨following, hfollowing, hfirsts⟩ := hfound.firsts
        have hlonger : ∀ d ∈ found, b.stop < d.stop := by
          intro d hd
          obtain ⟨e, he, hstop⟩ := mem_stops.mp
            (hfirsts.mem_stops.mp (mem_stops_of_mem (List.mem_map_of_mem (f := view f) hd)))
          exact hstop ▸ hall.longer _ _ hfollowing e he
        refine Ensures.bind (P := Listed f all (b.stop + 1) (v.enter greedy b) found)
          (visits_list (hv.enter hlimit) fun d hd w hw => ?_)
          fun w hw => .pure (hw.leave hall hb hv hfollowing hfirsts)
        have hmax := hfound.bounded d hd
        have hlong := hlonger d hd
        exact ih (by omega) (by omega) (hfound.good d hd) hlong hw

/-- Visits to some branches, one after the other, list all that is reached from them. -/
theorem roots_list (hall : Unfolds greedy onward all)
    (hnext : ∀ b, good b → Ensures I (next b) (Leading f onward good size b))
    {roots : List (Branch α)} (hgood : ∀ b ∈ roots, good b) :
    Ensures I (roots.foldlM (visit next greedy (size + 1)) {}) (Listed f all 0 {} roots) := by
  have hstart : Settled all 0 ({} : Visit α).seen := fun j hj => by simp at hj
  refine visits_list hstart fun b hb w hw => ?_
  exact visit_lists hall hnext (by omega) (by omega) (hgood b hb) (Nat.zero_le _) hw

/-- A visit from some branches keeps the first branches of all that is reached from them, or from
any that have the same first ones. -/
theorem visitAll_lists (hall : Unfolds greedy onward all)
    (hnext : ∀ b, good b → Ensures I (next b) (Leading f onward good size b))
    {roots : List (Branch α)} {seeds : List (Branch β)} (hgood : ∀ b ∈ roots, good b)
    (hseeds : SameFirsts (roots.map (view f)) seeds) :
    Ensures I (visitAll next greedy (size + 1) roots) (FirstsOf f (spread all seeds)) := by
  refine (roots_list hall hnext hgood).bind fun w hw => ?_
  obtain ⟨xs, hxs, hadds⟩ := hw.adds
  have huniform : ∀ j ∈ stops (roots.map (view f)), ∃ ends, Uniform all j ends := by
    intro j hj
    obtain ⟨d, hd, rfl⟩ := mem_stops.mp hj
    obtain ⟨ys, hys⟩ := exists_of_spread hxs d hd
    have hmem := (mem_stops_spread hxs).mpr ⟨d, hd, ys, hys, hall.self_mem hys⟩
    exact (hw.settled _ ((hadds.seen _).mpr (.inr hmem)) (Nat.zero_le _)).imp fun _ h => h.1
  obtain ⟨ys, hys, hsame⟩ := hseeds.spread huniform hxs
  refine .pure ⟨ys, hys, ?_⟩
  rw [List.map_reverse, hadds.kept, List.map_nil, List.append_nil, List.reverse_reverse]
  exact (SameFirsts.of_distinct xs).trans hsame

end Search

end GrammarEngine

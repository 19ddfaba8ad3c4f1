import GrammarEngine.Parser.Search

/-!
# Places of branches

Dropping the later branches of every place leaves each place once and in the order in which the
places were first reached. A list of branches is ordered by a demand if whatever place a branch
demands is reached by an earlier branch; joining, dropping and selecting longer branches keep such
an order.
-/
namespace GrammarEngine.Branch

variable {α β : Type}

/-- The places at which branches end. -/
def stops (bs : List (Branch α)) : List Nat := bs.map Branch.stop

@[simp] theorem stops_nil : stops ([] : List (Branch α)) = [] := rfl

@[simp] theorem stops_cons (b : Branch α) (bs : List (Branch α)) :
    stops (b :: bs) = b.stop :: stops bs := rfl

@[simp] theorem stops_append (bs cs : List (Branch α)) :
    stops (bs ++ cs) = stops bs ++ stops cs := List.map_append

@[simp] theorem stops_reverse (bs : List (Branch α)) :
    stops bs.reverse = (stops bs).reverse := List.map_reverse

theorem mem_stops {bs : List (Branch α)} {j : Nat} :
    j ∈ stops bs ↔ ∃ b ∈ bs, b.stop = j := List.mem_map

theorem mem_stops_of_mem {bs : List (Branch α)} {b : Branch α} (h : b ∈ bs) :
    b.stop ∈ stops bs := List.mem_map_of_mem h

/-! ## Keeping the first branch of each place -/

theorem mem_stops_keepFirst {seen : Std.HashSet Nat} {bs : List (Branch α)} {j : Nat} :
    j ∈ stops (keepFirst seen bs) ↔ j ∈ stops bs ∧ j ∉ seen := by
  induction bs generalizing seen with
  | nil => simp [keepFirst]
  | cons b rest ih =>
      unfold keepFirst
      split
      · next h =>
        have hb : b.stop ∈ seen := Std.HashSet.contains_iff_mem.mp h
        rw [ih, stops_cons, List.mem_cons]
        constructor
        · rintro ⟨hj, hn⟩
          exact ⟨.inr hj, hn⟩
        · rintro ⟨rfl | hj, hn⟩
          · exact (hn hb).elim
          · exact ⟨hj, hn⟩
      · next h =>
        have hb : b.stop ∉ seen := fun hs => h (Std.HashSet.contains_iff_mem.mpr hs)
        simp only [stops_cons, List.mem_cons, ih, Std.HashSet.mem_insert, beq_iff_eq, not_or]
        constructor
        · rintro (rfl | ⟨hj, -, hn⟩)
          · exact ⟨.inl rfl, hb⟩
          · exact ⟨.inr hj, hn⟩
        · rintro ⟨rfl | hj, hn⟩
          · exact .inl rfl
          · by_cases he : b.stop = j
            · exact .inl he.symm
            · exact .inr ⟨hj, he, hn⟩

theorem nodup_stops_keepFirst (seen : Std.HashSet Nat) (bs : List (Branch α)) :
    (stops (keepFirst seen bs)).Nodup := by
  induction bs generalizing seen with
  | nil => exact List.nodup_nil
  | cons b rest ih =>
      unfold keepFirst
      split
      · exact ih seen
      · rw [stops_cons, List.nodup_cons]
        refine ⟨fun h => ?_, ih _⟩
        exact (mem_stops_keepFirst.mp h).2 (by simp)

@[simp] theorem mem_stops_distinct {bs : List (Branch α)} {j : Nat} :
    j ∈ stops (distinct bs) ↔ j ∈ stops bs := by
  simp [distinct, mem_stops_keepFirst]

theorem nodup_stops_distinct (bs : List (Branch α)) : (stops (distinct bs)).Nodup :=
  nodup_stops_keepFirst {} bs

/-- What goes before a branch that is kept has its places among those that are kept before it. -/
theorem exists_split_of_keepFirst {seen : Std.HashSet Nat} {bs front back : List (Branch α)}
    {b : Branch α} (h : keepFirst seen bs = front ++ b :: back) :
    ∃ before after, bs = before ++ b :: after ∧
      ∀ j ∈ stops before, j ∈ stops front ∨ j ∈ seen := by
  induction bs generalizing seen front with
  | nil => simp [keepFirst] at h
  | cons a rest ih =>
      unfold keepFirst at h
      split at h
      · next hc =>
        obtain ⟨before, after, rfl, hb⟩ := ih h
        refine ⟨a :: before, after, rfl, fun j hj => ?_⟩
        rcases List.mem_cons.mp hj with rfl | hj
        · exact .inr (Std.HashSet.contains_iff_mem.mp hc)
        · exact hb j hj
      · cases front with
        | nil =>
            obtain ⟨rfl, rfl⟩ := List.cons.inj h
            exact ⟨[], rest, rfl, by simp⟩
        | cons c front =>
            obtain ⟨rfl, hrest⟩ := List.cons.inj h
            obtain ⟨before, after, rfl, hb⟩ := ih hrest
            refine ⟨a :: before, after, rfl, fun j hj => ?_⟩
            rcases List.mem_cons.mp hj with rfl | hj
            · exact .inl List.mem_cons_self
            · rcases hb j hj with hf | hs
              · exact .inl (by simp [hf])
              · rcases Std.HashSet.mem_insert.mp hs with he | hs
                · exact .inl (by simp [beq_iff_eq.mp he])
                · exact .inr hs

/-! ## Demands -/

/-- Whatever place a branch demands is reached by an earlier branch. -/
def Ordered (due : Branch α → Nat → Prop) (bs : List (Branch α)) : Prop :=
  ∀ front b back, bs = front ++ b :: back → ∀ j, due b j → j ∈ stops front

variable {due : Branch α → Nat → Prop}

theorem Ordered.nil : Ordered due [] := by
  intro front b back h
  simp at h

theorem Ordered.of_forall_not {bs : List (Branch α)} (h : ∀ b ∈ bs, ∀ j, ¬ due b j) :
    Ordered due bs := by
  intro front b back hbs j hj
  exact (h b (by simp [hbs]) j hj).elim

theorem Ordered.append {bs cs : List (Branch α)} (hb : Ordered due bs) (hc : Ordered due cs) :
    Ordered due (bs ++ cs) := by
  intro front b back h j hj
  rcases List.append_eq_append_iff.mp h with ⟨mid, rfl, rfl⟩ | ⟨mid, rfl, hmid⟩
  · rw [stops_append]
    exact List.mem_append_right _ (hc mid b back rfl j hj)
  · cases mid with
    | nil =>
        have := hc [] b back (by simpa using hmid.symm) j hj
        simp at this
    | cons a mid =>
        obtain ⟨rfl, -⟩ := List.cons.inj hmid
        exact hb front b mid rfl j hj

theorem Ordered.flatten {lists : List (List (Branch α))} (h : ∀ bs ∈ lists, Ordered due bs) :
    Ordered due lists.flatten := by
  induction lists with
  | nil => exact .nil
  | cons bs rest ih =>
      rw [List.flatten_cons]
      exact (h bs List.mem_cons_self).append (ih fun cs hc => h cs (List.mem_cons_of_mem bs hc))

/-- A branch may go last once all that it demands is there. -/
theorem Ordered.concat {bs : List (Branch α)} {b : Branch α} (h : Ordered due bs)
    (hb : ∀ j, due b j → j ∈ stops bs) : Ordered due (bs ++ [b]) := by
  intro front c back hsplit j hj
  rcases List.eq_nil_or_concat back with rfl | ⟨back, d, rfl⟩
  · obtain ⟨rfl, hcb⟩ := List.append_inj' hsplit rfl
    obtain rfl : b = c := by simpa using hcb
    exact hb j hj
  · have hsplit' : bs ++ [b] = (front ++ c :: back) ++ [d] := by simpa using hsplit
    obtain ⟨rfl, -⟩ := List.append_inj' hsplit' rfl
    exact h front c back rfl j hj

theorem Ordered.distinct {bs : List (Branch α)} (h : Ordered due bs) :
    Ordered due (distinct bs) := by
  intro front b back hsplit j hj
  obtain ⟨before, after, rfl, hb⟩ := exists_split_of_keepFirst hsplit
  rcases hb j (h before b after rfl j hj) with hf | hs
  · exact hf
  · simp at hs

theorem mem_stops_filter_longer {bs : List (Branch α)} {place j : Nat} :
    j ∈ stops (bs.filter fun b => place < b.stop) ↔ j ∈ stops bs ∧ place < j := by
  simp only [mem_stops, List.mem_filter, decide_eq_true_eq]
  constructor
  · rintro ⟨b, ⟨hb, hlt⟩, rfl⟩
    exact ⟨⟨b, hb, rfl⟩, hlt⟩
  · rintro ⟨⟨b, hb, rfl⟩, hlt⟩
    exact ⟨b, ⟨hb, hlt⟩, rfl⟩

/-- Branches that end behind a place keep their order if they demand only longer ones. -/
theorem Ordered.filter_longer {bs : List (Branch α)} (h : Ordered due bs) (place : Nat)
    (hdue : ∀ b j, due b j → b.stop < j) :
    Ordered due (bs.filter fun b => place < b.stop) := by
  intro front b back hsplit j hj
  obtain ⟨before, rest, rfl, rfl, hrest⟩ := List.filter_eq_append_iff.mp hsplit
  obtain ⟨skipped, after, rfl, hskipped, hb, -⟩ := List.filter_eq_cons_iff.mp hrest
  have hplace : place < b.stop := by simpa using hb
  have hmem : j ∈ stops (before ++ skipped) := h (before ++ skipped) b after (by simp) j hj
  rw [stops_append, List.mem_append] at hmem
  have hlong : place < j := by
    have := hdue b j hj
    omega
  rcases hmem with hm | hm
  · exact mem_stops_filter_longer.mpr ⟨hm, hlong⟩
  · obtain ⟨c, hc, rfl⟩ := mem_stops.mp hm
    exact (hskipped c hc (by simpa using hlong)).elim

theorem Ordered.map {due' : Branch β → Nat → Prop} {f : Branch α → Branch β}
    {bs : List (Branch α)} (h : Ordered due bs) (hf : ∀ b ∈ bs, (f b).stop = b.stop)
    (hdue : ∀ b ∈ bs, ∀ j, due' (f b) j → due b j) : Ordered due' (bs.map f) := by
  intro front c back hsplit j hj
  obtain ⟨before, rest, rfl, rfl, hrest⟩ := List.map_eq_append_iff.mp hsplit
  obtain ⟨b, after, rfl, rfl, -⟩ := List.map_eq_cons_iff.mp hrest
  obtain ⟨d, hd, rfl⟩ := mem_stops.mp
    (h before b after rfl j (hdue b (by simp) j hj))
  exact mem_stops.mpr ⟨f d, List.mem_map_of_mem hd, hf d (by simp [hd])⟩

end GrammarEngine.Branch

import GrammarEngine.Analysis.LeftRecursion
import GrammarEngine.Proofs.Checked
import Mathlib.Data.List.Nodup
import Mathlib.Data.List.Perm.Subperm
import Mathlib.Logic.Relation

/-!
# Rules at the left edge

The rules that can match nothing are found by passes that add rules until one adds none, which is
before the bound is met. The exploration of the edges follows all of them, so that no rule leads
back to itself where it finds no cycle.

Suffixes have no part in the exploration. Behind a primary that can match nothing, a suffix refers
to rules at the place of its own rule as well; where none of these references leads back to the rule
of the suffix, no rule leads back to itself by edges of either kind.
-/
namespace GrammarEngine.LeftRecursion

variable {specs : List ParserRuleSpec} {found : List String}

/-! ## Rules that match nothing -/

theorem length_le_nullablePass : ∀ (specs : List ParserRuleSpec) (found : List String),
    found.length ≤ (nullablePass specs found).length
  | [], _ => Nat.le_refl _
  | r :: rest, found => by
      rw [nullablePass, List.foldl_cons]
      refine Nat.le_trans ?_ (length_le_nullablePass rest _)
      split
      · exact Nat.le_succ _
      · exact Nat.le_refl _

theorem nodup_nullablePass (specs : List ParserRuleSpec) (h : found.Nodup) :
    (nullablePass specs found).Nodup := by
  induction specs generalizing found with
  | nil => exact h
  | cons r rest ih =>
      rw [nullablePass, List.foldl_cons]
      refine ih ?_
      split
      · next hadd =>
        rw [Bool.and_eq_true, Bool.not_eq_true', List.contains_eq_mem, decide_eq_false_iff_not]
          at hadd
        exact List.nodup_cons.mpr ⟨hadd.1, h⟩
      · exact h

theorem nullablePass_subset {names : List String} (hnames : specs.map ParserRuleSpec.name ⊆ names)
    (h : found ⊆ names) : nullablePass specs found ⊆ names := by
  induction specs generalizing found with
  | nil => exact h
  | cons r rest ih =>
      rw [List.map_cons, List.cons_subset] at hnames
      rw [nullablePass, List.foldl_cons]
      refine ih hnames.2 ?_
      split
      · exact List.cons_subset.mpr ⟨hnames.1, h⟩
      · exact h

/-- Every rule that can match nothing when the given rules can is one of them. -/
def NullClosed (specs : List ParserRuleSpec) (found : List String) : Prop :=
  ∀ r ∈ specs, nullableAny found r.leading = true → r.name ∈ found

theorem nullClosed_of_pass (h : (nullablePass specs found).length = found.length) :
    NullClosed specs found := by
  induction specs with
  | nil => exact fun r hr => absurd hr List.not_mem_nil
  | cons r rest ih =>
      rw [nullablePass, List.foldl_cons] at h
      split at h
      · have hle := length_le_nullablePass rest (r.name :: found)
        rw [List.length_cons] at hle
        rw [nullablePass] at hle
        omega
      · next hadd =>
        refine List.forall_mem_cons.mpr ⟨fun hnull => ?_, ih h⟩
        simpa [hnull] using hadd

theorem length_le_of_names (hnodup : found.Nodup)
    (hsub : found ⊆ specs.map ParserRuleSpec.name) : found.length ≤ specs.length := by
  have hle := (List.subperm_of_subset hnodup hsub).length_le
  rwa [List.length_map] at hle

/-- The induction is on the bound; each pass before the last one adds a name. -/
theorem nullClosed_nullableAfter {bound : Nat} (hbound : specs.length < bound + found.length)
    (hnodup : found.Nodup) (hsub : found ⊆ specs.map ParserRuleSpec.name) :
    NullClosed specs (nullableAfter specs bound found) := by
  induction bound generalizing found with
  | zero =>
      have hle := length_le_of_names hnodup hsub
      omega
  | succ bound ih =>
      rw [nullableAfter]
      split
      · next hsame => exact nullClosed_of_pass (beq_iff_eq.mp hsame)
      · next hmore =>
        have hle := length_le_nullablePass specs found
        have hne : (nullablePass specs found).length ≠ found.length :=
          fun he => hmore (beq_iff_eq.mpr he)
        exact ih (by omega) (nodup_nullablePass specs hnodup)
          (nullablePass_subset (List.Subset.refl _) hsub)

theorem nullClosed_nullableRules (specs : List ParserRuleSpec) :
    NullClosed specs (nullableRules specs) :=
  nullClosed_nullableAfter (by simp) List.nodup_nil (List.nil_subset _)

/-! ## Exploring edges -/

variable {graph : List (String × List String)} {target : String}

/-- The names to which edges lead. -/
def targets (graph : List (String × List String)) : List String := graph.flatMap Prod.snd

theorem successors_subset (graph : List (String × List String)) (name : String) :
    successors graph name ⊆ targets graph := by
  intro other hother
  rw [successors] at hother
  cases hlookup : graph.lookup name with
  | none => simp [hlookup] at hother
  | some names =>
      obtain ⟨front, back, rfl, -⟩ := List.lookup_eq_some_iff.mp hlookup
      rw [hlookup, Option.getD_some] at hother
      exact List.mem_flatMap.mpr ⟨(name, names), by simp, hother⟩

/-- What an exploration has seen, compared with what had been seen before: from all that was added,
every edge leads to a name that has been seen and is not the target. -/
structure Explored (graph : List (String × List String)) (target : String)
    (seen seen' : List String) : Prop where
  grows : seen ⊆ seen'
  length_le : seen.length ≤ seen'.length
  nodup : seen'.Nodup
  within : seen' ⊆ targets graph
  closed : ∀ name ∈ seen', name ∉ seen → ∀ other ∈ successors graph name,
    other ≠ target ∧ other ∈ seen'

variable {seen seen' seen'' : List String}

/-- Edges from one more name lead to names that have been seen as well. -/
theorem Explored.visit {name : String} (h : Explored graph target seen seen')
    (hvisit : Explored graph target (name :: seen') seen'')
    (hname : ∀ other ∈ successors graph name, other ≠ target ∧ other ∈ seen'') :
    Explored graph target seen seen'' where
  grows := fun _ hn => hvisit.grows (List.mem_cons_of_mem name (h.grows hn))
  length_le := by
    have hle := hvisit.length_le
    rw [List.length_cons] at hle
    have hle' := h.length_le
    omega
  nodup := hvisit.nodup
  within := hvisit.within
  closed := fun n hn hnew other hother => by
    by_cases hvisited : n ∈ name :: seen'
    · rcases List.mem_cons.mp hvisited with rfl | hold
      · exact hname other hother
      · obtain ⟨hne, hmem⟩ := h.closed n hold hnew other hother
        exact ⟨hne, hvisit.grows (List.mem_cons_of_mem name hmem)⟩
    · exact hvisit.closed n hn hvisited other hother

/-- Edges are followed one after another, as long as none leads to the target. -/
theorem Explored.edges {visit : List String → String → Except (List String) (List String)}
    {path names acc : List String}
    (hvisit : ∀ next ∈ names, ∀ acc acc', Explored graph target seen acc → next ∉ acc →
      visit acc next = .ok acc' → Explored graph target (next :: acc) acc' ∧
        ∀ other ∈ successors graph next, other ≠ target ∧ other ∈ acc')
    (hacc : Explored graph target seen acc)
    (h : names.foldlM (fun acc next =>
      if next == target then .error path
      else if acc.contains next then .ok acc
      else visit acc next) acc = .ok seen') :
    Explored graph target seen seen' ∧ acc ⊆ seen' ∧
      ∀ other ∈ names, other ≠ target ∧ other ∈ seen' := by
  induction names generalizing acc with
  | nil =>
      obtain rfl := Except.ok.inj h
      exact ⟨hacc, List.Subset.refl _, by simp⟩
  | cons next names ih =>
      have hothers := fun n hn => hvisit n (List.mem_cons_of_mem next hn)
      rw [List.foldlM_cons] at h
      split at h
      · cases h
      · next hne =>
        have hother : next ≠ target := fun he => hne (beq_iff_eq.mpr he)
        split at h
        · next hseen =>
          obtain ⟨hexplored, hgrows, hrest⟩ := ih hothers hacc h
          have hmem := hgrows (List.contains_iff_mem.mp hseen)
          exact ⟨hexplored, hgrows, List.forall_mem_cons.mpr ⟨⟨hother, hmem⟩, hrest⟩⟩
        · next hnew =>
          have hfresh : next ∉ acc := fun hin => hnew (List.contains_iff_mem.mpr hin)
          obtain ⟨mid, hmid, h⟩ := bind_eq_ok.mp h
          obtain ⟨hnext, hedges⟩ := hvisit next List.mem_cons_self acc mid hacc hfresh hmid
          obtain ⟨hexplored, hgrows, hrest⟩ := ih hothers (hacc.visit hnext hedges) h
          have hmem := hgrows (hnext.grows List.mem_cons_self)
          refine ⟨hexplored, fun n hn => ?_, List.forall_mem_cons.mpr ⟨⟨hother, hmem⟩, hrest⟩⟩
          exact hgrows (hnext.grows (List.mem_cons_of_mem next hn))

/-- The induction is on the bound, which is not met as every step sees another target. -/
theorem explored_of_explore {bound : Nat} {path : List String} {current : String}
    (h : explore graph target bound path current seen = .ok seen')
    (hbound : (targets graph).length < bound + seen.length) (hnodup : seen.Nodup)
    (hwithin : seen ⊆ targets graph) :
    Explored graph target seen seen' ∧
      ∀ other ∈ successors graph current, other ≠ target ∧ other ∈ seen' := by
  induction bound generalizing path current seen seen' with
  | zero =>
      have hle := (List.subperm_of_subset hnodup hwithin).length_le
      omega
  | succ bound ih =>
      rw [explore] at h
      have hstart : Explored graph target seen seen :=
        ⟨List.Subset.refl _, Nat.le_refl _, hnodup, hwithin, fun n hn hnew => absurd hn hnew⟩
      have hvisit : ∀ next ∈ successors graph current, ∀ acc acc',
          Explored graph target seen acc → next ∉ acc →
          explore graph target bound (path ++ [current]) next (next :: acc) = .ok acc' →
          Explored graph target (next :: acc) acc' ∧
            ∀ other ∈ successors graph next, other ≠ target ∧ other ∈ acc' := by
        intro next hnext acc acc' hacc hfresh hrun
        have hle := hacc.length_le
        exact ih hrun (by rw [List.length_cons]; omega) (List.nodup_cons.mpr ⟨hfresh, hacc.nodup⟩)
          (List.cons_subset.mpr ⟨successors_subset graph current hnext, hacc.within⟩)
      obtain ⟨hexplored, -, hall⟩ := Explored.edges hvisit hstart h
      exact ⟨hexplored, hall⟩

/-- Where no cycle is found, no path leads from a name back to it. -/
theorem not_transGen_of_cycleThrough {name : String} (h : cycleThrough? graph name = none) :
    ¬ Relation.TransGen (fun n other => other ∈ successors graph n) name name := by
  unfold cycleThrough? at h
  split at h
  · cases h
  · next seen hseen =>
    obtain ⟨hexplored, hfirst⟩ := explored_of_explore hseen (by simp [targets]) List.nodup_nil
      (List.nil_subset _)
    have hreached : ∀ other, Relation.TransGen (fun n other => other ∈ successors graph n)
        name other → other ≠ name ∧ other ∈ seen := by
      intro other hpath
      induction hpath with
      | single hedge => exact hfirst _ hedge
      | tail _ hedge ih => exact hexplored.closed _ ih.2 List.not_mem_nil _ hedge
    exact fun hpath => (hreached name hpath).1 rfl

/-! ## Edges of rules -/

theorem mem_insertName {name n : String} {names : List String} :
    n ∈ insertName name names ↔ n = name ∨ n ∈ names := by
  induction names with
  | nil => simp [insertName]
  | cons first rest ih =>
      rw [insertName]
      split
      · next he => simp [beq_iff_eq.mp he]
      · split
        · rw [List.mem_cons]
        · rw [List.mem_cons, ih, List.mem_cons]
          tauto

theorem mem_sortedNames {names : List String} {n : String} : n ∈ sortedNames names ↔ n ∈ names := by
  have hfold : ∀ acc,
      n ∈ names.foldl (fun acc n => insertName n acc) acc ↔ n ∈ acc ∨ n ∈ names := by
    induction names with
    | nil => simp
    | cons name names ih =>
        intro acc
        rw [List.foldl_cons, ih, mem_insertName, List.mem_cons]
        tauto
  rw [sortedNames, hfold]
  simp

/-- A leading alternative of a rule refers to another rule at its own place. -/
def LeadsTo (specs : List ParserRuleSpec) (name other : String) : Prop :=
  ∃ r ∈ specs, r.name = name ∧ other ∈ edgeOfAny (nullableRules specs) r.leading

/-- A suffix of a rule with a primary that can match nothing refers to another rule at the place of
its own. -/
def SuffixLeadsTo (specs : List ParserRuleSpec) (name other : String) : Prop :=
  ∃ primaries suffixes, .leftRecursive name primaries suffixes ∈ specs ∧
    nullableAny (nullableRules specs) primaries = true ∧
    ∃ s ∈ suffixes, other ∈ edgeOfAll (nullableRules specs) s.elements

/-- A rule can be matched at the place of another one. -/
def Starts (specs : List ParserRuleSpec) (name other : String) : Prop :=
  LeadsTo specs name other ∨ SuffixLeadsTo specs name other

/-- No suffix behind a primary that can match nothing leads back to its rule. -/
def SuffixesMoveOn (specs : List ParserRuleSpec) : Prop :=
  ∀ name other, SuffixLeadsTo specs name other →
    ¬ Relation.ReflTransGen (Starts specs) other name

theorem LeadsTo.mem_successors (hnames : (specs.map ParserRuleSpec.name).Nodup)
    {name other : String} (h : LeadsTo specs name other) :
    other ∈ successors (edges specs) name := by
  obtain ⟨r, hr, rfl, hother⟩ := h
  obtain ⟨front, back, rfl⟩ := List.append_of_mem hr
  have hlookup : (edges (front ++ r :: back)).lookup r.name = some
      (sortedNames (edgeOfAny (nullableRules (front ++ r :: back)) r.leading)) := by
    refine List.lookup_eq_some_iff.mpr ⟨_, _, List.map_append, fun p hp => ?_⟩
    obtain ⟨q, hq, rfl⟩ := List.mem_map.mp hp
    rw [List.map_append, List.nodup_append] at hnames
    have hne := hnames.2.2 q.name (List.mem_map_of_mem hq) r.name
      (List.mem_map_of_mem List.mem_cons_self)
    exact bne_iff_ne.mpr (Ne.symm hne)
  rw [successors, hlookup, Option.getD_some, mem_sortedNames]
  exact hother

/-- Rules among which the check finds no cycle do not lead back to themselves, unless a suffix
behind a primary that can match nothing does. -/
theorem not_transGen_starts (hnames : (specs.map ParserRuleSpec.name).Nodup)
    (hcycle : cycle? specs = none) (hsuffixes : SuffixesMoveOn specs) (name : String) :
    ¬ Relation.TransGen (Starts specs) name name := by
  have hleads : ∀ name, ¬ Relation.TransGen (LeadsTo specs) name name := by
    intro name hpath
    obtain ⟨next, ⟨r, hr, rfl, -⟩, -⟩ := Relation.TransGen.head'_iff.mp hpath
    have hnone := List.findSome?_eq_none_iff.mp hcycle r hr
    refine not_transGen_of_cycleThrough hnone ?_
    exact Relation.TransGen.mono (fun _ _ hedge => LeadsTo.mem_successors hnames hedge) _ _ hpath
  -- a path without suffixes is one that was checked
  have hpaths : ∀ other, Relation.TransGen (Starts specs) name other →
      Relation.TransGen (LeadsTo specs) name other ∨ ∃ n m,
        Relation.ReflTransGen (Starts specs) name n ∧ SuffixLeadsTo specs n m ∧
          Relation.ReflTransGen (Starts specs) m other := by
    intro other hpath
    induction hpath with
    | single hedge =>
        rcases hedge with hedge | hedge
        · exact .inl (.single hedge)
        · exact .inr ⟨_, _, .refl, hedge, .refl⟩
    | tail hpath hedge ih =>
        rcases ih with ih | ⟨n, m, hfront, hsuffix, hback⟩
        · rcases hedge with hedge | hedge
          · exact .inl (ih.tail hedge)
          · exact .inr ⟨_, _, hpath.to_reflTransGen, hedge, .refl⟩
        · exact .inr ⟨n, m, hfront, hsuffix, hback.tail hedge⟩
  intro hpath
  rcases hpaths name hpath with hpath | ⟨n, m, hfront, hsuffix, hback⟩
  · exact hleads name hpath
  · exact hsuffixes n m hsuffix (hback.trans hfront)

end GrammarEngine.LeftRecursion

import GrammarEngine.Proofs.Acceptance.Parsers
import GrammarEngine.Proofs.LeftRecursion.Edges
import GrammarEngine.Proofs.LeftRecursion.Language
import Mathlib.Data.List.Chain

/-!
# Cycles of left recursion

The check for left recursion through other rules is exact. The rules that are found to match nothing
are those that derive the empty word, and the edges are the references before which everything can
match nothing. The exploration follows all edges, so a check without a result means that no rule
leads back to itself; and a path that it reports is a cycle, as it only ever extends the path by
which it came.
-/
namespace GrammarEngine.LeftRecursion

variable {τ : Type} {accepts : Element → τ → Prop} {specs : List ParserRuleSpec}
  {found : List String}

/-! ## Rules that derive nothing -/

theorem specOf_of_mem (hnames : (specs.map ParserRuleSpec.name).Nodup) {r : ParserRuleSpec}
    (hr : r ∈ specs) : specOf specs r.name = some r := by
  induction specs with
  | nil => exact absurd hr List.not_mem_nil
  | cons first rest ih =>
      obtain ⟨hfresh, hrest⟩ := List.nodup_cons.mp hnames
      rcases List.mem_cons.mp hr with rfl | hr
      · exact List.find?_cons_of_pos (beq_self_eq_true _)
      · have hne : first.name ≠ r.name := fun heq => hfresh (heq ▸ List.mem_map_of_mem hr)
        exact (List.find?_cons_of_neg (by simpa using hne)).trans (ih hrest hr)

theorem mem_of_specOf {name : String} {r : ParserRuleSpec} (h : specOf specs name = some r) :
    r ∈ specs ∧ r.name = name :=
  ⟨List.mem_of_find?_eq_some h, by simpa using List.find?_some h⟩

theorem derives_rule_of_leading (hnames : (specs.map ParserRuleSpec.name).Nodup)
    {r : ParserRuleSpec} (hr : r ∈ specs) {a : Alternative} (ha : a ∈ r.leading) {w : List τ}
    (h : Derives accepts specs (.items a.elements) w) (precedence : Nat) :
    Derives accepts specs (.rule r.name precedence) w := by
  have hspec := specOf_of_mem hnames hr
  cases r with
  | plain name alternatives => exact .plain precedence hspec ha h
  | leftRecursive name primaries suffixes => exact .primary precedence hspec ha h

/-- All of these rules derive the empty word. -/
def DeriveNothing (accepts : Element → τ → Prop) (specs : List ParserRuleSpec)
    (found : List String) : Prop :=
  ∀ name ∈ found, ∀ precedence, Derives accepts specs (.rule name precedence) []

mutual
/-- The induction follows the nesting of elements. -/
theorem derives_of_nullable (h : DeriveNothing accepts specs found) : ∀ e : Element,
    nullable found e = true → Derives accepts specs (.items [e]) []
  | .rule name, he => .call (h name (List.contains_iff_mem.mp he) 0) .nil
  | .ruleAt name precedence, he => .callAt (h name (List.contains_iff_mem.mp he) precedence) .nil
  | .block alternatives, he => by
      obtain ⟨a, ha, helements⟩ := exists_of_nullableAny h alternatives he
      exact .block ha helements .nil
  | .repeated e kind greedy, he => by
      rw [nullable, Bool.or_eq_true, bne_iff_ne] at he
      rcases he with hkind | he
      · exact .skip greedy hkind .nil
      · exact .once kind greedy (derives_of_nullable h e he) .nil
  | .literal _, he | .token _, he | .charSet _ _, he | .any, he | .not _, he | .notTokens _, he
  | .eof, he => absurd he Bool.false_ne_true

theorem derives_of_nullableAll (h : DeriveNothing accepts specs found) : ∀ es : List Element,
    nullableAll found es = true → Derives accepts specs (.items es) []
  | [], _ => .nil
  | e :: rest, hes => by
      rw [nullableAll, Bool.and_eq_true] at hes
      exact (derives_of_nullable h e hes.1).append (derives_of_nullableAll h rest hes.2)

theorem derives_of_nullableAlternative (h : DeriveNothing accepts specs found) :
    ∀ a : AlternativeOf Element, nullableAlternative found a = true →
      Derives accepts specs (.items a.elements) []
  | ⟨elements, _, _, _⟩, ha => derives_of_nullableAll h elements ha

theorem exists_of_nullableAny (h : DeriveNothing accepts specs found) :
    ∀ alternatives : List (AlternativeOf Element), nullableAny found alternatives = true →
      ∃ a ∈ alternatives, Derives accepts specs (.items a.elements) []
  | [], hany => absurd hany Bool.false_ne_true
  | a :: rest, hany => by
      rw [nullableAny, Bool.or_eq_true] at hany
      rcases hany with ha | hrest
      · exact ⟨a, List.mem_cons_self, derives_of_nullableAlternative h a ha⟩
      · obtain ⟨b, hb, hderives⟩ := exists_of_nullableAny h rest hrest
        exact ⟨b, List.mem_cons_of_mem a hb, hderives⟩
end

theorem DeriveNothing.pass (hnames : (specs.map ParserRuleSpec.name).Nodup)
    {rest : List ParserRuleSpec} (hrest : rest ⊆ specs) (h : DeriveNothing accepts specs found) :
    DeriveNothing accepts specs (nullablePass rest found) := by
  induction rest generalizing found with
  | nil => exact h
  | cons r rest ih =>
      obtain ⟨hr, hrest⟩ := List.cons_subset.mp hrest
      rw [nullablePass, List.foldl_cons]
      apply ih hrest
      split
      · next hadd =>
        obtain ⟨a, ha, hderives⟩ := exists_of_nullableAny h _ (Bool.and_eq_true_iff.mp hadd).2
        exact List.forall_mem_cons.mpr ⟨derives_rule_of_leading hnames hr ha hderives, h⟩
      · exact h

theorem DeriveNothing.after (hnames : (specs.map ParserRuleSpec.name).Nodup) (bound : Nat)
    (h : DeriveNothing accepts specs found) :
    DeriveNothing accepts specs (nullableAfter specs bound found) := by
  induction bound generalizing found with
  | zero => exact h
  | succ bound ih =>
      rw [nullableAfter]
      split
      · exact h
      · exact ih (h.pass hnames (List.Subset.refl _))

theorem deriveNothing_nullableRules (hnames : (specs.map ParserRuleSpec.name).Nodup) :
    DeriveNothing accepts specs (nullableRules specs) :=
  DeriveNothing.after hnames _ fun _ hname => absurd hname List.not_mem_nil

/-- What is said of a goal is found by its form. -/
def Goal.nullable (found : List String) : Goal → Prop
  | .items es => nullableAll found es = true
  | .rule name _ => name ∈ found

theorem nullableAll_cons {e : Element} {es : List Element} :
    nullableAll found (e :: es) = true ↔
      LeftRecursion.nullable found e = true ∧ nullableAll found es = true := by
  rw [nullableAll, Bool.and_eq_true]

theorem nullableAny_of_mem {alternatives : List Alternative} {a : Alternative}
    (ha : a ∈ alternatives) (h : nullableAll found a.elements = true) :
    nullableAny found alternatives = true := by
  induction alternatives with
  | nil => exact absurd ha List.not_mem_nil
  | cons first rest ih =>
      rw [nullableAny, Bool.or_eq_true]
      rcases List.mem_cons.mp ha with rfl | ha
      · obtain ⟨elements, _, _, _⟩ := a
        exact .inl h
      · exact .inr (ih ha)

/-- Whatever derives the empty word is found, once no pass adds a rule. -/
theorem NullClosed.nullable (h : NullClosed specs found) {goal : Goal} {w : List τ}
    (hderives : Derives accepts specs goal w) (hw : w = []) : goal.nullable found := by
  induction hderives with
  | nil => rfl
  | terminal => cases hw
  | call _ _ ihrule ihrest | callAt _ _ ihrule ihrest =>
      obtain ⟨hu, hv⟩ := List.append_eq_nil_iff.mp hw
      exact nullableAll_cons.mpr ⟨List.contains_iff_mem.mpr (ihrule hu), ihrest hv⟩
  | block ha _ _ ihelements ihrest =>
      obtain ⟨hu, hv⟩ := List.append_eq_nil_iff.mp hw
      exact nullableAll_cons.mpr ⟨nullableAny_of_mem ha (ihelements hu), ihrest hv⟩
  | skip _ hkind _ ihrest =>
      refine nullableAll_cons.mpr ⟨?_, ihrest hw⟩
      rw [LeftRecursion.nullable, bne_iff_ne.mpr hkind, Bool.true_or]
  | once _ _ _ _ ihelement ihrest =>
      obtain ⟨hu, hv⟩ := List.append_eq_nil_iff.mp hw
      refine nullableAll_cons.mpr ⟨?_, ihrest hv⟩
      rw [LeftRecursion.nullable, (nullableAll_cons.mp (ihelement hu)).1, Bool.or_true]
  | again _ _ _ _ ihrest => exact ihrest (List.append_eq_nil_iff.mp hw).2
  | plain _ hspec ha _ ih | primary _ hspec ha _ ih =>
      obtain ⟨hmem, rfl⟩ := mem_of_specOf hspec
      exact h _ hmem (nullableAny_of_mem ha (ih hw))
  | suffix _ _ _ _ _ ihrule _ => exact ihrule (List.append_eq_nil_iff.mp hw).1

theorem nullableAll_iff (hnames : (specs.map ParserRuleSpec.name).Nodup) {es : List Element} :
    nullableAll (nullableRules specs) es = true ↔ Derives accepts specs (.items es) [] :=
  ⟨derives_of_nullableAll (deriveNothing_nullableRules hnames) es,
    fun h => (nullClosed_nullableRules specs).nullable h rfl⟩

theorem nullable_iff (hnames : (specs.map ParserRuleSpec.name).Nodup) {e : Element} :
    nullable (nullableRules specs) e = true ↔ Derives accepts specs (.items [e]) [] := by
  rw [← nullableAll_iff hnames, nullableAll_cons, nullableAll, and_iff_left rfl]

/-- What derives the empty word does so through a leading alternative, as suffixes only follow. -/
theorem exists_leading_of_derives {name : String} {precedence : Nat} {w : List τ}
    (h : Derives accepts specs (.rule name precedence) w) (hw : w = []) :
    ∃ r ∈ specs, r.name = name ∧ ∃ a ∈ r.leading, Derives accepts specs (.items a.elements) [] := by
  generalize hgoal : Goal.rule name precedence = goal at h
  induction h with
  | plain _ hspec ha helements | primary _ hspec ha helements =>
      cases hgoal
      obtain ⟨hmem, rfl⟩ := mem_of_specOf hspec
      exact ⟨_, hmem, rfl, _, ha, hw ▸ helements⟩
  | suffix _ _ _ _ _ ihrule _ =>
      cases hgoal
      exact ihrule (List.append_eq_nil_iff.mp hw).1 rfl
  | nil | terminal | call | callAt | block | skip | once | again => cases hgoal

/-- The rules that are found derive the empty word through one of their leading alternatives. -/
theorem mem_nullableRules_iff (hnames : (specs.map ParserRuleSpec.name).Nodup) {name : String} :
    name ∈ nullableRules specs ↔ ∃ r ∈ specs, r.name = name ∧ ∃ a ∈ r.leading,
      Derives accepts specs (.items a.elements) [] := by
  constructor
  · intro hname
    exact exists_leading_of_derives (deriveNothing_nullableRules hnames name hname 0) rfl
  · rintro ⟨r, hr, rfl, a, ha, hderives⟩
    have helements := (nullableAll_iff hnames).mpr hderives
    exact nullClosed_nullableRules specs r hr (nullableAny_of_mem ha helements)

/-! ## References at the left edge -/

/-- Elements in a row refer to a rule at their own place: everything before the reference can match
nothing. -/
inductive RefersFirst (accepts : Element → τ → Prop) (specs : List ParserRuleSpec) :
    List Element → String → Prop
  | rule (name : String) (es : List Element) : RefersFirst accepts specs (.rule name :: es) name
  | ruleAt (name : String) (precedence : Nat) (es : List Element) :
      RefersFirst accepts specs (.ruleAt name precedence :: es) name
  | block {alternatives : List Alternative} {a : Alternative} {name : String}
      (es : List Element) : a ∈ alternatives → RefersFirst accepts specs a.elements name →
      RefersFirst accepts specs (.block alternatives :: es) name
  | repeated {e : Element} {name : String} (kind : Repetition) (greedy : Bool)
      (es : List Element) : RefersFirst accepts specs [e] name →
      RefersFirst accepts specs (.repeated e kind greedy :: es) name
  | behind {e : Element} {es : List Element} {name : String} :
      Derives accepts specs (.items [e]) [] → RefersFirst accepts specs es name →
      RefersFirst accepts specs (e :: es) name

theorem mem_edgeOfAll_cons {rules : List String} {e : Element} {es : List Element}
    {name : String} : name ∈ edgeOfAll rules (e :: es) ↔
      name ∈ edgeOf rules e ∨ nullable rules e = true ∧ name ∈ edgeOfAll rules es := by
  rw [edgeOfAll, List.mem_append]
  split
  · next he => rw [he, eq_self, true_and]
  · next he => simp [he]

theorem mem_edgeOfAny_iff {rules : List String} {alternatives : List Alternative}
    {name : String} : name ∈ edgeOfAny rules alternatives ↔
      ∃ a ∈ alternatives, name ∈ edgeOfAll rules a.elements := by
  induction alternatives with
  | nil => simp [edgeOfAny]
  | cons a rest ih =>
      obtain ⟨elements, _, _, _⟩ := a
      rw [edgeOfAny, edgeOfAlternative, List.mem_append, ih, List.exists_mem_cons_iff]

theorem RefersFirst.mem_edgeOfAll (hnames : (specs.map ParserRuleSpec.name).Nodup)
    {es : List Element} {name : String} (h : RefersFirst accepts specs es name) :
    name ∈ edgeOfAll (nullableRules specs) es := by
  induction h with
  | rule name es | ruleAt name _ es =>
      exact mem_edgeOfAll_cons.mpr (.inl (List.mem_singleton_self name))
  | block es ha _ ih =>
      exact mem_edgeOfAll_cons.mpr (.inl (mem_edgeOfAny_iff.mpr ⟨_, ha, ih⟩))
  | repeated kind greedy es _ ih =>
      rcases mem_edgeOfAll_cons.mp ih with hedge | ⟨_, hnil⟩
      · exact mem_edgeOfAll_cons.mpr (.inl hedge)
      · exact absurd hnil List.not_mem_nil
  | behind hnothing _ ih =>
      exact mem_edgeOfAll_cons.mpr (.inr ⟨(nullable_iff hnames).mpr hnothing, ih⟩)

mutual
theorem refersFirst_of_edgeOf (hnames : (specs.map ParserRuleSpec.name).Nodup) {name : String}
    (es : List Element) : ∀ e : Element, name ∈ edgeOf (nullableRules specs) e →
      RefersFirst accepts specs (e :: es) name
  | .rule n, h => by
      rw [List.mem_singleton.mp h]
      exact .rule n es
  | .ruleAt n precedence, h => by
      rw [List.mem_singleton.mp h]
      exact .ruleAt n precedence es
  | .block alternatives, h => by
      obtain ⟨a, ha, hrefers⟩ := exists_refersFirst_of_edgeOfAny hnames alternatives h
      exact .block es ha hrefers
  | .repeated e kind greedy, h =>
      .repeated kind greedy es (refersFirst_of_edgeOf hnames [] e h)
  | .literal _, h | .token _, h | .charSet _ _, h | .any, h | .not _, h | .notTokens _, h
  | .eof, h => absurd h List.not_mem_nil

theorem refersFirst_of_edgeOfAll (hnames : (specs.map ParserRuleSpec.name).Nodup)
    {name : String} : ∀ es : List Element, name ∈ edgeOfAll (nullableRules specs) es →
      RefersFirst accepts specs es name
  | [], h => absurd h List.not_mem_nil
  | e :: rest, h => by
      rcases mem_edgeOfAll_cons.mp h with hedge | ⟨hnothing, hrest⟩
      · exact refersFirst_of_edgeOf hnames rest e hedge
      · exact .behind ((nullable_iff hnames).mp hnothing)
          (refersFirst_of_edgeOfAll hnames rest hrest)

theorem refersFirst_of_edgeOfAlternative (hnames : (specs.map ParserRuleSpec.name).Nodup)
    {name : String} : ∀ a : AlternativeOf Element,
      name ∈ edgeOfAlternative (nullableRules specs) a → RefersFirst accepts specs a.elements name
  | ⟨elements, _, _, _⟩, h => refersFirst_of_edgeOfAll hnames elements h

theorem exists_refersFirst_of_edgeOfAny (hnames : (specs.map ParserRuleSpec.name).Nodup)
    {name : String} : ∀ alternatives : List (AlternativeOf Element),
      name ∈ edgeOfAny (nullableRules specs) alternatives →
      ∃ a ∈ alternatives, RefersFirst accepts specs a.elements name
  | [], h => absurd h List.not_mem_nil
  | a :: rest, h => by
      rw [edgeOfAny, List.mem_append] at h
      rcases h with ha | hrest
      · exact ⟨a, List.mem_cons_self, refersFirst_of_edgeOfAlternative hnames a ha⟩
      · obtain ⟨b, hb, hrefers⟩ := exists_refersFirst_of_edgeOfAny hnames rest hrest
        exact ⟨b, List.mem_cons_of_mem a hb, hrefers⟩
end

/-- A leading alternative of a rule refers to another rule at its own place. -/
def Opens (accepts : Element → τ → Prop) (specs : List ParserRuleSpec) (name other : String) :
    Prop :=
  ∃ r ∈ specs, r.name = name ∧ ∃ a ∈ r.leading, RefersFirst accepts specs a.elements other

theorem leadsTo_iff_opens (hnames : (specs.map ParserRuleSpec.name).Nodup) {name other : String} :
    LeadsTo specs name other ↔ Opens accepts specs name other := by
  constructor
  · rintro ⟨r, hr, hname, hedge⟩
    obtain ⟨a, ha, hrefers⟩ := exists_refersFirst_of_edgeOfAny hnames r.leading hedge
    exact ⟨r, hr, hname, a, ha, hrefers⟩
  · rintro ⟨r, hr, hname, a, ha, hrefers⟩
    exact ⟨r, hr, hname, mem_edgeOfAny_iff.mpr ⟨a, ha, hrefers.mem_edgeOfAll hnames⟩⟩

theorem leadsTo_of_mem_successors {name other : String}
    (h : other ∈ successors (edges specs) name) : LeadsTo specs name other := by
  rw [successors] at h
  cases hlookup : (edges specs).lookup name with
  | none => simp [hlookup] at h
  | some names =>
      rw [hlookup, Option.getD_some] at h
      obtain ⟨front, back, hgraph, -⟩ := List.lookup_eq_some_iff.mp hlookup
      have hmem : (name, names) ∈ edges specs := by
        rw [hgraph]
        exact List.mem_append_right front List.mem_cons_self
      obtain ⟨r, hr, hrule⟩ := List.mem_map.mp hmem
      obtain ⟨rfl, rfl⟩ := Prod.mk.inj hrule
      exact ⟨r, hr, rfl, mem_sortedNames.mp h⟩

theorem mem_successors_iff (hnames : (specs.map ParserRuleSpec.name).Nodup)
    {name other : String} :
    other ∈ successors (edges specs) name ↔ Opens accepts specs name other := by
  rw [← leadsTo_iff_opens hnames]
  exact ⟨leadsTo_of_mem_successors, LeadsTo.mem_successors hnames⟩

/-! ## Paths of an exploration -/

/-- Different names, each of which leads to the next one and the last one to the first. -/
def IsCycle (R : String → String → Prop) (path : List String) : Prop :=
  path.Nodup ∧ ∃ first, path.head? = some first ∧ (path ++ [first]).IsChain R

theorem IsCycle.transGen {R : String → String → Prop} {path : List String} (h : IsCycle R path) :
    ∃ name, Relation.TransGen R name name := by
  obtain ⟨-, first, hfirst, hchain⟩ := h
  obtain ⟨rest, rfl⟩ := List.head?_eq_some_iff.mp hfirst
  have hpaths : (first :: rest ++ [first]).Pairwise (Relation.TransGen R) :=
    (hchain.imp fun _ _ hedge => Relation.TransGen.single hedge).pairwise
  exact ⟨first, List.rel_of_pairwise_cons hpaths (List.mem_append_right rest List.mem_cons_self)⟩

variable {graph : List (String × List String)} {target : String} {seen seen' path : List String}

/-- The path by which an exploration came: different names from the target on, all of them seen. -/
structure Trail (graph : List (String × List String)) (target : String) (seen : List String)
    (path : List String) : Prop where
  chain : path.IsChain fun n other => other ∈ successors graph n
  nodup : path.Nodup
  starts : path.head? = some target
  seen : path ⊆ target :: seen

theorem Trail.mono (h : Trail graph target seen path) (hsub : seen ⊆ seen') :
    Trail graph target seen' path :=
  { h with seen := fun _ hn => List.cons_subset_cons target hsub (h.seen hn) }

theorem isChain_concat {R : String → String → Prop} {path : List String} {last next : String}
    (h : (path ++ [last]).IsChain R) (hnext : R last next) :
    (path ++ [last] ++ [next]).IsChain R := by
  rw [List.isChain_append]
  refine ⟨h, List.isChain_singleton next, ?_⟩
  simpa using hnext

theorem Trail.visit {current next : String} (h : Trail graph target seen (path ++ [current]))
    (hedge : next ∈ successors graph current) (hne : next ≠ target) (hnew : next ∉ seen) :
    Trail graph target (next :: seen) (path ++ [current] ++ [next]) where
  chain := isChain_concat h.chain hedge
  nodup := by
    refine List.Nodup.append h.nodup (List.nodup_singleton next) ?_
    intro n hn hnext
    rw [List.mem_singleton.mp hnext] at hn
    exact (List.mem_cons.mp (h.seen hn)).elim hne hnew
  starts := by rw [List.head?_append, h.starts, Option.some_or]
  seen := by
    intro n hn
    rcases List.mem_append.mp hn with hn | hn
    · exact List.cons_subset_cons target (List.subset_cons_self next seen) (h.seen hn)
    · rw [List.mem_singleton.mp hn]
      exact List.mem_cons_of_mem target List.mem_cons_self

/-- Following edges one after another forgets nothing. -/
theorem subset_of_edges {visit : List String → String → Except (List String) (List String)}
    {names reported : List String}
    (hvisit : ∀ next acc acc', visit acc next = .ok acc' → acc ⊆ acc')
    (h : names.foldlM (fun acc next =>
      if next == target then .error reported
      else if acc.contains next then .ok acc
      else visit acc next) seen = .ok seen') : seen ⊆ seen' := by
  refine foldlM_invariant (seen ⊆ ·) (List.Subset.refl _) (fun next _ acc acc' hacc hstep => ?_) h
  split at hstep
  · cases hstep
  · split at hstep
    · exact Except.ok.inj hstep ▸ hacc
    · exact List.Subset.trans hacc (hvisit next acc acc' hstep)

theorem subset_of_explore {bound : Nat} {current : String}
    (h : explore graph target bound path current seen = .ok seen') : seen ⊆ seen' := by
  induction bound generalizing path current seen seen' with
  | zero =>
      obtain rfl := Except.ok.inj h
      exact List.Subset.refl _
  | succ bound ih =>
      refine subset_of_edges (fun next acc acc' hrun => ?_) h
      exact List.Subset.trans (List.subset_cons_self next acc) (ih hrun)

/-- A refused fold was refused by one of its steps. -/
theorem exists_of_foldlM_eq_error {ε α β : Type} {f : β → α → Except ε β} {xs : List α} {init : β}
    {e : ε} (h : xs.foldlM f init = .error e) :
    ∃ front x back b, xs = front ++ x :: back ∧ front.foldlM f init = .ok b ∧ f b x = .error e := by
  induction xs generalizing init with
  | nil => cases h
  | cons x xs ih =>
      rw [List.foldlM_cons] at h
      cases hstep : f init x with
      | error e' =>
          rw [hstep] at h
          exact ⟨[], x, xs, init, rfl, rfl, hstep.trans h⟩
      | ok b =>
          rw [hstep] at h
          obtain ⟨front, y, back, c, rfl, hfront, hy⟩ := ih h
          refine ⟨x :: front, y, back, c, rfl, ?_, hy⟩
          rw [List.foldlM_cons, hstep]
          exact hfront

/-- The induction is on the bound: the path that is reported extends the one that has been walked.
-/
theorem isCycle_of_explore {bound : Nat} {current : String} {cycle : List String}
    (h : explore graph target bound path current seen = .error cycle)
    (htrail : Trail graph target seen (path ++ [current])) :
    IsCycle (fun n other => other ∈ successors graph n) cycle := by
  induction bound generalizing path current seen with
  | zero => cases h
  | succ bound ih =>
      rw [explore] at h
      obtain ⟨front, next, back, acc, hedges, hfront, hstep⟩ := exists_of_foldlM_eq_error h
      have hedge : next ∈ successors graph current := by
        rw [hedges]
        exact List.mem_append_right front List.mem_cons_self
      have hgrown : seen ⊆ acc := by
        refine subset_of_edges (fun n acc acc' hrun => ?_) hfront
        exact List.Subset.trans (List.subset_cons_self n acc) (subset_of_explore hrun)
      split at hstep
      · next htarget =>
        obtain rfl := Except.error.inj hstep
        rw [beq_iff_eq.mp htarget] at hedge
        exact ⟨htrail.nodup, target, htrail.starts, isChain_concat htrail.chain hedge⟩
      · next hne =>
        split at hstep
        · cases hstep
        · next hnew =>
          have hfresh : next ∉ acc := fun hin => hnew (List.contains_iff_mem.mpr hin)
          have hother : next ≠ target := fun heq => hne (beq_iff_eq.mpr heq)
          exact ih hstep ((htrail.mono hgrown).visit hedge hother hfresh)

theorem isCycle_of_cycleThrough {name : String} {cycle : List String}
    (h : cycleThrough? graph name = some cycle) :
    IsCycle (fun n other => other ∈ successors graph n) cycle := by
  unfold cycleThrough? at h
  split at h
  · next found hfound =>
    obtain rfl := Option.some.inj h
    refine isCycle_of_explore hfound ⟨?_, List.nodup_singleton name, rfl, ?_⟩
    · exact List.isChain_singleton name
    · exact List.cons_subset_cons name (List.nil_subset _)
  · cases h

/-! ## The check -/

theorem isCycle_of_cycle? (hnames : (specs.map ParserRuleSpec.name).Nodup) {cycle : List String}
    (h : cycle? specs = some cycle) : IsCycle (Opens accepts specs) cycle := by
  obtain ⟨r, -, hfound⟩ := List.exists_of_findSome?_eq_some h
  obtain ⟨hnodup, first, hfirst, hchain⟩ := isCycle_of_cycleThrough hfound
  exact ⟨hnodup, first, hfirst, hchain.imp fun _ _ hedge => (mem_successors_iff hnames).mp hedge⟩

theorem not_transGen_of_cycle? (hnames : (specs.map ParserRuleSpec.name).Nodup)
    (h : cycle? specs = none) (name : String) :
    ¬ Relation.TransGen (Opens accepts specs) name name := by
  intro hpath
  obtain ⟨next, ⟨r, hr, rfl, -⟩, -⟩ := Relation.TransGen.head'_iff.mp hpath
  apply not_transGen_of_cycleThrough (List.findSome?_eq_none_iff.mp h r hr)
  exact Relation.TransGen.mono (fun _ _ hedge => (mem_successors_iff hnames).mpr hedge) _ _ hpath

theorem exists_of_addParserRule {g : Grammar} {scope : References.Scope} {r : Rule}
    {start built : Analysis.ParserRules} (h : Analysis.addParserRule g scope start r = .ok built) :
    ∃ spec, built.specs = start.specs ++ [spec] ∧ spec.name = r.name := by
  unfold Analysis.addParserRule at h
  dsimp only at h
  split at h
  · cases h
  · next spec s hresolved =>
    obtain rfl := Except.ok.inj h
    obtain ⟨_, -, hresolved⟩ := bind_eq_ok.mp hresolved
    obtain ⟨spec', heliminate, hresolved⟩ := bind_eq_ok.mp hresolved
    obtain ⟨rfl, -⟩ := Prod.mk.inj (Except.ok.inj hresolved)
    exact ⟨spec', rfl, (eliminate_shape heliminate).1⟩

theorem names_of_addParserRules {g : Grammar} {scope : References.Scope} {rules : List Rule}
    {start built : Analysis.ParserRules}
    (h : rules.foldlM (Analysis.addParserRule g scope) start = .ok built) :
    built.specs.map ParserRuleSpec.name =
      start.specs.map ParserRuleSpec.name ++ rules.map Rule.name := by
  induction rules generalizing start with
  | nil =>
      obtain rfl := Except.ok.inj h
      exact (List.append_nil _).symm
  | cons r rules ih =>
      rw [List.foldlM_cons, bind_eq_ok] at h
      obtain ⟨middle, hmiddle, h⟩ := h
      obtain ⟨spec, hspecs, hname⟩ := exists_of_addParserRule hmiddle
      rw [ih h, hspecs, List.map_append, List.map_singleton, hname, List.append_assoc,
        List.map_cons, List.singleton_append]

/-- Analysed rules bear different names: repeated names are refused before the rules are built. -/
theorem nodup_names_of_addParserRules {g : Grammar} {scope : References.Scope} {rules : List Rule}
    {vocabulary : List TokenSpec} {built : Analysis.ParserRules}
    (hdistinct : g.checkDuplicates rules = .ok ())
    (h : rules.foldlM (Analysis.addParserRule g scope) ⟨[], vocabulary, []⟩ = .ok built) :
    (built.specs.map ParserRuleSpec.name).Nodup := by
  rw [names_of_addParserRules h, List.map_nil, List.nil_append]
  exact nodup_of_checkDuplicates hdistinct

/-- The check for left recursion is exact for rules of different names, whatever terminals mean. The
rules that are found to match nothing are those that derive the empty word through a leading
alternative; nothing is reported exactly if no rule leads back to itself by references before which
everything can match nothing; and what is reported is a cycle of such references, in order. -/
theorem cycle_check_exact (accepts : Element → τ → Prop)
    (hnames : (specs.map ParserRuleSpec.name).Nodup) :
    (∀ name, name ∈ nullableRules specs ↔ ∃ r ∈ specs, r.name = name ∧ ∃ a ∈ r.leading,
      Derives accepts specs (.items a.elements) []) ∧
    (cycle? specs = none ↔ ∀ name, ¬ Relation.TransGen (Opens accepts specs) name name) ∧
    ∀ cycle, cycle? specs = some cycle → IsCycle (Opens accepts specs) cycle := by
  refine ⟨fun name => mem_nullableRules_iff hnames, ⟨not_transGen_of_cycle? hnames, fun h => ?_⟩,
    fun cycle => isCycle_of_cycle? hnames⟩
  cases hcycle : cycle? specs with
  | none => rfl
  | some cycle =>
      have hfound : IsCycle (Opens accepts specs) cycle := isCycle_of_cycle? hnames hcycle
      obtain ⟨name, hpath⟩ := hfound.transGen
      exact absurd hpath (h name)

/-- A sum may start with a list behind a sign that can be missing, and a list with signs and a sum.
-/
def signedRules : List ParserRuleSpec :=
  [.leftRecursive "sum" [{ elements := [.rule "sign", .block [{ elements := [.rule "list"] }]] }]
      [⟨1, false, [.token "PLUS", .ruleAt "sum" 2]⟩],
    .plain "sign" [{ elements := [.token "MINUS"] }, {}],
    .plain "list" [{ elements := [.repeated (.rule "sign") .oneOrMore true, .ruleAt "sum" 1] }]]

theorem signedRules_check :
    (signedRules.map ParserRuleSpec.name).Nodup ∧ nullableRules signedRules = ["sign"] ∧
      cycle? signedRules = some ["sum", "list"] ∧
      IsCycle (Opens (fun e (name : String) => e = .token name) signedRules) ["sum", "list"] := by
  have hnames : (signedRules.map ParserRuleSpec.name).Nodup := by decide
  have hcycle : cycle? signedRules = some ["sum", "list"] := by decide +kernel
  refine ⟨hnames, by decide +kernel, hcycle, ?_⟩
  exact (cycle_check_exact (fun e (name : String) => e = .token name) hnames).2.2 _ hcycle

end GrammarEngine.LeftRecursion

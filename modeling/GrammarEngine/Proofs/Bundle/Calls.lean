import GrammarEngine.Proofs.Bundle.Grouping
import Mathlib.Data.List.Nodup

/-!
# Calls on bundle sets

A set grows by calls that can be refused. A call takes several steps: it looks whether it may go on,
appends a unit to the arena, and enters the number of the unit with a bundle. A refusal does not
undo the steps that were taken before it. It comes before the first of them, though, so that a
refused call leaves the set as it was, and whatever calls are made, every unit has one bundle.

A set is put together only from parts that fit: the bundles are entered one after the other, each
with units that no bundle before it has, and no unit is left over. So such a set is consistent as
well, and with it all that grow from it.
-/
namespace GrammarEngine

/-- A call that asks a bundle set to grow. -/
inductive BundleCall where
  | insertBundle (source : UnitSource) (payload : List UInt8)
  | addInner (bundle name : String) (payload : List UInt8)
deriving Repr

/-- Steps that change a set and can be refused. -/
abbrev BundleSteps := ExceptT BundleError (StateM BundleSet)

namespace BundleSteps

variable {α β : Type}

/-- What steps give, with the set that they leave. -/
def runOn (s : BundleSet) (x : BundleSteps α) : Except BundleError α × BundleSet := x.run.run s

def pushUnit (u : CompiledUnit) : BundleSteps Nat := do
  let s ← get
  if s.hasUnit u.name then throw (.duplicateUnit u.name)
  else
    modify fun s => { s with units := s.units ++ [u] }
    return s.units.length

def insertBundle (source : UnitSource) (payload : List UInt8) : BundleSteps Nat := do
  let s ← get
  if (s.bundle? source.name).isSome then throw (.duplicateBundle source.name)
  else
    let id ← pushUnit ⟨source.name, payload, false⟩
    modify fun s => { s with bundles := BundleSet.insertSorted ⟨source, id, []⟩ s.bundles }
    return id

def addInner (bundle name : String) (payload : List UInt8) : BundleSteps Nat := do
  let s ← get
  if (s.bundle? bundle).isNone then throw (.unknownBundle bundle)
  else
    let id ← pushUnit ⟨name, payload, true⟩
    modify fun s => { s with bundles := s.bundles.map (BundleSet.give bundle id) }
    return id

def ofCall : BundleCall → BundleSteps Nat
  | .insertBundle source payload => insertBundle source payload
  | .addInner bundle name payload => addInner bundle name payload

end BundleSteps

namespace BundleSet

variable {s t : BundleSet}

/-- The set that a call asks for, with the number of its new unit. -/
def grow (s : BundleSet) : BundleCall → Except BundleError (Nat × BundleSet)
  | .insertBundle source payload => s.insertBundle source payload
  | .addInner bundle name payload => s.addInner bundle name payload

/-- The answer to a call and the set after it, which is the set before it if the call is refused. -/
def answer (s : BundleSet) (call : BundleCall) : Except BundleError Nat × BundleSet :=
  match s.grow call with
  | .ok (id, t) => (.ok id, t)
  | .error e => (.error e, s)

/-- The set after calls on a set, each made whatever became of those before it. -/
def afterCalls (s : BundleSet) (calls : List BundleCall) : BundleSet :=
  calls.foldl (fun s call => (BundleSteps.runOn s (.ofCall call)).2) s

/-! ## Steps -/

section Steps

open BundleSteps

@[simp] theorem runOn_throw {α : Type} (s : BundleSet) (e : BundleError) :
    runOn s (throw e : BundleSteps α) = (.error e, s) := rfl

@[simp] theorem runOn_get_bind {β : Type} (s : BundleSet) (k : BundleSet → BundleSteps β) :
    runOn s (get >>= k) = runOn s (k s) := rfl

theorem runOn_pushUnit_bind {β : Type} (s : BundleSet) (u : CompiledUnit)
    (k : Nat → BundleSteps β) :
    runOn s (BundleSteps.pushUnit u >>= k) =
      match s.pushUnit u with
      | .ok (id, t) => runOn t (k id)
      | .error e => (.error e, s) := by
  rw [BundleSet.pushUnit, BundleSteps.pushUnit, bind_assoc]
  rw [runOn_get_bind]
  split <;> rfl

theorem runOn_ofCall (s : BundleSet) (call : BundleCall) :
    runOn s (ofCall call) = s.answer call := by
  cases call with
  | insertBundle source payload =>
      simp only [ofCall, BundleSteps.insertBundle, answer, grow, BundleSet.insertBundle,
        runOn_get_bind]
      split
      · rfl
      · rw [runOn_pushUnit_bind]
        cases s.pushUnit ⟨source.name, payload, false⟩ <;> rfl
  | addInner bundle name payload =>
      simp only [ofCall, BundleSteps.addInner, answer, grow, BundleSet.addInner, runOn_get_bind]
      split
      · rfl
      · rw [runOn_pushUnit_bind]
        cases s.pushUnit ⟨name, payload, true⟩ <;> rfl

end Steps

/-! ## What holds throughout -/

/-- Units have different names and one bundle each. A bundle is found by the name of its source, its
primary unit bears this name, and the other units in it are inner ones. -/
structure Sound (s : BundleSet) : Prop where
  names : (s.units.map CompiledUnit.name).Nodup
  inRange : ∀ b ∈ s.bundles, ∀ id ∈ b.unitIds, id < s.units.length
  once : ∀ b ∈ s.bundles, b.unitIds.Nodup
  owned : ∀ id < s.units.length, ∃! b, b ∈ s.bundles ∧ id ∈ b.unitIds
  keys : (s.bundles.map Bundle.name).Nodup
  keyed : ∀ b ∈ s.bundles, s.bundle? b.source.name = some b
  primary : ∀ b ∈ s.bundles,
    ∃ u, s.unit? b.primary = some u ∧ u.name = b.source.name ∧ u.inner = false
  inner : ∀ b ∈ s.bundles, ∀ id ∈ b.inner, ∃ u, s.unit? id = some u ∧ u.inner = true

theorem Partitioned.bundle_unique (hs : s.Partitioned) {b c : Bundle} (hb : b ∈ s.bundles)
    (hc : c ∈ s.bundles) {id : Nat} (hid : id ∈ b.unitIds) (hid' : id ∈ c.unitIds) : b = c := by
  have hnodup : (s.bundles.flatMap Bundle.unitIds).Nodup :=
    hs.placed.nodup_iff.mpr List.nodup_range
  have hdisjoint := (List.nodup_flatMap.mp hnodup).2
  by_contra hne
  have hsymm : Std.Symm (Function.onFun List.Disjoint Bundle.unitIds) :=
    ⟨fun _ _ h _ hid hid' => h hid' hid⟩
  exact hdisjoint.forall hb hc hne hid hid'

theorem Partitioned.bundle?_eq (hs : s.Partitioned) {b : Bundle} (hb : b ∈ s.bundles) :
    s.bundle? b.name = some b :=
  find?_key_of_mem hs.bundles_nodup hb

theorem Consistent.sound (hs : s.Consistent) : s.Sound where
  names := hs.units_nodup
  inRange b hb id hid :=
    List.mem_range.mp (hs.placed.mem_iff.mp (List.mem_flatMap.mpr ⟨b, hb, hid⟩))
  once b hb := (List.nodup_flatMap.mp (hs.placed.nodup_iff.mpr List.nodup_range)).1 b hb
  owned id hid := by
    obtain ⟨b, hb, hmem⟩ :=
      List.mem_flatMap.mp (hs.placed.mem_iff.mpr (List.mem_range.mpr hid))
    exact ⟨b, ⟨hb, hmem⟩, fun c hc => hs.bundle_unique hc.1 hb hc.2 hmem⟩
  keys := hs.bundles_nodup
  keyed b hb := hs.bundle?_eq hb
  primary b hb := by
    obtain ⟨u, hu, hprimary⟩ := (hs.fits b hb).primary
    simp only [isPrimaryOf, Bool.and_eq_true, Bool.not_eq_true', beq_iff_eq] at hprimary
    exact ⟨u, hu, hprimary.2, hprimary.1⟩
  inner b hb := (hs.fits b hb).inner

theorem Built.answer (hs : Built s) (call : BundleCall) : Built (s.answer call).2 := by
  unfold BundleSet.answer
  split
  · next id t hgrow =>
    cases call with
    | insertBundle source payload => exact hs.insertBundle hgrow
    | addInner bundle name payload => exact hs.addInner hgrow
  · exact hs

theorem Built.afterCalls (hs : Built s) (calls : List BundleCall) : Built (s.afterCalls calls) := by
  induction calls generalizing s with
  | nil => exact hs
  | cons call calls ih =>
      rw [BundleSet.afterCalls, List.foldl_cons, runOn_ofCall]
      exact ih (hs.answer call)

/-- Let any calls be made on the empty set, in steps that change the set as they go. The set is then
sound and is made up from its own units and bundles. The steps of one more call end as the call is
answered: in the grown set, or with a refusal and in the set that was there before. -/
theorem afterCalls_sound (calls : List BundleCall) :
    let s := afterCalls {} calls
    s.Sound ∧ ofParts s.units s.bundles = .ok s ∧
      ∀ call, BundleSteps.runOn s (.ofCall call) = s.answer call ∧
        ∀ e, (BundleSteps.runOn s (.ofCall call)).1 = .error e →
          (BundleSteps.runOn s (.ofCall call)).2 = s := by
  intro s
  have hs : s.Consistent := (Built.empty.afterCalls calls).consistent
  refine ⟨hs.sound, hs.ofParts_eq_ok, fun call => ⟨runOn_ofCall s call, fun e he => ?_⟩⟩
  rw [runOn_ofCall] at he ⊢
  unfold answer at he ⊢
  split at he
  · cases he
  · rfl

/-- Calls of which one names a bundle that is there, one a bundle that is not, and one a unit that
is there. -/
def mixedCalls : List BundleCall :=
  [.insertBundle ⟨"A", "", .generated⟩ [1], .addInner "A" "A$b" [2],
    .insertBundle ⟨"A", "", .generated⟩ [3], .addInner "B" "B$c" [4],
    .insertBundle ⟨"A$b", "", .utility⟩ [5]]

theorem mixedCalls_sound :
    let s := afterCalls {} mixedCalls
    s.units.map CompiledUnit.name = ["A", "A$b"] ∧ s.Sound ∧ ofParts s.units s.bundles = .ok s ∧
      (BundleSteps.runOn s (.ofCall (.addInner "A" "A$b" []))).1 = .error (.duplicateUnit "A$b") ∧
      (BundleSteps.runOn s (.ofCall (.addInner "A" "A$b" []))).2 = s := by
  obtain ⟨hsound, hparts, hcalls⟩ := afterCalls_sound mixedCalls
  have hrefused : (BundleSteps.runOn (afterCalls {} mixedCalls)
      (.ofCall (.addInner "A" "A$b" []))).1 = .error (.duplicateUnit "A$b") := by
    rfl
  exact ⟨rfl, hsound, hparts, hrefused, (hcalls _).2 _ hrefused⟩

end BundleSet

end GrammarEngine

/-! ## Sets that are put together from parts -/
namespace GrammarEngine.BundleSet

variable {s t : BundleSet} {units : List CompiledUnit} {b : Bundle} {bundles : List Bundle}

theorem claim_cases {claimed claimed' : List Nat} {id : Nat}
    (h : claim units claimed id = .ok claimed') :
    id < units.length ∧ id ∉ claimed ∧ claimed' = id :: claimed := by
  unfold claim at h
  split at h
  · cases h
  · next u hu =>
    split at h
    · cases h
    · next hfree =>
      cases h
      exact ⟨(List.getElem?_eq_some_iff.mp hu).1, by simpa using hfree, rfl⟩

/-- The induction is on the units that are claimed, each of which has to be free. -/
theorem claims_cases {ids claimed claimed' : List Nat} (hnodup : claimed.Nodup)
    (h : ids.foldlM (claim units) claimed = .ok claimed') :
    (∀ id ∈ ids, id < units.length) ∧ claimed'.Nodup ∧ claimed' = ids.reverse ++ claimed := by
  induction ids generalizing claimed with
  | nil =>
      cases h
      exact ⟨fun _ hid => absurd hid List.not_mem_nil, hnodup, rfl⟩
  | cons id rest ih =>
      rw [List.foldlM_cons, bind_eq_ok] at h
      obtain ⟨next, hclaim, h⟩ := h
      obtain ⟨hrange, hfree, rfl⟩ := claim_cases hclaim
      obtain ⟨hrest, hnodup', rfl⟩ := ih (List.nodup_cons.mpr ⟨hfree, hnodup⟩) h
      refine ⟨List.forall_mem_cons.mpr ⟨hrange, hrest⟩, hnodup', ?_⟩
      rw [List.reverse_cons, List.append_assoc, List.singleton_append]

theorem primary_of_checkPrimary (h : checkPrimary units b = .ok ()) :
    ∃ u, units[b.primary]? = some u ∧ isPrimaryOf u b.name = true := by
  unfold checkPrimary at h
  split at h
  · cases h
  · next u hu =>
    split at h
    · next hname => exact ⟨u, hu, hname⟩
    · cases h

/-- A table of bundles under construction, in which every claimed unit has its bundle. -/
structure Assembly.InOrder (units : List CompiledUnit) (a : Assembly) : Prop where
  bundles_nodup : (a.bundles.map Bundle.name).Nodup
  sorted : a.bundles.Pairwise fun b c => b.name < c.name
  placed : (a.bundles.flatMap Bundle.unitIds).Perm a.claimed
  claimed_nodup : a.claimed.Nodup
  inRange : ∀ id ∈ a.claimed, id < units.length
  fits : ∀ b ∈ a.bundles, Fits units b

theorem Assembly.inOrder_empty : Assembly.InOrder units {} where
  bundles_nodup := List.nodup_nil
  sorted := List.Pairwise.nil
  placed := .nil
  claimed_nodup := List.nodup_nil
  inRange _ hid := absurd hid List.not_mem_nil
  fits _ hb := absurd hb List.not_mem_nil

theorem addPart_cases {a a' : Assembly} (h : addPart units a b = .ok a') :
    b.name ∉ a.bundles.map Bundle.name ∧ checkPrimary units b = .ok () ∧
      firstUnflagged? units b.inner = none ∧
      ∃ claimed, b.unitIds.foldlM (claim units) a.claimed = .ok claimed ∧
        a' = ⟨insertSorted b a.bundles, claimed⟩ := by
  unfold addPart at h
  cases hany : a.bundles.any fun c => c.name == b.name with
  | true =>
      rw [if_pos hany] at h
      cases h
  | false =>
      have hname : b.name ∉ a.bundles.map Bundle.name := by
        intro hmem
        obtain ⟨c, hc, hname⟩ := List.mem_map.mp hmem
        exact List.any_eq_false.mp hany c hc (by simpa using hname)
      rw [if_neg (by simp [hany])] at h
      obtain ⟨claimed, hclaims, h⟩ := bind_eq_ok.mp h
      obtain ⟨_, hprimary, h⟩ := bind_eq_ok.mp h
      cases hinner : firstUnflagged? units b.inner with
      | some u =>
          simp only [hinner] at h
          cases h
      | none =>
          simp only [hinner] at h
          exact ⟨hname, hprimary, rfl, claimed, hclaims, (Except.ok.inj h).symm⟩

theorem inner_of_firstUnflagged? {ids : List Nat} (hrange : ∀ id ∈ ids, id < units.length)
    (h : firstUnflagged? units ids = none) :
    ∀ id ∈ ids, ∃ u, units[id]? = some u ∧ u.inner = true := by
  intro id hid
  have hu := List.getElem?_eq_getElem (hrange id hid)
  refine ⟨_, hu, ?_⟩
  have hflag := List.findSome?_eq_none_iff.mp h id hid
  simpa [hu] using hflag

theorem Assembly.InOrder.addPart {a a' : Assembly} (ha : a.InOrder units)
    (h : BundleSet.addPart units a b = .ok a') : a'.InOrder units := by
  obtain ⟨hname, hprimary, hinner, claimed, hclaims, rfl⟩ := addPart_cases h
  obtain ⟨hrange, hnodup, rfl⟩ := claims_cases ha.claimed_nodup hclaims
  have hperm := perm_insertSorted b a.bundles
  have hfits : Fits units b :=
    ⟨primary_of_checkPrimary hprimary,
      inner_of_firstUnflagged? (fun id hid => hrange id (List.mem_cons_of_mem _ hid)) hinner⟩
  refine ⟨?_, sorted_insertSorted hname ha.sorted, ?_, hnodup, ?_, ?_⟩
  · have hnames : (b.name :: a.bundles.map Bundle.name).Nodup :=
      List.nodup_cons.mpr ⟨hname, ha.bundles_nodup⟩
    exact (hperm.map Bundle.name).nodup_iff.mpr hnames
  · refine (hperm.flatMap_right Bundle.unitIds).trans ?_
    exact (List.reverse_perm b.unitIds).symm.append ha.placed
  · intro id hid
    rcases List.mem_append.mp hid with hid | hid
    · exact hrange id (List.mem_reverse.mp hid)
    · exact ha.inRange id hid
  · intro c hc
    rcases mem_insertSorted.mp hc with rfl | hc
    · exact hfits
    · exact ha.fits c hc

theorem mem_of_firstOrphan? {claimed : List Nat} (h : firstOrphan? units claimed = none) :
    ∀ id < units.length, id ∈ claimed := by
  intro id hid
  by_contra hfree
  have hfound : ((List.range units.length).find? fun id => !claimed.contains id).isSome = true :=
    List.find?_isSome.mpr ⟨id, List.mem_range.mpr hid, by simpa using hfree⟩
  obtain ⟨found, hfind⟩ := Option.isSome_iff_exists.mp hfound
  have hrange := List.mem_range.mp (List.mem_of_find?_eq_some hfind)
  rw [firstOrphan?, hfind, Option.bind_some, List.getElem?_eq_getElem hrange] at h
  cases h

/-- What is put together passed all checks. -/
theorem ofParts_cases (h : ofParts units bundles = .ok s) :
    firstRepeated? [] units = none ∧
      ∃ a : Assembly, bundles.foldlM (addPart units) {} = .ok a ∧
        firstOrphan? units a.claimed = none ∧ s = ⟨units, a.bundles⟩ := by
  unfold ofParts at h
  cases hrepeated : firstRepeated? [] units with
  | some name =>
      simp only [hrepeated] at h
      cases h
  | none =>
      simp only [hrepeated] at h
      obtain ⟨a, hparts, h⟩ := bind_eq_ok.mp h
      cases horphan : firstOrphan? units a.claimed with
      | some u =>
          simp only [horphan] at h
          cases h
      | none =>
          simp only [horphan] at h
          exact ⟨rfl, a, hparts, horphan, (Except.ok.inj h).symm⟩

/-- What is put together has these units, and they fit. -/
theorem consistent_of_ofParts (h : ofParts units bundles = .ok s) :
    s.units = units ∧ s.Consistent := by
  obtain ⟨hrepeated, a, hparts, horphan, rfl⟩ := ofParts_cases h
  have ha : a.InOrder units := foldlM_invariant (Assembly.InOrder units)
    Assembly.inOrder_empty (fun _ _ _ _ ha hadd => ha.addPart hadd) hparts
  have hclaimed : a.claimed.Perm (List.range units.length) := by
    refine (List.perm_ext_iff_of_nodup ha.claimed_nodup List.nodup_range).mpr fun id => ?_
    rw [List.mem_range]
    exact ⟨ha.inRange id, mem_of_firstOrphan? horphan id⟩
  exact ⟨rfl, ⟨(firstRepeated?_eq_none.mp hrepeated).1, ha.bundles_nodup,
    ha.placed.trans hclaimed⟩, ha.sorted, ha.fits⟩

theorem perm_of_addParts {a a' : Assembly} (h : bundles.foldlM (addPart units) a = .ok a') :
    a'.bundles.Perm (a.bundles ++ bundles) := by
  induction bundles generalizing a with
  | nil =>
      obtain rfl := Except.ok.inj h
      exact .of_eq (List.append_nil _).symm
  | cons b rest ih =>
      rw [List.foldlM_cons, bind_eq_ok] at h
      obtain ⟨next, hadd, h⟩ := h
      obtain ⟨_, _, _, claimed, _, rfl⟩ := addPart_cases hadd
      have hplace : (insertSorted b a.bundles ++ rest).Perm (a.bundles ++ b :: rest) :=
        ((perm_insertSorted b a.bundles).append_right rest).trans List.perm_middle.symm
      exact (ih h).trans hplace

/-- What is put together has these bundles, in the order of their names. -/
theorem perm_of_ofParts (h : ofParts units bundles = .ok s) : s.bundles.Perm bundles := by
  obtain ⟨_, a, hparts, _, rfl⟩ := ofParts_cases h
  exact perm_of_addParts hparts

/-- The sets that can be made: those that are put together from parts, such as the empty one, and
those that grow from them. -/
inductive Made : BundleSet → Prop where
  | ofParts {units : List CompiledUnit} {bundles : List Bundle} {s : BundleSet} :
      BundleSet.ofParts units bundles = .ok s → Made s
  | insertBundle {s t : BundleSet} {source : UnitSource} {payload : List UInt8} {id : Nat} :
      Made s → s.insertBundle source payload = .ok (id, t) → Made t
  | addInner {s t : BundleSet} {bundle name : String} {payload : List UInt8} {id : Nat} :
      Made s → s.addInner bundle name payload = .ok (id, t) → Made t

theorem Made.consistent (h : Made s) : s.Consistent := by
  induction h with
  | ofParts hparts => exact (consistent_of_ofParts hparts).2
  | insertBundle _ hinsert ih => exact ih.insertBundle hinsert
  | addInner _ hadd ih => exact ih.addInner hadd

theorem Built.made (h : Built s) : Made s := .ofParts h.consistent.ofParts_eq_ok

end GrammarEngine.BundleSet

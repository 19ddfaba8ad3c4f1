import GrammarEngine.Analysis.Imports
import GrammarEngine.Proofs.Checked
import GrammarEngine.Proofs.FirstOccurrences
import Mathlib.Data.List.Perm.Subperm
import Mathlib.Logic.Relation

/-!
# Merged imports

Merging follows imports depth-first and ends: a grammar on the way back to itself is refused, and a
way that is not can be no longer than there are grammars. So it fails exactly if a cycle of imports
can be reached. Otherwise a grammar keeps its own declarations, and behind them stand those of the
grammars met on the way, each under a name that has not occurred before.
-/
namespace GrammarEngine.Imports

variable {all : List Grammar} {g h merged : Grammar} {chain names : List String}

theorem find?_eq_some {name : String} (hfind : find? all name = some g) :
    g ∈ all ∧ g.name = name :=
  ⟨List.mem_of_find?_eq_some hfind, by simpa using List.find?_some hfind⟩

/-! ## Adding declarations -/

theorem addNames_eq (names more : List String) :
    addNames names more = extendBy id names more := by
  induction more generalizing names with
  | nil => exact (extendBy_nil id names).symm
  | cons n more ih =>
      rw [addNames, List.foldl_cons, ← addNames, ih, extendBy_cons, List.map_id]
      simp only [List.contains_iff_mem, id_eq]

theorem addRules_eq (rules more : List Rule) :
    addRules rules more = extendBy Rule.name rules more := by
  induction more generalizing rules with
  | nil => exact (extendBy_nil Rule.name rules).symm
  | cons r more ih =>
      have hany : rules.any (fun q => q.name == r.name) = true ↔ r.name ∈ rules.map Rule.name := by
        simp
      rw [addRules, List.foldl_cons, ← addRules, ih, extendBy_cons]
      simp only [hany]

/-- A grammar behind whose own declarations stand those of others, each under a name that has not
occurred before. -/
def behind (g : Grammar) (others : List Grammar) : Grammar :=
  { g with
    rules := extendBy Rule.name g.rules (others.flatMap Grammar.rules)
    tokens := extendBy id g.tokens (others.flatMap Grammar.tokens)
    channels := extendBy id g.channels (others.flatMap Grammar.channels)
    modes := extendBy id g.modes (others.flatMap Grammar.modes) }

theorem behind_nil (g : Grammar) : behind g [] = g := by
  simp only [behind, List.flatMap_nil, extendBy_nil]

/-- An import stands with all that it imports where it is imported. -/
theorem absorb_behind (g h : Grammar) (before below : List Grammar) :
    absorb (behind g before) (behind h below) = behind g (before ++ h :: below) := by
  simp only [absorb, behind, addRules_eq, addNames_eq, extendBy_extendBy, extendBy_extended,
    List.flatMap_append, List.flatMap_cons]

/-- A grammar that is met again adds nothing. -/
theorem behind_firstsBy (g : Grammar) {others : List Grammar}
    (hsame : ∀ h ∈ others, ∀ k ∈ others, h.name = k.name → h = k) :
    behind g (firstsBy Grammar.name [] others) = behind g others := by
  have hparts : ∀ {α : Type} (part : Grammar → List α) (key : α → String) (seen : List String),
      firstsBy key seen ((firstsBy Grammar.name [] others).flatMap part) =
        firstsBy key seen (others.flatMap part) := fun part key seen =>
    firstsBy_flatMap_firstsBy (fun h hh k hk hname => congrArg part (hsame h hh k hk hname))
      fun h _ hin => absurd hin List.not_mem_nil
  simp only [behind, extendBy, hparts]

/-! ## Following imports -/

/-- The first grammar imports the second one. -/
def Imported (all : List Grammar) (g h : Grammar) : Prop :=
  ∃ name ∈ g.imports, find? all name = some h

/-- The grammars that are met on following imports depth-first, each one in front of those that it
imports itself. -/
inductive Visits (all : List Grammar) : List String → List Grammar → Prop
  | nil : Visits all [] []
  | cons {name : String} {names : List String} {h : Grammar} {below rest : List Grammar} :
      find? all name = some h → Visits all h.imports below → Visits all names rest →
      Visits all (name :: names) (h :: below ++ rest)

/-- Merging without a bound: the imports of a grammar from some name on are added to what has been
merged. The chain holds the names of the grammar and of those that led to it. -/
inductive Merges (all : List Grammar) : List String → Grammar → List String → Grammar →
    Except GenerationError Grammar → Prop
  | nil {chain : List String} {g merged : Grammar} : Merges all chain g [] merged (.ok merged)
  | missing {chain names : List String} {name : String} {g merged : Grammar} :
      find? all name = none →
      Merges all chain g (name :: names) merged (.error (.missingImport name g.name))
  | circular {chain names : List String} {name : String} {g h merged : Grammar} :
      find? all name = some h → h.name ∈ chain →
      Merges all chain g (name :: names) merged (.error (.grammar h.name .circularImport))
  | refused {chain names : List String} {name : String} {g h merged : Grammar}
      {e : GenerationError} :
      find? all name = some h → h.name ∉ chain →
      Merges all (h.name :: chain) h h.imports h (.error e) →
      Merges all chain g (name :: names) merged (.error e)
  | absorbed {chain names : List String} {name : String} {g h merged inner : Grammar}
      {result : Except GenerationError Grammar} :
      find? all name = some h → h.name ∉ chain →
      Merges all (h.name :: chain) h h.imports h (.ok inner) →
      Merges all chain g names (absorb merged inner) result →
      Merges all chain g (name :: names) merged result

theorem merge_of_mem (bound : Nat) (hmem : g.name ∈ chain) :
    merge all bound chain g = .error (.grammar g.name .circularImport) := by
  cases bound with
  | zero => rfl
  | succ bound => rw [merge, if_pos (List.contains_iff_mem.mpr hmem)]

/-- Imports are merged one by one, where it is known how those off the chain are merged. -/
theorem merges_foldlM (bound : Nat) {step : Grammar → String → Except GenerationError Grammar}
    (hnone : ∀ merged name, find? all name = none →
      step merged name = .error (.missingImport name g.name))
    (hsome : ∀ merged name h, find? all name = some h →
      step merged name = (merge all bound chain h).map (absorb merged))
    (hinner : ∀ h ∈ all, h.name ∉ chain →
      Merges all (h.name :: chain) h h.imports h (merge all bound chain h))
    (names : List String) (merged : Grammar) :
    Merges all chain g names merged (names.foldlM step merged) := by
  induction names generalizing merged with
  | nil => exact .nil
  | cons name names ih =>
      rw [List.foldlM_cons]
      cases hfind : find? all name with
      | none =>
          rw [hnone merged name hfind]
          exact .missing hfind
      | some h =>
          rw [hsome merged name h hfind]
          by_cases hmem : h.name ∈ chain
          · rw [merge_of_mem bound hmem]
            exact .circular hfind hmem
          · have hrun := hinner h (find?_eq_some hfind).1 hmem
            cases hmerge : merge all bound chain h with
            | error e =>
                rw [hmerge] at hrun
                exact .refused hfind hmem hrun
            | ok inner =>
                rw [hmerge] at hrun
                exact .absorbed hfind hmem hrun (ih (absorb merged inner))

/-- The bound is never met, as a chain of different grammars is no longer than there are grammars.
-/
theorem merges_merge (bound : Nat) (hg : g ∈ all) (hchain : (g.name :: chain).Nodup)
    (hsub : g.name :: chain ⊆ all.map Grammar.name) (hbound : all.length ≤ bound + chain.length) :
    Merges all (g.name :: chain) g g.imports g (merge all bound chain g) := by
  induction bound generalizing g chain with
  | zero =>
      have hlength := (hchain.subperm hsub).length_le
      rw [List.length_cons, List.length_map] at hlength
      omega
  | succ bound ih =>
      rw [merge, if_neg (by simpa using (List.nodup_cons.mp hchain).1)]
      refine merges_foldlM bound (fun merged name hfind => by simp only [hfind])
        (fun merged name h hfind => by simp only [hfind]) (fun h hh hmem => ?_) g.imports g
      exact ih hh (List.nodup_cons.mpr ⟨hmem, hchain⟩)
        (List.cons_subset.mpr ⟨List.mem_map_of_mem hh, hsub⟩) (by rw [List.length_cons]; omega)

/-! ## Cycles -/

section Cycles

variable {result : Except GenerationError Grammar}

/-- Where nothing is missing, merging fails only if imports lead back to a grammar from which the
failing one was reached. -/
theorem Merges.exists_cycle {e : GenerationError} (hrun : Merges all chain g names merged result)
    (hresult : result = .error e) (hdistinct : (all.map Grammar.name).Nodup)
    (hpresent : ∀ g ∈ all, ∀ name ∈ g.imports, (find? all name).isSome) (hg : g ∈ all)
    (hnames : names ⊆ g.imports)
    (hchain : ∀ k ∈ all, k.name ∈ chain → Relation.ReflTransGen (Imported all) k g) :
    (∃ name, e = .grammar name .circularImport) ∧
      ∃ h, Relation.ReflTransGen (Imported all) g h ∧ Relation.TransGen (Imported all) h h := by
  induction hrun with
  | nil => cases hresult
  | @missing _ _ name g _ hfind =>
      have hsome := hpresent g hg name (hnames List.mem_cons_self)
      rw [hfind] at hsome
      cases hsome
  | @circular _ _ name g h _ hfind hmem =>
      obtain rfl := Except.error.inj hresult
      have hstep : Imported all g h := ⟨name, hnames List.mem_cons_self, hfind⟩
      have hback := hchain h (find?_eq_some hfind).1 hmem
      exact ⟨⟨h.name, rfl⟩, h, .single hstep, .tail' hback hstep⟩
  | @refused chain _ name g h _ e' hfind _ _ ih =>
      have hh := (find?_eq_some hfind).1
      have hstep : Imported all g h := ⟨name, hnames List.mem_cons_self, hfind⟩
      have hlonger : ∀ k ∈ all, k.name ∈ h.name :: chain →
          Relation.ReflTransGen (Imported all) k h := by
        intro k hk hmem
        rcases List.mem_cons.mp hmem with heq | hmem
        · rw [List.inj_on_of_nodup_map hdistinct hk hh heq]
        · exact (hchain k hk hmem).tail hstep
      obtain ⟨hname, cyclic, hreach, hcycle⟩ :=
        ih hresult hh (List.Subset.refl _) hlonger
      exact ⟨hname, cyclic, .head hstep hreach, hcycle⟩
  | absorbed _ _ _ _ _ ih =>
      exact ih hresult hg (List.cons_subset.mp hnames).2 hchain

/-- Where merging succeeds, every import on the way has been merged with a longer chain. -/
theorem Merges.exists_import {inner : Grammar} (hrun : Merges all chain g names merged result)
    (hresult : result = .ok inner) {name : String} (hname : name ∈ names)
    (hfind : find? all name = some h) :
    h.name ∉ chain ∧ ∃ inner, Merges all (h.name :: chain) h h.imports h (.ok inner) := by
  induction hrun generalizing inner with
  | nil => cases hname
  | missing | circular | refused => cases hresult
  | @absorbed _ _ name' g h' _ _ _ hfind' hfresh hinner _ _ ih =>
      rcases List.mem_cons.mp hname with rfl | hname
      · obtain rfl := Option.some.inj (hfind.symm.trans hfind')
        exact ⟨hfresh, _, hinner⟩
      · exact ih hresult hname

/-- Every grammar that can be reached has been merged with all grammars on the way in its chain. -/
theorem Merges.exists_reached {inner : Grammar}
    (hrun : Merges all (g.name :: chain) g g.imports g (.ok inner))
    (hreach : Relation.TransGen (Imported all) g h) :
    ∃ chain' inner', g.name ∈ chain' ∧ h.name ∉ chain' ∧
      Merges all (h.name :: chain') h h.imports h (.ok inner') := by
  induction hreach with
  | single hstep =>
      obtain ⟨name, hname, hfind⟩ := hstep
      obtain ⟨hfresh, inner', hinner⟩ := hrun.exists_import rfl hname hfind
      exact ⟨_, inner', List.mem_cons_self, hfresh, hinner⟩
  | tail _ hstep ih =>
      obtain ⟨name, hname, hfind⟩ := hstep
      obtain ⟨chain', inner', hmem, -, hmid⟩ := ih
      obtain ⟨hfresh, inner'', hinner⟩ := hmid.exists_import rfl hname hfind
      exact ⟨_, inner'', List.mem_cons_of_mem _ hmem, hfresh, hinner⟩

theorem Merges.not_cycle {inner : Grammar}
    (hrun : Merges all (g.name :: chain) g g.imports g (.ok inner))
    (hreach : Relation.ReflTransGen (Imported all) g h) :
    ¬ Relation.TransGen (Imported all) h h := by
  intro hcycle
  have hreached : ∃ chain' inner', Merges all (h.name :: chain') h h.imports h (.ok inner') := by
    rcases Relation.reflTransGen_iff_eq_or_transGen.mp hreach with rfl | hreach
    · exact ⟨chain, inner, hrun⟩
    · obtain ⟨chain', inner', -, -, hrun'⟩ := hrun.exists_reached hreach
      exact ⟨chain', inner', hrun'⟩
  obtain ⟨chain', inner', hrun'⟩ := hreached
  obtain ⟨_, _, hmem, hfresh, -⟩ := hrun'.exists_reached hcycle
  exact hfresh hmem

end Cycles

/-! ## What is merged -/

/-- What has been merged stands behind the declarations of the grammars met so far. -/
theorem Merges.exists_visits {own : Grammar} {before : List Grammar}
    {result : Except GenerationError Grammar} (hrun : Merges all chain g names merged result)
    (hmerged : merged = behind own before) {inner : Grammar} (hresult : result = .ok inner) :
    ∃ visited, Visits all names visited ∧ inner = behind own (before ++ visited) := by
  induction hrun generalizing own before inner with
  | nil =>
      refine ⟨[], .nil, ?_⟩
      rw [List.append_nil, ← hmerged]
      exact (Except.ok.inj hresult).symm
  | missing | circular | refused => cases hresult
  | @absorbed _ _ _ _ h _ inner' _ hfind _ _ _ ihInner ihRest =>
      obtain ⟨below, hbelow, hinner⟩ := ihInner (behind_nil h).symm rfl
      rw [List.nil_append] at hinner
      have habsorb : absorb (behind own before) inner' = behind own (before ++ h :: below) := by
        rw [hinner, absorb_behind]
      obtain ⟨rest, hrest, hlast⟩ := ihRest (hmerged ▸ habsorb) hresult
      exact ⟨h :: below ++ rest, .cons hfind hbelow hrest, by rw [hlast, List.append_assoc]⟩

theorem Visits.subset {visited : List Grammar} (hvisits : Visits all names visited) :
    visited ⊆ all := by
  induction hvisits with
  | nil => exact List.nil_subset _
  | cons hfind _ _ ihBelow ihRest =>
      exact List.append_subset.mpr
        ⟨List.cons_subset.mpr ⟨(find?_eq_some hfind).1, ihBelow⟩, ihRest⟩

/-- Merging the imports of a grammar ends. It fails, as a circular import, exactly if a cycle of
imports can be reached. Otherwise the declarations of the grammar are followed by those of the
grammars that are met depth-first, each under a name that has not occurred before; so the first rule
of a name is taken, no name is imported twice, and it makes no difference on how many ways a grammar
is reached. -/
theorem mergeRoot_exact (hdistinct : (all.map Grammar.name).Nodup)
    (hpresent : ∀ g ∈ all, ∀ name ∈ g.imports, (find? all name).isSome) (hg : g ∈ all) :
    Merges all [g.name] g g.imports g (mergeRoot all g) ∧
      ((∃ name, mergeRoot all g = .error (.grammar name .circularImport)) ↔
        ∃ h, Relation.ReflTransGen (Imported all) g h ∧ Relation.TransGen (Imported all) h h) ∧
      ((¬ ∃ h, Relation.ReflTransGen (Imported all) g h ∧ Relation.TransGen (Imported all) h h) →
        ∃ visited merged, Visits all g.imports visited ∧ mergeRoot all g = .ok merged ∧
          merged = behind g visited ∧ merged = behind g (firstsBy Grammar.name [] visited) ∧
          (∀ name, merged.rule? name =
            ((g :: visited).flatMap Grammar.rules).find? fun r => r.name == name) ∧
          ∃ imported, merged.rules = g.rules ++ imported ∧ (imported.map Rule.name).Nodup ∧
            ∀ r ∈ imported, r.name ∉ g.rules.map Rule.name) := by
  have hrun : Merges all [g.name] g g.imports g (mergeRoot all g) :=
    merges_merge all.length hg (List.nodup_singleton g.name)
      (List.cons_subset.mpr ⟨List.mem_map_of_mem hg, List.nil_subset _⟩) (Nat.le_add_right _ _)
  have hcycle : ∀ e, mergeRoot all g = .error e → (∃ name, e = .grammar name .circularImport) ∧
      ∃ h, Relation.ReflTransGen (Imported all) g h ∧ Relation.TransGen (Imported all) h h := by
    intro e he
    refine hrun.exists_cycle he hdistinct hpresent hg (List.Subset.refl _) fun k hk hmem => ?_
    rw [List.inj_on_of_nodup_map hdistinct hk hg (List.mem_singleton.mp hmem)]
  refine ⟨hrun, ⟨?circular, ?cyclic⟩, ?acyclic⟩
  case circular => exact fun ⟨name, he⟩ => (hcycle _ he).2
  case cyclic =>
    rintro ⟨h, hreach, hloop⟩
    cases hmerge : mergeRoot all g with
    | error e =>
        obtain ⟨⟨name, rfl⟩, -⟩ := hcycle e hmerge
        exact ⟨name, rfl⟩
    | ok merged => exact absurd hloop ((hmerge ▸ hrun).not_cycle hreach)
  case acyclic =>
    intro hacyclic
    cases hmerge : mergeRoot all g with
    | error e => exact absurd (hcycle e hmerge).2 hacyclic
    | ok merged =>
        obtain ⟨visited, hvisits, hmerged⟩ := hrun.exists_visits (behind_nil g).symm hmerge
        rw [List.nil_append] at hmerged
        have hsame : ∀ h ∈ visited, ∀ k ∈ visited, h.name = k.name → h = k := fun h hh k hk =>
          List.inj_on_of_nodup_map hdistinct (hvisits.subset hh) (hvisits.subset hk)
        have hrules : merged.rules = g.rules ++
            firstsBy Rule.name (g.rules.map Rule.name) (visited.flatMap Grammar.rules) := by
          rw [hmerged]
          rfl
        refine ⟨visited, merged, hvisits, rfl, hmerged,
          hmerged.trans (behind_firstsBy g hsame).symm,
          fun name => ?_, _, hrules, nodup_firstsBy _ _ _, ?_⟩
        · rw [hmerged, List.flatMap_cons]
          exact find?_extendBy (· == name) g.rules _
        · intro r hr
          exact (mem_map_firstsBy.mp (List.mem_map_of_mem hr)).2

/-- Rules without a body stand for the declarations of a grammar. -/
def grammarWith (name : String) (imports rules : List String) : Grammar :=
  { name, kind := .combined, file := name, options := [], imports, tokens := [], channels := []
    modes := [], rules := rules.map fun r => ⟨r, false, defaultMode, [], {}⟩ }

/-- Two imports share a third one, which has a rule of the same name as the second of them. -/
def diamond : List Grammar :=
  [grammarWith "G" ["A", "B"] ["s"], grammarWith "A" ["C"] ["a"], grammarWith "B" ["C"] ["a", "b"],
    grammarWith "C" [] ["b", "c"]]

/-- The rules of the shared import are taken once, and before those of the second import. -/
theorem diamond_merged :
    (diamond.map Grammar.name).Nodup ∧
      (∀ g ∈ diamond, ∀ name ∈ g.imports, (find? diamond name).isSome) ∧
      ∃ g ∈ diamond, g.imports = ["A", "B"] ∧
        Merges diamond [g.name] g g.imports g (mergeRoot diamond g) ∧
        ∃ visited merged, Visits diamond g.imports visited ∧ mergeRoot diamond g = .ok merged ∧
          merged = behind g (firstsBy Grammar.name [] visited) ∧
          merged.rules.map Rule.name = ["s", "a", "b", "c"] := by
  have hdistinct : (diamond.map Grammar.name).Nodup := by decide
  have hpresent : ∀ g ∈ diamond, ∀ name ∈ g.imports, (find? diamond name).isSome := by
    decide +kernel
  have hcheck : ((mergeRoot diamond (grammarWith "G" ["A", "B"] ["s"])).map
      fun merged => merged.rules.map Rule.name) = .ok ["s", "a", "b", "c"] := by
    decide +kernel
  obtain ⟨merged, hmerge, hrules⟩ := map_eq_ok.mp hcheck
  obtain ⟨hruns, hcircular, hacyclic⟩ :=
    mergeRoot_exact hdistinct hpresent (List.mem_cons_self (a := grammarWith "G" ["A", "B"] ["s"]))
  have hnone : ¬ ∃ h,
      Relation.ReflTransGen (Imported diamond) (grammarWith "G" ["A", "B"] ["s"]) h ∧
      Relation.TransGen (Imported diamond) h h := by
    intro hcycle
    obtain ⟨name, herror⟩ := hcircular.mpr hcycle
    rw [hmerge] at herror
    cases herror
  obtain ⟨visited, merged', hvisits, hmerged, -, honce, -, -⟩ := hacyclic hnone
  obtain rfl := Except.ok.inj (hmerge.symm.trans hmerged)
  exact ⟨hdistinct, hpresent, _, List.mem_cons_self, rfl, hruns, visited, merged, hvisits, hmerge,
    honce, hrules⟩

end GrammarEngine.Imports

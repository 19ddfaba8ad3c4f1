import GrammarEngine.Analysis.Imports
import GrammarEngine.Analysis.Lexer
import GrammarEngine.Proofs.Grammar.Read
import GrammarEngine.Proofs.Unit.Clauses
import Mathlib.Data.List.TakeDrop
import Mathlib.Data.List.TakeWhile

/-!
# Lexers of grammars

Merging the imports of a grammar keeps its name, kind and options, and adds no rules but those of
the imported grammars, with their modes. Merged from grammars of files it is such as a file could
contain.

The token types of a vocabulary are at most its length, and every token rule has one. Resolving the
elements of a lexer rule keeps what can be written.
-/
namespace GrammarEngine.Imports

/-! ## Merged grammars -/

variable {all : List Grammar}

theorem mem_addRules {rules more : List Rule} {r : Rule} (h : r ∈ addRules rules more) :
    r ∈ rules ∨ r ∈ more := by
  unfold addRules at h
  induction more generalizing rules with
  | nil => exact .inl h
  | cons q more ih =>
      rw [List.foldl_cons] at h
      rcases ih h with h | h
      · split at h
        · exact .inl h
        · rcases List.mem_append.mp h with h | h
          · exact .inl h
          · exact .inr (List.mem_singleton.mp h ▸ List.mem_cons_self)
      · exact .inr (List.mem_cons_of_mem q h)

theorem subset_addNames (names more : List String) : names ⊆ addNames names more :=
  List.foldlRecOn (motive := fun acc => names ⊆ acc) more _ (List.Subset.refl _)
    fun acc hacc n _ => by
      split
      · exact hacc
      · exact List.subset_append_of_subset_left _ hacc

theorem mem_addNames {names more : List String} {n : String} (h : n ∈ more) :
    n ∈ addNames names more := by
  induction more generalizing names with
  | nil => cases h
  | cons m more ih =>
      rw [addNames, List.foldl_cons]
      rcases List.mem_cons.mp h with rfl | h
      · refine subset_addNames _ more ?_
        split
        · next hin => exact List.contains_iff_mem.mp hin
        · exact List.mem_append_right _ List.mem_cons_self
      · exact ih h

/-- What a grammar with merged imports has in common with the grammar itself and with those that it
can import. -/
structure MergeOf (all : List Grammar) (g merged : Grammar) : Prop where
  name : merged.name = g.name
  kind : merged.kind = g.kind
  options : merged.options = g.options
  rules : ∀ r ∈ merged.rules, ∃ h ∈ all, r ∈ h.rules ∧ h.modes ⊆ merged.modes

theorem MergeOf.absorb {g merged imported : Grammar} (h : MergeOf all g merged)
    {inner : Grammar} (hinner : MergeOf all inner imported) :
    MergeOf all g (absorb merged imported) where
  name := h.name
  kind := h.kind
  options := h.options
  rules := fun r hr => by
    rcases mem_addRules hr with hr | hr
    · obtain ⟨source, hsource, hr, hmodes⟩ := h.rules r hr
      exact ⟨source, hsource, hr, List.Subset.trans hmodes (subset_addNames _ _)⟩
    · obtain ⟨source, hsource, hr, hmodes⟩ := hinner.rules r hr
      exact ⟨source, hsource, hr, List.Subset.trans hmodes fun _ hn => mem_addNames hn⟩

theorem merge_mergeOf (bound : Nat) {chain : List String} {g merged : Grammar} (hg : g ∈ all)
    (h : merge all bound chain g = .ok merged) : MergeOf all g merged := by
  induction bound generalizing chain g merged with
  | zero => cases h
  | succ bound ih =>
      rw [merge] at h
      split at h
      · cases h
      · have hself : MergeOf all g g :=
          ⟨rfl, rfl, rfl, fun r hr => ⟨g, hg, hr, List.Subset.refl _⟩⟩
        refine foldlM_invariant (MergeOf all g) hself ?_ h
        intro name _ b b' hb hstep
        split at hstep
        · cases hstep
        · next imported himported =>
          obtain ⟨inner, hinner, rfl⟩ := map_eq_ok.mp hstep
          exact hb.absorb (ih (List.mem_of_find?_eq_some himported) hinner)

theorem MergeOf.option? {g merged : Grammar} (h : MergeOf all g merged) (key : String) :
    merged.option? key = g.option? key := by
  rw [Grammar.option?, Grammar.option?, h.options]

/-- Merged from grammars of files, a grammar is such as a file could contain. -/
theorem MergeOf.fromFile {g merged : Grammar} (h : MergeOf all g merged) (hg : g ∈ all)
    (hall : ∀ g ∈ all, g.FromFile) : merged.FromFile where
  name := h.name ▸ (hall g hg).name
  rules := fun r hr => by
    obtain ⟨source, hsource, hr, -⟩ := h.rules r hr
    exact (hall source hsource).rules r hr
  modes := fun r hr => by
    obtain ⟨source, hsource, hr, hmodes⟩ := h.rules r hr
    exact List.cons_subset_cons defaultMode hmodes ((hall source hsource).modes r hr)

/-- The roots are the grammars that no other one imports, where all names differ. -/
theorem mapM_of_roots {roots : List Grammar} (h : Imports.roots all = .ok roots) :
    firstDuplicate? [] all = none ∧
      (all.filter fun g => !(all.flatMap Grammar.imports).contains g.name).mapM (mergeRoot all) =
        .ok roots := by
  unfold Imports.roots at h
  cases hduplicate : firstDuplicate? [] all with
  | some g =>
      rw [hduplicate] at h
      cases hmissing : firstMissing? all <;> rw [hmissing] at h <;> cases h
  | none =>
      rw [hduplicate] at h
      cases hmissing : firstMissing? all with
      | some missing =>
          rw [hmissing] at h
          cases h
      | none =>
          rw [hmissing] at h
          exact ⟨rfl, h⟩

/-- Every root is one of the grammars with its imports merged. -/
theorem roots_mergeOf {roots : List Grammar} (h : Imports.roots all = .ok roots) :
    ∀ merged ∈ roots, ∃ g ∈ all, MergeOf all g merged := by
  intro merged hmerged
  obtain ⟨g, hg, hmerge⟩ := exists_of_mem_right (mapM_eq_ok.mp (mapM_of_roots h).2) hmerged
  exact ⟨g, List.mem_of_mem_filter hg, merge_mergeOf _ (List.mem_of_mem_filter hg) hmerge⟩

theorem nodup_of_firstDuplicate? {seen : List String} (h : firstDuplicate? seen all = none) :
    (all.map Grammar.name).Nodup ∧ ∀ g ∈ all, g.name ∉ seen := by
  induction all generalizing seen with
  | nil => exact ⟨List.nodup_nil, List.forall_mem_nil _⟩
  | cons g rest ih =>
      rw [firstDuplicate?] at h
      split at h
      · cases h
      · next hfresh => exact nodup_cons_of_fresh (by simpa using hfresh) (ih h)

/-- The names of roots differ. -/
theorem nodup_roots {roots : List Grammar} (h : Imports.roots all = .ok roots) :
    (roots.map Grammar.name).Nodup := by
  obtain ⟨hduplicate, hmap⟩ := mapM_of_roots h
  have hnames : roots.map Grammar.name =
      (all.filter fun g => !(all.flatMap Grammar.imports).contains g.name).map Grammar.name := by
    rw [← List.forall₂_eq_eq_eq, List.forall₂_map_left_iff, List.forall₂_map_right_iff]
    refine (((List.forall₂_and_left _ _).mpr ⟨fun _ => id, mapM_eq_ok.mp hmap⟩).imp
      fun g merged hg => ?_).flip
    exact (merge_mergeOf _ (List.mem_of_mem_filter hg.1) hg.2).name
  rw [hnames]
  exact (nodup_of_firstDuplicate? hduplicate).1.sublist (List.filter_sublist.map _)

end GrammarEngine.Imports

/-! ## Rules -/
namespace GrammarEngine

theorem nodup_of_firstRedefined? {rules : List Rule} {seen : List String}
    (h : firstRedefined? seen rules = none) :
    (rules.map Rule.name).Nodup ∧ ∀ r ∈ rules, r.name ∉ seen := by
  induction rules generalizing seen with
  | nil => exact ⟨List.nodup_nil, List.forall_mem_nil _⟩
  | cons r rest ih =>
      rw [firstRedefined?] at h
      split at h
      · cases h
      · next hfresh => exact nodup_cons_of_fresh (by simpa using hfresh) (ih h)

/-- The names of rules that have been checked differ. -/
theorem nodup_of_checkDuplicates {g : Grammar} {rules : List Rule}
    (h : g.checkDuplicates rules = .ok ()) : (rules.map Rule.name).Nodup := by
  unfold Grammar.checkDuplicates at h
  split at h
  · cases h
  · next hnone => exact (nodup_of_firstRedefined? hnone).1

end GrammarEngine

/-! ## Lexers -/
namespace GrammarEngine.LexerSpec

/-! ### Vocabulary -/

/-- The types of a vocabulary do not exceed its length. -/
def Numbered (vocabulary : List TokenSpec) : Prop :=
  ∀ t ∈ vocabulary, t.type ≤ vocabulary.length

variable {vocabulary : List TokenSpec}

theorem hasName_iff {name : String} :
    hasName vocabulary name = true ↔ ∃ t ∈ vocabulary, t.name = name := by
  simp [hasName]

theorem length_addToken (name : String) (literal : Option String) :
    (addToken vocabulary name literal).length = vocabulary.length + 1 := by
  rw [addToken, List.length_append, List.length_singleton]

theorem numbered_addToken (h : Numbered vocabulary) (name : String) (literal : Option String) :
    Numbered (addToken vocabulary name literal) := by
  intro t ht
  rw [length_addToken]
  rcases List.mem_append.mp ht with ht | ht
  · exact Nat.le_succ_of_le (h t ht)
  · obtain rfl := List.mem_singleton.mp ht
    exact Nat.le_refl _

/-- Adding the rule of a token that is there changes at most the literal of its entry. -/
theorem addRule_of_hasName {r : Rule} (h : hasName vocabulary r.name = true) :
    ∃ before t after literal, vocabulary = before ++ t :: after ∧ t.name = r.name ∧
      addRule vocabulary r = before ++ { t with literal } :: after := by
  have hspan : vocabulary =
      vocabulary.takeWhile (fun t => t.name != r.name) ++
        vocabulary.dropWhile (fun t => t.name != r.name) := List.takeWhile_append_dropWhile.symm
  rw [addRule, if_pos h, List.span_eq_takeWhile_dropWhile]
  cases hdrop : vocabulary.dropWhile (fun t => t.name != r.name) with
  | nil =>
      obtain ⟨t, ht, hname⟩ := hasName_iff.mp h
      have hnone := List.dropWhile_eq_nil_iff.mp hdrop t ht
      simp [hname] at hnone
  | cons t after =>
      refine ⟨_, t, after, t.literal.or r.singleLiteral?, hdrop ▸ hspan, ?_, rfl⟩
      have hhead := List.head_dropWhile_not (fun t : TokenSpec => t.name != r.name)
        (l := vocabulary) (by rw [hdrop]; exact List.cons_ne_nil t after)
      simpa [hdrop] using hhead

theorem addRule_of_not_hasName {r : Rule} (h : hasName vocabulary r.name = false) :
    addRule vocabulary r = addToken vocabulary r.name r.singleLiteral? := by
  rw [addRule, if_neg (by simp [h])]

theorem numbered_addRule (h : Numbered vocabulary) (r : Rule) :
    Numbered (addRule vocabulary r) := by
  cases hname : hasName vocabulary r.name with
  | false =>
      rw [addRule_of_not_hasName hname]
      exact numbered_addToken h _ _
  | true =>
      obtain ⟨before, t, after, literal, rfl, -, hadd⟩ := addRule_of_hasName hname
      rw [hadd]
      intro s hs
      have hlength : (before ++ { t with literal } :: after).length =
          (before ++ t :: after).length := by simp
      rw [hlength]
      rcases List.mem_append.mp hs with hs | hs
      · exact h s (List.mem_append_left _ hs)
      · rcases List.mem_cons.mp hs with rfl | hs
        · exact h t (by simp)
        · exact h s (by simp [hs])

theorem numbered_implicitTokens (literals : List String) : Numbered (implicitTokens literals) :=
  List.foldlRecOn _ _ (by simp [Numbered]) fun _ hv _ _ => numbered_addToken hv _ _

theorem numbered_vocabularyOf (implicit declared : List String) (rules : List Rule) :
    Numbered (vocabularyOf implicit declared rules) := by
  refine List.foldlRecOn _ addRule ?_ fun v hv r _ => numbered_addRule hv r
  refine List.foldlRecOn _ _ (numbered_implicitTokens implicit) fun v hv name _ => ?_
  split
  · exact hv
  · exact numbered_addToken hv _ _

theorem length_le_addRule (r : Rule) : vocabulary.length ≤ (addRule vocabulary r).length := by
  cases hname : hasName vocabulary r.name with
  | false =>
      rw [addRule_of_not_hasName hname, length_addToken]
      exact Nat.le_succ _
  | true =>
      obtain ⟨before, t, after, literal, rfl, -, hadd⟩ := addRule_of_hasName hname
      rw [hadd]
      simp

theorem length_implicitTokens_le (implicit declared : List String) (rules : List Rule) :
    (implicitTokens implicit).length ≤ (vocabularyOf implicit declared rules).length := by
  refine List.foldlRecOn
    (motive := fun v : List TokenSpec => (implicitTokens implicit).length ≤ v.length) _ addRule
    ?_ fun v hv r _ => hv.trans (length_le_addRule r)
  refine List.foldlRecOn
    (motive := fun v : List TokenSpec => (implicitTokens implicit).length ≤ v.length) _ _
    (Nat.le_refl _) fun v hv name _ => ?_
  split
  · exact hv
  · rw [length_addToken]
    exact Nat.le_succ_of_le hv

theorem hasName_addRule {r : Rule} {name : String}
    (h : hasName vocabulary name = true ∨ r.name = name) :
    hasName (addRule vocabulary r) name = true := by
  cases hname : hasName vocabulary r.name with
  | false =>
      rw [addRule_of_not_hasName hname, addToken, hasName_iff]
      rcases h with h | rfl
      · obtain ⟨t, ht, rfl⟩ := hasName_iff.mp h
        exact ⟨t, List.mem_append_left _ ht, rfl⟩
      · exact ⟨_, List.mem_append_right _ (List.mem_singleton.mpr rfl), rfl⟩
  | true =>
      obtain ⟨before, t, after, literal, rfl, ht, hadd⟩ := addRule_of_hasName hname
      rw [hadd]
      have hnames : ∀ n, hasName (before ++ { t with literal } :: after) n =
          hasName (before ++ t :: after) n := by simp [hasName]
      rw [hnames]
      rcases h with h | rfl
      · exact h
      · exact hname

/-- Every token rule has an entry. -/
theorem hasName_of_rule {implicit declared : List String} {rules : List Rule} {r : Rule}
    (hr : r ∈ tokenRules rules) :
    hasName (vocabularyOf implicit declared rules) r.name = true := by
  unfold vocabularyOf
  generalize addDeclared (implicitTokens implicit) declared = v
  generalize tokenRules rules = rs at hr
  have hkeep : ∀ (rs : List Rule) (v : List TokenSpec), hasName v r.name = true →
      hasName (rs.foldl addRule v) r.name = true := fun rs v hv =>
    List.foldlRecOn (motive := fun v => hasName v r.name = true) rs addRule hv
      fun v hv q _ => hasName_addRule (.inl hv)
  induction rs generalizing v with
  | nil => cases hr
  | cons q rs ih =>
      rw [List.foldl_cons]
      rcases List.mem_cons.mp hr with rfl | hr
      · exact hkeep rs _ (hasName_addRule (.inr rfl))
      · exact ih (addRule v q) hr

theorem typeOf?_of_hasName {name : String} (h : hasName vocabulary name = true) :
    ∃ t ∈ vocabulary, typeOf? vocabulary name = some t.type := by
  obtain ⟨t, ht, hname⟩ := hasName_iff.mp h
  cases hfind : vocabulary.find? (fun t => t.name == name) with
  | none =>
      have hnone := List.find?_eq_none.mp hfind t ht
      simp [hname] at hnone
  | some s => exact ⟨s, List.mem_of_find?_eq_some hfind, by rw [typeOf?, hfind]; rfl⟩

theorem typeOf?_le (h : Numbered vocabulary) {name : String} {type : Nat}
    (htype : typeOf? vocabulary name = some type) : type ≤ vocabulary.length := by
  obtain ⟨t, ht, rfl⟩ := Option.map_eq_some_iff.mp htype
  exact h t (List.mem_of_find?_eq_some ht)

/-! ### Elements -/

variable {names : Names} {limit depth : Nat}

theorem excludedAll_le {members : List Element} {ranges : List (Char × Char)}
    (hmembers : ∀ m ∈ members, m.Within limit depth) (h : excludedAll members = .ok ranges) :
    ∀ r ∈ ranges, r.1 ≤ r.2 := by
  induction members generalizing ranges with
  | nil =>
      cases h
      simp
  | cons m members ih =>
      simp only [excludedAll, bind_eq_ok, pure, Except.pure, Except.ok.injEq] at h
      obtain ⟨found, hfound, more, hmore, rfl⟩ := h
      refine List.forall_mem_append.mpr ⟨?_, ih (fun n hn =>
        hmembers n (List.mem_cons_of_mem m hn)) hmore⟩
      have hm := hmembers m List.mem_cons_self
      unfold excluded at hfound
      split at hfound
      · split at hfound
        · cases hfound
          simp
        · cases hfound
      · cases hfound
        cases hm with
        | charSet _ hranges => exact hranges
      · cases hfound

/-- Only a repetition is resolved to a repetition. -/
theorem resolve_not_repeated {e e' : Element} (h : resolve names e = .ok e')
    (he : e.NotRepeated) :
    e'.NotRepeated := by
  cases e with
  | repeated e kind greedy => exact absurd rfl (he e kind greedy)
  | token name =>
      rw [resolve] at h
      split at h
      · cases h
        nofun
      · cases h
  | «not» members =>
      rw [resolve] at h
      obtain ⟨ranges, -, rfl⟩ := map_eq_ok.mp h
      nofun
  | block alternatives =>
      rw [resolve] at h
      obtain ⟨found, -, rfl⟩ := map_eq_ok.mp h
      nofun
  | _ =>
      rw [resolve] at h
      cases h
      try nofun

mutual
/-- The induction follows the nesting of blocks. -/
theorem resolve_within : ∀ (e : Element) {depth : Nat} {e' : Element}, e.Within limit depth →
    resolve names e = .ok e' → e'.Within limit depth
  | .token name, _, e', _, h => by
      rw [resolve] at h
      split at h
      · cases h
        exact .token _ name
      · cases h
  | .rule name, _, e', _, h => by
      rw [resolve] at h
      cases h
  | .eof, _, e', _, h => by
      rw [resolve] at h
      cases h
  | .not members, _, e', hwithin, h => by
      rw [resolve] at h
      obtain ⟨ranges, hranges, rfl⟩ := map_eq_ok.mp h
      cases hwithin with
      | not hmembers => exact .charSet true (excludedAll_le hmembers hranges)
  | .block alternatives, _, e', hwithin, h => by
      rw [resolve] at h
      obtain ⟨found, hfound, rfl⟩ := map_eq_ok.mp h
      cases hwithin with
      | block halternatives =>
          exact .block (resolveAlternatives_within alternatives halternatives hfound)
  | .repeated e kind greedy, _, e', hwithin, h => by
      rw [resolve] at h
      obtain ⟨found, hfound, rfl⟩ := map_eq_ok.mp h
      cases hwithin with
      | repeated _ _ he hne =>
          exact .repeated kind greedy (resolve_within e he hfound) (resolve_not_repeated hfound hne)
  | .literal text, _, e', hwithin, h => by
      rw [resolve] at h
      exact Except.ok.inj h ▸ hwithin
  | .ruleAt name precedence, _, e', hwithin, h => by
      rw [resolve] at h
      exact Except.ok.inj h ▸ hwithin
  | .charSet ranges negated, _, e', hwithin, h => by
      rw [resolve] at h
      exact Except.ok.inj h ▸ hwithin
  | .any, _, e', hwithin, h => by
      rw [resolve] at h
      exact Except.ok.inj h ▸ hwithin
  | .notTokens names, _, e', hwithin, h => by
      rw [resolve] at h
      exact Except.ok.inj h ▸ hwithin

theorem resolveAll_within : ∀ (es : List Element) {depth : Nat} {es' : List Element},
    (∀ e ∈ es, e.Within limit depth) → resolveAll names es = .ok es' →
    ∀ e ∈ es', e.Within limit depth
  | [], _, es', _, h => by
      cases h
      simp
  | e :: es, _, es', hwithin, h => by
      simp only [resolveAll, bind_eq_ok, pure, Except.pure, Except.ok.injEq] at h
      obtain ⟨e', he', rest, hrest, rfl⟩ := h
      exact List.forall_mem_cons.mpr ⟨resolve_within e (hwithin e List.mem_cons_self) he',
        resolveAll_within es (fun d hd => hwithin d (List.mem_cons_of_mem e hd)) hrest⟩

theorem resolveAlternative_within : ∀ (a : AlternativeOf Element) {depth : Nat}
    {a' : AlternativeOf Element}, (∀ e ∈ a.elements, e.Within limit depth) →
    resolveAlternative names a = .ok a' → ∀ e ∈ a'.elements, e.Within limit depth
  | ⟨elements, _, _, _⟩, _, a', hwithin, h => by
      rw [resolveAlternative] at h
      obtain ⟨found, hfound, rfl⟩ := map_eq_ok.mp h
      exact resolveAll_within elements hwithin hfound

theorem resolveAlternatives_within : ∀ (alternatives : List (AlternativeOf Element)) {depth : Nat}
    {alternatives' : List (AlternativeOf Element)},
    (∀ a ∈ alternatives, ∀ e ∈ a.elements, e.Within limit depth) →
    resolveAlternatives names alternatives = .ok alternatives' →
    ∀ a ∈ alternatives', ∀ e ∈ a.elements, e.Within limit depth
  | [], _, as', _, h => by
      cases h
      simp
  | a :: rest, _, as', hwithin, h => by
      simp only [resolveAlternatives, bind_eq_ok, pure, Except.pure, Except.ok.injEq] at h
      obtain ⟨a', ha', rest', hrest, rfl⟩ := h
      exact List.forall_mem_cons.mpr
        ⟨resolveAlternative_within a (hwithin a List.mem_cons_self) ha',
          resolveAlternatives_within rest (fun b hb => hwithin b (List.mem_cons_of_mem a hb)) hrest⟩
end

theorem commands_of_resolveAlternative {a a' : Alternative}
    (h : resolveAlternative names a = .ok a') : a'.commands = a.commands := by
  obtain ⟨elements, label, rightAssoc, commands⟩ := a
  rw [resolveAlternative] at h
  obtain ⟨found, -, rfl⟩ := map_eq_ok.mp h
  rfl

/-! ### Rules -/

/-- What a rule of a grammar becomes. -/
structure BuiltRule (g : Grammar) (names : Names) (vocabulary : List TokenSpec) (r : Rule)
    (built : LexerRuleSpec) : Prop where
  name : built.name = r.name
  tokenType : built.tokenType = if r.fragment then none else typeOf? vocabulary r.name
  mode : built.mode = r.mode
  alternatives : List.Forall₂
    (fun a b => resolveAlternative names a = .ok b ∧
      ∀ c ∈ a.commands, checkCommand g.channels (defaultMode :: g.modes) vocabulary c = .ok ())
    r.alternatives built.alternatives

/-- What the lexer of a grammar is made of. -/
structure Built (g : Grammar) (unit : String) (rules : List Rule) (literals : List String)
    (spec : LexerSpec) : Prop where
  unit : spec.unit = unit
  grammar : spec.grammar = g.name
  base : spec.extends = g.option? "superClass"
  channels : spec.channels = g.channels
  modes : spec.modes = defaultMode :: g.modes
  vocabulary : spec.vocabulary = vocabularyOf (implicitLiterals rules literals) g.tokens rules
  nonempty : tokenRules rules ≠ [] ∨ literals ≠ []
  distinct : g.checkDuplicates rules = .ok ()
  rules : ∃ written, spec.rules =
      (implicitTokens (implicitLiterals rules literals)).map implicitRule ++ written ∧
    List.Forall₂
      (BuiltRule g ⟨rules.map Rule.name, (g.option? "superClass").isSome⟩ spec.vocabulary)
      rules written

theorem builtRule_of_mapM {g : Grammar} {names : Names} {vocabulary : List TokenSpec} {r : Rule}
    {built : LexerRuleSpec}
    (h : (match r.alternatives.mapM (checkAlternative names g.channels (defaultMode :: g.modes)
        vocabulary) with
      | .error fault => .error (g.ruleError r fault)
      | .ok alternatives => .ok (LexerRuleSpec.mk r.name
          (if r.fragment then none else typeOf? vocabulary r.name) r.mode alternatives) :
        Except GenerationError LexerRuleSpec) = .ok built) :
    BuiltRule g names vocabulary r built := by
  split at h
  · cases h
  · next alternatives halternatives =>
    obtain rfl := Except.ok.inj h
    refine ⟨rfl, rfl, rfl, (mapM_eq_ok.mp halternatives).imp fun a b hab => ?_⟩
    simp only [checkAlternative, bind_eq_ok, pure, Except.pure, Except.ok.injEq] at hab
    obtain ⟨b', hb', _, hcommands, rfl⟩ := hab
    exact ⟨hb', forM_eq_ok.mp hcommands⟩

theorem built_of_build {g : Grammar} {unit : String} {rules : List Rule} {literals : List String}
    {spec : LexerSpec} (h : build g unit rules literals = .ok spec) :
    Built g unit rules literals spec := by
  unfold build at h
  dsimp only at h
  split at h
  · cases h
  · next hnonempty =>
    obtain ⟨_, hdistinct, h⟩ := bind_eq_ok.mp h
    cases htokens : g.tokens.find? (fun n => !isValidTokenName n) with
    | some name =>
        rw [htokens] at h
        cases h
    | none =>
        rw [htokens] at h
        obtain ⟨written, hwritten, h⟩ := bind_eq_ok.mp h
        obtain rfl := Except.ok.inj h
        exact {
          unit := rfl, grammar := rfl, base := rfl, channels := rfl, modes := rfl
          vocabulary := rfl, distinct := hdistinct
          nonempty := by
            rw [Bool.and_eq_true, List.isEmpty_iff, List.isEmpty_iff] at hnonempty
            exact not_and_or.mp hnonempty
          rules := ⟨written, rfl, (mapM_eq_ok.mp hwritten).imp fun r w hw =>
            builtRule_of_mapM hw⟩ }

/-! ### Writing -/

theorem rule_writable {g : Grammar} {names : Names} {r : Rule} {built : LexerRuleSpec}
    (h : BuiltRule g names vocabulary r built) (hr : r.FromFile)
    (htoken : r.fragment = false → hasName vocabulary r.name = true)
    (hfragment : r.fragment = true → ∀ a ∈ r.alternatives, a.commands = [])
    (hnumbered : Numbered vocabulary) (hsize : vocabulary.length < 2 ^ 31) : built.Writable := by
  refine ⟨fun type htype => ?_, fun htype a ha => ?_, fun a ha e he => ?_⟩
  · rw [h.tokenType] at htype
    split at htype
    · cases htype
    · exact Nat.lt_of_le_of_lt (typeOf?_le hnumbered htype) hsize
  · obtain ⟨b, hb, hresolve, -⟩ := exists_of_mem_right h.alternatives ha
    rw [h.tokenType] at htype
    split at htype
    · next hyes => rw [commands_of_resolveAlternative hresolve, hfragment hyes b hb]
    · next hno =>
      obtain ⟨t, -, htoken⟩ := typeOf?_of_hasName (htoken (by simpa using hno))
      rw [htoken] at htype
      cases htype
  · obtain ⟨b, hb, hresolve, -⟩ := exists_of_mem_right h.alternatives ha
    exact (resolveAlternative_within b (hr.2 b hb) hresolve e he).mono (Nat.zero_le _)

theorem implicitRule_writable {t : TokenSpec} (h : t.type < 2 ^ 31) :
    (implicitRule t).Writable := by
  refine ⟨fun type htype => Option.some.inj htype ▸ h, nofun, fun a ha e he => ?_⟩
  obtain rfl := List.mem_singleton.mp ha
  obtain ⟨l, -, rfl⟩ := Option.map_eq_some_iff.mp (Option.mem_toList.mp he)
  exact .literal _ l

/-- A lexer of a grammar from a file can be written if its tokens have types and its fragments no
commands. -/
theorem rules_writable {g : Grammar} {unit : String} {rules : List Rule} {literals : List String}
    {spec : LexerSpec} (h : Built g unit rules literals spec) (hrules : ∀ r ∈ rules, r.FromFile)
    (hfragments : ∀ r ∈ rules, r.fragment = true → ∀ a ∈ r.alternatives, a.commands = [])
    (hsize : spec.vocabulary.length < 2 ^ 31) : ∀ r ∈ spec.rules, r.Writable := by
  obtain ⟨written, hwritten, hbuilt⟩ := h.rules
  rw [hwritten]
  refine List.forall_mem_append.mpr ⟨fun r hr => ?_, fun w hw => ?_⟩
  · obtain ⟨t, ht, rfl⟩ := List.mem_map.mp hr
    have hlength := length_implicitTokens_le (implicitLiterals rules literals) g.tokens rules
    rw [← h.vocabulary] at hlength
    have hle := numbered_implicitTokens _ t ht
    exact implicitRule_writable (by omega)
  · obtain ⟨r, hr, hrule⟩ := exists_of_mem_right hbuilt hw
    refine rule_writable hrule (hrules r hr) (fun htoken => ?_) (hfragments r hr)
      (h.vocabulary ▸ numbered_vocabularyOf _ _ _) hsize
    rw [h.vocabulary]
    exact hasName_of_rule (List.mem_filter.mpr ⟨hr, by simp [htoken]⟩)

end GrammarEngine.LexerSpec

import GrammarEngine.Proofs.Acceptance.Lexers
import GrammarEngine.Proofs.Analysis.Lexer

/-!
# Analysed lexers compile

The lexer that the analysis builds from a grammar of a file has only elements and names that have a
meaning in it, and keeps them while a parser completes its vocabulary. Tokens for literals keep
their names and types when declared tokens and token rules are added behind them.

What is written from such a lexer therefore compiles, if the rules have different names and none of
them leads back to itself: the analysis checks the former only among the written rules, and the
latter not at all.
-/
namespace GrammarEngine

variable {names : List String}

/-! ## References of elements -/

mutual
/-- The rules that an element of a lexer rule names, in order of appearance. -/
def Element.references : Element → List String
  | .token name => [name]
  | .block alternatives => referencesOfAlternatives alternatives
  | .repeated e _ _ => e.references
  | _ => []

def Element.referencesOfAll : List Element → List String
  | [] => []
  | e :: rest => e.references ++ referencesOfAll rest

def Element.referencesOfAlternative : AlternativeOf Element → List String
  | ⟨elements, _, _, _⟩ => referencesOfAll elements

def Element.referencesOfAlternatives : List (AlternativeOf Element) → List String
  | [] => []
  | a :: rest => referencesOfAlternative a ++ referencesOfAlternatives rest
end

theorem Element.mem_referencesOfAll {es : List Element} {name : String} :
    name ∈ referencesOfAll es ↔ ∃ e ∈ es, name ∈ e.references := by
  induction es with
  | nil => simp [referencesOfAll]
  | cons e rest ih => simp [referencesOfAll, ih]

theorem Element.referencesOfAlternative_eq (a : Alternative) :
    referencesOfAlternative a = referencesOfAll a.elements := by
  cases a
  rfl

theorem Element.mem_referencesOfAlternatives {alternatives : List Alternative} {name : String} :
    name ∈ referencesOfAlternatives alternatives ↔
      ∃ a ∈ alternatives, name ∈ referencesOfAll a.elements := by
  induction alternatives with
  | nil => simp [referencesOfAlternatives]
  | cons a rest ih => simp [referencesOfAlternatives, referencesOfAlternative_eq, ih]

/-- An element of a lexer rule as the analysis leaves it, which names only these rules. -/
inductive Element.Lexical (names : List String) : Element → Prop
  | literal (text : String) : Lexical names (.literal text)
  | token {name : String} : name ∈ names → Lexical names (.token name)
  | charSet (ranges : List (Char × Char)) (negated : Bool) : Lexical names (.charSet ranges negated)
  | any : Lexical names .any
  | block {alternatives : List Alternative} :
      (∀ a ∈ alternatives, ∀ e ∈ a.elements, Lexical names e) →
      Lexical names (.block alternatives)
  | repeated {e : Element} (kind : Repetition) (greedy : Bool) :
      Lexical names e → Lexical names (.repeated e kind greedy)

theorem Element.declaredAll_eq_map (kind : UnitText.RuleKind) (es : List Element) :
    declaredAll kind es = es.map (declared kind) := by
  induction es with
  | nil => rfl
  | cons e rest ih => rw [declaredAll, ih, List.map_cons]

theorem Element.declaredBlocks_eq_map (kind : UnitText.RuleKind)
    (alternatives : List Alternative) : declaredBlocks kind alternatives =
      alternatives.map fun a => .sequenceOf (a.elements.map (declared kind)) := by
  induction alternatives with
  | nil => rfl
  | cons a rest ih =>
      rw [declaredBlocks, ih, List.map_cons, declaredBlock, declaredAll_eq_map]

namespace Automaton

variable {P : String → Prop}

theorem emits_sequenceOf {items : List UnitExpr} (h : ∀ u ∈ items, Emits P u) :
    Emits P (.sequenceOf items) := by
  match items, h with
  | [], _ => exact .empty
  | [u], h => exact h u List.mem_cons_self
  | u :: v :: rest, h => exact .seq h

theorem emits_choiceOf {items : List UnitExpr} (h : ∀ u ∈ items, Emits P u) :
    Emits P (.choiceOf items) := by
  match items, h with
  | [], h => exact .choice h
  | [u], h => exact h u List.mem_cons_self
  | u :: v :: rest, h => exact .choice h

end Automaton

/-- Code can be written for what such an element declares. -/
theorem Element.Lexical.emits {e : Element} (h : e.Lexical names) {P : String → Prop}
    (hP : ∀ name ∈ e.references, name ∈ names → P name) :
    Automaton.Emits P (e.declared .lexer) := by
  induction h with
  | literal text => exact .literal text {}
  | token hname => exact .ref {} (hP _ List.mem_cons_self hname)
  | charSet ranges negated => exact .ranges _ negated
  | any => exact .any
  | block _ ih =>
      rw [Element.declared, declaredBlocks_eq_map]
      refine Automaton.emits_choiceOf fun u hu => ?_
      obtain ⟨a, ha, rfl⟩ := List.mem_map.mp hu
      refine Automaton.emits_sequenceOf fun v hv => ?_
      obtain ⟨e, he, rfl⟩ := List.mem_map.mp hv
      refine ih a ha e he fun name hname => hP name ?_
      exact mem_referencesOfAlternatives.mpr ⟨a, ha, mem_referencesOfAll.mpr ⟨e, he, hname⟩⟩
  | repeated kind greedy _ ih => exact .repeated kind _ (ih hP)

/-! ## Lexers -/

namespace LexerSpec

variable {l : LexerSpec}

def ruleNames (l : LexerSpec) : List String := l.rules.map LexerRuleSpec.name

/-- A rule of one name refers to one of another name. -/
def Refers (l : LexerSpec) (name other : String) : Prop :=
  ∃ r ∈ l.rules, r.name = name ∧
    ∃ a ∈ r.alternatives, other ∈ Element.referencesOfAll a.elements

/-- A token is in the vocabulary under its name and type. -/
def Lists (vocabulary : List TokenSpec) (name : String) (type : Nat) : Prop :=
  ∃ t ∈ vocabulary, t.name = name ∧ t.type = type

/-- The names in a rule for a token of some type are there. -/
structure Provides (l : LexerSpec) (r : LexerRuleSpec) (type : Nat) : Prop where
  mode : r.mode ∈ l.modes
  token : Lists l.vocabulary r.name type
  commands : ∀ a ∈ r.alternatives, ∀ c ∈ a.commands,
    checkCommand l.channels l.modes l.vocabulary c = .ok ()

/-- A lexer of the analysis that extends no library. -/
structure Resolved (l : LexerSpec) : Prop where
  base : l.extends = none
  named : "" ∉ l.ruleNames
  token : ∃ r ∈ l.rules, ∃ type, r.tokenType = some type
  elements : ∀ r ∈ l.rules, ∀ a ∈ r.alternatives, ∀ e ∈ a.elements, e.Lexical l.ruleNames
  rules : ∀ r ∈ l.rules, ∀ type, r.tokenType = some type → l.Provides r type

theorem mem_table_declared {name : String} {alternatives : List (List UnitExpr)}
    (h : (name, alternatives) ∈ l.declared.table none) :
    ∃ r ∈ l.rules, r.name = name ∧ alternatives = r.alternatives.map (declaredItems .lexer) := by
  simp only [LexerDecl.table, LexerSpec.declared, List.append_nil, List.mem_reverse,
    List.mem_append, List.mem_map, List.mem_filterMap] at h
  rcases h with ⟨_, ⟨r, hr, hdecl⟩, heq⟩ | ⟨_, ⟨r, hr, hdecl⟩, heq⟩
  · obtain ⟨type, -, rfl⟩ := Option.map_eq_some_iff.mp hdecl
    cases heq
    refine ⟨r, hr, rfl, ?_⟩
    rw [List.map_map]
    rfl
  · unfold LexerRuleSpec.declaredFragment? at hdecl
    split at hdecl
    · cases hdecl
    · cases hdecl
      cases heq
      exact ⟨r, hr, rfl, rfl⟩

theorem mem_names_table {r : LexerRuleSpec} (hr : r ∈ l.rules) :
    r.name ∈ Automaton.Table.names (l.declared.table none) := by
  simp only [Automaton.Table.names, LexerDecl.table, LexerSpec.declared, List.append_nil,
    List.map_reverse, List.mem_reverse, List.map_append, List.map_map, List.mem_append,
    List.mem_map, List.mem_filterMap]
  cases htype : r.tokenType with
  | some type => exact .inl ⟨_, ⟨r, hr, r.declaredToken?_of_some htype⟩, rfl⟩
  | none => exact .inr ⟨_, ⟨r, hr, by rw [LexerRuleSpec.declaredFragment?, htype]⟩, rfl⟩

theorem grounded_declared (h : l.Resolved)
    (hacyclic : ∀ name, ¬ Relation.TransGen l.Refers name name) :
    Automaton.Grounded l.Refers (l.declared.table none) where
  emits := fun name alternatives hmem items hitems u hu => by
    obtain ⟨r, hr, rfl, rfl⟩ := mem_table_declared hmem
    obtain ⟨a, ha, rfl⟩ := List.mem_map.mp hitems
    rw [declaredItems, Element.declaredAll_eq_map] at hu
    obtain ⟨e, he, rfl⟩ := List.mem_map.mp hu
    refine (h.elements r hr a ha e he).emits fun other hother hin => ⟨?_, ?_⟩
    · exact ⟨r, hr, rfl, a, ha, Element.mem_referencesOfAll.mpr ⟨e, he, hother⟩⟩
    · obtain ⟨q, hq, rfl⟩ := List.mem_map.mp hin
      exact mem_names_table hq
  acyclic := hacyclic

/-- Rules and fragments are declared apart. -/
theorem perm_declared_names (rules : List LexerRuleSpec) :
    ((rules.filterMap LexerRuleSpec.declaredToken?).map LexerRuleDecl.name ++
      (rules.filterMap LexerRuleSpec.declaredFragment?).map FragmentDecl.name).Perm
      (rules.map LexerRuleSpec.name) := by
  induction rules with
  | nil => exact .nil
  | cons r rest ih =>
      cases htype : r.tokenType with
      | some type =>
          have hfragment : r.declaredFragment? = none := by
            rw [LexerRuleSpec.declaredFragment?, htype]
          rw [List.filterMap_cons_some (LexerRuleSpec.declaredToken?_of_some htype),
            List.filterMap_cons_none hfragment]
          exact ih.cons r.name
      | none =>
          have hfragment : r.declaredFragment? =
              some ⟨r.name, {}, r.alternatives.map (declaredItems .lexer)⟩ := by
            rw [LexerRuleSpec.declaredFragment?, htype]
          rw [List.filterMap_cons_none (LexerRuleSpec.declaredToken?_of_none htype),
            List.filterMap_cons_some hfragment]
          exact List.perm_middle.trans (ih.cons r.name)

/-- A command that the analysis accepts has an action. -/
theorem exists_action {c : LexerCommand}
    (h : checkCommand l.channels l.modes l.vocabulary c = .ok ()) :
    ∃ action, l.declared.action c = .ok action := by
  cases c with
  | skip | more | popMode => exact ⟨_, rfl⟩
  | channel name =>
      have hknown : knowsChannel l.channels name = true := by
        by_contra hnot
        rw [checkCommand, if_neg hnot] at h
        cases h
      obtain ⟨index, hindex⟩ : ∃ index, l.declared.channelIndex? name = some index := by
        unfold LexerDecl.channelIndex?
        split
        · exact ⟨_, rfl⟩
        · next hnumber =>
          rw [knowsChannel, hnumber, Option.isSome_none, Bool.false_or, Bool.or_eq_true] at hknown
          have hmem : name ∈ l.declared.allChannels := by
            rcases hknown with hname | hname
            · exact List.mem_append_left _ (List.contains_iff_mem.mp hname)
            · exact List.mem_append_right _ (List.contains_iff_mem.mp hname)
          obtain ⟨i, hi⟩ := LexerDecl.exists_findIdx?
            (p := (· == name)) ⟨name, hmem, beq_self_eq_true name⟩
          exact ⟨_, by rw [hi, Option.map_some]⟩
      exact ⟨.channel index, by rw [LexerDecl.action, hindex]⟩
  | type name =>
      have hknown : hasName l.vocabulary name = true := by
        by_contra hnot
        rw [checkCommand, if_neg hnot] at h
        cases h
      obtain ⟨t, ht, hname⟩ := hasName_iff.mp hknown
      have hfound : (l.declared.tokens.find? fun t => t.name == name).isSome = true :=
        List.find?_isSome.mpr ⟨t.declared, List.mem_map_of_mem ht, beq_iff_eq.mpr hname⟩
      obtain ⟨d, hd⟩ := Option.isSome_iff_exists.mp hfound
      exact ⟨.type d.type, by rw [LexerDecl.action, LexerDecl.tokenType?, hd]; rfl⟩
  | mode name | pushMode name =>
      have hmem : name ∈ l.modes := by
        by_contra hnot
        rw [checkCommand, if_neg (by simpa using hnot)] at h
        cases h
      obtain ⟨m, hm⟩ := LexerDecl.exists_modeIndex? (d := l.declared) hmem
      exact ⟨_, by rw [LexerDecl.action, hm]⟩

theorem Provides.provided {r : LexerRuleSpec} {type : Nat} (h : l.Provides r type)
    {d : LexerRuleDecl} (hd : r.declaredToken? = some d) (htype : r.tokenType = some type) :
    l.declared.Provided d := by
  obtain rfl := Option.some.inj ((LexerRuleSpec.declaredToken?_of_some htype).symm.trans hd)
  obtain ⟨t, ht, hname, rfl⟩ := h.token
  refine ⟨h.mode, List.any_eq_true.mpr ⟨t.declared, List.mem_map_of_mem ht, ?_⟩, ?_⟩
  · simp [TokenSpec.declared, hname]
  · intro a ha c hc
    obtain ⟨b, hb, rfl⟩ := List.mem_map.mp ha
    obtain ⟨command, hcommand, rfl⟩ := List.mem_map.mp hc
    exact exists_action (h.commands b hb command hcommand)

/-- What such a lexer declares is complete. -/
theorem Resolved.complete_declared (h : l.Resolved) (hdistinct : l.ruleNames.Nodup)
    (hacyclic : ∀ name, ¬ Relation.TransGen l.Refers name name) : l.declared.Complete where
  base := Option.map_eq_none_iff.mpr h.base
  distinct := by
    rw [LexerDecl.names, List.map_append, List.map_map, List.map_map]
    exact (perm_declared_names l.rules).nodup_iff.mpr hdistinct
  nonempty := by
    obtain ⟨r, hr, type, htype⟩ := h.token
    have hdecl : r.declaredToken? = some ⟨r.name, {}, .ofInt type, r.mode,
        r.alternatives.map declaredAlternative⟩ := r.declaredToken?_of_some htype
    exact List.ne_nil_of_mem (List.mem_filterMap.mpr ⟨r, hr, hdecl⟩)
  grounded := ⟨l.Refers, grounded_declared h hacyclic⟩
  rules := fun d hd => by
    obtain ⟨r, hr, hdecl⟩ := List.mem_filterMap.mp hd
    cases htype : r.tokenType with
    | some type => exact (h.rules r hr type htype).provided hdecl htype
    | none =>
        rw [r.declaredToken?_of_none htype] at hdecl
        cases hdecl

end LexerSpec

end GrammarEngine

/-! ## Lexers of grammars are resolved -/
namespace GrammarEngine.LexerSpec

variable {names : List String} {l : LexerSpec}

/-! ### Growing vocabularies -/

variable {vocabulary vocabulary' : List TokenSpec}

theorem Lists.mono {name : String} {type : Nat} (h : Lists vocabulary name type)
    (hsub : vocabulary ⊆ vocabulary') : Lists vocabulary' name type := by
  obtain ⟨t, ht, hname, htype⟩ := h
  exact ⟨t, hsub ht, hname, htype⟩

theorem checkCommand_mono {channels modes : List String} {c : LexerCommand}
    (hfront : vocabulary <+: vocabulary') (h : checkCommand channels modes vocabulary c = .ok ()) :
    checkCommand channels modes vocabulary' c = .ok () := by
  cases c with
  | type name =>
      have hknown : hasName vocabulary name = true := by
        by_contra hnot
        rw [checkCommand, if_neg hnot] at h
        cases h
      obtain ⟨t, ht, hname⟩ := hasName_iff.mp hknown
      rw [checkCommand, if_pos (hasName_iff.mpr ⟨t, hfront.subset ht, hname⟩)]
  | skip | more | popMode | channel | mode | pushMode => exact h

/-- A lexer remains so while a parser completes its vocabulary. -/
theorem Resolved.completed {l' : LexerSpec} (h : l.Resolved)
    (hl' : l' = { l with vocabulary := l'.vocabulary })
    (hfront : l.vocabulary <+: l'.vocabulary) : l'.Resolved := by
  rw [hl']
  exact {
    base := h.base, named := h.named, token := h.token, elements := h.elements
    rules := fun r hr type htype => by
      obtain ⟨hmode, htoken, hcommands⟩ := h.rules r hr type htype
      exact ⟨hmode, htoken.mono hfront.subset, fun a ha c hc =>
        checkCommand_mono hfront (hcommands a ha c hc)⟩ }

theorem lists_addRule {r : Rule} {name : String} {type : Nat} (h : Lists vocabulary name type) :
    Lists (addRule vocabulary r) name type := by
  cases hname : hasName vocabulary r.name with
  | false =>
      rw [addRule_of_not_hasName hname]
      exact h.mono (List.subset_append_left _ _)
  | true =>
      obtain ⟨before, t, after, literal, rfl, -, hadd⟩ := addRule_of_hasName hname
      rw [hadd]
      obtain ⟨s, hs, hsname, hstype⟩ := h
      rcases List.mem_append.mp hs with hs | hs
      · exact ⟨s, List.mem_append_left _ hs, hsname, hstype⟩
      · rcases List.mem_cons.mp hs with rfl | hs
        · exact ⟨_, List.mem_append_right _ List.mem_cons_self, hsname, hstype⟩
        · exact ⟨s, List.mem_append_right _ (List.mem_cons_of_mem _ hs), hsname, hstype⟩

/-- The tokens of literals keep their names and types. -/
theorem lists_vocabularyOf {implicit declared : List String} {rules : List Rule} {name : String}
    {type : Nat} (h : Lists (implicitTokens implicit) name type) :
    Lists (vocabularyOf implicit declared rules) name type := by
  have hdeclared : Lists (addDeclared (implicitTokens implicit) declared) name type := by
    refine List.foldlRecOn (motive := fun v => Lists v name type) declared _ h fun v hv n _ => ?_
    split
    · exact hv
    · exact hv.mono (List.subset_append_left _ _)
  exact List.foldlRecOn (motive := fun v => Lists v name type) (tokenRules rules) addRule hdeclared
    fun v hv r _ => lists_addRule hv

theorem lists_of_typeOf? {name : String} {type : Nat} (h : typeOf? vocabulary name = some type) :
    Lists vocabulary name type := by
  obtain ⟨t, hfind, rfl⟩ := Option.map_eq_some_iff.mp h
  have hname := List.find?_some hfind
  exact ⟨t, List.mem_of_find?_eq_some hfind, by simpa using hname, rfl⟩

theorem length_implicitTokens (literals : List String) :
    (implicitTokens literals).length = literals.length := by
  have hfold : ∀ (literals : List String) (v : List TokenSpec),
      (literals.foldl (fun v l => addToken v s!"T__{v.length}" (some l)) v).length =
        v.length + literals.length := by
    intro literals
    induction literals with
    | nil => exact fun v => rfl
    | cons l rest ih =>
        intro v
        rw [List.foldl_cons, ih, length_addToken, List.length_cons]
        omega
  rw [implicitTokens, hfold, List.length_nil, Nat.zero_add]

/-! ### Lexers of grammars -/

/-- Names that are checked against some of these rules. -/
structure Strict (scope : Names) (names : List String) : Prop where
  lenient : scope.lenient = false
  rules : scope.rules ⊆ names

variable {scope : Names}

mutual
/-- The induction follows the nesting of blocks. -/
theorem resolve_lexical (hstrict : Strict scope names) : ∀ (e : Element) {depth : Nat}
    {e' : Element}, e.Within 0 depth → resolve scope e = .ok e' → e'.Lexical names
  | .literal text, _, _, _, h => by
      cases h
      exact .literal text
  | .token name, _, _, _, h => by
      rw [resolve, hstrict.lenient, Bool.or_false] at h
      split at h
      · next hname =>
        cases h
        exact .token (hstrict.rules (List.contains_iff_mem.mp hname))
      · cases h
  | .rule name, _, _, _, h => by cases h
  | .ruleAt name precedence, _, _, hwithin, _ => by
      cases hwithin with
      | ruleAt _ hlt => exact absurd hlt (Nat.not_lt_zero _)
  | .charSet ranges negated, _, _, _, h => by
      cases h
      exact .charSet ranges negated
  | .any, _, _, _, h => by
      cases h
      exact .any
  | .eof, _, _, _, h => by cases h
  | .not members, _, _, _, h => by
      rw [resolve] at h
      obtain ⟨ranges, -, rfl⟩ := map_eq_ok.mp h
      exact .charSet ranges true
  | .notTokens tokens, _, _, hwithin, _ => by
      cases hwithin with
      | notTokens _ _ hlt => exact absurd hlt (Nat.not_lt_zero _)
  | .block alternatives, _, _, hwithin, h => by
      rw [resolve] at h
      obtain ⟨found, hfound, rfl⟩ := map_eq_ok.mp h
      cases hwithin with
      | block hwithin =>
          exact .block (resolveAlternatives_lexical hstrict alternatives hwithin hfound)
  | .repeated e kind greedy, _, _, hwithin, h => by
      rw [resolve] at h
      obtain ⟨found, hfound, rfl⟩ := map_eq_ok.mp h
      cases hwithin with
      | repeated _ _ hwithin _ =>
          exact .repeated kind greedy (resolve_lexical hstrict e hwithin hfound)

theorem resolveAll_lexical (hstrict : Strict scope names) : ∀ (es : List Element) {depth : Nat}
    {es' : List Element},
    (∀ e ∈ es, e.Within 0 depth) → resolveAll scope es = .ok es' →
    ∀ e ∈ es', e.Lexical names
  | [], _, _, _, h => by
      cases h
      exact fun e he => absurd he List.not_mem_nil
  | e :: es, _, _, hwithin, h => by
      simp only [resolveAll, bind_eq_ok, pure, Except.pure, Except.ok.injEq] at h
      obtain ⟨e', he', rest, hrest, rfl⟩ := h
      exact List.forall_mem_cons.mpr ⟨resolve_lexical hstrict e (hwithin e List.mem_cons_self) he',
        resolveAll_lexical hstrict es (fun d hd => hwithin d (List.mem_cons_of_mem e hd)) hrest⟩

theorem resolveAlternative_lexical (hstrict : Strict scope names) :
    ∀ (a : AlternativeOf Element) {depth : Nat}
    {a' : AlternativeOf Element}, (∀ e ∈ a.elements, e.Within 0 depth) →
    resolveAlternative scope a = .ok a' → ∀ e ∈ a'.elements, e.Lexical names
  | ⟨elements, _, _, _⟩, _, _, hwithin, h => by
      rw [resolveAlternative] at h
      obtain ⟨found, hfound, rfl⟩ := map_eq_ok.mp h
      exact resolveAll_lexical hstrict elements hwithin hfound

theorem resolveAlternatives_lexical (hstrict : Strict scope names) :
    ∀ (alternatives : List (AlternativeOf Element)) {depth : Nat}
    {alternatives' : List (AlternativeOf Element)},
    (∀ a ∈ alternatives, ∀ e ∈ a.elements, e.Within 0 depth) →
    resolveAlternatives scope alternatives = .ok alternatives' →
    ∀ a ∈ alternatives', ∀ e ∈ a.elements, e.Lexical names
  | [], _, _, _, h => by
      cases h
      exact fun a ha => absurd ha List.not_mem_nil
  | a :: rest, _, _, hwithin, h => by
      simp only [resolveAlternatives, bind_eq_ok, pure, Except.pure, Except.ok.injEq] at h
      obtain ⟨a', ha', rest', hrest, rfl⟩ := h
      exact List.forall_mem_cons.mpr
        ⟨resolveAlternative_lexical hstrict a (hwithin a List.mem_cons_self) ha',
          resolveAlternatives_lexical hstrict rest
            (fun b hb => hwithin b (List.mem_cons_of_mem a hb)) hrest⟩
end

variable {g : Grammar} {unit : String} {rules : List Rule} {literals : List String}

/-- Where no token rule is written, every literal has a token. -/
theorem implicitLiterals_of_tokenRules_eq_nil (literals : List String)
    (h : tokenRules rules = []) :
    implicitLiterals rules literals = literals := by
  refine List.filter_eq_self.mpr fun l _ => ?_
  have hfragments : ∀ r ∈ rules, r.fragment = true := by
    simpa using List.filter_eq_nil_iff.mp h
  rw [Bool.not_eq_true', spelledByRule, List.any_eq_false]
  intro r hr
  simp [hfragments r hr]

theorem resolved_rule {r : Rule} {w : LexerRuleSpec} (h : BuiltRule g scope vocabulary r w)
    (hr : r.FromFile) (hstrict : Strict scope names) :
    ∀ a ∈ w.alternatives, ∀ e ∈ a.elements, e.Lexical names := by
  intro a ha
  obtain ⟨b, hb, hresolve, -⟩ := exists_of_mem_right h.alternatives ha
  exact resolveAlternative_lexical hstrict b (hr.2 b hb) hresolve

/-- What is known of a written rule of a token. -/
theorem provides_rule {r : Rule} {w : LexerRuleSpec} {type : Nat}
    (h : BuiltRule g scope l.vocabulary r w) (hmode : r.mode ∈ l.modes)
    (hmodes : l.modes = defaultMode :: g.modes) (hchannels : l.channels = g.channels)
    (htype : w.tokenType = some type) : l.Provides w type where
  mode := h.mode ▸ hmode
  token := by
    rw [h.tokenType] at htype
    split at htype
    · cases htype
    · exact h.name ▸ lists_of_typeOf? htype
  commands := fun a ha c hc => by
    obtain ⟨b, hb, hresolve, hcommands⟩ := exists_of_mem_right h.alternatives ha
    rw [commands_of_resolveAlternative hresolve] at hc
    rw [hmodes, hchannels]
    exact hcommands c hc

theorem provides_implicitRule {t : TokenSpec} (hmode : defaultMode ∈ l.modes)
    (ht : Lists l.vocabulary t.name t.type) : l.Provides (implicitRule t) t.type where
  mode := hmode
  token := ht
  commands := fun a ha c hc => by
    obtain rfl := List.mem_singleton.mp ha
    exact absurd hc List.not_mem_nil

theorem ne_empty_of_isWord {name : String} (h : IsWord name) : name ≠ "" :=
  fun hempty => h.1 (String.toList_eq_nil_iff.mpr hempty)

theorem implicitTokens_named (implicit : List String) :
    ∀ t ∈ implicitTokens implicit, t.name ≠ "" := by
  refine List.foldlRecOn (motive := fun v : List TokenSpec => ∀ t ∈ v, t.name ≠ "") implicit _
    (fun t ht => absurd ht List.not_mem_nil) fun v hv l _ => ?_
  refine List.forall_mem_append.mpr ⟨hv, fun t ht => ?_⟩
  obtain rfl := List.mem_singleton.mp ht
  have hname : s!"T__{v.length}" = "T__" ++ toString v.length := rfl
  rw [hname]
  intro hempty
  have hlist := congrArg String.toList hempty
  rw [String.toList_append] at hlist
  cases hlist

/-- The names of a lexer's rules are those of its implicit tokens and of the written rules. -/
theorem Built.ruleNames_eq (h : Built g unit rules literals l) :
    l.ruleNames = (implicitTokens (implicitLiterals rules literals)).map TokenSpec.name ++
      rules.map Rule.name := by
  obtain ⟨written, hwritten, hbuilt⟩ := h.rules
  have hsame : rules.map Rule.name = written.map LexerRuleSpec.name := by
    rw [← List.forall₂_eq_eq_eq, List.forall₂_map_left_iff, List.forall₂_map_right_iff]
    exact hbuilt.imp fun r w hrule => hrule.name.symm
  rw [ruleNames, hwritten, List.map_append, List.map_map, hsame]
  rfl

/-- There is a rule for a token: a written one, or one for a literal. -/
theorem Built.exists_token (h : Built g unit rules literals l) :
    ∃ r ∈ l.rules, ∃ type, r.tokenType = some type := by
  obtain ⟨written, hwritten, hbuilt⟩ := h.rules
  rw [hwritten]
  by_cases htokens : tokenRules rules = []
  · have hliterals := h.nonempty.resolve_left (not_not_intro htokens)
    rw [← implicitLiterals_of_tokenRules_eq_nil literals htokens] at hliterals
    have hpos : 0 < (implicitTokens (implicitLiterals rules literals)).length := by
      rw [length_implicitTokens]
      exact List.length_pos_iff.mpr hliterals
    obtain ⟨t, ht⟩ := List.exists_mem_of_length_pos hpos
    exact ⟨implicitRule t, List.mem_append_left _ (List.mem_map_of_mem ht), t.type, rfl⟩
  · obtain ⟨r, hr⟩ := List.exists_mem_of_ne_nil _ htokens
    obtain ⟨hmem, hfragment⟩ := List.mem_filter.mp hr
    obtain ⟨w, hw, hrule⟩ := exists_of_mem_right hbuilt.flip hmem
    obtain ⟨t, -, htype⟩ := typeOf?_of_hasName (h.vocabulary ▸ hasName_of_rule hr)
    refine ⟨w, List.mem_append_right _ hw, t.type, ?_⟩
    rw [hrule.tokenType, if_neg (by simpa using hfragment), htype]

/-- A lexer of a grammar from a file. -/
theorem Built.resolved (h : Built g unit rules literals l) (hg : g.FromFile)
    (hrules : rules ⊆ g.rules) (hbase : g.option? "superClass" = none) : l.Resolved where
  base := h.base.trans hbase
  named := by
    rw [h.ruleNames_eq, List.mem_append, not_or]
    constructor
    · intro hin
      obtain ⟨t, ht, hname⟩ := List.mem_map.mp hin
      exact implicitTokens_named _ t ht hname
    · intro hin
      obtain ⟨r, hr, hname⟩ := List.mem_map.mp hin
      exact ne_empty_of_isWord (hg.rules r (hrules hr)).1 hname
  token := h.exists_token
  elements := by
    intro w hw
    obtain ⟨written, hwritten, hbuilt⟩ := h.rules
    rw [hwritten] at hw
    rcases List.mem_append.mp hw with hw | hw
    · obtain ⟨t, -, rfl⟩ := List.mem_map.mp hw
      intro a ha e he
      obtain rfl := List.mem_singleton.mp ha
      obtain ⟨text, -, rfl⟩ := Option.map_eq_some_iff.mp (Option.mem_toList.mp he)
      exact .literal text
    · obtain ⟨r, hr, hrule⟩ := exists_of_mem_right hbuilt hw
      refine resolved_rule hrule (hg.rules r (hrules hr)) ⟨by rw [hbase]; rfl, ?_⟩
      rw [h.ruleNames_eq]
      exact List.subset_append_right _ _
  rules := by
    intro w hw type htype
    obtain ⟨written, hwritten, hbuilt⟩ := h.rules
    rw [hwritten] at hw
    rcases List.mem_append.mp hw with hw | hw
    · obtain ⟨t, ht, rfl⟩ := List.mem_map.mp hw
      obtain rfl := Option.some.inj htype
      refine provides_implicitRule (h.modes ▸ List.mem_cons_self) ?_
      rw [h.vocabulary]
      exact lists_vocabularyOf ⟨t, ht, rfl, rfl⟩
    · obtain ⟨r, hr, hrule⟩ := exists_of_mem_right hbuilt hw
      exact provides_rule hrule (h.modes ▸ hg.modes r (hrules hr)) h.modes h.channels htype

end GrammarEngine.LexerSpec

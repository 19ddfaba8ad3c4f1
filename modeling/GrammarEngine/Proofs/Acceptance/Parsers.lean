import GrammarEngine.Proofs.Acceptance.LexerSpecs
import GrammarEngine.Proofs.Acceptance.Lexers
import GrammarEngine.Proofs.Analysis.Parser
import GrammarEngine.Proofs.Compile.Parsers

/-!
# Parsers that compile

A declared parser without a library compiles if its rules have different names and name only tokens
of the vocabulary lexer and rules of the parser. No rule is then appended while the rules are
lowered. Places are only reported, so they have no part in this.

The analysis leaves only names of tokens and rules in a parser rule, and all of them are there. What
is written from it therefore compiles over the lexer with these tokens.
-/
namespace GrammarEngine

/-- The expressions of a body. -/
def ParserRuleBody.items : ParserRuleBody → List UnitExpr
  | .plain alternatives => alternatives.flatten
  | .leftRecursive primaries suffixes => primaries.flatten ++ suffixes.flatMap Prod.snd

/-- An expression of a parser rule that names only these tokens and rules. -/
inductive ParserDecl.Lowers (tokens rules : List String) : UnitExpr → Prop
  | empty : Lowers tokens rules .empty
  | seq {items : List UnitExpr} :
      (∀ item ∈ items, Lowers tokens rules item) → Lowers tokens rules (.seq items)
  | choice {items : List UnitExpr} :
      (∀ item ∈ items, Lowers tokens rules item) → Lowers tokens rules (.choice items)
  | repeated {body : UnitExpr} (kind : Repetition) (isLazy : Bool) :
      Lowers tokens rules body → Lowers tokens rules (.repeated kind isLazy body)
  | token {name : String} (p : Position) : name ∈ tokens → Lowers tokens rules (.token name p)
  | notTokens {names : List String} (p : Position) :
      (∀ name ∈ names, name ∈ tokens) → Lowers tokens rules (.notTokens names p)
  | any : Lowers tokens rules .any
  | eof : Lowers tokens rules .eof
  | invoke {name : String} (precedence : UInt32) (p : Position) :
      name ∈ rules → Lowers tokens rules (.invoke name precedence p)

namespace ParserDecl

variable {tokens names : List String}

mutual
/-- The induction follows the nesting of expressions. -/
theorem Lowers.of_unplaced : ∀ {u : UnitExpr}, Lowers tokens names u.unplaced →
    Lowers tokens names u
  | .empty, _ => .empty
  | .seq items, h => by
      cases h with
      | seq hitems => exact .seq (lowers_of_unplacedAll hitems)
  | .choice items, h => by
      cases h with
      | choice hitems => exact .choice (lowers_of_unplacedAll hitems)
  | .repeated kind isLazy body, h => by
      cases h with
      | repeated _ _ hbody => exact .repeated kind isLazy hbody.of_unplaced
  | .token name p, h => by
      cases h with
      | token _ hname => exact .token p hname
  | .notTokens excluded p, h => by
      cases h with
      | notTokens _ hexcluded => exact .notTokens p hexcluded
  | .any, _ => .any
  | .eof, _ => .eof
  | .invoke name precedence p, h => by
      cases h with
      | invoke _ _ hname => exact .invoke precedence p hname
  | .literal text p, h => nomatch h
  | .ranges ranges negated, h => nomatch h
  | .ref name p, h => nomatch h

theorem lowers_of_unplacedAll : ∀ {items : List UnitExpr},
    (∀ item ∈ UnitExpr.unplacedAll items, Lowers tokens names item) →
    ∀ item ∈ items, Lowers tokens names item
  | [], _ => by simp
  | _ :: _, h => List.forall_mem_cons.mpr ⟨(h _ List.mem_cons_self).of_unplaced,
      lowers_of_unplacedAll fun item hitem => h item (List.mem_cons_of_mem _ hitem)⟩
end

/-! ## Steps that append nothing -/

variable {α β : Type} {scope : Scope} {rules : List ParserRuleDecl}

/-- A step gives a value and leaves the list of rules as it is. -/
def Keeps (rules : List ParserRuleDecl) (x : Linking α) : Prop :=
  ∃ a, x.run.run rules = (.ok a, rules)

theorem keeps_pure (a : α) : Keeps rules (pure a : Linking α) := ⟨a, rfl⟩

theorem Keeps.bind {x : Linking α} {f : α → Linking β} (hx : Keeps rules x)
    (hf : ∀ a, Keeps rules (f a)) : Keeps rules (x >>= f) := by
  obtain ⟨a, ha⟩ := hx
  obtain ⟨b, hb⟩ := hf a
  refine ⟨b, ?_⟩
  rw [ExceptT.run_bind, StateT.run_bind, ha]
  exact hb

theorem Keeps.map {x : Linking α} (hx : Keeps rules x) (f : α → β) :
    Keeps rules (x >>= fun a => pure (f a)) :=
  hx.bind fun a => keeps_pure (f a)

theorem Keeps.mapM {f : α → Linking β} {xs : List α} (h : ∀ x ∈ xs, Keeps rules (f x)) :
    Keeps rules (xs.mapM f) := by
  induction xs with
  | nil =>
      rw [List.mapM_nil]
      exact keeps_pure []
  | cons x xs ih =>
      rw [List.mapM_cons]
      refine (h x List.mem_cons_self).bind fun b => ?_
      exact (ih fun y hy => h y (List.mem_cons_of_mem x hy)).map (b :: ·)

theorem exists_indexOf? {name : String} (h : name ∈ rules.map ParserRuleDecl.name) :
    ∃ i, indexOf? rules name = some i := by
  obtain ⟨r, hr, hname⟩ := List.mem_map.mp h
  obtain ⟨i, hi⟩ := LexerDecl.exists_findIdx? (p := fun r : ParserRuleDecl => r.name == name)
    ⟨r, List.mem_reverse.mpr hr, beq_iff_eq.mpr hname⟩
  exact ⟨rules.length - 1 - i, by rw [indexOf?, hi, Option.map_some]⟩

theorem keeps_ruleIndex {name : String} (h : name ∈ rules.map ParserRuleDecl.name) (p : Position) :
    Keeps rules (ruleIndex scope name p) := by
  obtain ⟨i, hi⟩ := exists_indexOf? h
  exact ⟨.ofNat i, by rw [run_ruleIndex, hi]⟩

theorem keeps_tokenType {name : String} (h : name ∈ scope.tokens.map TokenDecl.name)
    (p : Position) : Keeps rules (tokenType scope name p) := by
  obtain ⟨t, ht, hname⟩ := List.mem_map.mp h
  have hfound : (scope.tokens.reverse.find? fun t => t.name == name).isSome = true :=
    List.find?_isSome.mpr ⟨t, List.mem_reverse.mpr ht, beq_iff_eq.mpr hname⟩
  obtain ⟨found, hfound⟩ := Option.isSome_iff_exists.mp hfound
  unfold tokenType
  split
  · exact keeps_pure _
  · rw [hfound]
    exact keeps_pure _

/-! ## Expressions and bodies -/

theorem lowerAll_eq_mapM (items : List UnitExpr) :
    lowerAll scope items = items.mapM (lower scope) := by
  induction items with
  | nil => rfl
  | cons u rest ih => rw [lowerAll, List.mapM_cons, ih]

theorem keeps_lower {u : UnitExpr}
    (h : Lowers (scope.tokens.map TokenDecl.name) (rules.map ParserRuleDecl.name) u) :
    Keeps rules (lower scope u) := by
  induction h with
  | empty => exact keeps_pure _
  | seq _ ih =>
      rw [lower, lowerAll_eq_mapM]
      exact (Keeps.mapM ih).map sequenceOf
  | choice _ ih =>
      rw [lower, lowerAll_eq_mapM]
      exact (Keeps.mapM ih).map ParseExpr.choice
  | repeated kind isLazy _ ih =>
      rw [lower]
      exact ih.map fun e => repetitionOf kind e (!isLazy)
  | token p hname =>
      rw [lower]
      exact (keeps_tokenType hname p).map ParseExpr.token
  | notTokens p hnames =>
      rw [lower]
      refine Keeps.map (Keeps.mapM fun name hname => ?_) fun ts =>
        ParseExpr.notTokens (Sorted.ofList ts)
      exact keeps_tokenType (hnames name hname) p
  | any => exact keeps_pure _
  | eof => exact keeps_pure _
  | invoke precedence p hname =>
      rw [lower]
      exact (keeps_ruleIndex hname p).map fun i => ParseExpr.rule i precedence

theorem keeps_lowerSequence {items : List UnitExpr}
    (h : ∀ u ∈ items, Lowers (scope.tokens.map TokenDecl.name) (rules.map ParserRuleDecl.name) u) :
    Keeps rules (lowerSequence scope items) := by
  rw [lowerSequence, lowerAll_eq_mapM]
  exact (Keeps.mapM fun u hu => keeps_lower (h u hu)).map sequenceOf

theorem keeps_lowerAlternatives {alternatives : List (List UnitExpr)}
    (h : ∀ u ∈ alternatives.flatten,
      Lowers (scope.tokens.map TokenDecl.name) (rules.map ParserRuleDecl.name) u) :
    Keeps rules (lowerAlternatives scope alternatives) := by
  refine Keeps.map (Keeps.mapM fun items hitems => ?_) choiceOf
  exact keeps_lowerSequence fun u hu => h u (List.mem_flatten.mpr ⟨items, hitems, hu⟩)

theorem keeps_lowerBody {body : ParserRuleBody}
    (h : ∀ u ∈ body.items,
      Lowers (scope.tokens.map TokenDecl.name) (rules.map ParserRuleDecl.name) u) :
    Keeps rules (lowerBody scope body) := by
  cases body with
  | plain alternatives => exact (keeps_lowerAlternatives h).map RuleBody.plain
  | leftRecursive primaries suffixes =>
      rw [ParserRuleBody.items, List.forall_mem_append] at h
      refine (keeps_lowerAlternatives h.1).bind fun e => ?_
      refine Keeps.map (Keeps.mapM fun s hs => ?_) (RuleBody.leftRecursive e)
      refine (keeps_lowerSequence fun u hu => ?_).map (Suffix.mk s.1)
      exact h.2 u (List.mem_flatMap.mpr ⟨s, hs, hu⟩)

/-- All rules are lowered, and the list of rules remains as it is. -/
theorem lowerRules_keeps (scope : Scope) (h : ∀ r ∈ rules, ∀ u ∈ r.body.items,
      Lowers (scope.tokens.map TokenDecl.name) (rules.map ParserRuleDecl.name) u)
    (bound index : Nat) (hbound : rules.length ≤ index + bound) :
    ∃ bodies : List RuleBody, (lowerRules scope bound index).run rules = (bodies.map .ok, rules) ∧
      bodies.length = rules.length - index := by
  induction bound generalizing index with
  | zero =>
      refine ⟨[], rfl, ?_⟩
      rw [List.length_nil]
      omega
  | succ bound ih =>
      rw [run_lowerRules]
      cases hr : rules[index]? with
      | none =>
          refine ⟨[], rfl, ?_⟩
          have hle := List.getElem?_eq_none_iff.mp hr
          rw [List.length_nil]
          omega
      | some r =>
          have hlt := (List.getElem?_eq_some_iff.mp hr).1
          obtain ⟨body, hbody⟩ := keeps_lowerBody (h r (List.mem_of_getElem? hr))
          obtain ⟨bodies, hbodies, hlength⟩ := ih (index + 1) (by omega)
          refine ⟨body :: bodies, ?_, ?_⟩
          · dsimp only
            rw [hbody, hbodies, List.map_cons]
          · rw [List.length_cons]
            omega

/-! ## Declarations -/

variable {d : ParserDecl} {index : UnitIndex}

def ruleNames (d : ParserDecl) : List String := d.rules.map ParserRuleDecl.name

/-- Rules that can be compiled, without a library, over a lexer with these tokens. -/
structure Complete (d : ParserDecl) (tokens : List String) : Prop where
  base : d.base = none
  distinct : d.ruleNames.Nodup
  nonempty : d.rules ≠ []
  start : ∀ n, d.start = some n → n.name ∈ d.ruleNames
  rules : ∀ r ∈ d.rules, ∀ u ∈ r.body.items, Lowers tokens d.ruleNames u

theorem Complete.exists_startRule (h : d.Complete tokens) :
    ∃ i, d.startRule d.rules = .ok i := by
  unfold startRule
  split
  · exact ⟨0, rfl⟩
  · next n hn =>
    obtain ⟨i, hi⟩ := exists_indexOf? (h.start n hn)
    exact ⟨i, by rw [hi]⟩

/-- A complete parser compiles, and its images bear the names of its rules. -/
theorem Complete.exists_compile {lexer : LexerDecl}
    (h : d.Complete (lexer.tokens.map TokenDecl.name))
    (hlexer : index.find? d.vocabulary.name = some (.lexer lexer)) :
    ∃ images, d.compile index = .ok images ∧
      images.map Prod.fst = d.name :: d.ruleNames.map (innerName d.name) := by
  have hfound : (do
      let lexer ← d.vocabularyLexer index
      return (lexer, ← baseLibrary d.base index)) = .ok (lexer, none) := by
    rw [vocabularyLexer, hlexer, h.base]
    rfl
  obtain ⟨bodies, hrun, hlength⟩ := lowerRules_keeps ⟨lexer.tokens, none⟩ h.rules
    (d.ruleBound none) 0 (by rw [ruleBound]; omega)
  obtain ⟨start, hstart⟩ := h.exists_startRule
  have hdistinct : duplicates "rule" [] (d.rules.map fun r => ⟨r.name, r.position⟩) = [] := by
    refine duplicates_eq_nil ?_ fun _ _ => List.not_mem_nil
    rw [List.map_map]
    exact h.distinct
  have hfaults : LexerDecl.faults (bodies.map .ok) = [] := by
    refine LexerDecl.faults_eq_nil fun result hresult => ?_
    obtain ⟨body, -, rfl⟩ := List.mem_map.mp hresult
    exact ⟨body, rfl⟩
  have hnonempty : d.rules.isEmpty = false := List.isEmpty_eq_false_iff.mpr h.nonempty
  have hvalues : LexerDecl.values (bodies.map (.ok : RuleBody → Except CompileFault.Located _)) =
      bodies := by
    rw [LexerDecl.values, List.filterMap_map]
    exact List.filterMap_some
  obtain ⟨images, himages, hnames, -, -⟩ := ruleImages_eq_map d.name 0 hlength
  refine ⟨(d.name, .parserHeader (d.header d.rules start)) ::
    ruleImages d.name 0 d.rules bodies, ?_, ?_⟩
  · unfold compile
    simp only [hfound, hnonempty, hrun, hstart, hdistinct, hfaults, hvalues]
    rfl
  · rw [himages, List.map_cons, List.map_map, ruleNames, ← hnames, List.map_map]
    rfl

/-! ## Declarations without places -/

theorem mem_items_unplaced {body : ParserRuleBody} {u : UnitExpr} (hu : u ∈ body.items) :
    u.unplaced ∈ body.unplaced.items := by
  have hflatten : ∀ {alternatives : List (List UnitExpr)}, u ∈ alternatives.flatten →
      u.unplaced ∈ (alternatives.map (List.map UnitExpr.unplaced)).flatten := by
    intro alternatives hu
    obtain ⟨items, hitems, hu⟩ := List.mem_flatten.mp hu
    exact List.mem_flatten.mpr ⟨_, List.mem_map_of_mem hitems, List.mem_map_of_mem hu⟩
  cases body with
  | plain alternatives => exact hflatten hu
  | leftRecursive primaries suffixes =>
      rcases List.mem_append.mp hu with hu | hu
      · exact List.mem_append_left _ (hflatten hu)
      · obtain ⟨s, hs, hu⟩ := List.mem_flatMap.mp hu
        refine List.mem_append_right _ (List.mem_flatMap.mpr ⟨_, List.mem_map_of_mem hs, ?_⟩)
        exact List.mem_map_of_mem hu

theorem ruleNames_unplaced (d : ParserDecl) : d.unplaced.ruleNames = d.ruleNames := by
  rw [ruleNames, unplaced, List.map_map]
  rfl

theorem Complete.of_unplaced (h : d.unplaced.Complete tokens) : d.Complete tokens where
  base := Option.map_eq_none_iff.mp h.base
  distinct := d.ruleNames_unplaced ▸ h.distinct
  nonempty := fun hnil => h.nonempty (by rw [unplaced, hnil, List.map_nil])
  start := fun n hn => by
    have hstart := h.start n.unplaced (by rw [unplaced, hn, Option.map_some])
    rwa [ruleNames_unplaced] at hstart
  rules := fun r hr u hu => by
    have hlowers := h.rules r.unplaced (List.mem_map_of_mem hr) _ (mem_items_unplaced hu)
    rw [ruleNames_unplaced] at hlowers
    exact hlowers.of_unplaced

end ParserDecl

end GrammarEngine

/-! ## Analysed parsers compile -/
namespace GrammarEngine

namespace ParserDecl

variable {tokens names : List String}

theorem lowers_sequenceOf {items : List UnitExpr} (h : ∀ u ∈ items, Lowers tokens names u) :
    Lowers tokens names (.sequenceOf items) := by
  match items, h with
  | [], _ => exact .empty
  | [u], h => exact h u List.mem_cons_self
  | u :: v :: rest, h => exact .seq h

theorem lowers_choiceOf {items : List UnitExpr} (h : ∀ u ∈ items, Lowers tokens names u) :
    Lowers tokens names (.choiceOf items) := by
  match items, h with
  | [], h => exact .choice h
  | [u], h => exact h u List.mem_cons_self
  | u :: v :: rest, h => exact .choice h

end ParserDecl

open ParserDecl

variable {scope : References.Scope} {vocabulary : List TokenSpec}

def TokenSpec.names (vocabulary : List TokenSpec) : List String := vocabulary.map TokenSpec.name

theorem mem_names_of_hasName {name : String} (h : LexerSpec.hasName vocabulary name = true) :
    name ∈ TokenSpec.names vocabulary := by
  obtain ⟨t, ht, hname⟩ := LexerSpec.hasName_iff.mp h
  exact List.mem_map.mpr ⟨t, ht, hname⟩

/-- What a resolved element declares names tokens of the vocabulary and rules in scope. -/
theorem References.Closed.lowers {e : Element} (h : Closed scope vocabulary e)
    (hstrict : scope.lenient = false) :
    Lowers (TokenSpec.names vocabulary) scope.ruleNames (e.declared .parser) := by
  have hrule {name : String} (hname : (scope.ruleNames.contains name || scope.lenient) = true) :
      name ∈ scope.ruleNames := by
    rw [hstrict, Bool.or_false] at hname
    exact List.contains_iff_mem.mp hname
  induction h with
  | token hname => exact .token {} (mem_names_of_hasName hname)
  | rule hname => exact .invoke 0 {} (hrule hname)
  | ruleAt precedence hname => exact .invoke _ {} (hrule hname)
  | any => exact .any
  | eof => exact .eof
  | notTokens hnames =>
      exact .notTokens {} fun name hname => mem_names_of_hasName (hnames name hname)
  | block _ ih =>
      rw [Element.declared, Element.declaredBlocks_eq_map]
      refine lowers_choiceOf fun u hu => ?_
      obtain ⟨a, ha, rfl⟩ := List.mem_map.mp hu
      refine lowers_sequenceOf fun v hv => ?_
      obtain ⟨e, he, rfl⟩ := List.mem_map.mp hv
      exact ih a ha e he
  | repeated kind greedy _ ih => exact .repeated kind _ ih

namespace ParserSpec

variable {p : ParserSpec}

def ruleNames (p : ParserSpec) : List String := p.rules.map ParserRuleSpec.name

/-- A parser of the analysis over a vocabulary that extends no library. -/
structure Resolved (p : ParserSpec) (vocabulary : List TokenSpec) : Prop where
  base : p.extends = none
  named : "" ∉ p.ruleNames
  distinct : p.ruleNames.Nodup
  start : p.startRule ∈ p.ruleNames
  rules : ∀ r ∈ p.rules, ∀ es ∈ r.parts, ∀ e ∈ es,
    Lowers (TokenSpec.names vocabulary) p.ruleNames (e.declared .parser)

/-- The expressions that a rule declares are those of its elements. -/
theorem exists_of_mem_items {r : ParserRuleSpec} {u : UnitExpr}
    (hu : u ∈ r.declared.body.items) :
    ∃ es ∈ r.parts, ∃ e ∈ es, u = e.declared .parser := by
  have hflatten : ∀ {alternatives : List Alternative},
      u ∈ (alternatives.map (declaredItems .parser)).flatten →
      ∃ es ∈ alternatives.map AlternativeOf.elements, ∃ e ∈ es, u = e.declared .parser := by
    intro alternatives hu
    obtain ⟨items, hitems, hu⟩ := List.mem_flatten.mp hu
    obtain ⟨a, ha, rfl⟩ := List.mem_map.mp hitems
    rw [declaredItems, Element.declaredAll_eq_map] at hu
    obtain ⟨e, he, rfl⟩ := List.mem_map.mp hu
    exact ⟨_, List.mem_map_of_mem ha, e, he, rfl⟩
  cases r with
  | plain name alternatives => exact hflatten hu
  | leftRecursive name primaries suffixes =>
      rcases List.mem_append.mp hu with hu | hu
      · obtain ⟨es, hes, e, he, hu⟩ := hflatten hu
        exact ⟨es, List.mem_append_left _ hes, e, he, hu⟩
      · obtain ⟨declared, hdeclared, hu⟩ := List.mem_flatMap.mp hu
        obtain ⟨s, hs, rfl⟩ := List.mem_map.mp hdeclared
        rw [Element.declaredAll_eq_map] at hu
        obtain ⟨e, he, rfl⟩ := List.mem_map.mp hu
        exact ⟨s.elements, List.mem_append_right _ (List.mem_map_of_mem hs), e, he, rfl⟩

theorem ruleNames_declared (p : ParserSpec) : p.declared.ruleNames = p.ruleNames := by
  rw [ParserDecl.ruleNames, ParserSpec.declared, List.map_map]
  rfl

/-- What such a parser declares is complete. -/
theorem Resolved.complete_declared (h : p.Resolved vocabulary) :
    p.declared.Complete (TokenSpec.names vocabulary) where
  base := Option.map_eq_none_iff.mpr h.base
  distinct := p.ruleNames_declared ▸ h.distinct
  nonempty := by
    intro hnil
    have hrules : p.rules = [] := List.map_eq_nil_iff.mp hnil
    have hstart := h.start
    rw [ruleNames, hrules] at hstart
    exact absurd hstart List.not_mem_nil
  start := fun n hn => by
    obtain rfl := Option.some.inj hn
    exact p.ruleNames_declared ▸ h.start
  rules := fun d hd u hu => by
    obtain ⟨r, hr, rfl⟩ := List.mem_map.mp hd
    obtain ⟨es, hes, e, he, rfl⟩ := exists_of_mem_items hu
    exact p.ruleNames_declared ▸ h.rules r hr es hes e he

end ParserSpec

/-! ### Parsers of grammars -/

theorem Analysis.BuiltParser.ruleNames_eq {g : Grammar} {unit : String} {rules : List Rule}
    {lexer lexer' : LexerSpec} {allowImplicit : Bool} {p : ParserSpec}
    (h : BuiltParser g unit rules lexer allowImplicit p lexer') :
    p.ruleNames = rules.map Rule.name := by
  rw [ParserSpec.ruleNames, ← List.forall₂_eq_eq_eq, List.forall₂_map_left_iff,
    List.forall₂_map_right_iff]
  exact (h.rules.imp fun r s hrule => hrule.1).flip

/-- A parser of a grammar, over the lexer whose vocabulary it completes. -/
theorem Analysis.BuiltParser.resolved {g : Grammar} {unit : String} {rules : List Rule}
    {lexer lexer' : LexerSpec} {allowImplicit : Bool} {p : ParserSpec}
    (h : BuiltParser g unit rules lexer allowImplicit p lexer')
    (hbase : g.option? "superClass" = none) (hrules : ∀ r ∈ rules, r.FromFile) :
    p.Resolved lexer'.vocabulary := by
  have hnames := h.ruleNames_eq.symm
  refine {
    base := h.base.trans hbase
    named := fun hin => ?_
    distinct := hnames ▸ nodup_of_checkDuplicates h.distinct
    start := ?_
    rules := fun s hs es hes e he => ?_ }
  · rw [← hnames] at hin
    obtain ⟨r, hr, hname⟩ := List.mem_map.mp hin
    exact LexerSpec.ne_empty_of_isWord (hrules r hr).1 hname
  · obtain ⟨first, hfirst, hname⟩ := Option.map_eq_some_iff.mp h.start
    exact hname ▸ List.mem_map_of_mem (List.mem_of_mem_head? hfirst)
  · obtain ⟨r, -, -, hsound⟩ := exists_of_mem_right h.rules hs
    have hlowers := (hsound.closed es hes e he).lowers (by rw [scopeOf, hbase]; rfl)
    exact hnames ▸ hlowers

end GrammarEngine

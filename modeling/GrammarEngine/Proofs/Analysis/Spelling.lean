import GrammarEngine.Proofs.Analysis.Parser
import GrammarEngine.Proofs.Analysis.Vocabulary

/-!
# Spelled rules

What resolving a parser rule does, as equations. The vocabulary is completed by the tokens that the
rule names, in the order in which it names them. Every literal has become the token that stands for
it and every exclusion the names of its tokens, while everything else is kept.
-/
namespace GrammarEngine

namespace References

/-! ## Tokens and literals of elements -/

mutual
/-- The tokens that an element names, in order of appearance. -/
def tokensOf : Element → List String
  | .token name => [name]
  | .not members => tokensOfAll members
  | .block alternatives => tokensOfAlternatives alternatives
  | .repeated e _ _ => tokensOf e
  | _ => []

def tokensOfAll : List Element → List String
  | [] => []
  | e :: rest => tokensOf e ++ tokensOfAll rest

def tokensOfAlternative : AlternativeOf Element → List String
  | ⟨elements, _, _, _⟩ => tokensOfAll elements

def tokensOfAlternatives : List (AlternativeOf Element) → List String
  | [] => []
  | a :: rest => tokensOfAlternative a ++ tokensOfAlternatives rest
end

/-- The token that a member of an exclusion names; only literals and tokens can be members. -/
def memberTokens (token : String → String) : Element → List String
  | .literal text => [token text]
  | .token name => [name]
  | _ => []

mutual
/-- An element with tokens in place of literals. -/
def spelled (token : String → String) : Element → Element
  | .literal text => .token (token text)
  | .not members => .notTokens (members.flatMap (memberTokens token))
  | .block alternatives => .block (spelledAlternatives token alternatives)
  | .repeated e kind greedy => .repeated (spelled token e) kind greedy
  | e => e

def spelledAll (token : String → String) : List Element → List Element
  | [] => []
  | e :: rest => spelled token e :: spelledAll token rest

def spelledAlternative (token : String → String) :
    AlternativeOf Element → AlternativeOf Element
  | ⟨elements, label, rightAssoc, commands⟩ =>
    ⟨spelledAll token elements, label, rightAssoc, commands⟩

def spelledAlternatives (token : String → String) :
    List (AlternativeOf Element) → List (AlternativeOf Element)
  | [] => []
  | a :: rest => spelledAlternative token a :: spelledAlternatives token rest
end

/-- The first token of a vocabulary with a spelling. -/
def tokenFor? (vocabulary : List TokenSpec) (text : String) : Option TokenSpec :=
  vocabulary.find? fun t => t.literal == some text

/-- The name of the token that stands for a literal; one without a token stands for itself. -/
def nameFor (vocabulary : List TokenSpec) (text : String) : String :=
  ((tokenFor? vocabulary text).map TokenSpec.name).getD text

/-- Tokens without a literal stand for none. -/
theorem tokenFor?_addDeclared (vocabulary : List TokenSpec) (names : List String) :
    tokenFor? (LexerSpec.addDeclared vocabulary names) = tokenFor? vocabulary := by
  refine LexerSpec.addDeclared_invariant (tokenFor? · = tokenFor? vocabulary) rfl
    fun v name hv _ => ?_
  funext text
  rw [← hv, tokenFor?, tokenFor?, LexerSpec.addToken, List.find?_append]
  simp

theorem nameFor_addDeclared (vocabulary : List TokenSpec) (names : List String) :
    nameFor (LexerSpec.addDeclared vocabulary names) = nameFor vocabulary := by
  funext text
  rw [nameFor, tokenFor?_addDeclared, nameFor]

/-! ## Steps -/

variable {α β : Type} {allowImplicit : Bool}

/-- Resolving that names these tokens and literals. The vocabulary is completed by the tokens, which
it may only where tokens can be implicit, and has one for each of the literals. The value is as the
tokens for literals tell. -/
def Spells (allowImplicit : Bool) (x : Resolving α) (tokens literals : List String)
    (P : (String → String) → α → Prop) : Prop :=
  ∀ s a t, x s = .ok (a, t) →
    t.vocabulary = LexerSpec.addDeclared s.vocabulary tokens ∧
    (allowImplicit = false → t.vocabulary = s.vocabulary) ∧
    (∀ text ∈ literals, (tokenFor? s.vocabulary text).isSome) ∧
    P (nameFor s.vocabulary) a

theorem spells_pure {a : α} {P : (String → String) → α → Prop} (h : ∀ f, P f a) :
    Spells allowImplicit (pure a) [] [] P := by
  intro s b t hrun
  obtain ⟨rfl, rfl⟩ : a = b ∧ s = t := Prod.mk.inj (Except.ok.inj hrun)
  exact ⟨rfl, fun _ => rfl, List.forall_mem_nil _, h _⟩

theorem spells_throw {fault : RuleFault} {tokens literals : List String}
    {P : (String → String) → α → Prop} :
    Spells allowImplicit (throw fault : Resolving α) tokens literals P := by
  intro s a t hrun
  cases hrun

theorem Spells.bind {x : Resolving α} {f : α → Resolving β}
    {tokens more literals others : List String} {P : (String → String) → α → Prop}
    {Q : (String → String) → β → Prop} (hx : Spells allowImplicit x tokens literals P)
    (hf : ∀ a, Spells allowImplicit (f a) more others fun m b => P m a → Q m b) :
    Spells allowImplicit (x >>= f) (tokens ++ more) (literals ++ others) Q := by
  intro s b t hrun
  cases hstep : x s with
  | error fault => simp [Bind.bind, StateT.bind, hstep, Except.bind] at hrun
  | ok r =>
      obtain ⟨hvocabulary, hkeep, hliterals, ha⟩ := hx s r.1 r.2 hstep
      obtain ⟨hvocabulary', hkeep', hothers, hb⟩ := hf r.1 r.2 b t (by
        simpa [Bind.bind, StateT.bind, hstep, Except.bind] using hrun)
      rw [hvocabulary, tokenFor?_addDeclared] at hothers
      rw [hvocabulary, nameFor_addDeclared] at hb
      refine ⟨?_, fun hallow => (hkeep' hallow).trans (hkeep hallow),
        List.forall_mem_append.mpr ⟨hliterals, hothers⟩, hb ha⟩
      rw [hvocabulary', hvocabulary, LexerSpec.addDeclared_append]

theorem Spells.mono {x : Resolving α} {tokens literals : List String}
    {P Q : (String → String) → α → Prop} (hx : Spells allowImplicit x tokens literals P)
    (h : ∀ m a, P m a → Q m a) : Spells allowImplicit x tokens literals Q := by
  intro s a t hrun
  obtain ⟨hvocabulary, hkeep, hliterals, ha⟩ := hx s a t hrun
  exact ⟨hvocabulary, hkeep, hliterals, h _ _ ha⟩

/-- A last step that names nothing. -/
theorem Spells.map {x : Resolving α} {f : α → β} {tokens literals : List String}
    {P : (String → String) → α → Prop} {Q : (String → String) → β → Prop}
    (hx : Spells allowImplicit x tokens literals P) (h : ∀ m a, P m a → Q m (f a)) :
    Spells allowImplicit (x >>= fun a => pure (f a)) tokens literals Q := by
  have hbind := hx.bind (f := fun a => pure (f a)) (Q := Q) fun a => spells_pure fun m => h m a
  rwa [List.append_nil, List.append_nil] at hbind

/-! ## Tokens -/

theorem literalToken_spells (text : String) :
    Spells allowImplicit (literalToken text) [] [text] fun m name => name = m text := by
  intro s name t hrun
  unfold literalToken at hrun
  cases hfound : s.vocabulary.find? (fun t => t.literal == some text) with
  | none => simp [bind, StateT.bind, get, getThe, MonadStateOf.get, StateT.get, pure, Except.pure,
      Except.bind, hfound, throw, throwThe, MonadExceptOf.throw, StateT.lift] at hrun
  | some found =>
      obtain ⟨rfl, rfl⟩ : found.name = name ∧ s = t := by
        simpa [bind, StateT.bind, get, getThe, MonadStateOf.get, StateT.get, pure, Except.pure,
          Except.bind, stateT_pure, hfound] using hrun
      have htoken : tokenFor? s.vocabulary text = some found := hfound
      refine ⟨rfl, fun _ => rfl, List.forall_mem_singleton.mpr ?_, ?_⟩
      · rw [htoken]
        rfl
      · change found.name = nameFor s.vocabulary text
        rw [nameFor, htoken]
        rfl

theorem token_spells (scope : Scope) (name : String) :
    Spells scope.allowImplicit (token scope name) [name] [] fun _ found => found = name := by
  intro s found t hrun
  unfold token at hrun
  rw [LexerSpec.addDeclared_cons]
  cases hname : LexerSpec.hasName s.vocabulary name with
  | true =>
      obtain ⟨rfl, rfl⟩ : name = found ∧ s = t := by
        simpa [bind, StateT.bind, get, getThe, MonadStateOf.get, StateT.get, pure, Except.pure,
          Except.bind, stateT_pure, hname] using hrun
      exact ⟨rfl, fun _ => rfl, List.forall_mem_nil _, rfl⟩
  | false =>
      cases hallow : scope.allowImplicit with
      | false => simp [bind, StateT.bind, get, getThe, MonadStateOf.get, StateT.get, pure,
          Except.pure, Except.bind, hname, hallow, throw, throwThe, MonadExceptOf.throw,
          StateT.lift] at hrun
      | true =>
          obtain ⟨rfl, rfl⟩ : name = found ∧
              State.mk (LexerSpec.addToken s.vocabulary name none) (s.added ++ [name]) = t := by
            simpa [bind, StateT.bind, get, getThe, MonadStateOf.get, StateT.get, pure, Except.pure,
              Except.bind, stateT_pure, set, MonadStateOf.set, stateT_set, hname, hallow] using hrun
          exact ⟨rfl, fun hfalse => Bool.noConfusion hfalse, List.forall_mem_nil _, rfl⟩

theorem member_spells (scope : Scope) (e : Element) :
    Spells scope.allowImplicit (member scope e) (tokensOf e) (LexerSpec.literalsOf e)
      fun m name => memberTokens m e = [name] := by
  unfold member
  split
  · exact (literalToken_spells _).mono fun m name hname => congrArg ([·]) hname.symm
  · exact (token_spells scope _).mono fun m name hname => congrArg ([·]) hname.symm
  · exact spells_throw

theorem members_spell (scope : Scope) (members : List Element) :
    Spells scope.allowImplicit (members.mapM (member scope)) (tokensOfAll members)
      (LexerSpec.literalsOfAll members)
      fun m names => members.flatMap (memberTokens m) = names := by
  induction members with
  | nil => exact spells_pure fun m => rfl
  | cons e members ih =>
      rw [List.mapM_cons]
      refine (member_spells scope e).bind fun name => ?_
      refine ih.map fun m names hnames hname => ?_
      rw [List.flatMap_cons, hname, hnames, List.singleton_append]

/-! ## Elements -/

mutual
/-- The induction follows the nesting of blocks. -/
theorem resolve_spells (scope : Scope) : ∀ e : Element,
    Spells scope.allowImplicit (resolve scope e) (tokensOf e) (LexerSpec.literalsOf e)
      fun m e' => e' = spelled m e
  | .literal text => by
      rw [resolve]
      exact (literalToken_spells text).map fun m name hname => congrArg Element.token hname
  | .token name => by
      rw [resolve]
      exact (token_spells scope name).map fun m found hname => congrArg Element.token hname
  | .rule name => by
      rw [resolve]
      split
      · exact spells_pure fun m => rfl
      · exact spells_throw
  | .charSet ranges negated => by
      rw [resolve]
      exact spells_throw
  | .not members => by
      rw [resolve]
      exact (members_spell scope members).map fun m names hnames => by rw [← hnames, spelled]
  | .block alternatives => by
      rw [resolve]
      exact (resolveAlternatives_spell scope alternatives).map fun m found hfound => by
        rw [hfound, spelled]
  | .repeated e kind greedy => by
      rw [resolve]
      exact (resolve_spells scope e).map fun m found hfound => by rw [hfound, spelled]
  | .any | .eof | .notTokens _ | .ruleAt _ _ => by
      rw [resolve]
      exact spells_pure fun m => rfl

theorem resolveAll_spell (scope : Scope) : ∀ es : List Element,
    Spells scope.allowImplicit (resolveAll scope es) (tokensOfAll es)
      (LexerSpec.literalsOfAll es) fun m es' => es' = spelledAll m es
  | [] => spells_pure fun m => rfl
  | e :: rest => by
      rw [resolveAll]
      refine (resolve_spells scope e).bind fun found => ?_
      refine (resolveAll_spell scope rest).map fun m others hothers hfound => ?_
      rw [hfound, hothers, spelledAll]

theorem resolveAlternative_spells (scope : Scope) : ∀ a : AlternativeOf Element,
    Spells scope.allowImplicit (resolveAlternative scope a) (tokensOfAlternative a)
      (LexerSpec.literalsOfAlternative a) fun m a' => a' = spelledAlternative m a
  | ⟨elements, _, _, _⟩ => by
      rw [resolveAlternative]
      exact (resolveAll_spell scope elements).map fun m found hfound => by
        rw [hfound, spelledAlternative]

theorem resolveAlternatives_spell (scope : Scope) : ∀ alternatives : List (AlternativeOf Element),
    Spells scope.allowImplicit (resolveAlternatives scope alternatives)
      (tokensOfAlternatives alternatives) (LexerSpec.literalsOfAlternatives alternatives)
      fun m alternatives' => alternatives' = spelledAlternatives m alternatives
  | [] => spells_pure fun m => rfl
  | a :: rest => by
      rw [resolveAlternatives]
      refine (resolveAlternative_spells scope a).bind fun found => ?_
      refine (resolveAlternatives_spell scope rest).map fun m others hothers hfound => ?_
      rw [hfound, hothers, spelledAlternatives]
end

/-- The alternatives of a rule with tokens in place of literals and without commands. -/
def spelledRule (token : String → String) (r : Rule) : List Alternative :=
  r.alternatives.map fun a => { spelledAlternative token a with commands := [] }

theorem ruleAlternatives_spell (scope : Scope) (r : Rule) :
    Spells scope.allowImplicit (ruleAlternatives scope r) (tokensOfAlternatives r.alternatives)
      (LexerSpec.literalsOfAlternatives r.alternatives)
      fun m alternatives => alternatives = spelledRule m r := by
  unfold ruleAlternatives spelledRule
  induction r.alternatives with
  | nil => exact spells_pure fun m => rfl
  | cons a rest ih =>
      rw [List.mapM_cons]
      refine Spells.bind (P := fun m b => b = { spelledAlternative m a with commands := [] })
        ((resolveAlternative_spells scope a).map fun m b hb => by rw [hb]) fun b => ?_
      refine ih.map fun m others hothers hb => ?_
      rw [hb, hothers, List.map_cons]

/-- The tokens that rules name. -/
def tokensOfRules (rules : List Rule) : List String :=
  rules.flatMap fun r => tokensOfAlternatives r.alternatives

end References

/-! ## Parsers -/

namespace Analysis

open References

/-- What a rule of a grammar becomes, given the tokens for literals. -/
def SpelledRule (token : String → String) (r : Rule) (spec : ParserRuleSpec) : Prop :=
  LeftRecursion.eliminate r.name (spelledRule token r) = .ok spec

/-- What a parser is made of, and the lexer whose vocabulary it completes. -/
structure SpelledParser (g : Grammar) (unit : String) (rules : List Rule) (lexer : LexerSpec)
    (allowImplicit : Bool) (parser : ParserSpec) (lexer' : LexerSpec) : Prop where
  unit : parser.unit = unit
  grammar : parser.grammar = g.name
  vocabularyUnit : parser.vocabularyUnit = lexer.unit
  completes : lexer' = { lexer with
    vocabulary := LexerSpec.addDeclared lexer.vocabulary (tokensOfRules rules) }
  keeps : allowImplicit = false → lexer' = lexer
  literals : ∀ r ∈ rules, ∀ text ∈ LexerSpec.literalsOfAlternatives r.alternatives,
    (tokenFor? lexer.vocabulary text).isSome
  rules : List.Forall₂ (SpelledRule (nameFor lexer.vocabulary)) rules parser.rules

variable {g : Grammar} {unit : String} {scope : Scope} {lexer lexer' : LexerSpec}
  {allowImplicit : Bool}

theorem addParserRule_spelled {built built' : ParserRules} {r : Rule}
    (h : addParserRule g scope built r = .ok built') :
    built'.vocabulary =
        LexerSpec.addDeclared built.vocabulary (tokensOfAlternatives r.alternatives) ∧
      (scope.allowImplicit = false → built'.vocabulary = built.vocabulary) ∧
      (∀ text ∈ LexerSpec.literalsOfAlternatives r.alternatives,
        (tokenFor? built.vocabulary text).isSome) ∧
      ∃ spec, built'.specs = built.specs ++ [spec] ∧
        SpelledRule (nameFor built.vocabulary) r spec := by
  unfold addParserRule at h
  dsimp only at h
  split at h
  · cases h
  · next spec s hresolved =>
    obtain rfl := Except.ok.inj h
    obtain ⟨⟨alternatives, s'⟩, hrun, hresolved⟩ := bind_eq_ok.mp hresolved
    obtain ⟨spec', heliminate, hresolved⟩ := bind_eq_ok.mp hresolved
    obtain ⟨rfl, rfl⟩ := Prod.mk.inj (Except.ok.inj hresolved)
    obtain ⟨hvocabulary, hkeep, hliterals, rfl⟩ := ruleAlternatives_spell scope r _ _ _ hrun
    exact ⟨hvocabulary, hkeep, hliterals, spec', rfl, heliminate⟩

/-- Rules are built in order. Since added tokens stand for no literals, all of them are over the
tokens for literals that were there. -/
theorem addParserRules_spelled {rules : List Rule} {built built' : ParserRules}
    (h : rules.foldlM (addParserRule g scope) built = .ok built') :
    built'.vocabulary = LexerSpec.addDeclared built.vocabulary (tokensOfRules rules) ∧
      (scope.allowImplicit = false → built'.vocabulary = built.vocabulary) ∧
      (∀ r ∈ rules, ∀ text ∈ LexerSpec.literalsOfAlternatives r.alternatives,
        (tokenFor? built.vocabulary text).isSome) ∧
      ∃ specs, built'.specs = built.specs ++ specs ∧
        List.Forall₂ (SpelledRule (nameFor built.vocabulary)) rules specs := by
  induction rules generalizing built with
  | nil =>
      obtain rfl := Except.ok.inj h
      exact ⟨rfl, fun _ => rfl, List.forall_mem_nil _, [], (List.append_nil _).symm, .nil⟩
  | cons r rules ih =>
      rw [List.foldlM_cons, bind_eq_ok] at h
      obtain ⟨middle, hmiddle, h⟩ := h
      obtain ⟨hvocabulary, hkeep, hliterals, spec, hspec, hspelled⟩ := addParserRule_spelled hmiddle
      obtain ⟨hvocabulary', hkeep', hothers, specs, hspecs, hrest⟩ := ih h
      rw [hvocabulary, tokenFor?_addDeclared] at hothers
      rw [hvocabulary, nameFor_addDeclared] at hrest
      refine ⟨?_, fun hallow => (hkeep' hallow).trans (hkeep hallow),
        List.forall_mem_cons.mpr ⟨hliterals, hothers⟩, spec :: specs, ?_, .cons hspelled hrest⟩
      · rw [hvocabulary', hvocabulary, ← LexerSpec.addDeclared_append]
        rfl
      · rw [hspecs, hspec, List.append_assoc, List.singleton_append]

theorem spelled_of_buildParser {rules : List Rule} {parser : ParserSpec} {warnings : List Warning}
    (h : buildParser g unit rules lexer allowImplicit = .ok (parser, lexer', warnings)) :
    SpelledParser g unit rules lexer allowImplicit parser lexer' := by
  obtain ⟨built, first, -, hbuilt, -, -, rfl, rfl⟩ := exists_of_buildParser h
  obtain ⟨hvocabulary, hkeep, hliterals, specs, hspecs, hrules⟩ := addParserRules_spelled hbuilt
  rw [List.nil_append] at hspecs
  exact {
    unit := rfl, grammar := rfl, vocabularyUnit := rfl
    completes := by rw [hvocabulary]
    keeps := fun hallow => by rw [hkeep hallow]
    literals := hliterals
    rules := hspecs ▸ hrules }

end Analysis

end GrammarEngine

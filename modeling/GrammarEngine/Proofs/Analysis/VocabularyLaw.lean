import GrammarEngine.Proofs.Analysis.Grammars
import GrammarEngine.Proofs.Analysis.Spelling
import GrammarEngine.Proofs.Unit.RoundTrip

/-!
# The law of vocabularies

The vocabulary of every lexer of an analysis, from the root grammar of the lexer: which names it
has and in which order, how they are numbered, which literals they stand for and how the rules of
the lexer are numbered by it. Every token that a rule of a parser names is in the vocabulary of the
lexer that the parser is built on.
-/
namespace GrammarEngine

/-! ## Names in elements -/

namespace Element

/-- A token that an element names. -/
inductive Names (name : String) : Element → Prop
  | token : Names name (.token name)
  | notTokens {names : List String} : name ∈ names → Names name (.notTokens names)
  | block {alternatives : List Alternative} {a : Alternative} {e : Element} :
      a ∈ alternatives → e ∈ a.elements → Names name e → Names name (.block alternatives)
  | repeated {e : Element} (kind : Repetition) (greedy : Bool) :
      Names name e → Names name (.repeated e kind greedy)

/-- A token that an element excludes by its name, as only resolved elements do. -/
inductive Excludes (name : String) : Element → Prop
  | notTokens {names : List String} : name ∈ names → Excludes name (.notTokens names)
  | block {alternatives : List Alternative} {a : Alternative} {e : Element} :
      a ∈ alternatives → e ∈ a.elements → Excludes name e → Excludes name (.block alternatives)
  | repeated {e : Element} (kind : Repetition) (greedy : Bool) :
      Excludes name e → Excludes name (.repeated e kind greedy)

/-- Elements of files have not been resolved. -/
theorem not_excludes {name : String} {depth : Nat} {e : Element} (h : e.Within 0 depth) :
    ¬ e.Excludes name := by
  intro hname
  induction hname generalizing depth with
  | notTokens _ =>
      cases h with
      | notTokens _ _ hlt => exact absurd hlt (Nat.not_lt_zero _)
  | block ha he _ ih =>
      cases h with
      | block halternatives => exact ih (halternatives _ ha _ he)
  | repeated _ _ _ ih =>
      cases h with
      | repeated _ _ he => exact ih he

end Element

namespace References

variable {token : String → String} {name : String}

theorem spelledAll_eq_map (token : String → String) (es : List Element) :
    spelledAll token es = es.map (spelled token) := by
  induction es with
  | nil => rfl
  | cons e rest ih => rw [spelledAll, ih, List.map_cons]

theorem spelledAlternatives_eq_map (token : String → String) (alternatives : List Alternative) :
    spelledAlternatives token alternatives = alternatives.map (spelledAlternative token) := by
  induction alternatives with
  | nil => rfl
  | cons a rest ih => rw [spelledAlternatives, ih, List.map_cons]

theorem elements_spelledAlternative (a : Alternative) :
    (spelledAlternative token a).elements = a.elements.map (spelled token) := by
  obtain ⟨elements, label, rightAssoc, commands⟩ := a
  exact spelledAll_eq_map token elements

theorem mem_tokensOfAll {es : List Element} :
    name ∈ tokensOfAll es ↔ ∃ e ∈ es, name ∈ tokensOf e := by
  induction es with
  | nil => simp [tokensOfAll]
  | cons e rest ih => simp [tokensOfAll, ih]

theorem mem_tokensOfAlternatives {alternatives : List Alternative} :
    name ∈ tokensOfAlternatives alternatives ↔
      ∃ a ∈ alternatives, ∃ e ∈ a.elements, name ∈ tokensOf e := by
  induction alternatives with
  | nil => simp [tokensOfAlternatives]
  | cons a rest ih =>
      obtain ⟨elements, label, rightAssoc, commands⟩ := a
      simp [tokensOfAlternatives, tokensOfAlternative, ih, mem_tokensOfAll]

theorem mem_literalsOfAll {es : List Element} {text : String} :
    text ∈ LexerSpec.literalsOfAll es ↔ ∃ e ∈ es, text ∈ LexerSpec.literalsOf e := by
  induction es with
  | nil => simp [LexerSpec.literalsOfAll]
  | cons e rest ih => simp [LexerSpec.literalsOfAll, ih]

theorem mem_literalsOfAlternatives {alternatives : List Alternative} {text : String} :
    text ∈ LexerSpec.literalsOfAlternatives alternatives ↔
      ∃ a ∈ alternatives, ∃ e ∈ a.elements, text ∈ LexerSpec.literalsOf e := by
  induction alternatives with
  | nil => simp [LexerSpec.literalsOfAlternatives]
  | cons a rest ih =>
      obtain ⟨elements, label, rightAssoc, commands⟩ := a
      simp [LexerSpec.literalsOfAlternatives, LexerSpec.literalsOfAlternative, ih,
        mem_literalsOfAll]

/-- A token that an element names itself or for one of its literals, or that it excludes already. -/
def Refers (token : String → String) (e : Element) (name : String) : Prop :=
  name ∈ tokensOf e ∨ (∃ text ∈ LexerSpec.literalsOf e, token text = name) ∨ e.Excludes name

theorem Refers.block {alternatives : List Alternative} {a : Alternative} {e : Element}
    (h : Refers token e name) (ha : a ∈ alternatives) (he : e ∈ a.elements) :
    Refers token (.block alternatives) name := by
  rcases h with h | ⟨text, htext, h⟩ | h
  · exact .inl (mem_tokensOfAlternatives.mpr ⟨a, ha, e, he, h⟩)
  · exact .inr (.inl ⟨text, mem_literalsOfAlternatives.mpr ⟨a, ha, e, he, htext⟩, h⟩)
  · exact .inr (.inr (.block ha he h))

theorem refers_of_names {e : Element} (h : (spelled token e).Names name) : Refers token e name := by
  generalize hspelled : spelled token e = e' at h
  induction h generalizing e with
  | token =>
      cases e with
      | literal text =>
          exact .inr (.inl ⟨text, List.mem_singleton_self text, Element.token.inj hspelled⟩)
      | token other =>
          cases hspelled
          exact .inl (List.mem_singleton_self name)
      | _ => cases hspelled
  | notTokens hname =>
      cases e with
      | «not» members =>
          obtain rfl := Element.notTokens.inj hspelled
          obtain ⟨m, hm, hname⟩ := List.mem_flatMap.mp hname
          cases m with
          | literal text =>
              have htext := mem_literalsOfAll.mpr ⟨_, hm, List.mem_singleton_self text⟩
              exact .inr (.inl ⟨text, htext, (List.mem_singleton.mp hname).symm⟩)
          | token other => exact .inl (mem_tokensOfAll.mpr ⟨_, hm, hname⟩)
          | _ => cases hname
      | notTokens names =>
          obtain rfl := Element.notTokens.inj hspelled
          exact .inr (.inr (.notTokens hname))
      | _ => cases hspelled
  | block ha he _ ih =>
      cases e with
      | block alternatives =>
          obtain rfl := Element.block.inj hspelled
          rw [spelledAlternatives_eq_map] at ha
          obtain ⟨b, hb, rfl⟩ := List.mem_map.mp ha
          rw [elements_spelledAlternative] at he
          obtain ⟨d, hd, rfl⟩ := List.mem_map.mp he
          exact (ih rfl).block hb hd
      | _ => cases hspelled
  | repeated kind greedy _ ih =>
      cases e with
      | repeated d kind' greedy' =>
          obtain ⟨rfl, rfl, rfl⟩ := Element.repeated.inj hspelled
          rcases ih rfl with h | h | h
          · exact .inl h
          · exact .inr (.inl h)
          · exact .inr (.inr (.repeated _ _ h))
      | _ => cases hspelled

end References

/-! ## Lexers -/

namespace Grammar

def lexerRules (g : Grammar) : List Rule := g.rules.filter Rule.isLexerRule

def parserRules (g : Grammar) : List Rule := g.rules.filter fun r => !r.isLexerRule

/-- The literals of the parser rules that no token rule spells. -/
def implicitLiterals (g : Grammar) : List String :=
  LexerSpec.implicitLiterals g.lexerRules (LexerSpec.parserLiterals g.parserRules)

/-- The names of tokens in the order in which they are met: implicit tokens, declared tokens, token
rules and the tokens that parser rules name. -/
def tokenNames (g : Grammar) : List String :=
  (List.range g.implicitLiterals.length).map LexerSpec.implicitName ++
    (g.tokens ++ (LexerSpec.tokenRules g.lexerRules).map Rule.name ++
      References.tokensOfRules g.parserRules)

/-- A token that a rule of the grammar excludes by its name, as only resolved rules do. -/
def Excludes (g : Grammar) (name : String) : Prop :=
  ∃ r ∈ g.rules, ∃ a ∈ r.alternatives, ∃ e ∈ a.elements, e.Excludes name

/-- The grammar whose lexer gives the tokens of the parser of a grammar. -/
def tokenGrammar? (g : Grammar) : Option String :=
  match g.kind with
  | .parser => g.option? "tokenVocab"
  | _ => some g.name

end Grammar

namespace LexerSpec

/-- A rule of a lexer over a vocabulary that has been built from a rule: fragments have no type,
all others that of the entry of their name. -/
structure Typed (vocabulary : List TokenSpec) (r : Rule) (s : LexerRuleSpec) : Prop where
  name : s.name = r.name
  fragment : r.fragment = true → s.tokenType = none
  token : r.fragment = false → ∃ t ∈ vocabulary, t.name = r.name ∧ s.tokenType = some t.type

/-- The vocabulary of a lexer and the types of its rules are those that a grammar gives it. -/
structure LexiconOf (g : Grammar) (l : LexerSpec) : Prop where
  grammar : l.grammar = g.name
  /-- Types count the entries from one. -/
  types : l.vocabulary.map TokenSpec.type = List.range' 1 l.vocabulary.length
  distinct : (l.vocabulary.map TokenSpec.name).Nodup
  /-- The first occurrence of a name is its entry. -/
  names : l.vocabulary.map TokenSpec.name = firsts g.tokenNames
  /-- The implicit tokens come first, with the literals that they are made for. -/
  implicit : (g.implicitLiterals.mapIdx fun i text => ⟨i + 1, implicitName i, some text⟩) <+:
    l.vocabulary
  /-- Other entries have the literal of a token rule of their name. -/
  literals : ∀ t ∈ l.vocabulary, t.literal =
    (literalOf (implicitTokens g.implicitLiterals) t.name).or (spelling g.lexerRules t.name)
  rules : ∃ written, l.rules = (implicitTokens g.implicitLiterals).map implicitRule ++ written ∧
    List.Forall₂ (Typed l.vocabulary) g.lexerRules written
  /-- Every rule of a token has the type of the entry of its name. -/
  tokens : ∀ s ∈ l.rules, ∀ type, s.tokenType = some type →
    ∃ t ∈ l.vocabulary, t.name = s.name ∧ t.type = type

theorem exists_entry {vocabulary : List TokenSpec} {name : String}
    (h : hasName vocabulary name = true) :
    ∃ t ∈ vocabulary, t.name = name ∧ typeOf? vocabulary name = some t.type := by
  obtain ⟨t, ht, hname⟩ := hasName_iff.mp h
  cases hfind : vocabulary.find? (fun t => t.name == name) with
  | none => exact absurd (beq_iff_eq.mpr hname) (List.find?_eq_none.mp hfind t ht)
  | some s =>
      refine ⟨s, List.mem_of_find?_eq_some hfind, by simpa using List.find?_some hfind, ?_⟩
      rw [typeOf?, hfind]
      rfl

theorem lexiconOf_of_build {g : Grammar} {unit : String} {l : LexerSpec}
    (h : build g unit g.lexerRules (parserLiterals g.parserRules) = .ok l) :
    LexiconOf g { l with
      vocabulary := addDeclared l.vocabulary (References.tokensOfRules g.parserRules) } := by
  have hbuilt := built_of_build h
  have hvocabulary : l.vocabulary = vocabularyOf g.implicitLiterals g.tokens g.lexerRules :=
    hbuilt.vocabulary
  have hgrown := prefix_addDeclared l.vocabulary (References.tokensOfRules g.parserRules)
  have hnames : (addDeclared l.vocabulary (References.tokensOfRules g.parserRules)).map
      TokenSpec.name = firsts g.tokenNames := by
    rw [map_name_addDeclared, hvocabulary, map_name_vocabularyOf, extendBy_extendBy,
      ← firstsBy_append_of_nodup (by simpa using nodup_implicitTokens g.implicitLiterals),
      map_name_implicitTokens]
    rfl
  have hdistinct : ((addDeclared l.vocabulary (References.tokensOfRules g.parserRules)).map
      TokenSpec.name).Nodup := by
    rw [hnames]
    simpa using nodup_firstsBy id [] g.tokenNames
  have himplicit : implicitTokens g.implicitLiterals <+:
      addDeclared l.vocabulary (References.tokensOfRules g.parserRules) :=
    (hvocabulary ▸ prefix_vocabularyOf _ _ _).trans hgrown
  obtain ⟨written, hwritten, hrules⟩ := hbuilt.rules
  have htyped : List.Forall₂
      (Typed (addDeclared l.vocabulary (References.tokensOfRules g.parserRules)))
      g.lexerRules written := by
    refine ((List.forall₂_and_left _ _).mpr ⟨fun _ => id, hrules⟩).imp fun r s hr => ?_
    obtain ⟨hmem, hrule⟩ := hr
    refine ⟨hrule.name, fun hfragment => ?_, fun htoken => ?_⟩
    · rw [hrule.tokenType, if_pos hfragment]
    · have hin : hasName l.vocabulary r.name = true := by
        rw [hvocabulary]
        exact hasName_of_rule (List.mem_filter.mpr ⟨hmem, by simp [htoken]⟩)
      obtain ⟨t, ht, hname, htype⟩ := exists_entry hin
      exact ⟨t, hgrown.subset ht, hname, by rw [hrule.tokenType, if_neg (by simp [htoken]), htype]⟩
  exact {
    grammar := hbuilt.grammar
    types := counted_addDeclared (hvocabulary ▸ counted_vocabularyOf _ _ _) _
    distinct := hdistinct, names := hnames
    implicit := implicitTokens_eq g.implicitLiterals ▸ himplicit
    literals := fun t ht => by
      rw [← literalOf_of_mem hdistinct ht, literalOf_addDeclared, hvocabulary,
        literalOf_vocabularyOf]
    rules := ⟨written, hwritten, htyped⟩
    tokens := fun s hs type htype => by
      rw [hwritten] at hs
      rcases List.mem_append.mp hs with hs | hs
      · obtain ⟨t, ht, rfl⟩ := List.mem_map.mp hs
        exact ⟨t, himplicit.subset ht, rfl, Option.some.inj htype⟩
      · obtain ⟨r, -, hrule⟩ := exists_of_mem_right htyped hs
        cases hfragment : r.fragment with
        | true => cases (hrule.fragment hfragment).symm.trans htype
        | false =>
            obtain ⟨t, ht, hname, htoken⟩ := hrule.token hfragment
            exact ⟨t, ht, hname.trans hrule.name.symm,
              Option.some.inj (htoken.symm.trans htype)⟩ }

end LexerSpec

/-! ## Parsers -/

namespace Analysis

open LexerSpec

/-- A parser that names a lexer's unit as the one of its vocabulary and whose rules name no tokens
but those of that vocabulary, apart from those that the grammar excludes by their names. -/
structure KeepsTo (g : Grammar) (q : ParserSpec) (l : LexerSpec) : Prop where
  unit : q.vocabularyUnit = l.unit
  names : ∀ r ∈ q.rules, ∀ es ∈ r.parts, ∀ e ∈ es, ∀ name, e.Names name →
    name ∈ l.vocabulary.map TokenSpec.name ∨ g.Excludes name

theorem SpelledParser.keepsTo {g : Grammar} {unit : String} {rules : List Rule}
    {l l' : LexerSpec} {allowImplicit : Bool} {q : ParserSpec}
    (h : SpelledParser g unit rules l allowImplicit q l') (hrules : rules ⊆ g.rules) :
    KeepsTo g q l' where
  unit := by rw [h.vocabularyUnit, h.completes]
  names := by
    intro spec hspec es hes e he name hname
    obtain ⟨r, hr, heliminate⟩ := exists_of_mem_right h.rules hspec
    obtain ⟨a, ha, he | ⟨-, p, -, rfl⟩⟩ := LeftRecursion.mem_parts_of_eliminate heliminate hes he
    · obtain ⟨b, hb, rfl⟩ := List.mem_map.mp ha
      have he' : e ∈ (References.spelledAlternative
          (References.nameFor l.vocabulary) b).elements := he
      rw [References.elements_spelledAlternative] at he'
      obtain ⟨d, hd, rfl⟩ := List.mem_map.mp he'
      have hvocabulary : l'.vocabulary =
          addDeclared l.vocabulary (References.tokensOfRules rules) := by rw [h.completes]
      rcases References.refers_of_names hname with hname | ⟨text, htext, rfl⟩ | hname
      · left
        have hmem : name ∈ References.tokensOfRules rules := List.mem_flatMap.mpr
          ⟨r, hr, References.mem_tokensOfAlternatives.mpr ⟨b, hb, d, hd, hname⟩⟩
        rw [hvocabulary, map_name_addDeclared]
        exact mem_extendBy_id.mpr (List.mem_append_right _ hmem)
      · left
        have hsome := h.literals r hr text
          (References.mem_literalsOfAlternatives.mpr ⟨b, hb, d, hd, htext⟩)
        obtain ⟨t, ht⟩ := Option.isSome_iff_exists.mp hsome
        have hname : References.nameFor l.vocabulary text = t.name := by
          rw [References.nameFor, ht]
          rfl
        rw [hname, hvocabulary]
        exact List.mem_map_of_mem
          ((prefix_addDeclared _ _).subset (List.mem_of_find?_eq_some ht))
      · exact .inr ⟨r, hrules hr, b, hb, d, hd, hname⟩
    · cases hname

/-- What adding a root grammar adds: a lexer with the grammar's vocabulary, a parser that keeps to a
lexer, or both. -/
structure Added (g : Grammar) (p p' : Progress) : Prop where
  lexers : (g.kind = .parser ∧ p'.lexers = p.lexers) ∨
    g.kind ≠ .parser ∧ ∃ l, l.LexiconOf g ∧ p'.lexers = p.lexers ++ [l]
  parsers : p'.parsers = p.parsers ∨ ∃ q, p'.parsers = p.parsers ++ [q] ∧ q.grammar = g.name ∧
    ∃ l ∈ p'.lexers, g.tokenGrammar? = some l.grammar ∧ KeepsTo g q l

theorem added_of_addGrammar {package : Option String} {p p' : Progress} {g : Grammar}
    (h : addGrammar package p g = .ok p') : Added g p p' := by
  cases adds_of_addGrammar h with
  | @lexer l hkind hall hl =>
      have hrules : g.lexerRules = g.rules := List.filter_eq_self.mpr hall
      have hnone : g.parserRules = [] := List.filter_eq_nil_iff.mpr (by simpa using hall)
      rw [← hrules] at hl
      have hlexicon : l.LexiconOf g := by
        have hbuilt := lexiconOf_of_build (g := g) (l := l) (by rw [hnone]; exact hl)
        rwa [hnone] at hbuilt
      exact ⟨.inr ⟨by simp [hkind], l, hlexicon, rfl⟩, .inl rfl⟩
  | @combinedLexer l _ hkind hnone hl =>
      have hlexicon : l.LexiconOf g := by
        have hbuilt := lexiconOf_of_build (g := g) hl
        have hnone' : g.parserRules = [] := hnone
        rwa [hnone'] at hbuilt
      exact ⟨.inr ⟨by simp [hkind], l, hlexicon, rfl⟩, .inl rfl⟩
  | @combined l l' q _ _ hkind hl hq =>
      have hspelled := spelled_of_buildParser hq
      have hlexicon : l'.LexiconOf g := by
        rw [hspelled.completes]
        exact lexiconOf_of_build hl
      refine ⟨.inr ⟨by simp [hkind], l', hlexicon, rfl⟩,
        .inr ⟨q, rfl, hspelled.grammar, l', ?_, ?_, ?_⟩⟩
      · exact List.mem_append_right _ (List.mem_singleton_self l')
      · rw [Grammar.tokenGrammar?, hkind, hlexicon.grammar]
      · exact hspelled.keepsTo List.filter_sublist.subset
  | @parser l l' q vocab _ _ hkind _ hvocab hl hq =>
      have hspelled := spelled_of_buildParser hq
      have hgrammar : l.grammar = vocab := by simpa using List.find?_some hl
      refine ⟨.inl ⟨hkind, rfl⟩, .inr ⟨q, rfl, hspelled.grammar, l, List.mem_of_find?_eq_some hl,
        ?_, hspelled.keeps rfl ▸ hspelled.keepsTo (List.Subset.refl _)⟩⟩
      rw [Grammar.tokenGrammar?, hkind, hgrammar]
      exact hvocab

variable {package : Option String} {order : List Grammar} {p p' : Progress}

/-- Every grammar that has lexer rules adds one lexer, which bears its name. -/
theorem map_grammar_of_foldlM (h : order.foldlM (addGrammar package) p = .ok p') :
    p'.lexers.map LexerSpec.grammar = p.lexers.map LexerSpec.grammar ++
      (order.filter fun g => g.kind != .parser).map Grammar.name := by
  induction order generalizing p with
  | nil =>
      obtain rfl := Except.ok.inj h
      exact (List.append_nil _).symm
  | cons g rest ih =>
      rw [List.foldlM_cons, bind_eq_ok] at h
      obtain ⟨middle, hmiddle, h⟩ := h
      rw [ih h]
      rcases (added_of_addGrammar hmiddle).lexers with ⟨hkind, hl⟩ | ⟨hkind, l, hlexicon, hl⟩
      · rw [hl, List.filter_cons_of_neg (by simp [hkind])]
      · rw [hl, List.filter_cons_of_pos (by simpa using hkind), List.map_append, List.map_singleton,
          List.map_cons, hlexicon.grammar, List.append_assoc, List.singleton_append]

/-- A parser is built on the lexer of the grammar that its own grammar takes its tokens from. -/
def BuiltOn (roots : List Grammar) (q : ParserSpec) (l : LexerSpec) : Prop :=
  ∃ g ∈ roots, g.name = q.grammar ∧ g.tokenGrammar? = some l.grammar

/-- What holds of the recognizers while roots are added. -/
structure Lawful (roots : List Grammar) (p : Progress) : Prop where
  lexers : ∀ l ∈ p.lexers, ∃ g ∈ roots, l.LexiconOf g
  parsers : ∀ q ∈ p.parsers, ∃ g ∈ roots, g.name = q.grammar ∧
    ∃ l ∈ p.lexers, g.tokenGrammar? = some l.grammar ∧ KeepsTo g q l

theorem Lawful.added {roots : List Grammar} {g : Grammar} (h : Lawful roots p) (hg : g ∈ roots)
    (hadded : Added g p p') : Lawful roots p' := by
  have hkept : p.lexers ⊆ p'.lexers := by
    rcases hadded.lexers with ⟨-, hl⟩ | ⟨-, l, -, hl⟩
    · rw [hl]
      exact List.Subset.refl _
    · rw [hl]
      exact List.subset_append_left _ _
  have hparsers : ∀ q ∈ p.parsers, ∃ g ∈ roots, g.name = q.grammar ∧
      ∃ l ∈ p'.lexers, g.tokenGrammar? = some l.grammar ∧ KeepsTo g q l := by
    intro q hq
    obtain ⟨k, hk, hname, l, hl, hkeeps⟩ := h.parsers q hq
    exact ⟨k, hk, hname, l, hkept hl, hkeeps⟩
  constructor
  · rcases hadded.lexers with ⟨-, hl⟩ | ⟨-, l, hlexicon, hl⟩
    · rw [hl]
      exact h.lexers
    · rw [hl]
      refine List.forall_mem_append.mpr ⟨h.lexers, List.forall_mem_singleton.mpr ?_⟩
      exact ⟨g, hg, hlexicon⟩
  · rcases hadded.parsers with hq | ⟨q, hq, hname, hkeeps⟩
    · rw [hq]
      exact hparsers
    · rw [hq]
      refine List.forall_mem_append.mpr ⟨hparsers, List.forall_mem_singleton.mpr ?_⟩
      exact ⟨g, hg, hname.symm, hkeeps⟩

/-- The lexers of an analysis have the vocabularies of their root grammars, and no two of them come
from grammars of one name. Every parser is built on one of them and keeps to it. Where the grammars
have been read from files, no root excludes tokens by their names, so the rules of its parser name
no others than those of the vocabulary. -/
theorem lexicon_law {grammars : List Grammar} {a : Analysis}
    (h : ofGrammars grammars package = .ok a) :
    ∃ roots, Imports.roots grammars = .ok roots ∧ (a.lexers.map LexerSpec.grammar).Nodup ∧
      (∀ l ∈ a.lexers, (∃ g ∈ roots, l.LexiconOf g) ∧
        ∀ q ∈ a.parsers, BuiltOn roots q l → ∃ g ∈ roots, g.name = q.grammar ∧ KeepsTo g q l) ∧
      (∀ q ∈ a.parsers, ∃ l ∈ a.lexers, BuiltOn roots q l) ∧
      ∀ files warnings, GeneratedUnits.readFiles files = .ok (grammars, warnings) →
        ∀ g ∈ roots, ∀ name, ¬ g.Excludes name := by
  obtain ⟨roots, order, p, hroots, -, horder, hp, hlexers, hparsers⟩ := roots_of_ofGrammars h
  have hdistinct := Imports.nodup_roots hroots
  have hgrammars : (a.lexers.map LexerSpec.grammar).Nodup := by
    rw [hlexers, map_grammar_of_foldlM hp]
    exact ((horder.map Grammar.name).nodup_iff.mpr hdistinct).sublist (List.filter_sublist.map _)
  have hlaw : Lawful roots p :=
    foldlM_invariant (Lawful roots) ⟨List.forall_mem_nil _, List.forall_mem_nil _⟩
      (fun g hg _ _ hold hadd => hold.added (horder.subset hg) (added_of_addGrammar hadd)) hp
  refine ⟨roots, hroots, hgrammars, fun l hl => ⟨hlaw.lexers l (hlexers ▸ hl), ?keeps⟩, ?built,
    ?files⟩
  case keeps =>
    rintro q hq ⟨g, hg, hname, htokens⟩
    obtain ⟨k, hk, hname', l', hl', htokens', hkeeps⟩ := hlaw.parsers q (hparsers ▸ hq)
    obtain rfl := List.inj_on_of_nodup_map hdistinct hk hg (hname'.trans hname.symm)
    have hsame : l'.grammar = l.grammar := Option.some.inj (htokens'.symm.trans htokens)
    obtain rfl := List.inj_on_of_nodup_map hgrammars (hlexers ▸ hl') hl hsame
    exact ⟨k, hk, hname', hkeeps⟩
  case built =>
    intro q hq
    obtain ⟨g, hg, hname, l, hl, htokens, -⟩ := hlaw.parsers q (hparsers ▸ hq)
    exact ⟨l, hlexers ▸ hl, g, hg, hname, htokens⟩
  case files =>
    rintro files warnings hread g hg name ⟨r, hr, b, hb, e, he, hname⟩
    obtain ⟨g₀, hg₀, hmerge⟩ := Imports.roots_mergeOf hroots g hg
    have hfile := hmerge.fromFile hg₀ (GeneratedUnits.fromFile_of_readFiles hread)
    exact Element.not_excludes ((hfile.rules r hr).2 b hb e he) hname

/-- A declared token with a rule, a rule that spells a literal, and a token without a rule. -/
def lexiconFiles : List GrammarFile :=
  [⟨"V.g4", "grammar V;\ntokens \x7b B \x7d\ns : 'x' C 'z' ~(A | 'z') ;\nA : 'x' ;\nB : 'y' ;\n"⟩]

/-- Whether files can be analysed, with these vocabularies and this number of parsers. -/
def hasVocabularies (files : List GrammarFile) (vocabularies : List (List TokenSpec))
    (parsers : Nat) : Bool :=
  match GeneratedUnits.readFiles files with
  | .ok (grammars, _) =>
    match ofGrammars grammars none with
    | .ok a => a.lexers.map LexerSpec.vocabulary == vocabularies && a.parsers.length == parsers
    | .error _ => false
  | .error _ => false

theorem lexiconFiles_law :
    ∃ grammars warnings a l q, GeneratedUnits.readFiles lexiconFiles = .ok (grammars, warnings) ∧
      ofGrammars grammars none = .ok a ∧ a.lexers = [l] ∧ a.parsers = [q] ∧
      l.vocabulary = [⟨1, "T__0", some "z"⟩, ⟨2, "B", some "y"⟩, ⟨3, "A", some "x"⟩,
        ⟨4, "C", none⟩] ∧
      (∃ g, l.LexiconOf g) ∧ q.vocabularyUnit = l.unit ∧
      ∀ r ∈ q.rules, ∀ es ∈ r.parts, ∀ e ∈ es, ∀ name, e.Names name →
        name ∈ ["T__0", "B", "A", "C"] := by
  have hcheck : hasVocabularies lexiconFiles [[⟨1, "T__0", some "z"⟩, ⟨2, "B", some "y"⟩,
      ⟨3, "A", some "x"⟩, ⟨4, "C", none⟩]] 1 = true := by
    decide +kernel
  unfold hasVocabularies at hcheck
  split at hcheck
  · next grammars warnings hread =>
    split at hcheck
    · next a ha =>
      rw [Bool.and_eq_true, beq_iff_eq, beq_iff_eq] at hcheck
      obtain ⟨hlexers, hparsers⟩ := hcheck
      obtain ⟨l, hl, hvocabulary⟩ := List.map_eq_singleton_iff.mp hlexers
      obtain ⟨q, hq⟩ := List.length_eq_one_iff.mp hparsers
      obtain ⟨roots, -, -, hall, hbuilt, hfiles⟩ := lexicon_law ha
      have hmem : q ∈ a.parsers := hq ▸ List.mem_singleton_self q
      obtain ⟨l', hl', hon⟩ := hbuilt q hmem
      obtain rfl : l' = l := List.mem_singleton.mp (hl ▸ hl')
      obtain ⟨⟨g, -, hlexicon⟩, hkeeps⟩ := hall l' hl'
      obtain ⟨k, hk, -, hkeep⟩ := hkeeps q hmem hon
      refine ⟨grammars, warnings, a, l', q, hread, ha, hl, hq, hvocabulary, ⟨g, hlexicon⟩,
        hkeep.unit, fun r hr es hes e he name hname => ?_⟩
      have hin := (hkeep.names r hr es hes e he name hname).resolve_right
        (hfiles _ _ hread k hk name)
      rwa [hvocabulary] at hin
    · cases hcheck
  · cases hcheck

end Analysis

end GrammarEngine

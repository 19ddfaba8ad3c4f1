import GrammarEngine.Proofs.Compile.Libraries
import GrammarEngine.Proofs.Recognizer.Linked

/-!
# Types of tokens

The tokens that a lexer declares are looked up at four places. A parser takes the last token of a
name, a command of a lexer rule and the loaded vocabulary take the first one, and a lexer rule may
bear any of them. So all agree on a name as soon as its declarations do, and nothing keeps a
vocabulary from declaring a name twice.
-/
namespace GrammarEngine

/-! ## Tokens in expressions -/

/-- A place of an expression that names tokens. -/
inductive TokenRef where
  | named (name : String)
  | excluded (names : List String)
  | spelled (text : String)
  | eof
deriving Repr, DecidableEq

/-- A place of a lowered expression that tests the type of a token. -/
inductive TokenTest where
  | one (type : TokenType)
  | others (types : List TokenType)
deriving Repr, DecidableEq

mutual
/-- The places of an expression that name tokens, in order. -/
def UnitExpr.tokenRefs : UnitExpr → List TokenRef
  | .seq items => UnitExpr.tokenRefsAll items
  | .choice items => UnitExpr.tokenRefsAll items
  | .repeated _ _ body => body.tokenRefs
  | .token name _ => [.named name]
  | .notTokens names _ => [.excluded names]
  | .literal text _ => [.spelled text]
  | .eof => [.eof]
  | _ => []

def UnitExpr.tokenRefsAll : List UnitExpr → List TokenRef
  | [] => []
  | u :: us => u.tokenRefs ++ UnitExpr.tokenRefsAll us
end

def ParserRuleBody.tokenRefs : ParserRuleBody → List TokenRef
  | .plain alternatives => alternatives.flatMap UnitExpr.tokenRefsAll
  | .leftRecursive primaries suffixes =>
    primaries.flatMap UnitExpr.tokenRefsAll ++
      suffixes.flatMap fun s => UnitExpr.tokenRefsAll s.2

namespace ParseExpr

mutual
/-- The places of a lowered expression that test types of tokens, in order. -/
def tokenTests : ParseExpr → List TokenTest
  | token t => [.one t]
  | notTokens types => [.others types]
  | seq items => tokenTestsAll items
  | choice alternatives => tokenTestsAll alternatives
  | optional body _ => body.tokenTests
  | star body _ => body.tokenTests
  | plus body _ => body.tokenTests
  | _ => []

def tokenTestsAll : List ParseExpr → List TokenTest
  | [] => []
  | e :: rest => e.tokenTests ++ tokenTestsAll rest
end

theorem tokenTestsAll_eq_flatMap (es : List ParseExpr) :
    tokenTestsAll es = es.flatMap tokenTests := by
  induction es with
  | nil => rfl
  | cons e rest ih => rw [tokenTestsAll, ih, List.flatMap_cons]

end ParseExpr

def RuleBody.tokenTests : RuleBody → List TokenTest
  | plain body => body.tokenTests
  | leftRecursive primary suffixes =>
    primary.tokenTests ++ suffixes.flatMap fun s => s.body.tokenTests

/-- A test is the one that a place asks for, if names stand for types as a relation says. -/
inductive Meets (T : String → TokenType → Prop) : TokenRef → TokenTest → Prop
  | named {name : String} {t : TokenType} : T name t → Meets T (.named name) (.one t)
  | excluded {names : List String} {types : List TokenType} :
      List.Forall₂ T names types → Meets T (.excluded names) (.others (Sorted.ofList types))
  | spelled (text : String) (t : TokenType) : Meets T (.spelled text) (.one t)
  | eof : Meets T .eof (.one TokenType.eof)

abbrev MeetsAll (T : String → TokenType → Prop) (refs : List TokenRef) (tests : List TokenTest) :
    Prop :=
  List.Forall₂ (Meets T) refs tests

theorem Meets.mono {S T : String → TokenType → Prop} {ref : TokenRef} {test : TokenTest}
    (h : Meets S ref test) (himp : ∀ name t, S name t → T name t) : Meets T ref test := by
  cases h with
  | named hname => exact .named (himp _ _ hname)
  | excluded hnames => exact .excluded (hnames.imp fun _ _ hname => himp _ _ hname)
  | spelled text t => exact .spelled text t
  | eof => exact .eof

/-! ## Lowering -/

namespace ParserDecl

variable {α β : Type} {scope : Scope} {T : String → TokenType → Prop}

theorem tokenTests_sequenceOf (es : List ParseExpr) :
    (sequenceOf es).tokenTests = ParseExpr.tokenTestsAll es := by
  match es with
  | [] => rfl
  | [e] => exact (List.append_nil e.tokenTests).symm
  | e :: d :: rest => rfl

theorem tokenTests_choiceOf (es : List ParseExpr) :
    (choiceOf es).tokenTests = ParseExpr.tokenTestsAll es := by
  match es with
  | [] => rfl
  | [e] => exact (List.append_nil e.tokenTests).symm
  | e :: d :: rest => rfl

theorem tokenTests_repetitionOf (kind : Repetition) (e : ParseExpr) (greedy : Bool) :
    (repetitionOf kind e greedy).tokenTests = e.tokenTests := by
  cases kind <;> rfl

mutual
/-- The induction follows the lowering of nested expressions. -/
theorem lower_meets : ∀ u : UnitExpr, Demands scope u.invoked (lower scope u)
    fun _ e => MeetsAll (TypedBy scope.tokens) u.tokenRefs e.tokenTests
  | .empty => demands_pure fun _ => .nil
  | .seq items => by
      rw [lower]
      apply (lowerAll_meets items).map
      intro table es hes
      rwa [tokenTests_sequenceOf]
  | .choice items => by
      rw [lower]
      exact (lowerAll_meets items).map fun _ es hes => hes
  | .repeated kind isLazy body => by
      rw [lower]
      apply (lower_meets body).map
      intro table e he
      rwa [tokenTests_repetitionOf]
  | .literal text p => by
      rw [lower]
      exact (demands_literalType text p).map fun _ t _ => .cons (.spelled text t) .nil
  | .token name p => by
      rw [lower]
      exact (demands_tokenType name p).map fun _ t ht => .cons (.named ht) .nil
  | .notTokens names p => by
      rw [lower]
      exact (demands_tokenTypes names p).map fun _ types htypes => .cons (.excluded htypes) .nil
  | .any => demands_pure fun _ => .nil
  | .eof => demands_pure fun _ => .cons .eof .nil
  | .invoke name precedence p => by
      rw [lower]
      exact (demands_ruleIndex name p).map fun _ _ _ => .nil
  | .ref name p => demands_throw _
  | .ranges ranges negated => demands_throw _

theorem lowerAll_meets : ∀ us : List UnitExpr,
    Demands scope (UnitExpr.invokedAll us) (lowerAll scope us)
      fun _ es => MeetsAll (TypedBy scope.tokens) (UnitExpr.tokenRefsAll us)
        (ParseExpr.tokenTestsAll es)
  | [] => demands_pure fun _ => .nil
  | u :: us => by
      rw [lowerAll]
      apply (lower_meets u).bind
      intro e
      exact (lowerAll_meets us).map fun _ es hes he => List.rel_append he hes
end

theorem lowerSequence_meets (items : List UnitExpr) :
    Demands scope (UnitExpr.invokedAll items) (lowerSequence scope items)
      fun _ e => MeetsAll (TypedBy scope.tokens) (UnitExpr.tokenRefsAll items) e.tokenTests := by
  apply (lowerAll_meets items).map
  intro table es hes
  rwa [tokenTests_sequenceOf]

theorem meetsAll_flatMap {refs : α → List TokenRef} {tests : β → List TokenTest} {xs : List α}
    {bs : List β} (h : List.Forall₂ (fun x b => MeetsAll T (refs x) (tests b)) xs bs) :
    MeetsAll T (xs.flatMap refs) (bs.flatMap tests) := by
  induction h with
  | nil => exact .nil
  | cons hb _ ih =>
      rw [List.flatMap_cons, List.flatMap_cons]
      exact List.rel_append hb ih

theorem lowerAlternatives_meets (alternatives : List (List UnitExpr)) :
    Demands scope (alternatives.flatMap UnitExpr.invokedAll) (lowerAlternatives scope alternatives)
      fun _ e => MeetsAll (TypedBy scope.tokens) (alternatives.flatMap UnitExpr.tokenRefsAll)
        e.tokenTests := by
  have hitems : ∀ items ∈ alternatives, Demands scope (UnitExpr.invokedAll items)
      (lowerSequence scope items) fun _ e =>
        MeetsAll (TypedBy scope.tokens) (UnitExpr.tokenRefsAll items) e.tokenTests :=
    fun items _ => lowerSequence_meets items
  apply (Demands.mapM hitems).map
  intro table es hes
  rw [tokenTests_choiceOf, ParseExpr.tokenTestsAll_eq_flatMap]
  exact meetsAll_flatMap hes

theorem lowerBody_meets (body : ParserRuleBody) :
    Demands scope body.invoked (lowerBody scope body)
      fun _ b => MeetsAll (TypedBy scope.tokens) body.tokenRefs b.tokenTests := by
  cases body with
  | plain alternatives => exact (lowerAlternatives_meets alternatives).map fun _ e he => he
  | leftRecursive primaries suffixes =>
      have hsuffixes : ∀ s ∈ suffixes, Demands scope (UnitExpr.invokedAll s.2)
          (lowerSuffix scope s) fun _ t =>
            MeetsAll (TypedBy scope.tokens) (UnitExpr.tokenRefsAll s.2) t.body.tokenTests :=
        fun s _ => (lowerSequence_meets s.2).map fun _ e he => he
      apply (lowerAlternatives_meets primaries).bind
      intro e
      apply (Demands.mapM hsuffixes).map
      intro table ss hss he
      exact List.rel_append he (meetsAll_flatMap hss)

/-- The tests of a linked body are those that its rule asks for. -/
theorem IsBody.meets {table : List ParserRuleDecl} {r : ParserRuleDecl} {b : RuleBody}
    (h : IsBody scope table r b) :
    MeetsAll (TypedBy scope.tokens) r.body.tokenRefs b.tokenTests :=
  (((lowerBody_meets r.body).gives table b table h.lowered).2 []).2

end ParserDecl

/-! ## Names with one type -/

/-- A name other than that of the end of the input, all declarations of which give it one type. -/
structure Assigns (tokens : List TokenDecl) (name : String) (t : TokenType) : Prop where
  named : name ≠ eofName
  declared : name ∈ tokens.map TokenDecl.name
  unique : ∀ token ∈ tokens, token.name = name → token.type = t

namespace Assigns

variable {tokens : List TokenDecl} {name : String} {t : TokenType}

/-- Whichever declaration of the name is found, it has the type. -/
theorem map_find? (h : Assigns tokens name t) :
    (tokens.find? fun token => token.name == name).map TokenDecl.type = some t := by
  cases hfind : tokens.find? fun token => token.name == name with
  | none =>
      obtain ⟨token, htoken, hname⟩ := List.mem_map.mp h.declared
      have hnone := List.find?_eq_none.mp hfind token htoken
      exact absurd (beq_iff_eq.mpr hname) hnone
  | some token =>
      have hname : token.name = name := by simpa using List.find?_some hfind
      rw [Option.map_some, h.unique token (List.mem_of_find?_eq_some hfind) hname]

theorem eq_of_typedBy (h : Assigns tokens name t) {u : TokenType}
    (hu : ParserDecl.TypedBy tokens name u) : u = t := by
  obtain ⟨token, hfind, rfl⟩ := hu.2 h.named
  have hname : token.name = name := by simpa using List.find?_some hfind
  exact h.unique token (List.mem_reverse.mp (List.mem_of_find?_eq_some hfind)) hname

theorem action {l : LexerDecl} (h : Assigns l.tokens name t) :
    l.action (.type name) = .ok (.type t) := by
  have htype : l.tokenType? name = some t := h.map_find?
  simp only [LexerDecl.action, htype]

theorem eq_of_declares {l : LexerDecl} (h : Assigns l.tokens name t) {r : LexerRuleDecl}
    (hr : l.declares r = true) (hname : r.name = name) : r.type = t := by
  obtain ⟨token, htoken, hsame⟩ := List.any_eq_true.mp hr
  obtain ⟨hrule, htype⟩ := Bool.and_eq_true_iff.mp hsame
  rw [← beq_iff_eq.mp htype]
  exact h.unique token htoken ((beq_iff_eq.mp hrule).trans hname)

theorem tokenType? {l : LexerDecl} (h : Assigns l.tokens name t) :
    (Vocabulary.mk l.header.vocabulary).tokenType? name = some t := by
  rw [Vocabulary.tokenType?, if_neg (by simpa using h.named), LexerDecl.header, List.find?_map,
    Option.map_map]
  exact h.map_find?

end Assigns

/-! ## Units that compile -/

/-- The images of a parser test for a type where one of its rules names a token, be it an own rule
or one of its library. -/
def ParserDecl.TestsFor (d : ParserDecl) (scope : Scope) (images : NamedImages) (name : String)
    (t : TokenType) : Prop :=
  ∃ linked bodies start, IsClosure scope d.rules linked ∧
    images = (d.name, .parserHeader (d.header (d.rules ++ linked) start)) ::
      ((d.rules ++ linked).zip bodies).mapIdx (fun i p =>
        (innerName d.name p.1.name, .parserRule ⟨p.1.name, UInt32.ofNat i, p.2⟩)) ∧
    List.Forall₂ (fun r b => MeetsAll (fun n u => n = name → u = t) r.body.tokenRefs b.tokenTests)
      (d.rules ++ linked) bodies

/-- The images of a lexer give a type to a rule of a name and to every command that names it. -/
def LexerDecl.GivesType (l : LexerDecl) (images : NamedImages) (name : String) (t : TokenType) :
    Prop :=
  ∃ rules : List LexerRuleImage,
    images = (l.name, .lexerHeader l.header) ::
      rules.map (fun r => (innerName l.name r.name, .lexerRule r)) ∧
    List.Forall₂ (fun r image => image.name = r.name ∧ (r.name = name → image.tokenType = t) ∧
      List.Forall₂ (fun a actions => List.Forall₂ (fun command action =>
        command.1 = .type name → action = .type t) a.commands actions) r.alternatives image.actions)
      l.rules rules

theorem LexerDecl.givesType_of_compile {l : LexerDecl} {index : UnitIndex} {images : NamedImages}
    {name : String} {t : TokenType} (h : l.compile index = .ok images)
    (ht : Assigns l.tokens name t) : l.GivesType images name t := by
  obtain ⟨library, rules, -, himages, hrules⟩ := LexerDecl.compile_cases h
  refine ⟨rules, himages, hrules.imp fun r image hr => ?_⟩
  obtain ⟨hname, htype, hdeclares, hactions⟩ := LexerDecl.compileRule_resolved hr
  refine ⟨hname, fun hnamed => htype.trans (ht.eq_of_declares hdeclares hnamed), ?_⟩
  apply hactions.imp
  intro a actions hall
  apply hall.imp
  intro command action haction hcommand
  rw [LexerDecl.actionAt, hcommand, ht.action] at haction
  exact (Except.ok.inj haction).symm

/-- Compiled parsers and their vocabulary lexers agree on the type of every name whose declarations
agree: the tests of the parser, the commands and rules of the lexer and, once a set of these sources
is loaded, its vocabulary all have that type. -/
theorem Recognizer.token_types_agree {sources : List UnitSource}
    (h : (Compiler.units sources).diagnostics.filter Diagnostic.isError = []) :
    ∃ index : UnitIndex, List.Forall₂ (fun u d => Compiler.declaration u = .ok d) sources index ∧
      ∀ d, .parser d ∈ index → ∃ l library images lexerImages,
        d.vocabularyLexer index = .ok l ∧ .lexer l ∈ index ∧
        baseLibrary d.base index = .ok library ∧
        d.compile index = .ok images ∧ l.compile index = .ok lexerImages ∧
        (∀ i ∈ images ++ lexerImages,
          ⟨i.1, Image.encode i.2⟩ ∈ (Compiler.units sources).artifacts) ∧
        ∀ name t, Assigns l.tokens name t →
          d.TestsFor ⟨l.tokens, library⟩ images name t ∧ l.GivesType lexerImages name t ∧
          ∀ (k : Classifier) (s : BundleSet) (r : Recognizer) (program : LexerProgram),
            BundleSet.compile Compiler.units k sources = .ok s → s.Representable →
            Recognizer.load s = .ok r → r.lexer? l.name = some program →
            program.vocabulary.tokenType? name = some t := by
  obtain ⟨index, hdeclared, hcompiled⟩ := Compiler.compileUnit_cases h
  refine ⟨index, hdeclared, fun d hd => ?_⟩
  obtain ⟨images, hcompile, hartifacts⟩ := hcompiled _ hd
  obtain ⟨l, library, linked, bodies, start, hlexer, hlibrary, hclosure, hbodies, -, himages⟩ :=
    ParserDecl.exists_linked_of_compile hcompile
  have hl := (ParserDecl.exists_vocabularyLexer hlexer).1
  obtain ⟨lexerImages, hlexerCompile, hlexerArtifacts⟩ := hcompiled _ hl
  refine ⟨l, library, images, lexerImages, hlexer, hl, hlibrary, hcompile, hlexerCompile,
    List.forall_mem_append.mpr ⟨hartifacts, hlexerArtifacts⟩, fun name t ht => ⟨?_, ?_, ?_⟩⟩
  · refine ⟨linked, bodies, start, hclosure, himages, hbodies.imp fun r b hb => ?_⟩
    apply hb.meets.imp
    intro ref test hmeets
    apply hmeets.mono
    rintro n u hu rfl
    exact ht.eq_of_typedBy hu
  · exact LexerDecl.givesType_of_compile hlexerCompile ht
  · intro k s r program hs hrepresentable hload hprogram
    obtain ⟨index', hdeclared', hnodup, r₀, hlinked⟩ :=
      exists_linkedFrom hs hrepresentable hload
    have hsame : index' = index := by
      have hunique : Relator.RightUnique fun u d => Compiler.declaration u = .ok d :=
        fun u d d' hd hd' => Except.ok.inj (hd.symm.trans hd')
      exact hunique.forall₂ hdeclared' hdeclared
    subst hsame
    have hname : program.name = l.name := by simpa using List.find?_some hprogram
    obtain ⟨l', hl', hname', hvocabulary⟩ :=
      hlinked.lexers program (List.mem_of_find?_eq_some hprogram)
    have hunit : UnitDecl.lexer l' = .lexer l :=
      List.inj_on_of_nodup_map hnodup hl' hl (hname'.symm.trans hname)
    cases hunit
    rw [hvocabulary]
    exact ht.tokenType?

/-- The tokens that a source declares. -/
def UnitSource.tokens? (u : UnitSource) : Option (List TokenDecl) :=
  match Compiler.declaration u with
  | .ok (.lexer l) => some l.tokens
  | _ => none

/-- The token of the greeting is tested for by the rule that comes from the library. -/
theorem Recognizer.greeting_types_agree :
    (Compiler.units greetingUnits).diagnostics.filter Diagnostic.isError = [] ∧
      ∃ (d : ParserDecl) (l : LexerDecl) (library : Option LibraryDecl)
        (images lexerImages : NamedImages) (s : BundleSet) (r : Recognizer)
        (program : LexerProgram), Assigns l.tokens "A" 1 ∧
        BundleSet.compile Compiler.units {} greetingUnits = .ok s ∧ s.Representable ∧
        Recognizer.load s = .ok r ∧ r.lexer? l.name = some program ∧
        d.TestsFor ⟨l.tokens, library⟩ images "A" 1 ∧ l.GivesType lexerImages "A" 1 ∧
        program.vocabulary.tokenType? "A" = some 1 := by
  have hlexers : greetingUnits.filterMap UnitSource.tokens? = [[⟨1, "A", none⟩]] := by
    decide +kernel
  have hparsers : sourcesOf .parser greetingUnits = ["P"] := by
    decide +kernel
  obtain ⟨s, hs, hrepresentable⟩ := greeting_compiles
  obtain ⟨r, hload, hnames, -⟩ := exists_load hs hrepresentable
  have hreports := (BundleSet.compile_cases hs).1
  obtain ⟨index, hdeclared, hagree⟩ := Recognizer.token_types_agree hreports
  have hparser : "P" ∈ sourcesOf .parser greetingUnits := by
    rw [hparsers]
    exact List.mem_singleton_self "P"
  obtain ⟨declared, hd, -, hkind⟩ := (mem_sourcesOf_iff hdeclared).mp hparser
  cases declared with
  | lexer _ => cases hkind
  | library _ => cases hkind
  | parser d =>
      obtain ⟨l, library, images, lexerImages, -, hl, -, -, -, -, htypes⟩ := hagree d hd
      obtain ⟨v, hv, hlexer⟩ := exists_of_mem_right hdeclared hl
      have hgiven : v.tokens? = some l.tokens := by rw [UnitSource.tokens?, hlexer]
      have htokens : l.tokens ∈ greetingUnits.filterMap UnitSource.tokens? :=
        List.mem_filterMap.mpr ⟨v, hv, hgiven⟩
      rw [hlexers, List.mem_singleton] at htokens
      have ht : Assigns l.tokens "A" 1 := by
        rw [htokens]
        exact ⟨by decide, List.mem_cons_self, by simp⟩
      have hregistered : l.name ∈ r.lexers.map LexerProgram.name :=
        hnames.mem_iff.mpr ((mem_sourcesOf_iff hdeclared).mpr ⟨_, hl, rfl, rfl⟩)
      obtain ⟨program, hprogram⟩ :
          ∃ program, (r.withPrograms r.lexers r.parsers).lexer? l.name = some program :=
        exists_lexer? hregistered
      obtain ⟨htests, hgives, hanswers⟩ := htypes "A" 1 ht
      exact ⟨hreports, d, l, library, images, lexerImages, s, r, program, ht, hs, hrepresentable,
        hload, hprogram, htests, hgives, hanswers {} s r program hs hrepresentable hload hprogram⟩

end GrammarEngine

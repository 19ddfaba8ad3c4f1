import GrammarEngine.Proofs.Compile.Programs
import GrammarEngine.Proofs.Lexer.Marks
import GrammarEngine.Proofs.Lexer.Streams
import GrammarEngine.Proofs.Tabled.Rules
import Mathlib.Data.Finset.Prod

/-!
# Runs of loaded parsers over tables

Every number of a rule to which a loaded parser refers has a body and a name. So its runs find all
that they look up, and they end: loops only go on while they read further tokens, and rules nest no
deeper than there are rules, precedences and places to invoke them with.
-/
namespace GrammarEngine

/-! ## References -/

namespace ParseExpr

mutual
theorem map_fst_calls : ∀ e : ParseExpr, e.calls.map Prod.fst = e.ruleRefs
  | .empty | .token _ | .notTokens _ | .anyToken | .rule _ _ => rfl
  | .seq items => map_fst_callsAll items
  | .choice alternatives => map_fst_callsAll alternatives
  | .optional body _ | .star body _ | .plus body _ => map_fst_calls body

theorem map_fst_callsAll : ∀ es : List ParseExpr, (callsAll es).map Prod.fst = ruleRefsAll es
  | [] => rfl
  | e :: rest => by
      rw [callsAll, List.map_append, map_fst_calls e, map_fst_callsAll rest, ruleRefsAll]
end

end ParseExpr

theorem RuleBody.map_fst_calls (body : RuleBody) : body.calls.map Prod.fst = body.ruleRefs := by
  cases body with
  | plain body => exact body.map_fst_calls
  | leftRecursive primary suffixes =>
      simp only [calls, ruleRefs, List.map_append, List.map_flatMap, ParseExpr.map_fst_calls]

namespace ParserProgram

variable {p : ParserProgram} {header : ParserHeader} {vocabulary : Vocabulary}
  {images : List ParserRuleImage}

/-- Every rule has a body and a name, and bodies refer to rules that there are. -/
structure Linked (p : ParserProgram) : Prop where
  names : p.ruleNames.length = p.bodies.size
  refs : ∀ body ∈ p.bodies, ∀ index ∈ body.ruleRefs, index.toNat < p.bodies.size

/-- An image that is taken over refers to rules that have names. -/
theorem lt_of_mem_ruleRefs {bodies : List RuleBody} (h : loadBodies header images = .ok bodies)
    {r : ParserRuleImage} (hr : r ∈ images) {index : UInt32} (hindex : index ∈ r.body.ruleRefs) :
    index.toNat < header.ruleNames.length := by
  obtain ⟨-, hchecked⟩ := ite_throw_bind_eq_ok.mp h
  obtain ⟨_, himages, -⟩ := bind_eq_ok.mp hchecked
  have hcheck := forM_eq_ok.mp himages r hr
  unfold checkImage corruption? at hcheck
  split at hcheck
  · cases hcheck
  · next hnone =>
    split at hnone
    · have hrefs := List.find?_eq_none.mp (Option.map_eq_none_iff.mp hnone) index hindex
      simpa using hrefs
    · cases hnone

/-- Whether a program has as many names as bodies, and refers only to numbers of bodies. -/
def isLinked (p : ParserProgram) : Bool :=
  p.ruleNames.length == p.bodies.size &&
    p.bodies.toList.all fun body => body.ruleRefs.all fun index => index.toNat < p.bodies.size

theorem linked_of_isLinked (h : p.isLinked = true) : p.Linked := by
  obtain ⟨hnames, hbodies⟩ := Bool.and_eq_true_iff.mp h
  refine ⟨beq_iff_eq.mp hnames, fun body hbody index hindex => ?_⟩
  have hrefs := List.all_eq_true.mp hbodies body (Array.mem_toList_iff.mpr hbody)
  exact of_decide_eq_true (List.all_eq_true.mp hrefs index hindex)

theorem linked_of_ofImages (h : ofImages header vocabulary images = .ok p) : p.Linked := by
  unfold ofImages at h
  split at h
  · cases h
  · next bodies hbodies =>
    obtain rfl := Except.ok.inj h
    have hlength := length_of_loadBodies hbodies
    refine ⟨hlength.symm, fun body hbody index hindex => ?_⟩
    obtain ⟨k, hk⟩ := List.mem_iff_getElem?.mp (List.mem_toArray.mp hbody)
    obtain ⟨r, hr, rfl⟩ := Option.map_eq_some_iff.mp (body?_of_loadBodies hbodies hk)
    rw [List.size_toArray, hlength]
    exact lt_of_mem_ruleRefs hbodies (List.mem_reverse.mp (List.mem_of_find?_eq_some hr)) hindex

/-! ## Invocations -/

/-- The precedences with which rules are invoked: those of calls, and that of the entry rule. -/
def precedences (p : ParserProgram) : Finset UInt32 :=
  insert 0 ((p.bodies.toList.flatMap RuleBody.calls).map Prod.snd).toFinset

/-- All invocations of rules in an input with so many places. -/
def invocations (p : ParserProgram) (places : Nat) : Finset Invocation :=
  (Finset.range p.bodies.size ×ˢ p.precedences ×ˢ Finset.range (places + 1)).image
    fun k => ⟨UInt32.ofNat k.1, k.2.1, k.2.2⟩

theorem card_invocations_le (p : ParserProgram) (places : Nat) :
    (p.invocations places).card ≤ p.bodies.size * p.precedences.card * (places + 1) := by
  refine le_trans Finset.card_image_le ?_
  rw [Finset.card_product, Finset.card_product, Finset.card_range, Finset.card_range, mul_assoc]

theorem mem_invocations {places rule place : Nat} {precedence : UInt32}
    (hrule : rule < p.bodies.size) (hprecedence : precedence ∈ p.precedences)
    (hplace : place ≤ places) :
    (⟨UInt32.ofNat rule, precedence, place⟩ : Invocation) ∈ p.invocations places := by
  refine Finset.mem_image.mpr ⟨(rule, precedence, place), ?_, rfl⟩
  simp only [Finset.mem_product, Finset.mem_range]
  exact ⟨hrule, hprecedence, by omega⟩

theorem lt_of_mem_invocations {places : Nat} {i : Invocation} (h : i ∈ p.invocations places) :
    i.rule.toNat < p.bodies.size ∧ i.start ≤ places := by
  obtain ⟨⟨rule, precedence, place⟩, hmem, rfl⟩ := Finset.mem_image.mp h
  simp only [Finset.mem_product, Finset.mem_range] at hmem
  refine ⟨lt_of_le_of_lt ?_ hmem.1, Nat.le_of_lt_succ hmem.2.2⟩
  rw [UInt32.toNat_ofNat']
  exact Nat.mod_le _ _

/-- The invocations of a program are closed under the calls of its bodies. -/
theorem Linked.closed (h : p.Linked) (stream : TokenStream) :
    Tabled.Closed (Tabled.Setting.ofStream p stream) stream.visible.toArray
      (p.invocations stream.visible.length) where
  start i hi := by simpa using (lt_of_mem_invocations hi).2
  name i hi := by
    have hlt := (lt_of_mem_invocations hi).1
    rw [← h.names] at hlt
    exact ⟨_, List.getElem?_eq_getElem hlt⟩
  body i hi := by
    have hlt := (lt_of_mem_invocations hi).1
    refine ⟨p.bodies[i.rule.toNat], Array.getElem?_eq_getElem hlt, fun c hc place hplace => ?_⟩
    have hbody : p.bodies[i.rule.toNat] ∈ p.bodies := Array.getElem_mem hlt
    have href : c.1 ∈ p.bodies[i.rule.toNat].ruleRefs :=
      RuleBody.map_fst_calls _ ▸ List.mem_map_of_mem hc
    have hprecedence : c.2 ∈ p.precedences := by
      refine Finset.mem_insert_of_mem (List.mem_toFinset.mpr (List.mem_map_of_mem ?_))
      exact List.mem_flatMap.mpr ⟨_, Array.mem_toList_iff.mpr hbody, hc⟩
    have hmem := mem_invocations (h.refs _ hbody c.1 href) hprecedence (by simpa using hplace)
    rwa [UInt32.ofNat_toNat] at hmem

theorem Linked.entry (h : p.Linked) {rule : String} {index : Nat}
    (hrule : p.ruleIndex? rule = some index) (places : Nat) :
    (⟨UInt32.ofNat index, 0, 0⟩ : Invocation) ∈ p.invocations places := by
  have hlt : index < p.ruleNames.length := (List.findIdx?_eq_some_iff_findIdx_eq.mp hrule).1
  exact mem_invocations (h.names ▸ hlt) (Finset.mem_insert_self 0 _) (Nat.zero_le places)

/-! ## Runs -/

variable {stream : TokenStream}

theorem Linked.tabled_parse_eq (h : p.Linked)
    (hindex : ∀ (k : Nat) t, stream.tokens[k]? = some t → t.index = k) (rule : String)
    (maxDepth : Nat) :
    Tabled.parse p rule stream maxDepth = some (p.parse rule stream maxDepth) := by
  cases hrule : p.ruleIndex? rule with
  | none => rw [Tabled.parse, parse, hrule]
  | some index =>
      exact Tabled.parse_eq maxDepth (Tabled.shows_ofStream hindex) (h.closed stream)
        (h.entry hrule _) hrule

/-- How a run can end: the rule is not there, or rules nest too deep, or the entry rule matches and
the parser finds no fault, or it does not match and the parser finds exactly one. -/
inductive Ends (p : ParserProgram) (rule : String) (stream : TokenStream) (maxDepth : Nat) :
    Except ParsingFault ParseResult → Prop
  | unknown : rule ∉ p.ruleNames →
      Ends p rule stream maxDepth (.error (.unknownEntryRule p.name rule))
  | tooDeep {name : String} : rule ∈ p.ruleNames → name ∈ p.ruleNames →
      Ends p rule stream maxDepth (.error (.recursionLimit name (clampDepth maxDepth)))
  | matched {r : ParseResult} {root : SyntaxTree} : rule ∈ p.ruleNames → r.root = some root →
      r.faults = stream.faults → Ends p rule stream maxDepth (.ok r)
  | failed {r : ParseResult} {fault : InputFault} : rule ∈ p.ruleNames → r.root = none →
      r.faults = stream.faults ++ [fault] → Ends p rule stream maxDepth (.ok r)

theorem ruleIndex?_eq_none_iff {rule : String} : p.ruleIndex? rule = none ↔ rule ∉ p.ruleNames := by
  simp only [ruleIndex?, List.findIdx?_eq_none_iff, beq_eq_false_iff_ne]
  exact ⟨fun h hmem => h rule hmem rfl, fun h name hname he => h (he ▸ hname)⟩

theorem Linked.ends_parse (h : p.Linked)
    (hindex : ∀ (k : Nat) t, stream.tokens[k]? = some t → t.index = k) (rule : String)
    (maxDepth : Nat) : Ends p rule stream maxDepth (p.parse rule stream maxDepth) := by
  cases hrule : p.ruleIndex? rule with
  | none =>
      rw [parse, hrule]
      exact .unknown (ruleIndex?_eq_none_iff.mp hrule)
  | some index =>
      have hmem : rule ∈ p.ruleNames := by
        by_contra hmem
        rw [ruleIndex?_eq_none_iff.mpr hmem] at hrule
        cases hrule
      obtain ⟨name, hname, -, hparse⟩ | ⟨r, root, hparse, hroot, hfaults⟩ |
          ⟨r, fault, hparse, hroot, hfaults⟩ :=
        Tabled.parse_cases maxDepth (Tabled.shows_ofStream hindex) (h.closed stream)
          (h.entry hrule _) hrule
      · exact hparse ▸ .tooDeep hmem hname
      · exact hparse ▸ .matched hmem hroot hfaults
      · exact hparse ▸ .failed hmem hroot hfaults

/-- Rules do not nest too deep if they may nest as deep as there are ways to invoke them. -/
theorem Linked.parse_ne_recursionLimit (h : p.Linked)
    (hindex : ∀ (k : Nat) t, stream.tokens[k]? = some t → t.index = k) (rule : String)
    {maxDepth : Nat} (hdepth : p.ruleNames.length * p.precedences.card *
      (stream.visible.length + 1) ≤ clampDepth maxDepth) (name : String) (limit : Nat) :
    p.parse rule stream maxDepth ≠ .error (.recursionLimit name limit) := by
  intro hparse
  cases hrule : p.ruleIndex? rule with
  | none =>
      rw [parse, hrule] at hparse
      cases hparse
  | some index =>
      obtain ⟨_, -, hkeys, -⟩ | ⟨r, root, hok, -⟩ | ⟨r, fault, hok, -⟩ :=
        Tabled.parse_cases maxDepth (Tabled.shows_ofStream hindex) (h.closed stream)
          (h.entry hrule _) hrule
      · have hcard := p.card_invocations_le stream.visible.length
        rw [← h.names] at hcard
        omega
      · rw [hok] at hparse
        cases hparse
      · rw [hok] at hparse
        cases hparse

/-- The run of a parser that was taken over from images ends, and finds all that it looks up on the
way. -/
theorem exists_tabled_parse (h : ofImages header vocabulary images = .ok p) (l : LexerProgram)
    (s : CharStream) (rule : String) (maxDepth : Nat) :
    ∃ outcome, Tabled.parse p rule (l.tokenize s) maxDepth = some outcome ∧
      p.parse rule (l.tokenize s) maxDepth = outcome ∧
      Ends p rule (l.tokenize s) maxDepth outcome ∧
      (p.ruleNames.length * p.precedences.card * ((l.tokenize s).visible.length + 1) ≤
          clampDepth maxDepth →
        ∀ name limit, outcome ≠ .error (.recursionLimit name limit)) := by
  have hlinked := linked_of_ofImages h
  have hindex : ∀ (k : Nat) t, (l.tokenize s).tokens[k]? = some t → t.index = k :=
    fun _ _ => LexerProgram.index_of_tokenize
  exact ⟨p.parse rule (l.tokenize s) maxDepth, hlinked.tabled_parse_eq hindex rule maxDepth, rfl,
    hlinked.ends_parse hindex rule maxDepth, hlinked.parse_ne_recursionLimit hindex rule⟩

/-- A rule that invokes itself at its own place or repeats what matches nothing, a rule that a
suffix without tokens extends, and one that is invoked behind the end of the input. -/
def loopHeader : ParserHeader :=
  ⟨"LoopParser", "Loop", "LoopLexer", ["list", "item", "rest"], [], 0⟩

def loopImages : List ParserRuleImage :=
  [⟨"list", 0, .plain (.choice [.seq [.rule 0 0, .token 1],
      .seq [.star (.optional .empty true) true, .rule 1 5, .token TokenType.eof, .rule 2 0]])⟩,
    ⟨"item", 1, .leftRecursive (.token 1) [⟨7, .empty⟩, ⟨3, .token 1⟩]⟩,
    ⟨"rest", 2, .plain .empty⟩]

def loopParser : ParserProgram where
  names := ⟨"LoopParser", "LoopLexer", ["list", "item", "rest"], ⟨[]⟩⟩
  grammar := "Loop"
  bodies := (loopImages.map ParserRuleImage.body).toArray
  startRule := 0

theorem ofImages_loops : ofImages loopHeader ⟨[]⟩ loopImages = .ok loopParser := rfl

/-- Letters, by code with two cycles that read nothing. -/
def loopLexerHeader : LexerHeader := ⟨"LoopLexer", "Loop", ["DEFAULT_MODE"], [], [], []⟩

def loopLexerImages : List LexerRuleImage :=
  [⟨"A", 1, 0, false, [.split 0 1, .char 97, .split 1 3, .split 2 4, .accept 0], [[]]⟩]

def loopLexer : LexerProgram :=
  ⟨"LoopLexer", "Loop", ["DEFAULT_MODE"], [], ⟨[]⟩,
    [⟨"A", 1, 0, false, #[.split 0 1, .char 97, .split 1 3, .split 2 4, .accept 0], #[[]]⟩]⟩

def loopText : CharStream := ⟨"loops", "aab".toList.toArray, .none⟩

def loopTokens : TokenStream :=
  ⟨[⟨1, 0, "aa", 0, 2, ⟨1, 0⟩, 0⟩, ⟨TokenType.eof, 0, "<EOF>", 3, 3, ⟨1, 3⟩, 1⟩],
    [⟨⟨1, 2⟩, .unrecognized "b"⟩]⟩

theorem tokenize_loopText : loopLexer.tokenize loopText = loopTokens := by
  decide +kernel

set_option maxRecDepth 20000 in
theorem search_loops :
    (loopParser.search loopTokens.visible.toArray 0 18).map (fun found => found.1) =
      .ok [⟨2, .rule ⟨0, 0, 0⟩ none 2
        [.rule ⟨1, 5, 0⟩ none 1 [.token 0], .token 1, .rule ⟨2, 0, 2⟩ none 2 []]⟩] := by
  have hvisible : loopTokens.visible.toArray =
      #[⟨1, 0, "aa", 0, 2, ⟨1, 0⟩, 0⟩, ⟨TokenType.eof, 0, "<EOF>", 3, 3, ⟨1, 3⟩, 1⟩] := by
    decide
  rw [hvisible]
  simp [loopParser, loopImages, ParserProgram.search, Search.invoke, Search.memoized, get, getThe,
    MonadStateOf.get, StateT.get, StateT.run, bind, StateT.bind, Except.bind, pure, stateT_pure,
    Except.pure, modify, modifyGet, MonadStateOf.modifyGet, StateT.modifyGet, Search.matchBody,
    Search.eval, Search.evalSeq, Search.evalChoice, Search.extend, Search.extendAll,
    Search.matchToken, Search.visitAll, Search.visit, Search.growth, Search.round,
    SearchState.refuse, SearchState.remember, Row.empty, Row.single, Row.then, Branch.distinct,
    Branch.keepFirst, Search.derivation, Except.map]

theorem parse_loops : (loopParser.parse "list" loopTokens 18).toOption.bind
    ParseResult.stringTree? = some "(list (item aa) <EOF> rest)" := by
  obtain ⟨⟨found, s⟩, hsearch, hfound⟩ := map_eq_ok.mp search_loops
  obtain rfl : found = _ := hfound
  have hrule : loopParser.ruleIndex? "list" = some 0 := by decide
  have hlimit : ParserProgram.clampDepth 18 = 18 := by decide
  simp only [ParserProgram.parse, hrule, hlimit, hsearch]
  decide

/-- Three rules, two precedences and three places need no more than eighteen levels. -/
theorem loops_end : ∃ p, ofImages loopHeader ⟨[]⟩ loopImages = .ok p ∧
    ∃ outcome, Tabled.parse p "list" (loopLexer.tokenize loopText) 18 = some outcome ∧
      Ends p "list" (loopLexer.tokenize loopText) 18 outcome ∧
      (∀ name limit, outcome ≠ .error (.recursionLimit name limit)) ∧
      outcome.toOption.bind ParseResult.stringTree? = some "(list (item aa) <EOF> rest)" := by
  obtain ⟨outcome, hrun, hparse, hends, hlimit⟩ :=
    exists_tabled_parse ofImages_loops loopLexer loopText "list" 18
  refine ⟨loopParser, ofImages_loops, outcome, hrun, hends, hlimit ?_, ?_⟩
  · rw [tokenize_loopText]
    decide +kernel
  · rw [← hparse, tokenize_loopText]
    exact parse_loops

end ParserProgram

/-! ## Recognizers -/

/-- Whatever images a lexer and a parser were taken over from, all that they look up is there:
marks, instructions and actions while a text is cut into tokens, and bodies, names, tokens and rows
while a rule is run over them and its result is built. -/
theorem Tabled.lookUps_found {lexerHeader : LexerHeader} {lexerImages : List LexerRuleImage}
    {header : ParserHeader} {vocabulary : Vocabulary} {images : List ParserRuleImage}
    {l : LexerProgram} {p : ParserProgram}
    (hlexer : LexerProgram.ofImages lexerHeader lexerImages = .ok l)
    (hparser : ParserProgram.ofImages header vocabulary images = .ok p) (s : CharStream)
    (rule : String) (maxDepth : Nat) :
    l.tokenize? s = some (l.tokenize s) ∧
      Tabled.parse p rule (l.tokenize s) maxDepth = some (p.parse rule (l.tokenize s) maxDepth) :=
  ⟨LexerProgram.tokenize?_eq hlexer s, (ParserProgram.linked_of_ofImages hparser).tabled_parse_eq
    (fun _ _ => LexerProgram.index_of_tokenize) rule maxDepth⟩

/-- The loops of these images all end with what they look for. -/
theorem Tabled.loops_found : ∃ l p,
    LexerProgram.ofImages ParserProgram.loopLexerHeader ParserProgram.loopLexerImages = .ok l ∧
    ParserProgram.ofImages ParserProgram.loopHeader ⟨[]⟩ ParserProgram.loopImages = .ok p ∧
    l.tokenize? ParserProgram.loopText = some ParserProgram.loopTokens ∧
    (Tabled.parse p "list" ParserProgram.loopTokens 18).map (fun outcome =>
      outcome.toOption.bind ParseResult.stringTree?) =
        some (some "(list (item aa) <EOF> rest)") := by
  have hlexer : LexerProgram.ofImages ParserProgram.loopLexerHeader
      ParserProgram.loopLexerImages = .ok ParserProgram.loopLexer := rfl
  obtain ⟨htokens, hparse⟩ := Tabled.lookUps_found hlexer ParserProgram.ofImages_loops
    ParserProgram.loopText "list" 18
  rw [ParserProgram.tokenize_loopText] at htokens hparse
  refine ⟨_, _, hlexer, ParserProgram.ofImages_loops, htokens, ?_⟩
  rw [hparse]
  exact congrArg some ParserProgram.parse_loops

end GrammarEngine

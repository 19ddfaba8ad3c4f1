import GrammarEngine.Proofs.Lexer.Streams
import GrammarEngine.Proofs.Recognizer.Reports
import GrammarEngine.Proofs.Tree.Spans

/-!
# Spans in the trees of runs

Whatever a run finds reads the visible tokens from the first one on, and every part of it those
between two places. The tokens of a lexer stand one behind the other in the text, so that the spans
of the nodes do so as well, in the tree of every listener.
-/
namespace GrammarEngine

open GrammarEngine.Parser

/-- A tree over a result. Its terminal nodes are visible tokens from the first one on, without a
gap; they stand one behind the other; and the span of every rule covers the terminal nodes below
it. -/
structure ParseTree.SpansResult (t : ParseTree) (r : ParseResult) : Prop where
  read : ∃ count ≤ r.visible.length,
    t.terminals.map (fun n => (n.kind, n.start, n.stop)) =
      (r.visible.take count).map fun token =>
        (.terminal token.type (r.symbol token) token.text token.position, token.start, token.stop)
  increasing : t.terminals.Pairwise fun m n => m.start < m.stop ∧ m.stop ≤ n.start
  spanned : t.Spanned

/-- A tree that is laid out of a shown one with the first visible tokens. -/
theorem ParseTree.spansResult_of_layout {t : ParseTree} {r : ParseResult} {s : ShownTree}
    {count : Nat} (ht : t.nodes.toList = s.layout none 0) (hs : s.Spanned)
    (hcount : count ≤ r.visible.length)
    (hread : s.terminals = (r.visible.take count).map fun token => (token, r.symbol token))
    (hincreasing : r.visible.Pairwise fun t u => t.start < t.stop ∧ t.stop ≤ u.start) :
    t.SpansResult r := by
  have hterminals := (depicts_of_layout ht).terminals
  rw [hread, List.map_map] at hterminals
  have hspans : t.terminals.map TreeNode.span = (r.visible.take count).map Token.span := by
    have h := congrArg (List.map Prod.snd) hterminals
    rw [List.map_map, List.map_map] at h
    exact h
  refine ⟨⟨count, hcount, hterminals⟩, ?_, spanned_of_layout ht hs⟩
  have hordered : ((r.visible.take count).map Token.span).Pairwise fun a b =>
      a.1 < a.2 ∧ a.2 ≤ b.1 :=
    List.pairwise_map.mpr (hincreasing.sublist (List.take_sublist count r.visible))
  rw [← hspans] at hordered
  exact List.pairwise_map.mp hordered

namespace LexerProgram

variable {p : LexerProgram} {s : CharStream}

theorem indexes_tokenize {t : Token} (ht : t ∈ (p.tokenize s).tokens) :
    (p.tokenize s).tokens[t.index]? = some t := by
  obtain ⟨k, hk⟩ := List.getElem?_of_mem ht
  rw [index_of_tokenize hk]
  exact hk

/-- No token but the last one is empty. -/
theorem increasing_tokenize :
    (p.tokenize s).tokens.Pairwise fun t u => t.start < t.stop ∧ t.stop ≤ u.start := by
  have hpositioned := positioned_tokenize (p := p) (s := s)
  have hordered := hpositioned.ordered
  rw [hpositioned.tokens] at hordered ⊢
  obtain ⟨hfront, -, hlast⟩ := List.pairwise_append.mp hordered
  refine List.pairwise_append.mpr ⟨?_, List.pairwise_singleton _ _, ?_⟩
  · apply hfront.imp_of_mem
    intro t u ht hu hle
    exact ⟨hpositioned.nonempty t ht, hle⟩
  · intro t ht u hu
    exact ⟨hpositioned.nonempty t ht, hlast t ht u hu⟩

end LexerProgram

namespace Recognizer

variable {r : Recognizer} {stream : CharStream} {request : RunRequest} {result : ParseResult}

/-- The root of a run reads the visible tokens from the first one on. -/
theorem exists_reads_of_run (hrun : r.run stream request = .ok result)
    (hroot : result.root.isSome = true) :
    ∃ call suffix stop children,
      result.root = some (.ofDerivation result.visible.toArray (.rule call suffix stop children)) ∧
      call.start = 0 ∧ Reads result.visible.toArray (.rule call suffix stop children) := by
  obtain ⟨p, l, -, -, hparse⟩ := run_eq_ok_cases hrun
  obtain ⟨index, found, state, -, hsearch, htokens, -, hfound, -⟩ :=
    ParserProgram.parse_eq_ok_cases hparse
  have hvisible : (l.tokenize (refold stream request.folding)).visible = result.visible := by
    rw [ParseResult.visible, htokens]
    rfl
  rw [hvisible] at hsearch hfound
  cases found with
  | nil =>
      rw [hfound] at hroot
      cases hroot
  | cons b rest =>
      -- what is found is a match of the invocation, and it starts where the invocation does
      have hmatch := soundMatches_of_run hsearch b List.mem_cons_self
      have hreads := Spans.reads hmatch (List.mem_singleton_self b.value)
      obtain ⟨suffix, children, hvalue⟩ := hmatch.rule_node
      have hvalue := List.singleton_inj.mp hvalue
      rw [List.head?_cons, Option.map_some, hvalue] at hfound
      rw [hvalue] at hreads
      exact ⟨_, suffix, b.stop, children, hfound, rfl, hreads⟩

/-- The visible tokens of a run stand one behind the other, at the places that they name. -/
theorem visible_of_run (hrun : r.run stream request = .ok result) :
    result.Indexes result.visible.toArray ∧
      result.visible.Pairwise fun t u => t.start < t.stop ∧ t.stop ≤ u.start := by
  obtain ⟨p, l, -, -, hparse⟩ := run_eq_ok_cases hrun
  obtain ⟨index, found, state, -, -, htokens, -, -, -⟩ := ParserProgram.parse_eq_ok_cases hparse
  constructor
  · intro t ht
    have hmem : t ∈ result.tokens.toList := (List.mem_filter.mp ht).1
    rw [htokens] at hmem ⊢
    have hindex := LexerProgram.indexes_tokenize hmem
    simpa using hindex
  · rw [ParseResult.visible, htokens]
    exact LexerProgram.increasing_tokenize.filter _

/-- Whatever a run finds and whatever rules a listener keeps, in the tree of the listener the
terminal nodes are the visible tokens from the first one on, which stand one behind the other, and
every rule starts with the first and stops with the last of the terminal nodes below it. A rule
without any has an empty span. -/
theorem spansResult_of_run (l : TreeListener) (hrun : r.run stream request = .ok result)
    (hroot : result.root.isSome = true) :
    ∃ t, (l.hear result).tree = some t ∧ t.SpansResult result := by
  obtain ⟨call, suffix, stop, children, hfound, hstart, hreads⟩ := exists_reads_of_run hrun hroot
  obtain ⟨hindexes, hincreasing⟩ := visible_of_run hrun
  obtain ⟨hleaves, hstop⟩ := hreads call suffix stop children (.self _)
  have hcount : stop ≤ result.visible.length := by
    rw [hstart, List.size_toArray] at hstop
    omega
  have hspanned := (ParseResult.spannedAll_shown hindexes _ hreads).1
  have hshown := ParseResult.terminalsAll_ofDerivations hindexes hleaves hstop
  rw [hstart, Nat.sub_zero, List.drop_zero] at hshown
  refine ⟨_, ParseTree.ofResult?_eq l.keeps hfound, ?_⟩
  apply ParseTree.spansResult_of_layout rfl hspanned.filtered hcount _ hincreasing
  rw [ShownTree.terminals_filtered]
  exact hshown

/-! ## A letter behind a blank -/

def blankLexer : LexerProgram where
  name := "L"
  grammar := ""
  modes := ["M"]
  channels := ["DEFAULT_TOKEN_CHANNEL", "HIDDEN"]
  vocabulary := ⟨[⟨1, "A", none⟩, ⟨2, "B", none⟩]⟩
  rules := [⟨"A", 1, 0, false, #[.char 97, .accept 0], #[[]]⟩,
    ⟨"B", 2, 0, false, #[.char 32, .accept 0], #[[.channel 1]]⟩]

/-- An empty rule, a letter and the end of the input. -/
def blankParser : ParserProgram where
  names := ⟨"P", "L", ["s", "e"], ⟨[⟨1, "A", none⟩, ⟨2, "B", none⟩]⟩⟩
  grammar := ""
  bodies := #[.plain (.seq [.rule 1 0, .token 1, .token TokenType.eof]), .plain .empty]
  startRule := 0

def blankRecognizer : Recognizer where
  lexers := [blankLexer]
  parsers := [blankParser]

def blankStream : CharStream := ⟨"blank", " a".toList.toArray, .none⟩

def blankRequest : RunRequest := { parser := some "P", maxDepth := some 2 }

/-- The blank is hidden. -/
def blankTokens : TokenStream :=
  ⟨[⟨2, 1, " ", 0, 1, ⟨1, 0⟩, 0⟩, ⟨1, 0, "a", 1, 2, ⟨1, 1⟩, 1⟩,
    ⟨TokenType.eof, 0, "<EOF>", 2, 2, ⟨1, 2⟩, 2⟩], []⟩

def blankResult : ParseResult where
  root := some (.rule 0 1 (some 2) [.rule 1 1 none [], .token 1, .token 2])
  tokens := blankTokens.tokens.toArray
  faults := []
  names := blankParser.names
  entryRule := "s"

theorem search_blank :
    (blankParser.search blankTokens.visible.toArray 0 2).map (fun found => found.1) =
      .ok [⟨2, .rule ⟨0, 0, 0⟩ none 2 [.rule ⟨1, 0, 0⟩ none 0 [], .token 0, .token 1]⟩] := by
  have hvisible : blankTokens.visible =
      [⟨1, 0, "a", 1, 2, ⟨1, 1⟩, 1⟩, ⟨TokenType.eof, 0, "<EOF>", 2, 2, ⟨1, 2⟩, 2⟩] := by
    decide
  rw [hvisible]
  simp [blankParser, ParserProgram.search, Search.invoke, Search.memoized, get, getThe,
    MonadStateOf.get, StateT.get, StateT.run, bind, StateT.bind, Except.bind, pure, stateT_pure,
    Except.pure, modify, modifyGet, MonadStateOf.modifyGet, StateT.modifyGet, Search.matchBody,
    Search.eval, Search.evalSeq, Search.extend, Search.extendAll, Search.matchToken,
    SearchState.remember, Row.empty, Row.single, Row.then, Branch.distinct, Branch.keepFirst,
    Search.derivation, Except.map]

theorem run_blank : blankRecognizer.run blankStream blankRequest = .ok blankResult := by
  have htokens : blankLexer.tokenize blankStream = blankTokens := by
    decide +kernel
  have hrun : blankRecognizer.run blankStream blankRequest =
      blankParser.parse "s" (blankLexer.tokenize blankStream) 2 :=
    run_eq_parse rfl rfl (by decide)
  obtain ⟨⟨found, s⟩, hsearch, hfound⟩ := map_eq_ok.mp search_blank
  obtain rfl : found = _ := hfound
  have hrule : blankParser.ruleIndex? "s" = some 0 := by decide
  have hlimit : ParserProgram.clampDepth 2 = 2 := by decide
  rw [hrun, htokens]
  simp only [ParserProgram.parse, hrule, hlimit, hsearch]
  rfl

/-- The hidden blank belongs to no rule, and the empty rule in front lies where the letter
starts. -/
theorem blank_spanned :
    blankRecognizer.run blankStream blankRequest = .ok blankResult ∧
      blankResult.isSuccess = true ∧
      ∃ t, (TreeListener.hear { } blankResult).tree = some t ∧
        t.nodes.toList.map TreeNode.span = [(1, 2), (1, 1), (1, 2), (2, 2)] ∧
        t.SpansResult blankResult := by
  obtain ⟨t, ht, hspans⟩ := spansResult_of_run { } run_blank rfl
  have hnodes : ((TreeListener.hear { } blankResult).tree.map fun t =>
      t.nodes.toList.map TreeNode.span) = some [(1, 2), (1, 1), (1, 2), (2, 2)] := by
    decide
  rw [ht] at hnodes
  exact ⟨run_blank, by decide, t, ht, Option.some.inj hnodes, hspans⟩

end Recognizer

end GrammarEngine

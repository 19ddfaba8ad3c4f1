import GrammarEngine.Proofs.Container.RoundTrip
import GrammarEngine.Proofs.Parser.Run
import GrammarEngine.Proofs.Parser.Soundness
import GrammarEngine.Proofs.Recognizer.Linked
import GrammarEngine.Recognizer.Run

/-!
# What runs report

A run reports the tokens that its rule could not go on with only if the rule matched nothing from
the first token on. So an input is reported if no part of it from the start belongs to the language
of the rule, and what is behind a match is left alone: a rule that is to read the whole input has to
ask for its end. The words of such a rule end with the end of the input, and a run of it that
reports nothing has read all tokens.
-/
namespace GrammarEngine

/-- The tokens that the parser has seen. -/
def ParseResult.visible (r : ParseResult) : List Token := r.tokens.toList.filter Token.isVisible

def ParseResult.visibleTypes (r : ParseResult) : List TokenType := r.visible.map Token.type

namespace ParserProgram

variable {p : ParserProgram} {rule : String} {stream : TokenStream} {maxDepth : Nat}
  {r : ParseResult}

/-! ## Numbers of rules -/

/-- The numbers of the rules of a program that was taken over are words, as each has an image. -/
theorem toNat_ofNat_ruleIndex {header : ParserHeader} {vocabulary : Vocabulary}
    {images : List ParserRuleImage} (h : ofImages header vocabulary images = .ok p) {index : Nat}
    (hrule : p.ruleIndex? rule = some index) : (UInt32.ofNat index).toNat = index := by
  unfold ofImages at h
  split at h
  · cases h
  · next bodies hbodies =>
    obtain rfl := Except.ok.inj h
    have hindex : index < bodies.length := by
      rw [length_of_loadBodies hbodies]
      exact (List.findIdx?_eq_some_iff_findIdx_eq.mp hrule).1
    have hbody := body?_of_loadBodies hbodies (List.getElem?_eq_getElem hindex)
    obtain ⟨image, hfound, -⟩ := Option.map_eq_some_iff.mp hbody
    have hnumber : image.index.toNat = index := by simpa using List.find?_some hfound
    rw [← hnumber, UInt32.ofNat_toNat]

/-! ## Results -/

/-- A result has the tree of the match that the search prefers, and a fault of its own if there is
none. -/
theorem parse_eq_ok_cases (h : p.parse rule stream maxDepth = .ok r) :
    ∃ index found s, p.ruleIndex? rule = some index ∧
      (Search.invoke p.bodies stream.visible.toArray (clampDepth maxDepth)
        ⟨UInt32.ofNat index, 0, 0⟩).run {} = .ok (found, s) ∧
      r.tokens = stream.tokens.toArray ∧ r.entryRule = rule ∧
      r.root = found.head?.map (fun b => SyntaxTree.ofDerivation stream.visible.toArray b.value) ∧
      (found = [] → r.faults ≠ []) := by
  unfold parse at h
  split at h
  · cases h
  · next index hindex =>
    simp only [search] at h
    split at h
    · cases h
    · next s hs =>
      obtain rfl := Except.ok.inj h
      exact ⟨index, [], s, hindex, hs, rfl, rfl, rfl, fun _ => by simp⟩
    · next b rest s hs =>
      obtain rfl := Except.ok.inj h
      exact ⟨index, b :: rest, s, hindex, hs, rfl, rfl, rfl,
        fun hnil => absurd hnil (List.cons_ne_nil b rest)⟩

end ParserProgram

namespace Recognizer

open GrammarEngine.Parser

variable {s : BundleSet} {r r' : Recognizer} {primary : String × UnitImage} {stream : CharStream}
  {request : RunRequest} {result : ParseResult} {p : ParserProgram}

/-! ## Loaded parsers -/

/-- All parsers are taken over from images. -/
def FromImages (r : Recognizer) : Prop :=
  ∀ p ∈ r.parsers, ∃ header vocabulary images,
    ParserProgram.ofImages header vocabulary images = .ok p

theorem fromImages_ofUnits (h : ofUnits s = .ok r) : r.FromImages := by
  have hadd : ∀ {b : Bundle} {r r' : Recognizer} {id : Nat}, addUnit s b r id = .ok r' →
      r'.parsers = r.parsers := by
    intro b r r' id hrun
    unfold addUnit at hrun
    split at hrun
    · cases hrun
    · split at hrun
      · cases hrun
      · obtain rfl := Except.ok.inj hrun
        rfl
  have hnone : r.parsers = [] := by
    refine foldlM_invariant (fun r : Recognizer => r.parsers = []) rfl
      (fun b _ r r' hr hrun => ?_) h
    exact foldlM_invariant (fun r : Recognizer => r.parsers = []) hr
      (fun id _ r r' hr hadded => (hadd hadded).trans hr) hrun
  simp [FromImages, hnone]

theorem FromImages.linkPrimary (h : r.FromImages) (hrun : r.linkPrimary primary = .ok r') :
    r'.FromImages := by
  obtain ⟨lexers, rfl⟩ := lexers_of_linkPrimary hrun
  exact h

theorem FromImages.linkDeferred (h : r.FromImages) (hrun : r.linkDeferred primary = .ok r') :
    r'.FromImages := by
  rcases linkDeferred_cases hrun with ⟨header, p, -, ⟨_, _, -, -, hp⟩, -, rfl⟩ | ⟨-, rfl⟩
  · exact List.forall_mem_append.mpr ⟨h, by simpa using ⟨_, _, _, hp⟩⟩
  · exact h

theorem fromImages_of_load (h : load s = .ok r) : r.FromImages := by
  obtain ⟨r₀, primaries, r₁, hunits, -, hfirst, hsecond⟩ := load_cases h
  have hmid := foldlM_invariant FromImages (fromImages_ofUnits hunits)
    (fun _ _ _ _ hlinked => hlinked.linkPrimary) hfirst
  exact foldlM_invariant FromImages hmid (fun _ _ _ _ hlinked => hlinked.linkDeferred) hsecond

theorem mem_of_parserNamed {name : String} (h : r.parserNamed name = .ok p) : p ∈ r.parsers := by
  unfold parserNamed at h
  split at h
  · next found =>
    obtain rfl := Except.ok.inj h
    exact List.mem_of_find?_eq_some found
  · cases h

theorem mem_of_selectParser {name : Option String} (h : r.selectParser name = .ok p) :
    p ∈ r.parsers := by
  cases name with
  | some name => exact mem_of_parserNamed h
  | none =>
      obtain ⟨name, -, h⟩ := bind_eq_ok.mp h
      exact mem_of_parserNamed h

/-! ## Runs -/

theorem run_eq_ok_cases (h : r.run stream request = .ok result) :
    ∃ p l, r.selectParser request.parser = .ok p ∧ r.selectLexer request.lexer p = .ok l ∧
      p.parse (request.entryRule.getD p.defaultRule)
        (l.tokenize (refold stream request.folding))
        (request.maxDepth.getD ParserProgram.defaultMaxDepth) = .ok result := by
  unfold run at h
  obtain ⟨p, hp, h⟩ := bind_eq_ok.mp h
  obtain ⟨l, hl, h⟩ := bind_eq_ok.mp h
  obtain ⟨-, h⟩ := ite_throw_bind_eq_ok.mp h
  exact ⟨p, l, hp, hl, h⟩

/-- A word that ends with what comes last only is the whole. -/
theorem eq_of_prefix_of_getLast? {α : Type} {w v : List α} {a : α} (h : w <+: v)
    (hlast : w.getLast? = some a) (honly : a ∉ v.dropLast) : w = v := by
  obtain ⟨rest, rfl⟩ := h
  cases rest with
  | nil => exact (List.append_nil w).symm
  | cons b rest =>
      rw [List.dropLast_append_of_ne_nil (List.cons_ne_nil b rest)] at honly
      exact (honly (List.mem_append_left _ (List.mem_of_getLast? hlast))).elim

/-- A match from the first token on is a derivation of a part of the input from the start. -/
theorem exists_of_isMatch {bodies : Array RuleBody} {input : Array Token} {k : UInt32}
    {b : Branch Derivation} (h : IsMatch bodies input ⟨k, 0, 0⟩ b) :
    ∃ w, Derives bodies (.rule k 0) w ∧ w <+: types input ∧
      leaves b.value = List.range w.length := by
  obtain ⟨w, hw, hspells⟩ := Spans.derives h
  have hstop : b.stop = w.length := by simpa using hspells.2
  have hleaves := Spans.leavesAll_eq h
  refine ⟨w, hw, spells_zero_iff.mp (hstop ▸ hspells), ?_⟩
  rw [← hstop, List.range_eq_range']
  simpa [leavesAll] using hleaves

/-- A run that gives a result reports a fault if no part of the visible tokens from the start is
derived from the entry rule. If it succeeds there is such a part, and the tree is a derivation over
its tokens. If the words of the entry rule end with the end of the input, which is seen behind all
other tokens only, then a run reports a fault if the visible tokens as a whole are not derived. -/
theorem faults_of_run (hload : load s = .ok r) (hrun : r.run stream request = .ok result) :
    ∃ p k, r.selectParser request.parser = .ok p ∧
      result.entryRule = request.entryRule.getD p.defaultRule ∧
      p.ruleIndex? result.entryRule = some k.toNat ∧
      ((∀ w, Derives p.bodies (.rule k 0) w → ¬ w <+: result.visibleTypes) → result.faults ≠ []) ∧
      (result.isSuccess = true → ∃ w d, Derives p.bodies (.rule k 0) w ∧
        w <+: result.visibleTypes ∧ leaves d = List.range w.length ∧
        result.root = some (SyntaxTree.ofDerivation result.visible.toArray d)) ∧
      ((∀ w, Derives p.bodies (.rule k 0) w → w.getLast? = some TokenType.eof) →
        TokenType.eof ∉ result.visibleTypes.dropLast →
        ¬ Derives p.bodies (.rule k 0) result.visibleTypes → result.faults ≠ []) := by
  obtain ⟨p, l, hp, -, hparse⟩ := run_eq_ok_cases hrun
  obtain ⟨index, found, state, hindex, hsearch, htokens, hrule, hroot, hfaults⟩ :=
    ParserProgram.parse_eq_ok_cases hparse
  obtain ⟨header, vocabulary, images, himages⟩ :=
    fromImages_of_load hload p (mem_of_selectParser hp)
  have hnumber := ParserProgram.toNat_ofNat_ruleIndex himages hindex
  have hvisible : result.visible = (l.tokenize (refold stream request.folding)).visible := by
    rw [ParseResult.visible, htokens]
    rfl
  have htypes : types result.visible.toArray = result.visibleTypes := rfl
  rw [← hvisible] at hsearch hroot
  -- a run without faults has found a match
  have hmatch : result.faults = [] → ∃ b, found.head? = some b ∧ ∃ w,
      Derives p.bodies (.rule (UInt32.ofNat index) 0) w ∧ w <+: result.visibleTypes ∧
        leaves b.value = List.range w.length := by
    intro hnone
    cases found with
    | nil => exact absurd hnone (hfaults rfl)
    | cons b rest =>
        exact ⟨b, rfl, exists_of_isMatch (soundMatches_of_run hsearch b List.mem_cons_self)⟩
  refine ⟨p, UInt32.ofNat index, hp, hrule, by rw [hnumber, hrule, hindex], ?_, ?_, ?_⟩
  · intro hnone hempty
    obtain ⟨b, -, w, hw, hprefix, -⟩ := hmatch hempty
    exact hnone w hw hprefix
  · intro hsuccess
    simp only [ParseResult.isSuccess, Bool.and_eq_true, List.isEmpty_iff] at hsuccess
    obtain ⟨b, hb, w, hw, hprefix, hleaves⟩ := hmatch hsuccess.2
    exact ⟨w, b.value, hw, hprefix, hleaves, by rw [hroot, hb, Option.map_some]⟩
  · intro hends honly hwhole hempty
    obtain ⟨b, -, w, hw, hprefix, -⟩ := hmatch hempty
    exact hwhole (eq_of_prefix_of_getLast? hprefix (hends w hw) honly ▸ hw)

/-! ## An input with more than its rule -/

def lettersParser : ParserProgram where
  names := ⟨"P", "L", ["s"], ⟨[⟨1, "A", none⟩]⟩⟩
  grammar := ""
  bodies := #[.plain (.token 1)]
  startRule := 0

def twoLetters : CharStream := ⟨"letters", "aa".toList.toArray, .none⟩

def letterRequest : RunRequest := { parser := some "P", maxDepth := some 1 }

/-- What the parser is given for two letters. -/
def letterTokens : TokenStream :=
  ⟨[⟨1, 0, "a", 0, 1, ⟨1, 0⟩, 0⟩, ⟨1, 0, "a", 1, 2, ⟨1, 1⟩, 1⟩,
    ⟨TokenType.eof, 0, "<EOF>", 2, 2, ⟨1, 2⟩, 2⟩], []⟩

theorem exists_letters : ∃ r, load Container.letterSet = .ok r ∧ r.lexers = [lettersLexer] ∧
    r.parsers = [lettersParser] := by
  have hloaded : (load Container.letterSet).map (fun r => (r.lexers, r.parsers)) =
      .ok ([lettersLexer], [lettersParser]) := rfl
  obtain ⟨r, hr, hsame⟩ := map_eq_ok.mp hloaded
  exact ⟨r, hr, congrArg Prod.fst hsame, congrArg Prod.snd hsame⟩

theorem exists_parse_letters : ∃ result, lettersParser.parse "s" letterTokens 1 = .ok result ∧
    result.isSuccess = true ∧ result.entryRule = "s" ∧
    result.visibleTypes = [1, 1, TokenType.eof] := by
  have hfirst : letterTokens.visible[0]? = some ⟨1, 0, "a", 0, 1, ⟨1, 0⟩, 0⟩ := by decide
  obtain ⟨b, s, hrun⟩ : ∃ b s, (Search.invoke lettersParser.bodies letterTokens.visible.toArray
      (ParserProgram.clampDepth 1) ⟨0, 0, 0⟩).run {} = .ok ([b], s) := by
    simp [hfirst, ParserProgram.clampDepth, lettersParser, Search.invoke, Search.memoized, get,
      getThe, MonadStateOf.get, StateT.get, StateT.run, bind, StateT.bind, Except.bind, pure,
      stateT_pure, Except.pure, modify, modifyGet, MonadStateOf.modifyGet, StateT.modifyGet,
      Search.matchBody, Search.eval, Search.matchToken, SearchState.remember]
  have hrule : lettersParser.ruleIndex? "s" = some 0 := by decide
  have hzero : UInt32.ofNat 0 = 0 := rfl
  refine ⟨⟨some (.ofDerivation letterTokens.visible.toArray b.value),
    letterTokens.tokens.toArray, [], lettersParser.names, "s"⟩, ?_, rfl, rfl, ?_⟩
  · simp only [ParserProgram.parse, hrule, ParserProgram.search, hzero, hrun]
    rfl
  · have hvisible : letterTokens.visible = letterTokens.tokens := by decide
    exact congrArg (List.map Token.type) hvisible

/-- The rule of the loaded parser takes the first of two letters. -/
theorem exists_run_letters : ∃ r result, load Container.letterSet = .ok r ∧
    r.run twoLetters letterRequest = .ok result ∧
    r.selectParser letterRequest.parser = .ok lettersParser ∧ result.isSuccess = true ∧
    lettersParser.ruleIndex? result.entryRule = some 0 ∧
    result.visibleTypes = [1, 1, TokenType.eof] := by
  obtain ⟨r, hload, hlexers, hparsers⟩ := exists_letters
  obtain ⟨result, hparse, hsuccess, hrule, htypes⟩ := exists_parse_letters
  have hparser : r.selectParser letterRequest.parser = .ok lettersParser :=
    selectParser_of_parsers hparsers rfl
  have hlexer : r.selectLexer letterRequest.lexer lettersParser = .ok lettersLexer :=
    selectLexer_of_lexers hlexers rfl
  have htokens : lettersLexer.tokenize (refold twoLetters letterRequest.folding) =
      letterTokens := by
    decide +kernel
  have hrun : r.run twoLetters letterRequest = .ok result := by
    rw [run_eq_parse hparser hlexer (by decide), htokens]
    exact hparse
  exact ⟨r, result, hload, hrun, hparser, hsuccess, hrule ▸ by decide, htypes⟩

theorem letters_derived {w : List TokenType}
    (h : Derives lettersParser.bodies (.rule 0 0) w) : w = [1] := by
  cases h with
  | plain _ h hw =>
      cases h
      cases hw
      rfl
  | primary _ h => cases h
  | suffix h => cases h

/-- What the tree of the run on two letters covers. -/
theorem letters_run : ∃ r result p w d, load Container.letterSet = .ok r ∧
    r.run twoLetters letterRequest = .ok result ∧ r.selectParser letterRequest.parser = .ok p ∧
    result.isSuccess = true ∧ Derives p.bodies (.rule 0 0) w ∧ w <+: result.visibleTypes ∧
    result.root = some (SyntaxTree.ofDerivation result.visible.toArray d) ∧
    leaves d = List.range w.length := by
  obtain ⟨r, result, hload, hrun, hparser, hsuccess, hindex, -⟩ := exists_run_letters
  obtain ⟨p, k, hp, -, hk, -, hmatch, -⟩ := faults_of_run hload hrun
  obtain rfl : lettersParser = p := Except.ok.inj (hparser.symm.trans hp)
  obtain rfl : k = 0 := UInt32.toNat.inj (Option.some.inj (hk.symm.trans hindex))
  obtain ⟨w, d, hw, hprefix, hleaves, hroot⟩ := hmatch hsuccess
  exact ⟨r, result, lettersParser, w, d, hload, hrun, hparser, hsuccess, hw, hprefix, hroot,
    hleaves⟩

/-- A rule that does not ask for the end of the input succeeds on its first letter, and the letter
behind it is not reported. -/
theorem letters_unreported : ∃ r result p, load Container.letterSet = .ok r ∧
    r.run twoLetters letterRequest = .ok result ∧ r.selectParser letterRequest.parser = .ok p ∧
    p.ruleIndex? result.entryRule = some 0 ∧ result.visibleTypes = [1, 1, TokenType.eof] ∧
    ¬ Derives p.bodies (.rule 0 0) result.visibleTypes ∧
    ¬ Derives p.bodies (.rule 0 0) result.visibleTypes.dropLast ∧
    result.faults = [] ∧ result.isSuccess = true := by
  obtain ⟨r, result, hload, hrun, hparser, hsuccess, hindex, htypes⟩ := exists_run_letters
  have hnone : result.faults = [] := by
    simp only [ParseResult.isSuccess, Bool.and_eq_true, List.isEmpty_iff] at hsuccess
    exact hsuccess.2
  have hwhole : ¬ Derives lettersParser.bodies (.rule 0 0) result.visibleTypes := by
    rw [htypes]
    exact fun h => by cases letters_derived h
  have hletters : ¬ Derives lettersParser.bodies (.rule 0 0) result.visibleTypes.dropLast := by
    rw [htypes]
    exact fun h => by cases letters_derived h
  exact ⟨r, result, lettersParser, hload, hrun, hparser, hindex, htypes, hwhole, hletters, hnone,
    hsuccess⟩

end Recognizer

end GrammarEngine

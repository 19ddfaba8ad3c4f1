import GrammarEngine.Proofs.Parser.Growth

/-!
# Exactness of runs

If no rule can reach itself at the same place, a run finds what the declarative reading of the
program says, for the invocation that it starts with and for every invocation that it makes on the
way. It is stopped by nothing but rules that nest too deep.
-/
namespace GrammarEngine.Parser

open Branch Search

variable {bodies : Array RuleBody} {input : Array Token} {i : Invocation}

/-- The matches of an invocation are what its rule derives: each place up to which the rule derives
the tokens is reached once, by a derivation whose leaves are these tokens in order. -/
structure ExactMatches (bodies : Array RuleBody) (input : Array Token) (i : Invocation)
    (found : List (Branch Derivation)) : Prop where
  once : (stops found).Nodup
  places : ∀ j, j ∈ stops found ↔
    ∃ w, Derives bodies (.rule i.rule i.precedence) w ∧ Spells input i.start j w
  derivation : ∀ b ∈ found,
    Spans bodies input (.rule i.rule i.precedence) i.start b.stop [b.value]
  leaves : ∀ b ∈ found, leaves b.value = List.range' i.start (b.stop - i.start)

theorem Exact.matches {Q : Derivation → Prop} {found : List (Branch Derivation)}
    (h : Recognizes bodies input Q i found) : ExactMatches bodies input i found := by
  refine ⟨h.nodup, fun j => ⟨fun hj => ?_, ?_⟩, fun b hb => (h.sound b hb).1, fun b hb => ?_⟩
  · obtain ⟨b, hb, rfl⟩ := mem_stops.mp hj
    exact (h.sound b hb).1.derives
  · intro ⟨w, hw, hspells⟩
    obtain ⟨ds, hspans, hsingle⟩ := hw.spans hspells
    obtain ⟨d, rfl⟩ := hsingle rfl
    exact h.complete j [d] hspans
  · have hleaves := (h.sound b hb).1.leavesAll_eq
    simpa [leavesAll] using hleaves

/-- A run from the start either nests too deep or is exact, with all that it remembers. -/
theorem search_exact (guarded : Guarded bodies) (limit : Nat) (i : Invocation) :
    (∃ fault, (invoke bodies input limit i).run {} = .error fault) ∨
      ∃ found s, (invoke bodies input limit i).run {} = .ok (found, s) ∧
        ExactMatches bodies input i found ∧
        ∀ k known, s.memo[k]? = some known → ExactMatches bodies input k known := by
  cases hrun : (invoke bodies input limit i).run {} with
  | error fault => exact .inl ⟨fault, rfl⟩
  | ok r =>
      obtain ⟨hfound, hmemo⟩ := of_run_invoke guarded recognizes_hereditary hrun
      exact .inr ⟨r.1, r.2, rfl, hfound.matches, fun k known hk => (hmemo k known hk).matches⟩

/-- A word is read from the first place exactly if the input begins with it. -/
theorem spells_zero_iff {w : List TokenType} :
    Spells input 0 w.length w ↔ w <+: types input := by
  simp [Spells]

/-- Something is found from the first place exactly if a prefix of the input is derived. -/
theorem ExactMatches.ne_nil_iff {found : List (Branch Derivation)}
    (h : ExactMatches bodies input i found) (hstart : i.start = 0) :
    found ≠ [] ↔ ∃ w, Derives bodies (.rule i.rule i.precedence) w ∧ w <+: types input := by
  constructor
  · intro hne
    obtain ⟨b, rest, rfl⟩ := List.exists_cons_of_ne_nil hne
    obtain ⟨w, hw, hspells⟩ := (h.places b.stop).mp List.mem_cons_self
    refine ⟨w, hw, ?_⟩
    have hstop := hspells.2
    rw [hstart] at hspells hstop
    rw [hstop, Nat.zero_add] at hspells
    exact spells_zero_iff.mp hspells
  · rintro ⟨w, hw, hprefix⟩ rfl
    have hspells := spells_zero_iff.mpr hprefix
    rw [← hstart] at hspells
    simpa using (h.places w.length).mpr ⟨w, hw, hspells⟩

/-- Parsing either nests too deep or gives the tree of the most preferred match of its search. -/
theorem parse_cases (p : ParserProgram) {rule : String} {index : Nat} (stream : TokenStream)
    (maxDepth : Nat) (hrule : p.ruleIndex? rule = some index) :
    (∃ name fault,
      (invoke p.bodies stream.visible.toArray (ParserProgram.clampDepth maxDepth)
        ⟨UInt32.ofNat index, 0, 0⟩).run {} = .error fault ∧
      p.parse rule stream maxDepth =
        .error (.recursionLimit name (ParserProgram.clampDepth maxDepth))) ∨
      ∃ found s r,
        (invoke p.bodies stream.visible.toArray (ParserProgram.clampDepth maxDepth)
          ⟨UInt32.ofNat index, 0, 0⟩).run {} = .ok (found, s) ∧
        p.parse rule stream maxDepth = .ok r ∧
        r.root = found.head?.map
          fun b => SyntaxTree.ofDerivation stream.visible.toArray b.value := by
  unfold ParserProgram.parse
  rw [hrule]
  simp only [ParserProgram.search]
  split
  · next e he => exact .inl ⟨_, e, he, rfl⟩
  · next s hs => exact .inr ⟨[], s, _, hs, rfl, rfl⟩
  · next b rest s hs => exact .inr ⟨b :: rest, s, _, hs, rfl, rfl⟩

/-- The most preferred match of the search becomes the tree of the parse. -/
theorem parse_of_search (p : ParserProgram) {rule : String} {index : Nat} (stream : TokenStream)
    (maxDepth : Nat) (hrule : p.ruleIndex? rule = some index) {b : Branch Derivation}
    {rest : List (Branch Derivation)} {s : SearchState}
    (h : (invoke p.bodies stream.visible.toArray (ParserProgram.clampDepth maxDepth)
      ⟨UInt32.ofNat index, 0, 0⟩).run {} = .ok (b :: rest, s)) :
    ∃ r, p.parse rule stream maxDepth = .ok r ∧
      r.root = some (SyntaxTree.ofDerivation stream.visible.toArray b.value) := by
  rcases parse_cases p stream maxDepth hrule with ⟨_, _, hfault, -⟩ | ⟨_, _, r, hrun, hparse, hroot⟩
  · cases h.symm.trans hfault
  · cases h.symm.trans hrun
    exact ⟨r, hparse, hroot⟩

/-- Every invocation of a run is answered with exactly the places up to which its rule derives the
visible tokens, and a parse has a tree exactly if its rule derives a prefix of them. -/
theorem run_exact (p : ParserProgram) (guarded : Guarded p.bodies) (stream : TokenStream) :
    (∀ limit i, (∃ fault,
        (invoke p.bodies stream.visible.toArray limit i).run {} = .error fault) ∨
      ∃ found s, (invoke p.bodies stream.visible.toArray limit i).run {} = .ok (found, s) ∧
        ExactMatches p.bodies stream.visible.toArray i found ∧
        ∀ k known, s.memo[k]? = some known →
          ExactMatches p.bodies stream.visible.toArray k known) ∧
    ∀ rule index maxDepth, p.ruleIndex? rule = some index →
      (∃ name, p.parse rule stream maxDepth =
        .error (.recursionLimit name (ParserProgram.clampDepth maxDepth))) ∨
      ∃ r, p.parse rule stream maxDepth = .ok r ∧
        (r.root.isSome = true ↔ ∃ w, Derives p.bodies (.rule (UInt32.ofNat index) 0) w ∧
          w <+: types stream.visible.toArray) ∧
        ∀ t, r.root = some t → ∃ j d,
          Spans p.bodies stream.visible.toArray (.rule (UInt32.ofNat index) 0) 0 j [d] ∧
          t = SyntaxTree.ofDerivation stream.visible.toArray d := by
  refine ⟨fun limit i => search_exact guarded limit i, fun rule index maxDepth hrule => ?_⟩
  rcases parse_cases p stream maxDepth hrule with
    ⟨name, fault, -, hfault⟩ | ⟨found, s, r, hrun, hparse, hroot⟩
  · exact .inl ⟨name, hfault⟩
  · have hfound := (of_run_invoke guarded recognizes_hereditary hrun).1.matches
    refine .inr ⟨r, hparse, ?_, fun t ht => ?_⟩
    · rw [← hfound.ne_nil_iff rfl, hroot]
      cases found <;> simp
    · rw [hroot] at ht
      obtain ⟨b, hb, rfl⟩ := Option.map_eq_some_iff.mp ht
      exact ⟨b.stop, b.value, hfound.derivation b (List.mem_of_mem_head? hb), rfl⟩

/-- Sums of letters and of sums in brackets; the sum is a left-associative operator. -/
def sumBody : RuleBody :=
  .leftRecursive (.choice [.token 1, .seq [.token 2, .rule 0 0, .token 3]])
    [⟨1, .seq [.token 4, .rule 0 2]⟩]

def sums : ParserProgram := ⟨⟨"Sums", "SumTokens", ["sum"], {}⟩, "Sums", #[sumBody], 0⟩

/-- A token of one character at a place. -/
def letter (type : TokenType) (place : Nat) : Token :=
  ⟨type, defaultChannel, "", place, place + 1, {}, place⟩

theorem sums_guarded : Guarded sums.bodies := guarded_of_inOrder rfl

theorem sums_run_exact :
    let stream : TokenStream := ⟨[letter 1 0, letter 4 1, letter 1 2], []⟩
    Guarded sums.bodies ∧
      (∃ found s, (invoke sums.bodies stream.visible.toArray 2 ⟨0, 0, 0⟩).run {} = .ok (found, s) ∧
        stops found = [3, 1] ∧
        ExactMatches sums.bodies stream.visible.toArray ⟨0, 0, 0⟩ found) ∧
      ∃ r w, sums.parse "sum" stream 2 = .ok r ∧ Derives sums.bodies (.rule 0 0) w ∧
        w <+: types stream.visible.toArray := by
  intro stream
  have hrun : ∃ b c s, (invoke sums.bodies stream.visible.toArray 2 ⟨0, 0, 0⟩).run {} =
      .ok ([b, c], s) ∧ stops [b, c] = [3, 1] := by
    simp [stream, sums, sumBody, letter, TokenStream.visible, Token.isVisible, invoke, memoized,
      get, getThe, MonadStateOf.get, StateT.get, StateT.run, bind, StateT.bind, Except.bind, pure,
      stateT_pure, Except.pure, modify, modifyGet, MonadStateOf.modifyGet, StateT.modifyGet,
      matchBody, eval, evalChoice, evalSeq, matchToken, SearchState.remember, SearchState.refuse,
      extend, extendAll, Branch.distinct, keepFirst, Row.single, Row.empty, Row.then, visitAll,
      visit, growth, Search.round]
  obtain ⟨b, c, s, hrun, hstops⟩ := hrun
  have hrule : sums.ruleIndex? "sum" = some 0 := by decide
  obtain ⟨r, hparse, hroot⟩ := parse_of_search sums stream 2 hrule hrun
  refine ⟨sums_guarded, ⟨[b, c], s, hrun, hstops, ?_⟩, ?_⟩
  · rcases (run_exact sums sums_guarded stream).1 2 ⟨0, 0, 0⟩ with ⟨fault, h⟩ | ⟨_, _, h, hm, -⟩
    · rw [hrun] at h
      cases h
    · rw [hrun] at h
      cases h
      exact hm
  · rcases (run_exact sums sums_guarded stream).2 "sum" 0 2 hrule with ⟨name, h⟩ | ⟨_, h, hiff, -⟩
    · rw [hparse] at h
      cases h
    · rw [hparse] at h
      cases h
      obtain ⟨w, hw, hprefix⟩ := hiff.mp (by rw [hroot, Option.isSome_some])
      exact ⟨r, w, hparse, hw, hprefix⟩

end GrammarEngine.Parser

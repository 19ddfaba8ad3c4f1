import GrammarEngine.Proofs.Lexer.Advances
import GrammarEngine.Proofs.Lexer.Matches

/-!
# Token streams are positioned

The pieces of a text lie in it one behind the other. The tokens among them keep this order, are
numbered by their places in the stream, and carry the text of their span with the line and column
that the characters before it lead to; what is reported as not recognized is placed in the same way.
The token for the end stands behind the whole text. Lines and columns are words, which hold the
numbers themselves as long as fewer than 2^32 - 1 characters come before.
-/
namespace GrammarEngine

/-! ## Pieces -/

namespace Piece

/-- Where a piece lies in a text. -/
structure Within (whole : List Char) (q : Piece) : Prop where
  start : q.start.In whole
  stop : q.stop.In whole
  lt : q.start.offset < q.stop.offset

end Piece

namespace Advance

variable {a : Advance} {q : Piece}

/-- The piece of an advance, which is then finished. -/
theorem eq_of_piece? (h : a.piece? = some q) :
    q.start = a.start ∧ q.stop = a.stop ∧ a.isContinued = false := by
  cases heffect : a.effect with
  | none =>
      simp only [piece?, heffect, Option.some.injEq] at h
      subst h
      exact ⟨rfl, rfl, by simp [isContinued, heffect]⟩
  | some e =>
      simp only [piece?, heffect, Option.map_eq_some_iff] at h
      obtain ⟨kind, hkind, rfl⟩ := h
      refine ⟨rfl, rfl, ?_⟩
      by_contra hmore
      simp only [isContinued, heffect, Option.any_some, Bool.not_eq_false] at hmore
      simp [MatchEffect.kind?, hmore] at hkind

end Advance

namespace LexerProgram

variable (p : LexerProgram) (s : CharStream)

/-- The advances over a stream. -/
def advancesOf : List Advance := p.advances s.folding {} none {} s.text.toList

/-- The pieces of a stream. -/
def piecesOf : List Piece := p.pieces s.folding {} none {} s.text.toList

theorem piecesOf_eq : p.piecesOf s = (p.advancesOf s).filterMap Advance.piece? := pieces_eq

theorem advancesOf_trail : Trail none {} s.text.toList (p.advancesOf s) := advances_trail

theorem advancesOf_within : ∀ a ∈ p.advancesOf s, a.Within s.text.toList :=
  (p.advancesOf_trail s).within rfl (Place.in_after [] s.text.toList) (Nat.le_refl 0)

theorem piecesOf_within : ∀ q ∈ p.piecesOf s, q.Within s.text.toList := by
  intro q hq
  rw [piecesOf_eq] at hq
  obtain ⟨a, ha, hpiece⟩ := List.mem_filterMap.mp hq
  obtain ⟨hstart, hstop, -⟩ := Advance.eq_of_piece? hpiece
  have hwithin := p.advancesOf_within s a ha
  exact ⟨hstart ▸ hwithin.start, hstop ▸ hwithin.stop,
    by rw [hstart, hstop]; exact Nat.lt_of_le_of_lt hwithin.le hwithin.lt⟩

/-- Every piece begins where an earlier one has ended, or later. -/
theorem piecesOf_ordered : (p.piecesOf s).Pairwise fun q r => q.stop.offset ≤ r.start.offset := by
  rw [piecesOf_eq, List.pairwise_filterMap]
  refine ((p.advancesOf_trail s).ordered (Nat.le_refl 0)).2.imp fun hab q hq r hr => ?_
  obtain ⟨-, hstop, hfinished⟩ := Advance.eq_of_piece? hq
  obtain ⟨hstart, -, -⟩ := Advance.eq_of_piece? hr
  rw [hstop, hstart]
  exact hab hfinished

theorem length_piecesOf_le : (p.piecesOf s).length ≤ s.size := by
  rw [piecesOf_eq]
  exact Nat.le_trans (List.length_filterMap_le _ _) (p.advancesOf_trail s).length_le

end LexerProgram

/-! ## Tokens of pieces -/

namespace Piece

variable {s : CharStream} {index : Nat} {qs : List Piece} {t : Token}

theorem tokens_cons (s : CharStream) (index : Nat) (q : Piece) (qs : List Piece) :
    (∃ type channel, q.kind = .token type channel ∧
      tokens s index (q :: qs) = q.token s type channel index :: tokens s (index + 1) qs ∧
      q.fault? s = none) ∨
    tokens s index (q :: qs) = tokens s index qs := by
  cases h : q.kind with
  | token type channel => exact .inl ⟨type, channel, rfl, by simp [tokens, h], by simp [fault?, h]⟩
  | skipped => exact .inr (by simp [tokens, h])
  | unrecognized => exact .inr (by simp [tokens, h])

theorem exists_of_mem_tokens (h : t ∈ tokens s index qs) :
    ∃ q ∈ qs, ∃ type channel k, t = q.token s type channel k := by
  induction qs generalizing index with
  | nil => simp [tokens] at h
  | cons q qs ih =>
      have hlater : ∀ index, t ∈ tokens s index qs →
          ∃ r ∈ q :: qs, ∃ type channel k, t = r.token s type channel k := by
        intro index ht
        obtain ⟨r, hr, h⟩ := ih ht
        exact ⟨r, List.mem_cons_of_mem q hr, h⟩
      rcases tokens_cons s index q qs with ⟨type, channel, -, htokens, -⟩ | htokens
      · rw [htokens] at h
        rcases List.mem_cons.mp h with rfl | h
        · exact ⟨q, List.mem_cons_self, type, channel, index, rfl⟩
        · exact hlater (index + 1) h
      · rw [htokens] at h
        exact hlater index h

theorem exists_token_of_mem {q : Piece} {type : TokenType} {channel : UInt32} (index : Nat)
    (hq : q ∈ qs) (hkind : q.kind = .token type channel) :
    ∃ k, q.token s type channel k ∈ tokens s index qs := by
  induction qs generalizing index with
  | nil => cases hq
  | cons r qs ih =>
      rcases List.mem_cons.mp hq with rfl | hq
      · exact ⟨index, by simp [tokens, hkind]⟩
      · rcases tokens_cons s index r qs with ⟨_, _, -, htokens, -⟩ | htokens
        · obtain ⟨k, hk⟩ := ih (index + 1) hq
          exact ⟨k, htokens ▸ List.mem_cons_of_mem _ hk⟩
        · obtain ⟨k, hk⟩ := ih index hq
          exact ⟨k, htokens ▸ hk⟩

/-- Tokens are numbered by their places. -/
theorem index_of_getElem? {k : Nat} (h : (tokens s index qs)[k]? = some t) :
    t.index = index + k := by
  induction qs generalizing index k with
  | nil => simp [tokens] at h
  | cons q qs ih =>
      rcases tokens_cons s index q qs with ⟨type, channel, -, htokens, -⟩ | htokens
      · rw [htokens] at h
        cases k with
        | zero =>
            obtain rfl := Option.some.inj h
            rfl
        | succ k =>
            rw [List.getElem?_cons_succ] at h
            have := ih h
            omega
      · rw [htokens] at h
        exact ih h

theorem tokens_ordered (h : qs.Pairwise fun q r => q.stop.offset ≤ r.start.offset) :
    (tokens s index qs).Pairwise fun t u => t.stop ≤ u.start := by
  induction qs generalizing index with
  | nil => simp [tokens]
  | cons q qs ih =>
      obtain ⟨hq, hqs⟩ := List.pairwise_cons.mp h
      rcases tokens_cons s index q qs with ⟨type, channel, -, htokens, -⟩ | htokens
      · rw [htokens]
        refine .cons (fun u hu => ?_) (ih hqs)
        obtain ⟨r, hr, _, _, _, rfl⟩ := exists_of_mem_tokens hu
        exact hq r hr
      · rw [htokens]
        exact ih hqs

/-- A piece yields a token or a fault at most. -/
theorem length_tokens_add_le :
    (tokens s index qs).length + (qs.filterMap (fault? s)).length ≤ qs.length := by
  induction qs generalizing index with
  | nil => simp [tokens]
  | cons q qs ih =>
      rcases tokens_cons s index q qs with ⟨type, channel, -, htokens, hfault⟩ | htokens
      · rw [htokens, List.filterMap_cons_none hfault, List.length_cons, List.length_cons]
        have hrest := @ih (index + 1)
        omega
      · have hle :
            ((q :: qs).filterMap (fault? s)).length ≤ (qs.filterMap (fault? s)).length + 1 := by
          rw [List.filterMap_cons]
          split <;> simp
        rw [htokens, List.length_cons]
        have hrest := @ih index
        omega

end Piece

/-! ## Streams -/

/-- A fault shows the text between two offsets and the place of its first character. -/
structure InputFault.Quotes (s : CharStream) (start stop : Nat) (f : InputFault) : Prop where
  le : stop ≤ s.size
  cause : f.cause = .unrecognized (s.slice start stop)
  position : f.position.Behind (s.text.toList.take start)

theorem Piece.Within.quotes {s : CharStream} {q : Piece} {f : InputFault}
    (h : q.Within s.text.toList) (hf : q.fault? s = some f) :
    f.Quotes s q.start.offset q.stop.offset := by
  unfold Piece.fault? at hf
  split at hf
  · obtain rfl := Option.some.inj hf
    exact ⟨h.stop.le, rfl, h.start.behind⟩
  · cases hf

/-- A stream of tokens that are placed where they stand in the text, with a last one behind it. -/
structure TokenStream.Positioned (s : CharStream) (front : List Token) (last : Token)
    (stream : TokenStream) : Prop where
  tokens : stream.tokens = front ++ [last]
  nonempty : ∀ t ∈ front, t.start < t.stop
  ordered : stream.tokens.Pairwise fun t u => t.stop ≤ u.start
  inside : ∀ t ∈ stream.tokens, t.stop ≤ s.size
  text : ∀ t ∈ front, t.text = s.slice t.start t.stop
  index : ∀ (k : Nat) (t : Token), stream.tokens[k]? = some t → t.index = k
  position : ∀ t ∈ stream.tokens, t.position.Behind (s.text.toList.take t.start)
  faults : ∀ f ∈ stream.faults, ∃ start stop, start < stop ∧ f.Quotes s start stop
  last_type : last.type = TokenType.eof
  last_channel : last.channel = defaultChannel
  last_start : last.start = s.size
  last_stop : last.stop = s.size

namespace LexerProgram

variable (p : LexerProgram) (s : CharStream)

/-- The tokens of the text itself. -/
def frontOf : List Token := Piece.tokens s 0 (p.piecesOf s)

/-- The token behind them. -/
def lastOf : Token := Token.atEnd (Place.after {} s.text.toList) (p.frontOf s).length

theorem tokens_tokenize : (p.tokenize s).tokens = p.frontOf s ++ [p.lastOf s] := rfl

theorem faults_tokenize :
    (p.tokenize s).faults = (p.piecesOf s).filterMap (Piece.fault? s) := rfl

variable {p s}

theorem exists_piece_of_mem_frontOf {t : Token} (h : t ∈ p.frontOf s) :
    ∃ q ∈ p.piecesOf s, q.Within s.text.toList ∧
      ∃ type channel k, t = q.token s type channel k := by
  obtain ⟨q, hq, htoken⟩ := Piece.exists_of_mem_tokens h
  exact ⟨q, hq, p.piecesOf_within s q hq, htoken⟩

theorem start_lastOf : (p.lastOf s).start = s.size := by
  simp [lastOf, Token.atEnd, CharStream.size]

theorem stop_lastOf : (p.lastOf s).stop = s.size := by
  simp [lastOf, Token.atEnd, CharStream.size]

theorem position_lastOf :
    (p.lastOf s).position.Behind (s.text.toList.take (p.lastOf s).start) := by
  have hwhole : s.text.toList.take (p.lastOf s).start = s.text.toList := by
    rw [start_lastOf]
    exact List.take_of_length_le (Nat.le_refl _)
  rw [hwhole]
  exact InputPosition.behind_after _

theorem ordered_tokenize : (p.tokenize s).tokens.Pairwise fun t u => t.stop ≤ u.start := by
  rw [tokens_tokenize]
  refine List.pairwise_append.mpr
    ⟨Piece.tokens_ordered (p.piecesOf_ordered s), List.pairwise_singleton _ _, ?_⟩
  intro t ht u hu
  obtain ⟨q, -, hq, _, _, _, rfl⟩ := exists_piece_of_mem_frontOf ht
  rw [List.mem_singleton.mp hu, start_lastOf]
  exact hq.stop.le

theorem index_of_tokenize {k : Nat} {t : Token} (h : (p.tokenize s).tokens[k]? = some t) :
    t.index = k := by
  rw [tokens_tokenize] at h
  by_cases hk : k < (p.frontOf s).length
  · rw [List.getElem?_append_left hk] at h
    have := Piece.index_of_getElem? h
    omega
  · have hle : (p.frontOf s).length ≤ k := Nat.le_of_not_lt hk
    rw [List.getElem?_append_right hle] at h
    obtain ⟨hlast, hget⟩ := List.getElem?_eq_some_iff.mp h
    rw [List.length_singleton] at hlast
    have ht : p.lastOf s = t := by simpa using hget
    have hindex : t.index = (p.frontOf s).length := by
      rw [← ht]
      rfl
    omega

theorem positioned_tokenize : (p.tokenize s).Positioned s (p.frontOf s) (p.lastOf s) where
  tokens := rfl
  nonempty := by
    intro t ht
    obtain ⟨q, -, hq, _, _, _, rfl⟩ := exists_piece_of_mem_frontOf ht
    exact hq.lt
  ordered := ordered_tokenize
  inside := by
    intro t ht
    rcases List.mem_append.mp ht with ht | ht
    · obtain ⟨q, -, hq, _, _, _, rfl⟩ := exists_piece_of_mem_frontOf ht
      exact hq.stop.le
    · rw [List.mem_singleton.mp ht]
      exact Nat.le_of_eq stop_lastOf
  text := by
    intro t ht
    obtain ⟨q, -, -, _, _, _, rfl⟩ := exists_piece_of_mem_frontOf ht
    rfl
  index := fun k t => index_of_tokenize
  position := by
    intro t ht
    rcases List.mem_append.mp ht with ht | ht
    · obtain ⟨q, -, hq, _, _, _, rfl⟩ := exists_piece_of_mem_frontOf ht
      exact hq.start.behind
    · rw [List.mem_singleton.mp ht]
      exact position_lastOf
  faults := by
    intro f hf
    obtain ⟨q, hq, hfault⟩ := List.mem_filterMap.mp hf
    have hwithin := p.piecesOf_within s q hq
    exact ⟨q.start.offset, q.stop.offset, hwithin.lt, hwithin.quotes hfault⟩
  last_type := rfl
  last_channel := rfl
  last_start := start_lastOf
  last_stop := stop_lastOf

/-- Every advance adds a token or a fault at most, and then there is the one for the end. -/
theorem length_tokenize_le :
    (p.tokenize s).tokens.length + (p.tokenize s).faults.length ≤ s.size + 1 := by
  have hadd : (Piece.tokens s 0 (p.piecesOf s)).length +
      ((p.piecesOf s).filterMap (Piece.fault? s)).length ≤ (p.piecesOf s).length :=
    Piece.length_tokens_add_le
  have hle := p.length_piecesOf_le s
  rw [tokens_tokenize, faults_tokenize, List.length_append, List.length_singleton, frontOf]
  omega

/-- A lexer that is taken over finds the actions of every match that wins, whatever mode it is in
and whatever text is left, and the match is not empty and lies in that text. The lexer advances over
any stream within as many steps as there are characters, and its tokens stand where they say, the
last one for the end behind the whole text. What they say of lines and columns are the words of
these numbers, which are the numbers themselves wherever they fit. -/
theorem tokenize_positioned {header : LexerHeader} {images : List LexerRuleImage}
    (h : ofImages header images = .ok p) (s : CharStream) :
    (∀ mode text w, p.winner? s.folding.fold mode text = some w →
      0 < w.length ∧ w.length ≤ text.length ∧
        ∃ actions, w.rule.actions[w.alternative]? = some actions) ∧
    (p.advancesOf s).length ≤ s.size ∧
    (p.tokenize s).tokens.length + (p.tokenize s).faults.length ≤ s.size + 1 ∧
    ∃ front last, (p.tokenize s).Positioned s front last := by
  refine ⟨fun mode text w hw => ?_, (p.advancesOf_trail s).length_le, length_tokenize_le,
    p.frontOf s, p.lastOf s, positioned_tokenize⟩
  have hmatches := matches_of_winner? hw
  exact ⟨hmatches.pos, hmatches.length_le, exists_actions hmatches (supplied_of_ofImages h)⟩

/-- Words with an upper case letter in front and blanks between them. -/
def wordHeader : LexerHeader := ⟨"WordLexer", "Word", ["DEFAULT_MODE"], [], [], []⟩

def wordImages : List LexerRuleImage :=
  [⟨"WORD", 1, 0, false, [.char 65, .split 2 4, .char 98, .jump 1, .accept 0], [[]]⟩,
    ⟨"BLANK", 2, 0, false, [.char 10, .accept 0], [[.skip]]⟩]

/-- The second word stands in the second line, behind what is not recognized there. -/
theorem words_positioned :
    ∃ p, ofImages wordHeader wordImages = .ok p ∧
      p.tokenize ⟨"words", "Ab\n?Abb".toList.toArray, .none⟩ =
        ⟨[⟨1, 0, "Ab", 0, 2, ⟨1, 0⟩, 0⟩, ⟨1, 0, "Abb", 4, 7, ⟨2, 1⟩, 1⟩,
          ⟨TokenType.eof, 0, "<EOF>", 7, 7, ⟨2, 4⟩, 2⟩], [⟨⟨2, 0⟩, .unrecognized "?"⟩]⟩ ∧
      ∃ front last, (p.tokenize ⟨"words", "Ab\n?Abb".toList.toArray, .none⟩).Positioned
        ⟨"words", "Ab\n?Abb".toList.toArray, .none⟩ front last := by
  obtain ⟨p, hload⟩ : ∃ p, ofImages wordHeader wordImages = .ok p := ⟨_, rfl⟩
  have hpositioned := tokenize_positioned hload ⟨"words", "Ab\n?Abb".toList.toArray, .none⟩
  refine ⟨p, hload, ?_, hpositioned.2.2.2⟩
  obtain rfl := Except.ok.inj hload
  decide +kernel

end LexerProgram

end GrammarEngine

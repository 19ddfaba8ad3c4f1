import GrammarEngine.Proofs.Lexer.Streams

/-!
# Which characters a lexer accounts for

A character is accounted for by a token, by a match that is skipped, or by what is reported as not
recognized. All of them are, unless the last match of the text is to be continued and is not
skipped: then the text ends inside a piece, of which neither a token nor a fault tells.
-/
namespace GrammarEngine

/-! ## The end of a trail -/

namespace Advance

/-- A match that is to be continued, and does not skip what it has read so far. -/
def IsOpen (a : Advance) : Prop := a.isContinued = true ∧ a.isSkipped = false

instance (a : Advance) : Decidable a.IsOpen := inferInstanceAs (Decidable (_ ∧ _))

/-- An advance that is finished accounts for its text by a piece, if it is not skipped. -/
theorem piece?_of_not_isOpen {a : Advance} (h : ¬a.IsOpen) (hskip : a.isSkipped = false) :
    ∃ kind, kind ≠ .skipped ∧ a.piece? = some ⟨a.start, a.stop, kind⟩ := by
  have hmore : a.isContinued = false := by
    by_contra hmore
    exact h ⟨by simpa using hmore, hskip⟩
  cases heffect : a.effect with
  | none => exact ⟨.unrecognized, by simp, by simp [piece?, heffect]⟩
  | some e =>
      simp only [isContinued, isSkipped, heffect, Option.any_some] at hmore hskip
      refine ⟨.token e.type e.channel, by simp, ?_⟩
      simp [piece?, heffect, MatchEffect.kind?, hmore, hskip]

end Advance

namespace LexerProgram

variable {p : LexerProgram} {s : CharStream} {pending : Option Place} {here : Place}
  {text : List Char} {as : List Advance} {a : Advance} {i : Nat}

theorem Trail.here_le (h : Trail pending here text as) :
    ∀ a ∈ as, here.offset ≤ a.here.offset := by
  induction h with
  | nil => simp
  | cons _ _ hat hstop _ ih =>
      refine List.forall_mem_cons.mpr ⟨by rw [hat], fun b hb => ?_⟩
      have hle := ih b hb
      rw [hstop, Place.offset_after] at hle
      omega

/-- The last advance reaches the end of the text, and the others stop where it stands or before. -/
theorem Trail.of_getLast? (h : Trail pending here text as) (ha : as.getLast? = some a) :
    a.stop.offset = here.offset + text.length ∧
      ∀ b ∈ as, b = a ∨ b.stop.offset ≤ a.here.offset := by
  induction h with
  | nil => cases ha
  | @cons _ here b cs ds rest hcs _ hat hstop hrest ih =>
      cases hlast : rest.getLast? with
      | none =>
          obtain rfl := List.getLast?_eq_none_iff.mp hlast
          obtain rfl := hrest.eq_nil
          obtain rfl : b = a := by simpa using ha
          refine ⟨by rw [hstop, Place.offset_after, List.append_nil], fun c hc => ?_⟩
          exact .inl (List.mem_singleton.mp hc)
      | some c =>
          obtain rfl : c = a := by simpa [List.getLast?_cons, hlast] using ha
          obtain ⟨hend, hothers⟩ := ih hlast
          refine ⟨?_, List.forall_mem_cons.mpr ⟨.inr ?_, hothers⟩⟩
          · rw [hend, hstop, Place.offset_after, List.length_append]
            omega
          · exact hrest.here_le c (List.mem_of_getLast? hlast)

/-- Every character lies in the span of an advance that is not open, or of the last one. -/
theorem Trail.covers (h : Trail pending here text as) (hne : as ≠ [])
    (hle : (pending.getD here).offset ≤ here.offset) (hfrom : (pending.getD here).offset ≤ i)
    (hto : i < here.offset + text.length) :
    ∃ a ∈ as, (a.start.offset ≤ i ∧ i < a.stop.offset) ∧ (¬a.IsOpen ∨ as.getLast? = some a) := by
  induction h with
  | nil => exact absurd rfl hne
  | @cons pending here a cs ds rest hcs hstart hat hstop hrest ih =>
      have hbegin : a.start.offset ≤ i := by rw [hstart]; exact hfrom
      have hend : here.offset ≤ a.stop.offset := by
        rw [hstop, Place.offset_after]
        omega
      by_cases hrestnil : rest = []
      · subst hrestnil
        obtain rfl := hrest.eq_nil
        refine ⟨a, List.mem_cons_self, ⟨hbegin, ?_⟩, .inr rfl⟩
        rw [hstop, Place.offset_after]
        rwa [List.append_nil] at hto
      · by_cases hdone : i < a.stop.offset ∧ ¬a.IsOpen
        · exact ⟨a, List.mem_cons_self, ⟨hbegin, hdone.1⟩, .inl hdone.2⟩
        · have hfrom' : (a.pending.getD a.stop).offset ≤ i ∧
              (a.pending.getD a.stop).offset ≤ a.stop.offset := by
            unfold Advance.pending
            split
            · have hstop : a.start.offset ≤ a.stop.offset := by
                rw [hstart]
                exact Nat.le_trans hle hend
              exact ⟨hbegin, hstop⟩
            · next hfinished =>
              have hopen : ¬a.IsOpen := fun h => hfinished h.1
              exact ⟨Nat.le_of_not_lt fun hlt => hdone ⟨hlt, hopen⟩, Nat.le_refl _⟩
          obtain ⟨b, hb, hspan, hopen⟩ := ih hrestnil hfrom'.2 hfrom'.1 (by
            rw [hstop, Place.offset_after]
            rw [List.length_append] at hto
            omega)
          refine ⟨b, List.mem_cons_of_mem a hb, hspan, hopen.imp_right fun hlast => ?_⟩
          rw [List.getLast?_cons, hlast, Option.getD_some]

/-! ## Characters that are accounted for -/

variable (p s) in
/-- What accounts for the character at an offset: a token over it, a match with an action to skip it
that began before it, or a fault that shows it. Which characters a fault shows follows from its
piece, as the words of its place come around in a long text. -/
inductive Accounted (i : Nat) : Prop
  | token (t : Token) (mem : t ∈ (p.tokenize s).tokens) (span : t.start ≤ i ∧ i < t.stop)
  | skipped (a : Advance) (mem : a ∈ p.advancesOf s) (skip : a.isSkipped = true)
      (span : a.start.offset ≤ i ∧ i < a.stop.offset)
  | reported (f : InputFault) (mem : f ∈ (p.tokenize s).faults) (q : Piece)
      (piece : q ∈ p.piecesOf s) (fault : q.fault? s = some f)
      (quotes : f.Quotes s q.start.offset q.stop.offset)
      (span : q.start.offset ≤ i ∧ i < q.stop.offset)

theorem accounted_of_not_isOpen (ha : a ∈ p.advancesOf s) (hopen : ¬a.IsOpen)
    (hspan : a.start.offset ≤ i ∧ i < a.stop.offset) : p.Accounted s i := by
  cases hskip : a.isSkipped with
  | true => exact .skipped a ha hskip hspan
  | false =>
      obtain ⟨kind, hkind, hpiece⟩ := Advance.piece?_of_not_isOpen hopen hskip
      have hq : ⟨a.start, a.stop, kind⟩ ∈ p.piecesOf s := by
        rw [piecesOf_eq]
        exact List.mem_filterMap.mpr ⟨a, ha, hpiece⟩
      cases kind with
      | token type channel =>
          obtain ⟨k, hk⟩ := Piece.exists_token_of_mem 0 hq rfl
          exact .token _ (List.mem_append_left _ hk) hspan
      | skipped => exact absurd rfl hkind
      | unrecognized =>
          have hquotes := (p.piecesOf_within s _ hq).quotes rfl
          exact .reported _ (List.mem_filterMap.mpr ⟨_, hq, rfl⟩) _ hq rfl hquotes hspan

/-- What accounts for a character is a token, a skipped match or a fault of an advance over it. -/
theorem exists_advance_of_accounted (h : p.Accounted s i) :
    ∃ a ∈ p.advancesOf s, ¬a.IsOpen ∧ i < a.stop.offset := by
  have hpiece : ∀ q ∈ p.piecesOf s, i < q.stop.offset →
      ∃ a ∈ p.advancesOf s, ¬a.IsOpen ∧ i < a.stop.offset := by
    intro q hq hi
    rw [piecesOf_eq] at hq
    obtain ⟨a, ha, hpiece⟩ := List.mem_filterMap.mp hq
    obtain ⟨-, hstop, hfinished⟩ := Advance.eq_of_piece? hpiece
    exact ⟨a, ha, fun hopen => by simp [hopen.1] at hfinished, hstop ▸ hi⟩
  cases h with
  | token t ht hspan =>
      rcases List.mem_append.mp ht with ht | ht
      · obtain ⟨q, hq, -, _, _, _, rfl⟩ := exists_piece_of_mem_frontOf ht
        exact hpiece q hq hspan.2
      · have hlt : t.start < t.stop := Nat.lt_of_le_of_lt hspan.1 hspan.2
        rw [List.mem_singleton.mp ht] at hlt
        exact absurd hlt (Nat.lt_irrefl _)
  | skipped a ha hskip hspan => exact ⟨a, ha, fun hopen => by simp [hopen.2] at hskip, hspan.2⟩
  | reported f hf q hq hfault hquotes hspan => exact hpiece q hq hspan.2

theorem accounted_or_last (hi : i < s.size) :
    p.Accounted s i ∨ ∃ a, (p.advancesOf s).getLast? = some a ∧ a.IsOpen ∧ a.start.offset ≤ i := by
  have htrail := p.advancesOf_trail s
  have hne : p.advancesOf s ≠ [] := by
    intro hnil
    rw [hnil] at htrail
    have hempty : s.size = 0 := congrArg List.length htrail.eq_nil
    omega
  obtain ⟨a, ha, hspan, hopen⟩ := htrail.covers hne (Nat.le_refl 0) (Nat.zero_le i)
    (Nat.lt_of_lt_of_eq hi (Nat.zero_add _).symm)
  by_cases h : a.IsOpen
  · exact .inr ⟨a, hopen.resolve_left (not_not_intro h), h, hspan.1⟩
  · exact .inl (accounted_of_not_isOpen ha h hspan)

/-- Of a text that ends inside a piece, the last character is not accounted for. -/
theorem not_accounted_of_isOpen (ha : (p.advancesOf s).getLast? = some a) (hopen : a.IsOpen) :
    ¬p.Accounted s (s.size - 1) := by
  intro h
  obtain ⟨b, hb, hclosed, hlt⟩ := exists_advance_of_accounted h
  obtain ⟨hend, hothers⟩ := (p.advancesOf_trail s).of_getLast? ha
  have hstop : a.stop.offset = s.size := hend.trans (Nat.zero_add _)
  have hhere := (p.advancesOf_within s a (List.mem_of_getLast? ha)).lt
  rcases hothers b hb with rfl | hbefore
  · exact hclosed hopen
  · omega

/-- Every character of a stream is accounted for, except from where an unfinished piece begins at
the end of the stream. Of such a piece the last character is lost. -/
theorem accounted_iff_finished (p : LexerProgram) (s : CharStream) :
    ((∀ i < s.size, p.Accounted s i) ↔
      ∀ a, (p.advancesOf s).getLast? = some a → ¬a.IsOpen) ∧
    ∀ a, (p.advancesOf s).getLast? = some a → ∀ i < a.start.offset, p.Accounted s i := by
  refine ⟨⟨fun hall a ha hopen => ?_, fun hfinished i hi => ?_⟩, fun a ha i hi => ?_⟩
  · refine not_accounted_of_isOpen ha hopen (hall _ ?_)
    have hwithin := p.advancesOf_within s a (List.mem_of_getLast? ha)
    have hle : a.stop.offset ≤ s.size := hwithin.stop.le
    have hlt := hwithin.lt
    omega
  · rcases accounted_or_last hi with h | ⟨a, ha, hopen, -⟩
    · exact h
    · exact absurd hopen (hfinished a ha)
  · have hle : a.start.offset ≤ s.size :=
      (p.advancesOf_within s a (List.mem_of_getLast? ha)).start.le
    rcases accounted_or_last (Nat.lt_of_lt_of_le hi hle) with h | ⟨b, hb, -, hb'⟩
    · exact h
    · obtain rfl : a = b := Option.some.inj (ha.symm.trans hb)
      exact absurd hb' (Nat.not_le.mpr hi)

/-- A text that ends inside a quotation looks as if nothing stood behind its first letter. -/
example :
    ofImages ⟨"QuoteLexer", "Quote", ["DEFAULT_MODE"], [], [], []⟩
        [⟨"LETTER", 1, 0, false, [.char 97, .accept 0], [[]]⟩,
          ⟨"QUOTE", 2, 0, false, [.char 34, .accept 0], [[.more]]⟩] =
      .ok ⟨"QuoteLexer", "Quote", ["DEFAULT_MODE"], [], ⟨[]⟩,
        [⟨"LETTER", 1, 0, false, #[.char 97, .accept 0], #[[]]⟩,
          ⟨"QUOTE", 2, 0, false, #[.char 34, .accept 0], #[[.more]]⟩]⟩ ∧
    tokenize ⟨"QuoteLexer", "Quote", ["DEFAULT_MODE"], [], ⟨[]⟩,
        [⟨"LETTER", 1, 0, false, #[.char 97, .accept 0], #[[]]⟩,
          ⟨"QUOTE", 2, 0, false, #[.char 34, .accept 0], #[[.more]]⟩]⟩
        ⟨"quote", "a\"".toList.toArray, .none⟩ =
      ⟨[⟨1, 0, "a", 0, 1, ⟨1, 0⟩, 0⟩, ⟨TokenType.eof, 0, "<EOF>", 2, 2, ⟨1, 2⟩, 1⟩], []⟩ := by
  exact ⟨rfl, by decide +kernel⟩

end LexerProgram

end GrammarEngine

import GrammarEngine.Proofs.Checked
import GrammarEngine.Proofs.Image.Encoding

/-!
# Payloads that are cut short

A reader that does not run out of bytes takes no notice of the bytes behind those that it reads. So
where a whole payload is read to its end, every shorter beginning of it runs out of bytes.
-/
namespace GrammarEngine.Image

variable {α β : Type}

/-- Unless the first reader runs out of bytes, the second one does the same with more of them. -/
def Continues (x y : Reader α) : Prop :=
  ∀ bytes more, x bytes = .error .endOfBuffer ∨
    y (bytes ++ more) = (x bytes).map fun r => (r.1, r.2 ++ more)

namespace Continues

theorem pure (a : α) : Continues (Pure.pure a) (Pure.pure a) := fun _ _ => .inr rfl

theorem throw (fault : DecodeFault) :
    Continues (MonadExcept.throw fault : Reader α) (MonadExcept.throw fault) :=
  fun _ _ => .inr rfl

/-- A reader that has run out of bytes may be continued in any way. -/
theorem endOfBuffer (y : Reader α) : Continues (MonadExcept.throw .endOfBuffer) y :=
  fun _ _ => .inl rfl

theorem bind {x y : Reader α} {f g : α → Reader β} (hx : Continues x y)
    (hf : ∀ a, Continues (f a) (g a)) : Continues (x >>= f) (y >>= g) := by
  intro bytes more
  cases hrun : x bytes with
  | error fault =>
      rcases hx bytes more with hend | hmore
      · exact .inl (by simp [Bind.bind, StateT.bind, Except.bind, hend])
      · exact .inr (by simp [Bind.bind, StateT.bind, Except.bind, hmore, hrun, Except.map])
  | ok r =>
      have hmore : y (bytes ++ more) = .ok (r.1, r.2 ++ more) := by
        rcases hx bytes more with hend | hmore
        · cases hrun.symm.trans hend
        · rw [hmore, hrun]
          rfl
      rcases hf r.1 r.2 more with hend | hrest
      · exact .inl (by simp [Bind.bind, StateT.bind, Except.bind, hrun, hend])
      · exact .inr (by simp [Bind.bind, StateT.bind, Except.bind, hrun, hmore, hrest])

theorem map {x y : Reader α} (hx : Continues x y) (f : α → β) :
    Continues (x >>= fun a => Pure.pure (f a)) (y >>= fun a => Pure.pure (f a)) :=
  hx.bind fun a => pure (f a)

/-! ## Numbers, texts and lists -/

theorem groups (top room : Nat) : Continues (takeGroups top room) (takeGroups top room) := by
  intro bytes more
  induction room generalizing bytes with
  | zero => exact .inr rfl
  | succ room ih =>
      cases bytes with
      | nil => exact .inl rfl
      | cons b rest =>
          simp only [takeGroups, List.cons_append]
          split
          · split <;> exact .inr rfl
          · rcases ih rest with hend | hmore
            · exact .inl (by rw [hend])
            · rw [hmore]
              cases takeGroups top room rest with
              | error fault => exact .inr rfl
              | ok r => exact .inr rfl

theorem word : Continues takeWord takeWord := groups 15 5

theorem u32 : Continues takeU32 takeU32 := word.map UInt32.ofNat

theorem i32 : Continues takeI32 takeI32 := word.map unzigzag

theorem byte : Continues takeByte takeByte := by
  intro bytes more
  cases bytes with
  | nil => exact .inl rfl
  | cons b rest => exact .inr rfl

theorem bool : Continues takeBool takeBool := by
  refine byte.bind fun b => ?_
  split
  · exact pure false
  · split
    · exact pure true
    · exact throw .badBool

theorem bytes (n : Nat) : Continues (takeBytes n) (takeBytes n) := by
  intro bytes more
  unfold takeBytes
  split
  · next hle =>
    have hmore : n ≤ (bytes ++ more).length := by
      rw [List.length_append]
      omega
    rw [if_pos hmore, List.take_append_of_le_length hle, List.drop_append_of_le_length hle]
    exact .inr rfl
  · exact .inl rfl

theorem string : Continues takeString takeString := by
  refine (groups 1 10).bind fun n => (bytes n).bind fun text => ?_
  split
  · exact pure _
  · exact throw .badUtf8

theorem option {x : Reader α} (hx : Continues x x) : Continues (takeOption x) (takeOption x) := by
  refine byte.bind fun b => ?_
  split
  · exact pure none
  · split
    · exact hx.map some
    · exact throw .badOption

theorem items {x y : Reader α} (h : Continues x y) (n : Nat) :
    Continues (takeItems x n) (takeItems y n) := by
  induction n with
  | zero => exact pure []
  | succ n ih => exact h.bind fun a => ih.map (a :: ·)

theorem list {x y : Reader α} (h : Continues x y) : Continues (takeList x) (takeList y) :=
  (groups 1 10).bind h.items

/-! ## Parts of images -/

theorem range : Continues takeRange takeRange := u32.bind fun first => u32.map (first, ·)

theorem instruction : Continues takeInstruction takeInstruction := by
  refine word.bind fun number => ?_
  split
  · exact u32.map Instruction.char
  · exact range.list.bind fun ranges => bool.map (Instruction.ranges ranges)
  · exact pure Instruction.any
  · exact u32.bind fun first => u32.map (Instruction.split first)
  · exact u32.map Instruction.jump
  · exact u32.map Instruction.accept
  · exact throw .unknownVariant

theorem action : Continues takeAction takeAction := by
  refine word.bind fun number => ?_
  split
  · exact pure LexerAction.skip
  · exact pure LexerAction.more
  · exact u32.map LexerAction.channel
  · exact i32.map LexerAction.type
  · exact u32.map LexerAction.mode
  · exact u32.map LexerAction.pushMode
  · exact pure LexerAction.popMode
  · exact throw .unknownVariant

theorem entry : Continues takeEntry takeEntry :=
  i32.bind fun type => string.bind fun symbolic => string.option.map (TokenEntry.mk type symbolic)

theorem lexerHeader : Continues takeLexerHeader takeLexerHeader :=
  string.bind fun name => string.bind fun grammar => string.list.bind fun modes =>
    string.list.bind fun channels => entry.list.bind fun vocabulary =>
      string.list.map (LexerHeader.mk name grammar modes channels vocabulary)

theorem lexerRule : Continues takeLexerRule takeLexerRule :=
  string.bind fun name => i32.bind fun type => u32.bind fun mode => bool.bind fun shortest =>
    instruction.list.bind fun program =>
      action.list.list.map (LexerRuleImage.mk name type mode shortest program)

/-- The depth that is admitted grows with the bytes at hand, so the second reader may go deeper than
the first one. -/
theorem expr {depth deeper : Nat} (h : depth ≤ deeper) :
    Continues (takeExpr depth) (takeExpr deeper) := by
  induction depth generalizing deeper with
  | zero => exact endOfBuffer _
  | succ depth ih =>
      obtain ⟨deeper, rfl⟩ := Nat.exists_eq_add_of_le' h
      have hbody : Continues (takeExpr depth) (takeExpr (deeper + depth)) := ih (by omega)
      refine word.bind fun number => ?_
      split
      · exact pure ParseExpr.empty
      · exact i32.map ParseExpr.token
      · exact i32.list.map ParseExpr.notTokens
      · exact pure ParseExpr.anyToken
      · exact u32.bind fun index => u32.map (ParseExpr.rule index)
      · exact hbody.list.map ParseExpr.seq
      · exact hbody.list.map ParseExpr.choice
      · exact hbody.bind fun body => bool.map (ParseExpr.optional body)
      · exact hbody.bind fun body => bool.map (ParseExpr.star body)
      · exact hbody.bind fun body => bool.map (ParseExpr.plus body)
      · exact throw .unknownVariant

theorem exprHere : Continues takeExprHere takeExprHere := by
  intro bytes more
  have hdepth : bytes.length ≤ (bytes ++ more).length := by
    rw [List.length_append]
    omega
  exact expr hdepth bytes more

theorem suffix : Continues takeSuffix takeSuffix :=
  u32.bind fun precedence => exprHere.map (Suffix.mk precedence)

theorem body : Continues takeBody takeBody := by
  refine word.bind fun number => ?_
  split
  · exact exprHere.map RuleBody.plain
  · exact exprHere.bind fun primary => suffix.list.map (RuleBody.leftRecursive primary)
  · exact throw .unknownVariant

theorem parserHeader : Continues takeParserHeader takeParserHeader :=
  string.bind fun name => string.bind fun grammar => string.bind fun vocabularyUnit =>
    string.list.bind fun ruleNames => string.list.bind fun ruleUnits =>
      u32.map (ParserHeader.mk name grammar vocabularyUnit ruleNames ruleUnits)

theorem parserRule : Continues takeParserRule takeParserRule :=
  string.bind fun name => u32.bind fun index => body.map (ParserRuleImage.mk name index)

theorem library : Continues takeLibrary takeLibrary :=
  string.bind fun name => string.list.bind fun fragments =>
    string.list.map (LibraryHeader.mk name fragments)

theorem image : Continues takeImage takeImage := by
  refine word.bind fun number => ?_
  split
  · exact lexerHeader.map UnitImage.lexerHeader
  · exact lexerRule.map UnitImage.lexerRule
  · exact parserHeader.map UnitImage.parserHeader
  · exact parserRule.map UnitImage.parserRule
  · exact library.map UnitImage.library
  · exact throw .unknownVariant

end Continues

/-! ## Whole payloads -/

/-- What a reader takes to the end is not read from less. -/
theorem Continues.endOfBuffer_of_takes {x : Reader α} (hx : Continues x x) {front back : Bytes}
    {a : α} (h : Takes x (front ++ back) a) (hback : back ≠ []) :
    x front = .error .endOfBuffer := by
  rcases hx front back with hend | hmore
  · exact hend
  · have hall := h []
    rw [List.append_nil, hmore] at hall
    obtain ⟨r, -, hr⟩ := map_eq_ok.mp hall
    exact absurd (List.append_eq_nil_iff.mp (Prod.mk.inj hr).2).2 hback

/-- Whatever follows a payload, the image is decoded from it. -/
theorem decode_encode_append {image : UnitImage} (h : (encode image).length < 2 ^ 64)
    (more : Bytes) : decode (encode image ++ more) = .ok image := by
  rw [encode, List.length_append] at h
  have hbody : takeImage (putImage image ++ more) = .ok (image, more) :=
    takes_image (by omega) more
  have hmarked : marking.isPrefixOf? (encode image ++ more) = some (putImage image ++ more) := rfl
  simp only [decode, hmarked, hbody]

/-- A payload that is cut short lacks a part of the marking or runs out of bytes. -/
theorem decode_of_cut {image : UnitImage} (h : (encode image).length < 2 ^ 64)
    {payload : Bytes} (hcut : payload <+: encode image) (hne : payload ≠ encode image) :
    decode payload = .error
      (if payload.length < marking.length then .badMarking else .unreadable .endOfBuffer) := by
  obtain ⟨back, hback⟩ := hcut
  have hnonempty : back ≠ [] := by
    rintro rfl
    exact hne (by rw [← hback, List.append_nil])
  split
  · next hshort =>
    have hmarked : marking.isPrefixOf? payload = none := by
      apply Option.eq_none_iff_forall_ne_some.mpr
      intro body hbody
      have hsplit : marking ++ body = payload := List.isPrefixOf?_eq_some_iff_append_eq.mp hbody
      rw [← hsplit, List.length_append] at hshort
      omega
    simp only [decode, hmarked]
  · next hlong =>
    obtain ⟨body, rfl⟩ : ∃ body, payload = marking ++ body := by
      have hmarking : marking <+: payload :=
        List.prefix_of_prefix_length_le (List.prefix_append marking (putImage image))
          ⟨back, hback⟩ (Nat.le_of_not_lt hlong)
      obtain ⟨body, hbody⟩ := hmarking
      exact ⟨body, hbody.symm⟩
    rw [encode, List.append_assoc] at hback
    have hwhole := List.append_cancel_left hback
    rw [encode, List.length_append] at h
    have htakes : Takes takeImage (body ++ back) image := hwhole ▸ takes_image (by omega)
    have hbody := Continues.image.endOfBuffer_of_takes htakes hnonempty
    have hmarked : marking.isPrefixOf? (marking ++ body) = some body := rfl
    simp only [decode, hmarked, hbody]

end GrammarEngine.Image

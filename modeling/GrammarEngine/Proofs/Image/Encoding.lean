import GrammarEngine.Image.Encoding
import Mathlib.Algebra.Group.Nat.Defs

/-!
# Images are read back from their bytes

A reader takes bytes for a value if it yields the value and leaves whatever follows the bytes. Every
part of an image is taken from the bytes that are written for it, as long as these are fewer than a
length can count. Every part is written as at least one byte, so the length of a list is bounded by
the length of its bytes.
-/
namespace GrammarEngine.Image

variable {α β : Type}

/-- The reader yields the value from these bytes and leaves what follows them. -/
def Takes (x : Reader α) (bytes : Bytes) (a : α) : Prop :=
  ∀ rest, x (bytes ++ rest) = .ok (a, rest)

theorem takes_pure (a : α) : Takes (pure a) [] a := fun _ => rfl

theorem Takes.bind {x : Reader α} {f : α → Reader β} {front back : Bytes} {a : α} {b : β}
    (hx : Takes x front a) (hf : Takes (f a) back b) : Takes (x >>= f) (front ++ back) b := by
  intro rest
  have hfirst : x (front ++ (back ++ rest)) = .ok (a, back ++ rest) := hx (back ++ rest)
  have hsecond : f a (back ++ rest) = .ok (b, rest) := hf rest
  simp [Bind.bind, StateT.bind, hfirst, hsecond, Except.bind]

theorem Takes.map {x : Reader α} {bytes : Bytes} {a : α} (hx : Takes x bytes a) (f : α → β) :
    Takes (x >>= fun a => pure (f a)) bytes (f a) := by
  have h : Takes (x >>= fun a => pure (f a)) (bytes ++ []) (f a) := hx.bind (takes_pure (f a))
  rwa [List.append_nil] at h

/-! ## Numbers -/

theorem length_putNat_pos (n : Nat) : 0 < (putNat n).length := by
  unfold putNat
  split <;> simp

theorem toNat_byte {n : Nat} (h : n < 256) : (UInt8.ofNat n).toNat = n :=
  UInt8.toNat_ofNat_of_lt h

/-- The induction is on the number of groups that may still be read. -/
theorem takeGroups_putNat {top n : Nat} (room : Nat) (htop : top < 128)
    (h : n < (top + 1) * 128 ^ room) (rest : Bytes) :
    takeGroups top (room + 1) (putNat n ++ rest) = .ok (n, rest) := by
  induction room generalizing n with
  | zero =>
      have hle : n ≤ top := by omega
      have hbyte : (UInt8.ofNat n).toNat = n := toNat_byte (by omega)
      rw [putNat, if_pos (by omega)]
      simp only [List.singleton_append, takeGroups, hbyte]
      rw [if_pos (by omega), if_neg (by simpa using hle)]
  | succ room ih =>
      rw [putNat]
      split
      · next hlt =>
        have hbyte : (UInt8.ofNat n).toNat = n := toNat_byte (by omega)
        simp only [List.singleton_append, takeGroups, hbyte]
        rw [if_pos hlt, if_neg (by simp)]
      · next hge =>
        have hbyte : (UInt8.ofNat (n % 128 + 128)).toNat = n % 128 + 128 :=
          toNat_byte (by omega)
        have hquotient : n / 128 < (top + 1) * 128 ^ room := by
          rw [Nat.div_lt_iff_lt_mul (by decide)]
          rwa [Nat.pow_succ, ← Nat.mul_assoc] at h
        simp only [List.cons_append]
        rw [takeGroups, hbyte, if_neg (by omega), ih hquotient]
        simp only [Except.ok.injEq, Prod.mk.injEq, and_true]
        omega

theorem takes_length {n : Nat} (h : n < 2 ^ 64) : Takes takeLength (putNat n) n :=
  fun rest => takeGroups_putNat 9 (by decide) (by omega) rest

theorem takes_word {n : Nat} (h : n < 2 ^ 32) : Takes takeWord (putNat n) n :=
  fun rest => takeGroups_putNat 4 (by decide) (by omega) rest

theorem takes_u32 (n : UInt32) : Takes takeU32 (putU32 n) n := by
  have h : Takes takeU32 (putU32 n) (UInt32.ofNat n.toNat) :=
    (takes_word n.toNat_lt).map UInt32.ofNat
  rwa [UInt32.ofNat_toNat] at h

theorem zigzag_lt (n : Int32) : zigzag n < 2 ^ 32 := by
  have hlow := n.le_toInt
  have hhigh := n.toInt_lt
  unfold zigzag
  split <;> omega

theorem unzigzag_zigzag (n : Int32) : unzigzag (zigzag n) = n := by
  unfold zigzag unzigzag
  split
  · next h =>
    have heven : (2 * n.toInt).toNat % 2 = 0 := by omega
    have hhalf : (((2 * n.toInt).toNat / 2 : Nat) : Int) = n.toInt := by omega
    rw [if_pos (by simpa using heven), hhalf, Int32.ofInt_toInt]
  · next h =>
    have hodd : ((-2 * n.toInt - 1).toNat % 2 == 0) = false := by
      rw [beq_eq_false_iff_ne]
      omega
    have hhalf : -((((-2 * n.toInt - 1).toNat + 1) / 2 : Nat) : Int) = n.toInt := by omega
    rw [hodd, if_neg Bool.false_ne_true, hhalf, Int32.ofInt_toInt]

theorem takes_i32 (n : Int32) : Takes takeI32 (putI32 n) n := by
  have h : Takes takeI32 (putI32 n) (unzigzag (zigzag n)) := (takes_word (zigzag_lt n)).map unzigzag
  rwa [unzigzag_zigzag] at h

/-! ## Parts of images -/

/-- Values are written as at least one byte and, where their bytes can be counted, read back. -/
structure Restores (put : α → Bytes) (take : Reader α) : Prop where
  length_pos : ∀ a, 0 < (put a).length
  takes : ∀ a, (put a).length < 2 ^ 64 → Takes take (put a) a

theorem restores_u32 : Restores putU32 takeU32 where
  length_pos n := length_putNat_pos n.toNat
  takes n _ := takes_u32 n

theorem restores_i32 : Restores putI32 takeI32 where
  length_pos n := length_putNat_pos (zigzag n)
  takes n _ := takes_i32 n

theorem restores_bool : Restores putBool takeBool where
  length_pos _ := Nat.one_pos
  takes b _ := by
    cases b <;> exact fun rest => rfl

theorem takes_bytes (bytes : Bytes) : Takes (takeBytes bytes.length) bytes bytes := by
  intro rest
  simp [takeBytes]

theorem restores_string : Restores putString takeString where
  length_pos s := by
    have h := length_putNat_pos (Text.utf8 s).length
    rw [putString, List.length_append]
    omega
  takes s h := by
    rw [putString, List.length_append] at h
    refine (takes_length (by omega)).bind ?_
    intro rest
    have hbytes := takes_bytes (Text.utf8 s) rest
    simp only [bind, StateT.bind, hbytes, Except.bind, Text.ofUtf8?_utf8]
    rfl

theorem Restores.option {put : α → Bytes} {take : Reader α} (h : Restores put take) :
    Restores (putOption put) (takeOption take) where
  length_pos o := by cases o <;> simp [putOption]
  takes o hlength := by
    have hmark (b : UInt8) : Takes takeByte [b] b := fun rest => rfl
    cases o with
    | none => exact (hmark 0).bind (takes_pure none)
    | some a =>
        rw [putOption, List.length_cons] at hlength
        exact (hmark 1).bind ((h.takes a (by omega)).map some)

theorem Restores.length_le {put : α → Bytes} {take : Reader α} (h : Restores put take)
    (items : List α) : items.length ≤ (items.flatMap put).length := by
  induction items with
  | nil => exact Nat.zero_le _
  | cons a rest ih =>
      have hpos := h.length_pos a
      rw [List.flatMap_cons, List.length_append, List.length_cons]
      omega

theorem Restores.takes_items {put : α → Bytes} {take : Reader α} (h : Restores put take)
    {items : List α} (hlength : (items.flatMap put).length < 2 ^ 64) :
    Takes (takeItems take items.length) (items.flatMap put) items := by
  induction items with
  | nil => exact takes_pure []
  | cons a rest ih =>
      rw [List.flatMap_cons, List.length_append] at hlength
      rw [List.flatMap_cons]
      exact (h.takes a (by omega)).bind ((ih (by omega)).map (a :: ·))

theorem Restores.list {put : α → Bytes} {take : Reader α} (h : Restores put take) :
    Restores (putList put) (takeList take) where
  length_pos items := by
    have hpos := length_putNat_pos items.length
    rw [putList, List.length_append]
    omega
  takes items hlength := by
    rw [putList, List.length_append] at hlength
    have hitems := h.length_le items
    exact (takes_length (by omega)).bind (h.takes_items (by omega))

/-! ## Lexer images -/

theorem restores_range : Restores putRange takeRange where
  length_pos r := by
    have hpos := restores_u32.length_pos r.1
    rw [putRange, List.length_append]
    omega
  takes r _ := (takes_u32 r.1).bind ((takes_u32 r.2).map fun second => (r.1, second))

/-- A tag in front of the parts of an alternative. -/
theorem takes_tag {n : Nat} (h : n < 2 ^ 32) {f : Nat → Reader α} {bytes : Bytes} {a : α}
    (hf : Takes (f n) bytes a) : Takes (takeWord >>= f) (putNat n ++ bytes) a :=
  (takes_word h).bind hf

theorem length_tag_pos (n : Nat) (bytes : Bytes) : 0 < (putNat n ++ bytes).length := by
  have hpos := length_putNat_pos n
  rw [List.length_append]
  omega

theorem restores_instruction : Restores putInstruction takeInstruction where
  length_pos i := by
    cases i <;> simp only [putInstruction, List.append_assoc] <;>
      first | exact length_putNat_pos _ | exact length_tag_pos _ _
  takes i h := by
    cases i with
    | char code => exact takes_tag (by decide) ((takes_u32 code).map Instruction.char)
    | ranges ranges negated =>
        simp only [putInstruction, List.length_append] at h
        rw [putInstruction, List.append_assoc]
        refine takes_tag (by decide) ((restores_range.list.takes ranges (by omega)).bind ?_)
        exact (restores_bool.takes negated (by omega)).map (Instruction.ranges ranges)
    | any =>
        rw [putInstruction, ← List.append_nil (putNat 2)]
        exact takes_tag (by decide) (takes_pure Instruction.any)
    | split first second =>
        rw [putInstruction, List.append_assoc]
        have hsecond := (takes_u32 second).map (Instruction.split first)
        exact takes_tag (by decide) ((takes_u32 first).bind hsecond)
    | jump target => exact takes_tag (by decide) ((takes_u32 target).map Instruction.jump)
    | accept alternative =>
        exact takes_tag (by decide) ((takes_u32 alternative).map Instruction.accept)

theorem restores_action : Restores putAction takeAction where
  length_pos a := by
    cases a <;> first | exact length_putNat_pos _ | exact length_tag_pos _ _
  takes a _ := by
    cases a with
    | skip =>
        rw [putAction, ← List.append_nil (putNat 0)]
        exact takes_tag (by decide) (takes_pure LexerAction.skip)
    | more =>
        rw [putAction, ← List.append_nil (putNat 1)]
        exact takes_tag (by decide) (takes_pure LexerAction.more)
    | channel channel => exact takes_tag (by decide) ((takes_u32 channel).map LexerAction.channel)
    | type type => exact takes_tag (by decide) ((takes_i32 type).map LexerAction.type)
    | mode mode => exact takes_tag (by decide) ((takes_u32 mode).map LexerAction.mode)
    | pushMode mode => exact takes_tag (by decide) ((takes_u32 mode).map LexerAction.pushMode)
    | popMode =>
        rw [putAction, ← List.append_nil (putNat 6)]
        exact takes_tag (by decide) (takes_pure LexerAction.popMode)

theorem restores_entry : Restores putEntry takeEntry where
  length_pos e := by
    have hpos := restores_i32.length_pos e.type
    simp only [putEntry, List.length_append]
    omega
  takes e h := by
    simp only [putEntry, List.length_append] at h
    simp only [putEntry, List.append_assoc]
    refine (takes_i32 e.type).bind ((restores_string.takes e.symbolic (by omega)).bind ?_)
    exact (restores_string.option.takes e.literal (by omega)).map fun literal =>
    TokenEntry.mk e.type e.symbolic literal

theorem takes_lexerHeader {h : LexerHeader} (hlength : (putLexerHeader h).length < 2 ^ 64) :
    Takes takeLexerHeader (putLexerHeader h) h := by
  simp only [putLexerHeader, List.length_append] at hlength
  simp only [putLexerHeader, List.append_assoc]
  refine (restores_string.takes h.name (by omega)).bind ?_
  refine (restores_string.takes h.grammar (by omega)).bind ?_
  refine (restores_string.list.takes h.modes (by omega)).bind ?_
  refine (restores_string.list.takes h.channels (by omega)).bind ?_
  refine (restores_entry.list.takes h.vocabulary (by omega)).bind ?_
  exact (restores_string.list.takes h.ruleUnits (by omega)).map fun units =>
    LexerHeader.mk h.name h.grammar h.modes h.channels h.vocabulary units

theorem takes_lexerRule {r : LexerRuleImage} (hlength : (putLexerRule r).length < 2 ^ 64) :
    Takes takeLexerRule (putLexerRule r) r := by
  simp only [putLexerRule, List.length_append] at hlength
  simp only [putLexerRule, List.append_assoc]
  refine (restores_string.takes r.name (by omega)).bind ?_
  refine (takes_i32 r.tokenType).bind ((takes_u32 r.mode).bind ?_)
  refine (restores_bool.takes r.shortest (by omega)).bind ?_
  refine (restores_instruction.list.takes r.program (by omega)).bind ?_
  exact (restores_action.list.list.takes r.actions (by omega)).map fun actions =>
    LexerRuleImage.mk r.name r.tokenType r.mode r.shortest r.program actions

/-! ## Parser images -/

theorem length_putExpr_pos (e : ParseExpr) : 0 < (putExpr e).length := by
  cases e <;> simp only [putExpr, List.append_assoc] <;>
    first | exact length_putNat_pos _ | exact length_tag_pos _ _

theorem length_le_putExprs (es : List ParseExpr) : es.length ≤ (putExprs es).length := by
  induction es with
  | nil => exact Nat.zero_le _
  | cons e rest ih =>
      have hpos := length_putExpr_pos e
      rw [putExprs, List.length_append, List.length_cons]
      omega

mutual
/-- The induction follows the nesting of expressions; every level of it is at least one byte, so the
depth that the bytes admit is enough. -/
theorem takes_expr : ∀ (e : ParseExpr) (depth : Nat), (putExpr e).length ≤ depth →
    (putExpr e).length < 2 ^ 64 → Takes (takeExpr depth) (putExpr e) e
  | e, 0, hdepth, _ => by
      have hpos := length_putExpr_pos e
      omega
  | .empty, depth + 1, _, _ => by
      rw [putExpr, ← List.append_nil (putNat 0)]
      exact takes_tag (by decide) (takes_pure ParseExpr.empty)
  | .token type, depth + 1, _, _ => by
      rw [putExpr]
      exact takes_tag (by decide) ((takes_i32 type).map ParseExpr.token)
  | .notTokens types, depth + 1, _, h => by
      rw [putExpr, List.length_append] at h
      rw [putExpr]
      have htypes := restores_i32.list.takes types (by omega)
      exact takes_tag (by decide) (htypes.map ParseExpr.notTokens)
  | .anyToken, depth + 1, _, _ => by
      rw [putExpr, ← List.append_nil (putNat 3)]
      exact takes_tag (by decide) (takes_pure ParseExpr.anyToken)
  | .rule index precedence, depth + 1, _, _ => by
      rw [putExpr, List.append_assoc]
      have hprecedence := (takes_u32 precedence).map (ParseExpr.rule index)
      exact takes_tag (by decide) ((takes_u32 index).bind hprecedence)
  | .seq items, depth + 1, hdepth, h => by
      have htag := length_putNat_pos 5
      have hcount := length_le_putExprs items
      rw [putExpr, List.append_assoc, List.length_append, List.length_append] at h hdepth
      rw [putExpr, List.append_assoc]
      have hitems := takes_exprs items depth (by omega) (by omega)
      exact takes_tag (by decide) (((takes_length (by omega)).bind hitems).map ParseExpr.seq)
  | .choice alternatives, depth + 1, hdepth, h => by
      have htag := length_putNat_pos 6
      have hcount := length_le_putExprs alternatives
      rw [putExpr, List.append_assoc, List.length_append, List.length_append] at h hdepth
      rw [putExpr, List.append_assoc]
      have hitems := takes_exprs alternatives depth (by omega) (by omega)
      exact takes_tag (by decide) (((takes_length (by omega)).bind hitems).map ParseExpr.choice)
  | .optional body greedy, depth + 1, hdepth, h => by
      have htag := length_putNat_pos 7
      rw [putExpr, List.append_assoc, List.length_append, List.length_append] at h hdepth
      rw [putExpr, List.append_assoc]
      have hbody := takes_expr body depth (by omega) (by omega)
      have hgreedy := restores_bool.takes greedy (by omega)
      exact takes_tag (by decide) (hbody.bind (hgreedy.map (ParseExpr.optional body)))
  | .star body greedy, depth + 1, hdepth, h => by
      have htag := length_putNat_pos 8
      rw [putExpr, List.append_assoc, List.length_append, List.length_append] at h hdepth
      rw [putExpr, List.append_assoc]
      have hbody := takes_expr body depth (by omega) (by omega)
      have hgreedy := restores_bool.takes greedy (by omega)
      exact takes_tag (by decide) (hbody.bind (hgreedy.map (ParseExpr.star body)))
  | .plus body greedy, depth + 1, hdepth, h => by
      have htag := length_putNat_pos 9
      rw [putExpr, List.append_assoc, List.length_append, List.length_append] at h hdepth
      rw [putExpr, List.append_assoc]
      have hbody := takes_expr body depth (by omega) (by omega)
      have hgreedy := restores_bool.takes greedy (by omega)
      exact takes_tag (by decide) (hbody.bind (hgreedy.map (ParseExpr.plus body)))

theorem takes_exprs : ∀ (es : List ParseExpr) (depth : Nat), (putExprs es).length ≤ depth →
    (putExprs es).length < 2 ^ 64 → Takes (takeItems (takeExpr depth) es.length) (putExprs es) es
  | [], _, _, _ => by
      rw [putExprs]
      exact takes_pure []
  | e :: rest, depth, hdepth, h => by
      rw [putExprs, List.length_append] at h hdepth
      rw [putExprs]
      have hfirst := takes_expr e depth (by omega) (by omega)
      have hrest := takes_exprs rest depth (by omega) (by omega)
      exact hfirst.bind (hrest.map (e :: ·))
end

theorem restores_expr : Restores putExpr takeExprHere where
  length_pos := length_putExpr_pos
  takes e h := fun rest => by
    have hdepth : (putExpr e).length ≤ (putExpr e ++ rest).length := by
      rw [List.length_append]
      omega
    exact takes_expr e _ hdepth h rest

theorem restores_suffix : Restores putSuffix takeSuffix where
  length_pos s := by
    have hpos := restores_u32.length_pos s.precedence
    rw [putSuffix, List.length_append]
    omega
  takes s h := by
    rw [putSuffix, List.length_append] at h
    have hbody := restores_expr.takes s.body (by omega)
    exact (takes_u32 s.precedence).bind (hbody.map (Suffix.mk s.precedence))

theorem takes_body {body : RuleBody} (h : (putBody body).length < 2 ^ 64) :
    Takes takeBody (putBody body) body := by
  cases body with
  | plain e =>
      rw [putBody, List.length_append] at h
      exact takes_tag (by decide) ((restores_expr.takes e (by omega)).map RuleBody.plain)
  | leftRecursive primary suffixes =>
      rw [putBody, List.append_assoc, List.length_append, List.length_append] at h
      rw [putBody, List.append_assoc]
      have hprimary := restores_expr.takes primary (by omega)
      have hsuffixes := restores_suffix.list.takes suffixes (by omega)
      exact takes_tag (by decide) (hprimary.bind (hsuffixes.map (RuleBody.leftRecursive primary)))

theorem takes_parserHeader {h : ParserHeader} (hlength : (putParserHeader h).length < 2 ^ 64) :
    Takes takeParserHeader (putParserHeader h) h := by
  simp only [putParserHeader, List.length_append] at hlength
  simp only [putParserHeader, List.append_assoc]
  refine (restores_string.takes h.name (by omega)).bind ?_
  refine (restores_string.takes h.grammar (by omega)).bind ?_
  refine (restores_string.takes h.vocabularyUnit (by omega)).bind ?_
  refine (restores_string.list.takes h.ruleNames (by omega)).bind ?_
  refine (restores_string.list.takes h.ruleUnits (by omega)).bind ?_
  exact (takes_u32 h.startRule).map fun start =>
    ParserHeader.mk h.name h.grammar h.vocabularyUnit h.ruleNames h.ruleUnits start

theorem takes_parserRule {r : ParserRuleImage} (hlength : (putParserRule r).length < 2 ^ 64) :
    Takes takeParserRule (putParserRule r) r := by
  simp only [putParserRule, List.length_append] at hlength
  simp only [putParserRule, List.append_assoc]
  refine (restores_string.takes r.name (by omega)).bind ((takes_u32 r.index).bind ?_)
  exact (takes_body (by omega)).map fun body => ParserRuleImage.mk r.name r.index body

/-! ## Whole images -/

theorem takes_library {h : LibraryHeader} (hlength : (putLibrary h).length < 2 ^ 64) :
    Takes takeLibrary (putLibrary h) h := by
  simp only [putLibrary, List.length_append] at hlength
  simp only [putLibrary, List.append_assoc]
  refine (restores_string.takes h.name (by omega)).bind ?_
  refine (restores_string.list.takes h.fragments (by omega)).bind ?_
  exact (restores_string.list.takes h.rules (by omega)).map fun rules =>
    LibraryHeader.mk h.name h.fragments rules

theorem takes_image {image : UnitImage} (h : (putImage image).length < 2 ^ 64) :
    Takes takeImage (putImage image) image := by
  cases image with
  | lexerHeader header =>
      rw [putImage, List.length_append] at h
      exact takes_tag (by decide) ((takes_lexerHeader (by omega)).map UnitImage.lexerHeader)
  | lexerRule rule =>
      rw [putImage, List.length_append] at h
      exact takes_tag (by decide) ((takes_lexerRule (by omega)).map UnitImage.lexerRule)
  | parserHeader header =>
      rw [putImage, List.length_append] at h
      exact takes_tag (by decide) ((takes_parserHeader (by omega)).map UnitImage.parserHeader)
  | parserRule rule =>
      rw [putImage, List.length_append] at h
      exact takes_tag (by decide) ((takes_parserRule (by omega)).map UnitImage.parserRule)
  | library header =>
      rw [putImage, List.length_append] at h
      exact takes_tag (by decide) ((takes_library (by omega)).map UnitImage.library)

/-- An image is decoded from its own payload. -/
theorem decode_encode {image : UnitImage} (h : (encode image).length < 2 ^ 64) :
    decode (encode image) = .ok image := by
  rw [encode, List.length_append] at h
  have htakes : Takes takeImage (putImage image) image := takes_image (by omega)
  have hbody := htakes []
  rw [List.append_nil] at hbody
  have hmarked : marking.isPrefixOf? (marking ++ putImage image) = some (putImage image) :=
    rfl
  simp only [decode, encode, hmarked, hbody]

end GrammarEngine.Image

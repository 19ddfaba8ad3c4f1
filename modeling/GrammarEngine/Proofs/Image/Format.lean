import GrammarEngine.Proofs.Image.Truncation

/-!
# The format of payloads

What the bytes of an image are, said without the functions that write them. An image is data of a
few shapes: numbers, truth values, texts, optional parts, lists, records, and choices by number.
Each shape has one written form, and the payload of an image is its marking and the form of its
data. The main statement puts this beside what reading makes of payloads: an image is read back from
its payload whatever follows, no payload begins another one, and no shorter beginning of a payload
is read.
-/
namespace GrammarEngine

namespace Image

/-- Data of which images consist. A choice is the number of an alternative and its parts. -/
inductive Datum where
  | word (n : UInt32)
  | integer (n : Int32)
  | flag (b : Bool)
  | text (s : String)
  | absent
  | present (d : Datum)
  | list (items : List Datum)
  | record (fields : List Datum)
  | choice (number : Nat) (parts : List Datum)

def Datum.option {α : Type} (datum : α → Datum) : Option α → Datum
  | none => .absent
  | some a => .present (datum a)

def Datum.texts (items : List String) : Datum := .list (items.map .text)

/-- A natural number in groups of seven bits, the least significant group first. All bytes but the
last have their high bit set, and the last group is not zero if there are several. -/
inductive Leb128 : Nat → Bytes → Prop where
  | last {n : Nat} : n < 128 → Leb128 n [UInt8.ofNat n]
  | more {low high : Nat} {rest : Bytes} : low < 128 → 0 < high → Leb128 high rest →
      Leb128 (low + 128 * high) (UInt8.ofNat (128 + low) :: rest)

mutual
/-- The written form of data. Integers are folded: those from zero on become the even numbers, those
below zero the odd ones. A list is its length and its items, a record nothing but its fields. -/
inductive Written : Datum → Bytes → Prop where
  | word {n : UInt32} {bytes : Bytes} : Leb128 n.toNat bytes → Written (.word n) bytes
  | natural {n : Int32} {m : Nat} {bytes : Bytes} : n.toInt = m → Leb128 (2 * m) bytes →
      Written (.integer n) bytes
  | negative {n : Int32} {m : Nat} {bytes : Bytes} : n.toInt = -(m + 1) → Leb128 (2 * m + 1) bytes →
      Written (.integer n) bytes
  | false : Written (.flag false) [0]
  | true : Written (.flag true) [1]
  | text {s : String} {length : Bytes} : Leb128 (Text.utf8 s).length length →
      Written (.text s) (length ++ Text.utf8 s)
  | absent : Written .absent [0]
  | present {d : Datum} {bytes : Bytes} : Written d bytes → Written (.present d) (1 :: bytes)
  | list {items : List Datum} {length bytes : Bytes} : Leb128 items.length length →
      WrittenAll items bytes → Written (.list items) (length ++ bytes)
  | record {fields : List Datum} {bytes : Bytes} : WrittenAll fields bytes →
      Written (.record fields) bytes
  | choice {number : Nat} {parts : List Datum} {tag bytes : Bytes} : Leb128 number tag →
      WrittenAll parts bytes → Written (.choice number parts) (tag ++ bytes)

/-- Data one after the other. -/
inductive WrittenAll : List Datum → Bytes → Prop where
  | nil : WrittenAll [] []
  | cons {d : Datum} {rest : List Datum} {front back : Bytes} : Written d front →
      WrittenAll rest back → WrittenAll (d :: rest) (front ++ back)
end

end Image

open Image

/-! ## The data of images -/

def Instruction.datum : Instruction → Datum
  | .char code => .choice 0 [.word code]
  | .ranges rs negated =>
    .choice 1 [.list (rs.map fun r => .record [.word r.1, .word r.2]), .flag negated]
  | .any => .choice 2 []
  | .split first second => .choice 3 [.word first, .word second]
  | .jump target => .choice 4 [.word target]
  | .accept alternative => .choice 5 [.word alternative]

def LexerAction.datum : LexerAction → Datum
  | .skip => .choice 0 []
  | .more => .choice 1 []
  | .channel c => .choice 2 [.word c]
  | .type t => .choice 3 [.integer t]
  | .mode m => .choice 4 [.word m]
  | .pushMode m => .choice 5 [.word m]
  | .popMode => .choice 6 []

def TokenEntry.datum (e : TokenEntry) : Datum :=
  .record [.integer e.type, .text e.symbolic, .option .text e.literal]

def LexerHeader.datum (h : LexerHeader) : Datum :=
  .record [.text h.name, .text h.grammar, .texts h.modes, .texts h.channels,
    .list (h.vocabulary.map TokenEntry.datum), .texts h.ruleUnits]

def LexerRuleImage.datum (r : LexerRuleImage) : Datum :=
  .record [.text r.name, .integer r.tokenType, .word r.mode, .flag r.shortest,
    .list (r.program.map Instruction.datum),
    .list (r.actions.map fun actions => .list (actions.map LexerAction.datum))]

mutual
def ParseExpr.datum : ParseExpr → Datum
  | .empty => .choice 0 []
  | .token type => .choice 1 [.integer type]
  | .notTokens types => .choice 2 [.list (types.map .integer)]
  | .anyToken => .choice 3 []
  | .rule index precedence => .choice 4 [.word index, .word precedence]
  | .seq items => .choice 5 [.list (ParseExpr.data items)]
  | .choice alternatives => .choice 6 [.list (ParseExpr.data alternatives)]
  | .optional body greedy => .choice 7 [body.datum, .flag greedy]
  | .star body greedy => .choice 8 [body.datum, .flag greedy]
  | .plus body greedy => .choice 9 [body.datum, .flag greedy]

def ParseExpr.data : List ParseExpr → List Datum
  | [] => []
  | e :: rest => e.datum :: ParseExpr.data rest
end

def Suffix.datum (s : Suffix) : Datum := .record [.word s.precedence, s.body.datum]

def RuleBody.datum : RuleBody → Datum
  | .plain body => .choice 0 [body.datum]
  | .leftRecursive primary suffixes =>
    .choice 1 [primary.datum, .list (suffixes.map Suffix.datum)]

def ParserHeader.datum (h : ParserHeader) : Datum :=
  .record [.text h.name, .text h.grammar, .text h.vocabularyUnit, .texts h.ruleNames,
    .texts h.ruleUnits, .word h.startRule]

def ParserRuleImage.datum (r : ParserRuleImage) : Datum :=
  .record [.text r.name, .word r.index, r.body.datum]

def LibraryHeader.datum (h : LibraryHeader) : Datum :=
  .record [.text h.name, .texts h.fragments, .texts h.rules]

def UnitImage.datum : UnitImage → Datum
  | .lexerHeader header => .choice 0 [header.datum]
  | .lexerRule rule => .choice 1 [rule.datum]
  | .parserHeader header => .choice 2 [header.datum]
  | .parserRule rule => .choice 3 [rule.datum]
  | .library header => .choice 4 [header.datum]

namespace Image

/-! ## One form for each datum -/

theorem Leb128.ne_nil {n : Nat} {bytes : Bytes} (h : Leb128 n bytes) : bytes ≠ [] := by
  cases h <;> exact List.cons_ne_nil _ _

theorem Leb128.unique {n : Nat} {a b : Bytes} (ha : Leb128 n a) (hb : Leb128 n b) : a = b := by
  induction ha generalizing b with
  | last hlt =>
      cases hb with
      | last => rfl
      | more => omega
  | @more low high rest hlow hhigh _ ih =>
      generalize hn : low + 128 * high = n at hb
      cases hb with
      | last => omega
      | @more low' high' rest' hlow' _ hrest =>
          obtain rfl : low = low' := by omega
          obtain rfl : high = high' := by omega
          rw [ih hrest]

mutual
/-- The recursion is on the datum, whose shape says how both forms are written. -/
theorem Written.unique : ∀ {d : Datum} {a b : Bytes}, Written d a → Written d b → a = b
  | .word _, _, _, .word ha, .word hb => ha.unique hb
  | .integer _, _, _, .natural hm ha, .natural hm' hb => by
      obtain rfl := Int.ofNat.inj (hm.symm.trans hm')
      exact ha.unique hb
  | .integer _, _, _, .natural hm _, .negative hm' _ => by omega
  | .integer _, _, _, .negative hm _, .natural hm' _ => by omega
  | .integer _, _, _, .negative (m := m) hm ha, .negative (m := m') hm' hb => by
      obtain rfl : m = m' := by omega
      exact ha.unique hb
  | .flag _, _, _, .false, .false => rfl
  | .flag _, _, _, .true, .true => rfl
  | .text _, _, _, .text ha, .text hb => by rw [ha.unique hb]
  | .absent, _, _, .absent, .absent => rfl
  | .present _, _, _, .present ha, .present hb => by rw [ha.unique hb]
  | .list _, _, _, .list ha has, .list hb hbs => by rw [ha.unique hb, has.unique hbs]
  | .record _, _, _, .record ha, .record hb => ha.unique hb
  | .choice _ _, _, _, .choice ha has, .choice hb hbs => by rw [ha.unique hb, has.unique hbs]

theorem WrittenAll.unique : ∀ {ds : List Datum} {a b : Bytes}, WrittenAll ds a → WrittenAll ds b →
    a = b
  | [], _, _, .nil, .nil => rfl
  | _ :: _, _, _, .cons ha has, .cons hb hbs => by rw [ha.unique hb, has.unique hbs]
end

/-! ## What is written -/

theorem leb128_putNat (n : Nat) : Leb128 n (putNat n) := by
  induction n using Nat.strongRecOn with
  | ind n ih =>
      rw [putNat]
      split
      · next hlt => exact .last hlt
      · next hge =>
        have hmore := Leb128.more (Nat.mod_lt n (by decide : 0 < 128))
          (by omega : 0 < n / 128) (ih (n / 128) (by omega))
        rwa [Nat.mod_add_div, Nat.add_comm 128] at hmore

theorem written_word (n : UInt32) : Written (.word n) (putU32 n) := .word (leb128_putNat n.toNat)

theorem written_integer (n : Int32) : Written (.integer n) (putI32 n) := by
  unfold putI32 zigzag
  split
  · next h =>
    have hfold : (2 * n.toInt).toNat = 2 * n.toInt.toNat := by omega
    exact .natural (m := n.toInt.toNat) (by omega) (hfold ▸ leb128_putNat _)
  · next h =>
    have hfold : (-2 * n.toInt - 1).toNat = 2 * (-n.toInt - 1).toNat + 1 := by omega
    exact .negative (m := (-n.toInt - 1).toNat) (by omega) (hfold ▸ leb128_putNat _)

theorem written_flag (b : Bool) : Written (.flag b) (putBool b) := by
  cases b
  · exact .false
  · exact .true

theorem written_text (s : String) : Written (.text s) (putString s) := .text (leb128_putNat _)

theorem written_option {α : Type} {put : α → Bytes} {datum : α → Datum}
    (h : ∀ a, Written (datum a) (put a)) (o : Option α) :
    Written (.option datum o) (putOption put o) := by
  cases o with
  | none => exact .absent
  | some a => exact .present (h a)

theorem writtenAll_map {α : Type} {put : α → Bytes} {datum : α → Datum}
    (h : ∀ a, Written (datum a) (put a)) (items : List α) :
    WrittenAll (items.map datum) (items.flatMap put) := by
  induction items with
  | nil => exact .nil
  | cons a rest ih => exact .cons (h a) ih

theorem written_list {α : Type} {put : α → Bytes} {datum : α → Datum}
    (h : ∀ a, Written (datum a) (put a)) (items : List α) :
    Written (.list (items.map datum)) (putList put items) := by
  have hlength : Leb128 (items.map datum).length (putNat items.length) := by
    rw [List.length_map]
    exact leb128_putNat _
  exact .list hlength (writtenAll_map h items)

theorem written_texts (items : List String) : Written (.texts items) (putList putString items) :=
  written_list written_text items

theorem WrittenAll.last {d : Datum} {bytes : Bytes} (h : Written d bytes) :
    WrittenAll [d] bytes := by
  have hcons := WrittenAll.cons h .nil
  rwa [List.append_nil] at hcons

theorem written_bare (number : Nat) : Written (.choice number []) (putNat number) := by
  have hchoice := Written.choice (leb128_putNat number) .nil
  rwa [List.append_nil] at hchoice

/-- A tag in front of the parts of an alternative. -/
theorem written_choice (number : Nat) {parts : List Datum} {bytes : Bytes}
    (h : WrittenAll parts bytes) : Written (.choice number parts) (putNat number ++ bytes) :=
  .choice (leb128_putNat number) h

theorem written_range (r : UInt32 × UInt32) :
    Written (.record [.word r.1, .word r.2]) (putRange r) :=
  .record (.cons (written_word r.1) (.last (written_word r.2)))

theorem written_instruction (i : Instruction) : Written i.datum (putInstruction i) := by
  cases i with
  | char code => exact written_choice 0 (.last (written_word code))
  | ranges ranges negated =>
      rw [putInstruction, List.append_assoc]
      have hranges := written_list written_range ranges
      exact written_choice 1 (.cons hranges (.last (written_flag negated)))
  | any => exact written_bare 2
  | split first second =>
      rw [putInstruction, List.append_assoc]
      exact written_choice 3 (.cons (written_word first) (.last (written_word second)))
  | jump target => exact written_choice 4 (.last (written_word target))
  | accept alternative => exact written_choice 5 (.last (written_word alternative))

theorem written_action (a : LexerAction) : Written a.datum (putAction a) := by
  cases a with
  | skip => exact written_bare 0
  | more => exact written_bare 1
  | channel channel => exact written_choice 2 (.last (written_word channel))
  | type type => exact written_choice 3 (.last (written_integer type))
  | mode mode => exact written_choice 4 (.last (written_word mode))
  | pushMode mode => exact written_choice 5 (.last (written_word mode))
  | popMode => exact written_bare 6

theorem written_entry (e : TokenEntry) : Written e.datum (putEntry e) := by
  rw [putEntry, List.append_assoc]
  exact .record (.cons (written_integer e.type) (.cons (written_text e.symbolic)
    (.last (written_option written_text e.literal))))

theorem written_lexerHeader (h : LexerHeader) : Written h.datum (putLexerHeader h) := by
  simp only [putLexerHeader, List.append_assoc]
  refine .record (.cons (written_text h.name) (.cons (written_text h.grammar) ?_))
  refine .cons (written_texts h.modes) (.cons (written_texts h.channels) ?_)
  exact .cons (written_list written_entry h.vocabulary) (.last (written_texts h.ruleUnits))

theorem written_lexerRule (r : LexerRuleImage) : Written r.datum (putLexerRule r) := by
  simp only [putLexerRule, List.append_assoc]
  refine .record (.cons (written_text r.name) (.cons (written_integer r.tokenType) ?_))
  refine .cons (written_word r.mode) (.cons (written_flag r.shortest) ?_)
  exact .cons (written_list written_instruction r.program)
    (.last (written_list (written_list written_action) r.actions))

theorem length_data (es : List ParseExpr) : (ParseExpr.data es).length = es.length := by
  induction es with
  | nil => rfl
  | cons e rest ih => rw [ParseExpr.data, List.length_cons, List.length_cons, ih]

theorem written_items {es : List ParseExpr} {bytes : Bytes}
    (h : WrittenAll (ParseExpr.data es) bytes) :
    Written (.list (ParseExpr.data es)) (putNat es.length ++ bytes) := by
  have hlength : Leb128 (ParseExpr.data es).length (putNat es.length) := by
    rw [length_data]
    exact leb128_putNat _
  exact .list hlength h

mutual
theorem written_expr : ∀ e : ParseExpr, Written e.datum (putExpr e)
  | .empty => written_bare 0
  | .token type => written_choice 1 (.last (written_integer type))
  | .notTokens types => written_choice 2 (.last (written_list written_integer types))
  | .anyToken => written_bare 3
  | .rule index precedence => by
      rw [putExpr, List.append_assoc]
      exact written_choice 4 (.cons (written_word index) (.last (written_word precedence)))
  | .seq items => by
      rw [putExpr, List.append_assoc]
      exact written_choice 5 (.last (written_items (writtenAll_exprs items)))
  | .choice alternatives => by
      rw [putExpr, List.append_assoc]
      exact written_choice 6 (.last (written_items (writtenAll_exprs alternatives)))
  | .optional body greedy => by
      rw [putExpr, List.append_assoc]
      exact written_choice 7 (.cons (written_expr body) (.last (written_flag greedy)))
  | .star body greedy => by
      rw [putExpr, List.append_assoc]
      exact written_choice 8 (.cons (written_expr body) (.last (written_flag greedy)))
  | .plus body greedy => by
      rw [putExpr, List.append_assoc]
      exact written_choice 9 (.cons (written_expr body) (.last (written_flag greedy)))

theorem writtenAll_exprs : ∀ es : List ParseExpr, WrittenAll (ParseExpr.data es) (putExprs es)
  | [] => .nil
  | e :: rest => .cons (written_expr e) (writtenAll_exprs rest)
end

theorem written_suffix (s : Suffix) : Written s.datum (putSuffix s) :=
  .record (.cons (written_word s.precedence) (.last (written_expr s.body)))

theorem written_body (body : RuleBody) : Written body.datum (putBody body) := by
  cases body with
  | plain e => exact written_choice 0 (.last (written_expr e))
  | leftRecursive primary suffixes =>
      rw [putBody, List.append_assoc]
      have hsuffixes := written_list written_suffix suffixes
      exact written_choice 1 (.cons (written_expr primary) (.last hsuffixes))

theorem written_parserHeader (h : ParserHeader) : Written h.datum (putParserHeader h) := by
  simp only [putParserHeader, List.append_assoc]
  refine .record (.cons (written_text h.name) (.cons (written_text h.grammar) ?_))
  refine .cons (written_text h.vocabularyUnit) (.cons (written_texts h.ruleNames) ?_)
  exact .cons (written_texts h.ruleUnits) (.last (written_word h.startRule))

theorem written_parserRule (r : ParserRuleImage) : Written r.datum (putParserRule r) := by
  rw [putParserRule, List.append_assoc]
  exact .record (.cons (written_text r.name) (.cons (written_word r.index)
    (.last (written_body r.body))))

theorem written_library (h : LibraryHeader) : Written h.datum (putLibrary h) := by
  rw [putLibrary, List.append_assoc]
  exact .record (.cons (written_text h.name) (.cons (written_texts h.fragments)
    (.last (written_texts h.rules))))

theorem written_image (image : UnitImage) : Written image.datum (putImage image) := by
  cases image with
  | lexerHeader header => exact written_choice 0 (.last (written_lexerHeader header))
  | lexerRule rule => exact written_choice 1 (.last (written_lexerRule rule))
  | parserHeader header => exact written_choice 2 (.last (written_parserHeader header))
  | parserRule rule => exact written_choice 3 (.last (written_parserRule rule))
  | library header => exact written_choice 4 (.last (written_library header))

theorem eq_encode_iff {image : UnitImage} {payload : Bytes} :
    payload = encode image ↔ ∃ body, payload = marking ++ body ∧ Written image.datum body := by
  constructor
  · rintro rfl
    exact ⟨putImage image, rfl, written_image image⟩
  · rintro ⟨body, rfl, hbody⟩
    rw [encode, hbody.unique (written_image image)]

/-! ## Payloads -/

/-- A payload begins no payload of another image. -/
theorem eq_of_encode_begins {image other : UnitImage} (h : (encode image).length < 2 ^ 64)
    (hbegins : encode other <+: encode image) : other = image := by
  have hother : (encode other).length < 2 ^ 64 := Nat.lt_of_le_of_lt hbegins.length_le h
  obtain ⟨more, hmore⟩ := hbegins
  have hdecoded := decode_encode_append hother more
  rw [hmore, decode_encode h] at hdecoded
  exact (Except.ok.inj hdecoded).symm

/-- The payload of an image, of which there are as many bytes as a machine can count, is decoded to
the image, whatever bytes follow it. So different images have different payloads, none of which
begins another one, and what begins a payload without being all of it is refused: it lacks a part of
the marking or ends too early. A payload is the marking and the written form of the image's data. -/
theorem payload_exact {image : UnitImage} (h : (encode image).length < 2 ^ 64) :
    (∀ more, decode (encode image ++ more) = .ok image) ∧
      (∀ other, encode other <+: encode image → other = image) ∧
      (∀ payload, payload <+: encode image → payload ≠ encode image → decode payload =
        .error (if payload.length < marking.length then .badMarking
          else .unreadable .endOfBuffer)) ∧
      ∀ payload, payload = encode image ↔
        ∃ body, payload = marking ++ body ∧ Written image.datum body :=
  ⟨decode_encode_append h, fun _ => eq_of_encode_begins h, fun _ => decode_of_cut h,
    fun _ => eq_encode_iff⟩

/-- A left-recursive rule with the end of input, a large precedence and nested repetitions. -/
def sumRule : UnitImage :=
  .parserRule ⟨"Σ", 300, .leftRecursive (.choice [.token (-1), .notTokens [7, -128], .empty])
    [⟨4294967295, .seq [.star (.plus .anyToken false) true, .rule 300 200]⟩]⟩

theorem sumRule_payload_exact :
    (encode sumRule).length < 2 ^ 64 ∧ decode (encode sumRule ++ [0, 255]) = .ok sumRule ∧
      decode (encode sumRule).dropLast = .error (.unreadable .endOfBuffer) := by
  have hlength : (encode sumRule).length = 39 := by decide +kernel
  have hshort : (encode sumRule).length < 2 ^ 64 := by
    rw [hlength]
    decide
  have hexact := payload_exact hshort
  refine ⟨hshort, hexact.1 _, ?_⟩
  have hcut := hexact.2.2.1 _ (List.dropLast_prefix _) (by
    intro heq
    have hdrop := congrArg List.length heq
    rw [List.length_dropLast] at hdrop
    omega)
  rwa [if_neg (by rw [List.length_dropLast, hlength]; decide)] at hcut

end Image

end GrammarEngine

import GrammarEngine.Image.Basic
import GrammarEngine.Text.Utf8

/-!
# Images as bytes

An image is written as four marking bytes and a body. In the body a natural number is a sequence of
seven-bit groups, least significant first, all but the last marked by the high bit; an integer is
first folded so that small magnitudes stay small; a list or a text is its length and its parts; a
choice is the number of its alternative in order of declaration and that alternative's parts.

Numbers may be read from longer forms than are written, up to the length that their width allows.
Bytes after the image are left to the caller.
-/
namespace GrammarEngine.Image

abbrev Bytes := List UInt8

/-- The ways in which bytes fail to be the body of an image. -/
inductive DecodeFault where
  | endOfBuffer
  | badVarint
  | badBool
  | badUtf8
  | badOption
  | unknownVariant
deriving Repr, DecidableEq

def DecodeFault.message : DecodeFault → String
  | endOfBuffer => "Hit the end of buffer, expected more data"
  | badVarint => "Found a varint that didn't terminate. Is the usize too big for this platform?"
  | badBool => "Found a bool that wasn't 0 or 1"
  | badUtf8 => "Tried to parse invalid utf-8"
  | badOption => "Found an Option discriminant that wasn't 0 or 1"
  | unknownVariant => "Serde Deserialization Error"

/-- A reader yields a value and the bytes that follow it. -/
abbrev Reader (α : Type) := StateT Bytes (Except DecodeFault) α

/-! ## Numbers -/

def putNat (n : Nat) : Bytes :=
  if n < 128 then [UInt8.ofNat n] else UInt8.ofNat (n % 128 + 128) :: putNat (n / 128)
termination_by n
decreasing_by omega

/-- Read a number of at most `room` groups, the last of which, if all are used, is at most `top`. -/
def takeGroups (top : Nat) : Nat → Bytes → Except DecodeFault (Nat × Bytes)
  | 0, _ => .error .badVarint
  | _ + 1, [] => .error .endOfBuffer
  | room + 1, b :: rest =>
    if b.toNat < 128 then
      if room == 0 && top < b.toNat then .error .badVarint else .ok (b.toNat, rest)
    else
      match takeGroups top room rest with
      | .ok (n, rest) => .ok (b.toNat - 128 + 128 * n, rest)
      | .error fault => .error fault

/-- A length: sixty-four bits in ten groups. -/
def takeLength : Reader Nat := takeGroups 1 10

def takeWord : Reader Nat := takeGroups 15 5

def putU32 (n : UInt32) : Bytes := putNat n.toNat

def takeU32 : Reader UInt32 := do return UInt32.ofNat (← takeWord)

/-- Non-negative integers become even numbers and negative ones odd numbers. -/
def zigzag (n : Int32) : Nat :=
  if 0 ≤ n.toInt then (2 * n.toInt).toNat else (-2 * n.toInt - 1).toNat

def unzigzag (n : Nat) : Int32 :=
  if n % 2 == 0 then Int32.ofInt (n / 2 : Nat) else Int32.ofInt (-((n + 1) / 2 : Nat))

def putI32 (n : Int32) : Bytes := putNat (zigzag n)

def takeI32 : Reader Int32 := do return unzigzag (← takeWord)

/-! ## Texts, lists and tags -/

def takeByte : Reader UInt8 := fun
  | [] => .error .endOfBuffer
  | b :: rest => .ok (b, rest)

def putBool (b : Bool) : Bytes := [if b then 1 else 0]

def takeBool : Reader Bool := do
  let b ← takeByte
  if b == 0 then return false
  else if b == 1 then return true
  else throw .badBool

def putString (s : String) : Bytes := putNat (Text.utf8 s).length ++ Text.utf8 s

def takeBytes (n : Nat) : Reader Bytes := fun bytes =>
  if n ≤ bytes.length then .ok (bytes.take n, bytes.drop n) else .error .endOfBuffer

def takeString : Reader String := do
  let bytes ← takeBytes (← takeLength)
  match Text.ofUtf8? bytes with
  | some s => return s
  | none => throw .badUtf8

def putOption {α : Type} (put : α → Bytes) : Option α → Bytes
  | none => [0]
  | some a => 1 :: put a

def takeOption {α : Type} (take : Reader α) : Reader (Option α) := do
  let b ← takeByte
  if b == 0 then return none
  else if b == 1 then return some (← take)
  else throw .badOption

def putList {α : Type} (put : α → Bytes) (items : List α) : Bytes :=
  putNat items.length ++ items.flatMap put

def takeItems {α : Type} (take : Reader α) : Nat → Reader (List α)
  | 0 => return []
  | n + 1 => do
    let item ← take
    return item :: (← takeItems take n)

def takeList {α : Type} (take : Reader α) : Reader (List α) := do
  takeItems take (← takeLength)

/-! ## Lexer images -/

def putRange (r : UInt32 × UInt32) : Bytes := putU32 r.1 ++ putU32 r.2

def takeRange : Reader (UInt32 × UInt32) := do return (← takeU32, ← takeU32)

def putInstruction : Instruction → Bytes
  | .char code => putNat 0 ++ putU32 code
  | .ranges ranges negated => putNat 1 ++ putList putRange ranges ++ putBool negated
  | .any => putNat 2
  | .split first second => putNat 3 ++ putU32 first ++ putU32 second
  | .jump target => putNat 4 ++ putU32 target
  | .accept alternative => putNat 5 ++ putU32 alternative

def takeInstruction : Reader Instruction := do
  match ← takeWord with
  | 0 => return .char (← takeU32)
  | 1 => return .ranges (← takeList takeRange) (← takeBool)
  | 2 => return .any
  | 3 => return .split (← takeU32) (← takeU32)
  | 4 => return .jump (← takeU32)
  | 5 => return .accept (← takeU32)
  | _ => throw .unknownVariant

def putAction : LexerAction → Bytes
  | .skip => putNat 0
  | .more => putNat 1
  | .channel channel => putNat 2 ++ putU32 channel
  | .type type => putNat 3 ++ putI32 type
  | .mode mode => putNat 4 ++ putU32 mode
  | .pushMode mode => putNat 5 ++ putU32 mode
  | .popMode => putNat 6

def takeAction : Reader LexerAction := do
  match ← takeWord with
  | 0 => return .skip
  | 1 => return .more
  | 2 => return .channel (← takeU32)
  | 3 => return .type (← takeI32)
  | 4 => return .mode (← takeU32)
  | 5 => return .pushMode (← takeU32)
  | 6 => return .popMode
  | _ => throw .unknownVariant

def putEntry (e : TokenEntry) : Bytes :=
  putI32 e.type ++ putString e.symbolic ++ putOption putString e.literal

def takeEntry : Reader TokenEntry := do
  return ⟨← takeI32, ← takeString, ← takeOption takeString⟩

def putLexerHeader (h : LexerHeader) : Bytes :=
  putString h.name ++ putString h.grammar ++ putList putString h.modes ++
    putList putString h.channels ++ putList putEntry h.vocabulary ++ putList putString h.ruleUnits

def takeLexerHeader : Reader LexerHeader := do
  return ⟨← takeString, ← takeString, ← takeList takeString, ← takeList takeString,
    ← takeList takeEntry, ← takeList takeString⟩

def putLexerRule (r : LexerRuleImage) : Bytes :=
  putString r.name ++ putI32 r.tokenType ++ putU32 r.mode ++ putBool r.shortest ++
    putList putInstruction r.program ++ putList (putList putAction) r.actions

def takeLexerRule : Reader LexerRuleImage := do
  return ⟨← takeString, ← takeI32, ← takeU32, ← takeBool, ← takeList takeInstruction,
    ← takeList (takeList takeAction)⟩

/-! ## Parser images -/

mutual
def putExpr : ParseExpr → Bytes
  | .empty => putNat 0
  | .token type => putNat 1 ++ putI32 type
  | .notTokens types => putNat 2 ++ putList putI32 types
  | .anyToken => putNat 3
  | .rule index precedence => putNat 4 ++ putU32 index ++ putU32 precedence
  | .seq items => putNat 5 ++ putNat items.length ++ putExprs items
  | .choice alternatives => putNat 6 ++ putNat alternatives.length ++ putExprs alternatives
  | .optional body greedy => putNat 7 ++ putExpr body ++ putBool greedy
  | .star body greedy => putNat 8 ++ putExpr body ++ putBool greedy
  | .plus body greedy => putNat 9 ++ putExpr body ++ putBool greedy

def putExprs : List ParseExpr → Bytes
  | [] => []
  | e :: rest => putExpr e ++ putExprs rest
end

/-- Read an expression whose nesting is at most the given depth. Every level takes at least one
byte, so the number of bytes at hand is deep enough. -/
def takeExpr : Nat → Reader ParseExpr
  | 0 => throw .endOfBuffer
  | depth + 1 => do
    match ← takeWord with
    | 0 => return .empty
    | 1 => return .token (← takeI32)
    | 2 => return .notTokens (← takeList takeI32)
    | 3 => return .anyToken
    | 4 => return .rule (← takeU32) (← takeU32)
    | 5 => return .seq (← takeList (takeExpr depth))
    | 6 => return .choice (← takeList (takeExpr depth))
    | 7 => return .optional (← takeExpr depth) (← takeBool)
    | 8 => return .star (← takeExpr depth) (← takeBool)
    | 9 => return .plus (← takeExpr depth) (← takeBool)
    | _ => throw .unknownVariant

def takeExprHere : Reader ParseExpr := fun bytes => takeExpr bytes.length bytes

def putSuffix (s : Suffix) : Bytes := putU32 s.precedence ++ putExpr s.body

def takeSuffix : Reader Suffix := do return ⟨← takeU32, ← takeExprHere⟩

def putBody : RuleBody → Bytes
  | .plain body => putNat 0 ++ putExpr body
  | .leftRecursive primary suffixes => putNat 1 ++ putExpr primary ++ putList putSuffix suffixes

def takeBody : Reader RuleBody := do
  match ← takeWord with
  | 0 => return .plain (← takeExprHere)
  | 1 => return .leftRecursive (← takeExprHere) (← takeList takeSuffix)
  | _ => throw .unknownVariant

def putParserHeader (h : ParserHeader) : Bytes :=
  putString h.name ++ putString h.grammar ++ putString h.vocabularyUnit ++
    putList putString h.ruleNames ++ putList putString h.ruleUnits ++ putU32 h.startRule

def takeParserHeader : Reader ParserHeader := do
  return ⟨← takeString, ← takeString, ← takeString, ← takeList takeString,
    ← takeList takeString, ← takeU32⟩

def putParserRule (r : ParserRuleImage) : Bytes :=
  putString r.name ++ putU32 r.index ++ putBody r.body

def takeParserRule : Reader ParserRuleImage := do
  return ⟨← takeString, ← takeU32, ← takeBody⟩

/-! ## Whole images -/

def putLibrary (h : LibraryHeader) : Bytes :=
  putString h.name ++ putList putString h.fragments ++ putList putString h.rules

def takeLibrary : Reader LibraryHeader := do
  return ⟨← takeString, ← takeList takeString, ← takeList takeString⟩

def putImage : UnitImage → Bytes
  | .lexerHeader header => putNat 0 ++ putLexerHeader header
  | .lexerRule rule => putNat 1 ++ putLexerRule rule
  | .parserHeader header => putNat 2 ++ putParserHeader header
  | .parserRule rule => putNat 3 ++ putParserRule rule
  | .library header => putNat 4 ++ putLibrary header

def takeImage : Reader UnitImage := do
  match ← takeWord with
  | 0 => return .lexerHeader (← takeLexerHeader)
  | 1 => return .lexerRule (← takeLexerRule)
  | 2 => return .parserHeader (← takeParserHeader)
  | 3 => return .parserRule (← takeParserRule)
  | 4 => return .library (← takeLibrary)
  | _ => throw .unknownVariant

/-- The bytes that mark an image and the version of its form. -/
def marking : Bytes := [0x49, 0x47, 0x55, 0x01]

/-- The reasons why a payload is no image. -/
inductive PayloadFault where
  | badMarking
  | unreadable (fault : DecodeFault)
deriving Repr, DecidableEq

def PayloadFault.message : PayloadFault → String
  | badMarking => "Payload does not start with a unit image header"
  | unreadable fault => s!"Unit image is not readable: {fault.message}"

def encode (image : UnitImage) : Bytes := marking ++ putImage image

def decode (payload : Bytes) : Except PayloadFault UnitImage :=
  match marking.isPrefixOf? payload with
  | none => .error .badMarking
  | some body =>
    match takeImage body with
    | .ok (image, _) => .ok image
    | .error fault => .error (.unreadable fault)

end GrammarEngine.Image

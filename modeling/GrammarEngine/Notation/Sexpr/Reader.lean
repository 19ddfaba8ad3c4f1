import GrammarEngine.Notation.Sexpr
import GrammarEngine.Text.Numeral

/-!
# Reading S-expressions

The reader is a machine that takes one character at a time. Its state holds the place of the next
character, what is being read at that place, and the lists that are still open, innermost first.
Reading a text is a fold of the step over its characters, so reading two texts in a row is reading
the second from the state after the first.

An atom ends at white space, a parenthesis, a quote or a semicolon, and the character that ends it
is then taken as the start of what follows.
-/
namespace GrammarEngine.Sexpr

/-- The deepest nesting of lists. -/
def maxNesting : Nat := 256

/-- The ways in which a text fails to be a sequence of forms. -/
inductive ReadFault where
  | nestingTooDeep
  | unexpectedClosing
  | unterminatedList
  | unterminatedString
  | unknownEscape (c : Char)
  | codeWithoutBrace
  | malformedCode
  | invalidCode (digits : String)
  | integerOutOfRange (digits : String)
deriving Repr, DecidableEq

namespace ReadFault

def message : ReadFault → String
  | nestingTooDeep => s!"nesting too deep, limit is {maxNesting}"
  | unexpectedClosing => "unexpected ')'"
  | unterminatedList => "unterminated list"
  | unterminatedString => "unterminated string"
  | unknownEscape c => s!"unknown escape \\{c}"
  | codeWithoutBrace => "expected '\x7b' after \\u"
  | malformedCode => "malformed unicode escape"
  | invalidCode digits => s!"invalid code point {digits}"
  | integerOutOfRange digits => s!"integer out of range: {digits}"

end ReadFault

/-- A fault and the place where the reader stopped. -/
structure ReadError where
  position : Position
  fault : ReadFault
deriving Repr, DecidableEq

def ReadError.message (e : ReadError) : String :=
  s!"{e.position.line}:{e.position.column}: {e.fault.message}"

/-- What is being read; collected characters are kept last first. -/
inductive Reading where
  | between
  | comment
  | atom (start : Position) (chars : List Char)
  | string (start : Position) (chars : List Char)
  | escape (start : Position) (chars : List Char)
  | codeStart (start : Position) (chars : List Char)
  | code (start : Position) (chars digits : List Char)
deriving Repr, DecidableEq

/-- A list whose closing parenthesis has not been read, with the items before it in the enclosing
list, last first. -/
structure OpenList where
  start : Position
  before : List Sexpr
deriving Repr

/-- `items` are those of the innermost open list, last first. -/
structure ReaderState where
  position : Position := {}
  reading : Reading := .between
  items : List Sexpr := []
  enclosing : List OpenList := []
deriving Repr

/-- The characters that end an atom. -/
def isDelimiter (c : Char) : Bool :=
  Text.isBlank c || c == '(' || c == ')' || c == '"' || c == ';'

/-- The digits of a text that is an optional minus sign and digits only. -/
def numeralDigits? (cs : List Char) : Option (Bool × List Char) :=
  let (negative, digits) := match cs with
    | '-' :: rest => (true, rest)
    | _ => (false, cs)
  if !digits.isEmpty && digits.all Char.isDigit then some (negative, digits) else none

/-- An integer of sixty-four bits from its sign and digits. -/
def readInt64 (negative : Bool) (digits : List Char) : Option Int :=
  let bound := if negative then 0x8000000000000001 else 0x8000000000000000
  (Text.readDecimal bound digits).map fun n => if negative then -(n : Int) else n

/-- The value of a complete atom that started at a place. -/
def atomValue (start : Position) (cs : List Char) : Except ReadFault Sexpr :=
  match numeralDigits? cs with
  | none => .ok (.symbol start (String.ofList cs))
  | some (negative, digits) =>
    match readInt64 negative digits with
    | some n => .ok (.int start n)
    | none => .error (.integerOutOfRange (String.ofList cs))

namespace ReaderState

/-- Put a complete value into the innermost open list. -/
def push (s : ReaderState) (value : Sexpr) : ReaderState :=
  { s with reading := .between, items := value :: s.items }

/-- Finish an atom that ends before the next character. -/
def endAtom (s : ReaderState) : Except ReadError ReaderState :=
  match s.reading with
  | .atom start chars =>
    match atomValue start chars.reverse with
    | .ok value => .ok (s.push value)
    | .error fault => .error ⟨s.position, fault⟩
  | _ => .ok s

/-- Take a character that starts something new. -/
def start (s : ReaderState) (c : Char) : Except ReadError ReaderState :=
  if Text.isBlank c then .ok s
  else if c == ';' then .ok { s with reading := .comment }
  else if c == '(' then
    if s.enclosing.length < maxNesting then
      .ok { s with items := [], enclosing := ⟨s.position, s.items⟩ :: s.enclosing }
    else .error ⟨s.position, .nestingTooDeep⟩
  else if c == ')' then
    match s.enclosing with
    | [] => .error ⟨s.position, .unexpectedClosing⟩
    | inner :: outer =>
      .ok { s with items := .list inner.start s.items.reverse :: inner.before, enclosing := outer }
  else if c == '"' then .ok { s with reading := .string s.position [] }
  else .ok { s with reading := .atom s.position [c] }

/-- The character that a short escape denotes. -/
def shortEscape? : Char → Option Char
  | 'n' => some '\n'
  | 'r' => some '\r'
  | 't' => some '\t'
  | '\\' => some '\\'
  | '"' => some '"'
  | _ => none

/-- The effect of one character; the position is advanced separately. -/
def take (s : ReaderState) (c : Char) : Except ReadError ReaderState :=
  let beyond := s.position.step c
  match s.reading with
  | .between => s.start c
  | .comment => .ok (if c == '\n' then { s with reading := .between } else s)
  | .atom start chars =>
    if isDelimiter c then do (← s.endAtom).start c
    else .ok { s with reading := .atom start (c :: chars) }
  | .string start chars =>
    if c == '"' then .ok (s.push (.text start (String.ofList chars.reverse)))
    else if c == '\\' then .ok { s with reading := .escape start chars }
    else .ok { s with reading := .string start (c :: chars) }
  | .escape start chars =>
    if c == 'u' then .ok { s with reading := .codeStart start chars }
    else match shortEscape? c with
      | some d => .ok { s with reading := .string start (d :: chars) }
      | none => .error ⟨beyond, .unknownEscape c⟩
  | .codeStart start chars =>
    if c == '\x7b' then .ok { s with reading := .code start chars [] }
    else .error ⟨beyond, .codeWithoutBrace⟩
  | .code start chars digits =>
    if c == '\x7d' then
      match (Text.readHex 0x100000000 digits.reverse).bind Text.charOfCode? with
      | some d => .ok { s with reading := .string start (d :: chars) }
      | none => .error ⟨beyond, .invalidCode (String.ofList digits.reverse)⟩
    else if Text.isHexDigit c then .ok { s with reading := .code start chars (c :: digits) }
    else .error ⟨beyond, .malformedCode⟩

def step (s : ReaderState) (c : Char) : Except ReadError ReaderState := do
  let next ← s.take c
  return { next with position := s.position.step c }

/-- Take the characters of a text in order. -/
def run (s : ReaderState) (cs : List Char) : Except ReadError ReaderState := cs.foldlM step s

/-- The forms read when the text ends here. -/
def finish (s : ReaderState) : Except ReadError (List Sexpr) := do
  match s.reading with
  | .string .. | .escape .. => throw ⟨s.position, .unterminatedString⟩
  | .codeStart .. => throw ⟨s.position, .codeWithoutBrace⟩
  | .code .. => throw ⟨s.position, .malformedCode⟩
  | _ =>
    let s ← s.endAtom
    if s.enclosing.isEmpty then return s.items.reverse
    else throw ⟨s.position, .unterminatedList⟩

end ReaderState

/-- The forms of a text. -/
def readAll (text : String) : Except ReadError (List Sexpr) := do
  (← ({} : ReaderState).run text.toList).finish

theorem ReaderState.run_append (s : ReaderState) (cs ds : List Char) :
    s.run (cs ++ ds) = (s.run cs).bind (fun t => t.run ds) := by
  simp only [run, List.foldlM_append]
  rfl

end GrammarEngine.Sexpr

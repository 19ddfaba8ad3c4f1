import GrammarEngine.Json.Number

/-!
# Reading JSON

A document is cut into tokens, strings and numbers being single tokens, and the tokens drive a
machine that holds the containers part way through. White space is that of the notation; nothing may
follow the value. Containers nest up to a limit.
-/
namespace GrammarEngine.Json

/-- The deepest nesting of containers. -/
def maxNesting : Nat := 127

inductive Token where
  | openList
  | closeList
  | openObject
  | closeObject
  | comma
  | colon
  | scalar (value : Json)
deriving Repr

/-! ## Tokens -/

def isSpace (c : Char) : Bool := c == ' ' || c == '\t' || c == '\n' || c == '\r'

/-- The number of four hexadecimal digits. -/
def codeUnit? (a b c d : Char) : Option Nat := Text.readHex 0x10000 [a, b, c, d]

/-- The character of a pair of surrogate code units. -/
def ofSurrogates? (high low : Nat) : Option Char :=
  if 0xdc00 ≤ low ∧ low < 0xe000 then
    Text.charOfCode? (0x10000 + (high - 0xd800) * 0x400 + (low - 0xdc00))
  else none

/-- What follows a backslash, and the rest. A high surrogate must be followed by a low one. -/
def escape? : List Char → Option (Char × List Char)
  | '"' :: rest => some ('"', rest)
  | '\\' :: rest => some ('\\', rest)
  | '/' :: rest => some ('/', rest)
  | 'b' :: rest => some ('\x08', rest)
  | 'f' :: rest => some ('\x0c', rest)
  | 'n' :: rest => some ('\n', rest)
  | 'r' :: rest => some ('\r', rest)
  | 't' :: rest => some ('\t', rest)
  | 'u' :: a :: b :: c :: d :: rest =>
    match codeUnit? a b c d with
    | none => none
    | some unit =>
      if 0xd800 ≤ unit ∧ unit < 0xdc00 then
        match rest with
        | '\\' :: 'u' :: e :: f :: g :: h :: rest =>
          ((codeUnit? e f g h).bind (ofSurrogates? unit)).map fun c => (c, rest)
        | _ => none
      else (Text.charOfCode? unit).map fun c => (c, rest)
  | _ => none

/-- The characters of a string up to its closing quote, and the rest. Each step reads a character,
so the length of the text is bound enough. -/
def string? : Nat → List Char → Option (List Char × List Char)
  | 0, _ => none
  | _ + 1, [] => none
  | bound + 1, c :: rest =>
    if c == '"' then some ([], rest)
    else if c == '\\' then
      match escape? rest with
      | none => none
      | some (c, rest) => (string? bound rest).map fun (cs, rest) => (c :: cs, rest)
    else if c.toNat < 0x20 then none
    else (string? bound rest).map fun (cs, rest) => (c :: cs, rest)

/-- The digits at the beginning of a text, and the rest. -/
def digits (cs : List Char) : List Char × List Char :=
  (cs.takeWhile Char.isDigit, cs.dropWhile Char.isDigit)

def digitsValue (cs : List Char) : Nat := (Text.digitsValue? 10 Text.decimalValue? cs).getD 0

/-- The digits after a point, if there is one; then there must be some. -/
def fraction? : List Char → Option (List Char × List Char)
  | '.' :: rest => if (digits rest).1.isEmpty then none else some (digits rest)
  | cs => some ([], cs)

/-- An exponent without its mark. -/
def signedDigits? (cs : List Char) : Option (Int × List Char) :=
  let (sign, cs) : Int × List Char := match cs with
    | '-' :: rest => (-1, rest)
    | '+' :: rest => (1, rest)
    | cs => (1, cs)
  if (digits cs).1.isEmpty then none else some (sign * digitsValue (digits cs).1, (digits cs).2)

def exponent? : List Char → Option (Option Int × List Char)
  | 'e' :: rest => (signedDigits? rest).map fun (e, rest) => (some e, rest)
  | 'E' :: rest => (signedDigits? rest).map fun (e, rest) => (some e, rest)
  | cs => some (none, cs)

/-- A number without its sign. A leading zero stands alone. -/
def unsigned? (negative : Bool) (cs : List Char) : Option (Json × List Char) :=
  match digits cs with
  | ([], _) => none
  | ('0' :: _ :: _, _) => none
  | (whole, rest) => do
    let (fraction, rest) ← fraction? rest
    let (exponent, rest) ← exponent? rest
    let n ← number? negative whole fraction exponent
    return (n, rest)

/-- A literal, a number or a string. -/
def scalar? (bound : Nat) : List Char → Option (Json × List Char)
  | 't' :: 'r' :: 'u' :: 'e' :: rest => some (.bool true, rest)
  | 'f' :: 'a' :: 'l' :: 's' :: 'e' :: rest => some (.bool false, rest)
  | 'n' :: 'u' :: 'l' :: 'l' :: rest => some (.null, rest)
  | '"' :: rest => (string? bound rest).map fun (cs, rest) => (.text (String.ofList cs), rest)
  | '-' :: rest => unsigned? true rest
  | cs => unsigned? false cs

def punctuation? : Char → Option Token
  | '[' => some .openList
  | ']' => some .closeList
  | '\x7b' => some .openObject
  | '\x7d' => some .closeObject
  | ',' => some .comma
  | ':' => some .colon
  | _ => none

/-- The tokens of a text. Each step reads a character, so the length of the text is bound enough. -/
def tokens? : Nat → List Char → Option (List Token)
  | 0, _ => none
  | _ + 1, [] => some []
  | bound + 1, c :: rest =>
    if isSpace c then tokens? bound rest
    else match punctuation? c with
      | some t => (tokens? bound rest).map (t :: ·)
      | none =>
        match scalar? (bound + 1) (c :: rest) with
        | none => none
        | some (value, rest) => (tokens? bound rest).map (.scalar value :: ·)

/-! ## Documents -/

/-- A container part way through, last item first. An object waits for the value of a name. -/
inductive Frame where
  | list (items : List Json)
  | object (fields : List (String × Json)) (key : String)
deriving Repr

/-- What may come next. -/
inductive State where
  | value (frames : List Frame)
  | listStart (frames : List Frame)
  | objectStart (frames : List Frame)
  | key (fields : List (String × Json)) (frames : List Frame)
  | colon (fields : List (String × Json)) (key : String) (frames : List Frame)
  | afterItem (items : List Json) (frames : List Frame)
  | afterField (fields : List (String × Json)) (frames : List Frame)
  | done (value : Json)
deriving Repr

/-- Hand a value to the container that waits for it. -/
def State.deliver (value : Json) : List Frame → State
  | [] => .done value
  | .list items :: frames => .afterItem (value :: items) frames
  | .object fields k :: frames => .afterField ((k, value) :: fields) frames

/-- Begin a value. -/
def State.begin? (frames : List Frame) : Token → Option State
  | .scalar v => some (.deliver v frames)
  | .openList => if frames.length < maxNesting then some (.listStart frames) else none
  | .openObject => if frames.length < maxNesting then some (.objectStart frames) else none
  | _ => none

def State.step? : State → Token → Option State
  | .value frames, t => begin? frames t
  | .listStart frames, .closeList => some (.deliver (.list []) frames)
  | .listStart frames, t => begin? (.list [] :: frames) t
  | .objectStart frames, .closeObject => some (.deliver (.object []) frames)
  | .objectStart frames, .scalar (.text k) => some (.colon [] k frames)
  | .key fields frames, .scalar (.text k) => some (.colon fields k frames)
  | .colon fields k frames, .colon => some (.value (.object fields k :: frames))
  | .afterItem items frames, .comma => some (.value (.list items :: frames))
  | .afterItem items frames, .closeList => some (.deliver (.list items.reverse) frames)
  | .afterField fields frames, .comma => some (.key fields frames)
  | .afterField fields frames, .closeObject => some (.deliver (.object fields.reverse) frames)
  | _, _ => none

/-- The value of a document. -/
def read? (text : String) : Option Json := do
  let tokens ← tokens? (text.length + 1) text.toList
  match ← tokens.foldlM State.step? (.value []) with
  | .done value => some value
  | _ => none

/-- The value of a document in which the last member of a repeated name counts. -/
def readDistinct? (text : String) : Option Json := (read? text).map distinct

end GrammarEngine.Json

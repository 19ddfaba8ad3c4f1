import GrammarEngine.Text.Case

/-!
# Character streams

A stream is a named text under a case folding. Lexers see the folded characters; slices and token
texts keep those of the text. A folding whose form of a character has several characters leaves
that character alone, so offsets are those of the text.
-/
namespace GrammarEngine

/-- The case in which a lexer sees the input. -/
inductive CaseFolding where
  | none
  | upper
  | lower
deriving Repr, DecidableEq, Inhabited

namespace CaseFolding

def name : CaseFolding → String
  | .none => "none"
  | .upper => "upper"
  | .lower => "lower"

/-- The folding of exactly this name. -/
def ofName? : String → Option CaseFolding
  | "none" => some .none
  | "upper" => some .upper
  | "lower" => some .lower
  | _ => Option.none

/-- The folding that a name means when letter case is ignored; otherwise the refusal's message. -/
def parse (s : String) : Except String CaseFolding :=
  let folded := s.map Char.toLower
  match ofName? folded with
  | some folding => .ok folding
  | Option.none =>
    .error s!"unknown case folding '{folded}' (expected none, upper or lower)"

def single (c : Char) : List Char → Char
  | [d] => d
  | _ => c

def fold : CaseFolding → Char → Char
  | .none, c => c
  | .upper, c => single c (Text.upperForm c)
  | .lower, c => single c (Text.lowerForm c)

theorem ofName?_name (f : CaseFolding) : ofName? f.name = some f := by
  cases f <;> rfl

@[simp] theorem fold_none (c : Char) : fold .none c = c := rfl

end CaseFolding

/-- A text offered to a lexer. -/
structure CharStream where
  name : String
  text : Array Char
  folding : CaseFolding := .none
deriving Repr, DecidableEq, Inhabited

namespace CharStream

/-- The name of a stream that was given as bare text. -/
def unknownName : String := "<unknown>"

def ofString (name text : String) : CharStream := { name, text := text.toList.toArray }

def withFolding (s : CharStream) (f : CaseFolding) : CharStream := { s with folding := f }

def size (s : CharStream) : Nat := s.text.size

/-- The character of the text at an offset. -/
def charAt? (s : CharStream) (i : Nat) : Option Char := s.text[i]?

/-- The character at an offset as the lexer sees it. -/
def lookahead? (s : CharStream) (i : Nat) : Option Char := (s.charAt? i).map s.folding.fold

/-- The characters of the text between two offsets, cut at its end. -/
def slice (s : CharStream) (start stop : Nat) : String :=
  String.ofList (s.text.extract start stop).toList

@[simp] theorem size_withFolding (s : CharStream) (f : CaseFolding) :
    (s.withFolding f).size = s.size := rfl

@[simp] theorem charAt?_withFolding (s : CharStream) (f : CaseFolding) (i : Nat) :
    (s.withFolding f).charAt? i = s.charAt? i := rfl

@[simp] theorem slice_withFolding (s : CharStream) (f : CaseFolding) (i j : Nat) :
    (s.withFolding f).slice i j = s.slice i j := rfl

theorem lookahead?_eq_none_iff (s : CharStream) (i : Nat) :
    s.lookahead? i = none ↔ s.size ≤ i := by
  simp [lookahead?, charAt?, size]

end CharStream

end GrammarEngine

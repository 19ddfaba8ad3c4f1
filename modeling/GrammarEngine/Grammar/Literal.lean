import GrammarEngine.Text.Quoted

/-!
# Escapes in literals and character sets

Inside a literal a backslash starts an escape: a letter for a control character, `u` with a code
point, or any other character for itself. A code point is the next four characters, or all up to a
closing brace after an opening one, read as a hexadecimal number. The body of a character set is
read from left to right as single characters and ranges.
-/
namespace GrammarEngine.Literal

/-- The ways in which the body of a literal or a set is malformed. -/
inductive Fault where
  | invalidCode (digits : String)
  | propertyEscape
  | danglingEscape
  | descendingRange (low high : Char)
  | emptySet
deriving Repr, DecidableEq

def Fault.message : Fault → String
  | invalidCode digits => s!"invalid unicode escape \\u{digits}"
  | propertyEscape => "unicode property escapes are not supported"
  | danglingEscape => "dangling escape at end of literal"
  | descendingRange low high =>
    s!"invalid character range {String.ofList (Text.escapeChar low)}" ++
      s!"-{String.ofList (Text.escapeChar high)}"
  | emptySet => "empty character set"

/-- A value and the characters after those that denote it, which are fewer than the given ones. -/
abbrev Taken (α : Type) (cs : List Char) := α × { rest : List Char // rest.length < cs.length }

/-- The digits of a code point escape and what follows them; a closing brace is dropped. -/
def codeDigits : List Char → List Char × List Char
  | '\x7b' :: cs => (cs.takeWhile (· != '\x7d'), (cs.dropWhile (· != '\x7d')).drop 1)
  | cs => (cs.take 4, cs.drop 4)

theorem codeDigits_length (cs : List Char) : (codeDigits cs).2.length ≤ cs.length := by
  unfold codeDigits
  split
  · rename_i cs
    have h := (List.dropWhile_sublist (· != '\x7d') (l := cs)).length_le
    simp only [List.length_drop, List.length_cons]
    omega
  · simp

/-- The character of a code point escape; a plus sign before the digits is accepted. -/
def codeChar (digits : List Char) : Except Fault Char :=
  match (Text.readHex 0x100000000 (Text.dropPlus digits)).bind Text.charOfCode? with
  | some c => .ok c
  | none => .error (.invalidCode (String.ofList digits))

/-- The letters that stand for control characters. -/
def controlEscape? : Char → Option Char
  | 'n' => some '\n'
  | 'r' => some '\r'
  | 't' => some '\t'
  | 'b' => some '\x08'
  | 'f' => some '\x0c'
  | _ => none

/-- The character that the text after a backslash denotes. -/
def escape (cs : List Char) : Except Fault (Taken Char cs) :=
  match cs with
  | [] => .error .danglingEscape
  | c :: rest =>
    if c == 'u' then
      match codeChar (codeDigits rest).1 with
      | .ok d => .ok (d, ⟨(codeDigits rest).2, Nat.lt_succ_of_le (codeDigits_length rest)⟩)
      | .error fault => .error fault
    else if c == 'p' || c == 'P' then .error .propertyEscape
    else .ok ((controlEscape? c).getD c, ⟨rest, Nat.lt_succ_self _⟩)

/-- The characters that the body of a literal denotes. -/
def unescape (cs : List Char) : Except Fault (List Char) :=
  match cs with
  | [] => .ok []
  | '\\' :: rest =>
    match escape rest with
    | .ok (c, ⟨after, _⟩) => (unescape after).map (c :: ·)
    | .error fault => .error fault
  | c :: rest => (unescape rest).map (c :: ·)
termination_by cs.length
decreasing_by
  all_goals simp only [List.length_cons]
  all_goals omega

/-- The next character of a set, escaped or not. -/
def setChar (cs : List Char) : Except Fault (Option (Taken Char cs)) :=
  match cs with
  | [] => .ok none
  | c :: rest =>
    if c == '\\' then
      match escape rest with
      | .ok (d, ⟨after, h⟩) => .ok (some (d, ⟨after, Nat.lt_succ_of_lt h⟩))
      | .error fault => .error fault
    else .ok (some (c, ⟨rest, Nat.lt_succ_self _⟩))

/-- What follows a hyphen that has a character after it. -/
def afterHyphen? : List Char → Option (List Char)
  | '-' :: c :: rest => some (c :: rest)
  | _ => none

theorem afterHyphen?_length {cs rest : List Char} (h : afterHyphen? cs = some rest) :
    rest.length < cs.length := by
  unfold afterHyphen? at h
  split at h
  · cases h; simp
  · cases h

/-- The next range of a set. A character is a range of its own unless a hyphen and a further
character follow it. -/
def setItem (cs : List Char) : Except Fault (Option (Taken (Char × Char) cs)) :=
  match setChar cs with
  | .error fault => .error fault
  | .ok none => .ok none
  | .ok (some (low, ⟨rest, h⟩)) =>
    match hyphen : afterHyphen? rest with
    | none => .ok (some ((low, low), ⟨rest, h⟩))
    | some upper =>
      match setChar upper with
      | .error fault => .error fault
      | .ok none => .ok (some ((low, low), ⟨rest, h⟩))
      | .ok (some (high, ⟨after, h'⟩)) =>
        if high < low then .error (.descendingRange low high)
        else .ok (some ((low, high), ⟨after, by
          have := afterHyphen?_length hyphen
          omega⟩))

/-- The ranges of the body of a set, from left to right. -/
def ranges (cs : List Char) : Except Fault (List (Char × Char)) :=
  match setItem cs with
  | .error fault => .error fault
  | .ok none => .ok []
  | .ok (some (range, ⟨rest, _⟩)) => (ranges rest).map (range :: ·)
termination_by cs.length

/-- The ranges of a set that is not empty. -/
def charSet (cs : List Char) : Except Fault (List (Char × Char)) :=
  match ranges cs with
  | .ok [] => .error .emptySet
  | .ok rs => .ok rs
  | .error fault => .error fault

end GrammarEngine.Literal

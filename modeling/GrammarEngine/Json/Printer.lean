import GrammarEngine.Json.Basic
import GrammarEngine.Text.Numeral

/-!
# Printing JSON

Documents are printed with one item to a line, indented by two blanks for every open container.
Empty containers stay on one line. Strings escape quotes, backslashes and the control characters
below the blank, by letter where there is one.
-/
namespace GrammarEngine.Json

/-- Exactly four hexadecimal digits. -/
def fourDigits (n : Nat) : List Char :=
  let ds := Text.hexDigits n
  List.replicate (4 - ds.length) '0' ++ ds

def escapeChar (c : Char) : List Char :=
  if c == '"' then ['\\', '"']
  else if c == '\\' then ['\\', '\\']
  else if c == '\n' then ['\\', 'n']
  else if c == '\r' then ['\\', 'r']
  else if c == '\t' then ['\\', 't']
  else if c == '\x08' then ['\\', 'b']
  else if c == '\x0c' then ['\\', 'f']
  else if c.toNat < 0x20 then ['\\', 'u'] ++ fourDigits c.toNat
  else [c]

/-- A text in quotes. -/
def quoted (s : String) : String := String.ofList (['"'] ++ s.toList.flatMap escapeChar ++ ['"'])

/-- The beginning of a line inside a number of containers. -/
def newline (depth : Nat) : String := "\n" ++ String.ofList (List.replicate (2 * depth) ' ')

mutual
def render (depth : Nat) : Json → String
  | .null => "null"
  | .bool true => "true"
  | .bool false => "false"
  | .int n => toString n
  | .decimal digits exponent => toString digits ++ "e" ++ toString exponent
  | .text s => quoted s
  | .list [] => "[]"
  | .list (j :: rest) =>
    "[" ++ newline (depth + 1) ++ render (depth + 1) j ++ renderItems (depth + 1) rest ++
      newline depth ++ "]"
  | .object [] => "\x7b\x7d"
  | .object ((name, j) :: rest) =>
    "\x7b" ++ newline (depth + 1) ++ quoted name ++ ": " ++ render (depth + 1) j ++
      renderFields (depth + 1) rest ++ newline depth ++ "\x7d"

def renderItems (depth : Nat) : List Json → String
  | [] => ""
  | j :: rest => "," ++ newline depth ++ render depth j ++ renderItems depth rest

def renderFields (depth : Nat) : List (String × Json) → String
  | [] => ""
  | (name, j) :: rest =>
    "," ++ newline depth ++ quoted name ++ ": " ++ render depth j ++ renderFields depth rest
end

/-- The printed form of a document. -/
def print (j : Json) : String := render 0 j

end GrammarEngine.Json

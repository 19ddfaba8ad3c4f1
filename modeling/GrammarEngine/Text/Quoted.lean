import GrammarEngine.Text.Numeral

/-!
# Quoted fragments

Three ways in which messages and listings show a fragment of text: with every character outside
printable ASCII escaped, with line breaks and tabs escaped only, and as a double-quoted string of
the unit notation.
-/
namespace GrammarEngine.Text

/-- A code point in braces after a backslash and the letter u. -/
def codeEscape (c : Char) : List Char := ['\\', 'u', '\x7b'] ++ hexDigits c.toNat ++ ['\x7d']

/-- One character of an escaped fragment: printable ASCII stands for itself, quotes and backslashes
follow a backslash, and all else is a short or a code point escape. -/
def escapeChar (c : Char) : List Char :=
  if c == '\t' then ['\\', 't']
  else if c == '\r' then ['\\', 'r']
  else if c == '\n' then ['\\', 'n']
  else if c == '\'' || c == '"' || c == '\\' then ['\\', c]
  else if 0x20 ≤ c.toNat && c.toNat ≤ 0x7e then [c]
  else codeEscape c

def escape (s : String) : String := String.ofList (s.toList.flatMap escapeChar)

/-- Line breaks and tabs of offending input are shown as short escapes. -/
def escapeBreakChar (c : Char) : List Char :=
  if c == '\n' then ['\\', 'n']
  else if c == '\r' then ['\\', 'r']
  else if c == '\t' then ['\\', 't']
  else [c]

def escapeBreaks (s : String) : String := String.ofList (s.toList.flatMap escapeBreakChar)

/-- One character inside a string of the unit notation. -/
def quoteChar (c : Char) : List Char :=
  if c == '"' then ['\\', '"']
  else if c == '\\' then ['\\', '\\']
  else if c == '\n' then ['\\', 'n']
  else if c == '\r' then ['\\', 'r']
  else if c == '\t' then ['\\', 't']
  else if isControl c then codeEscape c
  else [c]

/-- A text as a string of the unit notation. -/
def quote (s : String) : String := String.ofList (['"'] ++ s.toList.flatMap quoteChar ++ ['"'])

end GrammarEngine.Text

import GrammarEngine.Text.Class
import GrammarEngine.Text.Position

/-!
# Lexemes of the grammar notation

A grammar file is cut into lexemes: words, literals, sets, numbers, blocks in braces and signs.
White space and comments separate lexemes and are dropped. Each step of the cutting looks at the
next character and decides how many of the following ones belong to it, so every step takes at
least one character.

A text is refused at the first character at which no lexeme starts. A literal or a set without its
end is quoted up to the place where it could not go on, a block or a comment without its end by its
opening alone.
-/
namespace GrammarEngine

inductive Keyword where
  | grammar
  | lexer
  | parser
  | fragment
  | «import»
  | options
  | tokens
  | channels
  | mode
  | returns
  | locals
deriving Repr, DecidableEq

inductive Sign where
  | colon
  | semi
  | or
  | lparen
  | rparen
  | star
  | plus
  | question
  | tilde
  | dot
  | range
  | arrow
  | assign
  | plusAssign
  | comma
  | pound
  | lt
  | gt
  | «at»
deriving Repr, DecidableEq

/-- Literals, sets and blocks are kept without their delimiters. -/
inductive Lexeme where
  | keyword (word : Keyword)
  | tokenName (name : String)
  | ruleName (name : String)
  | literal (body : String)
  | charSet (body : String)
  | number (digits : String)
  | action (body : String)
  | sign (sign : Sign)
deriving Repr, DecidableEq

namespace Keyword

def all : List Keyword :=
  [grammar, lexer, parser, fragment, «import», options, tokens, channels, mode, returns, locals]

def word : Keyword → String
  | grammar => "grammar"
  | lexer => "lexer"
  | parser => "parser"
  | fragment => "fragment"
  | «import» => "import"
  | options => "options"
  | tokens => "tokens"
  | channels => "channels"
  | mode => "mode"
  | returns => "returns"
  | locals => "locals"

def ofWord? (s : String) : Option Keyword := all.find? fun k => k.word == s

end Keyword

/-- What messages call a sign. -/
def Sign.name : Sign → String
  | colon => "colon"
  | semi => "semi"
  | or => "or"
  | lparen => "lparen"
  | rparen => "rparen"
  | star => "star"
  | plus => "plus"
  | question => "question"
  | tilde => "tilde"
  | dot => "dot"
  | range => "range"
  | arrow => "arrow"
  | assign => "assign"
  | plusAssign => "plusassign"
  | comma => "comma"
  | pound => "pound"
  | lt => "lt"
  | gt => "gt"
  | «at» => "at"

namespace Lexeme

/-- What messages call a lexeme. -/
def describe : Lexeme → String
  | keyword k => k.word
  | tokenName name => s!"'{name}'"
  | ruleName name => s!"'{name}'"
  | literal body => s!"'{body}'"
  | charSet body => s!"[{body}]"
  | number digits => digits
  | action _ => "action block"
  | sign s => s.name

/-- The name that a word which is no keyword spells. -/
def name? : Lexeme → Option String
  | tokenName name => some name
  | ruleName name => some name
  | _ => none

/-! ## Cutting -/

/-- What starts at a character: something to drop, a lexeme, or neither. The number counts the
characters that follow the first one and belong to it. -/
inductive Cut where
  | blank (more : Nat)
  | lexeme (lexeme : Lexeme) (more : Nat)
  | fault (more : Nat)
deriving Repr, DecidableEq

/-- The number of characters up to and including the closing delimiter, or, if there is none, up to
where the literal cannot go on. An escape is a backslash and any character but a line feed. -/
def delimited (closing : Char) (ordinary : Char → Bool) : List Char → Except Nat Nat
  | [] => .error 0
  | '\\' :: [] => .error 0
  | '\\' :: c :: rest =>
    if c == '\n' then .error 0
    else match delimited closing ordinary rest with
      | .ok n => .ok (n + 2)
      | .error n => .error (n + 2)
  | c :: rest =>
    if c == closing then .ok 1
    else if ordinary c then
      match delimited closing ordinary rest with
      | .ok n => .ok (n + 1)
      | .error n => .error (n + 1)
    else .error 0

/-- The number of characters up to and including the brace that closes a block. Braces inside
quotes do not count, and inside quotes a backslash hides the next character. -/
def braced : Nat → Option Char → List Char → Option Nat
  | _, _, [] => none
  | depth, some _, '\\' :: [] => braced depth none []
  | depth, some quote, '\\' :: _ :: rest => (braced depth (some quote) rest).map (· + 2)
  | depth, some quote, c :: rest =>
    (braced depth (if c == quote then none else some quote) rest).map (· + 1)
  | depth, none, c :: rest =>
    if c == '"' || c == '\'' then (braced depth (some c) rest).map (· + 1)
    else if c == '\x7b' then (braced (depth + 1) none rest).map (· + 1)
    else if c == '\x7d' then
      match depth with
      | 0 => some 1
      | depth + 1 => (braced depth none rest).map (· + 1)
    else (braced depth none rest).map (· + 1)

/-- The number of characters up to and including the end of a block comment. -/
def commentEnd : List Char → Option Nat
  | [] => none
  | '*' :: '/' :: _ => some 2
  | _ :: rest => (commentEnd rest).map (· + 1)

/-- The text of a delimited lexeme without the closing delimiter. -/
def bodyOf (n : Nat) (cs : List Char) : String := String.ofList (cs.take (n - 1))

def blankChar (c : Char) : Bool :=
  c == ' ' || c == '\t' || c == '\r' || c == '\n' || c == '\x0c'

def literalChar (c : Char) : Bool := c != '\r' && c != '\n'

def wordLexeme (word : String) : Lexeme :=
  match Keyword.ofWord? word with
  | some k => .keyword k
  | none => .ruleName word

/-- The sign that starts with a character. -/
def signCut (c : Char) (rest : List Char) : Cut :=
  match c, rest with
  | ':', _ => .lexeme (.sign .colon) 0
  | ';', _ => .lexeme (.sign .semi) 0
  | '|', _ => .lexeme (.sign .or) 0
  | '(', _ => .lexeme (.sign .lparen) 0
  | ')', _ => .lexeme (.sign .rparen) 0
  | '*', _ => .lexeme (.sign .star) 0
  | '+', '=' :: _ => .lexeme (.sign .plusAssign) 1
  | '+', _ => .lexeme (.sign .plus) 0
  | '?', _ => .lexeme (.sign .question) 0
  | '~', _ => .lexeme (.sign .tilde) 0
  | '.', '.' :: _ => .lexeme (.sign .range) 1
  | '.', _ => .lexeme (.sign .dot) 0
  | '-', '>' :: _ => .lexeme (.sign .arrow) 1
  | '=', _ => .lexeme (.sign .assign) 0
  | ',', _ => .lexeme (.sign .comma) 0
  | '#', _ => .lexeme (.sign .pound) 0
  | '<', _ => .lexeme (.sign .lt) 0
  | '>', _ => .lexeme (.sign .gt) 0
  | '@', _ => .lexeme (.sign .at) 0
  | _, _ => .fault 0

/-- What starts at a character, given the characters after it. -/
def cut (c : Char) (rest : List Char) : Cut :=
  if blankChar c then .blank 0
  else if c == '/' then
    match rest with
    | '/' :: more => .blank (1 + (more.takeWhile (· != '\n')).length)
    | '*' :: more =>
      match commentEnd more with
      | some n => .blank (1 + n)
      | none => .fault 1
    | _ => .fault 0
  else if c.isUpper then
    let more := rest.takeWhile Text.isWordChar
    .lexeme (.tokenName (String.ofList (c :: more))) more.length
  else if c.isLower then
    let more := rest.takeWhile Text.isWordChar
    .lexeme (wordLexeme (String.ofList (c :: more))) more.length
  else if c.isDigit then
    let more := rest.takeWhile Char.isDigit
    .lexeme (.number (String.ofList (c :: more))) more.length
  else if c == '\'' then
    match delimited '\'' literalChar rest with
    | .ok n => .lexeme (.literal (bodyOf n rest)) n
    | .error n => .fault n
  else if c == '[' then
    match delimited ']' (fun _ => true) rest with
    | .ok n => .lexeme (.charSet (bodyOf n rest)) n
    | .error n => .fault n
  else if c == '\x7b' then
    match braced 0 none rest with
    | some n => .lexeme (.action (bodyOf n rest)) n
    | none => .fault 0
  else signCut c rest

/-- A lexeme and the place of its first character. -/
structure Placed where
  lexeme : Lexeme
  position : Position
deriving Repr, DecidableEq

/-- The text at which no lexeme starts and its place. -/
structure ScanError where
  position : Position
  text : String
deriving Repr, DecidableEq

/-- The lexemes of a text that starts at a place. -/
def scanFrom (p : Position) (cs : List Char) : Except ScanError (List Placed) :=
  match cs with
  | [] => .ok []
  | c :: rest =>
    match cut c rest with
    | .blank n => scanFrom (p.after (c :: rest.take n)) (rest.drop n)
    | .lexeme lexeme n =>
      (scanFrom (p.after (c :: rest.take n)) (rest.drop n)).map (⟨lexeme, p⟩ :: ·)
    | .fault n => .error ⟨p, String.ofList (c :: rest.take n)⟩
termination_by cs.length
decreasing_by
  all_goals simp only [List.length_drop, List.length_cons]
  all_goals omega

def scan (text : String) : Except ScanError (List Placed) := scanFrom {} text.toList

end Lexeme

end GrammarEngine

import GrammarEngine.Text.Position

/-!
# Grammars

A grammar as it is written in one file: its declarations and its rules, each a list of alternatives
over elements. Rules whose names start with a capital letter describe tokens, all others phrases.

The same elements describe a rule after its names have been resolved. Two of them then appear that
no file contains: a reference with a precedence, and an exclusion of named tokens.
-/
namespace GrammarEngine

inductive GrammarKind where
  | combined
  | lexer
  | parser
deriving Repr, DecidableEq

def GrammarKind.name : GrammarKind → String
  | combined => "combined"
  | lexer => "lexer"
  | parser => "parser"

/-- How often an element may occur. -/
inductive Repetition where
  | optional
  | zeroOrMore
  | oneOrMore
deriving Repr, DecidableEq

/-- What a lexer rule asks to be done with a match. -/
inductive LexerCommand where
  | skip
  | more
  | popMode
  | channel (name : String)
  | type (name : String)
  | mode (name : String)
  | pushMode (name : String)
deriving Repr, DecidableEq

/-- One alternative over any kind of element. -/
structure AlternativeOf (ε : Type) where
  elements : List ε := []
  label : Option String := none
  rightAssoc : Bool := false
  commands : List LexerCommand := []
deriving Repr, DecidableEq, Inhabited

/-- A part of an alternative. `not` excludes the characters or tokens of its members. -/
inductive Element where
  | literal (text : String)
  | token (name : String)
  | rule (name : String)
  | ruleAt (name : String) (precedence : Nat)
  | charSet (ranges : List (Char × Char)) (negated : Bool)
  | any
  | not (members : List Element)
  | notTokens (names : List String)
  | block (alternatives : List (AlternativeOf Element))
  | repeated (element : Element) (kind : Repetition) (greedy : Bool)
  | eof
deriving Repr, Inhabited

abbrev Alternative := AlternativeOf Element

/-- The mode in which every lexer starts. -/
def defaultMode : String := "DEFAULT_MODE"

/-- Names of tokens start with an ASCII capital letter. -/
def isTokenName (name : String) : Bool :=
  match name.toList with
  | c :: _ => c.isUpper
  | [] => false

structure Rule where
  name : String
  fragment : Bool
  mode : String
  alternatives : List Alternative
  position : Position
deriving Repr

namespace Rule

def isLexerRule (r : Rule) : Bool := isTokenName r.name

/-- The literal of a rule that is this literal and nothing else. -/
def singleLiteral? (r : Rule) : Option String :=
  match r.alternatives with
  | [⟨[.literal text], _, _, []⟩] => some text
  | _ => none

end Rule

/-- `modes` are those declared, in order, without the default mode. -/
structure Grammar where
  name : String
  kind : GrammarKind
  file : String
  options : List (String × String)
  imports : List String
  tokens : List String
  channels : List String
  modes : List String
  rules : List Rule
deriving Repr

namespace Grammar

def option? (g : Grammar) (key : String) : Option String := g.options.lookup key

def rule? (g : Grammar) (name : String) : Option Rule :=
  g.rules.find? fun r => r.name == name

end Grammar

end GrammarEngine

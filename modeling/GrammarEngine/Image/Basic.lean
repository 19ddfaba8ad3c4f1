import GrammarEngine.Vocabulary

/-!
# Unit images

An image is the compiled form of one unit: the header of a lexer, a parser or a library, or one
lexer or parser rule. Headers name the units of their rules; a rule of a lexer is a program over
code points, a rule of a parser is an expression over token types and rule numbers.

All numbers are words of thirty-two bits, as they are stored.
-/
namespace GrammarEngine

/-- One instruction of a lexer rule. Consuming instructions are followed by the next one; `split`
prefers neither of its targets; `accept` names the alternative that matched. -/
inductive Instruction where
  | char (code : UInt32)
  | ranges (ranges : List (UInt32 × UInt32)) (negated : Bool)
  | any
  | split (first second : UInt32)
  | jump (target : UInt32)
  | accept (alternative : UInt32)
deriving Repr, DecidableEq

/-- What a lexer does with a match, one step at a time. -/
inductive LexerAction where
  | skip
  | more
  | channel (channel : UInt32)
  | type (type : TokenType)
  | mode (mode : UInt32)
  | pushMode (mode : UInt32)
  | popMode
deriving Repr, DecidableEq

structure LexerHeader where
  name : String
  grammar : String
  modes : List String
  channels : List String
  vocabulary : List TokenEntry
  ruleUnits : List String
deriving Repr, DecidableEq

structure LexerRuleImage where
  name : String
  tokenType : TokenType
  mode : UInt32
  shortest : Bool
  program : List Instruction
  actions : List (List LexerAction)
deriving Repr, DecidableEq

/-- The body of a parser rule. A rule reference passes the precedence from which suffixes of a
left-recursive rule are admitted. -/
inductive ParseExpr where
  | empty
  | token (type : TokenType)
  | notTokens (types : List TokenType)
  | anyToken
  | rule (index precedence : UInt32)
  | seq (items : List ParseExpr)
  | choice (alternatives : List ParseExpr)
  | optional (body : ParseExpr) (greedy : Bool)
  | star (body : ParseExpr) (greedy : Bool)
  | plus (body : ParseExpr) (greedy : Bool)
deriving Repr, Inhabited

structure Suffix where
  precedence : UInt32
  body : ParseExpr
deriving Repr

/-- A left-recursive rule is a primary followed by any number of suffixes. -/
inductive RuleBody where
  | plain (body : ParseExpr)
  | leftRecursive (primary : ParseExpr) (suffixes : List Suffix)
deriving Repr

structure ParserHeader where
  name : String
  grammar : String
  vocabularyUnit : String
  ruleNames : List String
  ruleUnits : List String
  startRule : UInt32
deriving Repr, DecidableEq

structure ParserRuleImage where
  name : String
  index : UInt32
  body : RuleBody
deriving Repr

structure LibraryHeader where
  name : String
  fragments : List String
  rules : List String
deriving Repr, DecidableEq

inductive UnitImage where
  | lexerHeader (header : LexerHeader)
  | lexerRule (rule : LexerRuleImage)
  | parserHeader (header : ParserHeader)
  | parserRule (rule : ParserRuleImage)
  | library (header : LibraryHeader)
deriving Repr

/-- What a message calls the kind of an image. -/
def UnitImage.kind : UnitImage → String
  | lexerHeader _ => "lexer"
  | lexerRule _ => "lexer rule"
  | parserHeader _ => "parser"
  | parserRule _ => "parser rule"
  | library _ => "library"

namespace ParseExpr

mutual
/-- The rule numbers that an expression refers to, in order of occurrence. -/
def ruleRefs : ParseExpr → List UInt32
  | rule index _ => [index]
  | seq items => ruleRefsAll items
  | choice alternatives => ruleRefsAll alternatives
  | optional body _ => body.ruleRefs
  | star body _ => body.ruleRefs
  | plus body _ => body.ruleRefs
  | _ => []

def ruleRefsAll : List ParseExpr → List UInt32
  | [] => []
  | e :: rest => e.ruleRefs ++ ruleRefsAll rest
end

end ParseExpr

def RuleBody.ruleRefs : RuleBody → List UInt32
  | plain body => body.ruleRefs
  | leftRecursive primary suffixes =>
    primary.ruleRefs ++ suffixes.flatMap fun s => s.body.ruleRefs

end GrammarEngine

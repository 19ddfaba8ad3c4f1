import GrammarEngine.Grammar.Basic
import GrammarEngine.Notation.Sexpr.Reader
import GrammarEngine.Vocabulary

/-!
# Declared units

What the text of a unit declares: a lexer with its tokens, rules and fragments, a parser with its
rules, or a library of fragments and rules for others to extend. Expressions are shared by all
three; which of them have a meaning in which kind of rule is decided when the unit is compiled.

References keep the place where they were written.
-/
namespace GrammarEngine

/-- An expression of a lexer or parser rule. -/
inductive UnitExpr where
  | empty
  | seq (items : List UnitExpr)
  | choice (items : List UnitExpr)
  | repeated (kind : Repetition) (isLazy : Bool) (body : UnitExpr)
  | literal (text : String) (position : Position)
  | ranges (ranges : List (UInt32 × UInt32)) (negated : Bool)
  | any
  | ref (name : String) (position : Position)
  | token (name : String) (position : Position)
  | notTokens (names : List String) (position : Position)
  | eof
  | invoke (name : String) (precedence : UInt32) (position : Position)
deriving Repr, Inhabited

/-- A name and the place where it was written. -/
structure NameAt where
  name : String
  position : Position
deriving Repr, DecidableEq

structure TokenDecl where
  type : TokenType
  name : String
  literal : Option String
deriving Repr, DecidableEq

structure LexerAlternative where
  items : List UnitExpr
  commands : List (LexerCommand × Position)
deriving Repr

structure LexerRuleDecl where
  name : String
  position : Position
  type : TokenType
  mode : String
  alternatives : List LexerAlternative
deriving Repr

structure FragmentDecl where
  name : String
  position : Position
  alternatives : List (List UnitExpr)
deriving Repr

structure LexerDecl where
  name : String
  position : Position
  grammar : String := ""
  caseInsensitive : Bool := false
  base : Option NameAt := none
  channels : List String := []
  modes : List String := []
  tokens : List TokenDecl := []
  rules : List LexerRuleDecl := []
  fragments : List FragmentDecl := []
deriving Repr

inductive ParserRuleBody where
  | plain (alternatives : List (List UnitExpr))
  | leftRecursive (primaries : List (List UnitExpr)) (suffixes : List (UInt32 × List UnitExpr))
deriving Repr

structure ParserRuleDecl where
  name : String
  position : Position
  body : ParserRuleBody
deriving Repr

structure ParserDecl where
  name : String
  position : Position
  grammar : String
  vocabulary : NameAt
  base : Option NameAt
  start : Option NameAt
  rules : List ParserRuleDecl
deriving Repr

structure LibraryDecl where
  name : String
  position : Position
  fragments : List FragmentDecl := []
  rules : List ParserRuleDecl := []
deriving Repr

inductive UnitDecl where
  | lexer (decl : LexerDecl)
  | parser (decl : ParserDecl)
  | library (decl : LibraryDecl)
deriving Repr

namespace UnitDecl

def name : UnitDecl → String
  | lexer d => d.name
  | parser d => d.name
  | library d => d.name

def position : UnitDecl → Position
  | lexer d => d.position
  | parser d => d.position
  | library d => d.position

end UnitDecl

end GrammarEngine

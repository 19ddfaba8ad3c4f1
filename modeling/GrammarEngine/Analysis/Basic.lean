import GrammarEngine.Grammar.Error

/-!
# Analysed recognizers

The result of analysing grammars: for every lexer its vocabulary, modes, channels and rules, for
every parser its rules over the names of a lexer's tokens. A parser rule that refers to itself at
the start of an alternative is split into primaries, which do not, and suffixes, which continue a
match of the rule and carry a precedence.
-/
namespace GrammarEngine

/-- A token of a lexer under construction; types count from one. -/
structure TokenSpec where
  type : Nat
  name : String
  literal : Option String
deriving Repr, DecidableEq

/-- A rule without a token type is a fragment. -/
structure LexerRuleSpec where
  name : String
  tokenType : Option Nat
  mode : String
  alternatives : List Alternative
deriving Repr

structure LexerSpec where
  unit : String
  grammar : String
  «extends» : Option String
  caseInsensitive : Bool
  channels : List String
  modes : List String
  vocabulary : List TokenSpec
  rules : List LexerRuleSpec
deriving Repr

/-- A left-recursive alternative without its leading self reference. -/
structure SuffixSpec where
  precedence : Nat
  rightAssoc : Bool
  elements : List Element
deriving Repr

inductive ParserRuleSpec where
  | plain (name : String) (alternatives : List Alternative)
  | leftRecursive (name : String) (primaries : List Alternative) (suffixes : List SuffixSpec)
deriving Repr

namespace ParserRuleSpec

def name : ParserRuleSpec → String
  | plain name _ => name
  | leftRecursive name _ _ => name

/-- The alternatives with which a match of the rule can start. -/
def leading : ParserRuleSpec → List Alternative
  | plain _ alternatives => alternatives
  | leftRecursive _ primaries _ => primaries

end ParserRuleSpec

structure ParserSpec where
  unit : String
  grammar : String
  «extends» : Option String
  vocabularyUnit : String
  startRule : String
  rules : List ParserRuleSpec
deriving Repr

/-- The recognizers of a set of grammars; the name is that of the first root with a parser. -/
structure Analysis where
  grammarName : String
  lexers : List LexerSpec
  parsers : List ParserSpec
  warnings : List Warning
deriving Repr

/-- A fault of a rule at the place of the rule. -/
def Grammar.ruleError (g : Grammar) (r : Rule) (fault : RuleFault) : GenerationError :=
  .rule g.file r.position r.name fault

/-- The first rule whose name an earlier rule has. -/
def firstRedefined? : List String → List Rule → Option Rule
  | _, [] => none
  | seen, r :: rest =>
    if seen.contains r.name then some r else firstRedefined? (r.name :: seen) rest

def Grammar.checkDuplicates (g : Grammar) (rules : List Rule) : Except GenerationError Unit :=
  match firstRedefined? [] rules with
  | some r => .error (g.ruleError r .redefinition)
  | none => .ok ()

end GrammarEngine

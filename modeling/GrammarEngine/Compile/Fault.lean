import GrammarEngine.Unit.Declaration.Reader
import GrammarEngine.Text.Quoted

/-!
# Faults of units

What the compiler reports about a unit: that its text declares nothing, that it refers to something
that does not exist, or that a construct stands where it has no meaning. Every report names the unit
and the place.
-/
namespace GrammarEngine

inductive CompileFault where
  | declaration (fault : DeclarationFault)
  | misnamed (declared source : String)
  | duplicate (what name : String)
  | unknownLibrary (name : String)
  | notALibrary (name : String)
  | unknownLexer (name : String)
  | notALexer (name : String)
  | unknownLexerRule (name : String)
  | unknownMode (name : String)
  | unknownChannel (name : String)
  | unknownToken (name : String)
  | unknownLiteral (text : String)
  | unknownRule (name : String)
  | undeclaredToken (rule : String)
  | recursiveReference (name : String)
  | parserConstruct
  | endInLexerRule
  | lexerReference
  | setInParserRule
  | noTokenRules
  | noParserRules
deriving Repr, DecidableEq

def CompileFault.message : CompileFault → String
  | declaration fault => fault.message
  | misnamed declared source => s!"unit {declared} is declared in source {source}"
  | duplicate what name => s!"duplicate {what} {name}"
  | unknownLibrary name => s!"cannot find symbol: library {name}"
  | notALibrary name => s!"{name} is not a library unit"
  | unknownLexer name => s!"cannot find symbol: lexer {name}"
  | notALexer name => s!"{name} is not a lexer unit"
  | unknownLexerRule name => s!"cannot find symbol: lexer rule {name}"
  | unknownMode name => s!"cannot find symbol: mode {name}"
  | unknownChannel name => s!"cannot find symbol: channel {name}"
  | unknownToken name => s!"cannot find symbol: token {name}"
  | unknownLiteral text => s!"cannot find symbol: token for '{Text.escape text}'"
  | unknownRule name => s!"cannot find symbol: rule {name}"
  | undeclaredToken rule => s!"rule {rule} has no matching token declaration"
  | recursiveReference name => s!"recursive reference to lexer rule {name} is not supported"
  | parserConstruct => "parser construct in lexer rule"
  | endInLexerRule => "EOF in lexer rule"
  | lexerReference => "lexer rule reference in parser rule"
  | setInParserRule => "character set in parser rule"
  | noTokenRules => "lexer defines no token rules"
  | noParserRules => "parser defines no rules"

/-- A fault and its place; constructs without a place of their own are at line zero. -/
abbrev CompileFault.Located := Position × CompileFault

def Position.unknown : Position := ⟨0, 0⟩

inductive Severity where
  | error
  | warning
deriving Repr, DecidableEq

def Severity.name : Severity → String
  | error => "error"
  | warning => "warning"

/-- One report about a unit. -/
structure Diagnostic where
  unit : String
  position : Position
  severity : Severity := .error
  message : String
deriving Repr, DecidableEq

namespace Diagnostic

def isError (d : Diagnostic) : Bool := d.severity == .error

def line (d : Diagnostic) : String :=
  s!"{d.unit}:{d.position.line}:{d.position.column}: {d.severity.name}: {d.message}"

def ofFault (unit : String) (fault : CompileFault.Located) : Diagnostic :=
  { unit, position := fault.1, message := fault.2.message }

end Diagnostic

/-- The repeated names of a list, each at its place. -/
def duplicates (what : String) : List String → List NameAt → List CompileFault.Located
  | _, [] => []
  | seen, n :: rest =>
    if seen.contains n.name then (n.position, .duplicate what n.name) :: duplicates what seen rest
    else duplicates what (n.name :: seen) rest

end GrammarEngine

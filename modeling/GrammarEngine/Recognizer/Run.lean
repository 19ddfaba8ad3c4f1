import GrammarEngine.Lexer.Tokenize
import GrammarEngine.Parser.Result
import GrammarEngine.Recognizer.Basic

/-!
# Running a recognizer

A request names the units, the rule and the folding it wants. What it leaves open is chosen: the
only parser, or the only one whose name ends like a parser's; the lexer that the parser was compiled
against; the parser's start rule; the folding of the stream.
-/
namespace GrammarEngine

/-- What to run; the folding `none` leaves the stream as it is. -/
structure RunRequest where
  lexer : Option String := none
  parser : Option String := none
  entryRule : Option String := none
  folding : CaseFolding := .none
  maxDepth : Option Nat := none
deriving Repr, DecidableEq, Inhabited

namespace Recognizer

/-- How the names of parser units end by convention. -/
def parserMarker : String := "Parser"

/-- The single marked name, else the single name. -/
def choose (kind marker : String) (names : List String) : Except ParsingFault String :=
  match names.filter fun n => n.endsWith marker, names with
  | [single], _ => .ok single
  | [], [] => .error (.noUnit kind)
  | [], [single] => .ok single
  | _, _ => .error (.ambiguousUnit kind names)

def parserNamed (r : Recognizer) (name : String) : Except ParsingFault ParserProgram :=
  match r.parser? name with
  | some p => .ok p
  | none => .error (.unitNotFound "parser" name)

/-- The parser that a request refers to. -/
def selectParser (r : Recognizer) (name : Option String) : Except ParsingFault ParserProgram :=
  match name with
  | some name => r.parserNamed name
  | none => do r.parserNamed (← choose "parser" parserMarker r.parserNames)

/-- The lexer that a request refers to, else that of the parser. -/
def selectLexer (r : Recognizer) (name : Option String) (p : ParserProgram) :
    Except ParsingFault LexerProgram :=
  let name := name.getD p.vocabularyUnit
  match r.lexer? name with
  | some l => .ok l
  | none => .error (.unitNotFound "lexer" name)

/-- The folding of a request overrides that of the stream. -/
def refold (stream : CharStream) : CaseFolding → CharStream
  | .none => stream
  | folding => stream.withFolding folding

/-- Tokenize a stream and run the requested rule over its tokens. -/
def run (r : Recognizer) (stream : CharStream) (request : RunRequest) :
    Except ParsingFault ParseResult := do
  let parser ← r.selectParser request.parser
  let lexer ← r.selectLexer request.lexer parser
  let rule := request.entryRule.getD parser.defaultRule
  if !parser.ruleNames.contains rule then
    throw (.unknownEntryRule parser.name rule)
  let tokens := lexer.tokenize (refold stream request.folding)
  parser.parse rule tokens (request.maxDepth.getD ParserProgram.defaultMaxDepth)

end Recognizer

end GrammarEngine

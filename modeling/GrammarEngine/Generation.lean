import GrammarEngine.Analysis.Grammars
import GrammarEngine.Grammar.Reader
import GrammarEngine.Unit.Source
import GrammarEngine.Unit.Writer

/-!
# Generating units

A set of grammar files is read in order, analysed and written as units, lexers before parsers. The
default parser is the first one, and the default lexer the one whose tokens it uses, or the first
lexer where there is no parser.
-/
namespace GrammarEngine

/-- A grammar file under the name that messages use for it. -/
structure GrammarFile where
  name : String
  text : String
deriving Repr, DecidableEq

structure GenerationOptions where
  package : Option String := none
  warningsAsErrors : Bool := false
deriving Repr, DecidableEq

/-- The units of a set of grammars and which of them are used by default. -/
structure GeneratedUnits where
  grammarName : String
  units : List UnitSource
  lexer : Option String
  parser : Option String
  warnings : List String
deriving Repr, DecidableEq

namespace GeneratedUnits

def unit? (g : GeneratedUnits) (name : String) : Option UnitSource :=
  g.units.find? fun u => u.name == name

/-- The grammars of the files with the warnings of reading them. -/
def readFiles : List GrammarFile → Except GenerationError (List Grammar × List Warning)
  | [] => .ok ([], [])
  | f :: rest => do
    let (g, warnings) ← Grammar.read f.name f.text
    let (gs, more) ← readFiles rest
    return (g :: gs, warnings ++ more)

/-- The file from which the grammar of a name was read. -/
def fileOf (grammars : List Grammar) (name : String) : String :=
  match grammars.find? fun g => g.name == name with
  | some g => g.file
  | none => name

/-- The units of an analysis. -/
def unitsOf (grammars : List Grammar) (a : Analysis) : List UnitSource :=
  a.lexers.map (fun l =>
      ⟨l.unit, (UnitText.ofLexer l (fileOf grammars l.grammar)).toString, .generated⟩) ++
    a.parsers.map fun p =>
      ⟨p.unit, (UnitText.ofParser p (fileOf grammars p.grammar)).toString, .generated⟩

def defaultLexer (a : Analysis) : Option String :=
  match a.parsers with
  | p :: _ => some p.vocabularyUnit
  | [] => a.lexers.head?.map LexerSpec.unit

def ofFiles (files : List GrammarFile) (options : GenerationOptions) :
    Except GenerationError GeneratedUnits := do
  if files.isEmpty then throw .noGrammar
  let (grammars, readWarnings) ← readFiles files
  let a ← Analysis.ofGrammars grammars options.package
  let warnings := (readWarnings ++ a.warnings).map Warning.message
  if options.warningsAsErrors && !warnings.isEmpty then throw (.warningsAsErrors warnings)
  return {
    grammarName := a.grammarName
    units := unitsOf grammars a
    lexer := defaultLexer a
    parser := a.parsers.head?.map ParserSpec.unit
    warnings }

end GeneratedUnits

end GrammarEngine

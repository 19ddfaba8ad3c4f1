import GrammarEngine.Analysis.Imports
import GrammarEngine.Analysis.LeftRecursion
import GrammarEngine.Analysis.References

/-!
# Analysing a set of grammars

Root grammars are analysed with their imports merged: first the lexer grammars, then the combined
and the parser grammars, each in the given order. A combined grammar yields a lexer and, if it has
parser rules, a parser that may add tokens to that lexer's vocabulary. A parser grammar names the
grammar of an earlier lexer and must keep to its vocabulary.
-/
namespace GrammarEngine

namespace Analysis

/-- A unit name inside a package. -/
def qualify (package : Option String) (name : String) : String :=
  match package with
  | some p => if p.isEmpty then name else s!"{p}.{name}"
  | none => name

/-- The rules of a parser that have been built and what building them added. -/
structure ParserRules where
  specs : List ParserRuleSpec
  vocabulary : List TokenSpec
  warnings : List Warning

/-- Resolve one more rule. -/
def addParserRule (g : Grammar) (scope : References.Scope) (built : ParserRules) (r : Rule) :
    Except GenerationError ParserRules :=
  let resolved := do
    let (alternatives, s) ←
      (References.ruleAlternatives scope r).run { vocabulary := built.vocabulary }
    return (← LeftRecursion.eliminate r.name alternatives, s)
  match resolved with
  | .error fault => .error (g.ruleError r fault)
  | .ok (spec, s) => .ok {
      specs := built.specs ++ [spec]
      vocabulary := s.vocabulary
      warnings := built.warnings ++
        s.added.map fun name => .located g.file r.position (.implicitToken name) }

/-- A parser over a lexer, with the lexer whose vocabulary it completes and its warnings. -/
def buildParser (g : Grammar) (unit : String) (rules : List Rule) (lexer : LexerSpec)
    (allowImplicit : Bool) : Except GenerationError (ParserSpec × LexerSpec × List Warning) := do
  g.checkDuplicates rules
  let base := g.option? "superClass"
  let scope : References.Scope := ⟨rules.map Rule.name, base.isSome, allowImplicit⟩
  let built ← rules.foldlM (addParserRule g scope) ⟨[], lexer.vocabulary, []⟩
  if let some path := LeftRecursion.cycle? built.specs then
    throw (.grammar g.name (.mutualLeftRecursion path))
  match built.specs with
  | [] => throw (.grammar g.name .noParserRules)
  | first :: _ =>
    let parser : ParserSpec := {
      unit, grammar := g.name, «extends» := base, vocabularyUnit := lexer.unit
      startRule := first.name, rules := built.specs }
    return (parser, { lexer with vocabulary := built.vocabulary }, built.warnings)

/-- The recognizers found so far. -/
structure Progress where
  lexers : List LexerSpec := []
  parsers : List ParserSpec := []
  warnings : List Warning := []

def addLexerGrammar (package : Option String) (p : Progress) (g : Grammar) :
    Except GenerationError Progress := do
  if let some r := g.rules.find? fun r => !r.isLexerRule then
    throw (g.ruleError r .parserRuleInLexerGrammar)
  let lexer ← LexerSpec.build g (qualify package g.name) g.rules []
  return { p with lexers := p.lexers ++ [lexer] }

def addCombinedGrammar (package : Option String) (p : Progress) (g : Grammar) :
    Except GenerationError Progress := do
  if g.rules.isEmpty then throw (.grammar g.name .noRules)
  let lexerRules := g.rules.filter Rule.isLexerRule
  let parserRules := g.rules.filter fun r => !r.isLexerRule
  let lexer ← LexerSpec.build g (qualify package s!"{g.name}Lexer") lexerRules
    (LexerSpec.parserLiterals parserRules)
  if parserRules.isEmpty then
    return { p with
      lexers := p.lexers ++ [lexer], warnings := p.warnings ++ [.noParser g.name] }
  let (parser, lexer, warnings) ←
    buildParser g (qualify package s!"{g.name}Parser") parserRules lexer true
  return {
    lexers := p.lexers ++ [lexer]
    parsers := p.parsers ++ [parser]
    warnings := p.warnings ++ warnings }

def addParserGrammar (package : Option String) (p : Progress) (g : Grammar) :
    Except GenerationError Progress := do
  if let some r := g.rules.find? Rule.isLexerRule then
    throw (g.ruleError r .lexerRuleInParserGrammar)
  match g.option? "tokenVocab" with
  | none => throw (.grammar g.name .missingTokenVocab)
  | some vocab =>
    match p.lexers.find? fun l => l.grammar == vocab with
    | none => throw (.grammar g.name (.unknownTokenVocab vocab))
    | some lexer =>
      let (parser, _, warnings) ← buildParser g (qualify package g.name) g.rules lexer false
      return { p with parsers := p.parsers ++ [parser], warnings := p.warnings ++ warnings }

def addGrammar (package : Option String) (p : Progress) (g : Grammar) :
    Except GenerationError Progress :=
  match g.kind with
  | .lexer => addLexerGrammar package p g
  | .combined => addCombinedGrammar package p g
  | .parser => addParserGrammar package p g

/-- The recognizers of a set of grammars, their units named inside a package. -/
def ofGrammars (grammars : List Grammar) (package : Option String) :
    Except GenerationError Analysis := do
  if grammars.isEmpty then throw .noGrammar
  let roots ← Imports.roots grammars
  let lexerGrammars := roots.filter fun g => g.kind == .lexer
  let others := roots.filter fun g => g.kind != .lexer
  match others ++ lexerGrammars with
  | [] => throw .noGrammar
  | first :: _ =>
    let p ← (lexerGrammars ++ others).foldlM (addGrammar package) {}
    return ⟨first.name, p.lexers, p.parsers, p.warnings⟩

end Analysis

end GrammarEngine

import GrammarEngine.Grammar.Basic
import GrammarEngine.Grammar.Literal

/-!
# What can be wrong with a grammar

Problems in four layers: the text of one file, one rule among the others, one grammar, and the set
of grammars. Each cause has its own constructor; the wording is in the `message` functions alone.
Warnings do not stop generation.
-/
namespace GrammarEngine

/-- The ways in which a text fails to be a grammar. -/
inductive SyntaxFault where
  | tokenRecognition (text : String)
  | unexpectedEnd
  | mismatched (found expected : String)
  | missingName (what : String)
  | missingBlock (what : String)
  | modeOutsideLexer
  | missingDeclaration
  | missingOptionValue
  | blocksTooDeep (limit : Nat)
  | unexpected (found : String)
  | unexpectedInSet (found : String)
  | missingRangeEnd
  | invalidRange (low high : String)
  | emptyLiteral
  | literal (fault : Literal.Fault)
  | unexpectedInCommand (found : String)
  | missingCommandArgument
  | unknownCommand (name : String)
deriving Repr, DecidableEq

def SyntaxFault.message : SyntaxFault → String
  | tokenRecognition text => s!"token recognition error at: '{text}'"
  | unexpectedEnd => "unexpected end of file"
  | mismatched found expected => s!"mismatched input {found} expecting {expected}"
  | missingName what => s!"expected {what}"
  | missingBlock what => s!"expected \x7b...\x7d after {what}"
  | modeOutsideLexer => "lexical modes are only allowed in lexer grammars"
  | missingDeclaration => "expected [...] declaration"
  | missingOptionValue => "expected option value"
  | blocksTooDeep limit => s!"blocks nested too deep, limit is {limit}"
  | unexpected found => s!"unexpected {found}"
  | unexpectedInSet found => s!"unexpected {found} in set"
  | missingRangeEnd => "expected literal after '..'"
  | invalidRange low high => s!"invalid range '{Text.escape low}'..'{Text.escape high}'"
  | emptyLiteral => "string literals cannot be empty"
  | literal fault => fault.message
  | unexpectedInCommand found => s!"unexpected {found} in lexer command"
  | missingCommandArgument => "expected lexer command argument"
  | unknownCommand name => s!"unknown lexer command {name}"

/-- What can be wrong with a rule of a well-formed grammar. -/
inductive RuleFault where
  | parserRuleInLexerGrammar
  | lexerRuleInParserGrammar
  | redefinition
  | undefinedRule (name : String)
  | parserRuleInLexer (name : String)
  | endInLexer
  | notNegatable
  | undefinedType (name : String)
  | undefinedChannel (name : String)
  | undefinedMode (name : String)
  | setInParser
  | notToken
  | literalWithoutToken (text : String)
  | undefinedToken (name : String)
  | onlySelfReference
  | noPrimary
deriving Repr, DecidableEq

def RuleFault.message : RuleFault → String
  | parserRuleInLexerGrammar => "parser rule not allowed in lexer grammar"
  | lexerRuleInParserGrammar => "lexer rule not allowed in parser grammar"
  | redefinition => "rule redefinition"
  | undefinedRule name => s!"reference to undefined rule: {name}"
  | parserRuleInLexer name => s!"parser rule {name} not allowed in lexer"
  | endInLexer => "EOF is not allowed in lexer rules"
  | notNegatable => "only single characters and character sets may be negated"
  | undefinedType name => s!"type({name}) refers to an undefined token"
  | undefinedChannel name => s!"channel({name}) refers to an undefined channel"
  | undefinedMode name => s!"lexer mode {name} is not defined"
  | setInParser => "character sets are only allowed in lexer rules"
  | notToken => "only tokens may appear in a parser set"
  | literalWithoutToken text =>
    s!"cannot create implicit token for string literal '{Text.escape text}' in non-combined grammar"
  | undefinedToken name => s!"token {name} is not defined in the vocabulary"
  | onlySelfReference => "alternative consisting solely of a self reference"
  | noPrimary => "left-recursive rule needs at least one non-left-recursive alternative"

/-- What can be wrong with a grammar as a whole. -/
inductive GrammarFault where
  | circularImport
  | noRules
  | noTokenRules
  | noParserRules
  | invalidTokenName (name : String)
  | missingTokenVocab
  | unknownTokenVocab (name : String)
  | mutualLeftRecursion (rules : List String)
deriving Repr, DecidableEq

def GrammarFault.message : GrammarFault → String
  | circularImport => "circular grammar import"
  | noRules => "grammar has no rules"
  | noTokenRules => "lexer has no token rules"
  | noParserRules => "parser has no rules"
  | invalidTokenName name => s!"invalid token name {name} in tokens block"
  | missingTokenVocab => "parser grammar requires a tokenVocab option"
  | unknownTokenVocab name => s!"cannot find tokens file for tokenVocab {name}"
  | mutualLeftRecursion rules =>
    "The following sets of rules are mutually left-recursive [" ++
      String.intercalate ", " rules ++ "]"

inductive GenerationError where
  | noGrammar
  | syntaxError (file : String) (position : Position) (fault : SyntaxFault)
  | rule (file : String) (position : Position) (name : String) (fault : RuleFault)
  | grammar (name : String) (fault : GrammarFault)
  | duplicateGrammar (name : String)
  | missingImport (name importer : String)
  | warningsAsErrors (warnings : List String)
deriving Repr, DecidableEq

/-- A place in a file as messages start with it. -/
def Position.inFile (file : String) (p : Position) : String := s!"{file}:{p.line}:{p.column}"

def GenerationError.message : GenerationError → String
  | noGrammar => "No grammar files supplied"
  | syntaxError file p fault => s!"{p.inFile file}: syntax error: {fault.message}"
  | rule file p name fault => s!"{p.inFile file}: rule {name}: {fault.message}"
  | grammar name fault => s!"Grammar {name}: {fault.message}"
  | duplicateGrammar name => s!"Grammar {name} is declared more than once"
  | missingImport name importer => s!"Cannot find grammar {name} imported by {importer}"
  | warningsAsErrors warnings =>
    s!"{warnings.length} warning(s) treated as errors: " ++ String.intercalate "; " warnings

/-- What generation reports and then leaves out or adds. -/
inductive Notice where
  | namedAction
  | predicate
  | embeddedAction
  | exceptionHandler (rule : String)
  | implicitToken (name : String)
deriving Repr, DecidableEq

def Notice.message : Notice → String
  | namedAction => "named action ignored"
  | predicate => "semantic predicate ignored"
  | embeddedAction => "embedded action ignored"
  | exceptionHandler rule => s!"exception handler on rule {rule} ignored"
  | implicitToken name => s!"implicit definition of token {name} in parser"

inductive Warning where
  | located (file : String) (position : Position) (notice : Notice)
  | noParser (grammar : String)
deriving Repr, DecidableEq

def Warning.message : Warning → String
  | located file p notice => s!"{p.inFile file}: {notice.message}"
  | noParser grammar => s!"grammar {grammar} has no parser rules; no parser generated"

end GrammarEngine

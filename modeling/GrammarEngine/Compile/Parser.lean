import GrammarEngine.Compile.Lexer
import GrammarEngine.Sorted

/-!
# Compiling parsers

A declared parser becomes a header image and one image for each of its rules. Names of tokens and
literals are looked up in the vocabulary lexer, where the last token of a name or spelling counts.

A rule that is not the parser's own is taken from the library that the parser extends: it is
appended to the rules at its first use and compiled like them, so that exactly the library rules
that can be reached become part of the parser. Every rule is appended at most once. A fault in one
rule does not keep the rules after it from being compiled.
-/
namespace GrammarEngine

namespace ParserDecl

/-- What references in a parser can name besides its rules. -/
structure Scope where
  tokens : List TokenDecl
  library : Option LibraryDecl

/-- Steps of linking grow the list of rules, also when they fail. -/
abbrev Linking := ExceptT CompileFault.Located (StateM (List ParserRuleDecl))

/-- The number of a rule; the last one of a name counts. -/
def indexOf? (rules : List ParserRuleDecl) (name : String) : Option Nat :=
  (rules.reverse.findIdx? fun r => r.name == name).map fun i => rules.length - 1 - i

def libraryRule? (scope : Scope) (name : String) : Option ParserRuleDecl :=
  scope.library.bind fun l => l.rules.find? fun r => r.name == name

/-- The number of the rule that a name means, which may append a library rule. -/
def ruleIndex (scope : Scope) (name : String) (p : Position) : Linking UInt32 := do
  let rules ← get
  match indexOf? rules name with
  | some i => return UInt32.ofNat i
  | none =>
    match libraryRule? scope name with
    | none => throw (p, .unknownRule name)
    | some r =>
      set (rules ++ [r])
      return UInt32.ofNat rules.length

def tokenType (scope : Scope) (name : String) (p : Position) : Linking TokenType :=
  if name == eofName then return TokenType.eof
  else match scope.tokens.reverse.find? fun t => t.name == name with
    | some t => return t.type
    | none => throw (p, .unknownToken name)

def literalType (scope : Scope) (text : String) (p : Position) : Linking TokenType :=
  match scope.tokens.reverse.find? fun t => t.literal == some text with
  | some t => return t.type
  | none => throw (p, .unknownLiteral text)

def sequenceOf : List ParseExpr → ParseExpr
  | [] => .empty
  | [e] => e
  | es => .seq es

def choiceOf : List ParseExpr → ParseExpr
  | [e] => e
  | es => .choice es

def repetitionOf (kind : Repetition) (body : ParseExpr) (greedy : Bool) : ParseExpr :=
  match kind with
  | .optional => .optional body greedy
  | .zeroOrMore => .star body greedy
  | .oneOrMore => .plus body greedy

mutual
def lower (scope : Scope) : UnitExpr → Linking ParseExpr
  | .empty => return .empty
  | .seq items => return sequenceOf (← lowerAll scope items)
  | .choice items => return .choice (← lowerAll scope items)
  | .repeated kind isLazy body => return repetitionOf kind (← lower scope body) (!isLazy)
  | .literal text p => return .token (← literalType scope text p)
  | .token name p => return .token (← tokenType scope name p)
  | .notTokens names p =>
    return .notTokens (Sorted.ofList (← names.mapM fun name => tokenType scope name p))
  | .any => return .anyToken
  | .eof => return .token TokenType.eof
  | .invoke name precedence p => return .rule (← ruleIndex scope name p) precedence
  | .ref _ p => throw (p, .lexerReference)
  | .ranges .. => throw (Position.unknown, .setInParserRule)

def lowerAll (scope : Scope) : List UnitExpr → Linking (List ParseExpr)
  | [] => return []
  | e :: rest => return (← lower scope e) :: (← lowerAll scope rest)
end

def lowerSequence (scope : Scope) (items : List UnitExpr) : Linking ParseExpr :=
  return sequenceOf (← lowerAll scope items)

def lowerAlternatives (scope : Scope) (alternatives : List (List UnitExpr)) : Linking ParseExpr :=
  return choiceOf (← alternatives.mapM (lowerSequence scope))

def lowerSuffix (scope : Scope) (s : UInt32 × List UnitExpr) : Linking Suffix :=
  return ⟨s.1, ← lowerSequence scope s.2⟩

def lowerBody (scope : Scope) : ParserRuleBody → Linking RuleBody
  | .plain alternatives => return .plain (← lowerAlternatives scope alternatives)
  | .leftRecursive primaries suffixes =>
    return .leftRecursive (← lowerAlternatives scope primaries)
      (← suffixes.mapM (lowerSuffix scope))

/-- Lower the rules from a given number on, those that are appended on the way included. -/
def lowerRules (scope : Scope) :
    Nat → Nat → StateM (List ParserRuleDecl) (List (Except CompileFault.Located RuleBody))
  | 0, _ => return []
  | bound + 1, index => do
    match (← get)[index]? with
    | none => return []
    | some r =>
      let body ← (lowerBody scope r.body).run
      return body :: (← lowerRules scope bound (index + 1))

/-- The most rules that a parser can consist of. -/
def ruleBound (d : ParserDecl) (library : Option LibraryDecl) : Nat :=
  d.rules.length + (library.elim 0 fun l => l.rules.length)

def vocabularyLexer (d : ParserDecl) (index : UnitIndex) :
    Except CompileFault.Located LexerDecl :=
  match index.find? d.vocabulary.name with
  | some (.lexer l) => .ok l
  | some _ => .error (d.vocabulary.position, .notALexer d.vocabulary.name)
  | none => .error (d.vocabulary.position, .unknownLexer d.vocabulary.name)

/-- The number of the start rule, the first rule if none is named. -/
def startRule (d : ParserDecl) (rules : List ParserRuleDecl) : Except CompileFault.Located Nat :=
  match d.start with
  | none => .ok 0
  | some n =>
    match indexOf? rules n.name with
    | some i => .ok i
    | none => .error (n.position, .unknownRule n.name)

def ruleImages (unit : String) : Nat → List ParserRuleDecl → List RuleBody → NamedImages
  | index, r :: rules, body :: bodies =>
    (innerName unit r.name, .parserRule ⟨r.name, UInt32.ofNat index, body⟩) ::
      ruleImages unit (index + 1) rules bodies
  | _, _, _ => []

def header (d : ParserDecl) (rules : List ParserRuleDecl) (start : Nat) : ParserHeader where
  name := d.name
  grammar := d.grammar
  vocabularyUnit := d.vocabulary.name
  ruleNames := rules.map ParserRuleDecl.name
  ruleUnits := rules.map fun r => innerName d.name r.name
  startRule := UInt32.ofNat start

/-- The images of a parser, or what is wrong with it. -/
def compile (d : ParserDecl) (index : UnitIndex) :
    Except (List CompileFault.Located) NamedImages :=
  let found := do
    let lexer ← d.vocabularyLexer index
    return (lexer, ← baseLibrary d.base index)
  match found with
  | .error e => .error [e]
  | .ok (lexer, library) =>
    if d.rules.isEmpty then .error [(d.position, .noParserRules)]
    else
      let scope : Scope := ⟨lexer.tokens, library⟩
      let (bodies, rules) := (lowerRules scope (d.ruleBound library) 0).run d.rules
      let start := d.startRule rules
      let repeated := duplicates "rule" [] (d.rules.map fun r => ⟨r.name, r.position⟩)
      match start, repeated ++ LexerDecl.faults bodies with
      | .ok i, [] =>
        .ok ((d.name, .parserHeader (d.header rules i)) ::
          ruleImages d.name 0 rules (LexerDecl.values bodies))
      | .ok _, found => .error found
      | .error e, found => .error (found ++ [e])

end ParserDecl

namespace LibraryDecl

def names (d : LibraryDecl) : List NameAt :=
  d.fragments.map (fun f => ⟨f.name, f.position⟩) ++ d.rules.map fun r => ⟨r.name, r.position⟩

/-- The image of a library, or its repeated names. -/
def compile (d : LibraryDecl) : Except (List CompileFault.Located) NamedImages :=
  match duplicates "library member" [] d.names with
  | [] =>
    .ok [(d.name, .library ⟨d.name, d.fragments.map FragmentDecl.name,
      d.rules.map ParserRuleDecl.name⟩)]
  | found => .error found

end LibraryDecl

end GrammarEngine

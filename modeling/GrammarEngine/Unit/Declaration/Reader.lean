import GrammarEngine.Unit.Declaration

/-!
# Reading declarations

A unit is one form of the unit notation. Its clauses are read in order; where a clause may be given
once, the last one counts. The first thing that does not fit is an error at the form around it.
-/
namespace GrammarEngine

/-- The ways in which a text fails to declare a unit. -/
inductive DeclarationFault where
  | unreadable (fault : Sexpr.ReadFault)
  | emptySource
  | secondForm
  | unknownUnit
  | missingString (what : String)
  | missingInteger (what : String)
  | notAString
  | typeOutOfRange
  | unknownClause (unit : String)
  | notAnAlternative
  | expressionAfterCommand
  | channelArgument
  | missingArgument
  | missingVocabulary
  | precedenceOutOfRange
  | notAPart
  | missingPrimary
  | repetitionArity
  | notARange
  | invalidRange
  | invalidPrecedence
  | unknownExpression
deriving Repr, DecidableEq

def DeclarationFault.message : DeclarationFault → String
  | unreadable fault => fault.message
  | emptySource => "empty unit source"
  | secondForm => "unexpected second top-level form"
  | unknownUnit => "expected (lexer ...), (parser ...) or (library ...)"
  | missingString what => s!"expected {what} string"
  | missingInteger what => s!"expected {what} integer"
  | notAString => "expected string"
  | typeOutOfRange => "token type out of range"
  | unknownClause unit => s!"unknown {unit} clause"
  | notAnAlternative => "expected (alt ...)"
  | expressionAfterCommand => "expression after lexer command"
  | channelArgument => "expected channel name or number"
  | missingArgument => "missing argument"
  | missingVocabulary => "parser has no (vocab ...) clause"
  | precedenceOutOfRange => "precedence out of range"
  | notAPart => "expected (primary ...) or (suffix ...)"
  | missingPrimary => "left-recursive rule without a primary alternative"
  | repetitionArity => "repetition takes exactly one expression"
  | notARange => "expected (range lo hi)"
  | invalidRange => "invalid character range"
  | invalidPrecedence => "invalid precedence"
  | unknownExpression => "unknown expression form"

namespace UnitDecl

/-- A step of reading a declaration; a fault carries its place. -/
abbrev Reading (α : Type) := Except (Position × DeclarationFault) α

def faultAt {α : Type} (form : Sexpr) (fault : DeclarationFault) : Reading α :=
  .error (form.position, fault)

/-! ## Arguments -/

def stringAt (form : Sexpr) (index : Nat) (what : String) : Reading String :=
  match form.args[index]?.bind Sexpr.text? with
  | some s => .ok s
  | none => faultAt form (.missingString what)

def intAt (form : Sexpr) (index : Nat) (what : String) : Reading Int :=
  match form.args[index]?.bind Sexpr.int? with
  | some n => .ok n
  | none => faultAt form (.missingInteger what)

def stringOf (form : Sexpr) : Reading String :=
  match form.text? with
  | some s => .ok s
  | none => faultAt form .notAString

def strings (form : Sexpr) : Reading (List String) := form.args.mapM stringOf

def toWord? (n : Int) : Option UInt32 :=
  if 0 ≤ n ∧ n < 0x100000000 then some (UInt32.ofNat n.toNat) else none

def toType? (n : Int) : Option TokenType :=
  if -0x80000000 ≤ n ∧ n < 0x80000000 then some (Int32.ofInt n) else none

def typeOf (form : Sexpr) (n : Int) : Reading TokenType :=
  match toType? n with
  | some t => .ok t
  | none => faultAt form .typeOutOfRange

/-! ## Expressions -/

def range (form : Sexpr) : Reading (UInt32 × UInt32) := do
  if form.head? != some "range" then faultAt form .notARange
  let low ← intAt form 0 "range start"
  let high ← intAt form 1 "range end"
  match toWord? low, toWord? high with
  | some l, some h => if l ≤ h then return (l, h) else faultAt form .invalidRange
  | _, _ => faultAt form .invalidRange

/-- The precedence in an invocation, zero where none is written. -/
def precedence : List Sexpr → Reading UInt32
  | _ :: arg :: _ =>
    match arg.int?.bind toWord? with
    | some n => .ok n
    | none => faultAt arg .invalidPrecedence
  | _ => .ok 0

/-- The repetition that a head names and whether it prefers fewer matches. -/
def repetition? : String → Option (Repetition × Bool)
  | "opt" => some (.optional, false)
  | "star" => some (.zeroOrMore, false)
  | "plus" => some (.oneOrMore, false)
  | "opt-lazy" => some (.optional, true)
  | "star-lazy" => some (.zeroOrMore, true)
  | "plus-lazy" => some (.oneOrMore, true)
  | _ => none

/-- An expression whose form holds no further expressions. -/
def leaf (form : Sexpr) (head : String) : Reading UnitExpr := do
  match head with
  | "empty" => return .empty
  | "lit" => return .literal (← stringAt form 0 "literal") form.position
  | "set" => return .ranges (← form.args.mapM range) false
  | "nset" => return .ranges (← form.args.mapM range) true
  | "any" => return .any
  | "eof" => return .eof
  | "ref" => return .ref (← stringAt form 0 "rule name") form.position
  | "tok" => return .token (← stringAt form 0 "token name") form.position
  | "ntok" => return .notTokens (← strings form) form.position
  | "invoke" =>
    let p ← precedence form.args
    return .invoke (← stringAt form 0 "rule name") p form.position
  | _ => faultAt form .unknownExpression

mutual
def expr : Sexpr → Reading UnitExpr
  | .list p (.symbol q head :: args) =>
    if head == "seq" then (exprs args).map .seq
    else if head == "choice" then (exprs args).map .choice
    else
      match repetition? head with
      | some (kind, isLazy) =>
        match args with
        | [only] => (expr only).map (.repeated kind isLazy)
        | _ => .error (p, .repetitionArity)
      | none => leaf (.list p (.symbol q head :: args)) head
  | form => faultAt form .unknownExpression

def exprs : List Sexpr → Reading (List UnitExpr)
  | [] => .ok []
  | form :: rest => do return (← expr form) :: (← exprs rest)
end

/-! ## Rules -/

def alternative (form : Sexpr) : Reading (List UnitExpr) :=
  if form.head? == some "alt" then exprs form.args else faultAt form .notAnAlternative

def alternatives (forms : List Sexpr) : Reading (List (List UnitExpr)) := forms.mapM alternative

def channelName (form : Sexpr) : Reading String :=
  match form.args with
  | [] => faultAt form .missingArgument
  | arg :: _ =>
    match arg.text?.or (arg.int?.map toString) with
    | some s => .ok s
    | none => faultAt arg .channelArgument

/-- The command that a form names, if it names one. -/
def command? (form : Sexpr) : Reading (Option LexerCommand) := do
  match form.head? with
  | some "skip" => return some .skip
  | some "more" => return some .more
  | some "pop-mode" => return some .popMode
  | some "channel" => return some (.channel (← channelName form))
  | some "type" => return some (.type (← stringAt form 0 "token name"))
  | some "mode" => return some (.mode (← stringAt form 0 "mode name"))
  | some "push-mode" => return some (.pushMode (← stringAt form 0 "mode name"))
  | _ => return none

/-- Add an item to a lexer alternative; commands come after all expressions. -/
def addItem (a : LexerAlternative) (form : Sexpr) : Reading LexerAlternative := do
  match ← command? form with
  | some c => return { a with commands := a.commands ++ [(c, form.position)] }
  | none =>
    if a.commands.isEmpty then return { a with items := a.items ++ [← expr form] }
    else faultAt form .expressionAfterCommand

def lexerAlternative (form : Sexpr) : Reading LexerAlternative :=
  if form.head? == some "alt" then form.args.foldlM addItem ⟨[], []⟩
  else faultAt form .notAnAlternative

def fragment (form : Sexpr) : Reading FragmentDecl := do
  let name ← stringAt form 0 "fragment name"
  return ⟨name, form.position, ← alternatives (form.args.drop 1)⟩

def token (form : Sexpr) : Reading TokenDecl := do
  let type ← typeOf form (← intAt form 0 "token type")
  let name ← stringAt form 1 "token name"
  return ⟨type, name, form.args[2]?.bind Sexpr.text?⟩

def lexerRule (form : Sexpr) : Reading LexerRuleDecl := do
  let type ← intAt form 1 "token type"
  let alternatives ← (form.args.drop 3).mapM lexerAlternative
  let name ← stringAt form 0 "rule name"
  let type ← typeOf form type
  return ⟨name, form.position, type, ← stringAt form 2 "mode name", alternatives⟩

/-- The primaries and suffixes of a left-recursive rule. -/
abbrev Parts := List (List UnitExpr) × List (UInt32 × List UnitExpr)

def addPart (parts : Parts) (form : Sexpr) : Reading Parts := do
  match form.head? with
  | some "primary" => return (parts.1 ++ (← alternatives form.args), parts.2)
  | some "suffix" =>
    let n ← intAt form 0 "precedence"
    match toWord? n with
    | none => faultAt form .precedenceOutOfRange
    | some p =>
      let found ← alternatives (form.args.drop 1)
      return (parts.1, parts.2 ++ found.map fun a => (p, a))
  | _ => faultAt form .notAPart

def parserRuleBody (form : Sexpr) : Reading ParserRuleBody := do
  let rest := form.args.drop 1
  if form.head? == some "rule" then return .plain (← alternatives rest)
  let parts ← rest.foldlM addPart ([], [])
  if parts.1.isEmpty then faultAt form .missingPrimary
  return .leftRecursive parts.1 parts.2

def parserRule (form : Sexpr) : Reading ParserRuleDecl := do
  let name ← stringAt form 0 "rule name"
  return ⟨name, form.position, ← parserRuleBody form⟩

/-! ## Units -/

def nameAt (form : Sexpr) (what : String) : Reading NameAt := do
  return ⟨← stringAt form 0 what, form.position⟩

def addLexerClause (d : LexerDecl) (form : Sexpr) : Reading LexerDecl := do
  match form.head? with
  | some "grammar" => return { d with grammar := ← stringAt form 0 "grammar name" }
  | some "case-insensitive" => return { d with caseInsensitive := true }
  | some "extends" => return { d with base := some (← nameAt form "unit name") }
  | some "channels" => return { d with channels := ← strings form }
  | some "modes" => return { d with modes := ← strings form }
  | some "token" => return { d with tokens := d.tokens ++ [← token form] }
  | some "rule" => return { d with rules := d.rules ++ [← lexerRule form] }
  | some "fragment" => return { d with fragments := d.fragments ++ [← fragment form] }
  | _ => faultAt form (.unknownClause "lexer")

/-- A lexer that declares no modes has the default one. -/
def lexerOf (form : Sexpr) : Reading LexerDecl := do
  let name ← stringAt form 0 "lexer name"
  let d ← (form.args.drop 1).foldlM addLexerClause { name, position := form.position }
  return if d.modes.isEmpty then { d with modes := [defaultMode] } else d

/-- A parser whose clauses have not all been read. -/
structure PartialParser where
  grammar : String := ""
  vocabulary : Option NameAt := none
  base : Option NameAt := none
  start : Option NameAt := none
  rules : List ParserRuleDecl := []

def addParserClause (d : PartialParser) (form : Sexpr) : Reading PartialParser := do
  match form.head? with
  | some "grammar" => return { d with grammar := ← stringAt form 0 "grammar name" }
  | some "vocab" => return { d with vocabulary := some (← nameAt form "lexer name") }
  | some "extends" => return { d with base := some (← nameAt form "unit name") }
  | some "start" => return { d with start := some (← nameAt form "rule name") }
  | some "rule" => return { d with rules := d.rules ++ [← parserRule form] }
  | some "lrule" => return { d with rules := d.rules ++ [← parserRule form] }
  | _ => faultAt form (.unknownClause "parser")

def parserOf (form : Sexpr) : Reading ParserDecl := do
  let name ← stringAt form 0 "parser name"
  let d ← (form.args.drop 1).foldlM addParserClause {}
  match d.vocabulary with
  | none => faultAt form .missingVocabulary
  | some vocabulary =>
    return {
      name, position := form.position, grammar := d.grammar, vocabulary, base := d.base
      start := d.start, rules := d.rules }

def addLibraryClause (d : LibraryDecl) (form : Sexpr) : Reading LibraryDecl := do
  match form.head? with
  | some "fragment" => return { d with fragments := d.fragments ++ [← fragment form] }
  | some "rule" => return { d with rules := d.rules ++ [← parserRule form] }
  | some "lrule" => return { d with rules := d.rules ++ [← parserRule form] }
  | _ => faultAt form (.unknownClause "library")

def libraryOf (form : Sexpr) : Reading LibraryDecl := do
  let name ← stringAt form 0 "library name"
  (form.args.drop 1).foldlM addLibraryClause { name, position := form.position }

/-- The unit that the forms of a text declare. -/
def ofForms : List Sexpr → Reading UnitDecl
  | [] => .error ({}, .emptySource)
  | [form] =>
    match form.head? with
    | some "lexer" => (lexerOf form).map .lexer
    | some "parser" => (parserOf form).map .parser
    | some "library" => (libraryOf form).map .library
    | _ => faultAt form .unknownUnit
  | _ :: extra :: _ => faultAt extra .secondForm

/-- The unit that a text declares. -/
def read (text : String) : Reading UnitDecl :=
  match Sexpr.readAll text with
  | .error e => .error (e.position, .unreadable e.fault)
  | .ok forms => ofForms forms

end UnitDecl

end GrammarEngine

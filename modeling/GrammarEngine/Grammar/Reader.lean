import GrammarEngine.Grammar.Error
import GrammarEngine.Grammar.Lexeme

/-!
# Reading grammars

A grammar is read from its lexemes from left to right. The reader's state holds the lexemes that
remain, so the current place is that of the next lexeme, or of the last one at the end of the file,
and a fault found after a lexeme was taken is reported at the place of what follows it.

Repetitions in the notation take at least one lexeme each time, so the number of lexemes at hand
bounds them. Blocks in parentheses nest to a fixed depth: a block is read by a reader for the next
smaller depth, and there is none at the limit.
-/
namespace GrammarEngine

namespace Reading

structure State where
  rest : List Lexeme.Placed
  last : Position := {}
  notices : List (Position × Notice) := []
deriving Repr

abbrev Fault := Position × SyntaxFault

end Reading

/-- A step of reading a grammar file. -/
abbrev Reading := StateT Reading.State (Except Reading.Fault)

namespace Reading

/-! ## Lexemes -/

def State.position (s : State) : Position :=
  match s.rest with
  | next :: _ => next.position
  | [] => s.last

def fail {α : Type} (fault : SyntaxFault) : Reading α := fun s => .error (s.position, fault)

def failAt {α : Type} (p : Position) (fault : SyntaxFault) : Reading α := fun _ => .error (p, fault)

def here : Reading Position := return (← get).position

def notice (n : Notice) : Reading Unit :=
  modify fun s => { s with notices := s.notices ++ [(s.position, n)] }

/-- The next lexeme, which is not taken. -/
def peek? : Reading (Option Lexeme) := return (← get).rest.head?.map Lexeme.Placed.lexeme

/-- Take the next lexeme. -/
def next : Reading Lexeme := fun s =>
  match s.rest with
  | l :: rest => .ok (l.lexeme, { s with rest })
  | [] => .error (s.position, .unexpectedEnd)

/-- Drop the next lexeme if there is one. -/
def drop : Reading Unit := modify fun s => { s with rest := s.rest.tail }

/-- Take the next lexeme if it is this one. -/
def eat (l : Lexeme) : Reading Bool := do
  if (← peek?) == some l then
    drop
    return true
  else return false

def eatSign (s : Sign) : Reading Bool := eat (.sign s)

def expect (l : Lexeme) : Reading Unit := do
  if ← eat l then return ()
  let found := match ← peek? with
    | some other => other.describe
    | none => "<EOF>"
  fail (.mismatched found l.describe)

def expectSign (s : Sign) : Reading Unit := expect (.sign s)

def name (what : String) : Reading String := do
  match (← peek?).bind Lexeme.name? with
  | some s =>
    drop
    return s
  | none => fail (.missingName what)

def action (what : String) : Reading String := do
  match ← next with
  | .action body => return body
  | _ => fail (.missingBlock what)

/-- The number of lexemes that remain, which bounds every repetition. -/
def remaining : Reading Nat := return (← get).rest.length

/-- The results of an item as long as the next lexeme admits one. -/
def manyWhile {α : Type} (admits : Option Lexeme → Bool) (item : Reading α) : Nat → Reading (List α)
  | 0 => return []
  | bound + 1 => do
    if admits (← peek?) then
      let a ← item
      return a :: (← manyWhile admits item bound)
    else return []

def many {α : Type} (admits : Option Lexeme → Bool) (item : Reading α) : Reading (List α) := do
  manyWhile admits item (← remaining)

/-- One item or more with a sign between each two. -/
def separatedBy {α : Type} (separator : Sign) (item : Reading α) : Reading (List α) := do
  let first ← item
  let others ← many (· == some (.sign separator)) (do drop; item)
  return first :: others

/-! ## Atoms -/

def liftLiteral {α : Type} : Except Literal.Fault α → Reading α
  | .ok a => return a
  | .error fault => fail (.literal fault)

/-- The characters of a literal, of which there must be one. -/
def literal (body : String) : Reading String := do
  let cs ← liftLiteral (Literal.unescape body.toList)
  if cs.isEmpty then fail .emptyLiteral else return String.ofList cs

def charSet (body : String) : Reading Element := do
  return .charSet (← liftLiteral (Literal.charSet body.toList)) false

def singleChar? (s : String) : Option Char :=
  match s.toList with
  | [c] => some c
  | _ => none

/-- A literal, or the range between two literals of one character. -/
def literalOrRange (body : String) : Reading Element := do
  let low ← literal body
  if !(← eatSign .range) then return .literal low
  let high ← match ← next with
    | .literal upper => literal upper
    | _ => fail .missingRangeEnd
  match singleChar? low, singleChar? high with
  | some l, some h =>
    if l ≤ h then return .charSet [(l, h)] false else fail (.invalidRange low high)
  | _, _ => fail (.invalidRange low high)

def setMember : Reading Element := do
  match ← next with
  | .literal body => literalOrRange body
  | .charSet body => charSet body
  | .tokenName name => return .token name
  | other => fail (.unexpectedInSet other.describe)

def exclusion : Reading Element := do
  if ← eatSign .lparen then
    let members ← separatedBy .or setMember
    expectSign .rparen
    return .not members
  else return .not [← setMember]

/-- Skip the label in front of an element. -/
def skipLabel : Reading Unit := do
  match (← get).rest with
  | a :: b :: _ =>
    if a.lexeme.name?.isSome &&
        (b.lexeme == .sign .assign || b.lexeme == .sign .plusAssign) then
      drop
      drop
  | _ => return ()

/-- The repetition that a sign after an element asks for. -/
def repetition? : Option Lexeme → Option Repetition
  | some (.sign .question) => some .optional
  | some (.sign .star) => some .zeroOrMore
  | some (.sign .plus) => some .oneOrMore
  | _ => none

def withRepetition (e : Element) : Reading Element := do
  match repetition? (← peek?) with
  | none => return e
  | some kind =>
    drop
    let lazily ← eatSign .question
    return .repeated e kind (!lazily)

/-- The deepest nesting of blocks in parentheses. -/
def maxBlockDepth : Nat := 64

/-- A single element; blocks are read by the given reader unless the limit is reached. Actions and
predicates leave no element. -/
def element (block : Option (Reading (List Alternative))) : Reading (Option Element) := do
  skipLabel
  let p ← here
  let atom ← match ← next with
    | .action _ =>
      if ← eatSign .question then notice .predicate else notice .embeddedAction
      return none
    | .literal body => literalOrRange body
    | .tokenName name => pure (if name == "EOF" then .eof else .token name)
    | .ruleName name =>
      if let some (.charSet _) ← peek? then drop
      pure (.rule name)
    | .charSet body => charSet body
    | .sign .dot => pure .any
    | .sign .lparen =>
      match block with
      | none => failAt p (.blocksTooDeep maxBlockDepth)
      | some inner =>
        let alternatives ← inner
        expectSign .rparen
        pure (.block alternatives)
    | .sign .tilde => exclusion
    | other => failAt p (.unexpected other.describe)
  return some (← withRepetition atom)

/-! ## Alternatives -/

def commandOf? (name : String) (argument : Option String) : Option LexerCommand :=
  match name, argument with
  | "skip", none => some .skip
  | "more", none => some .more
  | "popMode", none => some .popMode
  | "channel", some s => some (.channel s)
  | "type", some s => some (.type s)
  | "mode", some s => some (.mode s)
  | "pushMode", some s => some (.pushMode s)
  | _, _ => none

/-- The text of a name or a number. -/
def word? : Lexeme → Option String
  | .tokenName s => some s
  | .ruleName s => some s
  | .number s => some s
  | _ => none

/-- The argument of a command in parentheses, where there is one. -/
def commandArgument : Reading (Option String) := do
  if ← eatSign .lparen then
    match word? (← next) with
    | some s =>
      expectSign .rparen
      return some s
    | none => fail .missingCommandArgument
  else return none

/-- The rest of a command behind its name. -/
def commandNamed (name : String) : Reading LexerCommand := do
  match commandOf? name (← commandArgument) with
  | some c => return c
  | none => fail (.unknownCommand name)

def command : Reading LexerCommand := do
  match ← next with
  | .ruleName name => commandNamed name
  | .keyword .mode => commandNamed "mode"
  | other => fail (.unexpectedInCommand other.describe)

/-- One option of an alternative; whether it asks for association to the right. -/
def alternativeOption : Reading Bool := do
  let key ← name "option name"
  let value ← (do
    if ← eatSign .assign then
      match word? (← next) with
      | some s => return s
      | none => fail .missingOptionValue
    else return "")
  return key == "assoc" && value == "right"

def alternativeOptions : Reading Bool := do
  if ← eatSign .lt then
    let found ← separatedBy .comma alternativeOption
    expectSign .gt
    return found.any id
  else return false

/-- The lexemes that end the elements of an alternative. -/
def endsElements : Option Lexeme → Bool
  | none => true
  | some (.sign s) => s == .or || s == .semi || s == .rparen || s == .arrow || s == .pound
  | _ => false

def alternative (block : Option (Reading (List Alternative))) : Reading Alternative := do
  let rightAssoc ← alternativeOptions
  let elements ← many (fun l => !endsElements l) (element block)
  let commands ← (do if ← eatSign .arrow then separatedBy .comma command else return [])
  let label ← (do
    if ← eatSign .pound then return some (← name "alternative label") else return none)
  return { elements := elements.filterMap id, label, rightAssoc, commands }

/-- Alternatives in which blocks nest at most to the given depth. -/
def alternatives : Nat → Reading (List Alternative)
  | 0 => separatedBy .or (alternative none)
  | depth + 1 => separatedBy .or (alternative (some (alternatives depth)))

/-! ## Rules and declarations -/

/-- Take lexemes up to and including a block. -/
def untilAction : Nat → Reading Unit
  | 0 => fail .unexpectedEnd
  | bound + 1 => do
    match ← next with
    | .action _ => return ()
    | _ => untilAction bound

def namedAction : Reading Unit := do
  expectSign .at
  untilAction ((← remaining) + 1)
  notice .namedAction

def startsHeader : Option Lexeme → Bool
  | some (.charSet _) => true
  | some (.keyword k) => k == .returns || k == .locals || k == .options
  | some (.sign .at) => true
  | _ => false

/-- One part between the name of a rule and its colon. -/
def ruleHeader : Reading Unit := do
  match ← peek? with
  | some (.sign .at) => namedAction
  | some (.keyword .options) =>
    drop
    discard (action "options")
  | some (.keyword _) =>
    drop
    match ← next with
    | .charSet _ => return ()
    | _ => fail .missingDeclaration
  | _ => drop

def isHandler : Option Lexeme → Bool
  | some (.ruleName s) => s == "catch" || s == "finally"
  | _ => false

def handler (rule : String) : Reading Unit := do
  let keyword ← next
  if keyword == .ruleName "catch" then discard next
  discard (action "exception handler")
  notice (.exceptionHandler rule)

/-- A rule; lexer rules belong to the mode in force. -/
def rule (mode : String) : Reading Rule := do
  let position ← here
  let fragment ← eat (.keyword .fragment)
  let name ← name "rule name"
  discard (many startsHeader ruleHeader)
  expectSign .colon
  let alternatives ← alternatives maxBlockDepth
  expectSign .semi
  discard (many isHandler (handler name))
  let mode := if isTokenName name then mode else defaultMode
  return { name, fragment, mode, alternatives, position }

/-- The parts of a text between the occurrences of a character. -/
def splitAt (separator : Char) : List Char → List (List Char)
  | [] => [[]]
  | c :: rest =>
    if c == separator then [] :: splitAt separator rest
    else match splitAt separator rest with
      | [] => [[c]]
      | first :: others => (c :: first) :: others

def isQuote (c : Char) : Bool := c == '\'' || c == '"'

def dropQuotes (cs : List Char) : List Char :=
  ((cs.dropWhile isQuote).reverse.dropWhile isQuote).reverse

/-- The key and the value of an entry with an equals sign. -/
def optionEntry? (cs : List Char) : Option (String × String) :=
  match cs.dropWhile (· != '=') with
  | [] => none
  | _ :: value =>
    some (String.ofList (Text.trim (cs.takeWhile (· != '='))),
      String.ofList (dropQuotes (Text.trim value)))

/-- The entries of an options block, in order. -/
def optionEntries (body : String) : List (String × String) :=
  (splitAt ';' body.toList).filterMap optionEntry?

/-- Later options replace earlier ones of the same key. -/
def setOption (options : List (String × String)) (entry : String × String) :
    List (String × String) :=
  options.filter (fun e => e.1 != entry.1) ++ [entry]

/-- The names of a tokens or channels block. -/
def names (body : String) : List String :=
  let clean (cs : List Char) : List Char :=
    Text.trim ((Text.trim cs).reverse.dropWhile (· == ';')).reverse
  ((splitAt ',' body.toList).map clean).filterMap fun cs =>
    if cs.isEmpty then none else some (String.ofList cs)

/-- A declaration in front of the rules changes the grammar. -/
def startsDeclaration : Option Lexeme → Bool
  | some (.keyword k) => k == .options || k == .import || k == .tokens || k == .channels
  | some (.sign .at) => true
  | _ => false

def importedName : Reading String := do
  let first ← name "imported grammar name"
  if ← eatSign .assign then name "imported grammar name" else return first

/-- A declaration and its effect on the grammar. -/
def declaration : Reading (Grammar → Grammar) := do
  match ← peek? with
  | some (.keyword .options) =>
    drop
    let entries := optionEntries (← action "options")
    return fun g => { g with options := entries.foldl setOption g.options }
  | some (.keyword .import) =>
    drop
    let imported ← separatedBy .comma importedName
    expectSign .semi
    return fun g => { g with imports := g.imports ++ imported }
  | some (.keyword .tokens) =>
    drop
    let found := names (← action "tokens")
    return fun g => { g with tokens := g.tokens ++ found }
  | some (.keyword _) =>
    drop
    let found := names (← action "channels")
    return fun g => { g with channels := g.channels ++ found }
  | _ =>
    namedAction
    return id

/-- The mode that a mode declaration puts in force. -/
def modeName (kind : GrammarKind) : Reading String := do
  let mode ← name "mode name"
  expectSign .semi
  if kind != .lexer then fail .modeOutsideLexer else return mode

/-- The rules and mode declarations up to the end of the file. -/
def body (kind : GrammarKind) : Nat → String → Grammar → Reading Grammar
  | 0, _, g => return g
  | bound + 1, mode, g => do
    match ← peek? with
    | none => return g
    | some _ =>
      if ← eat (.keyword .mode) then
        let mode ← modeName kind
        let modes := if g.modes.contains mode then g.modes else g.modes ++ [mode]
        body kind bound mode { g with modes }
      else
        let r ← rule mode
        body kind bound mode { g with rules := g.rules ++ [r] }

def grammarKind : Reading GrammarKind := do
  if ← eat (.keyword .lexer) then return .lexer
  else if ← eat (.keyword .parser) then return .parser
  else return .combined

def grammar (file : String) : Reading Grammar := do
  let kind ← grammarKind
  expect (.keyword .grammar)
  let name ← name "grammar name"
  expectSign .semi
  let declarations ← many startsDeclaration declaration
  let start : Grammar :=
    { name, kind, file, options := [], imports := [], tokens := [], channels := [], modes := [],
      rules := [] }
  body kind (← remaining) defaultMode (declarations.foldl (fun g f => f g) start)

end Reading

/-- The grammar that a file holds, with the warnings about what was left out. -/
def Grammar.read (file text : String) : Except GenerationError (Grammar × List Warning) :=
  match Lexeme.scan text with
  | .error e => .error (.syntaxError file e.position (.tokenRecognition e.text))
  | .ok lexemes =>
    let last := (lexemes.getLast?.map Lexeme.Placed.position).getD {}
    match (Reading.grammar file).run { rest := lexemes, last } with
    | .error (p, fault) => .error (.syntaxError file p fault)
    | .ok (g, s) => .ok (g, s.notices.map fun n => .located file n.1 n.2)

end GrammarEngine

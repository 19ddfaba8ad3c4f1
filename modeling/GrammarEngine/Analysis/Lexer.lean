import GrammarEngine.Analysis.Basic
import GrammarEngine.Text.Numeral

/-!
# Lexers of grammars

The vocabulary of a lexer is built in passes: first a token for every literal of the parser rules
that no lexer rule spells alone, then the declared tokens, then the token rules. A name that is
already there keeps its entry. Types are numbered in this order from one.

The rules of a lexer are those implicit ones, in front, and the written ones, with exclusions turned
into character sets.
-/
namespace GrammarEngine.LexerSpec

/-- Channels that every lexer has. -/
def builtinChannels : List String := ["DEFAULT_TOKEN_CHANNEL", "HIDDEN"]

mutual
/-- The literals of an element, in order of appearance. -/
def literalsOf : Element → List String
  | .literal text => [text]
  | .not members => literalsOfAll members
  | .block alternatives => literalsOfAlternatives alternatives
  | .repeated e _ _ => literalsOf e
  | _ => []

def literalsOfAll : List Element → List String
  | [] => []
  | e :: rest => literalsOf e ++ literalsOfAll rest

def literalsOfAlternative : AlternativeOf Element → List String
  | ⟨elements, _, _, _⟩ => literalsOfAll elements

def literalsOfAlternatives : List (AlternativeOf Element) → List String
  | [] => []
  | a :: rest => literalsOfAlternative a ++ literalsOfAlternatives rest
end

/-- The literals of parser rules, each once, in order of first appearance. -/
def parserLiterals (rules : List Rule) : List String :=
  (rules.flatMap fun r => literalsOfAlternatives r.alternatives).eraseDups

/-! ## Vocabulary -/

def hasName (vocabulary : List TokenSpec) (name : String) : Bool :=
  vocabulary.any fun t => t.name == name

/-- Add a token of the next type. -/
def addToken (vocabulary : List TokenSpec) (name : String) (literal : Option String) :
    List TokenSpec :=
  vocabulary ++ [⟨vocabulary.length + 1, name, literal⟩]

/-- Whether a token rule is this literal and nothing else. -/
def spelledByRule (rules : List Rule) (literal : String) : Bool :=
  rules.any fun r => !r.fragment && r.singleLiteral? == some literal

/-- The literals of the parser rules that need a token of their own. -/
def implicitLiterals (rules : List Rule) (literals : List String) : List String :=
  literals.filter fun l => !spelledByRule rules l

def implicitTokens (literals : List String) : List TokenSpec :=
  literals.foldl (fun v l => addToken v s!"T__{v.length}" (some l)) []

def addDeclared (vocabulary : List TokenSpec) (names : List String) : List TokenSpec :=
  names.foldl (fun v n => if hasName v n then v else addToken v n none) vocabulary

/-- A token rule names a token; it lends its literal to an entry that has none. -/
def addRule (vocabulary : List TokenSpec) (r : Rule) : List TokenSpec :=
  if hasName vocabulary r.name then
    match vocabulary.span fun t => t.name != r.name with
    | (before, t :: after) =>
      before ++ { t with literal := t.literal.or r.singleLiteral? } :: after
    | (before, []) => before
  else addToken vocabulary r.name r.singleLiteral?

def tokenRules (rules : List Rule) : List Rule := rules.filter fun r => !r.fragment

/-- The vocabulary before any parser rule is resolved. -/
def vocabularyOf (implicit : List String) (declared : List String) (rules : List Rule) :
    List TokenSpec :=
  (tokenRules rules).foldl addRule (addDeclared (implicitTokens implicit) declared)

def typeOf? (vocabulary : List TokenSpec) (name : String) : Option Nat :=
  (vocabulary.find? fun t => t.name == name).map TokenSpec.type

/-! ## Rules -/

/-- The names that a lexer rule may refer to. -/
structure Names where
  rules : List String
  lenient : Bool

/-- The characters that a member of an exclusion denotes. -/
def excluded : Element → Except RuleFault (List (Char × Char))
  | .literal text =>
    match text.toList with
    | [c] => .ok [(c, c)]
    | _ => .error .notNegatable
  | .charSet ranges false => .ok ranges
  | _ => .error .notNegatable

def excludedAll : List Element → Except RuleFault (List (Char × Char))
  | [] => .ok []
  | e :: rest => do return (← excluded e) ++ (← excludedAll rest)

mutual
/-- An element of a lexer rule with its names checked and its exclusions turned into sets. -/
def resolve (names : Names) : Element → Except RuleFault Element
  | .token name =>
    if names.rules.contains name || names.lenient then .ok (.token name)
    else .error (.undefinedRule name)
  | .rule name => .error (.parserRuleInLexer name)
  | .eof => .error .endInLexer
  | .not members => (excludedAll members).map fun ranges => .charSet ranges true
  | .block alternatives => (resolveAlternatives names alternatives).map .block
  | .repeated e kind greedy => (resolve names e).map fun e => .repeated e kind greedy
  | .literal text => .ok (.literal text)
  | .ruleAt name precedence => .ok (.ruleAt name precedence)
  | .charSet ranges negated => .ok (.charSet ranges negated)
  | .any => .ok .any
  | .notTokens names => .ok (.notTokens names)

def resolveAll (names : Names) : List Element → Except RuleFault (List Element)
  | [] => .ok []
  | e :: rest => do return (← resolve names e) :: (← resolveAll names rest)

def resolveAlternative (names : Names) :
    AlternativeOf Element → Except RuleFault (AlternativeOf Element)
  | ⟨elements, label, rightAssoc, commands⟩ =>
    (resolveAll names elements).map fun elements => ⟨elements, label, rightAssoc, commands⟩

def resolveAlternatives (names : Names) :
    List (AlternativeOf Element) → Except RuleFault (List (AlternativeOf Element))
  | [] => .ok []
  | a :: rest => do return (← resolveAlternative names a) :: (← resolveAlternatives names rest)
end

/-- A channel is given by its number, a built-in name or a declared one. -/
def knowsChannel (channels : List String) (name : String) : Bool :=
  (Text.readDecimal 0x100000000 (Text.dropPlus name.toList)).isSome ||
    builtinChannels.contains name || channels.contains name

def checkCommand (channels modes : List String) (vocabulary : List TokenSpec) :
    LexerCommand → Except RuleFault Unit
  | .type name => if hasName vocabulary name then .ok () else .error (.undefinedType name)
  | .channel name => if knowsChannel channels name then .ok () else .error (.undefinedChannel name)
  | .mode name => if modes.contains name then .ok () else .error (.undefinedMode name)
  | .pushMode name => if modes.contains name then .ok () else .error (.undefinedMode name)
  | _ => .ok ()

/-- An alternative of a lexer rule with its elements resolved and its commands checked. -/
def checkAlternative (names : Names) (channels modes : List String)
    (vocabulary : List TokenSpec) (a : Alternative) : Except RuleFault Alternative := do
  let resolved ← resolveAlternative names a
  a.commands.forM (checkCommand channels modes vocabulary)
  return resolved

/-- The rule of a token for a literal of the parser rules. -/
def implicitRule (t : TokenSpec) : LexerRuleSpec :=
  { name := t.name, tokenType := some t.type, mode := defaultMode
    alternatives := [{ elements := (t.literal.map Element.literal).toList }] }

def isValidTokenName (name : String) : Bool := isTokenName name && name.toList.all Text.isWordChar

/-- The lexer of a grammar's lexer rules and of the literals of its parser rules. -/
def build (g : Grammar) (unit : String) (rules : List Rule) (literals : List String) :
    Except GenerationError LexerSpec := do
  if (tokenRules rules).isEmpty && literals.isEmpty then throw (.grammar g.name .noTokenRules)
  g.checkDuplicates rules
  if let some name := g.tokens.find? fun n => !isValidTokenName n then
    throw (.grammar g.name (.invalidTokenName name))
  let implicit := implicitTokens (implicitLiterals rules literals)
  let vocabulary := vocabularyOf (implicitLiterals rules literals) g.tokens rules
  let modes := defaultMode :: g.modes
  let base := g.option? "superClass"
  let names : Names := ⟨rules.map Rule.name, base.isSome⟩
  let written ← rules.mapM fun r =>
    match r.alternatives.mapM (checkAlternative names g.channels modes vocabulary) with
    | .error fault => .error (g.ruleError r fault)
    | .ok alternatives => .ok (LexerRuleSpec.mk r.name
        (if r.fragment then none else typeOf? vocabulary r.name) r.mode alternatives)
  return {
    unit, grammar := g.name, «extends» := base
    caseInsensitive := g.option? "caseInsensitive" == some "true"
    channels := g.channels, modes, vocabulary
    rules := implicit.map implicitRule ++ written }

end GrammarEngine.LexerSpec

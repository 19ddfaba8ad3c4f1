import GrammarEngine.Parser.Result

/-!
# Walking a parse result

A walk turns the tree of a result into a series of events: rules are entered and left in a nested
way, and tokens are met in between. Events carry what the tree only refers to: names and spans.
-/
namespace GrammarEngine

/-- A rule met on a walk: its name and number, its span, and its children. -/
structure RuleVisit where
  name : String
  index : Nat
  start : Nat
  stop : Nat
  children : Nat
  ruleChildren : Nat
deriving Repr, DecidableEq

inductive TreeEvent where
  | enter (rule : RuleVisit)
  | exit (rule : RuleVisit)
  | terminal (token : Token) (symbol : String)
deriving Repr, DecidableEq

namespace SyntaxTree

def isRule : SyntaxTree → Bool
  | rule .. => true
  | token _ => false

end SyntaxTree

namespace ParseResult

/-- A rule spans its first to its last token; without a last one its span is empty. -/
def visit (r : ParseResult) (index start : Nat) (stop : Option Nat) (children : List SyntaxTree) :
    RuleVisit :=
  let first := ((r.tokens[start]?).map Token.start).getD 0
  let last := stop.bind fun i => (r.tokens[i]?).map Token.stop
  ⟨(r.ruleName? index).getD "<unknown>", index, first, last.getD first, children.length,
    children.countP SyntaxTree.isRule⟩

def terminalEvents (r : ParseResult) (index : Nat) : List TreeEvent :=
  match r.tokens[index]? with
  | some t => [.terminal t (r.symbol t)]
  | none => []

mutual
/-- The events of a tree. -/
def eventsOf (r : ParseResult) : SyntaxTree → List TreeEvent
  | .token index => r.terminalEvents index
  | .rule index start stop children =>
    let visit := r.visit index start stop children
    .enter visit :: (eventsOfAll r children ++ [.exit visit])

def eventsOfAll (r : ParseResult) : List SyntaxTree → List TreeEvent
  | [] => []
  | t :: rest => eventsOf r t ++ eventsOfAll r rest
end

/-- The events of a result; without a root there are none. -/
def events (r : ParseResult) : List TreeEvent :=
  match r.root with
  | none => []
  | some t => r.eventsOf t

end ParseResult

end GrammarEngine

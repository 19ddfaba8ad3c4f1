import GrammarEngine.Parser.Result

/-!
# Runs over tables

A run of a parser in which nothing is taken for granted. Matched rules are rows of a table, and
parts of a match refer to rows and to tokens of the stream by their numbers. Rule bodies, rule
names, tokens and rows are looked up by number, and a number for which there is nothing stops the
whole run without an answer. Loops go on for as long as there is something to visit; one that does
not end has no answer either.
-/
namespace GrammarEngine.Tabled

open Search (Visit)

/-- A part of a match: the row of a matched rule, or the index of a token in the stream. -/
inductive Part where
  | rule (row : Nat)
  | token (index : Nat)
deriving Repr, DecidableEq

/-- A matched rule: the places of visible tokens between which it stands, and its parts. -/
structure TableRow where
  rule : UInt32
  start : Nat
  stop : Nat
  parts : List Part
deriving Repr, DecidableEq

abbrev Table := Array TableRow

/-- What a run reads: the bodies and names of the rules, the tokens of a stream, and the indices of
those that parsers see. -/
structure Setting where
  bodies : Array RuleBody
  names : List String
  tokens : Array Token
  visible : Array Nat

namespace Setting

def ofStream (p : ParserProgram) (stream : TokenStream) : Setting :=
  ⟨p.bodies, p.ruleNames, stream.tokens.toArray, (stream.visible.map Token.index).toArray⟩

end Setting

structure State where
  memo : Std.HashMap Invocation (List (Branch Nat)) := {}
  table : Table := #[]
  furthest : Nat := 0
  expected : List TokenType := []

namespace State

/-- Take note of a refused token. -/
def refuse (s : State) (place : Nat) (expected : Option TokenType) : State :=
  let s := if s.furthest < place then { s with furthest := place, expected := [] } else s
  match expected with
  | some t => if place = s.furthest then { s with expected := Sorted.insert t s.expected } else s
  | none => s

def remember (s : State) (i : Invocation) (found : List (Branch Nat)) : State :=
  { s with memo := s.memo.insert i found }

end State

/-- A run ends with an answer or with the name of a rule that would have nested too deep, or it has
no answer. -/
abbrev Run := StateT State (ExceptT String Option)

variable {α : Type}

/-- What is found by a number; without it there is no answer. -/
def lookUp (x : Option α) : Run α := fun s => x.map fun a => .ok (a, s)

/-- Append a row to the table. -/
def addRow (r : TableRow) : Run Nat := fun s =>
  pure (s.table.size, { s with table := s.table.push r })

/-! ## Visiting places depth first -/

/-- Visit a branch and, depth first, the branches that follow it. Each place is visited once. -/
def visit (next : Branch α → Run (List (Branch α))) (greedy : Bool) (v : Visit α) (b : Branch α) :
    Run (Visit α) := do
  if v.seen.contains b.stop then pure v
  else
    let following ← next b
    let entered : Visit α := ⟨v.seen.insert b.stop, if greedy then v.kept else b :: v.kept⟩
    -- With an argument by name, no place in the source is kept with the call.
    let left ← following.foldlM (fun w => (visit next (v := w)) greedy) entered
    pure (if greedy then { left with kept := b :: left.kept } else left)
partial_fixpoint

def visitAll (next : Branch α → Run (List (Branch α))) (greedy : Bool) (roots : List (Branch α)) :
    Run (List (Branch α)) := do
  let v ← roots.foldlM (visit next greedy) {}
  pure v.kept.reverse

/-! ## Expressions -/

/-- Parts matched in a row. -/
abbrev Line := Branch (Rope Part)

def Line.then (r next : Line) : Line := ⟨next.stop, r.value.append next.value⟩

/-- The token at a place; behind the last place there is none. -/
def tokenAt? (g : Setting) (place : Nat) : Run (Option Token) :=
  match g.visible[place]? with
  | none => pure none
  | some index => do return some (← lookUp g.tokens[index]?)

def matchToken (g : Setting) (expected : Option TokenType) (accepts : TokenType → Bool)
    (place : Nat) : Run (List Line) := do
  match ← tokenAt? g place with
  | none => pure []
  | some t =>
    if accepts t.type then pure [⟨place + 1, .single (.token t.index)⟩]
    else do
      modify fun s => s.refuse place expected
      pure []

def extend (next : Nat → Run (List Line)) (r : Line) : Run (List Line) := do
  return (← next r.stop).map r.then

/-- One more round of a repetition; rounds that read nothing do not count. -/
def round (body : Nat → Run (List Line)) (r : Line) : Run (List Line) := do
  return (← extend body r).filter fun n => r.stop < n.stop

def extendAll (next : Nat → Run (List Line)) (rows : List Line) : Run (List Line) := do
  let found ← rows.mapM (extend next)
  return Branch.distinct found.flatten

abbrev Invoker := Invocation → Run (List (Branch Nat))

mutual
/-- The ways in which an expression matches at a place. -/
def eval (g : Setting) (invoke : Invoker) : ParseExpr → Nat → Run (List Line)
  | .empty, place => pure [⟨place, .empty⟩]
  | .token t, place => matchToken g (some t) (fun u => u == t) place
  | .notTokens ts, place => matchToken g none (fun u => u != TokenType.eof && !ts.contains u) place
  | .anyToken, place => matchToken g none (fun u => u != TokenType.eof) place
  | .rule index precedence, place => do
    let found ← invoke ⟨index, precedence, place⟩
    return found.map fun b => ⟨b.stop, .single (.rule b.value)⟩
  | .seq items, place => evalSeq g invoke items [⟨place, .empty⟩]
  | .choice alternatives, place => do
    return Branch.distinct (← evalChoice g invoke alternatives place)
  | .optional body greedy, place => do
    let found ← eval g invoke body place
    let rows := if greedy then found else ⟨place, .empty⟩ :: found
    return Branch.distinct (rows ++ [⟨place, .empty⟩])
  | .star body greedy, place =>
    visitAll (round (eval g invoke body)) greedy [⟨place, .empty⟩]
  | .plus body greedy, place => do
    let first ← eval g invoke body place
    visitAll (round (eval g invoke body)) greedy first

def evalSeq (g : Setting) (invoke : Invoker) : List ParseExpr → List Line → Run (List Line)
  | [], rows => pure rows
  | e :: rest, rows => do
    let rows ← extendAll (eval g invoke e) rows
    evalSeq g invoke rest rows

def evalChoice (g : Setting) (invoke : Invoker) : List ParseExpr → Nat → Run (List Line)
  | [], _ => pure []
  | e :: rest, place => do
    let first ← eval g invoke e place
    let others ← evalChoice g invoke rest place
    return first ++ others
end

/-! ## Rules -/

/-- Enter the match of an invocation with the parts of a line. -/
def enter (i : Invocation) (r : Line) : Run (Branch Nat) := do
  return ⟨r.stop, ← addRow ⟨i.rule, i.start, r.stop, r.value.toList⟩⟩

/-- The ways in which admitted suffixes extend a match. -/
def growth (g : Setting) (invoke : Invoker) (i : Invocation) (suffixes : List Suffix)
    (operand : Branch Nat) : Run (List (Branch Nat)) := do
  let admitted := suffixes.filter fun s => i.precedence ≤ s.precedence
  let found ← admitted.mapM fun s => do
    let rows ← round (eval g invoke s.body) ⟨operand.stop, .single (.rule operand.value)⟩
    rows.mapM (enter i)
  return found.flatten

/-- The matches of an invocation from those of the rules in its body. -/
def matchBody (g : Setting) (invoke : Invoker) (i : Invocation) : RuleBody → Run (List (Branch Nat))
  | .plain body => do
    let rows ← eval g invoke body i.start
    rows.mapM (enter i)
  | .leftRecursive primary suffixes => do
    let rows ← eval g invoke primary i.start
    let seeds ← rows.mapM (enter i)
    visitAll (growth g invoke i suffixes) true seeds

/-- What is remembered of an invocation, else what it finds, while it is remembered to fail. -/
def memoized (i : Invocation) (find : Run (List (Branch Nat))) : Run (List (Branch Nat)) := do
  match (← get).memo[i]? with
  | some found => pure found
  | none =>
    modify fun s => s.remember i []
    let found ← find
    modify fun s => s.remember i found
    pure found

/-- The matches of an invocation inside which others may nest to a given depth. -/
def invoke (g : Setting) : Nat → Invocation → Run (List (Branch Nat))
  | 0, i => memoized i do
    let name ← lookUp g.names[i.rule.toNat]?
    throw name
  | depth + 1, i => memoized i do
    let body ← lookUp g.bodies[i.rule.toNat]?
    matchBody g (invoke g depth) i body

/-! ## Results -/

/-- The index of the last token of a match that has one. -/
def lastIndex (g : Setting) (start stop : Nat) : Option (Option Nat) :=
  if start < stop then g.visible[stop - 1]?.map some else some none

/-- The tree of a row and everything below it. -/
def build (g : Setting) (t : Table) (row : Nat) : Option SyntaxTree := do
  let r ← t[row]?
  let children ← r.parts.mapM fun
    | .token index => some (.token index)
    | .rule row => (build (t := t)) g row
  let start := (g.visible[min r.start (g.visible.size - 1)]?).getD 0
  let stop ← lastIndex g r.start r.stop
  return .rule r.rule.toNat start stop children
partial_fixpoint

/-- The fault of a run that did not match: the token furthest on, and what could have stood there.
-/
def failure (g : Setting) (vocabulary : Vocabulary) (s : State) : Option InputFault :=
  let expected := s.expected.map vocabulary.displayName
  match g.visible[min s.furthest (g.visible.size - 1)]? with
  | none => some ⟨{}, .unexpected Token.eofText expected⟩
  | some index => g.tokens[index]?.map fun t => ⟨t.position, .unexpected t.text expected⟩

/-- Run a rule over a token stream. -/
def parse (p : ParserProgram) (rule : String) (stream : TokenStream) (maxDepth : Nat) :
    Option (Except ParsingFault ParseResult) :=
  match p.ruleIndex? rule with
  | none => some (.error (.unknownEntryRule p.name rule))
  | some index => do
    let g := Setting.ofStream p stream
    let limit := ParserProgram.clampDepth maxDepth
    let result (root : Option SyntaxTree) (faults : List InputFault) : ParseResult :=
      ⟨root, stream.tokens.toArray, stream.faults ++ faults, p.names, rule⟩
    match ← ((invoke g limit ⟨UInt32.ofNat index, 0, 0⟩).run {}).run with
    | .error name => return .error (.recursionLimit name limit)
    | .ok ([], s) =>
      let fault ← failure g p.names.vocabulary s
      return .ok (result none [fault])
    | .ok (b :: _, s) =>
      let tree ← build g s.table b.value
      return .ok (result (some tree) [])

end GrammarEngine.Tabled

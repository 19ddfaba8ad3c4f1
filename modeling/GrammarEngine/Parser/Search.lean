import GrammarEngine.Parser.Program
import GrammarEngine.Rope
import GrammarEngine.Sorted
import GrammarEngine.Token
import Std.Data.HashMap
import Std.Data.HashSet

/-!
# Searching for matches of parser rules

Every expression yields all places at which it can end, the most preferred first, and keeps the
first way to reach each of them: earlier alternatives go before later ones, and a repetition prefers
more rounds, or fewer if it is not greedy. A left-recursive rule is a primary that suffixes extend;
the longest growth comes first, and only suffixes from the precedence of the call on take part.

The matches of a call are remembered. While a call is under way it is remembered to fail, so that a
rule that reaches itself without reading a token ends. Calls nest at most as deep as is allowed.

Places are numbers of visible tokens.
-/
namespace GrammarEngine

/-- A rule invoked at a place with the precedence from which suffixes are admitted. -/
structure Invocation where
  rule : UInt32
  precedence : UInt32
  start : Nat
deriving Repr, DecidableEq, Hashable

/-- How an invocation matched the visible tokens from its start up to `stop`. A match that a suffix
has extended remembers the precedence of the suffix; its first child is the match that was extended.
-/
inductive Derivation where
  | rule (call : Invocation) (suffix : Option UInt32) (stop : Nat) (children : List Derivation)
  | token (place : Nat)
deriving Repr, Inhabited

/-- A place at which something can end, and what it is when it ends there. -/
structure Branch (α : Type) where
  stop : Nat
  value : α
deriving Repr, DecidableEq

namespace Branch

variable {α : Type}

/-- Keep the first branch for each place. -/
def keepFirst (seen : Std.HashSet Nat) : List (Branch α) → List (Branch α)
  | [] => []
  | b :: rest =>
    if seen.contains b.stop then keepFirst seen rest
    else b :: keepFirst (seen.insert b.stop) rest

def distinct (branches : List (Branch α)) : List (Branch α) := keepFirst {} branches

theorem mem_of_mem_keepFirst {seen : Std.HashSet Nat} {bs : List (Branch α)} {b : Branch α}
    (h : b ∈ keepFirst seen bs) : b ∈ bs ∧ b.stop ∉ seen := by
  induction bs generalizing seen with
  | nil => simp [keepFirst] at h
  | cons a rest ih =>
    unfold keepFirst at h
    split at h
    · exact ⟨List.mem_cons_of_mem _ (ih h).1, (ih h).2⟩
    · next hc =>
      rcases List.mem_cons.mp h with rfl | h
      · exact ⟨List.mem_cons_self, by simpa using hc⟩
      · exact ⟨List.mem_cons_of_mem _ (ih h).1, fun hs => (ih h).2 (by simp [hs])⟩

theorem mem_of_mem_distinct {bs : List (Branch α)} {b : Branch α} (h : b ∈ distinct bs) : b ∈ bs :=
  (mem_of_mem_keepFirst h).1

end Branch

/-- Children matched in a row. -/
abbrev Row := Branch (Rope Derivation)

def Row.empty (place : Nat) : Row := ⟨place, .empty⟩

def Row.single (stop : Nat) (d : Derivation) : Row := ⟨stop, .single d⟩

/-- The children of one row before those of another that continues it. -/
def Row.then (r next : Row) : Row := ⟨next.stop, r.value.append next.value⟩

/-- The rule whose invocation would have nested too deep. -/
structure NestingFault where
  rule : UInt32
deriving Repr, DecidableEq

/-- What a search remembers: the matches of each invocation, the furthest place at which a token was
refused, and the token types that were asked for there. -/
structure SearchState where
  memo : Std.HashMap Invocation (List (Branch Derivation)) := {}
  furthest : Nat := 0
  expected : List TokenType := []

namespace SearchState

/-- Take note of a refused token. -/
def refuse (s : SearchState) (place : Nat) (expected : Option TokenType) : SearchState :=
  let s := if s.furthest < place then { s with furthest := place, expected := [] } else s
  match expected with
  | some t => if place = s.furthest then { s with expected := Sorted.insert t s.expected } else s
  | none => s

def remember (s : SearchState) (i : Invocation) (found : List (Branch Derivation)) : SearchState :=
  { s with memo := s.memo.insert i found }

end SearchState

/-- A search reads and extends what is remembered, and stops where rules nest too deep. -/
abbrev Search := StateT SearchState (Except NestingFault)

namespace Search

/-! ## Visiting places depth first -/

/-- The places visited so far and the branches kept so far, the last one first. -/
structure Visit (α : Type) where
  seen : Std.HashSet Nat := {}
  kept : List (Branch α) := []

variable {α : Type}

/-- Visit a branch and, depth first, the branches that follow it. Each place is visited once. Later
places come first if the visit is greedy. A branch is followed only by longer ones, so the bound
need not exceed the number of places. -/
def visit (next : Branch α → Search (List (Branch α))) (greedy : Bool) :
    Nat → Visit α → Branch α → Search (Visit α)
  | 0, v, _ => pure v
  | bound + 1, v, b =>
    if v.seen.contains b.stop then pure v
    else do
      let following ← next b
      let entered : Visit α := ⟨v.seen.insert b.stop, if greedy then v.kept else b :: v.kept⟩
      let left ← following.foldlM (visit next greedy bound) entered
      pure (if greedy then { left with kept := b :: left.kept } else left)

/-- All branches reached from some, in the order of their visits. -/
def visitAll (next : Branch α → Search (List (Branch α))) (greedy : Bool) (bound : Nat)
    (roots : List (Branch α)) : Search (List (Branch α)) := do
  let v ← roots.foldlM (visit next greedy bound) {}
  pure v.kept.reverse

/-! ## Expressions -/

/-- Match one token, or take note of its refusal. -/
def matchToken (input : Array Token) (expected : Option TokenType) (accepts : TokenType → Bool)
    (place : Nat) : Search (List Row) :=
  match input[place]? with
  | none => pure []
  | some t =>
    if accepts t.type then pure [Row.single (place + 1) (.token place)]
    else do
      modify fun s => s.refuse place expected
      pure []

/-- Continue a row in every way that an expression allows. -/
def extend (next : Nat → Search (List Row)) (r : Row) : Search (List Row) := do
  return (← next r.stop).map r.then

/-- One more round of a repetition; rounds that read nothing do not count. -/
def round (body : Nat → Search (List Row)) (r : Row) : Search (List Row) := do
  return (← extend body r).filter fun n => r.stop < n.stop

/-- Continue several rows, and keep the first way to reach each place. -/
def extendAll (next : Nat → Search (List Row)) (rows : List Row) : Search (List Row) := do
  let found ← rows.mapM (extend next)
  return Branch.distinct found.flatten

/-- Ways to match invoked rules. -/
abbrev Invoker := Invocation → Search (List (Branch Derivation))

mutual
/-- The ways in which an expression matches at a place. -/
def eval (input : Array Token) (invoke : Invoker) : ParseExpr → Nat → Search (List Row)
  | .empty, place => pure [Row.empty place]
  | .token t, place => matchToken input (some t) (fun u => u == t) place
  | .notTokens ts, place =>
    matchToken input none (fun u => u != TokenType.eof && !ts.contains u) place
  | .anyToken, place => matchToken input none (fun u => u != TokenType.eof) place
  | .rule index precedence, place => do
    let found ← invoke ⟨index, precedence, place⟩
    return found.map fun b => Row.single b.stop b.value
  | .seq items, place => evalSeq input invoke items [Row.empty place]
  | .choice alternatives, place => do
    return Branch.distinct (← evalChoice input invoke alternatives place)
  | .optional body greedy, place => do
    let found ← eval input invoke body place
    let rows := if greedy then found else Row.empty place :: found
    return Branch.distinct (rows ++ [Row.empty place])
  | .star body greedy, place =>
    visitAll (round (eval input invoke body)) greedy (input.size + 1) [Row.empty place]
  | .plus body greedy, place => do
    let first ← eval input invoke body place
    visitAll (round (eval input invoke body)) greedy (input.size + 1) first

def evalSeq (input : Array Token) (invoke : Invoker) :
    List ParseExpr → List Row → Search (List Row)
  | [], rows => pure rows
  | e :: rest, rows => do
    let rows ← extendAll (eval input invoke e) rows
    evalSeq input invoke rest rows

def evalChoice (input : Array Token) (invoke : Invoker) :
    List ParseExpr → Nat → Search (List Row)
  | [], _ => pure []
  | e :: rest, place => do
    let first ← eval input invoke e place
    let others ← evalChoice input invoke rest place
    return first ++ others
end

/-! ## Rules -/

/-- The match of an invocation with the children of a row. -/
def derivation (i : Invocation) (suffix : Option UInt32) (r : Row) : Branch Derivation :=
  ⟨r.stop, .rule i suffix r.stop r.value.toList⟩

/-- The ways in which admitted suffixes extend a match. -/
def growth (input : Array Token) (invoke : Invoker) (i : Invocation) (suffixes : List Suffix)
    (operand : Branch Derivation) : Search (List (Branch Derivation)) := do
  let admitted := suffixes.filter fun s => i.precedence ≤ s.precedence
  let found ← admitted.mapM fun s => do
    let rows ← round (eval input invoke s.body) (Row.single operand.stop operand.value)
    return rows.map (derivation i (some s.precedence))
  return found.flatten

/-- The matches of an invocation from those of the rules in its body. -/
def matchBody (input : Array Token) (invoke : Invoker) (i : Invocation) :
    RuleBody → Search (List (Branch Derivation))
  | .plain body => do
    return (← eval input invoke body i.start).map (derivation i none)
  | .leftRecursive primary suffixes => do
    let seeds ← eval input invoke primary i.start
    visitAll (growth input invoke i suffixes) true (input.size + 1)
      (seeds.map (derivation i none))

/-- What is remembered of an invocation, else what it finds, while it is remembered to fail. -/
def memoized (i : Invocation) (find : Search (List (Branch Derivation))) :
    Search (List (Branch Derivation)) := do
  match (← get).memo[i]? with
  | some found => pure found
  | none =>
    modify fun s => s.remember i []
    let found ← find
    modify fun s => s.remember i found
    pure found

/-- The matches of an invocation inside which others may nest to a given depth. -/
def invoke (bodies : Array RuleBody) (input : Array Token) :
    Nat → Invocation → Search (List (Branch Derivation))
  | 0, i => memoized i (throw ⟨i.rule⟩)
  | depth + 1, i =>
    memoized i <|
      match bodies[i.rule.toNat]? with
      | none => pure []
      | some body => matchBody input (invoke bodies input depth) i body

end Search

end GrammarEngine

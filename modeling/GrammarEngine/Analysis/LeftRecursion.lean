import GrammarEngine.Analysis.Basic

/-!
# Left recursion

A rule with an alternative that starts with the rule itself becomes a left-recursive rule. Of `n`
alternatives the first has precedence `n` and the last precedence one. An alternative that starts
with the rule becomes a suffix, any other a primary. A self reference at the end of an alternative
of two or more elements becomes a reference with a precedence: that of the alternative, and one more
in a suffix that associates to the left.

Left recursion through other rules is refused. A rule can be matched at the same place as another
one if a leading alternative of the latter refers to it and everything before that reference can
match nothing; no rule may reach itself in this way.
-/
namespace GrammarEngine.LeftRecursion

def isSelf (name : String) : Element → Bool
  | .rule n => n == name
  | _ => false

def startsWithSelf (name : String) (a : Alternative) : Bool :=
  match a.elements with
  | e :: _ => isSelf name e
  | [] => false

/-- Whether an alternative of two or more elements ends with the rule itself. -/
def endsWithSelf (name : String) (a : Alternative) : Bool :=
  match a.elements with
  | _ :: e :: rest => isSelf name ((e :: rest).getLast (List.cons_ne_nil e rest))
  | _ => false

def replaceLast (e : Element) : List Element → List Element
  | [] => []
  | [_] => [e]
  | d :: rest => d :: replaceLast e rest

/-- The precedence at which the self reference at the end of an alternative is matched. -/
def operandPrecedence (name : String) (precedence : Nat) (a : Alternative) : Nat :=
  if startsWithSelf name a && !a.rightAssoc then precedence + 1 else precedence

/-- An alternative whose self reference at the end, if any, carries its precedence. -/
def markOperand (name : String) (precedence : Nat) (a : Alternative) : Alternative :=
  if endsWithSelf name a then
    { a with elements :=
        replaceLast (.ruleAt name (operandPrecedence name precedence a)) a.elements }
  else a

/-- A primary or a suffix of a left-recursive rule. -/
abbrev Part := Alternative ⊕ SuffixSpec

/-- The part that an alternative becomes. -/
def partOf (name : String) (precedence : Nat) (a : Alternative) : Except RuleFault Part :=
  if startsWithSelf name a then
    if a.elements.length == 1 then .error .onlySelfReference
    else .ok (.inr ⟨precedence, a.rightAssoc, (markOperand name precedence a).elements.drop 1⟩)
  else .ok (.inl (markOperand name precedence a))

/-- The parts of alternatives of which the last has precedence one. -/
def partsOf (name : String) : List Alternative → Except RuleFault (List Part)
  | [] => .ok []
  | a :: rest => do return (← partOf name (rest.length + 1) a) :: (← partsOf name rest)

/-- A rule in the form in which it can be matched without left recursion of its own. -/
def eliminate (name : String) (alternatives : List Alternative) :
    Except RuleFault ParserRuleSpec := do
  if !alternatives.any (startsWithSelf name) then return .plain name alternatives
  let parts ← partsOf name alternatives
  let primaries := parts.filterMap Sum.getLeft?
  if primaries.isEmpty then throw .noPrimary
  return .leftRecursive name primaries (parts.filterMap Sum.getRight?)

/-! ## Rules that match nothing -/

mutual
/-- Whether an element can match nothing when the given rules can. -/
def nullable (rules : List String) : Element → Bool
  | .rule name => rules.contains name
  | .ruleAt name _ => rules.contains name
  | .block alternatives => nullableAny rules alternatives
  | .repeated e kind _ => kind != .oneOrMore || nullable rules e
  | _ => false

def nullableAll (rules : List String) : List Element → Bool
  | [] => true
  | e :: rest => nullable rules e && nullableAll rules rest

def nullableAlternative (rules : List String) : AlternativeOf Element → Bool
  | ⟨elements, _, _, _⟩ => nullableAll rules elements

def nullableAny (rules : List String) : List (AlternativeOf Element) → Bool
  | [] => false
  | a :: rest => nullableAlternative rules a || nullableAny rules rest
end

/-- Add the rules that can match nothing when the rules already found can. -/
def nullablePass (specs : List ParserRuleSpec) (found : List String) : List String :=
  specs.foldl (fun found r =>
    if !found.contains r.name && nullableAny found r.leading then r.name :: found else found) found

/-- Repeat the pass; it adds a rule each time until nothing changes. -/
def nullableAfter (specs : List ParserRuleSpec) : Nat → List String → List String
  | 0, found => found
  | bound + 1, found =>
    let next := nullablePass specs found
    if next.length == found.length then found else nullableAfter specs bound next

/-- The rules that can match nothing. -/
def nullableRules (specs : List ParserRuleSpec) : List String :=
  nullableAfter specs (specs.length + 1) []

/-! ## Rules at the left edge -/

mutual
/-- The rules to which an element can refer at its own place. -/
def edgeOf (rules : List String) : Element → List String
  | .rule name => [name]
  | .ruleAt name _ => [name]
  | .block alternatives => edgeOfAny rules alternatives
  | .repeated e _ _ => edgeOf rules e
  | _ => []

def edgeOfAll (rules : List String) : List Element → List String
  | [] => []
  | e :: rest => edgeOf rules e ++ if nullable rules e then edgeOfAll rules rest else []

def edgeOfAlternative (rules : List String) : AlternativeOf Element → List String
  | ⟨elements, _, _, _⟩ => edgeOfAll rules elements

def edgeOfAny (rules : List String) : List (AlternativeOf Element) → List String
  | [] => []
  | a :: rest => edgeOfAlternative rules a ++ edgeOfAny rules rest
end

/-- Insert a name into a sorted list without repetition. -/
def insertName (name : String) : List String → List String
  | [] => [name]
  | n :: rest =>
    if name == n then n :: rest
    else if name < n then name :: n :: rest
    else n :: insertName name rest

def sortedNames (names : List String) : List String :=
  names.foldl (fun acc n => insertName n acc) []

/-- For every rule, the rules that can be matched at its own place, in order of name. -/
def edges (specs : List ParserRuleSpec) : List (String × List String) :=
  let empty := nullableRules specs
  specs.map fun r => (r.name, sortedNames (edgeOfAny empty r.leading))

def successors (graph : List (String × List String)) (name : String) : List String :=
  (graph.lookup name).getD []

/-- Follow edges depth-first from the last rule of a path, each rule once; the error is a path from
which an edge leads to the target. -/
def explore (graph : List (String × List String)) (target : String) :
    Nat → List String → String → List String → Except (List String) (List String)
  | 0, _, _, seen => .ok seen
  | bound + 1, path, current, seen =>
    (successors graph current).foldlM (fun seen next =>
      if next == target then .error (path ++ [current])
      else if seen.contains next then .ok seen
      else explore graph target bound (path ++ [current]) next (next :: seen)) seen

/-- A cycle of edges through a rule, starting with it. -/
def cycleThrough? (graph : List (String × List String)) (name : String) : Option (List String) :=
  match explore graph name ((graph.flatMap Prod.snd).length + 1) [] name [] with
  | .error path => some path
  | .ok _ => none

/-- The first cycle through a rule, rules taken in order. -/
def cycle? (specs : List ParserRuleSpec) : Option (List String) :=
  let graph := edges specs
  specs.findSome? fun r => cycleThrough? graph r.name

end GrammarEngine.LeftRecursion

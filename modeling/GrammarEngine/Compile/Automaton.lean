import GrammarEngine.Compile.CharRanges
import GrammarEngine.Compile.Fault
import GrammarEngine.Image.Basic

/-!
# Automata of lexer rules

The expressions of a lexer rule become a program. Code is emitted for the address at which it will
stand, so every target is final when it is written, and code that falls through continues at the
address after it. A reference is replaced by the alternatives of the rule it names; references that
lead back to a rule on the way are refused, so inlining nests at most once for every rule.

A repetition that prefers fewer matches anywhere in the rule makes the whole rule look for its
shortest match.
-/
namespace GrammarEngine.Automaton

/-- Instructions for a given address, and whether a lazy repetition occurs in them. -/
structure Code where
  instructions : List Instruction := []
  isLazy : Bool := false
deriving Repr, DecidableEq

namespace Code

def size (c : Code) : Nat := c.instructions.length

def append (c d : Code) : Code := ⟨c.instructions ++ d.instructions, c.isLazy || d.isLazy⟩

instance : Append Code := ⟨append⟩

def one (i : Instruction) : Code := ⟨[i], false⟩

@[simp] theorem instructions_append (c d : Code) :
    (c ++ d).instructions = c.instructions ++ d.instructions := rfl

@[simp] theorem isLazy_append (c d : Code) : (c ++ d).isLazy = (c.isLazy || d.isLazy) := rfl

@[simp] theorem size_append (c d : Code) : (c ++ d).size = c.size + d.size := by
  simp [size]

@[simp] theorem size_one (i : Instruction) : (one i).size = 1 := rfl

end Code

/-- A way to emit code at an address. -/
abbrev Emitter := Nat → Except CompileFault.Located Code

def split (first second : Nat) : Code := .one (.split (UInt32.ofNat first) (UInt32.ofNat second))

def jump (target : Nat) : Code := .one (.jump (UInt32.ofNat target))

def accept (alternative : Nat) : Code := .one (.accept (UInt32.ofNat alternative))

def skip : Emitter := fun _ => .ok {}

def sequence : List Emitter → Emitter
  | [], _ => .ok {}
  | e :: rest, pc => do
    let first ← e pc
    let others ← sequence rest (pc + first.size)
    return first ++ others

/-- Every alternative but the last is tried beside the ones after it and jumps over them. -/
def alternation : List Emitter → Emitter
  | [], _ => .ok {}
  | [e], pc => e pc
  | e :: rest, pc => do
    let first ← e (pc + 1)
    let next := pc + 1 + first.size + 1
    let others ← alternation rest next
    return split (pc + 1) next ++ first ++ jump (next + others.size) ++ others

def repetition (kind : Repetition) (body : Emitter) : Emitter := fun pc =>
  match kind with
  | .optional => do
    let code ← body (pc + 1)
    return split (pc + 1) (pc + 1 + code.size) ++ code
  | .zeroOrMore => do
    let code ← body (pc + 1)
    return split (pc + 1) (pc + 1 + code.size + 1) ++ code ++ jump pc
  | .oneOrMore => do
    let code ← body pc
    return code ++ split pc (pc + code.size + 1)

def markLazy (isLazy : Bool) (e : Emitter) : Emitter := fun pc =>
  (e pc).map fun code => { code with isLazy := isLazy || code.isLazy }

/-- The instruction for a character; ignoring case, its two case forms where they differ. -/
def charInstruction (ignoreCase : Bool) (c : Char) : Instruction :=
  let lower := (Text.lowerForm c).headD c
  let upper := (Text.upperForm c).headD c
  if ignoreCase && lower != upper then
    .ranges (CharRanges.normalize [CharRanges.single lower, CharRanges.single upper]) false
  else .char c.val

def setInstruction (ignoreCase : Bool) (ranges : List CharRanges.Range) (negated : Bool) :
    Instruction :=
  .ranges (if ignoreCase then CharRanges.foldCase ranges else CharRanges.normalize ranges) negated

def emit (instructions : List Instruction) : Emitter := fun _ => .ok ⟨instructions, false⟩

def refuse (p : Position) (fault : CompileFault) : Emitter := fun _ => .error (p, fault)

/-- How references are replaced. -/
abbrev Inliner := String → Position → Emitter

mutual
/-- The emitter of an expression. -/
def emitter (ignoreCase : Bool) (inline : Inliner) : UnitExpr → Emitter
  | .empty => skip
  | .seq items => sequence (emitters ignoreCase inline items)
  | .choice items => alternation (emitters ignoreCase inline items)
  | .repeated kind isLazy body =>
    markLazy isLazy (repetition kind (emitter ignoreCase inline body))
  | .literal text _ => emit (text.toList.map (charInstruction ignoreCase))
  | .ranges ranges negated => emit [setInstruction ignoreCase ranges negated]
  | .any => emit [.any]
  | .ref name p => inline name p
  | .token _ p => refuse p .parserConstruct
  | .notTokens _ p => refuse p .parserConstruct
  | .invoke _ _ p => refuse p .parserConstruct
  | .eof => refuse Position.unknown .endInLexerRule

def emitters (ignoreCase : Bool) (inline : Inliner) : List UnitExpr → List Emitter
  | [] => []
  | e :: rest => emitter ignoreCase inline e :: emitters ignoreCase inline rest
end

/-- The rules and fragments that references name; the first entry of a name counts. -/
abbrev Table := List (String × List (List UnitExpr))

/-- Replace a reference by the alternatives of its rule. The names are those of the rules that are
being inlined. -/
def inlineAt (ignoreCase : Bool) (table : Table) : Nat → List String → Inliner
  | 0, _, name, p => refuse p (.recursiveReference name)
  | bound + 1, active, name, p =>
    if active.contains name then refuse p (.recursiveReference name)
    else match table.lookup name with
      | none => refuse p (.unknownLexerRule name)
      | some alternatives =>
        alternation (alternatives.map fun items =>
          sequence (emitters ignoreCase (inlineAt ignoreCase table bound (name :: active)) items))

/-- The emitter of the alternatives of a rule from a given number on. -/
def ruleEmitter : Nat → List Emitter → Emitter
  | _, [], _ => .ok {}
  | index, [e], pc => do return (← e pc) ++ accept index
  | index, e :: rest, pc => do
    let first ← e (pc + 1)
    let next := pc + 1 + first.size + 1
    let others ← ruleEmitter (index + 1) rest next
    return split (pc + 1) next ++ first ++ accept index ++ others

/-- The program of a rule. -/
def compileRule (ignoreCase : Bool) (table : Table) (name : String)
    (alternatives : List (List UnitExpr)) : Except CompileFault.Located Code :=
  let inline := inlineAt ignoreCase table (table.length + 1) [name]
  ruleEmitter 0 (alternatives.map fun items => sequence (emitters ignoreCase inline items)) 0

end GrammarEngine.Automaton

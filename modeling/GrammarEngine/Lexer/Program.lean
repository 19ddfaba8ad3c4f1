import GrammarEngine.Recognizer.Fault
import GrammarEngine.Token

/-!
# Lexer programs

A lexer program is a header with the rules of its lexer in order of priority. Rules are taken over
only if their modes exist, if jumps stay inside their code, and if every alternative that their code
can report has its actions.
-/
namespace GrammarEngine

/-- One rule: code over characters, and the actions of each alternative. -/
structure LexerRule where
  name : String
  tokenType : TokenType
  mode : UInt32
  shortest : Bool
  code : Array Instruction
  actions : Array (List LexerAction)
deriving Repr, DecidableEq

structure LexerProgram where
  name : String
  grammar : String
  modes : List String
  channels : List String
  vocabulary : Vocabulary
  rules : List LexerRule
deriving Repr, DecidableEq

namespace LexerProgram

/-- Whether an instruction stays inside a program of a given size, with a given number of
alternatives. -/
def inRange (size alternatives : Nat) : Instruction → Bool
  | .split first second => first.toNat < size && second.toNat < size
  | .jump target => target.toNat < size
  | .accept alternative => alternative.toNat < alternatives
  | _ => true

/-- The mode that an action switches to. -/
def switchedMode? : LexerAction → Option UInt32
  | .mode m => some m
  | .pushMode m => some m
  | _ => none

/-- The first thing that a rule refers to in vain. -/
def corruption? (modes : Nat) (r : LexerRuleImage) : Option Corruption :=
  if r.mode.toNat < modes then
    match r.program.find? fun i => !inRange r.program.length r.actions.length i with
    | some i => some (.instructionOutOfRange i)
    | none =>
      let switched := r.actions.flatten.filterMap switchedMode?
      (switched.find? fun m => !decide (m.toNat < modes)).map .modeOutOfRange
  else some (.modeOutOfRange r.mode)

def loadRule (header : LexerHeader) (r : LexerRuleImage) : Except LoadFault LexerRule :=
  match corruption? header.modes.length r with
  | some reason => .error (.corrupt (header.name ++ "$" ++ r.name) reason)
  | none => .ok ⟨r.name, r.tokenType, r.mode, r.shortest, r.program.toArray, r.actions.toArray⟩

/-- A lexer from its header and the images of its rules, in order of priority. -/
def ofImages (header : LexerHeader) (rules : List LexerRuleImage) :
    Except LoadFault LexerProgram := do
  let rules ← rules.mapM (loadRule header)
  return ⟨header.name, header.grammar, header.modes, header.channels, ⟨header.vocabulary⟩, rules⟩

end LexerProgram

end GrammarEngine

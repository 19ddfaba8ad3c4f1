import GrammarEngine.Text.Position
import GrammarEngine.Text.Quoted

/-!
# Faults of an input text

A run reports what it could not read and goes on as far as it can: characters at which no token
starts, and a token that stands where the rules expect others.
-/
namespace GrammarEngine

/-- What a recognizer met, with the offending text. -/
inductive InputFault.Cause where
  | unrecognized (text : String)
  | unexpected (text : String) (expected : List String)
deriving Repr, DecidableEq

/-- A cause at a place of the input. -/
structure InputFault where
  position : InputPosition
  cause : InputFault.Cause
deriving Repr, DecidableEq

namespace InputFault

inductive Kind where
  | tokenRecognition
  | mismatchedInput
  | noViableAlternative
deriving Repr, DecidableEq

/-- A token that stands where nothing could follow leaves no viable alternative. -/
def kind (f : InputFault) : Kind :=
  match f.cause with
  | .unrecognized _ => .tokenRecognition
  | .unexpected _ [] => .noViableAlternative
  | .unexpected _ _ => .mismatchedInput

/-- One expected name stands alone, several are listed in braces. -/
def Cause.message : Cause → String
  | unrecognized text => "token recognition error at: '" ++ Text.escapeBreaks text ++ "'"
  | unexpected text [] => "no viable alternative at input '" ++ Text.escapeBreaks text ++ "'"
  | unexpected text [name] =>
    "mismatched input '" ++ Text.escapeBreaks text ++ "' expecting " ++ name
  | unexpected text names =>
    "mismatched input '" ++ Text.escapeBreaks text ++ "' expecting \x7b" ++
      String.intercalate ", " names ++ "\x7d"

def message (f : InputFault) : String := f.cause.message

/-- The message behind its place. -/
def display (f : InputFault) : String :=
  s!"line {f.position.line}:{f.position.column} " ++ f.message

theorem kind_eq_noViableAlternative_iff (f : InputFault) :
    f.kind = .noViableAlternative ↔ ∃ text, f.cause = .unexpected text [] := by
  unfold kind
  split <;> simp_all

end InputFault

end GrammarEngine

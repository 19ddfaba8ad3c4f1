import GrammarEngine.Image.Encoding

/-!
# Faults of loading

A set is loaded only if every name in it resolves, every image is of the kind its place asks for,
and every number inside an image has something to refer to.
-/
namespace GrammarEngine

/-- What is wrong with an image. -/
inductive Corruption where
  | unreadable (fault : Image.PayloadFault)
  | modeOutOfRange (mode : UInt32)
  | instructionOutOfRange (instruction : Instruction)
  | startRuleOutOfRange (rule : UInt32)
  | ruleNotAtIndex (name : String) (index : UInt32)
  | unknownRule (name : String) (index : UInt32)
  | missingRule (name : String)
deriving Repr, DecidableEq

namespace Corruption

/-- How a message shows an instruction whose operands are out of range. -/
def showInstruction : Instruction → String
  | .split first second => s!"Split({first.toNat}, {second.toNat})"
  | .jump target => s!"Jump({target.toNat})"
  | .accept alternative => s!"Match({alternative.toNat})"
  | .char code => s!"Char({code.toNat})"
  | .ranges _ _ => "Class"
  | .any => "Any"

def message : Corruption → String
  | unreadable fault => fault.message
  | modeOutOfRange mode => s!"mode {mode.toNat} out of range"
  | instructionOutOfRange i => "instruction " ++ showInstruction i ++ " out of range"
  | startRuleOutOfRange rule => s!"start rule {rule.toNat} out of range"
  | ruleNotAtIndex name index => s!"rule {name} does not match index {index.toNat}"
  | unknownRule name index => s!"rule {name} references unknown rule {index.toNat}"
  | missingRule name => s!"rule {name} is missing"

end Corruption

/-- The kinds of images that a place of a set can ask for. -/
inductive ImagePlace where
  | primary
  | lexerRule
  | parserRule
deriving Repr, DecidableEq

def ImagePlace.message : ImagePlace → String
  | primary => "lexer, parser or library"
  | lexerRule => "lexer rule"
  | parserRule => "parser rule"

/-- Why a set of bundles could not be loaded. -/
inductive LoadFault where
  | unresolved (unit referencedBy : String)
  | corrupt (unit : String) (reason : Corruption)
  | unexpectedImage (unit found : String) (expected : ImagePlace)
  | duplicateUnit (name : String)
deriving Repr, DecidableEq

def LoadFault.message : LoadFault → String
  | unresolved unit referencedBy => s!"Unit {unit} referenced by {referencedBy} cannot be resolved"
  | corrupt unit reason => s!"Unit {unit} is corrupt: {reason.message}"
  | unexpectedImage unit found expected =>
    s!"Unit {unit} holds a {found} image where a {expected.message} was expected"
  | duplicateUnit name => s!"Unit {name} is registered twice"

end GrammarEngine

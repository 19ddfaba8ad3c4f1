import GrammarEngine.Recognizer.Fault

/-!
# Parser programs

A parser program holds the bodies of its rules by their numbers. The image of a rule is taken over
only if it bears the name that the header gives its number and refers to numbers that exist; every
number needs an image, and of several the last one counts.
-/
namespace GrammarEngine

/-- The names by which parse results are shown. -/
structure RecognizerNames where
  parser : String
  lexer : String
  rules : List String
  vocabulary : Vocabulary
deriving Repr, DecidableEq, Inhabited

structure ParserProgram where
  names : RecognizerNames
  grammar : String
  bodies : Array RuleBody
  startRule : Nat
deriving Repr

namespace ParserProgram

def name (p : ParserProgram) : String := p.names.parser

/-- The lexer whose vocabulary the rules were compiled against. -/
def vocabularyUnit (p : ParserProgram) : String := p.names.lexer

def ruleNames (p : ParserProgram) : List String := p.names.rules

/-- The number of the first rule of a name. -/
def ruleIndex? (p : ParserProgram) (rule : String) : Option Nat :=
  p.ruleNames.findIdx? fun name => name == rule

/-- The rule that is run when none is named. -/
def defaultRule (p : ParserProgram) : String := (p.ruleNames[p.startRule]?).getD ""

/-- What is wrong with the image of a rule. -/
def corruption? (ruleNames : List String) (r : ParserRuleImage) : Option Corruption :=
  if ruleNames[r.index.toNat]? = some r.name then
    (r.body.ruleRefs.find? fun index => !decide (index.toNat < ruleNames.length)).map
      (.unknownRule r.name)
  else some (.ruleNotAtIndex r.name r.index)

/-- The body that the last image of a number gives. -/
def body? (images : List ParserRuleImage) (index : Nat) : Option RuleBody :=
  (images.reverse.find? fun r => r.index.toNat == index).map ParserRuleImage.body

def requireBody (images : List ParserRuleImage) (r : String × Nat) : Except Corruption RuleBody :=
  match body? images r.2 with
  | some body => .ok body
  | none => .error (.missingRule r.1)

def checkImage (ruleNames : List String) (r : ParserRuleImage) : Except Corruption Unit :=
  match corruption? ruleNames r with
  | some reason => .error reason
  | none => .ok ()

/-- The bodies of all rules by number. -/
def loadBodies (header : ParserHeader) (images : List ParserRuleImage) :
    Except Corruption (List RuleBody) := do
  if header.ruleNames.length ≤ header.startRule.toNat then
    throw (.startRuleOutOfRange header.startRule)
  images.forM (checkImage header.ruleNames)
  header.ruleNames.zipIdx.mapM (requireBody images)

/-- A parser from its header, the vocabulary of its lexer and the images of its rules. -/
def ofImages (header : ParserHeader) (vocabulary : Vocabulary) (images : List ParserRuleImage) :
    Except LoadFault ParserProgram :=
  match loadBodies header images with
  | .error reason => .error (.corrupt header.name reason)
  | .ok bodies =>
    let names := ⟨header.name, header.vocabularyUnit, header.ruleNames, vocabulary⟩
    .ok ⟨names, header.grammar, bodies.toArray, header.startRule.toNat⟩

end ParserProgram

end GrammarEngine

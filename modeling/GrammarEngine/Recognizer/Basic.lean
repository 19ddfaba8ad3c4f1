import GrammarEngine.Bundle.Basic
import GrammarEngine.Lexer.Program
import GrammarEngine.Parser.Program

/-!
# Recognizers

Loading a bundle set copies all payloads into one arena and links the lexers and parsers whose
headers are primary units. Lexers come first, since a parser needs the vocabulary of its lexer;
libraries are linked into parsers when these are compiled and leave nothing to load.
-/
namespace GrammarEngine

/-- Where the payload of a unit lies in the arena, and whose unit it is. -/
structure UnitEntry where
  name : String
  offset : Nat
  length : Nat
  bundle : String
  inner : Bool
deriving Repr, DecidableEq

structure Recognizer where
  arena : List UInt8 := []
  entries : List UnitEntry := []
  lexers : List LexerProgram := []
  parsers : List ParserProgram := []
deriving Repr

namespace Recognizer

/-! ## The arena -/

def entry? (r : Recognizer) (name : String) : Option UnitEntry :=
  r.entries.find? fun e => e.name == name

/-- The payload of a unit. -/
def unit? (r : Recognizer) (name : String) : Option (List UInt8) :=
  (r.entry? name).map fun e => (r.arena.drop e.offset).take e.length

def unitCount (r : Recognizer) : Nat := r.entries.length

def totalSize (r : Recognizer) : Nat := r.arena.length

/-- Append one unit of a bundle. -/
def addUnit (s : BundleSet) (b : Bundle) (r : Recognizer) (id : Nat) :
    Except LoadFault Recognizer :=
  match s.unit? id with
  | none => .error (.unresolved s!"#{id}" b.name)
  | some u =>
    if (r.entry? u.name).isSome then .error (.duplicateUnit u.name)
    else
      let entry : UnitEntry := ⟨u.name, r.arena.length, u.payload.length, b.name, u.inner⟩
      .ok { r with arena := r.arena ++ u.payload, entries := r.entries ++ [entry] }

/-- The arena of a set: its bundles by name, the primary unit of each before its inner ones. -/
def ofUnits (s : BundleSet) : Except LoadFault Recognizer :=
  s.bundles.foldlM (fun r b => b.unitIds.foldlM (addUnit s b) r) {}

/-- The image of a unit that another one refers to. -/
def resolve (r : Recognizer) (unit referencedBy : String) : Except LoadFault UnitImage :=
  match r.unit? unit with
  | none => .error (.unresolved unit referencedBy)
  | some payload => (Image.decode payload).mapError fun e => .corrupt unit (.unreadable e)

/-! ## Registered recognizers -/

def lexer? (r : Recognizer) (name : String) : Option LexerProgram :=
  r.lexers.find? fun l => l.name == name

def parser? (r : Recognizer) (name : String) : Option ParserProgram :=
  r.parsers.find? fun p => p.name == name

def isRegistered (r : Recognizer) (name : String) : Bool :=
  (r.lexer? name).isSome || (r.parser? name).isSome

def sortNames (names : List String) : List String := names.mergeSort fun a b => decide (a ≤ b)

def lexerNames (r : Recognizer) : List String := sortNames (r.lexers.map LexerProgram.name)

def parserNames (r : Recognizer) : List String := sortNames (r.parsers.map ParserProgram.name)

/-- How many lexers and parsers there are. -/
def registered (r : Recognizer) : Nat := r.lexers.length + r.parsers.length

def registerLexer (r : Recognizer) (l : LexerProgram) : Except LoadFault Recognizer :=
  if r.isRegistered l.name then .error (.duplicateUnit l.name)
  else .ok { r with lexers := r.lexers ++ [l] }

def registerParser (r : Recognizer) (p : ParserProgram) : Except LoadFault Recognizer :=
  if r.isRegistered p.name then .error (.duplicateUnit p.name)
  else .ok { r with parsers := r.parsers ++ [p] }

/-! ## Linking -/

def lexerRule (r : Recognizer) (bundle unit : String) : Except LoadFault LexerRuleImage := do
  match ← r.resolve unit bundle with
  | .lexerRule rule => return rule
  | image => throw (.unexpectedImage unit image.kind .lexerRule)

def parserRule (r : Recognizer) (bundle unit : String) : Except LoadFault ParserRuleImage := do
  match ← r.resolve unit bundle with
  | .parserRule rule => return rule
  | image => throw (.unexpectedImage unit image.kind .parserRule)

def linkLexer (r : Recognizer) (bundle : String) (header : LexerHeader) :
    Except LoadFault Recognizer := do
  let rules ← header.ruleUnits.mapM (r.lexerRule bundle)
  r.registerLexer (← LexerProgram.ofImages header rules)

def linkParser (r : Recognizer) (bundle : String) (header : ParserHeader) :
    Except LoadFault Recognizer :=
  match r.lexer? header.vocabularyUnit with
  | none => .error (.unresolved header.vocabularyUnit bundle)
  | some lexer => do
    let rules ← header.ruleUnits.mapM (r.parserRule bundle)
    r.registerParser (← ParserProgram.ofImages header lexer.vocabulary rules)

/-- Link the lexer of a primary unit. A parser has to wait. -/
def linkPrimary (r : Recognizer) (primary : String × UnitImage) : Except LoadFault Recognizer :=
  match primary.2 with
  | .lexerHeader header => r.linkLexer primary.1 header
  | .parserHeader _ => .ok r
  | .library _ => .ok r
  | image => .error (.unexpectedImage primary.1 image.kind .primary)

def linkDeferred (r : Recognizer) (primary : String × UnitImage) : Except LoadFault Recognizer :=
  match primary.2 with
  | .parserHeader header => r.linkParser primary.1 header
  | _ => .ok r

/-- The recognizers of a bundle set. -/
def load (s : BundleSet) : Except LoadFault Recognizer := do
  let r ← ofUnits s
  let primaries ← s.bundles.mapM fun b => do
    return (b.name, ← r.resolve b.name b.name)
  let r ← primaries.foldlM linkPrimary r
  primaries.foldlM linkDeferred r

end Recognizer

end GrammarEngine

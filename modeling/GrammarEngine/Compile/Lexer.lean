import GrammarEngine.Analysis.Lexer
import GrammarEngine.Compile.Automaton

/-!
# Compiling lexers

A declared lexer becomes a header image and one image for each of its rules. All rules are compiled
before the faults are reported together, unless the library that the lexer extends is missing.

References see the rules and fragments of the lexer, later ones of a name before earlier ones, and
after them the fragments of the library.
-/
namespace GrammarEngine

/-- The declared units that a unit may refer to; the last one of a name counts. -/
abbrev UnitIndex := List UnitDecl

def UnitIndex.find? (index : UnitIndex) (name : String) : Option UnitDecl :=
  List.find? (fun d => d.name == name) index.reverse

/-- Images under the names of their units. -/
abbrev NamedImages := List (String × UnitImage)

/-- The unit of a rule inside another unit. -/
def innerName (unit rule : String) : String := s!"{unit}${rule}"

/-- The library that a unit extends, if it extends one. -/
def baseLibrary (base : Option NameAt) (index : UnitIndex) :
    Except CompileFault.Located (Option LibraryDecl) :=
  match base with
  | none => .ok none
  | some n =>
    match index.find? n.name with
    | some (.library d) => .ok (some d)
    | some _ => .error (n.position, .notALibrary n.name)
    | none => .error (n.position, .unknownLibrary n.name)

namespace LexerDecl

/-- The names of rules and fragments at their places. -/
def names (d : LexerDecl) : List NameAt :=
  d.rules.map (fun r => ⟨r.name, r.position⟩) ++ d.fragments.map fun f => ⟨f.name, f.position⟩

/-- What references in the lexer can name. -/
def table (d : LexerDecl) (library : Option LibraryDecl) : Automaton.Table :=
  let rules := d.rules.map fun r => (r.name, r.alternatives.map LexerAlternative.items)
  let fragments := d.fragments.map fun f => (f.name, f.alternatives)
  let inherited := match library with
    | some l => l.fragments.map fun f => (f.name, f.alternatives)
    | none => []
  (rules ++ fragments).reverse ++ inherited

/-- The channels by number. -/
def allChannels (d : LexerDecl) : List String := LexerSpec.builtinChannels ++ d.channels

def modeIndex? (d : LexerDecl) (name : String) : Option UInt32 :=
  (d.modes.findIdx? (· == name)).map UInt32.ofNat

/-- A channel given by a number or a name. -/
def channelIndex? (d : LexerDecl) (name : String) : Option UInt32 :=
  match Text.readDecimal 0x100000000 (Text.dropPlus name.toList) with
  | some n => some (UInt32.ofNat n)
  | none => (d.allChannels.findIdx? (· == name)).map UInt32.ofNat

def tokenType? (d : LexerDecl) (name : String) : Option TokenType :=
  (d.tokens.find? fun t => t.name == name).map TokenDecl.type

/-- The action that a command asks for. -/
def action (d : LexerDecl) : LexerCommand → Except CompileFault LexerAction
  | .skip => .ok .skip
  | .more => .ok .more
  | .popMode => .ok .popMode
  | .channel name =>
    match d.channelIndex? name with
    | some c => .ok (.channel c)
    | none => .error (.unknownChannel name)
  | .type name =>
    match d.tokenType? name with
    | some t => .ok (.type t)
    | none => .error (.unknownToken name)
  | .mode name =>
    match d.modeIndex? name with
    | some m => .ok (.mode m)
    | none => .error (.unknownMode name)
  | .pushMode name =>
    match d.modeIndex? name with
    | some m => .ok (.pushMode m)
    | none => .error (.unknownMode name)

/-- The faults among results. -/
def faults {α : Type} (results : List (Except CompileFault.Located α)) :
    List CompileFault.Located :=
  results.filterMap fun
    | .error e => some e
    | .ok _ => none

/-- The values among results. -/
def values {ε α : Type} (results : List (Except ε α)) : List α :=
  results.filterMap fun
    | .ok a => some a
    | .error _ => none

def actionAt (d : LexerDecl) (command : LexerCommand × Position) :
    Except CompileFault.Located LexerAction :=
  (d.action command.1).mapError fun fault => (command.2, fault)

def declares (d : LexerDecl) (r : LexerRuleDecl) : Bool :=
  d.tokens.any fun t => t.name == r.name && t.type == r.type

/-- The image of a rule, or everything that is wrong with it. -/
def compileRule (d : LexerDecl) (table : Automaton.Table) (r : LexerRuleDecl) :
    Except (List CompileFault.Located) LexerRuleImage :=
  let mode := d.modeIndex? r.mode
  let modeFaults := if mode.isNone then [(r.position, .unknownMode r.mode)] else []
  let tokenFaults := if d.declares r then [] else [(r.position, .undeclaredToken r.name)]
  let actions := r.alternatives.map fun a => a.commands.map d.actionAt
  let actionFaults := actions.flatMap faults
  let program := Automaton.compileRule d.caseInsensitive table r.name
    (r.alternatives.map LexerAlternative.items)
  match program, modeFaults ++ tokenFaults ++ actionFaults with
  | .ok code, [] => .ok {
      name := r.name, tokenType := r.type, mode := mode.getD 0, shortest := code.isLazy
      program := code.instructions, actions := actions.map values }
  | .ok _, found => .error found
  | .error e, found => .error (found ++ [e])

def header (d : LexerDecl) : LexerHeader where
  name := d.name
  grammar := d.grammar
  modes := d.modes
  channels := d.allChannels
  vocabulary := d.tokens.map fun t => ⟨t.type, t.name, t.literal⟩
  ruleUnits := d.rules.map fun r => innerName d.name r.name

/-- The images of a lexer, or everything that is wrong with it. -/
def compile (d : LexerDecl) (index : UnitIndex) :
    Except (List CompileFault.Located) NamedImages :=
  match baseLibrary d.base index with
  | .error e => .error [e]
  | .ok library =>
    let results := d.rules.map (d.compileRule (d.table library))
    let ruleFaults := results.flatMap fun
      | .error es => es
      | .ok _ => []
    let emptyFaults := if d.rules.isEmpty then [(d.position, .noTokenRules)] else []
    match duplicates "lexer rule" [] d.names ++ ruleFaults ++ emptyFaults with
    | [] =>
      .ok ((d.name, .lexerHeader d.header) ::
        (values results).map fun r => (innerName d.name r.name, .lexerRule r))
    | found => .error found

end LexerDecl

end GrammarEngine

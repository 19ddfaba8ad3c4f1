import GrammarEngine.Bundle.Classifier
import GrammarEngine.Files.System
import GrammarEngine.Generation
import GrammarEngine.Json.Reader
import GrammarEngine.Stream

/-!
# Configuration

A configuration says how units are generated and bundled, which units and which rule a parse uses by
default, and what else is compiled with the grammar. Settings are the document form of a
configuration; they name files of utility units, which are read when the configuration is made.
-/
namespace GrammarEngine

structure EngineConfig where
  package : Option String := none
  lexer : Option String := none
  parser : Option String := none
  entryRule : Option String := none
  folding : CaseFolding := .none
  utilities : List UnitSource := []
  classifier : Option NamingScheme := none
  warningsAsErrors : Bool := false
  maxDepth : Option Nat := none
deriving Inhabited

namespace EngineConfig

def generationOptions (c : EngineConfig) : GenerationOptions := ⟨c.package, c.warningsAsErrors⟩

/-- Compile one more unit with the grammar. -/
def addUtility (c : EngineConfig) (name source : String) : EngineConfig :=
  { c with utilities := c.utilities ++ [⟨name, source, .utility⟩] }

end EngineConfig

/-- What a single parse asks for instead of the defaults. -/
structure ParseOptions where
  entryRule : Option String := none
  folding : Option CaseFolding := none
deriving Repr, DecidableEq, Inhabited

inductive SettingsFault where
  | unreadable (path : String) (reason : FileFault)
  | invalid
  | unnamedUtility (path : String)
deriving Repr, DecidableEq

def SettingsFault.message : SettingsFault → String
  | unreadable path reason => s!"Failed to read {path}: {reason.message}"
  | invalid => "Invalid settings document"
  | unnamedUtility path => s!"Cannot derive a unit name from {path}"

/-- Settings as they stand in a document. -/
structure Settings where
  package : Option String := none
  lexer : Option String := none
  parser : Option String := none
  entryRule : Option String := none
  folding : CaseFolding := .none
  utilityFiles : List String := []
  warningsAsErrors : Bool := false
  maxDepth : Option Nat := none
deriving Repr, DecidableEq, Inhabited

namespace Settings

def names : List String :=
  ["package", "lexer", "parser", "entry_rule", "case_folding", "utility_files",
    "warnings_as_errors", "max_rule_depth"]

def toJson (s : Settings) : Json :=
  .object [("package", .optional .text s.package), ("lexer", .optional .text s.lexer),
    ("parser", .optional .text s.parser), ("entry_rule", .optional .text s.entryRule),
    ("case_folding", .text s.folding.name),
    ("utility_files", .list (s.utilityFiles.map .text)),
    ("warnings_as_errors", .bool s.warningsAsErrors),
    ("max_rule_depth", .optional .nat s.maxDepth)]

/-- The value of a member that may be left out. -/
def member {α : Type} (fields : List (String × Json)) (key : String) (read : Json → Option α)
    (default : α) : Option α :=
  match Json.lookup? key fields with
  | none => some default
  | some j => read j

def optionalText (j : Json) : Option (Option String) := j.orNull? Json.text?

def folding? (j : Json) : Option CaseFolding := j.tag?.bind CaseFolding.ofName?

def depth? (j : Json) : Option (Option Nat) := j.orNull? (Json.natUpTo? 0xffffffffffffffff)

/-- Members are known by name and stand once; each of them may be left out. -/
def ofJson? (j : Json) : Option Settings := do
  let fields ← j.record? names 0
  guard (fields.all fun f => names.contains f.1)
  guard ((fields.map Prod.fst).Nodup)
  return {
    package := ← member fields "package" optionalText none
    lexer := ← member fields "lexer" optionalText none
    parser := ← member fields "parser" optionalText none
    entryRule := ← member fields "entry_rule" optionalText none
    folding := ← member fields "case_folding" folding? .none
    utilityFiles := ← member fields "utility_files" (Json.listOf? Json.text?) []
    warningsAsErrors := ← member fields "warnings_as_errors" Json.bool? false
    maxDepth := ← member fields "max_rule_depth" depth? none }

/-- The settings in a text. -/
def read (text : String) : Except SettingsFault Settings :=
  match (Json.read? text).bind ofJson? with
  | some s => .ok s
  | none => .error .invalid

/-- Files of utility units that are not absolute lie relative to a directory. -/
def relativeTo (dir : String) (s : Settings) : Settings :=
  { s with utilityFiles := s.utilityFiles.map (Path.join dir) }

/-- The configuration without the units in files. -/
def baseConfig (s : Settings) : EngineConfig where
  package := s.package
  lexer := s.lexer
  parser := s.parser
  entryRule := s.entryRule
  folding := s.folding
  warningsAsErrors := s.warningsAsErrors
  maxDepth := s.maxDepth

end Settings

variable {m : Type → Type} [Monad m]

/-- Compile the unit in a file with the grammar, under the name of the file without its
extension. -/
def EngineConfig.addUtilityFile (fs : FileSystem m) (c : EngineConfig) (path : String) :
    m (Except SettingsFault EngineConfig) :=
  match Path.stem? path with
  | none => return .error (.unnamedUtility path)
  | some name => do
    match ← fs.readText path with
    | .ok source => return .ok (c.addUtility name source)
    | .error reason => return .error (.unreadable path reason)

/-- Add the units in several files, up to the first that fails. -/
def EngineConfig.addUtilityFiles (fs : FileSystem m) (c : EngineConfig) :
    List String → m (Except SettingsFault EngineConfig)
  | [] => return .ok c
  | path :: rest => do
    match ← c.addUtilityFile fs path with
    | .ok c => addUtilityFiles fs c rest
    | .error e => return .error e

namespace Settings

/-- The settings in a file. Files of utility units are relative to its directory. -/
def load (fs : FileSystem m) (path : String) : m (Except SettingsFault Settings) := do
  match ← fs.readText path with
  | .error reason => return .error (.unreadable path reason)
  | .ok text => return (read text).map (relativeTo ((Path.parent? path).getD ""))

/-- The configuration that settings describe. -/
def config (fs : FileSystem m) (s : Settings) : m (Except SettingsFault EngineConfig) :=
  s.baseConfig.addUtilityFiles fs s.utilityFiles

end Settings

end GrammarEngine

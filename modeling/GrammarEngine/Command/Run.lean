import GrammarEngine.Command.Arguments
import GrammarEngine.Engine.Files
import GrammarEngine.Json.Printer
import GrammarEngine.Tree.Render

/-!
# Running commands

A command writes lines to its output and to its error output and ends with an exit code. A failure
ends it with one line that gives the failure and everything behind it; what was written before
stays.
-/
namespace GrammarEngine.Command

/-- What a command has written. -/
structure Transcript where
  output : String := ""
  errors : String := ""
deriving Repr, DecidableEq

structure Outcome where
  code : Nat := 0
  output : String := ""
  errors : String := ""
deriving Repr, DecidableEq

/-- A running command fails with a series of messages, each the cause of the one before. -/
abbrev CommandM (m : Type → Type) := ExceptT (List String) (StateT Transcript m)

variable {m : Type → Type} [Monad m]

def say (line : String) : CommandM m Unit :=
  modify fun t => { t with output := t.output ++ line ++ "\n" }

def warn (line : String) : CommandM m Unit :=
  modify fun t => { t with errors := t.errors ++ line ++ "\n" }

/-- The value, or a failure described by messages. -/
def orFail {ε α : Type} (messages : ε → List String) : Except ε α → CommandM m α
  | .ok a => pure a
  | .error e => throw (messages e)

/-- The value of an operation on files, or a failure described by messages. -/
def attempt {ε α : Type} (messages : ε → List String) (operation : m (Except ε α)) :
    CommandM m α := do
  orFail messages (← operation)

def settingsChain (e : SettingsFault) : List String := (EngineFault.settings e).chain

def sourceChain (e : SourceFault) : List String := (EngineFault.source e).chain

def restoreChain (e : RestoreFault) : List String := (EngineFault.restore e).chain

/-! ## What commands start from -/

/-- The configuration in a settings document, where one is given. -/
def configuration (fs : FileSystem m) : Option String → CommandM m EngineConfig
  | none => pure {}
  | some path => do
    let settings ← attempt (fun e => s!"Failed to load settings {path}" :: settingsChain e)
      (Settings.load fs path)
    attempt settingsChain (settings.config fs)

def addUtilities (fs : FileSystem m) : List String → EngineConfig → CommandM m EngineConfig
  | [], c => pure c
  | path :: rest, c => do
    let c ← attempt (fun e => s!"Failed to read utility {path}" :: settingsChain e)
      (c.addUtilityFile fs path)
    addUtilities fs rest c

/-- Directories stand for the grammar files below them. -/
def grammarPaths (fs : FileSystem m) : List String → m (List String)
  | [] => return []
  | path :: rest => do
    let found ← if ← fs.isDirectory path then do
        return ((← fs.filesBelow path).toOption.getD []).filter GrammarFile.isGrammarPath
      else pure [path]
    return found ++ (← grammarPaths fs rest)

def grammarFiles (fs : FileSystem m) (paths : List String) : CommandM m (List GrammarFile) := do
  let paths ← (grammarPaths fs paths : m (List String))
  if paths.isEmpty then throw ["No grammar files found"]
  attempt (fun e => "Failed to read grammar files" :: sourceChain e) (GrammarFile.readAll fs paths)

/-- The engine of a grammar, compiled. -/
def compiled (fs : FileSystem m) (config : EngineConfig) (paths : List String) :
    CommandM m Engine := do
  let files ← grammarFiles fs paths
  orFail EngineFault.chain ({ grammar := some files, config } : Engine).compile

def container (fs : FileSystem m) (path : String) : CommandM m PersistedBundle := do
  attempt (fun e => s!"Failed to read bundle {path}" :: restoreChain e)
    (PersistedBundle.readFile fs path)

/-! ## The commands -/

def sizeLine (s : BundleSet) : String :=
  s!"Compiled {s.size} bundle(s), {s.unitCount} unit(s), {s.totalSize} bytes"

def compile (fs : FileSystem m) (config : EngineConfig) (a : CompileArguments) :
    CommandM m Unit := do
  let config := { config with package := a.package.or config.package }
  let config ← addUtilities fs a.utilities config
  let e ← compiled fs config a.grammars
  e.warnings.forM fun w => warn s!"warning: {w}"
  e.artifacts?.forM fun s => say (sizeLine s)
  a.emitDir.forM fun dir => do
    let written ← attempt EngineFault.chain (e.writeSources fs dir)
    say s!"Wrote {written.length} generated source(s) to {dir}"
  a.output.forM fun path => do
    attempt (fun f => s!"Failed to write bundle {path}" :: EngineFault.chain f)
      (e.storeFile fs path a.force)
    say s!"Stored recognizer in {path}"

def engineOf (fs : FileSystem m) (config : EngineConfig) : RecognizerSource → CommandM m Engine
  | .grammars paths => compiled fs config paths
  | .bundle path => do
    orFail EngineFault.chain (({ config } : Engine).loadBundle (← container fs path))

def render (format : TreeFormat) (t : ParseTree) : String :=
  match format with
  | .tree => t.render
  | .dot => t.toDot
  | .json => t.toJson.print

/-- The answer is whether the input had errors. -/
def parse (fs : FileSystem m) (config : EngineConfig) (a : ParseArguments) : CommandM m Bool := do
  let e ← engineOf fs config a.source
  let (result, e) ← attempt EngineFault.chain (e.parseFile fs a.input ⟨a.rule, a.folding⟩)
  result.faults.forM fun f => warn s!"{a.input}: {f.display}"
  e.tree?.forM fun t => say (render a.format t)
  return result.hasErrors

def recordLine (b : BundleRecord) : String :=
  let inner := b.innerUnits.length
  s!"  {b.primary} [{b.origin.title}] primary #{b.primaryUnit} + {inner} inner unit(s)"

/-- The description of a manifest, line by line. -/
def description (m : Manifest) : List String :=
  let metadata := m.metadata
  ["Grammar:   " ++ metadata.grammarName ++
      " (" ++ String.intercalate ", " metadata.grammarFiles ++ ")",
    s!"Created:   {m.createdAt} by {m.generator}",
    s!"Format:    v{m.version}",
    "Lexer:     " ++ metadata.lexer.getD "-",
    "Parser:    " ++ metadata.parser.getD "-",
    "Entry:     " ++ metadata.entryRule.getD "-",
    s!"Folding:   {metadata.folding.name}",
    "",
    s!"{m.bundles.length} bundle(s), {m.totalSize} bytes:"] ++ m.bundles.map recordLine

def inspect (fs : FileSystem m) (path : String) : CommandM m Unit := do
  let p ← container fs path
  let manifest ← orFail restoreChain p.manifest
  (description manifest).forM say

/-- Run a command. The answer is the exit code. -/
def Request.run (fs : FileSystem m) (i : Request) : CommandM m Nat := do
  let config ← configuration fs i.config
  match i.task with
  | .compile a =>
    compile fs config a
    return 0
  | .parse a => return if ← parse fs config a then 1 else 0
  | .inspect path =>
    inspect fs path
    return 0

/-! ## Whole runs -/

def versionLine : String := "ingram 0.1.0"

def usage : String :=
  "Usage: ingram [--config FILE] [-v] COMMAND\n\n" ++
  "  compile GRAMMAR... [-o BUNDLE] [--force] [--package NAME] [--utility FILE]" ++
  " [--emit-dir DIR]\n" ++
  "  parse (--grammar PATH... | --bundle BUNDLE) [--rule RULE] [--case none|upper|lower]\n" ++
  "        [--format tree|dot|json] INPUT\n" ++
  "  inspect BUNDLE\n"

/-- The line of a failure. -/
def failureLine (messages : List String) : String :=
  "Error: " ++ String.intercalate ": " messages

def Outcome.ofHalt : Halt → Outcome
  | .usage => { code := 2 }
  | .help => { output := usage }
  | .version => { output := versionLine ++ "\n" }

/-- Do what arguments ask for. -/
def execute (fs : FileSystem m) (arguments : List String) : m Outcome := do
  match Request.read arguments with
  | .error reason => return .ofHalt reason
  | .ok i =>
    let (result, t) ← (i.run fs).run.run {}
    return match result with
      | .ok code => ⟨code, t.output, t.errors⟩
      | .error messages => ⟨1, t.output, t.errors ++ failureLine messages ++ "\n"⟩

end GrammarEngine.Command

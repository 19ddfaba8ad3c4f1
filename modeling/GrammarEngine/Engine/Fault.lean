import GrammarEngine.Compile.Bundling
import GrammarEngine.Container.Restore
import GrammarEngine.Engine.Config
import GrammarEngine.Parser.Result

/-!
# Faults of an engine

Everything an engine does can fail in the way of the step that failed. A fault has a message and the
messages of its causes; programs show them in a row.
-/
namespace GrammarEngine

/-- How far an engine has come: nothing is loaded, a recognizer is loaded, or it has also produced a
tree. -/
inductive Lifecycle where
  | uncompiled
  | compiled
  | ready
deriving Repr, DecidableEq

def Lifecycle.name : Lifecycle → String
  | uncompiled => "uncompiled"
  | compiled => "compiled"
  | ready => "ready"

/-- An operation that came out of order. -/
inductive WorkflowFault where
  | notLoaded (operation : String) (state : Lifecycle)
  | noGrammar (state : Lifecycle)
  | notGenerated (state : Lifecycle)
deriving Repr, DecidableEq

def WorkflowFault.message : WorkflowFault → String
  | notLoaded operation state =>
    s!"Cannot {operation} while {state.name}: compile or load a recognizer first"
  | noGrammar state => s!"Cannot compile while {state.name}: no grammar source was supplied"
  | notGenerated state =>
    s!"Cannot write generated sources while {state.name}: compile from a grammar first"

/-- Why grammar files could not be read. -/
inductive SourceFault where
  | unreadable (path : String) (reason : FileFault)
  | noFiles (path : String)
deriving Repr, DecidableEq

def SourceFault.message : SourceFault → String
  | unreadable path reason => s!"Failed to read grammar file {path}: {reason.message}"
  | noFiles path => s!"No grammar files found under {path}"

/-- Why a container could not be written. -/
inductive StoreFault where
  | alreadyExists (path : String)
  | unwritable (reason : FileFault)
deriving Repr, DecidableEq

def StoreFault.message : StoreFault → String
  | alreadyExists path => s!"Refusing to overwrite existing bundle: {path}"
  | unwritable reason => s!"I/O error while storing bundle: {reason.message}"

inductive EngineFault where
  | generation (fault : GenerationError)
  | source (fault : SourceFault)
  | compilation (fault : CompilationError)
  | load (fault : LoadFault)
  | workflow (fault : WorkflowFault)
  | parsing (fault : ParsingFault)
  | store (fault : StoreFault)
  | restore (fault : RestoreFault)
  | settings (fault : SettingsFault)
  | unwritable (path : String) (reason : FileFault)

namespace EngineFault

def message : EngineFault → String
  | generation fault => fault.message
  | source fault => fault.message
  | compilation fault => fault.message
  | load fault => fault.message
  | workflow fault => fault.message
  | parsing fault => fault.message
  | store fault => fault.message
  | restore fault => fault.message
  | settings fault => fault.message
  | unwritable path reason => s!"Failed to write {path}: {reason.message}"

/-- The messages of what lies behind a fault. -/
def causes : EngineFault → List String
  | source (.unreadable _ reason) => [reason.message]
  | compilation (.bundle fault) => [fault.message]
  | parsing (.unreadableInput _ reason) => [reason.message]
  | store (.unwritable reason) => [reason.message]
  | restore (.invalidEntry _ fault) => [fault.message]
  | restore (.inconsistent fault) => [fault.message]
  | restore .archive => [ArchiveFault.malformed.message]
  | restore (.unreadable reason) => [reason]
  | settings (.unreadable _ reason) => [reason.message]
  | unwritable _ reason => [reason.message]
  | _ => []

/-- A message and what lies behind it. -/
def chain (e : EngineFault) : List String := e.message :: e.causes

end EngineFault

end GrammarEngine

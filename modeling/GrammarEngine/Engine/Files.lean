import GrammarEngine.Engine.Basic

/-!
# Engines and files

Grammars, inputs and containers are read from files, and containers and generated units are written
to files.
-/
namespace GrammarEngine

variable {m : Type → Type} [Monad m]

/-! ## Grammar files -/

namespace GrammarFile

/-- The extension of grammar files. -/
def extension : String := "g4"

/-- A grammar file under its last path segment. -/
def read (fs : FileSystem m) (path : String) : m (Except SourceFault GrammarFile) := do
  match ← fs.readText path with
  | .ok text => return .ok ⟨(Path.fileName? path).getD path, text⟩
  | .error reason => return .error (.unreadable path reason)

/-- Several grammar files in the given order, up to the first that fails. -/
def readAll (fs : FileSystem m) : List String → m (Except SourceFault (List GrammarFile))
  | [] => return .ok []
  | path :: rest => do
    match ← read fs path with
    | .error e => return .error e
    | .ok f => return (← readAll fs rest).map (f :: ·)

/-- Whether a path has the extension of grammar files. -/
def isGrammarPath (path : String) : Bool := Path.extension? path == some extension

/-- All grammar files below a directory, of which there must be one. -/
def readDirectory (fs : FileSystem m) (dir : String) :
    m (Except SourceFault (List GrammarFile)) := do
  match ← fs.filesBelow dir with
  | .error reason => return .error (.unreadable dir reason)
  | .ok paths =>
    let found := paths.filter isGrammarPath
    if found.isEmpty then return .error (.noFiles dir) else readAll fs found

end GrammarFile

/-! ## Containers -/

namespace PersistedBundle

/-- Write a container and the directories that lead to it. What exists is replaced only if that is
asked for. -/
def writeFile (fs : FileSystem m) (p : PersistedBundle) (path : String) (overwrite : Bool) :
    m (Except StoreFault Unit) := do
  if !overwrite && (← fs.isPresent path) then return .error (.alreadyExists path)
  let dir := (Path.parent? path).getD ""
  let made ← if dir == "" then pure (.ok ()) else fs.createDirectories dir
  match made with
  | .error reason => return .error (.unwritable reason)
  | .ok () => return (← fs.write path p.bytes).mapError .unwritable

def readFile (fs : FileSystem m) (path : String) : m (Except RestoreFault PersistedBundle) := do
  return match ← fs.read path with
    | .ok bytes => .ok ⟨bytes⟩
    | .error reason => .error (.unreadable reason.message)

end PersistedBundle

/-! ## Generated units -/

namespace GeneratedUnits

/-- The file of a unit in a directory. -/
def unitPath (dir : String) (u : UnitSource) : String := Path.join dir (u.name ++ ".unit")

def writeUnits (fs : FileSystem m) (dir : String) :
    List UnitSource → m (Except FileFault (List String))
  | [] => return .ok []
  | u :: rest => do
    match ← fs.write (unitPath dir u) (Text.utf8 u.source) with
    | .error reason => return .error reason
    | .ok () => return (← writeUnits fs dir rest).map (unitPath dir u :: ·)

/-- Write every unit to a file in a directory, which is made first. -/
def writeFiles (fs : FileSystem m) (g : GeneratedUnits) (dir : String) :
    m (Except FileFault (List String)) := do
  match ← fs.createDirectories dir with
  | .error reason => return .error reason
  | .ok () => writeUnits fs dir g.units

end GeneratedUnits

/-! ## Engines -/

namespace Engine

/-- Parse the text in a file. -/
def parseFile (fs : FileSystem m) (e : Engine) (path : String) (options : ParseOptions) :
    m (Except EngineFault (ParseResult × Engine)) := do
  return e.parseContents path (← fs.readText path) options

/-- Write the container of what is loaded to a file. -/
def storeFile (fs : FileSystem m) (e : Engine) (path : String) (overwrite : Bool) :
    m (Except EngineFault Unit) := do
  match e.pack (← fs.now) with
  | .error fault => return .error fault
  | .ok p => return (← p.writeFile fs path overwrite).mapError .store

/-- Load the container in a file. -/
def loadFile (fs : FileSystem m) (e : Engine) (path : String) : m (Except EngineFault Engine) := do
  match ← PersistedBundle.readFile fs path with
  | .error fault => return .error (.restore fault)
  | .ok p => return e.loadBundle p

/-- Write the units generated by the last compilation to files. -/
def writeSources (fs : FileSystem m) (e : Engine) (dir : String) :
    m (Except EngineFault (List String)) := do
  match e.generated? with
  | none => return .error (.workflow (.notGenerated e.state))
  | some g => return (← g.writeFiles fs dir).mapError (.unwritable dir)

/-- Compile the unit in a file with the grammar from now on. -/
def addUtilityFile (fs : FileSystem m) (e : Engine) (path : String) :
    m (Except EngineFault Engine) := do
  return match ← e.config.addUtilityFile fs path with
    | .ok config => .ok { e with config }
    | .error fault => .error (.settings fault)

end Engine

end GrammarEngine

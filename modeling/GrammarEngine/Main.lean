import GrammarEngine.Command.Run
import Std.Time.DateTime.Timestamp

/-!
# The program

The commands, run over the files of the machine. Nothing is decided here: operations on files are
passed on, and their failures are named.
-/
namespace GrammarEngine.Machine

/-- The fault that a failure of the system stands for. -/
def faultOf : IO.Error → FileFault
  | .noFileOrDirectory .. => .notFound
  | .permissionDenied .. => .permissionDenied
  | .alreadyExists .. => .alreadyExists
  | .inappropriateType _ code _ => if code == 20 then .notDirectory else .isDirectory
  | e => .other (toString e)

def attempt {α : Type} (action : IO α) : IO (Except FileFault α) := do
  try
    return .ok (← action)
  catch e =>
    return .error (faultOf e)

def place (path : String) := System.mkFilePath [path]

/-- The files at a path and below it. -/
partial def filesAt (path : String) : IO (List String) := do
  if ← (place path).isDir then
    let entries ← (place path).readDir
    let found ← entries.toList.mapM fun e => filesAt (Path.join path e.fileName)
    return found.flatten
  else return [path]

def sorted (paths : List String) : List String :=
  paths.mergeSort fun a b => Path.leSegments (Path.segments a) (Path.segments b)

/-- The time as manifests write it. -/
def now : IO String := do
  let t ← Std.Time.Timestamp.now
  let nanos := t.toNanosecondsSinceUnixEpoch.val.toNat
  return Timestamp.ofUnix (nanos / 1000000000) (nanos % 1000000000)

def files : FileSystem IO where
  read path := attempt do return (← IO.FS.readBinFile path).toList
  write path contents := attempt (IO.FS.writeBinFile path ⟨contents.toArray⟩)
  createDirectories path := attempt (IO.FS.createDirAll path)
  isPresent path := (place path).pathExists
  isDirectory path := (place path).isDir
  filesBelow path := attempt do
    let _ ← (place path).metadata
    return sorted (← filesAt path)
  now := now

end GrammarEngine.Machine

/-- Run the command that the arguments ask for. -/
def main (arguments : List String) : IO UInt32 := do
  let outcome ← GrammarEngine.Command.execute GrammarEngine.Machine.files arguments
  IO.print outcome.output
  IO.eprint outcome.errors
  if outcome.code == 2 then
    IO.eprint GrammarEngine.Command.usage
  return outcome.code.toUInt32

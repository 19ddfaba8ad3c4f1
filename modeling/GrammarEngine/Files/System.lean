import GrammarEngine.Files.Fault
import GrammarEngine.Files.Path
import GrammarEngine.Text.Utf8

/-!
# Access to files

Programs reach files through a record of operations, so that they can be run over the files of a
machine or over a tree of files that is a value.
-/
namespace GrammarEngine

/-- The operations on files; `filesBelow` lists the files of a directory and of all directories in
it, sorted by their segments, and `now` is the time at which something is made. -/
structure FileSystem (m : Type → Type) where
  read : String → m (Except FileFault (List UInt8))
  write : String → List UInt8 → m (Except FileFault Unit)
  createDirectories : String → m (Except FileFault Unit)
  isPresent : String → m Bool
  isDirectory : String → m Bool
  filesBelow : String → m (Except FileFault (List String))
  now : m String

namespace FileSystem

variable {m : Type → Type} [Monad m]

/-- The text that bytes hold. -/
def textOf (bytes : List UInt8) : Except FileFault String :=
  match Text.ofUtf8? bytes with
  | some text => .ok text
  | none => .error .notText

/-- The text of a file. -/
def readText (fs : FileSystem m) (path : String) : m (Except FileFault String) := do
  return (← fs.read path).bind textOf

end FileSystem

end GrammarEngine

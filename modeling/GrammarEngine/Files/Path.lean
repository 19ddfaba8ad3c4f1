import GrammarEngine.Archive.EntryName

/-!
# File paths

Paths are texts whose segments are separated by slashes. Empty segments carry no meaning, and
neither does the current directory unless a path begins with it.
-/
namespace GrammarEngine.Path

/-- The segments between slashes, empty ones included. -/
def segments (path : String) : List String :=
  (EntryName.parts path.toList).map String.ofList

/-- The order of paths, segment by segment. -/
def leSegments (a b : List String) : Bool := !b.lex a fun x y => decide (x < y)

def isAbsolute (path : String) : Bool := path.toList.head? == some '/'

/-- Whether a segment says nothing about where a path leads. -/
def isVoid (s : String) : Bool := s == "" || s == "."

/-- The segments of a path without void ones at its end; one that begins the path stays. -/
def trimmed (path : String) : List String :=
  match segments path with
  | [] => []
  | first :: rest => first :: (rest.reverse.dropWhile isVoid).reverse

/-- The last segment, if it names something. -/
def fileName? (path : String) : Option String :=
  match (trimmed path).getLast? with
  | some s => if isVoid s || s == ".." then none else some s
  | none => none

/-- The parts of a file name before and after its last dot. A dot at the beginning of the name
separates nothing. -/
def splitName (name : String) : String × Option String :=
  let reversed := name.toList.reverse
  let after := reversed.takeWhile (· != '.')
  match reversed.dropWhile (· != '.') with
  | [] => (name, none)
  | [_] => (name, none)
  | _ :: before => (String.ofList before.reverse, some (String.ofList after.reverse))

/-- The name of a file without its extension. -/
def stem? (path : String) : Option String := (fileName? path).map fun n => (splitName n).1

def extension? (path : String) : Option String := (fileName? path).bind fun n => (splitName n).2

/-- What stands before the last segment; nothing but a root has no parent. -/
def parent? (path : String) : Option String :=
  match trimmed path with
  | [] => none
  | [first] => if first == "" then none else some ""
  | first :: rest =>
    match first :: (rest.dropLast.reverse.dropWhile isVoid).reverse with
    | [""] => some "/"
    | kept => some (String.intercalate "/" kept)

/-- A path that is read from a directory. -/
def join (dir path : String) : String :=
  if isAbsolute path || dir == "" then path
  else if dir.toList.getLast? == some '/' then dir ++ path
  else dir ++ "/" ++ path

end GrammarEngine.Path

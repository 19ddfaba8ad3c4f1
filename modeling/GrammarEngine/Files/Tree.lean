import GrammarEngine.Files.System

/-!
# Trees of files

A tree of files as a value: every file and every directory below the root under the segments that
lead to it. Paths are resolved from the root one segment at a time, and every segment but the last
must lead to a directory; there is nothing outside the tree.
-/
namespace GrammarEngine

/-- Files have contents, directories have none. The root itself is not listed. -/
structure FileTree where
  entries : List (List String × Option (List UInt8)) := []
deriving Repr, DecidableEq, Inhabited

namespace FileTree

inductive Node where
  | directory
  | file (contents : List UInt8)
deriving Repr, DecidableEq

/-- What stands at a place. -/
def node? (t : FileTree) (place : List String) : Option Node :=
  if place.isEmpty then some .directory
  else (t.entries.lookup place).map fun
    | none => .directory
    | some contents => .file contents

/-- Fail unless a place is a directory. -/
def requireDirectory (t : FileTree) (place : List String) : Except FileFault Unit :=
  match t.node? place with
  | some .directory => .ok ()
  | some (.file _) => .error .notDirectory
  | none => .error .notFound

/-- The place that segments lead to from a place. -/
def follow (t : FileTree) : List String → List String → Except FileFault (List String)
  | place, [] => .ok place
  | place, s :: rest => do
    t.requireDirectory place
    if Path.isVoid s then follow t place rest
    else if s == ".." then
      if place.isEmpty then throw .notFound else follow t place.dropLast rest
    else follow t (place ++ [s]) rest

def place (t : FileTree) (path : String) : Except FileFault (List String) :=
  if path == "" || Path.isAbsolute path then .error .notFound
  else t.follow [] (Path.segments path)

def read (t : FileTree) (path : String) : Except FileFault (List UInt8) := do
  match t.node? (← t.place path) with
  | some (.file contents) => return contents
  | some .directory => throw .isDirectory
  | none => throw .notFound

/-- Put something at a place, instead of what is there. -/
def set (t : FileTree) (place : List String) (contents : Option (List UInt8)) : FileTree :=
  if t.entries.any fun e => e.1 == place then
    ⟨t.entries.map fun e => if e.1 == place then (place, contents) else e⟩
  else ⟨t.entries ++ [(place, contents)]⟩

/-- Write a file in a directory that exists. -/
def write (t : FileTree) (path : String) (contents : List UInt8) : Except FileFault FileTree := do
  let place ← t.place path
  if t.node? place = some .directory then throw .isDirectory
  return t.set place (some contents)

/-- Create the directories that segments lead through. -/
def makeDirectories (t : FileTree) : List String → List String → Except FileFault FileTree
  | _, [] => .ok t
  | place, s :: rest =>
    if Path.isVoid s then makeDirectories t place rest
    else if s == ".." then makeDirectories t place.dropLast rest
    else
      let next := place ++ [s]
      match t.node? next with
      | some .directory => makeDirectories t next rest
      | some (.file _) => .error (if rest.all Path.isVoid then .alreadyExists else .notDirectory)
      | none => makeDirectories (t.set next none) next rest

def createDirectories (t : FileTree) (path : String) : Except FileFault FileTree :=
  if Path.isAbsolute path then .error .permissionDenied
  else t.makeDirectories [] (Path.segments path)

def nodeAt? (t : FileTree) (path : String) : Option Node :=
  match t.place path with
  | .ok place => t.node? place
  | .error _ => none

def isPresent (t : FileTree) (path : String) : Bool := (t.nodeAt? path).isSome

def isDirectory (t : FileTree) (path : String) : Bool := t.nodeAt? path == some .directory

/-- What follows a place on the way to another one. -/
def below? (place other : List String) : Option (List String) := place.isPrefixOf? other

/-- The paths of the files at a path and below it, sorted by their segments. -/
def filesBelow (t : FileTree) (path : String) : Except FileFault (List String) := do
  let place ← t.place path
  match t.node? place with
  | none => throw .notFound
  | some (.file _) => return [path]
  | some .directory =>
    let found := t.entries.filterMap fun e => if e.2.isSome then below? place e.1 else none
    return (found.mergeSort Path.leSegments).map fun rest =>
      Path.join path (String.intercalate "/" rest)

/-- Write a file and the directories that lead to it, as far as they can be made. -/
def put (t : FileTree) (path : String) (contents : List UInt8) : FileTree :=
  let t := ((Path.parent? path).bind fun dir => (t.createDirectories dir).toOption).getD t
  (t.write path contents).toOption.getD t

/-- An operation that changes the tree where it succeeds. -/
def change (f : FileTree → Except FileFault FileTree) : StateM FileTree (Except FileFault Unit) :=
  fun t => match f t with
  | .ok t => (.ok (), t)
  | .error e => (.error e, t)

/-- A tree as a system of files, where everything is made at the same time. -/
def system (now : String) : FileSystem (StateM FileTree) where
  read path := return (← get).read path
  write path contents := change fun t => t.write path contents
  createDirectories path := change fun t => t.createDirectories path
  isPresent path := return (← get).isPresent path
  isDirectory path := return (← get).isDirectory path
  filesBelow path := return (← get).filesBelow path
  now := return now

theorem node?_root (t : FileTree) : t.node? [] = some .directory := rfl

end FileTree

end GrammarEngine

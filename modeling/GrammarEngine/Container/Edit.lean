import GrammarEngine.Container.Restore
import GrammarEngine.Json.Path

/-!
# Editing containers

A container can be taken apart, changed entry by entry and packed again. Entries keep their order,
and new ones come last; what is not there is not changed.
-/
namespace GrammarEngine

/-- One change to the entries of a container. -/
inductive ContainerEdit where
  | drop (name : String)
  | replace (name : String) (contents : List UInt8)
  | append (name : String) (contents : List UInt8)
  | add (name : String) (contents : List UInt8)
  | rename (name newName : String)
  | manifest (path : List Json.Step) (value : Option Json)

namespace ContainerEdit

/-- Change the contents of the entries of a name. -/
def revise (name : String) (f : List UInt8 → List UInt8) (entries : List (String × List UInt8)) :
    List (String × List UInt8) :=
  entries.map fun e => if e.1 == name then (e.1, f e.2) else e

/-- Change a document in its stored form, if that can be read. -/
def reviseDocument (path : List Json.Step) (value : Option Json) (contents : List UInt8) :
    List UInt8 :=
  match (Text.ofUtf8? contents).bind Json.readDistinct? with
  | some j => Text.utf8 (Json.changeAt value path j).print
  | none => contents

def apply (entries : List (String × List UInt8)) : ContainerEdit → List (String × List UInt8)
  | drop name => entries.filter fun e => e.1 != name
  | replace name contents => revise name (fun _ => contents) entries
  | append name contents => revise name (fun old => old ++ contents) entries
  | add name contents => entries ++ [(name, contents)]
  | rename name newName => entries.map fun e => if e.1 == name then (newName, e.2) else e
  | manifest path value => revise Container.manifestEntry (reviseDocument path value) entries

end ContainerEdit

namespace PersistedBundle

/-- The entries that can be read. -/
def entries (p : PersistedBundle) : List (String × List UInt8) :=
  match Archive.read p.bytes with
  | .error _ => []
  | .ok a => a.entries.filterMap fun e => e.2.toOption.map fun contents => (e.1, contents)

/-- The container after some changes. -/
def edit (p : PersistedBundle) (edits : List ContainerEdit) : PersistedBundle :=
  if edits.isEmpty then p else ⟨Archive.write (edits.foldl ContainerEdit.apply p.entries)⟩

/-- The container without its last bytes. -/
def truncate (p : PersistedBundle) (n : Nat) : PersistedBundle :=
  ⟨p.bytes.take (p.bytes.length - n)⟩

/-- The summary of a container. -/
def summary? (p : PersistedBundle) : Option String :=
  (p.entries.lookup Container.summaryEntry).bind Text.ofUtf8?

theorem edit_nil (p : PersistedBundle) : p.edit [] = p := rfl

end PersistedBundle

end GrammarEngine

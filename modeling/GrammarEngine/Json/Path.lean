import GrammarEngine.Json.Basic

/-!
# Changing documents

A path leads into a document by the names of members and the indices of items. The value at a path
can be put anew or removed. A path that leads nowhere changes nothing, but its last step may name a
new member or an item behind the end of a list.
-/
namespace GrammarEngine.Json

inductive Step where
  | member (name : String)
  | item (index : Nat)
deriving Repr, DecidableEq

/-- Put the last step of a path, or remove it where there is no value. -/
def putMember (name : String) (value : Option Json) (fields : List (String × Json)) :
    List (String × Json) :=
  match value with
  | none => fields.filter fun f => f.1 != name
  | some v =>
    if fields.any fun f => f.1 == name then
      fields.map fun f => if f.1 == name then (name, v) else f
    else fields ++ [(name, v)]

def putItem (index : Nat) (value : Option Json) (items : List Json) : List Json :=
  match value with
  | none => items.eraseIdx index
  | some v => if index < items.length then items.set index v else items ++ [v]

/-- Put a value at the end of a path into a document, or remove what is there. -/
def changeAt (value : Option Json) : List Step → Json → Json
  | [], j => value.getD j
  | [.member name], .object fields => .object (putMember name value fields)
  | [.item index], .list items => .list (putItem index value items)
  | .member name :: rest, .object fields =>
    .object (fields.map fun f => if f.1 == name then (name, changeAt value rest f.2) else f)
  | .item index :: rest, .list items => .list (items.modify index (changeAt value rest))
  | _, j => j

theorem changeAt_nil (v j : Json) : changeAt (some v) [] j = v := rfl

end GrammarEngine.Json

/-!
# Ropes

A rope is a list that is put together from parts at no cost. What matters of a rope is the list of
its elements.
-/
namespace GrammarEngine

inductive Rope (α : Type) where
  | empty
  | single (a : α)
  | append (front back : Rope α)
deriving Repr

namespace Rope

variable {α : Type}

/-- The elements of a rope before those of a list. -/
def onto : Rope α → List α → List α
  | empty, rest => rest
  | single a, rest => a :: rest
  | append front back, rest => front.onto (back.onto rest)

def toList (r : Rope α) : List α := r.onto []

theorem onto_eq (r : Rope α) (rest : List α) : r.onto rest = r.toList ++ rest := by
  unfold toList
  induction r generalizing rest with
  | empty => rfl
  | single a => rfl
  | append front back hf hb =>
    rw [onto, onto, hb, hf, hf (back.onto []), List.append_assoc]

@[simp] theorem toList_empty : (empty : Rope α).toList = [] := rfl

@[simp] theorem toList_single (a : α) : (single a).toList = [a] := rfl

@[simp] theorem toList_append (front back : Rope α) :
    (append front back).toList = front.toList ++ back.toList := by
  simp [toList, onto, onto_eq front (back.onto [])]

end Rope

end GrammarEngine

/-!
# Places in a text

Messages and tokens name places by line and column. Both follow from the characters before the
place, so the place after a text is a fold over it. Places in the sources of a grammar are counted
in numbers, those in an input text in words of 32 bits.
-/
namespace GrammarEngine

/-- A place in a text: a line counted from one and a column counted from zero. -/
structure Position where
  line : Nat := 1
  column : Nat := 0
deriving Repr, DecidableEq, Inhabited

namespace Position

/-- The place after one more character. -/
def step (p : Position) (c : Char) : Position :=
  if c == '\n' then ⟨p.line + 1, 0⟩ else ⟨p.line, p.column + 1⟩

/-- The place after a text that starts here. -/
def after (p : Position) (cs : List Char) : Position := cs.foldl step p

@[simp] theorem after_nil (p : Position) : p.after [] = p := rfl

@[simp] theorem after_cons (p : Position) (c : Char) (cs : List Char) :
    p.after (c :: cs) = (p.step c).after cs := rfl

theorem after_append (p : Position) (cs ds : List Char) :
    p.after (cs ++ ds) = (p.after cs).after ds := by
  simp [after, List.foldl_append]

end Position

/-- Words are shown as the numbers they hold. -/
instance coeWordNat : Coe UInt32 Nat := ⟨UInt32.toNat⟩

/-- A place in an input text, whose line and column are words. -/
structure InputPosition where
  line : UInt32 := 1
  column : UInt32 := 0
deriving Repr, DecidableEq, Inhabited

namespace InputPosition

/-- The place after one more character. A word that is full comes around. -/
def step (p : InputPosition) (c : Char) : InputPosition :=
  if c == '\n' then ⟨p.line + 1, 0⟩ else ⟨p.line, p.column + 1⟩

/-- The place after a text that starts here. -/
def after (p : InputPosition) (cs : List Char) : InputPosition := cs.foldl step p

@[simp] theorem after_nil (p : InputPosition) : p.after [] = p := rfl

@[simp] theorem after_cons (p : InputPosition) (c : Char) (cs : List Char) :
    p.after (c :: cs) = (p.step c).after cs := rfl

theorem after_append (p : InputPosition) (cs ds : List Char) :
    p.after (cs ++ ds) = (p.after cs).after ds := by
  simp [after, List.foldl_append]

end InputPosition

end GrammarEngine

/-!
# Inner units by name

Bundles consist of a primary unit and inner units, told apart by their names alone. By the usual
schemes a unit is inner to a primary when its name extends the primary's name, by at least one
character after a separator where one is required; any other relation of names can be a scheme too.
-/
namespace GrammarEngine

/-- The separator that an inner name puts after the primary's name, if any is required. -/
structure Classifier where
  separator : Option Char := some '$'
deriving Repr, DecidableEq, Inhabited

namespace Classifier

/-- Names extend the primary's name without a separator. -/
def bare : Classifier := ⟨none⟩

def withSeparator (c : Char) : Classifier := ⟨some c⟩

/-- Whether what follows the primary's name makes a name inner. -/
def admits (k : Classifier) (rest : List Char) : Bool :=
  match k.separator, rest with
  | _, [] => false
  | none, _ :: _ => true
  | some s, c :: more => c == s && !more.isEmpty

def isInner (k : Classifier) (primary candidate : String) : Bool :=
  match primary.toList.isPrefixOf? candidate.toList with
  | some rest => k.admits rest
  | none => false

end Classifier

/-- Any way to tell by its name whether a unit is inner to a primary. A scheme has to agree with the
names that the compiler in use gives. -/
structure NamingScheme where
  isInner : String → String → Bool := Classifier.isInner {}
deriving Inhabited

/-- A classifier as a scheme. -/
instance : Coe Classifier NamingScheme := ⟨fun k => ⟨k.isInner⟩⟩

end GrammarEngine

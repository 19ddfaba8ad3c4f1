import GrammarEngine.Text.Position

/-!
# S-expressions

The values of the unit notation: symbols, strings, integers of sixty-four bits and lists. Every
value carries the line, counted from one, and the column, counted from zero, of its first
character. The views below look into a value without caring for its position.
-/
namespace GrammarEngine

inductive Sexpr where
  | symbol (at_ : Position) (name : String)
  | text (at_ : Position) (content : String)
  | int (at_ : Position) (value : Int)
  | list (at_ : Position) (items : List Sexpr)
deriving Repr, Inhabited

namespace Sexpr

def position : Sexpr → Position
  | symbol p _ | text p _ | int p _ | list p _ => p

def text? : Sexpr → Option String
  | text _ content => some content
  | _ => none

def int? : Sexpr → Option Int
  | int _ value => some value
  | _ => none

/-- The symbol at the start of a list. -/
def head? : Sexpr → Option String
  | list _ (symbol _ name :: _) => some name
  | _ => none

/-- What follows the first item of a list. -/
def args : Sexpr → List Sexpr
  | list _ (_ :: rest) => rest
  | _ => []

end Sexpr

end GrammarEngine

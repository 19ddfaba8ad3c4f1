import GrammarEngine.Notation.Sexpr
import GrammarEngine.Text.Quoted

/-!
# Forms of the unit notation

A form is a value of the unit notation without positions. It is written on one line, with single
spaces between the items of a list.

A unit is written as one list over several lines: after its first items every clause starts a line
of its own, and the lines of a clause that has any are indented once more. Closing parentheses
stay on the last line of what they close.
-/
namespace GrammarEngine

inductive Form where
  | symbol (name : String)
  | text (content : String)
  | int (value : Int)
  | list (items : List Form)
deriving Repr, Inhabited

namespace Form

/-- A list that starts with a symbol. -/
def node (head : String) (args : List Form) : Form := list (symbol head :: args)

def nat (n : Nat) : Form := int n

mutual
/-- The characters of a form on one line. -/
def chars : Form → List Char
  | symbol name => name.toList
  | text content => (Text.quote content).toList
  | int value => (toString value).toList
  | list items => '(' :: itemChars items ++ [')']

def itemChars : List Form → List Char
  | [] => []
  | [f] => chars f
  | f :: g :: rest => chars f ++ ' ' :: itemChars (g :: rest)
end

end Form

mutual
/-- A value without its positions. -/
def Sexpr.form : Sexpr → Form
  | .symbol _ name => .symbol name
  | .text _ content => .text content
  | .int _ value => .int value
  | .list _ items => .list (Sexpr.forms items)

def Sexpr.forms : List Sexpr → List Form
  | [] => []
  | e :: rest => e.form :: Sexpr.forms rest
end

theorem Sexpr.forms_eq_map (ws : List Sexpr) : Sexpr.forms ws = ws.map Sexpr.form := by
  induction ws with
  | nil => rfl
  | cons w ws ih => rw [Sexpr.forms, ih, List.map_cons]

theorem Sexpr.form_list (p : Position) (items : List Sexpr) :
    (Sexpr.list p items).form = .list (items.map Sexpr.form) := by
  rw [Sexpr.form, Sexpr.forms_eq_map]

/-- A clause of a unit: items on one line, and further items on lines of their own. -/
structure Clause where
  first : List Form
  lines : List Form := []
deriving Repr

def Clause.form (c : Clause) : Form := .list (c.first ++ c.lines)

/-- A unit as it is laid out. -/
structure UnitText where
  comment : String
  first : List Form
  clauses : List Clause
deriving Repr

namespace UnitText

def form (u : UnitText) : Form := .list (u.first ++ u.clauses.map Clause.form)

/-- A new line, indented by two spaces for each level. -/
def newLine (level : Nat) : List Char := '\n' :: List.replicate (2 * level) ' '

def clauseChars (c : Clause) : List Char :=
  '(' :: Form.itemChars c.first ++ c.lines.flatMap (fun f => newLine 2 ++ f.chars) ++ [')']

/-- The text of a unit: a comment line and the unit. -/
def chars (u : UnitText) : List Char :=
  [';', ';', ' '] ++ u.comment.toList ++ '\n' :: '(' :: Form.itemChars u.first ++
    u.clauses.flatMap (fun c => newLine 1 ++ clauseChars c) ++ [')', '\n']

def toString (u : UnitText) : String := String.ofList u.chars

end UnitText

end GrammarEngine

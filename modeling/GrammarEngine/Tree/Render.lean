import GrammarEngine.Json.Basic
import GrammarEngine.Tree.Basic

/-!
# Forms of parse trees

Trees are shown in three forms: rules and token texts in parentheses, a graph in the notation of
graph drawing tools, and nested JSON objects. Each form follows the children of nodes; a tree is no
deeper than it has nodes, which bounds the recursion.
-/
namespace GrammarEngine.ParseTree

/-! ## In parentheses -/

/-- A rule with its children in parentheses, a rule without children by its name alone. -/
def renderWithin (t : ParseTree) : Nat → TreeNode → String
  | 0, _ => ""
  | bound + 1, n =>
    match n.kind with
    | .terminal _ _ text _ => text
    | .rule name =>
      if n.children.isEmpty then name
      else
        let parts := (n.children.filterMap t.node?).map (renderWithin t bound)
        "(" ++ name ++ String.join (parts.map (" " ++ ·)) ++ ")"

def render (t : ParseTree) : String := (t.root?.map (t.renderWithin t.size)).getD ""

/-! ## As a graph -/

/-- Quotes and backslashes of a label are escaped, and so are line breaks. -/
def escapeLabelChar (c : Char) : List Char :=
  if c == '\\' then ['\\', '\\']
  else if c == '"' then ['\\', '"']
  else if c == '\n' then ['\\', 'n']
  else [c]

def escapeLabel (s : String) : String := String.ofList (s.toList.flatMap escapeLabelChar)

/-- A rule is an ellipse, a token a box with its symbol above its text. -/
def nodeLine (n : TreeNode) : String :=
  let (label, shape) := match n.kind with
    | .rule name => (name, "ellipse")
    | .terminal _ symbol text _ => (symbol ++ "\n" ++ text, "box")
  s!"  n{n.id} [label=\"" ++ escapeLabel label ++ "\", shape=" ++ shape ++ "];\n"

def edgeLines (n : TreeNode) : String :=
  String.join (n.children.map fun c => s!"  n{n.id} -> n{c};\n")

/-- All nodes, then all edges from parents to children. -/
def toDot (t : ParseTree) : String :=
  "digraph parsetree \x7b\n  node [fontname=\"monospace\"];\n" ++
    String.join (t.preorder.map nodeLine) ++ String.join (t.preorder.map edgeLines) ++ "\x7d\n"

/-! ## As a document -/

/-- Members are in alphabetical order. -/
def jsonWithin (t : ParseTree) : Nat → TreeNode → Json
  | 0, _ => .null
  | bound + 1, n =>
    match n.kind with
    | .rule name =>
      .object [("children", .list ((n.children.filterMap t.node?).map (jsonWithin t bound))),
        ("end", .nat n.stop), ("rule", .text name), ("start", .nat n.start)]
    | .terminal type symbol text position =>
      .object [("column", .nat position.column), ("end", .nat n.stop),
        ("line", .nat position.line), ("start", .nat n.start), ("text", .text text),
        ("token", .text symbol), ("type", .int type.toInt)]

def toJson (t : ParseTree) : Json :=
  match t.root? with
  | some n => t.jsonWithin t.size n
  | none => .null

end GrammarEngine.ParseTree

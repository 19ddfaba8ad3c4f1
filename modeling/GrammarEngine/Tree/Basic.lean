import GrammarEngine.Tree.Event

/-!
# Parse trees

A parse tree is an arena of nodes that know their parents and children by number. The root has the
number zero, and a tree that is built from a walk numbers its nodes in the order of the walk. A
filter decides which rules get nodes of their own; the children of a rule without a node belong to
the nearest rule around it that has one. The root always has a node.
-/
namespace GrammarEngine

inductive NodeKind where
  | rule (name : String)
  | terminal (type : TokenType) (symbol text : String) (position : InputPosition)
deriving Repr, DecidableEq

structure TreeNode where
  id : Nat
  parent : Option Nat
  children : List Nat
  kind : NodeKind
  start : Nat
  stop : Nat
deriving Repr, DecidableEq

namespace TreeNode

def ruleName? (n : TreeNode) : Option String :=
  match n.kind with
  | .rule name => some name
  | .terminal .. => none

def text? (n : TreeNode) : Option String :=
  match n.kind with
  | .rule _ => none
  | .terminal _ _ text _ => some text

def isRule (n : TreeNode) : Bool := n.ruleName?.isSome

def isTerminal (n : TreeNode) : Bool := n.text?.isSome

/-- The name of a rule, the symbol of a token. -/
def label (n : TreeNode) : String :=
  match n.kind with
  | .rule name => name
  | .terminal _ symbol _ _ => symbol

end TreeNode

structure ParseTree where
  nodes : Array TreeNode
deriving Repr, DecidableEq

namespace ParseTree

/-! ## Looking up -/

def node? (t : ParseTree) (id : Nat) : Option TreeNode := t.nodes[id]?

def root? (t : ParseTree) : Option TreeNode := t.node? 0

def size (t : ParseTree) : Nat := t.nodes.size

/-- Whether there is no more than a root. -/
def isDegenerate (t : ParseTree) : Bool := t.size ≤ 1

def children (t : ParseTree) (id : Nat) : List TreeNode :=
  match t.node? id with
  | some n => n.children.filterMap t.node?
  | none => []

def parent? (t : ParseTree) (id : Nat) : Option TreeNode :=
  ((t.node? id).bind TreeNode.parent).bind t.node?

/-- The nodes below those that are pending, parents before children. Every step visits a node, so
the number of nodes is bound enough. -/
def preorderWithin (t : ParseTree) : Nat → List Nat → List TreeNode
  | 0, _ => []
  | _ + 1, [] => []
  | bound + 1, id :: pending =>
    match t.node? id with
    | none => []
    | some n => n :: preorderWithin t bound (n.children ++ pending)

/-- A node and all nodes below it, parents before children. -/
def preorderFrom (t : ParseTree) (id : Nat) : List TreeNode := t.preorderWithin t.size [id]

/-- All nodes, parents before children. -/
def preorder (t : ParseTree) : List TreeNode := t.preorderFrom 0

def findByRule (t : ParseTree) (rule : String) : List TreeNode :=
  t.preorder.filter fun n => n.ruleName? == some rule

/-- The terminal nodes in the order of the input. -/
def terminals (t : ParseTree) : List TreeNode := t.preorder.filter TreeNode.isTerminal

/-! ## Subtrees -/

/-- The place of a node in a list of nodes. -/
def place? (nodes : List TreeNode) (id : Nat) : Option Nat := nodes.findIdx? fun n => n.id == id

/-- A node under the numbers that the nodes of a list have by their places. -/
def renumber (nodes : List TreeNode) (root : Nat) (n : TreeNode) (id : Nat) : TreeNode :=
  { n with
    id := id
    parent := if n.id == root then none else n.parent.bind (place? nodes)
    children := n.children.filterMap (place? nodes) }

/-- The tree of a node and everything below it, numbered from zero. -/
def subtree? (t : ParseTree) (id : Nat) : Option ParseTree :=
  if (t.node? id).isSome then
    let nodes := t.preorderFrom id
    some ⟨(nodes.mapIdx fun i n => renumber nodes id n i).toArray⟩
  else none

end ParseTree

/-! ## Building -/

/-- A tree under construction: its nodes, and for each rule that has been entered its node, where it
has one, innermost first. -/
structure TreeBuilder where
  nodes : Array TreeNode := #[]
  entered : List (Option Nat) := []
deriving Repr

namespace TreeBuilder

/-- The node to which the next one belongs. -/
def current? (b : TreeBuilder) : Option Nat := b.entered.findSome? id

/-- Append a node to those of its parent. -/
def push (b : TreeBuilder) (kind : NodeKind) (start stop : Nat) : TreeBuilder :=
  let id := b.nodes.size
  let parent := b.current?
  let nodes := match parent with
    | some p => b.nodes.modify p fun n => { n with children := n.children ++ [id] }
    | none => b.nodes
  { b with nodes := nodes.push ⟨id, parent, [], kind, start, stop⟩ }

def enter (keeps : String → Bool) (b : TreeBuilder) (v : RuleVisit) : TreeBuilder :=
  if b.entered.isEmpty || keeps v.name then
    let next := b.push (.rule v.name) v.start v.stop
    { next with entered := some b.nodes.size :: b.entered }
  else { b with entered := none :: b.entered }

def step (keeps : String → Bool) (b : TreeBuilder) : TreeEvent → TreeBuilder
  | .enter v => b.enter keeps v
  | .exit _ => { b with entered := b.entered.tail }
  | .terminal t symbol =>
    b.push (.terminal t.type symbol t.text t.position) t.start t.stop

end TreeBuilder

namespace ParseTree

/-- The tree of a walk. -/
def ofEvents (keeps : String → Bool) (events : List TreeEvent) : ParseTree :=
  ⟨(events.foldl (TreeBuilder.step keeps) {}).nodes⟩

/-- The tree of a result with nodes for the rules that a filter keeps. -/
def ofResult? (keeps : String → Bool) (r : ParseResult) : Option ParseTree :=
  if r.root.isSome then some (ofEvents keeps r.events) else none

end ParseTree

/-- Builds a tree from every result that it is shown, and holds the last one. -/
structure TreeListener where
  keeps : String → Bool := fun _ => true
  tree : Option ParseTree := none

namespace TreeListener

def reset (l : TreeListener) : TreeListener := { l with tree := none }

/-- The listener after a walk; a result without a root leaves no tree. -/
def hear (l : TreeListener) (r : ParseResult) : TreeListener :=
  { l with tree := ParseTree.ofResult? l.keeps r }

end TreeListener

end GrammarEngine

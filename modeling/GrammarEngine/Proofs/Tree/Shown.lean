import GrammarEngine.Tree.Render

/-!
# What parse trees show

The tree of a result as it is meant to be shown, apart from any arena: rules with their names and
spans, and tokens. A filter replaces the rules that it does not keep by what stands below them. Laid
out, such a tree is a list of nodes in which parents stand before their children and every node
stands at the place that its number says.
-/
namespace GrammarEngine

/-- A rule with its span and what stands below it, or a token with the name of its type. -/
inductive ShownTree where
  | rule (name : String) (start stop : Nat) (children : List ShownTree)
  | terminal (token : Token) (symbol : String)

namespace ParseResult

mutual
/-- A part of a result as it is shown. A leaf that refers to no token is not shown. -/
def shown (r : ParseResult) : SyntaxTree → List ShownTree
  | .token index =>
    match r.tokens[index]? with
    | some t => [.terminal t (r.symbol t)]
    | none => []
  | .rule index start stop children =>
    let v := r.visit index start stop children
    [.rule v.name v.start v.stop (shownAll r children)]

def shownAll (r : ParseResult) : List SyntaxTree → List ShownTree
  | [] => []
  | t :: rest => shown r t ++ shownAll r rest
end

/-- A rule of a result with everything below it. -/
def shownRule (r : ParseResult) (index start : Nat) (stop : Option Nat)
    (children : List SyntaxTree) : ShownTree :=
  let v := r.visit index start stop children
  .rule v.name v.start v.stop (r.shownAll children)

end ParseResult

namespace SyntaxTree

mutual
/-- The places of the tokens at the leaves of a tree. -/
def leaves : SyntaxTree → List Nat
  | .token index => [index]
  | .rule _ _ _ children => leavesAll children

def leavesAll : List SyntaxTree → List Nat
  | [] => []
  | t :: rest => leaves t ++ leavesAll rest
end

mutual
/-- The numbers of the rules in a tree. -/
def rules : SyntaxTree → List Nat
  | .token _ => []
  | .rule index _ _ children => index :: rulesAll children

def rulesAll : List SyntaxTree → List Nat
  | [] => []
  | t :: rest => rules t ++ rulesAll rest
end

end SyntaxTree

namespace ShownTree

variable {keeps : String → Bool} {parent : Option Nat} {id next : Nat}

/-! ## Filters -/

mutual
/-- What a filter leaves of a tree below another one: a rule that is not kept gives way to what is
left below it. -/
def kept (keeps : String → Bool) : ShownTree → List ShownTree
  | .terminal t symbol => [.terminal t symbol]
  | .rule name start stop children =>
    if keeps name then [.rule name start stop (keptAll keeps children)] else keptAll keeps children

def keptAll (keeps : String → Bool) : List ShownTree → List ShownTree
  | [] => []
  | t :: rest => kept keeps t ++ keptAll keeps rest
end

/-- A whole tree under a filter; its root stays. -/
def filtered (keeps : String → Bool) : ShownTree → ShownTree
  | .terminal t symbol => .terminal t symbol
  | .rule name start stop children => .rule name start stop (keptAll keeps children)

theorem keptAll_append (ts us : List ShownTree) :
    keptAll keeps (ts ++ us) = keptAll keeps ts ++ keptAll keeps us := by
  induction ts with
  | nil => rfl
  | cons t rest ih => simp [keptAll, ih]

mutual
theorem kept_of_forall (hkeeps : ∀ name, keeps name = true) : ∀ t, kept keeps t = [t]
  | .terminal _ _ => rfl
  | .rule _ _ _ children => by simp [kept, hkeeps, keptAll_of_forall hkeeps children]

theorem keptAll_of_forall (hkeeps : ∀ name, keeps name = true) : ∀ ts, keptAll keeps ts = ts
  | [] => rfl
  | t :: rest => by simp [keptAll, kept_of_forall hkeeps t, keptAll_of_forall hkeeps rest]
end

/-- A filter that keeps every rule changes nothing. -/
theorem filtered_of_forall (hkeeps : ∀ name, keeps name = true) (t : ShownTree) :
    t.filtered keeps = t := by
  cases t with
  | terminal => rfl
  | rule => simp [filtered, keptAll_of_forall hkeeps]

/-! ## Layout -/

mutual
def size : ShownTree → Nat
  | .terminal .. => 1
  | .rule _ _ _ children => sizeAll children + 1

def sizeAll : List ShownTree → Nat
  | [] => 0
  | t :: rest => size t + sizeAll rest
end

/-- The numbers of the roots of trees that are laid out one behind the other. -/
def rootIds (next : Nat) : List ShownTree → List Nat
  | [] => []
  | t :: rest => next :: rootIds (next + size t) rest

mutual
/-- The nodes of a tree whose root has the given parent and number: the root, then the nodes of the
children, one child after the other. -/
def layout (parent : Option Nat) (id : Nat) : ShownTree → List TreeNode
  | .terminal t symbol =>
    [⟨id, parent, [], .terminal t.type symbol t.text t.position, t.start, t.stop⟩]
  | .rule name start stop children =>
    ⟨id, parent, rootIds (id + 1) children, .rule name, start, stop⟩ ::
      layoutAll (some id) (id + 1) children

def layoutAll (parent : Option Nat) (next : Nat) : List ShownTree → List TreeNode
  | [] => []
  | t :: rest => layout parent next t ++ layoutAll parent (next + size t) rest
end

@[simp]
theorem size_pos (t : ShownTree) : 0 < t.size := by
  cases t <;> simp [size]

theorem rootIds_append (ts us : List ShownTree) (next : Nat) :
    rootIds next (ts ++ us) = rootIds next ts ++ rootIds (next + sizeAll ts) us := by
  induction ts generalizing next with
  | nil => simp [rootIds, sizeAll]
  | cons t rest ih => simp [rootIds, sizeAll, ih, Nat.add_assoc]

theorem layoutAll_append (ts us : List ShownTree) (next : Nat) :
    layoutAll parent next (ts ++ us) =
      layoutAll parent next ts ++ layoutAll parent (next + sizeAll ts) us := by
  induction ts generalizing next with
  | nil => simp [layoutAll, sizeAll]
  | cons t rest ih => simp [layoutAll, sizeAll, ih, Nat.add_assoc]

mutual
/-- Numbers count the nodes from that of the root. -/
theorem map_id_layout (parent : Option Nat) (id : Nat) :
    ∀ t, (layout parent id t).map TreeNode.id = List.range' id (size t)
  | .terminal _ _ => rfl
  | .rule _ _ _ children => by
    simp [layout, size, List.range'_succ, map_id_layoutAll (some id) (id + 1) children]

theorem map_id_layoutAll (parent : Option Nat) (next : Nat) :
    ∀ ts, (layoutAll parent next ts).map TreeNode.id = List.range' next (sizeAll ts)
  | [] => rfl
  | t :: rest => by
    simp only [layoutAll, sizeAll, List.map_append, map_id_layout parent next t,
      map_id_layoutAll parent (next + size t) rest, List.range'_append_1]
end

/-- The place of a node tells its number. -/
theorem id_of_getElem?_layout {t : ShownTree} {k : Nat} {n : TreeNode}
    (h : (layout parent id t)[k]? = some n) : n.id = id + k := by
  have hid : ((layout parent id t).map TreeNode.id)[k]? = some n.id := by simp [h]
  rw [map_id_layout, List.getElem?_eq_some_iff] at hid
  simpa using hid.2.symm

@[simp]
theorem length_layout (t : ShownTree) : (layout parent id t).length = size t := by
  simpa using congrArg List.length (map_id_layout parent id t)

@[simp]
theorem length_layoutAll (ts : List ShownTree) :
    (layoutAll parent next ts).length = sizeAll ts := by
  simpa using congrArg List.length (map_id_layoutAll parent next ts)

/-- The root of a tree as it stands in a layout. -/
def rootNode (parent : Option Nat) (id : Nat) : ShownTree → TreeNode
  | .terminal t symbol =>
    ⟨id, parent, [], .terminal t.type symbol t.text t.position, t.start, t.stop⟩
  | .rule name start stop children =>
    ⟨id, parent, rootIds (id + 1) children, .rule name, start, stop⟩

theorem exists_layout_eq_cons (parent : Option Nat) (id : Nat) (t : ShownTree) :
    ∃ below, layout parent id t = t.rootNode parent id :: below := by
  cases t <;> exact ⟨_, rfl⟩

@[simp]
theorem rootNode_id (t : ShownTree) : (t.rootNode parent id).id = id := by
  cases t <;> rfl

@[simp]
theorem rootNode_parent (t : ShownTree) : (t.rootNode parent id).parent = parent := by
  cases t <;> rfl

/-! ## Parents and children in a layout -/

/-- The roots of a row of trees are numbered from left to right. -/
theorem pairwise_rootIds (ts : List ShownTree) (next : Nat) :
    (∀ i ∈ rootIds next ts, next ≤ i) ∧ (rootIds next ts).Pairwise (· < ·) := by
  induction ts generalizing next with
  | nil => simp [rootIds]
  | cons t rest ih =>
      obtain ⟨hle, hpairwise⟩ := ih (next + t.size)
      have hpos := t.size_pos
      simp only [rootIds, List.mem_cons, List.pairwise_cons, forall_eq_or_imp]
      exact ⟨⟨Nat.le_refl _, fun i hi => Nat.le_trans (Nat.le_add_right ..) (hle i hi)⟩,
        fun i hi => Nat.lt_of_lt_of_le (by omega) (hle i hi), hpairwise⟩

/-- What is numbered among the roots of a row stands in the row, with the parent of the row. -/
theorem exists_of_mem_rootIds (parent : Option Nat) {ts : List ShownTree} {c : Nat}
    (hc : c ∈ rootIds next ts) :
    ∃ m ∈ layoutAll parent next ts, m.id = c ∧ m.parent = parent := by
  induction ts generalizing next with
  | nil => simp [rootIds] at hc
  | cons t rest ih =>
      obtain rfl | hrest := List.mem_cons.mp hc
      · obtain ⟨below, hlayout⟩ := exists_layout_eq_cons parent c t
        exact ⟨t.rootNode parent c, by simp [layoutAll, hlayout], by simp⟩
      · obtain ⟨m, hm, hid⟩ := ih hrest
        exact ⟨m, by simp [layoutAll, hm], hid⟩

mutual
/-- A child of a node stands in the layout and names the node as its parent. -/
theorem exists_child {n : TreeNode} {c : Nat} (hc : c ∈ n.children) :
    ∀ {parent id} (t : ShownTree), n ∈ layout parent id t →
      ∃ m ∈ layout parent id t, m.id = c ∧ m.parent = some n.id
  | _, _, .terminal _ _, hn => by
    obtain rfl := List.mem_singleton.mp hn
    simp at hc
  | _, id, .rule _ _ _ children, hn => by
    obtain rfl | hbelow := List.mem_cons.mp hn
    · obtain ⟨m, hm, hlink⟩ := exists_of_mem_rootIds (some id) hc
      exact ⟨m, List.mem_cons_of_mem _ hm, hlink⟩
    · obtain ⟨m, hm, hlink⟩ := exists_childAll hc children hbelow
      exact ⟨m, List.mem_cons_of_mem _ hm, hlink⟩

theorem exists_childAll {n : TreeNode} {c : Nat} (hc : c ∈ n.children) :
    ∀ {parent next} (ts : List ShownTree), n ∈ layoutAll parent next ts →
      ∃ m ∈ layoutAll parent next ts, m.id = c ∧ m.parent = some n.id
  | _, _, [], hn => by simp [layoutAll] at hn
  | _, _, t :: rest, hn => by
    obtain hfirst | hrest := List.mem_append.mp hn
    · obtain ⟨m, hm, hlink⟩ := exists_child hc t hfirst
      exact ⟨m, List.mem_append_left _ hm, hlink⟩
    · obtain ⟨m, hm, hlink⟩ := exists_childAll hc rest hrest
      exact ⟨m, List.mem_append_right _ hm, hlink⟩
end

mutual
/-- A node other than the root has a parent in the layout, which names it as its child. -/
theorem exists_parent {m : TreeNode} :
    ∀ {parent id} (t : ShownTree), m ∈ layout parent id t →
      (m.id = id ∧ m.parent = parent) ∨
        ∃ n ∈ layout parent id t, m.parent = some n.id ∧ m.id ∈ n.children
  | _, _, .terminal _ _, hm => by
    obtain rfl := List.mem_singleton.mp hm
    exact .inl ⟨rfl, rfl⟩
  | _, id, .rule _ _ _ children, hm => by
    obtain rfl | hbelow := List.mem_cons.mp hm
    · exact .inl ⟨rfl, rfl⟩
    · obtain ⟨hid, hparent⟩ | ⟨n, hn, hlink⟩ := exists_parentAll children hbelow
      · exact .inr ⟨_, List.mem_cons_self, hparent, hid⟩
      · exact .inr ⟨n, List.mem_cons_of_mem _ hn, hlink⟩

theorem exists_parentAll {m : TreeNode} :
    ∀ {parent next} (ts : List ShownTree), m ∈ layoutAll parent next ts →
      (m.id ∈ rootIds next ts ∧ m.parent = parent) ∨
        ∃ n ∈ layoutAll parent next ts, m.parent = some n.id ∧ m.id ∈ n.children
  | _, _, [], hm => by simp [layoutAll] at hm
  | _, _, t :: rest, hm => by
    obtain hfirst | hrest := List.mem_append.mp hm
    · obtain ⟨rfl, hparent⟩ | ⟨n, hn, hlink⟩ := exists_parent t hfirst
      · exact .inl ⟨List.mem_cons_self, hparent⟩
      · exact .inr ⟨n, List.mem_append_left _ hn, hlink⟩
    · obtain ⟨hid, hparent⟩ | ⟨n, hn, hlink⟩ := exists_parentAll rest hrest
      · exact .inl ⟨List.mem_cons_of_mem _ hid, hparent⟩
      · exact .inr ⟨n, List.mem_append_right _ hn, hlink⟩
end

mutual
/-- The children of every node are numbered from left to right. -/
theorem pairwise_children {n : TreeNode} :
    ∀ {parent id} (t : ShownTree), n ∈ layout parent id t → n.children.Pairwise (· < ·)
  | _, _, .terminal _ _, hn => by
    obtain rfl := List.mem_singleton.mp hn
    exact .nil
  | _, _, .rule _ _ _ children, hn => by
    obtain rfl | hbelow := List.mem_cons.mp hn
    · exact (pairwise_rootIds children _).2
    · exact pairwise_childrenAll children hbelow

theorem pairwise_childrenAll {n : TreeNode} :
    ∀ {parent next} (ts : List ShownTree), n ∈ layoutAll parent next ts →
      n.children.Pairwise (· < ·)
  | _, _, [], hn => by simp [layoutAll] at hn
  | _, _, t :: rest, hn => by
    obtain hfirst | hrest := List.mem_append.mp hn
    · exact pairwise_children t hfirst
    · exact pairwise_childrenAll rest hrest
end

/-! ## Leaves and text -/

mutual
/-- The tokens of a tree with the names of their types. -/
def terminals : ShownTree → List (Token × String)
  | .terminal t symbol => [(t, symbol)]
  | .rule _ _ _ children => terminalsAll children

def terminalsAll : List ShownTree → List (Token × String)
  | [] => []
  | t :: rest => terminals t ++ terminalsAll rest
end

mutual
/-- A rule with its children in parentheses, a rule without children by its name alone. -/
def render : ShownTree → String
  | .terminal t _ => t.text
  | .rule name _ _ children =>
    if children.isEmpty then name else "(" ++ name ++ renderAll children ++ ")"

def renderAll : List ShownTree → String
  | [] => ""
  | t :: rest => " " ++ render t ++ renderAll rest
end

theorem terminalsAll_append (ts us : List ShownTree) :
    terminalsAll (ts ++ us) = terminalsAll ts ++ terminalsAll us := by
  induction ts with
  | nil => rfl
  | cons t rest ih => simp [terminalsAll, ih]

mutual
/-- No filter drops a token. -/
theorem terminalsAll_kept : ∀ t, terminalsAll (kept keeps t) = terminals t
  | .terminal _ _ => rfl
  | .rule name _ _ children => by
    have hbelow := terminalsAll_keptAll children
    cases h : keeps name <;> simp [kept, h, terminals, terminalsAll, hbelow]

theorem terminalsAll_keptAll : ∀ ts, terminalsAll (keptAll keeps ts) = terminalsAll ts
  | [] => rfl
  | t :: rest => by
    simp only [keptAll, terminalsAll_append, terminalsAll_kept t, terminalsAll_keptAll rest,
      terminalsAll]
end

theorem terminals_filtered (t : ShownTree) : (t.filtered keeps).terminals = t.terminals := by
  cases t with
  | terminal => rfl
  | rule _ _ _ children => exact terminalsAll_keptAll children

/-- What the node of a token says of it. -/
def terminalKind (shown : Token × String) : NodeKind × Nat × Nat :=
  (.terminal shown.1.type shown.2 shown.1.text shown.1.position, shown.1.start, shown.1.stop)

mutual
/-- The terminal nodes of a layout are those of its tokens, in their order. -/
theorem filter_isTerminal_layout (parent : Option Nat) (id : Nat) : ∀ t,
    ((layout parent id t).filter TreeNode.isTerminal).map (fun n => (n.kind, n.start, n.stop)) =
      (terminals t).map terminalKind
  | .terminal _ _ => rfl
  | .rule _ _ _ children => by
    simp only [layout, terminals, ← filter_isTerminal_layoutAll (some id) (id + 1) children]
    rfl

theorem filter_isTerminal_layoutAll (parent : Option Nat) (next : Nat) : ∀ ts,
    ((layoutAll parent next ts).filter TreeNode.isTerminal).map
        (fun n => (n.kind, n.start, n.stop)) =
      (terminalsAll ts).map terminalKind
  | [] => rfl
  | t :: rest => by
    simp only [layoutAll, terminalsAll, List.filter_append, List.map_append,
      filter_isTerminal_layout parent next t, filter_isTerminal_layoutAll parent _ rest]
end

end ShownTree

namespace ParseResult

open ShownTree

variable {r : ParseResult}

mutual
/-- The tokens that are shown are those at the leaves. -/
theorem terminalsAll_shown : ∀ t : SyntaxTree,
    terminalsAll (r.shown t) =
      (t.leaves.filterMap (r.tokens[·]?)).map fun t => (t, r.symbol t)
  | .token index => by
    cases h : r.tokens[index]? <;>
      simp [shown, SyntaxTree.leaves, h, terminalsAll, terminals]
  | .rule _ _ _ children => by
    simp [shown, SyntaxTree.leaves, terminalsAll, terminals, terminalsAll_shownAll children]

theorem terminalsAll_shownAll : ∀ ts : List SyntaxTree,
    terminalsAll (r.shownAll ts) =
      ((SyntaxTree.leavesAll ts).filterMap (r.tokens[·]?)).map fun t => (t, r.symbol t)
  | [] => rfl
  | t :: rest => by
    simp only [shownAll, SyntaxTree.leavesAll, terminalsAll_append, List.filterMap_append,
      List.map_append, terminalsAll_shown t, terminalsAll_shownAll rest]
end

mutual
/-- A tree that resolves is shown as one tree with the same text. -/
theorem exists_shown : ∀ t : SyntaxTree, (∀ i ∈ t.leaves, i < r.tokens.size) →
    (∀ i ∈ t.rules, i < r.names.rules.length) →
      ∃ s, r.shown t = [s] ∧ s.render = r.render t
  | .token index, hleaves, _ => by
    have hindex : index < r.tokens.size := hleaves index (by simp [SyntaxTree.leaves])
    simp [shown, ShownTree.render, ParseResult.render, hindex]
  | .rule index start stop children, hleaves, hrules => by
    have hindex : index < r.names.rules.length := hrules index (by simp [SyntaxTree.rules])
    obtain ⟨hlength, htext⟩ := renderAll_shownAll children hleaves fun i hi =>
      hrules i (List.mem_cons_of_mem _ hi)
    have hempty : (r.shownAll children).isEmpty = children.isEmpty := by
      rw [Bool.eq_iff_iff, List.isEmpty_iff_length_eq_zero, List.isEmpty_iff_length_eq_zero,
        hlength]
    refine ⟨r.shownRule index start stop children, rfl, ?_⟩
    simp only [shownRule, ShownTree.render, ParseResult.render, visit, ruleName?, hempty, htext,
      List.getElem?_eq_getElem hindex, Option.getD_some]

theorem renderAll_shownAll : ∀ ts : List SyntaxTree,
    (∀ i ∈ SyntaxTree.leavesAll ts, i < r.tokens.size) →
    (∀ i ∈ SyntaxTree.rulesAll ts, i < r.names.rules.length) →
      (r.shownAll ts).length = ts.length ∧ ShownTree.renderAll (r.shownAll ts) = r.renderAll ts
  | [], _, _ => ⟨rfl, rfl⟩
  | t :: rest, hleaves, hrules => by
    obtain ⟨s, hs, htext⟩ := exists_shown t
      (fun i hi => hleaves i (List.mem_append_left _ hi))
      (fun i hi => hrules i (List.mem_append_left _ hi))
    obtain ⟨hlength, hrest⟩ := renderAll_shownAll rest
      (fun i hi => hleaves i (List.mem_append_right _ hi))
      (fun i hi => hrules i (List.mem_append_right _ hi))
    simp [shownAll, hs, hlength, ShownTree.renderAll, ParseResult.renderAll, htext, hrest]
end

end ParseResult

end GrammarEngine

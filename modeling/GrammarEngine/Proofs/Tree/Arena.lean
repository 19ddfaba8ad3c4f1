import GrammarEngine.Proofs.Tree.Shown

/-!
# The tree that a listener builds

A tree under construction gains, from the events of a part of a result, the layout of what the
filter leaves of the part, below the innermost rule that has a node. Rules without nodes leave their
mark among the entered ones while they last, and nothing else. So a listener that hears a result
holds the layout of what the result shows.

Such a tree can be read by following its numbers: the traversal meets all nodes in their order,
parents and children agree, and the text is that of the shown tree.
-/
namespace GrammarEngine

/-! ## Building -/

namespace TreeBuilder

open ShownTree

variable {keeps : String → Bool} {b : TreeBuilder}

/-- The nodes after one of them, if any, has got children. -/
def attach (nodes : Array TreeNode) (parent : Option Nat) (ids : List Nat) : Array TreeNode :=
  match parent with
  | some p => nodes.modify p fun n => { n with children := n.children ++ ids }
  | none => nodes

@[simp]
theorem attach_nil (nodes : Array TreeNode) (parent : Option Nat) :
    attach nodes parent [] = nodes := by
  cases parent with
  | none => rfl
  | some p =>
      refine Array.ext (by simp [attach]) fun i hi _ => ?_
      by_cases h : p = i <;> simp [attach, Array.getElem_modify, h]

theorem attach_attach (nodes : Array TreeNode) (parent : Option Nat) (ids more : List Nat) :
    attach (attach nodes parent ids) parent more = attach nodes parent (ids ++ more) := by
  cases parent with
  | none => rfl
  | some p =>
      refine Array.ext (by simp [attach]) fun i hi _ => ?_
      by_cases h : p = i <;> simp [attach, Array.getElem_modify, h]

@[simp]
theorem size_attach (nodes : Array TreeNode) (parent : Option Nat) (ids : List Nat) :
    (attach nodes parent ids).size = nodes.size := by
  cases parent <;> simp [attach]

/-- Nodes that come later are not touched. -/
theorem attach_append {nodes : Array TreeNode} {parent : Option Nat}
    (hparent : ∀ p ∈ parent, p < nodes.size) (more : Array TreeNode) (ids : List Nat) :
    attach (nodes ++ more) parent ids = attach nodes parent ids ++ more := by
  cases parent with
  | none => rfl
  | some p =>
      have hp := hparent p rfl
      refine Array.ext (by simp [attach]) fun i hi _ => ?_
      simp only [attach, Array.getElem_modify, Array.getElem_append, Array.size_modify]
      by_cases h : p = i
      · subst h
        simp [hp]
      · simp [h]

/-- The last node gets its children. -/
theorem attach_push (nodes : Array TreeNode) (n : TreeNode) (ids : List Nat) :
    attach (nodes.push n) (some nodes.size) ids =
      nodes.push { n with children := n.children ++ ids } := by
  refine Array.ext (by simp [attach]) fun i hi _ => ?_
  simp only [attach, Array.getElem_modify, Array.getElem_push]
  by_cases h : i < nodes.size
  · simp [h, Nat.ne_of_gt h]
  · have hlast : nodes.size = i := by
      simp only [attach, Array.size_modify, Array.size_push] at hi
      omega
    simp [hlast]

@[simp]
theorem current?_cons (nodes : Array TreeNode) (p : Nat) (entered : List (Option Nat)) :
    (⟨nodes, some p :: entered⟩ : TreeBuilder).current? = some p := rfl

/-- The node to which the next one belongs is there. -/
def Rooted (b : TreeBuilder) : Prop := ∀ p ∈ b.current?, p < b.nodes.size

/-- A tree under construction with more trees below its innermost rule. -/
def grow (b : TreeBuilder) (ts : List ShownTree) : TreeBuilder :=
  { b with
    nodes := attach b.nodes b.current? (rootIds b.nodes.size ts) ++
      (layoutAll b.current? b.nodes.size ts).toArray }

@[simp]
theorem grow_entered (ts : List ShownTree) : (b.grow ts).entered = b.entered := rfl

@[simp]
theorem grow_current? (ts : List ShownTree) : (b.grow ts).current? = b.current? := rfl

@[simp]
theorem size_grow (ts : List ShownTree) : (b.grow ts).nodes.size = b.nodes.size + sizeAll ts := by
  simp [grow]

theorem Rooted.grow (hb : b.Rooted) (ts : List ShownTree) : (b.grow ts).Rooted := by
  intro p hp
  have := hb p hp
  rw [size_grow]
  omega

@[simp]
theorem grow_nil (b : TreeBuilder) : b.grow [] = b := by
  simp [grow, rootIds, layoutAll]

theorem grow_grow (hb : b.Rooted) (ts us : List ShownTree) :
    (b.grow ts).grow us = b.grow (ts ++ us) := by
  have hplace : ∀ p ∈ b.current?, p < (attach b.nodes b.current? (rootIds b.nodes.size ts)).size :=
    fun p hp => by simpa using hb p hp
  have hlater := attach_append hplace (layoutAll b.current? b.nodes.size ts).toArray
    (rootIds (b.nodes.size + sizeAll ts) us)
  have hsize := size_grow (b := b) ts
  simp only [TreeBuilder.grow, current?] at hlater hsize ⊢
  simp only [hsize, hlater, attach_attach, rootIds_append, layoutAll_append]
  rw [← List.append_toArray, Array.append_assoc]

theorem push_nodes (b : TreeBuilder) (kind : NodeKind) (start stop : Nat) :
    (b.push kind start stop).nodes =
      (attach b.nodes b.current? [b.nodes.size]).push
        ⟨b.nodes.size, b.current?, [], kind, start, stop⟩ := by
  cases h : b.current? <;> simp [push, attach, h]

/-- A token is a tree of one node. -/
theorem step_terminal (b : TreeBuilder) (t : Token) (symbol : String) :
    b.step keeps (.terminal t symbol) = b.grow [.terminal t symbol] := by
  have hnodes := push_nodes b (.terminal t.type symbol t.text t.position) t.start t.stop
  simp only [push] at hnodes
  simp [step, push, grow, rootIds, layoutAll, layout, hnodes]

/-- Entering a rule that has a node appends the node. -/
theorem enter_kept {v : RuleVisit} (hkept : (b.entered.isEmpty || keeps v.name) = true) :
    b.enter keeps v =
      { nodes := (attach b.nodes b.current? [b.nodes.size]).push
          ⟨b.nodes.size, b.current?, [], .rule v.name, v.start, v.stop⟩
        entered := some b.nodes.size :: b.entered } := by
  simp [enter, hkept, ← push_nodes]

/-- A rule that has a node holds what is built between entering and leaving it. -/
theorem exit_enter_kept {v w : RuleVisit}
    (hkept : (b.entered.isEmpty || keeps v.name) = true) (children : List ShownTree) :
    ((b.enter keeps v).grow children).step keeps (.exit w) =
      b.grow [.rule v.name v.start v.stop children] := by
  have hlast := attach_push (attach b.nodes b.current? [b.nodes.size])
    ⟨b.nodes.size, b.current?, [], .rule v.name, v.start, v.stop⟩
    (rootIds (b.nodes.size + 1) children)
  rw [size_attach, List.nil_append] at hlast
  have hnodes : ((b.enter keeps v).grow children).nodes =
      (b.grow [.rule v.name v.start v.stop children]).nodes := by
    simp only [enter_kept hkept, grow, current?_cons, Array.size_push, size_attach, rootIds,
      layoutAll, layout, List.append_nil]
    rw [hlast]
    simp
  simp only [step, hnodes]
  simp [enter_kept hkept, grow]

/-- A rule without a node leaves what is built between to the rule around it. -/
theorem exit_enter_dropped {v w : RuleVisit}
    (hdropped : (b.entered.isEmpty || keeps v.name) = false) (children : List ShownTree) :
    ((b.enter keeps v).grow children).step keeps (.exit w) = b.grow children := by
  simp [step, enter, hdropped, grow, current?]

theorem Rooted.enter (hb : b.Rooted) (v : RuleVisit) : (b.enter keeps v).Rooted := by
  intro p hp
  cases hkept : b.entered.isEmpty || keeps v.name with
  | true =>
      rw [enter_kept hkept] at hp ⊢
      obtain rfl : b.nodes.size = p := by simpa [current?] using hp
      simp
  | false =>
      simp only [TreeBuilder.enter, hkept, Bool.false_eq_true, if_false] at hp ⊢
      exact hb p hp

theorem enter_entered_ne_nil (b : TreeBuilder) (v : RuleVisit) :
    (b.enter keeps v).entered ≠ [] := by
  simp only [enter]
  split <;> simp

variable (keeps) (r : ParseResult)

mutual
/-- The events of a part of a result below a rule build what the filter leaves of the part. -/
theorem foldl_eventsOf : ∀ (t : SyntaxTree) (b : TreeBuilder), b.Rooted → b.entered ≠ [] →
    (r.eventsOf t).foldl (step keeps) b = b.grow (keptAll keeps (r.shown t))
  | .token index, b, _, _ => by
    cases h : r.tokens[index]? with
    | none => simp [ParseResult.eventsOf, ParseResult.terminalEvents, ParseResult.shown, h, keptAll]
    | some t =>
        simp [ParseResult.eventsOf, ParseResult.terminalEvents, ParseResult.shown, h, keptAll, kept,
          step_terminal]
  | .rule index start stop children, b, hb, hentered => by
    have hbelow := foldl_eventsOfAll children
      (b.enter keeps (r.visit index start stop children)) (hb.enter _) (enter_entered_ne_nil b _)
    have hempty : b.entered.isEmpty = false := by simpa using hentered
    simp only [ParseResult.eventsOf, List.foldl_cons, List.foldl_append, List.foldl_nil]
    rw [show b.step keeps (.enter (r.visit index start stop children)) = b.enter keeps _ from rfl,
      hbelow]
    cases hkeeps : keeps (r.visit index start stop children).name with
    | true =>
        rw [exit_enter_kept (by simp [hkeeps])]
        simp [ParseResult.shown, keptAll, kept, hkeeps]
    | false =>
        rw [exit_enter_dropped (by simp [hkeeps, hempty])]
        simp [ParseResult.shown, keptAll, kept, hkeeps]

theorem foldl_eventsOfAll : ∀ (ts : List SyntaxTree) (b : TreeBuilder), b.Rooted → b.entered ≠ [] →
    (r.eventsOfAll ts).foldl (step keeps) b = b.grow (keptAll keeps (r.shownAll ts))
  | [], b, _, _ => by simp [ParseResult.eventsOfAll, ParseResult.shownAll, keptAll]
  | t :: rest, b, hb, hentered => by
    rw [ParseResult.eventsOfAll, List.foldl_append, foldl_eventsOf t b hb hentered,
      foldl_eventsOfAll rest _ (hb.grow _) (by simpa using hentered), grow_grow hb,
      ParseResult.shownAll, keptAll_append]
end

end TreeBuilder

/-- The tree of a result is the layout of what the filter leaves of it. -/
theorem ParseTree.ofResult?_eq (keeps : String → Bool) {r : ParseResult} {index start : Nat}
    {stop : Option Nat} {children : List SyntaxTree}
    (hroot : r.root = some (.rule index start stop children)) :
    ParseTree.ofResult? keeps r =
      some ⟨(((r.shownRule index start stop children).filtered keeps).layout none 0).toArray⟩ := by
  have hbelow := TreeBuilder.foldl_eventsOfAll keeps r children
    (TreeBuilder.enter keeps {} (r.visit index start stop children))
    (TreeBuilder.Rooted.enter (by simp [TreeBuilder.Rooted, TreeBuilder.current?]) _)
    (TreeBuilder.enter_entered_ne_nil _ _)
  have hkept : (({} : TreeBuilder).entered.isEmpty ||
      keeps (r.visit index start stop children).name) = true := rfl
  have hleft := TreeBuilder.exit_enter_kept hkept (w := r.visit index start stop children)
    (ShownTree.keptAll keeps (r.shownAll children))
  simp only [ofResult?, ofEvents, ParseResult.events, hroot, ParseResult.eventsOf,
    Option.isSome_some, if_true, List.foldl_cons, List.foldl_append, List.foldl_nil]
  rw [show TreeBuilder.step keeps {} (.enter (r.visit index start stop children)) =
    TreeBuilder.enter keeps {} _ from rfl, hbelow, hleft]
  simp [TreeBuilder.grow, TreeBuilder.current?, TreeBuilder.attach, ShownTree.layoutAll,
    ParseResult.shownRule, ShownTree.filtered]

/-! ## Reading -/

namespace ParseTree

open ShownTree

variable {t : ParseTree} {parent : Option Nat} {id next bound : Nat}

/-- The nodes of a tree from a place on begin with those of a list. -/
def Holds (t : ParseTree) (place : Nat) (nodes : List TreeNode) : Prop :=
  nodes <+: t.nodes.toList.drop place

theorem Holds.left {xs ys : List TreeNode} (h : t.Holds next (xs ++ ys)) : t.Holds next xs :=
  (List.prefix_append xs ys).trans h

theorem Holds.right {xs ys : List TreeNode} (h : t.Holds next (xs ++ ys)) :
    t.Holds (next + xs.length) ys := by
  obtain ⟨rest, hrest⟩ := h
  refine ⟨rest, ?_⟩
  rw [← List.drop_drop, ← hrest, List.append_assoc, List.drop_left]

theorem Holds.node? {n : TreeNode} {rest : List TreeNode} (h : t.Holds id (n :: rest)) :
    t.node? id = some n := by
  obtain ⟨more, hmore⟩ := h
  rw [ParseTree.node?, ← Array.getElem?_toList, ← List.head?_drop, ← hmore]
  rfl

/-- The root of a layout is the node with its number. -/
theorem Holds.root {s : ShownTree} (h : t.Holds id (layout parent id s)) :
    t.node? id = some (s.rootNode parent id) := by
  obtain ⟨below, hbelow⟩ := exists_layout_eq_cons parent id s
  rw [hbelow] at h
  exact h.node?

/-- A layout of a row is that of its first tree and, behind it, that of the others. -/
theorem Holds.cons {s : ShownTree} {rest : List ShownTree}
    (h : t.Holds next (layoutAll parent next (s :: rest))) :
    t.Holds next (layout parent next s) ∧
      t.Holds (next + s.size) (layoutAll parent (next + s.size) rest) :=
  ⟨h.left, by simpa using h.right⟩

/-- What stands behind a root is the layout of its children. -/
theorem Holds.below {name : String} {start stop : Nat} {children : List ShownTree}
    (h : t.Holds id (layout parent id (.rule name start stop children))) :
    t.Holds (id + 1) (layoutAll (some id) (id + 1) children) := by
  obtain ⟨rest, hrest⟩ := h
  refine ⟨rest, ?_⟩
  rw [← List.drop_drop, ← hrest]
  rfl

mutual
/-- A traversal that comes to a root meets the nodes of its layout. -/
theorem preorderWithin_layout : ∀ (s : ShownTree) {parent : Option Nat} {id : Nat} (bound : Nat)
    (pending : List Nat), t.Holds id (layout parent id s) → s.size ≤ bound →
      t.preorderWithin bound (id :: pending) =
        layout parent id s ++ t.preorderWithin (bound - s.size) pending
  | .terminal _ _, _, _, 0, _, _, hbound => by simp [ShownTree.size] at hbound
  | .terminal _ _, _, _, bound + 1, _, h, _ => by
    simp [preorderWithin, h.root, rootNode, layout, ShownTree.size]
  | .rule _ _ _ children, _, _, 0, _, _, hbound => by simp [ShownTree.size] at hbound
  | .rule _ _ _ children, _, id, bound + 1, pending, h, hbound => by
    have hbelow := preorderWithin_layoutAll children bound pending h.below
      (by simpa [ShownTree.size] using hbound)
    simp [preorderWithin, h.root, rootNode, layout, ShownTree.size, hbelow]

theorem preorderWithin_layoutAll : ∀ (ss : List ShownTree) {parent : Option Nat} {next : Nat}
    (bound : Nat) (pending : List Nat), t.Holds next (layoutAll parent next ss) →
      sizeAll ss ≤ bound →
      t.preorderWithin bound (rootIds next ss ++ pending) =
        layoutAll parent next ss ++ t.preorderWithin (bound - sizeAll ss) pending
  | [], _, _, _, _, _, _ => by simp [rootIds, layoutAll, sizeAll]
  | s :: rest, _, next, bound, pending, h, hbound => by
    simp only [sizeAll] at hbound
    have hrest := preorderWithin_layoutAll rest (bound - s.size) pending h.cons.2 (by omega)
    rw [rootIds, List.cons_append, preorderWithin_layout s bound _ h.cons.1 (by omega), hrest,
      layoutAll, List.append_assoc, sizeAll, Nat.sub_sub]
end

theorem Holds.length_le {nodes : List TreeNode} (h : t.Holds id nodes) : nodes.length ≤ t.size := by
  have hprefix : nodes.length ≤ (t.nodes.toList.drop id).length := List.IsPrefix.length_le h
  have hdrop : (t.nodes.toList.drop id).length ≤ t.nodes.size := by simp
  exact Nat.le_trans hprefix hdrop

/-- From the root of a tree that is laid out somewhere, a traversal meets the tree and nothing
else. -/
theorem Holds.preorderFrom {s : ShownTree} (h : t.Holds id (layout parent id s)) :
    t.preorderFrom id = layout parent id s := by
  have hbound := h.length_le
  rw [length_layout] at hbound
  have hnone : ∀ bound, t.preorderWithin bound [] = [] := fun bound => by cases bound <;> rfl
  rw [ParseTree.preorderFrom, preorderWithin_layout s t.size [] h hbound, hnone, List.append_nil]

mutual
/-- The text below a root is that of the tree that is laid out there. -/
theorem renderWithin_layout : ∀ (s : ShownTree) {parent : Option Nat} {id : Nat} (bound : Nat),
    t.Holds id (layout parent id s) → s.size ≤ bound →
      t.renderWithin bound (s.rootNode parent id) = s.render
  | .terminal _ _, _, _, 0, _, hbound => by simp [ShownTree.size] at hbound
  | .terminal _ _, _, _, _ + 1, _, _ => rfl
  | .rule _ _ _ children, _, _, 0, _, hbound => by simp [ShownTree.size] at hbound
  | .rule name _ _ children, _, id, bound + 1, h, hbound => by
    have hbelow := join_renderWithin_layoutAll children bound h.below
      (by simpa [ShownTree.size] using hbound)
    have hempty : (rootIds (id + 1) children).isEmpty = children.isEmpty := by
      cases children <;> rfl
    simp only [renderWithin, rootNode, hempty, hbelow, ShownTree.render]

theorem join_renderWithin_layoutAll : ∀ (ss : List ShownTree) {parent : Option Nat}
    {next : Nat} (bound : Nat), t.Holds next (layoutAll parent next ss) → sizeAll ss ≤ bound →
      String.join ((((rootIds next ss).filterMap t.node?).map (t.renderWithin bound)).map
        (" " ++ ·)) = ShownTree.renderAll ss
  | [], _, _, _, _, _ => rfl
  | s :: rest, _, next, bound, h, hbound => by
    simp only [sizeAll] at hbound
    have hfirst := renderWithin_layout s bound h.cons.1 (by omega)
    have hrest := join_renderWithin_layoutAll rest bound h.cons.2 (by omega)
    rw [rootIds, List.filterMap_cons_some h.cons.1.root, List.map_cons, List.map_cons, hfirst,
      String.join_cons, hrest, ShownTree.renderAll]
end

/-- A tree of nodes is a picture of a shown tree. -/
structure Depicts (t : ParseTree) (s : ShownTree) : Prop where
  /-- The nodes are those of the shown tree, parents before children. -/
  nodes : t.nodes.toList = s.layout none 0
  /-- Numbers are places. -/
  numbered : ∀ i n, t.node? i = some n → n.id = i
  /-- One node has another one as a child exactly if it is the parent of the other one. -/
  linked : ∀ p c, (∃ n, t.node? p = some n ∧ c ∈ n.children) ↔
    ∃ m, t.node? c = some m ∧ m.parent = some p
  /-- Children are numbered from left to right, each of them once. -/
  ordered : ∀ p n, t.node? p = some n → n.children.Pairwise (· < ·)
  /-- A traversal that follows the children meets every node once, in the order of the numbers. -/
  traversed : t.preorder = t.nodes.toList ∧ t.preorder.map TreeNode.id = List.range t.size
  terminals : t.terminals.map (fun n => (n.kind, n.start, n.stop)) = s.terminals.map terminalKind
  rendered : t.render = s.render

section Laid

variable {s : ShownTree} (ht : t.nodes.toList = s.layout none 0)
include ht

theorem size_of_layout : t.size = s.size := by
  rw [ParseTree.size, ← Array.length_toList, ht, length_layout]

theorem node?_eq_of_layout {i : Nat} : t.node? i = (s.layout none 0)[i]? := by
  rw [← ht, Array.getElem?_toList, node?]

theorem holds_of_layout : t.Holds 0 (s.layout none 0) :=
  ⟨[], by rw [List.append_nil, List.drop_zero, ht]⟩

theorem id_of_layout {i : Nat} {n : TreeNode} (hn : t.node? i = some n) : n.id = i := by
  rw [node?_eq_of_layout ht] at hn
  rw [id_of_getElem?_layout hn, Nat.zero_add]

theorem node?_of_mem_layout {n : TreeNode} (hn : n ∈ s.layout none 0) :
    t.node? n.id = some n := by
  obtain ⟨i, hi⟩ := List.mem_iff_getElem?.mp hn
  rw [← node?_eq_of_layout ht] at hi
  rwa [id_of_layout ht hi]

theorem mem_layout_of_node? {i : Nat} {n : TreeNode} (hn : t.node? i = some n) :
    n ∈ s.layout none 0 := by
  rw [node?_eq_of_layout ht] at hn
  exact List.mem_of_getElem? hn

theorem preorder_of_layout : t.preorder = s.layout none 0 :=
  (holds_of_layout ht).preorderFrom

/-- A tree that holds a layout is a picture of what is laid out. -/
theorem depicts_of_layout : t.Depicts s where
  nodes := ht
  numbered _ _ hn := id_of_layout ht hn
  linked p c := by
    constructor
    · rintro ⟨n, hn, hc⟩
      obtain ⟨m, hm, rfl, hparent⟩ := exists_child hc s (mem_layout_of_node? ht hn)
      rw [id_of_layout ht hn] at hparent
      exact ⟨m, node?_of_mem_layout ht hm, hparent⟩
    · rintro ⟨m, hm, hparent⟩
      obtain ⟨-, hnone⟩ | ⟨n, hn, hsome, hchild⟩ := exists_parent s (mem_layout_of_node? ht hm)
      · rw [hnone] at hparent
        cases hparent
      · obtain rfl : n.id = p := Option.some.inj (hsome.symm.trans hparent)
        rw [id_of_layout ht hm] at hchild
        exact ⟨n, node?_of_mem_layout ht hn, hchild⟩
  ordered _ _ hn := pairwise_children s (mem_layout_of_node? ht hn)
  traversed := by
    rw [preorder_of_layout ht, ht, map_id_layout, size_of_layout ht, List.range_eq_range']
    exact ⟨rfl, rfl⟩
  terminals := by rw [ParseTree.terminals, preorder_of_layout ht, filter_isTerminal_layout]
  rendered := by
    rw [ParseTree.render, root?, (holds_of_layout ht).root, Option.map_some, Option.getD_some,
      renderWithin_layout s _ (holds_of_layout ht) (Nat.le_of_eq (size_of_layout ht).symm)]

end Laid

end ParseTree

/-- For every result with a root and every filter, a listener that hears the result holds a picture
of the tree of the result, in which the rules below the root that the filter does not keep have
given way to what stands below them. Its terminal nodes are the tokens at the leaves of the result.
A filter that keeps every rule changes nothing, and then the text of the tree is that of the result,
provided that all leaves and rules of the result refer to tokens and names. -/
theorem TreeListener.hear_depicts (l : TreeListener) {r : ParseResult} {index start : Nat}
    {stop : Option Nat} {children : List SyntaxTree}
    (hroot : r.root = some (.rule index start stop children)) :
    let native := SyntaxTree.rule index start stop children
    let shown := r.shownRule index start stop children
    ∃ t, (l.hear r).tree = some t ∧ t.Depicts (shown.filtered l.keeps) ∧
      t.terminals.map (fun n => (n.kind, n.start, n.stop)) =
        (native.leaves.filterMap (r.tokens[·]?)).map (fun token =>
          (.terminal token.type (r.symbol token) token.text token.position, token.start,
            token.stop)) ∧
      ((∀ name, l.keeps name = true) → shown.filtered l.keeps = shown ∧
        ((∀ i ∈ native.leaves, i < r.tokens.size) →
          (∀ i ∈ native.rules, i < r.names.rules.length) → r.stringTree? = some t.render)) := by
  intro native shown
  have hdepicts := ParseTree.depicts_of_layout
    (t := ⟨((shown.filtered l.keeps).layout none 0).toArray⟩) (s := shown.filtered l.keeps) rfl
  refine ⟨_, ParseTree.ofResult?_eq l.keeps hroot, hdepicts, ?_, fun hkeeps =>
    ⟨ShownTree.filtered_of_forall hkeeps shown, fun hleaves hrules => ?_⟩⟩
  · have hleaves := ParseResult.terminalsAll_shown (r := r) native
    simp only [native, ParseResult.shown, ShownTree.terminalsAll, List.append_nil] at hleaves
    rw [hdepicts.terminals, ShownTree.terminals_filtered,
      show shown.terminals = _ from hleaves, List.map_map]
    rfl
  · obtain ⟨s, hs, htext⟩ := ParseResult.exists_shown native hleaves hrules
    obtain rfl : shown = s := List.singleton_inj.mp hs
    rw [hdepicts.rendered, ShownTree.filtered_of_forall hkeeps, htext, ParseResult.stringTree?,
      hroot, Option.map_some]

/-- Two cells with a comma in between, read by a row in a file. -/
def cellsResult : ParseResult where
  root := some (.rule 0 0 (some 3) [.rule 1 0 (some 2) [.rule 2 0 (some 0) [.token 0], .token 1,
    .rule 2 2 (some 2) [.token 2]], .token 3])
  tokens := #[⟨1, 0, "x", 0, 1, ⟨1, 0⟩, 0⟩, ⟨2, 0, ",", 1, 2, ⟨1, 1⟩, 1⟩,
    ⟨1, 0, "y", 2, 3, ⟨1, 2⟩, 2⟩, ⟨-1, 0, "<EOF>", 3, 3, ⟨1, 3⟩, 3⟩]
  faults := []
  names := ⟨"Cells", "CellsLexer", ["file", "row", "cell"],
    ⟨[⟨1, "LETTER", none⟩, ⟨2, "COMMA", some ","⟩]⟩⟩
  entryRule := "file"

/-- A listener that does not keep rows hangs the cells and the comma below the file. -/
theorem TreeListener.cells_depicted :
    cellsResult.root.isSome ∧
      ∃ t, (TreeListener.hear ⟨fun name => name != "row", none⟩ cellsResult).tree = some t ∧
        t.nodes.toList.map (fun n => (n.id, n.parent, n.children)) =
          [(0, none, [1, 3, 4, 6]), (1, some 0, [2]), (2, some 1, []), (3, some 0, []),
            (4, some 0, [5]), (5, some 4, []), (6, some 0, [])] ∧
        t.render = "(file (cell x) , (cell y) <EOF>)" := by
  refine ⟨rfl, ?_⟩
  obtain ⟨t, ht, hdepicts, -⟩ :=
    hear_depicts ⟨fun name => name != "row", none⟩ (r := cellsResult) rfl
  exact ⟨t, ht, by rw [hdepicts.nodes]; decide, by rw [hdepicts.rendered]; decide⟩

end GrammarEngine

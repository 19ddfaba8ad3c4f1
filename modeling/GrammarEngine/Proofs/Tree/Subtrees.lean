import GrammarEngine.Proofs.Tree.Arena
import Mathlib.Logic.Relation

/-!
# Subtrees

The nodes from one node on begin with the layout of the part of a tree that stands there. Its
subtree is the same layout, numbered from zero, so that numbers change by a fixed offset and all
else is kept. A part of a part is a part of the whole, at the sum of the two places.

A copy that hangs each node below the number that its parent got before is the same subtree. Parents
stand before their children, so that the number is always there.
-/
namespace GrammarEngine

namespace ShownTree

/-! ## Parts of a tree -/

mutual
/-- The part of a tree whose root stands at a place of the layout, counted from the root. -/
def part? : ShownTree → Nat → Option ShownTree
  | .terminal t symbol, 0 => some (.terminal t symbol)
  | .terminal _ _, _ + 1 => none
  | .rule name start stop children, 0 => some (.rule name start stop children)
  | .rule _ _ _ children, place + 1 => partOfAll? children place

def partOfAll? : List ShownTree → Nat → Option ShownTree
  | [], _ => none
  | t :: rest, place =>
    if place < size t then part? t place else partOfAll? rest (place - size t)
end

@[simp]
theorem part?_zero (s : ShownTree) : s.part? 0 = some s := by
  cases s <;> rfl

mutual
theorem exists_part? : ∀ (s : ShownTree) {place : Nat}, place < s.size → ∃ u, s.part? place = some u
  | s, 0, _ => ⟨s, part?_zero s⟩
  | .terminal _ _, place + 1, h => by simp [size] at h
  | .rule _ _ _ children, place + 1, h => exists_partOfAll? children (by simpa [size] using h)

theorem exists_partOfAll? : ∀ (ss : List ShownTree) {place : Nat}, place < sizeAll ss →
    ∃ u, partOfAll? ss place = some u
  | [], _, h => by simp [sizeAll] at h
  | s :: rest, place, h => by
    rw [sizeAll] at h
    rw [partOfAll?]
    split
    · next hplace => exact exists_part? s hplace
    · exact exists_partOfAll? rest (by omega)
end

mutual
theorem add_size_le : ∀ (s : ShownTree) {place : Nat} {u : ShownTree}, s.part? place = some u →
    place + u.size ≤ s.size
  | s, 0, u, h => by
    obtain rfl : s = u := Option.some.inj ((part?_zero s).symm.trans h)
    exact Nat.le_of_eq (Nat.zero_add _)
  | .terminal _ _, place + 1, _, h => by simp [part?] at h
  | .rule _ _ _ children, place + 1, u, h => by
    have hbelow : place + u.size ≤ sizeAll children := add_size_leAll children h
    rw [size]
    omega

theorem add_size_leAll : ∀ (ss : List ShownTree) {place : Nat} {u : ShownTree},
    partOfAll? ss place = some u → place + u.size ≤ sizeAll ss
  | [], _, _, h => by simp [partOfAll?] at h
  | s :: rest, place, u, h => by
    rw [partOfAll?] at h
    rw [sizeAll]
    split at h
    · have hfirst := add_size_le s h
      omega
    · have hrest := add_size_leAll rest h
      omega
end

mutual
/-- A part of a part is a part of the whole. -/
theorem part?_add : ∀ (s : ShownTree) {i j : Nat} {u : ShownTree}, s.part? i = some u → j < u.size →
    s.part? (i + j) = u.part? j
  | s, 0, j, u, h, _ => by
    obtain rfl : s = u := Option.some.inj ((part?_zero s).symm.trans h)
    rw [Nat.zero_add]
  | .terminal _ _, i + 1, _, _, h, _ => by simp [part?] at h
  | .rule _ _ _ children, i + 1, j, u, h, hj => by
    rw [Nat.add_right_comm]
    exact part?_addAll children h hj

theorem part?_addAll : ∀ (ss : List ShownTree) {i j : Nat} {u : ShownTree},
    partOfAll? ss i = some u → j < u.size → partOfAll? ss (i + j) = u.part? j
  | [], _, _, _, h, _ => by simp [partOfAll?] at h
  | s :: rest, i, j, u, h, hj => by
    rw [partOfAll?] at h ⊢
    split at h
    · have hsize := add_size_le s h
      rw [if_pos (by omega)]
      exact part?_add s h hj
    · rw [if_neg (by omega), Nat.sub_add_comm (by omega)]
      exact part?_addAll rest h hj
end

mutual
/-- The layout of a part stands at its place in the layout of the whole. -/
theorem layout_part? : ∀ (s : ShownTree) (parent : Option Nat) (id : Nat) {place : Nat}
    {u : ShownTree}, s.part? place = some u →
      ∃ q, layout q (id + place) u <+: (layout parent id s).drop place
  | s, parent, id, 0, u, h => by
    obtain rfl : s = u := Option.some.inj ((part?_zero s).symm.trans h)
    exact ⟨parent, List.prefix_rfl⟩
  | .terminal _ _, _, _, place + 1, _, h => by simp [part?] at h
  | .rule _ _ _ children, _, id, place + 1, u, h => by
    have hbelow := layout_partOfAll? children (some id) (id + 1) h
    rw [Nat.add_right_comm] at hbelow
    exact hbelow

theorem layout_partOfAll? : ∀ (ss : List ShownTree) (parent : Option Nat) (next : Nat) {place : Nat}
    {u : ShownTree}, partOfAll? ss place = some u →
      ∃ q, layout q (next + place) u <+: (layoutAll parent next ss).drop place
  | [], _, _, _, _, h => by simp [partOfAll?] at h
  | s :: rest, parent, next, place, u, h => by
    rw [partOfAll?] at h
    rw [layoutAll]
    split at h
    · next hplace =>
      obtain ⟨q, hq⟩ := layout_part? s parent next h
      rw [List.drop_append_of_le_length (by simpa using Nat.le_of_lt hplace)]
      exact ⟨q, hq.trans (List.prefix_append _ _)⟩
    · next hplace =>
      obtain ⟨k, rfl⟩ := Nat.exists_eq_add_of_le (Nat.le_of_not_lt hplace)
      obtain ⟨q, hq⟩ := layout_partOfAll? rest parent (next + s.size) h
      rw [Nat.add_sub_cancel_left] at hq
      rw [List.drop_append, length_layout, Nat.add_sub_cancel_left, ← Nat.add_assoc,
        List.drop_eq_nil_of_le (by simp), List.nil_append]
      exact ⟨q, hq⟩
end

/-! ## Places -/

/-- A node of a layout on its own, as it stands behind so many other nodes below a parent. -/
def placed (parent : Option Nat) (offset : Nat) (n : TreeNode) : TreeNode :=
  { n with
    id := n.id + offset
    parent := if n.id = 0 then parent else n.parent.map (· + offset)
    children := n.children.map (· + offset) }

theorem rootIds_add (ts : List ShownTree) (next offset : Nat) :
    rootIds (next + offset) ts = (rootIds next ts).map (· + offset) := by
  induction ts generalizing next with
  | nil => rfl
  | cons t rest ih => rw [rootIds, rootIds, List.map_cons, ← ih, Nat.add_right_comm]

mutual
theorem layout_below (parent : Option Nat) (offset : Nat) : ∀ (s : ShownTree) {p id : Nat}, 0 < id →
    layout (some (p + offset)) (id + offset) s =
      (layout (some p) id s).map (placed parent offset)
  | .terminal _ _, _, _, hid => by simp [layout, placed, Nat.ne_of_gt hid]
  | .rule _ _ _ children, _, id, hid => by
    have hbelow := layoutAll_below parent offset children (p := id) (Nat.succ_pos id)
    simp only [layout, List.map_cons, placed, Nat.ne_of_gt hid, if_false, Option.map_some,
      Nat.add_right_comm id offset 1, rootIds_add, hbelow]

theorem layoutAll_below (parent : Option Nat) (offset : Nat) :
    ∀ (ss : List ShownTree) {p next : Nat}, 0 < next →
      layoutAll (some (p + offset)) (next + offset) ss =
        (layoutAll (some p) next ss).map (placed parent offset)
  | [], _, _, _ => rfl
  | s :: rest, _, next, hnext => by
    rw [layoutAll, layoutAll, List.map_append, layout_below parent offset s hnext,
      Nat.add_right_comm, layoutAll_below parent offset rest (Nat.add_pos_left hnext _)]
end

/-- A layout is the layout from zero on with its numbers moved. -/
theorem layout_eq_map_placed (parent : Option Nat) (id : Nat) (s : ShownTree) :
    layout parent id s = (layout none 0 s).map (placed parent id) := by
  cases s with
  | terminal t symbol => simp [layout, placed]
  | rule name start stop children =>
      have hbelow := layoutAll_below parent id children (p := 0) Nat.one_pos
      have hids := rootIds_add children 1 id
      rw [Nat.zero_add, Nat.add_comm] at hbelow
      rw [Nat.add_comm] at hids
      simp [layout, placed, hbelow, hids]

theorem lt_size_of_mem_layout {s : ShownTree} {n : TreeNode} (h : n ∈ layout none 0 s) :
    n.id < s.size := by
  have hid : n.id ∈ (layout none 0 s).map TreeNode.id := List.mem_map_of_mem h
  rw [map_id_layout, List.mem_range'_1] at hid
  omega

/-- Only the root of a layout from zero on has the number zero. -/
theorem parent_of_root {s : ShownTree} {n : TreeNode} (h : n ∈ layout none 0 s) (hid : n.id = 0) :
    n.parent = none := by
  obtain ⟨k, hk⟩ := List.mem_iff_getElem?.mp h
  obtain ⟨below, hlayout⟩ := exists_layout_eq_cons none 0 s
  obtain rfl : k = 0 := by
    rw [← hid, id_of_getElem?_layout hk, Nat.zero_add]
  rw [hlayout, List.getElem?_cons_zero] at hk
  rw [← Option.some.inj hk, rootNode_parent]

end ShownTree

namespace ParseTree

open ShownTree

variable {t : ParseTree} {s u : ShownTree} {parent : Option Nat} {id next : Nat}

/-! ## Subtrees -/

/-- A part is laid out in the nodes from its place on. -/
theorem exists_holds (ht : t.nodes.toList = s.layout none 0) (hu : s.part? id = some u) :
    ∃ q, t.Holds id (layout q id u) := by
  obtain ⟨q, hq⟩ := layout_part? s none 0 hu
  rw [Nat.zero_add, ← ht] at hq
  exact ⟨q, hq⟩

/-- A node of a layout has the place of its number. -/
theorem place?_layout {c : Nat} (hc : c < u.size) :
    place? (layout parent id u) (c + id) = some c := by
  have hmap : place? (layout parent id u) (c + id) =
      (List.range' id u.size).findIdx? (· == c + id) := by
    rw [← map_id_layout parent id u, List.findIdx?_map]
    rfl
  rw [hmap, List.findIdx?_eq_some_iff_getElem]
  refine ⟨by simpa using hc, ?_, fun j hj => ?_⟩
  · simp [Nat.add_comm]
  · simp only [List.getElem_range', beq_iff_eq]
    omega

theorem filterMap_place?_layout {cs : List Nat} (h : ∀ c ∈ cs, c < u.size) :
    (cs.map (· + id)).filterMap (place? (layout parent id u)) = cs := by
  induction cs with
  | nil => rfl
  | cons c rest ih =>
      obtain ⟨hc, hrest⟩ := List.forall_mem_cons.mp h
      rw [List.map_cons, List.filterMap_cons_some (place?_layout hc), ih hrest]

/-- Renumbered, a node stands as it does in the layout from zero on. -/
theorem renumber_placed {m : TreeNode} (hm : m ∈ layout none 0 u) :
    renumber (layout parent id u) id (placed parent id m) m.id = m := by
  have hchildren : (m.children.map (· + id)).filterMap (place? (layout parent id u)) =
      m.children := by
    refine filterMap_place?_layout fun c hc => ?_
    obtain ⟨n, hn, rfl, -⟩ := exists_child hc u hm
    exact lt_size_of_mem_layout hn
  have hparent : (if (m.id + id == id) = true then none
      else (if m.id = 0 then parent else m.parent.map (· + id)).bind
        (place? (layout parent id u))) = m.parent := by
    by_cases hid : m.id = 0
    · rw [hid, Nat.zero_add, beq_self_eq_true, if_pos rfl, parent_of_root hm hid]
    · have hne : (m.id + id == id) = false := by simpa using hid
      obtain ⟨hzero, -⟩ | ⟨n, hn, hsome, -⟩ := exists_parent u hm
      · exact absurd hzero hid
      · rw [hne, if_neg Bool.false_ne_true, if_neg hid, hsome, Option.map_some, Option.bind_some]
        exact place?_layout (lt_size_of_mem_layout hn)
  exact congrArg₂ (fun parent children => { m with parent, children }) hparent hchildren

/-- The subtree at a place is the layout of the part there. -/
theorem subtree?_of_layout (ht : t.nodes.toList = s.layout none 0) (hu : s.part? id = some u) :
    t.subtree? id = some ⟨(u.layout none 0).toArray⟩ := by
  obtain ⟨q, hholds⟩ := exists_holds ht hu
  have hnodes : ((layout q id u).mapIdx fun i n => renumber (layout q id u) id n i) =
      u.layout none 0 := by
    refine List.ext_getElem? fun k => ?_
    rw [List.getElem?_mapIdx, layout_eq_map_placed q id u, List.getElem?_map,
      ← layout_eq_map_placed q id u]
    cases hk : (u.layout none 0)[k]? with
    | none => rfl
    | some m =>
        have hm : m ∈ u.layout none 0 := List.mem_of_getElem? hk
        have hid : k = m.id := by rw [id_of_getElem?_layout hk, Nat.zero_add]
        rw [Option.map_some, Option.map_some, hid, renumber_placed hm]
  rw [subtree?, hholds.root, Holds.preorderFrom hholds]
  simp [hnodes]

/-! ## What stands below a node -/

/-- From one node to another one, from parents to children. -/
def Below (t : ParseTree) : Nat → Nat → Prop :=
  Relation.ReflTransGen fun p c => ∃ n, t.node? p = some n ∧ c ∈ n.children

/-- The nodes of a list stand at the places behind the first of them. -/
theorem Holds.node?_add {nodes : List TreeNode} {k : Nat} {n : TreeNode} (h : t.Holds id nodes)
    (hk : nodes[k]? = some n) : t.node? (id + k) = some n := by
  obtain ⟨rest, hrest⟩ := h
  have hlt : k < nodes.length := (List.getElem?_eq_some_iff.mp hk).1
  rw [ParseTree.node?, ← Array.getElem?_toList, ← List.getElem?_drop, ← hrest,
    List.getElem?_append_left hlt, hk]

theorem Holds.node?_of_mem {m : TreeNode} (h : t.Holds id (layout parent id u))
    (hm : m ∈ layout parent id u) : t.node? m.id = some m := by
  obtain ⟨k, hk⟩ := List.mem_iff_getElem?.mp hm
  rw [id_of_getElem?_layout hk]
  exact h.node?_add hk

mutual
/-- All nodes of a layout stand below its root. -/
theorem below_of_mem_layout : ∀ (u : ShownTree) {parent : Option Nat} {id : Nat} {m : TreeNode},
    t.Holds id (layout parent id u) → m ∈ layout parent id u → t.Below id m.id
  | .terminal _ _, _, _, _, _, hm => by
    rw [List.mem_singleton.mp hm]
    exact .refl
  | .rule _ _ _ children, _, id, _, h, hm => by
    obtain rfl | hm := List.mem_cons.mp hm
    · exact .refl
    · obtain ⟨c, hc, hbelow⟩ := below_of_mem_layoutAll children h.below hm
      exact .head ⟨_, h.root, hc⟩ hbelow

theorem below_of_mem_layoutAll : ∀ (us : List ShownTree) {parent : Option Nat} {next : Nat}
    {m : TreeNode}, t.Holds next (layoutAll parent next us) → m ∈ layoutAll parent next us →
      ∃ c ∈ rootIds next us, t.Below c m.id
  | [], _, _, _, _, hm => by simp [layoutAll] at hm
  | u :: rest, _, next, _, h, hm => by
    obtain hm | hm := List.mem_append.mp hm
    · exact ⟨next, List.mem_cons_self, below_of_mem_layout u h.cons.1 hm⟩
    · obtain ⟨c, hc, hbelow⟩ := below_of_mem_layoutAll rest h.cons.2 hm
      exact ⟨c, List.mem_cons_of_mem _ hc, hbelow⟩
end

/-- What stands below a node is numbered from the node on, without a gap. -/
theorem below_iff (h : t.Holds id (layout parent id u)) {i : Nat} :
    t.Below id i ↔ i ∈ List.range' id u.size := by
  rw [← map_id_layout parent id u]
  constructor
  · intro hbelow
    induction hbelow with
    | refl =>
        rw [map_id_layout]
        simp
    | tail _ hchild ih =>
        obtain ⟨n, hn, hc⟩ := hchild
        obtain ⟨n', hmem, rfl⟩ := List.mem_map.mp ih
        obtain rfl : n' = n := Option.some.inj ((h.node?_of_mem hmem).symm.trans hn)
        obtain ⟨m, hm, rfl, -⟩ := exists_child hc u hmem
        exact List.mem_map_of_mem hm
  · intro hi
    obtain ⟨m, hm, rfl⟩ := List.mem_map.mp hi
    exact below_of_mem_layout u h hm

/-- A tree copies a node of another one with everything below it. The list tells which numbers the
nodes of the copy have in the other tree. -/
structure Copies (t : ParseTree) (id : Nat) (old : List Nat) (sub : ParseTree) : Prop where
  /-- There is one node for the copied node and one for each that stands below it. -/
  below : ∀ i, i ∈ old ↔ t.Below id i
  distinct : old.Nodup
  size : sub.size = old.length
  /-- Nodes are copied in the order of a traversal, in which the copy numbers them from zero. -/
  ordered : old.Sublist (t.preorder.map TreeNode.id)
  traversed : sub.preorder.map TreeNode.id = List.range old.length
  /-- Each node shows what the copied one shows, has its children and stands below its parent. Only
  the root has none. -/
  copied : ∀ k i, old[k]? = some i → ∃ n m, t.node? i = some n ∧ sub.node? k = some m ∧ m.id = k ∧
    (m.kind = n.kind ∧ m.start = n.start ∧ m.stop = n.stop) ∧
    m.children.map (old[·]?) = n.children.map some ∧
    if k = 0 then m.parent = none
    else ∃ p q, m.parent = some p ∧ n.parent = some q ∧ old[p]? = some q

theorem getElem?_range'_of_lt {k size : Nat} (hk : k < size) :
    (List.range' id size)[k]? = some (id + k) := by
  rw [List.getElem?_range' hk, Nat.one_mul]

/-- The subtree at a place copies the node there. -/
theorem copies_of_layout (ht : t.nodes.toList = s.layout none 0) (hu : s.part? id = some u) :
    t.Copies id (List.range' id u.size) ⟨(u.layout none 0).toArray⟩ := by
  obtain ⟨q, hholds⟩ := exists_holds ht hu
  have hdepicts := depicts_of_layout (t := ⟨(u.layout none 0).toArray⟩) (s := u) rfl
  have hsize : ParseTree.size ⟨(u.layout none 0).toArray⟩ = u.size := size_of_layout rfl
  refine ⟨fun i => (below_iff hholds).symm, List.nodup_range', by rw [hsize, List.length_range'],
    ?_, by rw [hdepicts.traversed.2, hsize, List.length_range'], fun k i hi => ?_⟩
  · rw [(depicts_of_layout ht).traversed.1, ← map_id_layout q id u]
    exact (List.IsPrefix.sublist hholds).map _ |>.trans ((List.drop_sublist id _).map _)
  · obtain ⟨hk, -⟩ := List.getElem?_eq_some_iff.mp hi
    rw [List.length_range'] at hk
    obtain rfl : id + k = i := Option.some.inj ((getElem?_range'_of_lt hk).symm.trans hi)
    obtain ⟨m, hm⟩ : ∃ m, (u.layout none 0)[k]? = some m :=
      ⟨_, List.getElem?_eq_getElem (by rwa [length_layout])⟩
    have hmem : m ∈ u.layout none 0 := List.mem_of_getElem? hm
    have hid : m.id = k := by rw [id_of_getElem?_layout hm, Nat.zero_add]
    have hplaced : (layout q id u)[k]? = some (placed q id m) := by
      rw [layout_eq_map_placed, List.getElem?_map, hm, Option.map_some]
    refine ⟨placed q id m, m, hholds.node?_add hplaced, by simpa [node?] using hm, hid,
      ⟨rfl, rfl, rfl⟩, ?_, ?_⟩
    · simp only [placed, List.map_map]
      refine List.map_congr_left fun c hc => ?_
      obtain ⟨n, hn, rfl, -⟩ := exists_child hc u hmem
      rw [getElem?_range'_of_lt (lt_size_of_mem_layout hn), Nat.add_comm]
      rfl
    · split
      · next hzero => exact parent_of_root hmem (hid.trans hzero)
      · next hzero =>
        obtain ⟨hroot, -⟩ | ⟨n, hn, hparent, -⟩ := exists_parent u hmem
        · exact absurd (hid.symm.trans hroot) hzero
        · refine ⟨n.id, id + n.id, hparent, ?_,
            getElem?_range'_of_lt (lt_size_of_mem_layout hn)⟩
          have hnonzero : ¬m.id = 0 := fun hid' => hzero (hid.symm.trans hid')
          simp only [placed, if_neg hnonzero, hparent, Option.map_some, Nat.add_comm]

end ParseTree

/-! ## Copying in one pass -/

/-- A copy under way: its nodes, and the numbers that nodes have got in it, last first. -/
structure TreeCopy where
  nodes : Array TreeNode := #[]
  numbers : List (Nat × Nat) := []

namespace TreeCopy

open ShownTree TreeBuilder

/-- Copy one more node. It is numbered, and hung below the number that its parent has got, unless
the copy starts with it. -/
def add (root : Nat) (c : TreeCopy) (n : TreeNode) : TreeCopy :=
  let id := c.nodes.size
  let numbers := (n.id, id) :: c.numbers
  let parent := if n.id == root then none else n.parent.bind fun p => numbers.lookup p
  ⟨(attach c.nodes parent [id]).push ⟨id, parent, [], n.kind, n.start, n.stop⟩, numbers⟩

/-- One copy has, in addition to what the other one has, trees below a node. It knows the numbers of
earlier nodes still. -/
structure Hangs (us : List ShownTree) (parent first : Nat) (c c' : TreeCopy) : Prop where
  nodes : c'.nodes = (grow ⟨c.nodes, [some parent]⟩ us).nodes
  numbers : ∀ i < first, c'.numbers.lookup i = c.numbers.lookup i

variable {root : Nat} {c : TreeCopy} {p q id : Nat} {children : List Nat} {kind : NodeKind}
  {start stop : Nat}

/-- A node below one that has been copied. -/
theorem add_below (hroot : root < id) (hp : p < id) (hnumber : c.numbers.lookup p = some q) :
    c.add root ⟨id, some p, children, kind, start, stop⟩ =
      ⟨(attach c.nodes (some q) [c.nodes.size]).push ⟨c.nodes.size, some q, [], kind, start, stop⟩,
        (id, c.nodes.size) :: c.numbers⟩ := by
  have hne : (id == root) = false := by simpa using Nat.ne_of_gt hroot
  have hlookup : ((id, c.nodes.size) :: c.numbers).lookup p = some q := by
    rw [List.lookup_cons, beq_false_of_ne (Nat.ne_of_lt hp), hnumber]
  simp only [add, hne, Bool.false_eq_true, if_false, Option.bind_some, hlookup]

/-- What is hung below the node of a rule completes the rule. -/
theorem grow_rule (nodes : Array TreeNode) (name : String) (us : List ShownTree) :
    (grow ⟨(attach nodes (some q) [nodes.size]).push
        ⟨nodes.size, some q, [], .rule name, start, stop⟩, [some nodes.size]⟩ us).nodes =
      (grow ⟨nodes, [some q]⟩ [.rule name start stop us]).nodes := by
  -- the walk that enters the rule, builds the trees and leaves the rule builds the same
  let keeps : String → Bool := fun _ => true
  let b : TreeBuilder := ⟨nodes, [some q]⟩
  let v : RuleVisit := ⟨name, 0, start, stop, 0, 0⟩
  have hkept : (b.entered.isEmpty || keeps v.name) = true := rfl
  have hleft := congrArg TreeBuilder.nodes (exit_enter_kept (w := v) hkept us)
  simp only [step, enter_kept hkept] at hleft
  exact hleft

mutual
/-- Copying a layout hangs the tree below the number that its parent has got. -/
theorem foldl_add_layout : ∀ (u : ShownTree) {c : TreeCopy} {p q id : Nat}, root < id → p < id →
    c.numbers.lookup p = some q → Hangs [u] q id c ((layout (some p) id u).foldl (add root) c)
  | .terminal t symbol, c, p, q, id, hroot, hp, hnumber => by
    rw [layout, List.foldl_cons, List.foldl_nil, add_below hroot hp hnumber]
    refine ⟨by simp [grow, rootIds, layoutAll, layout], fun i hi => ?_⟩
    rw [List.lookup_cons, beq_false_of_ne (Nat.ne_of_lt hi)]
  | .rule name start stop children, c, p, q, id, hroot, hp, hnumber => by
    rw [layout, List.foldl_cons, add_below hroot hp hnumber]
    obtain ⟨hnodes, hnumbers⟩ := foldl_add_layoutAll children
      (c := ⟨(attach c.nodes (some q) [c.nodes.size]).push
        ⟨c.nodes.size, some q, [], .rule name, start, stop⟩, (id, c.nodes.size) :: c.numbers⟩)
      (p := id) (q := c.nodes.size) (id + 1) (by omega) (by omega) (by simp) (by simp)
    refine ⟨hnodes.trans (grow_rule c.nodes name children), fun i hi => ?_⟩
    rw [hnumbers i (by omega), List.lookup_cons, beq_false_of_ne (Nat.ne_of_lt hi)]

theorem foldl_add_layoutAll : ∀ (us : List ShownTree) {c : TreeCopy} {p q : Nat} (next : Nat),
    root < next → p < next → c.numbers.lookup p = some q → q < c.nodes.size →
      Hangs us q next c ((layoutAll (some p) next us).foldl (add root) c)
  | [], c, _, _, _, _, _, _, _ => ⟨by simp [layoutAll], fun _ _ => rfl⟩
  | u :: rest, c, p, q, next, hroot, hp, hnumber, hq => by
    have hrooted : Rooted ⟨c.nodes, [some q]⟩ := by
      intro i hi
      rw [current?_cons, Option.mem_some_iff] at hi
      rwa [← hi]
    obtain ⟨hnodes, hnumbers⟩ := foldl_add_layout u hroot hp hnumber
    have hnumber' := (hnumbers p hp).trans hnumber
    have hsize : q < ((layout (some p) next u).foldl (add root) c).nodes.size := by
      rw [hnodes, size_grow]
      exact Nat.lt_of_lt_of_le hq (Nat.le_add_right _ _)
    obtain ⟨hnodes', hnumbers'⟩ := foldl_add_layoutAll rest (next + u.size)
      (Nat.lt_add_right _ hroot) (Nat.lt_add_right _ hp) hnumber' hsize
    rw [layoutAll, List.foldl_append]
    refine ⟨?_, fun i hi => (hnumbers' i (Nat.lt_add_right _ hi)).trans (hnumbers i hi)⟩
    rw [hnodes', hnodes]
    exact congrArg TreeBuilder.nodes (grow_grow hrooted [u] rest)
end

end TreeCopy

/-- The copy of a node and everything below it, taken on one traversal. -/
def ParseTree.copy? (t : ParseTree) (id : Nat) : Option ParseTree :=
  if (t.node? id).isSome then some ⟨((t.preorderFrom id).foldl (TreeCopy.add id) {}).nodes⟩
  else none

open ShownTree TreeBuilder in
/-- Copying a layout from its root gives the layout from zero on. -/
theorem TreeCopy.nodes_foldl_layout (parent : Option Nat) (id : Nat) (u : ShownTree) :
    ((layout parent id u).foldl (add id) {}).nodes = (u.layout none 0).toArray := by
  cases u with
  | terminal t symbol => simp [layout, add, attach]
  | rule name start stop children =>
      have hfirst : ({} : TreeCopy).add id
          ⟨id, parent, rootIds (id + 1) children, .rule name, start, stop⟩ =
            ⟨#[⟨0, none, [], .rule name, start, stop⟩], [(id, 0)]⟩ := by
        simp [add, attach]
      have hbelow := foldl_add_layoutAll children
        (c := ⟨#[⟨0, none, [], .rule name, start, stop⟩], [(id, 0)]⟩) (p := id) (q := 0) (id + 1)
        (Nat.lt_succ_self id) (Nat.lt_succ_self id) (by simp) (by simp)
      have hlast := attach_push #[] ⟨0, none, [], .rule name, start, stop⟩ (rootIds 1 children)
      rw [layout, List.foldl_cons, hfirst, hbelow.nodes]
      simp only [grow, current?_cons]
      simp only [List.push_toArray, List.nil_append, List.size_toArray, List.length_nil] at hlast
      simp [hlast, layout]

namespace ParseTree

open ShownTree

variable {t : ParseTree} {s u : ShownTree} {id : Nat}

/-- Copied in one pass, a node has the same subtree. -/
theorem copy?_of_layout (ht : t.nodes.toList = s.layout none 0) (hu : s.part? id = some u) :
    t.copy? id = some ⟨(u.layout none 0).toArray⟩ := by
  obtain ⟨q, hholds⟩ := exists_holds ht hu
  rw [copy?, hholds.root, hholds.preorderFrom, TreeCopy.nodes_foldl_layout]
  rfl

theorem exists_part?_of_node? {n : TreeNode} (ht : t.nodes.toList = s.layout none 0)
    (hn : t.node? id = some n) : ∃ u, s.part? id = some u := by
  rw [node?_eq_of_layout ht] at hn
  have hlt := (List.getElem?_eq_some_iff.mp hn).1
  rw [length_layout] at hlt
  exact exists_part? s hlt

end ParseTree

namespace TreeListener

open ParseTree ShownTree

variable {l : TreeListener} {r : ParseResult} {t : ParseTree} {id : Nat} {n : TreeNode}

/-- A tree that a listener holds is laid out, unless it has no nodes. -/
theorem exists_layout_of_hear (ht : (l.hear r).tree = some t) (hn : t.node? id = some n) :
    ∃ s : ShownTree, t.nodes.toList = s.layout none 0 := by
  have htree : ParseTree.ofResult? l.keeps r = some t := ht
  cases hroot : r.root with
  | none => simp [ParseTree.ofResult?, hroot] at htree
  | some root =>
      cases root with
      | rule index start stop children =>
          rw [ParseTree.ofResult?_eq l.keeps hroot] at htree
          exact ⟨_, by rw [← Option.some.inj htree]⟩
      | token index =>
          have hevents : ParseTree.ofEvents l.keeps (r.terminalEvents index) = t := by
            simpa [ParseTree.ofResult?, ParseResult.events, ParseResult.eventsOf, hroot] using htree
          cases htoken : r.tokens[index]? with
          | none =>
              -- a root that is a token out of the list leaves no nodes
              simp [ParseTree.ofEvents, ParseResult.terminalEvents, htoken] at hevents
              simp [← hevents, ParseTree.node?] at hn
          | some token =>
              refine ⟨.terminal token (r.symbol token), ?_⟩
              simp [← hevents, ParseTree.ofEvents, ParseResult.terminalEvents, htoken,
                TreeBuilder.step_terminal, TreeBuilder.grow, TreeBuilder.current?,
                TreeBuilder.attach, layoutAll]

/-- For every tree that a listener holds after it has heard a result, whatever it keeps, and every
node of the tree: the subtree of the node copies the node and everything below it, is a picture of a
tree, and its text is that of the node. It is what one pass over the nodes copies that looks up the
numbers of parents. The subtree of the root is the tree, and a subtree of a subtree is the subtree
of the copied node. -/
theorem subtree_exact (ht : (l.hear r).tree = some t) (hn : t.node? id = some n) :
    ∃ sub old, t.subtree? id = some sub ∧ t.copy? id = some sub ∧
      t.Copies id old sub ∧ (∃ shown, sub.Depicts shown) ∧
      sub.render = t.renderWithin t.size n ∧ (id = 0 → sub = t) ∧
      ∀ k i, old[k]? = some i → sub.subtree? k = t.subtree? i := by
  obtain ⟨s, hs⟩ := exists_layout_of_hear ht hn
  obtain ⟨u, hu⟩ := exists_part?_of_node? hs hn
  obtain ⟨q, hholds⟩ := exists_holds hs hu
  have hdepicts := depicts_of_layout (t := ⟨(u.layout none 0).toArray⟩) (s := u) rfl
  have hsize : u.size ≤ t.size := by simpa using hholds.length_le
  refine ⟨_, _, subtree?_of_layout hs hu, copy?_of_layout hs hu, copies_of_layout hs hu,
    ⟨u, hdepicts⟩, ?_, fun hid => ?_, fun k i hi => ?_⟩
  · obtain rfl : u.rootNode q id = n := Option.some.inj (hholds.root.symm.trans hn)
    rw [hdepicts.rendered, renderWithin_layout u t.size hholds hsize]
  · subst hid
    obtain rfl : s = u := Option.some.inj ((part?_zero s).symm.trans hu)
    rw [← hs]
  · have hk : k < u.size := by simpa using (List.getElem?_eq_some_iff.mp hi).1
    obtain rfl : id + k = i := Option.some.inj ((getElem?_range'_of_lt hk).symm.trans hi)
    obtain ⟨v, hv⟩ := exists_part? u hk
    rw [subtree?_of_layout rfl hv, subtree?_of_layout hs ((part?_add s hu hk).trans hv)]

/-- Of two cells in a row, the second one has itself and its letter for a subtree. -/
theorem cell_subtree :
    ∃ t sub, (TreeListener.hear ⟨fun name => name != "row", none⟩ cellsResult).tree = some t ∧
      t.subtree? 4 = some sub ∧ sub.nodes.toList.map (fun n => (n.id, n.parent, n.children)) =
        [(0, none, [1]), (1, some 0, [])] ∧ sub.render = "(cell y)" := by
  obtain ⟨t, ht, hnode, hkind⟩ : ∃ t,
      (TreeListener.hear ⟨fun name => name != "row", none⟩ cellsResult).tree = some t ∧
        t.node? 4 = some ⟨4, some 0, [5], .rule "cell", 2, 3⟩ ∧
          t.renderWithin t.size ⟨4, some 0, [5], .rule "cell", 2, 3⟩ = "(cell y)" :=
    ⟨_, rfl, by decide, by decide⟩
  obtain ⟨sub, old, hsub, -, -, -, hrender, -⟩ := subtree_exact ht hnode
  refine ⟨t, sub, ht, hsub, ?_, hrender.trans hkind⟩
  obtain rfl := Option.some.inj ht
  rw [← Option.some.inj hsub]
  decide

end TreeListener

end GrammarEngine

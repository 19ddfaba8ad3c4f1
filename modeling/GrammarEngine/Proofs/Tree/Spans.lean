import GrammarEngine.Proofs.Checked
import GrammarEngine.Proofs.Parser.Operands
import GrammarEngine.Proofs.Tree.Arena
import Mathlib.Data.List.Basic

/-!
# Spans of tree nodes

A rule of a derivation reads the tokens between two places. The span of the rule in the tree of a
result goes from the first to the last of them, and is empty where there are none. A filter drops
rules and no tokens, so that this is kept, and it can be read off the nodes of the tree that a
listener builds.
-/
namespace GrammarEngine

def Token.span (t : Token) : Nat × Nat := (t.start, t.stop)

def TreeNode.span (n : TreeNode) : Nat × Nat := (n.start, n.stop)

/-- A span goes from where the first of its parts starts to where the last one stops. Without parts
it is empty. -/
structure SpanCovers (start stop : Nat) (parts : List (Nat × Nat)) : Prop where
  first : ∀ part, parts.head? = some part → part.1 = start
  last : ∀ part, parts.getLast? = some part → part.2 = stop
  empty : parts = [] → start = stop

/-! ## Shown trees -/

namespace ShownTree

variable {keeps : String → Bool}

/-- The spans of the tokens of trees, in order. -/
def partsAll (ts : List ShownTree) : List (Nat × Nat) := (terminalsAll ts).map fun s => s.1.span

mutual
/-- The span of every rule covers the tokens below it. -/
def Spanned : ShownTree → Prop
  | .terminal _ _ => True
  | .rule _ start stop children => SpanCovers start stop (partsAll children) ∧ SpannedAll children

def SpannedAll : List ShownTree → Prop
  | [] => True
  | t :: rest => Spanned t ∧ SpannedAll rest
end

theorem spannedAll_append {ts us : List ShownTree} :
    SpannedAll (ts ++ us) ↔ SpannedAll ts ∧ SpannedAll us := by
  induction ts with
  | nil => simp [SpannedAll]
  | cons t rest ih => simp only [List.cons_append, SpannedAll, ih, and_assoc]

theorem partsAll_keptAll (ts : List ShownTree) : partsAll (keptAll keeps ts) = partsAll ts := by
  rw [partsAll, terminalsAll_keptAll, partsAll]

mutual
theorem spannedAll_kept : ∀ t, Spanned t → SpannedAll (kept keeps t)
  | .terminal _ _, _ => ⟨trivial, trivial⟩
  | .rule name start stop children, ⟨hcovers, hbelow⟩ => by
    have hkept := spannedAll_keptAll children hbelow
    unfold kept
    split
    · refine ⟨⟨?_, hkept⟩, trivial⟩
      rw [partsAll_keptAll]
      exact hcovers
    · exact hkept

theorem spannedAll_keptAll : ∀ ts, SpannedAll ts → SpannedAll (keptAll keeps ts)
  | [], _ => trivial
  | t :: rest, ⟨hfirst, hrest⟩ =>
    spannedAll_append.mpr ⟨spannedAll_kept t hfirst, spannedAll_keptAll rest hrest⟩
end

/-- No filter changes what spans cover. -/
theorem Spanned.filtered {t : ShownTree} (h : t.Spanned) : (t.filtered keeps).Spanned := by
  cases t with
  | terminal => trivial
  | rule name start stop children =>
      refine ⟨?_, spannedAll_keptAll children h.2⟩
      rw [partsAll_keptAll]
      exact h.1

end ShownTree

/-! ## Nodes -/

namespace ParseTree

open ShownTree

variable {t : ParseTree} {parent : Option Nat} {id next : Nat}

/-- The terminal nodes below a node, in order. -/
def terminalsBelow (t : ParseTree) (id : Nat) : List TreeNode :=
  (t.preorderFrom id).filter TreeNode.isTerminal

/-- The span of every rule node covers the terminal nodes below it. -/
def Spanned (t : ParseTree) : Prop :=
  ∀ i n, t.node? i = some n → n.isRule = true →
    SpanCovers n.start n.stop ((t.terminalsBelow i).map TreeNode.span)

/-- The terminal nodes of a layout have the spans of its tokens. -/
theorem map_span_layout (parent : Option Nat) (id : Nat) (s : ShownTree) :
    ((layout parent id s).filter TreeNode.isTerminal).map TreeNode.span =
      s.terminals.map fun shown => shown.1.span := by
  have h := congrArg (List.map Prod.snd) (filter_isTerminal_layout parent id s)
  rw [List.map_map, List.map_map] at h
  exact h

mutual
theorem covers_of_mem_layout : ∀ (s : ShownTree) {parent : Option Nat} {id : Nat},
    t.Holds id (layout parent id s) → s.Spanned → ∀ n ∈ layout parent id s, n.isRule = true →
      SpanCovers n.start n.stop ((t.terminalsBelow n.id).map TreeNode.span)
  | .terminal _ _, _, _, _, _, n, hn, hrule => by
    obtain rfl := List.mem_singleton.mp hn
    cases hrule
  | .rule name start stop children, parent, id, h, ⟨hcovers, hbelow⟩, n, hn, hrule => by
    rcases List.mem_cons.mp hn with rfl | hn
    · rw [terminalsBelow, h.preorderFrom, map_span_layout]
      exact hcovers
    · exact covers_of_mem_layoutAll children h.below hbelow n hn hrule

theorem covers_of_mem_layoutAll : ∀ (ss : List ShownTree) {parent : Option Nat} {next : Nat},
    t.Holds next (layoutAll parent next ss) → SpannedAll ss → ∀ n ∈ layoutAll parent next ss,
      n.isRule = true → SpanCovers n.start n.stop ((t.terminalsBelow n.id).map TreeNode.span)
  | [], _, _, _, _, n, hn, _ => absurd hn List.not_mem_nil
  | s :: rest, _, _, h, ⟨hfirst, hrest⟩, n, hn, hrule => by
    rcases List.mem_append.mp hn with hn | hn
    · exact covers_of_mem_layout s h.cons.1 hfirst n hn hrule
    · exact covers_of_mem_layoutAll rest h.cons.2 hrest n hn hrule
end

/-- What is laid out of a tree with spans that cover its tokens has such spans. -/
theorem spanned_of_layout {s : ShownTree} (ht : t.nodes.toList = s.layout none 0)
    (hs : s.Spanned) : t.Spanned := by
  intro i n hn hrule
  have hcovers := covers_of_mem_layout s (holds_of_layout ht) hs n (mem_layout_of_node? ht hn) hrule
  rw [id_of_layout ht hn] at hcovers
  exact hcovers

end ParseTree

/-! ## Derivations -/

namespace Parser

variable {bodies : Array RuleBody} {input : Array Token} {phrase : Phrase} {i j : Nat}

/-- Every rule inside a derivation reads the tokens from its start up to its stop, all of which are
there. -/
def Reads (input : Array Token) (d : Derivation) : Prop :=
  ∀ c q stop children, PartOf (.rule c q stop children) d →
    leavesAll children = List.range' c.start (stop - c.start) ∧
      (c.start = stop ∨ stop ≤ input.size)

theorem Spans.reads {ds : List Derivation} (h : Spans bodies input phrase i j ds) {d : Derivation}
    (hd : d ∈ ds) : Reads input d := by
  intro c q stop children hpart
  have hspans := h.part hd hpart
  have hleaves := hspans.leavesAll_eq
  rw [leavesAll, leavesAll, List.append_nil, leaves] at hleaves
  exact ⟨hleaves, hspans.stop_le⟩

theorem Reads.child {c : Invocation} {q : Option UInt32} {stop : Nat} {children : List Derivation}
    (h : Reads input (.rule c q stop children)) : ∀ d ∈ children, Reads input d := by
  intro d hd c' q' stop' children' hpart
  exact h c' q' stop' children' (.child hd hpart)

end Parser

/-! ## Results -/

namespace ParseResult

open GrammarEngine.Parser ShownTree

variable {r : ParseResult} {input : Array Token}

/-- The tokens of an input stand in the result at the places that they name. -/
def Indexes (r : ParseResult) (input : Array Token) : Prop :=
  ∀ t ∈ input.toList, r.tokens[t.index]? = some t

theorem Indexes.getElem? (h : r.Indexes input) {place : Nat} {t : Token}
    (ht : input[place]? = some t) : r.tokens[SyntaxTree.tokenIndex input place]? = some t := by
  have hmem : t ∈ input.toList := Array.mem_toList_iff.mpr (Array.mem_of_getElem? ht)
  rw [SyntaxTree.tokenIndex, ht]
  exact h t hmem

mutual
theorem leaves_ofDerivation : ∀ d : Derivation,
    (SyntaxTree.ofDerivation input d).leaves = (leaves d).map (SyntaxTree.tokenIndex input)
  | .token _ => rfl
  | .rule _ _ _ children => by
    rw [SyntaxTree.ofDerivation, SyntaxTree.leaves, leaves, leavesAll_ofDerivations children]

theorem leavesAll_ofDerivations : ∀ ds : List Derivation,
    SyntaxTree.leavesAll (SyntaxTree.ofDerivations input ds) =
      (leavesAll ds).map (SyntaxTree.tokenIndex input)
  | [] => rfl
  | d :: rest => by
    rw [SyntaxTree.ofDerivations, SyntaxTree.leavesAll, leavesAll, List.map_append,
      leaves_ofDerivation d, leavesAll_ofDerivations rest]
end

/-- The tokens that are shown of a forest are those that it reads. -/
theorem terminalsAll_ofDerivations (h : r.Indexes input) {ds : List Derivation} {start stop : Nat}
    (hleaves : leavesAll ds = List.range' start (stop - start))
    (hstop : start = stop ∨ stop ≤ input.size) :
    terminalsAll (r.shownAll (SyntaxTree.ofDerivations input ds)) =
      ((input.toList.drop start).take (stop - start)).map fun t => (t, r.symbol t) := by
  rw [terminalsAll_shownAll, leavesAll_ofDerivations, hleaves, List.filterMap_map,
    ← filterMap_getElem?_range']
  congr 1
  apply List.filterMap_congr
  intro place hplace
  rw [List.mem_range'_1] at hplace
  have hlt : place < input.size := by omega
  rw [Function.comp_apply, h.getElem? (Array.getElem?_eq_getElem hlt), Array.getElem?_toList,
    Array.getElem?_eq_getElem hlt]

/-- A rule is shown with a span that covers the tokens that it reads. -/
theorem covers_visit (h : r.Indexes input) {start stop : Nat}
    (hstop : start = stop ∨ stop ≤ input.size) (index : Nat) (children : List SyntaxTree) :
    let v := r.visit index (SyntaxTree.startIndex input start)
      (if start < stop then some (SyntaxTree.tokenIndex input (stop - 1)) else none) children
    SpanCovers v.start v.stop (((input.toList.drop start).take (stop - start)).map Token.span) := by
  intro v
  by_cases hread : start < stop
  · have hsize : stop ≤ input.size := by omega
    have hcount : stop - start ≠ 0 := by omega
    have hfirst : input[start]? = some input[start] := Array.getElem?_eq_getElem (by omega)
    have hlast : input[stop - 1]? = some input[stop - 1] := Array.getElem?_eq_getElem (by omega)
    have hstart : v.start = input[start].start := by
      -- a rule that has read a token starts before the end, where places are not clamped
      have hplace : min start (input.size - 1) = start := by omega
      have hindex : SyntaxTree.startIndex input start = SyntaxTree.tokenIndex input start := by
        rw [SyntaxTree.startIndex, hplace, SyntaxTree.tokenIndex]
      simp [v, visit, hindex, h.getElem? hfirst]
    have hend : v.stop = input[stop - 1].stop := by
      simp [v, visit, hread, h.getElem? hlast]
    refine ⟨?_, ?_, ?_⟩
    · intro part hpart
      rw [List.head?_map, List.head?_take, if_neg hcount, List.head?_drop, Array.getElem?_toList,
        hfirst] at hpart
      obtain rfl := Option.some.inj hpart
      exact hstart.symm
    · intro part hpart
      have hplace : start + (stop - start - 1) = stop - 1 := by omega
      rw [List.getLast?_map, List.getLast?_take, if_neg hcount, List.getElem?_drop, hplace,
        Array.getElem?_toList, hlast, Option.some_or] at hpart
      obtain rfl := Option.some.inj hpart
      exact hend.symm
    · intro hnil
      have hlength := congrArg List.length hnil
      simp at hlength
      omega
  · have hnone : stop - start = 0 := by omega
    have hempty : v.start = v.stop := by
      simp [v, visit, hread]
    rw [hnone, List.take_zero, List.map_nil]
    exact ⟨by simp, by simp, fun _ => hempty⟩

mutual
theorem spannedAll_shown (h : r.Indexes input) : ∀ d, Reads input d →
    SpannedAll (r.shown (SyntaxTree.ofDerivation input d))
  | .token place, _ => by
    rw [SyntaxTree.ofDerivation, shown]
    split
    · exact ⟨trivial, trivial⟩
    · trivial
  | .rule call suffix stop children, hreads => by
    obtain ⟨hleaves, hstop⟩ := hreads call suffix stop children (.self _)
    refine ⟨⟨?_, spannedAll_shownAll h children hreads.child⟩, trivial⟩
    rw [partsAll, terminalsAll_ofDerivations h hleaves hstop, List.map_map]
    exact covers_visit h hstop _ _

theorem spannedAll_shownAll (h : r.Indexes input) : ∀ ds, (∀ d ∈ ds, Reads input d) →
    SpannedAll (r.shownAll (SyntaxTree.ofDerivations input ds))
  | [], _ => trivial
  | d :: rest, hreads => by
    obtain ⟨hfirst, hrest⟩ := List.forall_mem_cons.mp hreads
    exact spannedAll_append.mpr ⟨spannedAll_shown h d hfirst, spannedAll_shownAll h rest hrest⟩
end

end ParseResult

end GrammarEngine

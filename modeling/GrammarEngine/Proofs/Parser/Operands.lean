import GrammarEngine.Compile.Parser
import GrammarEngine.Proofs.Parser.Language

/-!
# Operands of left-recursive rules

In a rewritten rule only a self reference at the end of a part carries a precedence. A match of such
a part has the operand as its last child, that operand may have one again, and so on: these are the
operands on the right spine of the match. A match that suffixes have extended has its left operand
as its first child.

The law of precedence speaks of a match that a suffix has extended: the suffix is weaker than each
operand on the right spine of its left operand.
-/
namespace GrammarEngine.Parser

/-! ## Trees -/

/-- The derivations inside a derivation, itself included. -/
inductive PartOf : Derivation → Derivation → Prop
  | self (d : Derivation) : PartOf d d
  | child {c : Invocation} {q : Option UInt32} {stop : Nat} {children : List Derivation}
      {d e : Derivation} : e ∈ children → PartOf d e → PartOf d (.rule c q stop children)

theorem PartOf.trans {d e f : Derivation} (hde : PartOf d e) (hef : PartOf e f) : PartOf d f := by
  induction hef with
  | self => exact hde
  | child hmem _ ih => exact .child hmem (ih hde)

/-- The invocations of the operands on the right spine of a match: of its last child, if that is a
match of the same rule with a precedence, and of the operands on the right spine of that child. -/
inductive Spine : Derivation → Invocation → Prop
  | last {c k : Invocation} {q q' : Option UInt32} {stop stop' : Nat}
      {children children' : List Derivation} :
      children.getLast? = some (.rule k q' stop' children') → k.rule = c.rule → k.precedence ≠ 0 →
      Spine (.rule c q stop children) k
  | deeper {c k l : Invocation} {q q' : Option UInt32} {stop stop' : Nat}
      {children children' : List Derivation} :
      children.getLast? = some (.rule k q' stop' children') → k.rule = c.rule → k.precedence ≠ 0 →
      Spine (.rule k q' stop' children') l → Spine (.rule c q stop children) l

/-- The precedences of the suffixes by which a match has grown from a primary. -/
inductive GrownBy : Derivation → UInt32 → Prop
  | here {c : Invocation} {q : UInt32} {stop : Nat} {children : List Derivation} :
      GrownBy (.rule c (some q) stop children) q
  | operand {c : Invocation} {q q' : UInt32} {stop : Nat} {left : Derivation}
      {rest : List Derivation} :
      GrownBy left q → GrownBy (.rule c (some q') stop (left :: rest)) q

/-- Everywhere in a derivation suffixes are weaker than the operands on the right spine of what they
extend. -/
def Lawful (d : Derivation) : Prop :=
  ∀ c q stop left rest, PartOf (.rule c (some q) stop (left :: rest)) d →
    ∀ k, Spine left k → q < k.precedence

theorem Spine.rule_eq {d : Derivation} {k : Invocation} (h : Spine d k) :
    ∃ c q stop children, d = .rule c q stop children ∧ k.rule = c.rule := by
  induction h with
  | last _ hrule _ => exact ⟨_, _, _, _, rfl, hrule⟩
  | deeper _ hrule _ _ ih =>
      obtain ⟨_, _, _, _, hd, hk⟩ := ih
      cases hd
      exact ⟨_, _, _, _, rfl, hk.trans hrule⟩

theorem lawful_token (place : Nat) : Lawful (.token place) := by
  intro c q stop left rest h
  cases h

/-- A match of a primary is lawful if its children are. -/
theorem lawful_seed {i : Invocation} {stop : Nat} {children : List Derivation}
    (h : ∀ d ∈ children, Lawful d) : Lawful (.rule i none stop children) := by
  intro c q stop' left rest hpart
  cases hpart with
  | child hmem hpart => exact h _ hmem c q stop' left rest hpart

theorem lawful_growth {i : Invocation} {q : UInt32} {stop : Nat} {left : Derivation}
    {rest : List Derivation} (hleft : Lawful left) (hrest : ∀ d ∈ rest, Lawful d)
    (hspine : ∀ k, Spine left k → q < k.precedence) :
    Lawful (.rule i (some q) stop (left :: rest)) := by
  intro c q' stop' left' rest' hpart
  cases hpart with
  | self => exact hspine
  | child hmem hpart =>
      rcases List.mem_cons.mp hmem with rfl | hmem
      · exact hleft c q' stop' left' rest' hpart
      · exact hrest _ hmem c q' stop' left' rest' hpart

/-! ## Trees over an input -/

variable {bodies : Array RuleBody} {input : Array Token} {phrase : Phrase} {i j : Nat}

/-- A rule spans places by a single match of the invocation. -/
theorem Spans.rule_node {index precedence : UInt32} {ds : List Derivation}
    (h : Spans bodies input (.rule index precedence) i j ds) :
    ∃ q children, ds = [.rule ⟨index, precedence, i⟩ q j children] := by
  cases h with
  | plain | primary => exact ⟨none, _, rfl⟩
  | suffix => exact ⟨some _, _, rfl⟩

/-- Every match inside a forest is a match of its own invocation. -/
theorem Spans.part {ds : List Derivation} (h : Spans bodies input phrase i j ds) {d : Derivation}
    (hd : d ∈ ds) {c : Invocation} {q : Option UInt32} {stop : Nat} {children : List Derivation}
    (hpart : PartOf (.rule c q stop children) d) :
    Spans bodies input (.rule c.rule c.precedence) c.start stop [.rule c q stop children] := by
  induction h generalizing d with
  | empty | skip | starNil | nil => simp at hd
  | token | notTokens | anyToken =>
      obtain rfl := List.mem_singleton.mp hd
      cases hpart
  | call _ ih | seq _ ih | choice _ _ ih | take _ _ ih | plusOne _ _ ih => exact ih hd hpart
  | starMore _ _ ih ih' | plusMore _ _ ih ih' | cons _ _ ih ih' =>
      rcases List.mem_append.mp hd with hd | hd
      · exact ih hd hpart
      · exact ih' hd hpart
  | plain precedence hbody hspans ih =>
      obtain rfl := List.mem_singleton.mp hd
      cases hpart with
      | self => exact .plain precedence hbody hspans
      | child hmem hpart => exact ih hmem hpart
  | primary precedence hbody hspans ih =>
      obtain rfl := List.mem_singleton.mp hd
      cases hpart with
      | self => exact .primary precedence hbody hspans
      | child hmem hpart => exact ih hmem hpart
  | suffix hbody hs hle hlt hspans hspans' ih ih' =>
      obtain rfl := List.mem_singleton.mp hd
      cases hpart with
      | self => exact .suffix hbody hs hle hlt hspans hspans'
      | child hmem hpart =>
          rcases List.mem_cons.mp hmem with rfl | hmem
          · exact ih List.mem_cons_self hpart
          · exact ih' hmem hpart

/-- A match grows by admitted suffixes only. -/
theorem Spans.grownBy_le {d : Derivation} {q : UInt32} (hgrown : GrownBy d q)
    {index precedence : UInt32} (h : Spans bodies input (.rule index precedence) i j [d]) :
    precedence ≤ q := by
  induction hgrown generalizing j with
  | here =>
      cases h with
      | suffix _ _ hle _ _ _ => exact hle
  | operand _ ih =>
      cases h with
      | suffix _ _ _ _ hleft _ => exact ih hleft

/-! ## Rewritten rules -/

/-- No invocation carries a precedence. -/
inductive Unmarked : ParseExpr → Prop
  | empty : Unmarked .empty
  | token (t : TokenType) : Unmarked (.token t)
  | notTokens (ts : List TokenType) : Unmarked (.notTokens ts)
  | anyToken : Unmarked .anyToken
  | rule (index : UInt32) : Unmarked (.rule index 0)
  | seq {items : List ParseExpr} : (∀ e ∈ items, Unmarked e) → Unmarked (.seq items)
  | choice {items : List ParseExpr} : (∀ e ∈ items, Unmarked e) → Unmarked (.choice items)
  | optional {e : ParseExpr} (greedy : Bool) : Unmarked e → Unmarked (.optional e greedy)
  | star {e : ParseExpr} (greedy : Bool) : Unmarked e → Unmarked (.star e greedy)
  | plus {e : ParseExpr} (greedy : Bool) : Unmarked e → Unmarked (.plus e greedy)

/-- Only an invocation at the end carries a precedence, and one that is allowed. -/
inductive Operated (allowed : UInt32 → Prop) : ParseExpr → Prop
  | unmarked {e : ParseExpr} : Unmarked e → Operated allowed e
  | rule (index : UInt32) {precedence : UInt32} :
      allowed precedence → Operated allowed (.rule index precedence)
  | seq {items : List ParseExpr} (index : UInt32) {precedence : UInt32} :
      (∀ e ∈ items, Unmarked e) → allowed precedence →
      Operated allowed (.seq (items ++ [.rule index precedence]))
  | choice {items : List ParseExpr} :
      (∀ e ∈ items, Operated allowed e) → Operated allowed (.choice items)

/-- The form of a rewritten rule: operands stand at the ends of parts, and the one of a suffix is at
most one above the suffix. -/
def Rewritten : RuleBody → Prop
  | .plain body => Unmarked body
  | .leftRecursive primary suffixes => Operated (fun _ => True) primary ∧
      ∀ s ∈ suffixes, Operated (fun p => p.toNat ≤ s.precedence.toNat + 1) s.body

/-- No invocation in a phrase carries a precedence. -/
def Phrase.Unmarked : Phrase → Prop
  | expr e => Parser.Unmarked e
  | row es => ∀ e ∈ es, Parser.Unmarked e
  | rule _ precedence => precedence = 0

/-- The matches at the top of a forest of an unmarked phrase carry no precedence. -/
theorem Spans.precedence_eq_zero {ds : List Derivation} (h : Spans bodies input phrase i j ds)
    (hphrase : phrase.Unmarked) {k : Invocation} {q : Option UInt32} {stop : Nat}
    {children : List Derivation} (hd : .rule k q stop children ∈ ds) : k.precedence = 0 := by
  induction h with
  | empty | skip | starNil | nil | token | notTokens | anyToken => simp at hd
  | call _ ih =>
      cases hphrase
      exact ih rfl hd
  | seq _ ih =>
      cases hphrase with
      | seq hes => exact ih hes hd
  | choice hmem _ ih =>
      cases hphrase with
      | choice hes => exact ih (hes _ hmem) hd
  | take _ _ ih =>
      cases hphrase with
      | optional _ he => exact ih he hd
  | plusOne _ _ ih =>
      cases hphrase with
      | plus _ he => exact ih he hd
  | starMore _ _ ih ih' =>
      rcases List.mem_append.mp hd with hd | hd
      · exact ih hphrase hd
      · cases hphrase with
        | star _ he => exact ih' he hd
  | plusMore _ _ ih ih' =>
      rcases List.mem_append.mp hd with hd | hd
      · exact ih hphrase hd
      · cases hphrase with
        | plus _ he => exact ih' he hd
  | cons _ _ ih ih' =>
      rcases List.mem_append.mp hd with hd | hd
      · exact ih (hphrase _ List.mem_cons_self) hd
      · exact ih' (fun e he => hphrase e (List.mem_cons_of_mem _ he)) hd
  | plain | primary | suffix =>
      cases List.mem_singleton.mp hd
      exact hphrase

/-- The last match of a forest of an operated expression has an allowed precedence or none. -/
theorem Spans.operand_allowed {allowed : UInt32 → Prop} {e : ParseExpr} (he : Operated allowed e)
    {ds : List Derivation} (h : Spans bodies input (.expr e) i j ds) {k : Invocation}
    {q : Option UInt32} {stop : Nat} {children : List Derivation}
    (hd : ds.getLast? = some (.rule k q stop children)) (hk : k.precedence ≠ 0) :
    allowed k.precedence := by
  induction he generalizing j ds with
  | @unmarked e he =>
      have hphrase : Phrase.Unmarked (.expr e) := he
      exact (hk (h.precedence_eq_zero hphrase (List.mem_of_getLast? hd))).elim
  | rule index hallowed =>
      cases h with
      | call h =>
          obtain ⟨_, _, rfl⟩ := h.rule_node
          cases hd
          exact hallowed
  | seq index _ hallowed =>
      cases h with
      | seq h =>
          obtain ⟨_, front, back, rfl, -, hback⟩ := h.exists_row_append
          cases hback.of_row_single with
          | call hnode =>
              obtain ⟨_, _, rfl⟩ := hnode.rule_node
              rw [List.getLast?_concat] at hd
              cases hd
              exact hallowed
  | choice _ ih =>
      cases h with
      | choice hmem h => exact ih _ hmem h hd

end GrammarEngine.Parser

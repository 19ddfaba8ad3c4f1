import GrammarEngine.Analysis.LeftRecursion

/-!
# Parts of left-recursive rules

What the rewrite makes of each alternative: one that starts with the rule becomes a suffix without
that reference, any other a primary, and a self reference at the end gets a precedence. The
precedence of a part is one more than the number of alternatives behind it.
-/
namespace GrammarEngine

/-- An element that a file can contain: without references that carry a precedence. -/
inductive Element.Written : Element → Prop
  | literal (text : String) : Written (.literal text)
  | token (name : String) : Written (.token name)
  | rule (name : String) : Written (.rule name)
  | charSet (ranges : List (Char × Char)) (negated : Bool) : Written (.charSet ranges negated)
  | any : Written .any
  | not (members : List Element) : Written (.not members)
  | notTokens (names : List String) : Written (.notTokens names)
  | block {alternatives : List Alternative} :
      (∀ a ∈ alternatives, ∀ e ∈ a.elements, Written e) → Written (.block alternatives)
  | repeated {e : Element} (kind : Repetition) (greedy : Bool) :
      Written e → Written (.repeated e kind greedy)
  | eof : Written .eof

namespace LeftRecursion

variable {name : String} {alternatives : List Alternative} {a : Alternative}

theorem isSelf_iff {e : Element} : isSelf name e = true ↔ e = .rule name := by
  cases e <;> simp [isSelf]

theorem startsWithSelf_iff :
    startsWithSelf name a = true ↔ ∃ rest, a.elements = .rule name :: rest := by
  unfold startsWithSelf
  split
  · next e rest h => simp [isSelf_iff, h]
  · next h => simp [h]

theorem endsWithSelf_iff :
    endsWithSelf name a = true ↔ ∃ init, init ≠ [] ∧ a.elements = init ++ [.rule name] := by
  unfold endsWithSelf
  split
  · next first e rest h =>
    rw [isSelf_iff, h]
    constructor
    · intro hlast
      refine ⟨first :: (e :: rest).dropLast, List.cons_ne_nil _ _, ?_⟩
      rw [List.cons_append, ← hlast, List.dropLast_concat_getLast]
    · intro ⟨init, hne, hinit⟩
      obtain ⟨d, init, rfl⟩ := List.exists_cons_of_ne_nil hne
      obtain ⟨-, hrest⟩ := List.cons.inj hinit
      simp [hrest]
  · next h =>
    simp only [Bool.false_eq_true, false_iff]
    intro ⟨init, hne, hinit⟩
    obtain ⟨d, init, rfl⟩ := List.exists_cons_of_ne_nil hne
    cases init with
    | nil => exact h d (.rule name) [] hinit
    | cons e init => exact h d e (init ++ [.rule name]) (by simpa using hinit)

theorem replaceLast_concat (e d : Element) (init : List Element) :
    replaceLast e (init ++ [d]) = init ++ [e] := by
  induction init with
  | nil => rfl
  | cons first rest ih =>
      cases rest with
      | nil => rfl
      | cons second rest => exact congrArg (first :: ·) ih

/-- Marking changes nothing but a self reference at the end of an alternative of two or more
elements. -/
theorem markOperand_cases (name : String) (precedence : Nat) (a : Alternative) :
    (endsWithSelf name a = false ∧ markOperand name precedence a = a) ∨
      ∃ init, init ≠ [] ∧ a.elements = init ++ [.rule name] ∧
        (markOperand name precedence a).elements =
          init ++ [.ruleAt name (operandPrecedence name precedence a)] := by
  cases h : endsWithSelf name a with
  | false => exact .inl ⟨rfl, by simp [markOperand, h]⟩
  | true =>
      obtain ⟨init, hne, hinit⟩ := endsWithSelf_iff.mp h
      exact .inr ⟨init, hne, hinit, by simp [markOperand, h, hinit, replaceLast_concat]⟩

theorem commands_markOperand (name : String) (precedence : Nat) (a : Alternative) :
    (markOperand name precedence a).commands = a.commands := by
  unfold markOperand
  split <;> rfl

/-- Marking leaves a leading self reference alone. -/
theorem markOperand_leading (precedence : Nat) {rest : List Element}
    (h : a.elements = .rule name :: rest) :
    ∃ tail, (markOperand name precedence a).elements = .rule name :: tail := by
  rcases markOperand_cases name precedence a with ⟨-, ha⟩ | ⟨init, hne, hinit, hmarked⟩
  · exact ⟨rest, by rw [ha, h]⟩
  · obtain ⟨d, init, rfl⟩ := List.exists_cons_of_ne_nil hne
    rw [h] at hinit
    obtain ⟨rfl, -⟩ := List.cons.inj hinit
    exact ⟨_, hmarked⟩

theorem operandPrecedence_le (name : String) (precedence : Nat) (a : Alternative) :
    precedence ≤ operandPrecedence name precedence a ∧
      operandPrecedence name precedence a ≤ precedence + 1 := by
  unfold operandPrecedence
  split <;> omega

/-- The part of each alternative, with the precedence that its place gives it. -/
theorem mem_partsOf {parts : List Part} (h : partsOf name alternatives = .ok parts) {part : Part} :
    part ∈ parts ↔ ∃ front a back, alternatives = front ++ a :: back ∧
      partOf name (back.length + 1) a = .ok part := by
  induction alternatives generalizing parts with
  | nil =>
      cases h
      simp
  | cons a rest ih =>
      rw [partsOf] at h
      cases hpart : partOf name (rest.length + 1) a with
      | error fault =>
          rw [hpart] at h
          cases h
      | ok first =>
          cases hrest : partsOf name rest with
          | error fault =>
              rw [hpart, hrest] at h
              cases h
          | ok others =>
              rw [hpart, hrest] at h
              obtain rfl : first :: others = parts := by
                simpa [bind, Except.bind, pure, Except.pure] using h
              rw [List.mem_cons, ih hrest]
              constructor
              · rintro (rfl | ⟨front, b, back, rfl, hb⟩)
                · exact ⟨[], a, rest, rfl, hpart⟩
                · exact ⟨a :: front, b, back, rfl, hb⟩
              · intro ⟨front, b, back, hsplit, hb⟩
                cases front with
                | nil =>
                    obtain ⟨rfl, rfl⟩ := List.cons.inj hsplit
                    rw [hpart] at hb
                    exact .inl (Except.ok.inj hb).symm
                | cons c front =>
                    obtain ⟨rfl, rfl⟩ := List.cons.inj hsplit
                    exact .inr ⟨front, b, back, rfl, hb⟩

/-- An alternative with the precedence that its place gives it. -/
def Stands (alternatives : List Alternative) (precedence : Nat) (a : Alternative) : Prop :=
  ∃ front back, alternatives = front ++ a :: back ∧ precedence = back.length + 1

theorem Stands.mem {precedence : Nat} (h : Stands alternatives precedence a) :
    a ∈ alternatives := by
  obtain ⟨front, back, rfl, -⟩ := h
  simp

theorem exists_stands (h : a ∈ alternatives) : ∃ precedence, Stands alternatives precedence a := by
  obtain ⟨front, back, rfl⟩ := List.append_of_mem h
  exact ⟨_, ⟨front, back, rfl, rfl⟩⟩

/-- What the rewrite gives: the same alternatives if none starts with the rule, else the primaries
and suffixes that the alternatives become. -/
inductive Eliminated (name : String) (alternatives : List Alternative) : ParserRuleSpec → Prop
  | plain : (∀ a ∈ alternatives, startsWithSelf name a = false) →
      Eliminated name alternatives (.plain name alternatives)
  | leftRecursive {primaries : List Alternative} {suffixes : List SuffixSpec} :
      (∀ b, b ∈ primaries ↔ ∃ precedence a, Stands alternatives precedence a ∧
        startsWithSelf name a = false ∧ b = markOperand name precedence a) →
      (∀ s, s ∈ suffixes ↔ ∃ precedence a rest, Stands alternatives precedence a ∧
        a.elements = .rule name :: rest ∧ rest ≠ [] ∧
        s = ⟨precedence, a.rightAssoc, (markOperand name precedence a).elements.drop 1⟩) →
      Eliminated name alternatives (.leftRecursive name primaries suffixes)

theorem partOf_eq_inl {precedence : Nat} {b : Alternative} :
    partOf name precedence a = .ok (.inl b) ↔
      startsWithSelf name a = false ∧ b = markOperand name precedence a := by
  unfold partOf
  split
  · next h => split <;> simp [h]
  · next h => simp [h, eq_comm]

theorem partOf_eq_inr {precedence : Nat} {s : SuffixSpec} :
    partOf name precedence a = .ok (.inr s) ↔
      ∃ rest, a.elements = .rule name :: rest ∧ rest ≠ [] ∧
        s = ⟨precedence, a.rightAssoc, (markOperand name precedence a).elements.drop 1⟩ := by
  unfold partOf
  split
  · next h =>
    obtain ⟨rest, hrest⟩ := startsWithSelf_iff.mp h
    split
    · next hlen =>
      have : rest = [] := by simpa [hrest] using hlen
      simp [hrest, this]
    · next hlen =>
      have : rest ≠ [] := by simpa [hrest] using hlen
      simp [hrest, this, eq_comm]
  · next h =>
    simp only [reduceCtorEq, Except.ok.injEq, false_iff]
    rintro ⟨rest, hrest, -⟩
    exact h (startsWithSelf_iff.mpr ⟨rest, hrest⟩)

theorem mem_filterMap_getLeft? {α β : Type} {parts : List (α ⊕ β)} {b : α} :
    b ∈ parts.filterMap Sum.getLeft? ↔ .inl b ∈ parts := by
  simp [List.mem_filterMap, Sum.getLeft?_eq_some_iff]

theorem mem_filterMap_getRight? {α β : Type} {parts : List (α ⊕ β)} {s : β} :
    s ∈ parts.filterMap Sum.getRight? ↔ .inr s ∈ parts := by
  simp [List.mem_filterMap, Sum.getRight?_eq_some_iff]

theorem eliminated_of_eliminate {spec : ParserRuleSpec}
    (h : eliminate name alternatives = .ok spec) : Eliminated name alternatives spec := by
  unfold eliminate at h
  split at h
  · next hnone =>
    obtain rfl := Except.ok.inj h
    exact .plain (by simpa using hnone)
  · cases hparts : partsOf name alternatives with
    | error fault =>
        rw [hparts] at h
        cases h
    | ok parts =>
        rw [hparts] at h
        simp only [bind, Except.bind] at h
        split at h
        · cases h
        · obtain rfl := Except.ok.inj h
          refine .leftRecursive (fun b => ?_) fun s => ?_
          · rw [mem_filterMap_getLeft?, mem_partsOf hparts]
            simp only [partOf_eq_inl]
            constructor
            · intro ⟨front, a, back, hsplit, ha⟩
              exact ⟨back.length + 1, a, ⟨front, back, hsplit, rfl⟩, ha⟩
            · rintro ⟨_, a, ⟨front, back, hsplit, rfl⟩, ha⟩
              exact ⟨front, a, back, hsplit, ha⟩
          · rw [mem_filterMap_getRight?, mem_partsOf hparts]
            simp only [partOf_eq_inr]
            constructor
            · intro ⟨front, a, back, hsplit, rest, ha⟩
              exact ⟨back.length + 1, a, rest, ⟨front, back, hsplit, rfl⟩, ha⟩
            · rintro ⟨_, a, rest, ⟨front, back, hsplit, rfl⟩, ha⟩
              exact ⟨front, a, back, hsplit, rest, ha⟩

end LeftRecursion

end GrammarEngine

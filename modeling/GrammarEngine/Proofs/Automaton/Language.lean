import GrammarEngine.Compile.Automaton
import GrammarEngine.Proofs.Automaton.CharRanges

/-!
# The words of lexer rules

Lexer expressions are read as regular expressions. A reference has the words of the rule that the
table names first, and whether a repetition prefers fewer matches has no influence on its words.

An expression occurs in another one also through references, for these are replaced.
-/
namespace GrammarEngine.Automaton

/-! ## Words -/

/-- How many words a repetition takes. -/
def Admits : Repetition → Nat → Prop
  | .optional, n => n ≤ 1
  | .zeroOrMore, _ => True
  | .oneOrMore, n => 1 ≤ n

/-- The words of an expression. -/
inductive Words (table : Table) : UnitExpr → List Char → Prop
  | empty : Words table .empty []
  | seq {items : List UnitExpr} {words : List (List Char)} :
      List.Forall₂ (Words table) items words → Words table (.seq items) words.flatten
  | choice {items : List UnitExpr} {item : UnitExpr} {w : List Char} :
      item ∈ items → Words table item w → Words table (.choice items) w
  | repeated {kind : Repetition} {isLazy : Bool} {body : UnitExpr} {words : List (List Char)} :
      Admits kind words.length → (∀ u ∈ words, Words table body u) →
      Words table (.repeated kind isLazy body) words.flatten
  | literal (text : String) (p : Position) : Words table (.literal text p) text.toList
  | ranges {ranges : List CharRanges.Range} {negated : Bool} {c : Char} :
      (CharRanges.Contains ranges c.val ↔ negated = false) →
      Words table (.ranges ranges negated) [c]
  | any (c : Char) : Words table .any [c]
  | ref {name : String} {p : Position} {alternatives : List (List UnitExpr)}
      {items : List UnitExpr} {words : List (List Char)} :
      table.lookup name = some alternatives → items ∈ alternatives →
      List.Forall₂ (Words table) items words → Words table (.ref name p) words.flatten

/-- The words of expressions one after the other, each with words of its own. -/
def Sequenced {α : Type} (P : α → List Char → Prop) (items : List α) (w : List Char) : Prop :=
  ∃ words : List (List Char), w = words.flatten ∧ List.Forall₂ P items words

/-- As many words as a repetition takes. -/
def Iterated (P : List Char → Prop) (kind : Repetition) (w : List Char) : Prop :=
  ∃ words : List (List Char), w = words.flatten ∧ Admits kind words.length ∧ ∀ u ∈ words, P u

variable {table : Table}

theorem words_seq_iff {items : List UnitExpr} {w : List Char} :
    Words table (.seq items) w ↔ Sequenced (Words table) items w := by
  constructor
  · intro h
    cases h with
    | seq hwords => exact ⟨_, rfl, hwords⟩
  · intro ⟨words, hw, hwords⟩
    rw [hw]
    exact .seq hwords

theorem words_choice_iff {items : List UnitExpr} {w : List Char} :
    Words table (.choice items) w ↔ ∃ item ∈ items, Words table item w := by
  constructor
  · intro h
    cases h with
    | choice hitem hword => exact ⟨_, hitem, hword⟩
  · intro ⟨item, hitem, hword⟩
    exact .choice hitem hword

theorem words_repeated_iff {kind : Repetition} {isLazy : Bool} {body : UnitExpr}
    {w : List Char} :
    Words table (.repeated kind isLazy body) w ↔ Iterated (Words table body) kind w := by
  constructor
  · intro h
    cases h with
    | repeated hadmits hwords => exact ⟨_, rfl, hadmits, hwords⟩
  · intro ⟨words, hw, hadmits, hwords⟩
    rw [hw]
    exact .repeated hadmits hwords

theorem words_ref_iff {name : String} {p : Position} {alternatives : List (List UnitExpr)}
    {w : List Char} (h : table.lookup name = some alternatives) :
    Words table (.ref name p) w ↔ ∃ items ∈ alternatives, Sequenced (Words table) items w := by
  constructor
  · intro hword
    cases hword with
    | ref hlookup hitems hwords =>
        rw [h] at hlookup
        obtain rfl := Option.some.inj hlookup
        exact ⟨_, hitems, _, rfl, hwords⟩
  · intro ⟨items, hitems, words, hw, hwords⟩
    rw [hw]
    exact .ref h hitems hwords

theorem words_literal_iff {text : String} {p : Position} {w : List Char} :
    Words table (.literal text p) w ↔ w = text.toList := by
  constructor
  · intro h
    cases h with
    | literal => rfl
  · intro h
    rw [h]
    exact .literal text p

theorem words_ranges_iff {ranges : List CharRanges.Range} {negated : Bool} {w : List Char} :
    Words table (.ranges ranges negated) w ↔
      ∃ c, w = [c] ∧ (CharRanges.Contains ranges c.val ↔ negated = false) := by
  constructor
  · intro h
    cases h with
    | ranges hc => exact ⟨_, rfl, hc⟩
  · intro ⟨c, hw, hc⟩
    rw [hw]
    exact .ranges hc

theorem words_any_iff {w : List Char} : Words table .any w ↔ ∃ c, w = [c] := by
  constructor
  · intro h
    cases h with
    | any c => exact ⟨c, rfl⟩
  · intro ⟨c, hw⟩
    rw [hw]
    exact .any c

theorem words_empty_iff {w : List Char} : Words table .empty w ↔ w = [] := by
  constructor
  · intro h
    cases h with
    | empty => rfl
  · intro h
    rw [h]
    exact .empty

/-! ## What occurs in an expression -/

/-- The parts of an expression, and those of the rules that it names. -/
inductive Occurs (table : Table) (inner : UnitExpr) : UnitExpr → Prop
  | self : Occurs table inner inner
  | seq {items : List UnitExpr} {item : UnitExpr} :
      item ∈ items → Occurs table inner item → Occurs table inner (.seq items)
  | choice {items : List UnitExpr} {item : UnitExpr} :
      item ∈ items → Occurs table inner item → Occurs table inner (.choice items)
  | repeated {body : UnitExpr} (kind : Repetition) (isLazy : Bool) :
      Occurs table inner body → Occurs table inner (.repeated kind isLazy body)
  | ref {name : String} (p : Position) {alternatives : List (List UnitExpr)}
      {items : List UnitExpr} {item : UnitExpr} :
      table.lookup name = some alternatives → items ∈ alternatives → item ∈ items →
      Occurs table inner item → Occurs table inner (.ref name p)

/-- A choice, and a rule that is named, offers at least one alternative. -/
def Offers (table : Table) : UnitExpr → Prop
  | .choice items => items ≠ []
  | .ref name _ => table.lookup name ≠ some []
  | _ => True

/-- Every choice in an expression, and every rule that it names, offers an alternative. -/
def Offering (table : Table) (e : UnitExpr) : Prop :=
  ∀ inner, Occurs table inner e → Offers table inner

/-- A repetition that prefers fewer matches occurs in an expression. -/
def HasLazy (table : Table) (e : UnitExpr) : Prop :=
  ∃ kind body, Occurs table (.repeated kind true body) e

theorem Offering.item {items : List UnitExpr} (h : Offering table (.seq items)) :
    ∀ item ∈ items, Offering table item :=
  fun _ hitem inner hinner => h inner (.seq hitem hinner)

theorem Offering.alternative {items : List UnitExpr} (h : Offering table (.choice items)) :
    ∀ item ∈ items, Offering table item :=
  fun _ hitem inner hinner => h inner (.choice hitem hinner)

theorem Offering.body {kind : Repetition} {isLazy : Bool} {body : UnitExpr}
    (h : Offering table (.repeated kind isLazy body)) : Offering table body :=
  fun inner hinner => h inner (.repeated kind isLazy hinner)

theorem Offering.named {name : String} {p : Position} {alternatives : List (List UnitExpr)}
    (h : Offering table (.ref name p)) (hlookup : table.lookup name = some alternatives) :
    ∀ items ∈ alternatives, ∀ item ∈ items, Offering table item :=
  fun _ hitems _ hitem inner hinner => h inner (.ref p hlookup hitems hitem hinner)

theorem hasLazy_seq_iff {items : List UnitExpr} :
    HasLazy table (.seq items) ↔ ∃ item ∈ items, HasLazy table item := by
  constructor
  · intro ⟨kind, body, h⟩
    cases h with
    | seq hitem hinner => exact ⟨_, hitem, kind, body, hinner⟩
  · intro ⟨item, hitem, kind, body, h⟩
    exact ⟨kind, body, .seq hitem h⟩

theorem hasLazy_choice_iff {items : List UnitExpr} :
    HasLazy table (.choice items) ↔ ∃ item ∈ items, HasLazy table item := by
  constructor
  · intro ⟨kind, body, h⟩
    cases h with
    | choice hitem hinner => exact ⟨_, hitem, kind, body, hinner⟩
  · intro ⟨item, hitem, kind, body, h⟩
    exact ⟨kind, body, .choice hitem h⟩

theorem hasLazy_repeated_iff {kind : Repetition} {isLazy : Bool} {body : UnitExpr} :
    HasLazy table (.repeated kind isLazy body) ↔ isLazy = true ∨ HasLazy table body := by
  constructor
  · intro ⟨kind', body', h⟩
    cases h with
    | self => exact .inl rfl
    | repeated _ _ hinner => exact .inr ⟨kind', body', hinner⟩
  · intro h
    rcases h with h | ⟨kind', body', h⟩
    · rw [h]
      exact ⟨kind, body, .self⟩
    · exact ⟨kind', body', .repeated kind isLazy h⟩

theorem hasLazy_ref_iff {name : String} {p : Position} {alternatives : List (List UnitExpr)}
    (hlookup : table.lookup name = some alternatives) :
    HasLazy table (.ref name p) ↔ ∃ items ∈ alternatives, ∃ item ∈ items, HasLazy table item := by
  constructor
  · intro ⟨kind, body, h⟩
    cases h with
    | ref _ hlookup' hitems hitem hinner =>
        rw [hlookup] at hlookup'
        obtain rfl := Option.some.inj hlookup'
        exact ⟨_, hitems, _, hitem, kind, body, hinner⟩
  · intro ⟨items, hitems, item, hitem, kind, body, h⟩
    exact ⟨kind, body, .ref p hlookup hitems hitem h⟩

end GrammarEngine.Automaton

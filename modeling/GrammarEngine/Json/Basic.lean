/-!
# JSON values

Documents keep the members of their objects in order, repeated names included; a document can be
made distinct, so that the last member of a name is the only one. A number is an integer when it is
written without fraction and exponent and fits in sixty-four bits, with or without a sign; any other
number is kept as its decimal digits and a power of ten.
-/
namespace GrammarEngine

inductive Json where
  | null
  | bool (b : Bool)
  | int (n : Int)
  | decimal (digits exponent : Int)
  | text (s : String)
  | list (items : List Json)
  | object (fields : List (String × Json))
deriving Repr, Inhabited

namespace Json

/-- The least and the greatest number kept as an integer. -/
def minInt : Int := -9223372036854775808

def maxInt : Int := 18446744073709551615

/-- An integer where it fits, else a decimal number. -/
def ofInt (n : Int) : Json := if minInt ≤ n ∧ n ≤ maxInt then .int n else .decimal n 0

def nat (n : Nat) : Json := .int n

def optional {α : Type} (f : α → Json) : Option α → Json
  | some a => f a
  | none => .null

/-- The last value of a name. -/
def lookup? (name : String) : List (String × Json) → Option Json
  | [] => none
  | (n, v) :: rest => (lookup? name rest).or (if n == name then some v else none)

/-- The member of an object under a name. -/
def field? (j : Json) (name : String) : Option Json :=
  match j with
  | object fields => lookup? name fields
  | _ => none

/-- A natural number not above a bound. -/
def natUpTo? (bound : Nat) : Json → Option Nat
  | int n => if 0 ≤ n ∧ n ≤ bound then some n.toNat else none
  | _ => none

def text? : Json → Option String
  | text s => some s
  | _ => none

def bool? : Json → Option Bool
  | bool b => some b
  | _ => none

/-- What `null` or a value stands for where a value may be left out. -/
def orNull? {α : Type} (f : Json → Option α) : Json → Option (Option α)
  | null => some none
  | j => (f j).map some

/-- The items of a list, if all of them have the form asked for. -/
def listOf? {α : Type} (f : Json → Option α) : Json → Option (List α)
  | list items => items.mapM f
  | _ => none

/-- The members of an object, or a list of values that stand for the members of the given names in
order. At least `required` values must be there. -/
def record? (names : List String) (required : Nat) : Json → Option (List (String × Json))
  | object fields => some fields
  | list items =>
    if required ≤ items.length ∧ items.length ≤ names.length then some (names.zip items) else none
  | _ => none

/-- One of several names, alone or as the only member of an object with the value `null`. -/
def tag? : Json → Option String
  | text s => some s
  | object [(name, null)] => some name
  | _ => none

/-! ## Repeated names -/

/-- The members that no later one of the same name follows. -/
def lastMembers : List (String × Json) → List (String × Json)
  | [] => []
  | f :: rest =>
    if rest.any fun g => g.1 == f.1 then lastMembers rest else f :: lastMembers rest

mutual
/-- The document in which every object has the last member of each name only. -/
def distinct : Json → Json
  | list items => list (distinctItems items)
  | object fields => object (lastMembers (distinctFields fields))
  | j => j

def distinctItems : List Json → List Json
  | [] => []
  | j :: rest => distinct j :: distinctItems rest

def distinctFields : List (String × Json) → List (String × Json)
  | [] => []
  | (name, j) :: rest => (name, distinct j) :: distinctFields rest
end

theorem lookup?_append (name : String) (a b : List (String × Json)) :
    lookup? name (a ++ b) = (lookup? name b).or (lookup? name a) := by
  induction a with
  | nil => simp [lookup?]
  | cons f rest ih => simp [lookup?, ih, Option.or_assoc]

theorem lookup?_eq_none_of_any {name : String} {fields : List (String × Json)}
    (h : (fields.any fun g => g.1 == name) = false) : lookup? name fields = none := by
  induction fields with
  | nil => rfl
  | cons f rest ih =>
    simp only [List.any_cons, Bool.or_eq_false_iff] at h
    simp [lookup?, ih h.2, h.1]

/-- Dropping members that a later one replaces changes no look-up. -/
theorem lookup?_lastMembers (name : String) (fields : List (String × Json)) :
    lookup? name (lastMembers fields) = lookup? name fields := by
  induction fields with
  | nil => rfl
  | cons f rest ih =>
    unfold lastMembers
    split
    · rename_i h
      rw [ih, lookup?]
      by_cases hn : f.1 = name
      · subst hn
        cases hr : lookup? f.1 rest with
        | some v => simp
        | none =>
          exfalso
          obtain ⟨g, hg, hgn⟩ := List.any_eq_true.mp h
          clear h ih
          induction rest with
          | nil => cases hg
          | cons r rest ih =>
            simp only [lookup?, Option.or_eq_none_iff, ite_eq_right_iff, reduceCtorEq] at hr
            rcases List.mem_cons.mp hg with rfl | hg
            · exact hr.2 hgn
            · exact ih hr.1 hg
      · simp [hn]
    · simp [lookup?, ih]

end Json

end GrammarEngine

/-!
# Sorted lists

Finite sets as strictly increasing lists. Insertion keeps the order and drops what is there already.
-/
namespace GrammarEngine.Sorted

variable {α : Type} [LT α] [DecidableLT α] [DecidableEq α]

def insert (a : α) : List α → List α
  | [] => [a]
  | b :: rest =>
    if a = b then b :: rest
    else if a < b then a :: b :: rest
    else b :: insert a rest

def ofList (items : List α) : List α := items.foldl (fun acc a => insert a acc) []

theorem mem_insert (a b : α) (items : List α) : b ∈ insert a items ↔ b = a ∨ b ∈ items := by
  induction items with
  | nil => simp [insert]
  | cons c rest ih =>
    unfold insert
    split
    · next h => subst h; simp
    · split
      · simp
      · simp only [List.mem_cons, ih]
        constructor
        · rintro (h | h | h) <;> simp [h]
        · rintro (h | h | h) <;> simp [h]

theorem mem_foldl_insert (b : α) (items acc : List α) :
    b ∈ items.foldl (fun acc a => insert a acc) acc ↔ b ∈ acc ∨ b ∈ items := by
  induction items generalizing acc with
  | nil => simp
  | cons a rest ih =>
    simp only [List.foldl_cons, ih, mem_insert, List.mem_cons]
    constructor
    · rintro ((h | h) | h) <;> simp [h]
    · rintro (h | h | h) <;> simp [h]

theorem mem_ofList (b : α) (items : List α) : b ∈ ofList items ↔ b ∈ items := by
  simp [ofList, mem_foldl_insert]

end GrammarEngine.Sorted

/-!
# Entry names

Names of archive entries are cut at slashes into components. Cleaning a name drops empty and
current-directory components and refuses every name that could point out of the archive: absolute
names, parent components and backslashes. Hidden components, which start with a dot, are refused
unless they are allowed. What remains is joined with single slashes.
-/
namespace GrammarEngine.EntryName

/-- The reasons to refuse a name. -/
inductive Fault where
  | empty
  | absolute (raw : String)
  | parentTraversal (raw : String)
  | backslash (raw : String)
  | hidden (raw : String)
  | noComponents (raw : String)
deriving Repr, DecidableEq

def Fault.message : Fault → String
  | empty => "Empty entry name"
  | absolute raw => s!"Absolute entry name not allowed: {raw}"
  | parentTraversal raw => s!"Parent directory traversal not allowed: {raw}"
  | backslash raw => s!"Backslash separators not allowed: {raw}"
  | hidden raw => s!"Hidden entries not allowed: {raw}"
  | noComponents raw => s!"No valid components: {raw}"

/-- The parts of a name between slashes, empty parts included. -/
def parts : List Char → List (List Char)
  | [] => [[]]
  | c :: rest =>
    if c == '/' then [] :: parts rest
    else match parts rest with
      | [] => [[c]]
      | first :: others => (c :: first) :: others

def join : List (List Char) → List Char
  | [] => []
  | [part] => part
  | part :: rest => part ++ '/' :: join rest

def parentPart : List Char := ['.', '.']

/-- The parts that stay in a clean name. -/
def kept (ps : List (List Char)) : List (List Char) := ps.filter fun p => p != [] && p != ['.']

/-- Refuse the first part that is a parent component or hidden. -/
def check (raw : String) (allowHidden : Bool) : List (List Char) → Except Fault Unit
  | [] => .ok ()
  | p :: rest =>
    if p == parentPart then .error (.parentTraversal raw)
    else if !allowHidden && p.head? == some '.' then .error (.hidden raw)
    else check raw allowHidden rest

/-- The clean form of a name. -/
def clean (raw : String) (allowHidden : Bool) : Except Fault String := do
  let cs := raw.toList
  if cs.isEmpty then throw .empty
  if cs.contains '\\' then throw (.backslash raw)
  if cs.head? == some '/' then throw (.absolute raw)
  let components := kept (parts cs)
  check raw allowHidden components
  if components.isEmpty then throw (.noComponents raw)
  return String.ofList (join components)

/-- The clean form of a name without hidden components. -/
def sanitize (raw : String) : Except Fault String := clean raw false

/-- What follows a directory name and a slash. -/
def below? (dir : List Char) (name : List Char) : Option (List Char) :=
  match dir.isPrefixOf? name with
  | some ('/' :: file) => some file
  | _ => none

/-- The clean form of a name that lies directly in a directory. -/
def sanitizeIn (raw dir : String) : Except Fault String := do
  let name ← sanitize raw
  match below? dir.toList name.toList with
  | some file =>
    if file.isEmpty || file.contains '/' then throw (.noComponents raw) else return name
  | none => throw (.noComponents raw)

theorem parts_ne_nil (cs : List Char) : parts cs ≠ [] := by
  cases cs with
  | nil => simp [parts]
  | cons c rest =>
    unfold parts
    split
    · simp
    · split <;> simp

theorem not_mem_parts_slash (cs : List Char) : ∀ p ∈ parts cs, '/' ∉ p := by
  induction cs with
  | nil => simp [parts]
  | cons c rest ih =>
    unfold parts
    split
    · intro p hp
      rcases List.mem_cons.mp hp with rfl | hp
      · simp
      · exact ih p hp
    · rename_i hc
      split
      · intro p hp
        simp only [List.mem_singleton] at hp
        subst hp
        simp only [beq_iff_eq] at hc
        simp only [List.mem_singleton]
        exact Ne.symm hc
      · rename_i first others h
        intro p hp
        rw [h] at ih
        rcases List.mem_cons.mp hp with rfl | hp
        · have := ih first (by simp)
          simp only [beq_iff_eq] at hc
          exact List.not_mem_cons_of_ne_of_not_mem (Ne.symm hc) this
        · exact ih p (List.mem_cons_of_mem _ hp)

end GrammarEngine.EntryName

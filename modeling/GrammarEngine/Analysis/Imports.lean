import GrammarEngine.Analysis.Basic

/-!
# Imports

A root grammar takes over the rules, tokens, channels and modes of the grammars that it imports,
directly or through others. What a grammar already has is kept, so the nearest definition wins.
Following imports back to a grammar that is still being merged is an error; since grammar names
differ, a chain longer than the number of grammars contains one of them twice.
-/
namespace GrammarEngine.Imports

/-- Append the names that are not there yet. -/
def addNames (names more : List String) : List String :=
  more.foldl (fun acc n => if acc.contains n then acc else acc ++ [n]) names

/-- Append the rules whose names are not there yet. -/
def addRules (rules more : List Rule) : List Rule :=
  more.foldl (fun acc r => if acc.any (fun q => q.name == r.name) then acc else acc ++ [r]) rules

/-- A grammar with the declarations of an imported one added to its own. -/
def absorb (g imported : Grammar) : Grammar :=
  { g with
    rules := addRules g.rules imported.rules
    tokens := addNames g.tokens imported.tokens
    channels := addNames g.channels imported.channels
    modes := addNames g.modes imported.modes }

def find? (all : List Grammar) (name : String) : Option Grammar :=
  all.find? fun g => g.name == name

/-- A grammar with all its imports merged, when the grammars on the given chain import it. -/
def merge (all : List Grammar) : Nat → List String → Grammar → Except GenerationError Grammar
  | 0, _, g => .error (.grammar g.name .circularImport)
  | bound + 1, chain, g =>
    if chain.contains g.name then .error (.grammar g.name .circularImport)
    else
      g.imports.foldlM (fun merged name =>
        match find? all name with
        | none => .error (.missingImport name g.name)
        | some imported => (merge all bound (g.name :: chain) imported).map (absorb merged)) g

/-- A root grammar with all its imports merged. -/
def mergeRoot (all : List Grammar) (g : Grammar) : Except GenerationError Grammar :=
  merge all all.length [] g

/-- The first grammar whose name an earlier one has. -/
def firstDuplicate? : List String → List Grammar → Option Grammar
  | _, [] => none
  | seen, g :: rest =>
    if seen.contains g.name then some g else firstDuplicate? (g.name :: seen) rest

/-- The first import that names no grammar, with the grammar that asks for it. -/
def firstMissing? (all : List Grammar) : Option (String × String) :=
  all.findSome? fun g =>
    (g.imports.find? fun name => (find? all name).isNone).map fun name => (name, g.name)

/-- The grammars that no other one imports, merged with their imports. -/
def roots (all : List Grammar) : Except GenerationError (List Grammar) := do
  if let some g := firstDuplicate? [] all then throw (.duplicateGrammar g.name)
  if let some (name, importer) := firstMissing? all then throw (.missingImport name importer)
  let imported := all.flatMap Grammar.imports
  (all.filter fun g => !imported.contains g.name).mapM (mergeRoot all)

end GrammarEngine.Imports

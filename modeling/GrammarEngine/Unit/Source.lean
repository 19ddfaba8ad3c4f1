/-!
# Unit sources

A unit is submitted to the compiler as a named text. Units are generated from grammars or supplied
by the caller. A name may be qualified by packages separated with full stops.
-/
namespace GrammarEngine

inductive UnitOrigin where
  | generated
  | utility
deriving Repr, DecidableEq, Inhabited

def UnitOrigin.name : UnitOrigin → String
  | generated => "generated"
  | utility => "utility"

/-- How listings show an origin. -/
def UnitOrigin.title : UnitOrigin → String
  | generated => "Generated"
  | utility => "Utility"

structure UnitSource where
  name : String
  source : String
  origin : UnitOrigin := .generated
deriving Repr, DecidableEq, Inhabited

/-- The part of a name after its last full stop. -/
def UnitSource.simpleName (u : UnitSource) : String :=
  String.ofList (u.name.toList.reverse.takeWhile (· != '.')).reverse

end GrammarEngine

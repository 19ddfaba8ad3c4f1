import GrammarEngine.Analysis.Lexer

/-!
# References of parser rules

In a resolved parser rule every literal is replaced by the token that stands for it and every
exclusion by the names of the excluded tokens. A literal means the first token of the vocabulary
with this spelling. A token that the vocabulary lacks is added at its end with a warning where this
is allowed, and is an error elsewhere.
-/
namespace GrammarEngine.References

/-- What does not change while the rules of one parser are resolved. -/
structure Scope where
  ruleNames : List String
  lenient : Bool
  allowImplicit : Bool

/-- The vocabulary so far and the tokens that were added to it. -/
structure State where
  vocabulary : List TokenSpec
  added : List String := []
deriving Repr

abbrev Resolving := StateT State (Except RuleFault)

def literalToken (text : String) : Resolving String := do
  match (← get).vocabulary.find? fun t => t.literal == some text with
  | some t => return t.name
  | none => throw (.literalWithoutToken text)

def token (scope : Scope) (name : String) : Resolving String := do
  let s ← get
  if LexerSpec.hasName s.vocabulary name then return name
  else if scope.allowImplicit then
    set (State.mk (LexerSpec.addToken s.vocabulary name none) (s.added ++ [name]))
    return name
  else throw (.undefinedToken name)

/-- The token that a member of an exclusion names. -/
def member (scope : Scope) : Element → Resolving String
  | .literal text => literalToken text
  | .token name => token scope name
  | _ => throw .notToken

mutual
def resolve (scope : Scope) : Element → Resolving Element
  | .literal text => return .token (← literalToken text)
  | .token name => return .token (← token scope name)
  | .rule name =>
    if scope.ruleNames.contains name || scope.lenient then return .rule name
    else throw (.undefinedRule name)
  | .charSet .. => throw .setInParser
  | .not members => return .notTokens (← members.mapM (member scope))
  | .block alternatives => return .block (← resolveAlternatives scope alternatives)
  | .repeated e kind greedy => return .repeated (← resolve scope e) kind greedy
  | .any => return .any
  | .eof => return .eof
  | .notTokens names => return .notTokens names
  | .ruleAt name precedence => return .ruleAt name precedence

def resolveAll (scope : Scope) : List Element → Resolving (List Element)
  | [] => return []
  | e :: rest => return (← resolve scope e) :: (← resolveAll scope rest)

def resolveAlternative (scope : Scope) :
    AlternativeOf Element → Resolving (AlternativeOf Element)
  | ⟨elements, label, rightAssoc, commands⟩ =>
    return ⟨← resolveAll scope elements, label, rightAssoc, commands⟩

def resolveAlternatives (scope : Scope) :
    List (AlternativeOf Element) → Resolving (List (AlternativeOf Element))
  | [] => return []
  | a :: rest => return (← resolveAlternative scope a) :: (← resolveAlternatives scope rest)
end

/-- The alternatives of a parser rule; commands have no meaning at their top level. -/
def ruleAlternatives (scope : Scope) (r : Rule) : Resolving (List Alternative) :=
  r.alternatives.mapM fun a => return { ← resolveAlternative scope a with commands := [] }

end GrammarEngine.References

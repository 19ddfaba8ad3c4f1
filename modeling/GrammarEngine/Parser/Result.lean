import GrammarEngine.Files.Fault
import GrammarEngine.Parser.Search

/-!
# Parse results

The result of a run holds the tree of the entry rule, if it matched, with the tokens of the whole
input and everything that was at fault. Trees refer to tokens by their places in the stream.
-/
namespace GrammarEngine

/-- A rule with its first and last token, or a token. A rule that read nothing has no last token. -/
inductive SyntaxTree where
  | rule (index : Nat) (start : Nat) (stop : Option Nat) (children : List SyntaxTree)
  | token (index : Nat)
deriving Repr, Inhabited

namespace SyntaxTree

/-- Where a rule that starts at a place begins in the stream; past the end, where the last token
is. -/
def startIndex (input : Array Token) (place : Nat) : Nat :=
  ((input[min place (input.size - 1)]?).map Token.index).getD 0

def tokenIndex (input : Array Token) (place : Nat) : Nat :=
  ((input[place]?).map Token.index).getD 0

mutual
/-- The tree of a derivation over the visible tokens. -/
def ofDerivation (input : Array Token) : Derivation → SyntaxTree
  | .token place => .token (tokenIndex input place)
  | .rule call _ stop children =>
    .rule call.rule.toNat (startIndex input call.start)
      (if call.start < stop then some (tokenIndex input (stop - 1)) else none)
      (ofDerivations input children)

def ofDerivations (input : Array Token) : List Derivation → List SyntaxTree
  | [] => []
  | d :: rest => ofDerivation input d :: ofDerivations input rest
end

end SyntaxTree

/-- Why a run did not come to a result. -/
inductive ParsingFault where
  | unitNotFound (kind name : String)
  | noUnit (kind : String)
  | ambiguousUnit (kind : String) (candidates : List String)
  | unknownEntryRule (parser rule : String)
  | recursionLimit (rule : String) (limit : Nat)
  | unreadableInput (source : String) (reason : FileFault)
deriving Repr, DecidableEq

def ParsingFault.message : ParsingFault → String
  | unitNotFound kind name => s!"No {kind} unit named {name} is loaded"
  | noUnit kind => s!"No {kind} unit is loaded"
  | ambiguousUnit kind candidates =>
    s!"Cannot choose a {kind} unit among: " ++ String.intercalate ", " candidates
  | unknownEntryRule parser rule => s!"Parser {parser} has no rule named {rule}"
  | recursionLimit rule limit => s!"Rule nesting deeper than {limit} while parsing {rule}"
  | unreadableInput source reason => s!"Failed to read input {source}: {reason.message}"

structure ParseResult where
  root : Option SyntaxTree
  tokens : Array Token
  faults : List InputFault
  names : RecognizerNames
  entryRule : String
deriving Repr, Inhabited

namespace ParseResult

def isSuccess (r : ParseResult) : Bool := r.root.isSome && r.faults.isEmpty

def hasErrors (r : ParseResult) : Bool := !r.faults.isEmpty

def ruleName? (r : ParseResult) (index : Nat) : Option String := r.names.rules[index]?

/-- The display name of a token's type. -/
def symbol (r : ParseResult) (t : Token) : String := r.names.vocabulary.displayName t.type

mutual
/-- A rule with its children in parentheses, a rule without children by its name alone. -/
def render (r : ParseResult) : SyntaxTree → String
  | .token index => ((r.tokens[index]?).map Token.text).getD "?"
  | .rule index _ _ children =>
    let name := (r.ruleName? index).getD "?"
    if children.isEmpty then name else "(" ++ name ++ renderAll r children ++ ")"

def renderAll (r : ParseResult) : List SyntaxTree → String
  | [] => ""
  | t :: rest => " " ++ render r t ++ renderAll r rest
end

def stringTree? (r : ParseResult) : Option String := r.root.map (render r)

end ParseResult

namespace ParserProgram

/-- How deep rules may nest unless a request says otherwise. -/
def defaultMaxDepth : Nat := 8192

/-- The depths that can be asked for. -/
def clampDepth (depth : Nat) : Nat := max 1 (min depth 65536)

/-- The fault of a search that did not match: the token furthest on, and what could have stood
there. -/
def searchFault (p : ParserProgram) (input : Array Token) (s : SearchState) : InputFault :=
  let expected := s.expected.map p.names.vocabulary.displayName
  match input[min s.furthest (input.size - 1)]? with
  | some t => ⟨t.position, .unexpected t.text expected⟩
  | none => ⟨{}, .unexpected Token.eofText expected⟩

def nestingFault (p : ParserProgram) (limit : Nat) (e : NestingFault) : ParsingFault :=
  .recursionLimit ((p.ruleNames[e.rule.toNat]?).getD "") limit

/-- Search for matches of a rule at the first visible token. -/
def search (p : ParserProgram) (input : Array Token) (rule limit : Nat) :
    Except NestingFault (List (Branch Derivation) × SearchState) :=
  (Search.invoke p.bodies input limit ⟨UInt32.ofNat rule, 0, 0⟩).run {}

/-- Run a rule over a token stream. The most preferred match counts, wherever it ends. -/
def parse (p : ParserProgram) (rule : String) (stream : TokenStream) (maxDepth : Nat) :
    Except ParsingFault ParseResult :=
  match p.ruleIndex? rule with
  | none => .error (.unknownEntryRule p.name rule)
  | some index =>
    let input := stream.visible.toArray
    let limit := clampDepth maxDepth
    let result (root : Option SyntaxTree) (faults : List InputFault) : ParseResult :=
      ⟨root, stream.tokens.toArray, stream.faults ++ faults, p.names, rule⟩
    match p.search input index limit with
    | .error e => .error (p.nestingFault limit e)
    | .ok ([], s) => .ok (result none [p.searchFault input s])
    | .ok (b :: _, _) => .ok (result (some (SyntaxTree.ofDerivation input b.value)) [])

end ParserProgram

end GrammarEngine

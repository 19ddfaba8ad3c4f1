import GrammarEngine.Image.Basic
import GrammarEngine.Json.Basic

/-!
# Images as documents

A document shows an image under the name of its kind, with one member for every part of it. Parts
that come in several forms are named by their form. What a document leaves out is read as empty,
zero or false.
-/
namespace GrammarEngine

/-! ## Parts of documents -/

namespace Json

/-- A form of something with what belongs to it. -/
def form (name : String) (j : Json) : Json := .object [(name, j)]

/-- A form that is read, and what belongs to it. -/
def openForm : Json → String × Json
  | text name => (name, null)
  | object [(name, j)] => (name, j)
  | _ => ("", null)

def word (n : UInt32) : Json := .nat n.toNat

def toWord (j : Json) : UInt32 := UInt32.ofNat ((natUpTo? 0xffffffff j).getD 0)

def ofTokenType (t : TokenType) : Json := .int t.toInt

def toTokenType : Json → TokenType
  | int n => Int32.ofInt n
  | _ => 0

def texts (items : List String) : Json := .list (items.map .text)

def items : Json → List Json
  | list items => items
  | _ => []

def member (j : Json) (name : String) : Json := (j.field? name).getD null

def textAt (j : Json) (name : String) : String := (j.member name).text?.getD ""

def textsAt (j : Json) (name : String) : List String := (j.member name).items.filterMap text?

def boolAt (j : Json) (name : String) : Bool := (j.member name).bool?.getD false

def wordAt (j : Json) (name : String) : UInt32 := (j.member name).toWord

end Json

open Json

/-! ## Lexer programs -/

namespace Instruction

def pairs (rs : List (UInt32 × UInt32)) : Json := .list (rs.map fun r => .list [word r.1, word r.2])

def toPair (j : Json) : UInt32 × UInt32 :=
  match j.items with
  | [a, b] => (a.toWord, b.toWord)
  | _ => (0, 0)

def toJson : Instruction → Json
  | char code => form "Char" (word code)
  | ranges rs negated => form "Class" (.object [("ranges", pairs rs), ("negated", .bool negated)])
  | any => .text "Any"
  | split a b => form "Split" (.list [word a, word b])
  | jump target => form "Jump" (word target)
  | accept alternative => form "Match" (word alternative)

def ofJson (j : Json) : Instruction :=
  match j.openForm with
  | ("Char", v) => char v.toWord
  | ("Class", v) => ranges ((v.member "ranges").items.map toPair) (v.boolAt "negated")
  | ("Split", v) => split (toPair v).1 (toPair v).2
  | ("Jump", v) => jump v.toWord
  | ("Match", v) => accept v.toWord
  | _ => any

end Instruction

namespace LexerAction

def toJson : LexerAction → Json
  | skip => .text "Skip"
  | more => .text "More"
  | channel n => form "Channel" (word n)
  | type t => form "Type" (ofTokenType t)
  | mode m => form "Mode" (word m)
  | pushMode m => form "PushMode" (word m)
  | popMode => .text "PopMode"

def ofJson (j : Json) : LexerAction :=
  match j.openForm with
  | ("Skip", _) => skip
  | ("More", _) => more
  | ("Channel", v) => channel v.toWord
  | ("Type", v) => type v.toTokenType
  | ("Mode", v) => mode v.toWord
  | ("PushMode", v) => pushMode v.toWord
  | _ => popMode

end LexerAction

/-! ## Parser expressions -/

namespace ParseExpr

/-- The document of a form that repeats something. -/
def repeated (name : String) (body : Json) (greedy : Bool) : Json :=
  form name (.object [("body", body), ("greedy", .bool greedy)])

mutual
def toJson : ParseExpr → Json
  | empty => .text "Empty"
  | token t => form "Token" (ofTokenType t)
  | notTokens ts => form "NotTokens" (.list (ts.map ofTokenType))
  | anyToken => .text "AnyToken"
  | rule index precedence =>
    form "Rule" (.object [("index", word index), ("precedence", word precedence)])
  | seq items => form "Seq" (.list (toJsonAll items))
  | choice alternatives => form "Choice" (.list (toJsonAll alternatives))
  | optional body greedy => repeated "Optional" body.toJson greedy
  | star body greedy => repeated "Star" body.toJson greedy
  | plus body greedy => repeated "Plus" body.toJson greedy

def toJsonAll : List ParseExpr → List Json
  | [] => []
  | e :: rest => e.toJson :: toJsonAll rest
end

mutual
def ofJson : Json → ParseExpr
  | .text name => if name == "AnyToken" then anyToken else empty
  | .object [(name, j)] => ofForm name j
  | _ => empty

/-- The expression of a form with what belongs to it. -/
def ofForm (name : String) : Json → ParseExpr
  | .list items =>
    match name with
    | "Seq" => seq (ofJsonAll items)
    | "Choice" => choice (ofJsonAll items)
    | "NotTokens" => notTokens (items.map toTokenType)
    | _ => empty
  | .object fields =>
    let j := Json.object fields
    match name with
    | "Rule" => rule (j.wordAt "index") (j.wordAt "precedence")
    | "Optional" => optional (bodyOf fields) (j.boolAt "greedy")
    | "Star" => star (bodyOf fields) (j.boolAt "greedy")
    | "Plus" => plus (bodyOf fields) (j.boolAt "greedy")
    | _ => empty
  | j => if name == "Token" then token j.toTokenType else empty

def ofJsonAll : List Json → List ParseExpr
  | [] => []
  | j :: rest => ofJson j :: ofJsonAll rest

/-- The expression that a form repeats. -/
def bodyOf : List (String × Json) → ParseExpr
  | [] => empty
  | (name, j) :: rest => if name == "body" then ofJson j else bodyOf rest
end

end ParseExpr

namespace Suffix

def toJson (s : Suffix) : Json :=
  .object [("precedence", word s.precedence), ("body", s.body.toJson)]

def ofJson (j : Json) : Suffix := ⟨j.wordAt "precedence", ParseExpr.ofJson (j.member "body")⟩

end Suffix

namespace RuleBody

def toJson : RuleBody → Json
  | plain body => form "Plain" body.toJson
  | leftRecursive primary suffixes => form "LeftRecursive" (.object [
      ("primary", primary.toJson), ("suffixes", .list (suffixes.map Suffix.toJson))])

def ofJson (j : Json) : RuleBody :=
  match j.openForm with
  | ("LeftRecursive", v) =>
    leftRecursive (ParseExpr.ofJson (v.member "primary"))
      ((v.member "suffixes").items.map Suffix.ofJson)
  | (_, v) => plain (ParseExpr.ofJson v)

end RuleBody

/-! ## Images -/

namespace TokenEntry

def toJson (e : TokenEntry) : Json :=
  .object [("token_type", ofTokenType e.type), ("symbolic", .text e.symbolic),
    ("literal", .optional .text e.literal)]

def ofJson (j : Json) : TokenEntry :=
  ⟨(j.member "token_type").toTokenType, j.textAt "symbolic", (j.member "literal").text?⟩

end TokenEntry

namespace LexerHeader

def toJson (h : LexerHeader) : Json :=
  .object [("name", .text h.name), ("grammar", .text h.grammar), ("modes", texts h.modes),
    ("channels", texts h.channels), ("vocabulary", .list (h.vocabulary.map TokenEntry.toJson)),
    ("rule_units", texts h.ruleUnits)]

def ofJson (j : Json) : LexerHeader where
  name := j.textAt "name"
  grammar := j.textAt "grammar"
  modes := j.textsAt "modes"
  channels := j.textsAt "channels"
  vocabulary := (j.member "vocabulary").items.map TokenEntry.ofJson
  ruleUnits := j.textsAt "rule_units"

end LexerHeader

namespace LexerRuleImage

def toJson (r : LexerRuleImage) : Json :=
  .object [("name", .text r.name), ("token_type", ofTokenType r.tokenType), ("mode", word r.mode),
    ("shortest", .bool r.shortest), ("program", .list (r.program.map Instruction.toJson)),
    ("actions", .list (r.actions.map fun a => .list (a.map LexerAction.toJson)))]

def ofJson (j : Json) : LexerRuleImage where
  name := j.textAt "name"
  tokenType := (j.member "token_type").toTokenType
  mode := j.wordAt "mode"
  shortest := j.boolAt "shortest"
  program := (j.member "program").items.map Instruction.ofJson
  actions := (j.member "actions").items.map fun a => a.items.map LexerAction.ofJson

end LexerRuleImage

namespace ParserHeader

def toJson (h : ParserHeader) : Json :=
  .object [("name", .text h.name), ("grammar", .text h.grammar),
    ("vocabulary_unit", .text h.vocabularyUnit), ("rule_names", texts h.ruleNames),
    ("rule_units", texts h.ruleUnits), ("start_rule", word h.startRule)]

def ofJson (j : Json) : ParserHeader where
  name := j.textAt "name"
  grammar := j.textAt "grammar"
  vocabularyUnit := j.textAt "vocabulary_unit"
  ruleNames := j.textsAt "rule_names"
  ruleUnits := j.textsAt "rule_units"
  startRule := j.wordAt "start_rule"

end ParserHeader

namespace ParserRuleImage

def toJson (r : ParserRuleImage) : Json :=
  .object [("name", .text r.name), ("index", word r.index), ("body", r.body.toJson)]

def ofJson (j : Json) : ParserRuleImage :=
  ⟨j.textAt "name", j.wordAt "index", RuleBody.ofJson (j.member "body")⟩

end ParserRuleImage

namespace LibraryHeader

def toJson (h : LibraryHeader) : Json :=
  .object [("name", .text h.name), ("fragments", texts h.fragments), ("rules", texts h.rules)]

def ofJson (j : Json) : LibraryHeader :=
  ⟨j.textAt "name", j.textsAt "fragments", j.textsAt "rules"⟩

end LibraryHeader

namespace UnitImage

def toJson : UnitImage → Json
  | lexerHeader h => form "LexerHeader" h.toJson
  | lexerRule r => form "LexerRule" r.toJson
  | parserHeader h => form "ParserHeader" h.toJson
  | parserRule r => form "ParserRule" r.toJson
  | library h => form "Library" h.toJson

def ofJson (j : Json) : UnitImage :=
  match j.openForm with
  | ("LexerHeader", v) => lexerHeader (LexerHeader.ofJson v)
  | ("LexerRule", v) => lexerRule (LexerRuleImage.ofJson v)
  | ("ParserHeader", v) => parserHeader (ParserHeader.ofJson v)
  | ("ParserRule", v) => parserRule (ParserRuleImage.ofJson v)
  | (_, v) => library (LibraryHeader.ofJson v)

end UnitImage

end GrammarEngine

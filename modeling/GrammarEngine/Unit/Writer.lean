import GrammarEngine.Analysis.Basic
import GrammarEngine.Unit.Form

/-!
# Recognizers as units

An analysed lexer or parser is laid out as a unit: clauses for its properties, one clause for each
token of a lexer, and one clause with a line for each alternative of every rule. Blocks become
sequences and choices; their labels and commands are not written.
-/
namespace GrammarEngine.UnitText

/-- The comment with which every generated unit starts. -/
def generatedFrom (file : String) : String :=
  s!"Generated by ingram 0.1.0 from {file}. Do not edit."

def rangeForm (r : Char × Char) : Form := .node "range" [.nat r.1.toNat, .nat r.2.toNat]

def setForm (ranges : List (Char × Char)) (negated : Bool) : Form :=
  .node (if negated then "nset" else "set") (ranges.map rangeForm)

def repetitionName (kind : Repetition) (greedy : Bool) : String :=
  let head := match kind with
    | .optional => "opt"
    | .zeroOrMore => "star"
    | .oneOrMore => "plus"
  if greedy then head else head ++ "-lazy"

def tokenNames (members : List Element) : List String :=
  members.filterMap fun
    | .token name => some name
    | _ => none

def memberRanges (members : List Element) : List (Char × Char) :=
  members.flatMap fun
    | .charSet ranges _ => ranges
    | .literal text => text.toList.map fun c => (c, c)
    | _ => []

/-- Which kind of rule an element stands in. -/
inductive RuleKind where
  | lexer
  | parser
deriving Repr, DecidableEq

/-- The form of the elements of an alternative inside a block. -/
def sequenceForm : List Form → Form
  | [] => .node "empty" []
  | [f] => f
  | fs => .node "seq" fs

/-- The form of a block of alternatives. -/
def choiceForm : List Form → Form
  | [f] => f
  | fs => .node "choice" fs

mutual
def elementForm (kind : RuleKind) : Element → Form
  | .literal text => .node "lit" [.text text]
  | .token name => .node (if kind = .lexer then "ref" else "tok") [.text name]
  | .rule name => .node "invoke" [.text name]
  | .ruleAt name precedence => .node "invoke" [.text name, .nat precedence]
  | .charSet ranges negated => setForm ranges negated
  | .any => .node "any" []
  | .eof => .node "eof" []
  | .notTokens names => .node "ntok" (names.map .text)
  | .not members =>
    if kind = .lexer then setForm (memberRanges members) true
    else .node "ntok" ((tokenNames members).map .text)
  | .block alternatives => choiceForm (blockForms kind alternatives)
  | .repeated e repetition greedy => .node (repetitionName repetition greedy) [elementForm kind e]

def elementForms (kind : RuleKind) : List Element → List Form
  | [] => []
  | e :: rest => elementForm kind e :: elementForms kind rest

def blockForm (kind : RuleKind) : AlternativeOf Element → Form
  | ⟨elements, _, _, _⟩ => sequenceForm (elementForms kind elements)

def blockForms (kind : RuleKind) : List (AlternativeOf Element) → List Form
  | [] => []
  | a :: rest => blockForm kind a :: blockForms kind rest
end

def commandForm : LexerCommand → Form
  | .skip => .node "skip" []
  | .more => .node "more" []
  | .popMode => .node "pop-mode" []
  | .channel name => .node "channel" [.text name]
  | .type name => .node "type" [.text name]
  | .mode name => .node "mode" [.text name]
  | .pushMode name => .node "push-mode" [.text name]

/-- The form of an alternative of a rule. -/
def alternativeForm (kind : RuleKind) (a : Alternative) : Form :=
  .node "alt" (elementForms kind a.elements ++ a.commands.map commandForm)

def textClause (head : String) (s : String) : Clause := ⟨[.symbol head, .text s], []⟩

def namesClause (head : String) (names : List String) : Clause :=
  ⟨.symbol head :: names.map .text, []⟩

def tokenClause (t : TokenSpec) : Clause :=
  ⟨[.symbol "token", .nat t.type, .text t.name] ++ (t.literal.map Form.text).toList, []⟩

def lexerRuleClause (r : LexerRuleSpec) : Clause :=
  let first := match r.tokenType with
    | some type => [.symbol "rule", .text r.name, .nat type, .text r.mode]
    | none => [.symbol "fragment", .text r.name]
  ⟨first, r.alternatives.map (alternativeForm .lexer)⟩

/-- The layout of a lexer unit generated from a file. -/
def ofLexer (spec : LexerSpec) (file : String) : UnitText where
  comment := generatedFrom file
  first := [.symbol "lexer", .text spec.unit]
  clauses :=
    [textClause "grammar" spec.grammar] ++
    (if spec.caseInsensitive then [⟨[.symbol "case-insensitive"], []⟩] else []) ++
    (spec.extends.map (textClause "extends")).toList ++
    (if spec.channels.isEmpty then [] else [namesClause "channels" spec.channels]) ++
    [namesClause "modes" spec.modes] ++
    spec.vocabulary.map tokenClause ++
    spec.rules.map lexerRuleClause

def suffixForm (s : SuffixSpec) : Form :=
  .node "suffix" [.nat s.precedence, .node "alt" (elementForms .parser s.elements)]

def parserRuleClause : ParserRuleSpec → Clause
  | .plain name alternatives =>
    ⟨[.symbol "rule", .text name], alternatives.map (alternativeForm .parser)⟩
  | .leftRecursive name primaries suffixes =>
    ⟨[.symbol "lrule", .text name],
      primaries.map (fun a => .node "primary" [alternativeForm .parser a]) ++
        suffixes.map suffixForm⟩

/-- The layout of a parser unit generated from a file. -/
def ofParser (spec : ParserSpec) (file : String) : UnitText where
  comment := generatedFrom file
  first := [.symbol "parser", .text spec.unit]
  clauses :=
    [textClause "grammar" spec.grammar, textClause "vocab" spec.vocabularyUnit] ++
    (spec.extends.map (textClause "extends")).toList ++
    [textClause "start" spec.startRule] ++
    spec.rules.map parserRuleClause

end GrammarEngine.UnitText

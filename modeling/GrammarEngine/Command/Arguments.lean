import GrammarEngine.Command.Line
import GrammarEngine.Stream

/-!
# Commands and their arguments

There are three commands: to compile grammars, to parse an input, and to inspect a container. Every
command takes the path of a settings document; it may stand before the name of the command too, but
what stands behind it counts.
-/
namespace GrammarEngine.Command

/-- The form in which a tree is printed. -/
inductive TreeFormat where
  | tree
  | dot
  | json
deriving Repr, DecidableEq

def TreeFormat.ofName? : String → Option TreeFormat
  | "tree" => some .tree
  | "dot" => some .dot
  | "json" => some .json
  | _ => none

structure CompileArguments where
  grammars : List String
  output : Option String
  force : Bool
  package : Option String
  utilities : List String
  emitDir : Option String
deriving Repr, DecidableEq

/-- Where the recognizer of a parse comes from. -/
inductive RecognizerSource where
  | grammars (paths : List String)
  | bundle (path : String)
deriving Repr, DecidableEq

structure ParseArguments where
  source : RecognizerSource
  rule : Option String
  folding : Option CaseFolding
  format : TreeFormat
  input : String
deriving Repr, DecidableEq

inductive Task where
  | compile (arguments : CompileArguments)
  | parse (arguments : ParseArguments)
  | inspect (bundle : String)
deriving Repr, DecidableEq

structure Request where
  config : Option String
  task : Task
deriving Repr, DecidableEq

/-! ## What may be given -/

def isPath (s : String) : Bool := s != ""

def folding? (s : String) : Option CaseFolding := (CaseFolding.parse s).toOption

def path (name : String) (letter : Option Char := none) (kind : OptionKind := .value) :
    OptionRule :=
  { name, letter, kind, accepts := isPath }

/-- Options that can be given anywhere. How much is logged makes no difference to what is done. -/
def common : List OptionRule :=
  [path "config", { name := "verbose", letter := some 'v', kind := .counter },
    { name := "help", letter := some 'h', kind := .halt .help }]

def topSignature : Signature where
  options := common ++ [{ name := "version", letter := some 'V', kind := .halt .version }]
  limit := some 0
  operandEnds := true

def compileSignature : Signature where
  options := common ++ [path "output" (some 'o'), { name := "force", kind := .switch },
    { name := "package", kind := .value }, path "utility" none .values, path "emit-dir"]

def parseSignature : Signature where
  options := common ++ [path "grammar" none .values, path "bundle",
    { name := "rule", kind := .value },
    { name := "case", kind := .value, accepts := fun s => (folding? s).isSome },
    { name := "format", kind := .value, accepts := fun s => (TreeFormat.ofName? s).isSome }]
  limit := some 1

def inspectSignature : Signature where
  options := common
  limit := some 1

/-! ## Reading -/

/-- The only operand. -/
def single (g : Given) : Except Halt String :=
  match g.operands with
  | [s] => .ok s
  | _ => .error .usage

def compileTask (g : Given) : Except Halt Task :=
  if g.operands.isEmpty then .error .usage
  else .ok (.compile {
    grammars := g.operands
    output := g.value? "output"
    force := g.has "force"
    package := g.value? "package"
    utilities := g.values "utility"
    emitDir := g.value? "emit-dir" })

/-- Grammars or a container are given, but not both. -/
def recognizerSource (g : Given) : Except Halt RecognizerSource :=
  match g.value? "bundle", g.values "grammar" with
  | some bundle, [] => .ok (.bundle bundle)
  | none, g :: more => .ok (.grammars (g :: more))
  | _, _ => .error .usage

def parseTask (g : Given) : Except Halt Task := do
  return .parse {
    source := ← recognizerSource g
    rule := g.value? "rule"
    folding := (g.value? "case").bind folding?
    format := ((g.value? "format").bind TreeFormat.ofName?).getD .tree
    input := ← single g }

def inspectTask (g : Given) : Except Halt Task := (single g).map .inspect

/-- The commands by name. -/
def commands : List (String × Signature × (Given → Except Halt Task)) :=
  [("compile", compileSignature, compileTask), ("parse", parseSignature, parseTask),
    ("inspect", inspectSignature, inspectTask)]

/-- A request for help may name a command. -/
def helpOn (names : List String) : Halt :=
  match names with
  | [] => .help
  | [name] => if name == "help" || commands.any fun c => c.1 == name then .help else .usage
  | _ => .usage

/-- The request that arguments make. -/
def Request.read (arguments : List String) : Except Halt Request := do
  let (top, rest) ← topSignature.read arguments none {}
  match rest with
  | [] => throw .usage
  | name :: rest =>
    if name == "help" then throw (helpOn rest)
    match commands.lookup name with
    | none => throw .usage
    | some (rules, task) =>
      let (given, _) ← rules.read rest none {}
      return ⟨(given.value? "config").or (top.value? "config"), ← task given⟩

end GrammarEngine.Command

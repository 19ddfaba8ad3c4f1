import GrammarEngine.Engine.Fault
import GrammarEngine.Recognizer.Run
import GrammarEngine.Tree.Basic

/-!
# Engines

An engine turns a grammar into a recognizer and texts into trees. It is compiled from its grammar or
loaded from a container; from then on it can parse and be stored. Compiling and loading replace
everything at once or change nothing. A listener, where one is attached, holds the tree of the last
parse.

What a parse uses is looked up in its options first, then in the configuration, and then in the
metadata of what is loaded.
-/
namespace GrammarEngine

/-- Generators make units of a set of grammar files. -/
abbrev Generator := List GrammarFile → GenerationOptions → Except GenerationError GeneratedUnits

/-- A recognizer with what it was made of. There are generated units only if it was compiled, and
`parsed` says whether it has produced a tree. -/
structure LoadedBundle where
  artifacts : BundleSet
  recognizer : Recognizer
  metadata : Metadata
  generated : Option GeneratedUnits := none
  parsed : Bool := false

structure Engine where
  grammar : Option (List GrammarFile) := none
  config : EngineConfig := {}
  generator : Generator := GeneratedUnits.ofFiles
  compiler : Compiler := Compiler.units
  loaded : Option LoadedBundle := none
  listener : Option TreeListener := some {}

namespace Engine

def state (e : Engine) : Lifecycle :=
  match e.loaded with
  | none => .uncompiled
  | some b => if b.parsed then .ready else .compiled

def recognizer? (e : Engine) : Option Recognizer := e.loaded.map LoadedBundle.recognizer

def artifacts? (e : Engine) : Option BundleSet := e.loaded.map LoadedBundle.artifacts

def metadata? (e : Engine) : Option Metadata := e.loaded.map LoadedBundle.metadata

def generated? (e : Engine) : Option GeneratedUnits := e.loaded.bind LoadedBundle.generated

/-- The tree of the last parse. -/
def tree? (e : Engine) : Option ParseTree := e.listener.bind TreeListener.tree

def classifier (e : Engine) : NamingScheme := e.config.classifier.getD {}

/-- What is loaded, for an operation that needs it. -/
def requireLoaded (e : Engine) (operation : String) : Except EngineFault LoadedBundle :=
  match e.loaded with
  | some b => .ok b
  | none => .error (.workflow (.notLoaded operation e.state))

/-! ## Compiling and loading -/

/-- Replace what is loaded; the listener's tree goes with it. -/
def install (e : Engine) (b : LoadedBundle) : Engine :=
  { e with loaded := some b, listener := e.listener.map TreeListener.reset }

/-- The metadata of a compiled grammar. A parser that was asked for goes with its own lexer. -/
def compiledMetadata (e : Engine) (files : List GrammarFile) (g : GeneratedUnits) : Metadata where
  grammarName := g.grammarName
  grammarFiles := files.map GrammarFile.name
  lexer := e.config.lexer.or (if e.config.parser.isNone then g.lexer else none)
  parser := e.config.parser.or g.parser
  entryRule := e.config.entryRule
  folding := e.config.folding

/-- Generate units from the grammar, compile them with the utility units, and load the result. -/
def compile (e : Engine) : Except EngineFault Engine :=
  match e.grammar with
  | none => .error (.workflow (.noGrammar e.state))
  | some files => do
    let g ← (e.generator files e.config.generationOptions).mapError .generation
    let sources := g.units ++ e.config.utilities
    let artifacts ← (BundleSet.compile e.compiler e.classifier sources).mapError .compilation
    let recognizer ← (Recognizer.load artifacts).mapError .load
    let metadata := e.compiledMetadata files g
    return e.install { artifacts, recognizer, metadata, generated := some g }

/-- Load what a container holds. -/
def loadBundle (e : Engine) (p : PersistedBundle) (l : Container.Library := .plain) :
    Except EngineFault Engine := do
  let (artifacts, metadata) ← (p.restore e.classifier l).mapError .restore
  let recognizer ← (Recognizer.load artifacts).mapError .load
  return e.install { artifacts, recognizer, metadata }

/-- The container of what is loaded, made at a given time. -/
def pack (e : Engine) (createdAt : String) (l : Container.Library := .plain) :
    Except EngineFault PersistedBundle := do
  let b ← e.requireLoaded "store"
  return PersistedBundle.store b.artifacts b.metadata createdAt l

/-! ## Parsing -/

/-- The request of a parse. -/
def request (e : Engine) (options : ParseOptions) : RunRequest :=
  let metadata := e.metadata?.getD {}
  { lexer := e.config.lexer.or metadata.lexer
    parser := e.config.parser.or metadata.parser
    entryRule := (options.entryRule.or e.config.entryRule).or metadata.entryRule
    folding := options.folding.getD metadata.folding
    maxDepth := e.config.maxDepth }

/-- The result of a parse, which changes nothing. -/
def run (e : Engine) (stream : CharStream) (options : ParseOptions) :
    Except EngineFault ParseResult := do
  let b ← e.requireLoaded "parse"
  (b.recognizer.run stream (e.request options)).mapError .parsing

/-- A result with a root makes an engine ready. -/
def noteResult (e : Engine) (r : ParseResult) : Engine :=
  if r.root.isSome then { e with loaded := e.loaded.map fun b => { b with parsed := true } } else e

/-- Parse a stream and show the result to the listener. -/
def parse (e : Engine) (stream : CharStream) (options : ParseOptions) :
    Except EngineFault (ParseResult × Engine) := do
  let r ← e.run stream options
  let heard : Engine := { e with listener := e.listener.map fun l => l.hear r }
  return (r, heard.noteResult r)

/-- Parse what was read from a source of some name. -/
def parseContents (e : Engine) (name : String) (contents : Except FileFault String)
    (options : ParseOptions) : Except EngineFault (ParseResult × Engine) :=
  match contents with
  | .ok text => e.parse (CharStream.ofString name text) options
  | .error reason => .error (.parsing (.unreadableInput name reason))

/-- Parse bytes that hold a text. -/
def parseBytes (e : Engine) (name : String) (bytes : List UInt8) (options : ParseOptions) :
    Except EngineFault (ParseResult × Engine) :=
  e.parseContents name (FileSystem.textOf bytes) options

/-- Parse a text for a listener that is not attached. -/
def parseAside (e : Engine) (text : String) (options : ParseOptions) :
    Except EngineFault (ParseResult × Engine) := do
  let r ← e.run (CharStream.ofString CharStream.unknownName text) options
  return (r, e.noteResult r)

/-! ## Descriptions -/

/-- The parser of a parse without options. -/
def parser? (e : Engine) : Option ParserProgram :=
  e.recognizer?.bind fun r => (r.selectParser (e.request {}).parser).toOption

/-- The lexer of a parse without options. -/
def lexer? (e : Engine) : Option LexerProgram := do
  let r ← e.recognizer?
  let p ← e.parser?
  (r.selectLexer (e.request {}).lexer p).toOption

/-- The rules of the parser that is used by default. -/
def ruleNames (e : Engine) : List String := (e.parser?.map ParserProgram.ruleNames).getD []

/-- The warnings of the last compilation. -/
def warnings (e : Engine) : List String := (e.generated?.map GeneratedUnits.warnings).getD []

end Engine

end GrammarEngine

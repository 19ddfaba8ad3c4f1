import GrammarEngine.Analysis.Basic
import GrammarEngine.Analysis.Grammars
import GrammarEngine.Analysis.Imports
import GrammarEngine.Analysis.LeftRecursion
import GrammarEngine.Analysis.Lexer
import GrammarEngine.Analysis.References
import GrammarEngine.Archive.Bytes
import GrammarEngine.Archive.Directory
import GrammarEngine.Archive.EntryName
import GrammarEngine.Archive.Header
import GrammarEngine.Archive.Inflate
import GrammarEngine.Archive.Zip
import GrammarEngine.Bundle.Basic
import GrammarEngine.Bundle.Classifier
import GrammarEngine.Command.Arguments
import GrammarEngine.Command.Line
import GrammarEngine.Command.Run
import GrammarEngine.Compile.Automaton
import GrammarEngine.Compile.Bundling
import GrammarEngine.Compile.CharRanges
import GrammarEngine.Compile.Fault
import GrammarEngine.Compile.Lexer
import GrammarEngine.Compile.Parser
import GrammarEngine.Container.Edit
import GrammarEngine.Container.Manifest
import GrammarEngine.Container.Pack
import GrammarEngine.Container.Restore
import GrammarEngine.Container.Timestamp
import GrammarEngine.Digest.Sha256
import GrammarEngine.Engine.Basic
import GrammarEngine.Engine.Config
import GrammarEngine.Engine.Fault
import GrammarEngine.Engine.Files
import GrammarEngine.Files.Fault
import GrammarEngine.Files.Path
import GrammarEngine.Files.System
import GrammarEngine.Files.Tree
import GrammarEngine.Generation
import GrammarEngine.Grammar.Basic
import GrammarEngine.Grammar.Error
import GrammarEngine.Grammar.Lexeme
import GrammarEngine.Grammar.Literal
import GrammarEngine.Grammar.Reader
import GrammarEngine.Image.Basic
import GrammarEngine.Image.Document
import GrammarEngine.Image.Encoding
import GrammarEngine.InputFault
import GrammarEngine.Json.Basic
import GrammarEngine.Json.Number
import GrammarEngine.Json.Path
import GrammarEngine.Json.Printer
import GrammarEngine.Json.Reader
import GrammarEngine.Lexer.Match
import GrammarEngine.Lexer.Program
import GrammarEngine.Lexer.Tokenize
import GrammarEngine.Main
import GrammarEngine.Notation.Sexpr
import GrammarEngine.Notation.Sexpr.Reader
import GrammarEngine.Parser.Program
import GrammarEngine.Parser.Result
import GrammarEngine.Parser.Search
import GrammarEngine.Proofs.Acceptance.Generation
import GrammarEngine.Proofs.Acceptance.LexerSpecs
import GrammarEngine.Proofs.Acceptance.Lexers
import GrammarEngine.Proofs.Acceptance.Parsers
import GrammarEngine.Proofs.Acceptance.Seeds
import GrammarEngine.Proofs.Acceptance.Units
import GrammarEngine.Proofs.Analysis.Commands
import GrammarEngine.Proofs.Analysis.FileNames
import GrammarEngine.Proofs.Analysis.Grammars
import GrammarEngine.Proofs.Analysis.Imports
import GrammarEngine.Proofs.Analysis.Lexer
import GrammarEngine.Proofs.Analysis.LiteralLaw
import GrammarEngine.Proofs.Analysis.Parser
import GrammarEngine.Proofs.Analysis.Spelling
import GrammarEngine.Proofs.Analysis.Vocabulary
import GrammarEngine.Proofs.Analysis.VocabularyLaw
import GrammarEngine.Proofs.Archive.EntryNames
import GrammarEngine.Proofs.Archive.RoundTrip
import GrammarEngine.Proofs.Automaton.CharRanges
import GrammarEngine.Proofs.Automaton.Emission
import GrammarEngine.Proofs.Automaton.Emitters
import GrammarEngine.Proofs.Automaton.Instructions
import GrammarEngine.Proofs.Automaton.Language
import GrammarEngine.Proofs.Automaton.LetterCase
import GrammarEngine.Proofs.Automaton.Refusals
import GrammarEngine.Proofs.Automaton.Rules
import GrammarEngine.Proofs.Bundle.Assignment
import GrammarEngine.Proofs.Bundle.Calls
import GrammarEngine.Proofs.Bundle.Classification
import GrammarEngine.Proofs.Bundle.Grouping
import GrammarEngine.Proofs.Bundle.Parts
import GrammarEngine.Proofs.Checked
import GrammarEngine.Proofs.Compile.Edges
import GrammarEngine.Proofs.Compile.FileNames
import GrammarEngine.Proofs.Compile.Lexers
import GrammarEngine.Proofs.Compile.Libraries
import GrammarEngine.Proofs.Compile.Linking
import GrammarEngine.Proofs.Compile.Literals
import GrammarEngine.Proofs.Compile.Order
import GrammarEngine.Proofs.Compile.Parsers
import GrammarEngine.Proofs.Compile.Programs
import GrammarEngine.Proofs.Compile.Units
import GrammarEngine.Proofs.Container.Admission
import GrammarEngine.Proofs.Container.RoundTrip
import GrammarEngine.Proofs.Engine.Fields
import GrammarEngine.Proofs.Engine.Operations
import GrammarEngine.Proofs.Engine.Restored
import GrammarEngine.Proofs.Engine.Selection
import GrammarEngine.Proofs.FirstOccurrences
import GrammarEngine.Proofs.Grammar.Escapes
import GrammarEngine.Proofs.Grammar.Lexemes
import GrammarEngine.Proofs.Grammar.Read
import GrammarEngine.Proofs.Image.Encoding
import GrammarEngine.Proofs.Image.Format
import GrammarEngine.Proofs.Image.Truncation
import GrammarEngine.Proofs.Json.Documents
import GrammarEngine.Proofs.LeftRecursion.Cycles
import GrammarEngine.Proofs.LeftRecursion.Edges
import GrammarEngine.Proofs.LeftRecursion.Language
import GrammarEngine.Proofs.LeftRecursion.Parts
import GrammarEngine.Proofs.Lexer.Advances
import GrammarEngine.Proofs.Lexer.Coverage
import GrammarEngine.Proofs.Lexer.Folding
import GrammarEngine.Proofs.Lexer.Marks
import GrammarEngine.Proofs.Lexer.Matches
import GrammarEngine.Proofs.Lexer.MaximalMunch
import GrammarEngine.Proofs.Lexer.Streams
import GrammarEngine.Proofs.Lexer.Threads
import GrammarEngine.Proofs.Notation.Forms
import GrammarEngine.Proofs.Notation.Reading
import GrammarEngine.Proofs.Notation.Written
import GrammarEngine.Proofs.Parser.Depth
import GrammarEngine.Proofs.Parser.Enumeration
import GrammarEngine.Proofs.Parser.Furthest
import GrammarEngine.Proofs.Parser.Growth
import GrammarEngine.Proofs.Parser.Language
import GrammarEngine.Proofs.Parser.Lowering
import GrammarEngine.Proofs.Parser.Memory
import GrammarEngine.Proofs.Parser.Operands
import GrammarEngine.Proofs.Parser.Operators
import GrammarEngine.Proofs.Parser.Preference
import GrammarEngine.Proofs.Parser.Recognition
import GrammarEngine.Proofs.Parser.Refusals
import GrammarEngine.Proofs.Parser.Run
import GrammarEngine.Proofs.Parser.Seeds
import GrammarEngine.Proofs.Parser.Soundness
import GrammarEngine.Proofs.Recognizer.Arena
import GrammarEngine.Proofs.Recognizer.Linked
import GrammarEngine.Proofs.Recognizer.Loading
import GrammarEngine.Proofs.Recognizer.Registered
import GrammarEngine.Proofs.Recognizer.Reports
import GrammarEngine.Proofs.Recognizer.Tiling
import GrammarEngine.Proofs.Recognizer.TokenTypes
import GrammarEngine.Proofs.Recognizer.TreeSpans
import GrammarEngine.Proofs.Search.Branches
import GrammarEngine.Proofs.Search.Firsts
import GrammarEngine.Proofs.Search.Refusals
import GrammarEngine.Proofs.Search.Unfolding
import GrammarEngine.Proofs.Search.Visit
import GrammarEngine.Proofs.Tabled.Expressions
import GrammarEngine.Proofs.Tabled.Follows
import GrammarEngine.Proofs.Tabled.Machine
import GrammarEngine.Proofs.Tabled.Programs
import GrammarEngine.Proofs.Tabled.Rules
import GrammarEngine.Proofs.Text
import GrammarEngine.Proofs.Tree.Arena
import GrammarEngine.Proofs.Tree.Shown
import GrammarEngine.Proofs.Tree.Spans
import GrammarEngine.Proofs.Tree.Subtrees
import GrammarEngine.Proofs.Unit.Clauses
import GrammarEngine.Proofs.Unit.Declared
import GrammarEngine.Proofs.Unit.Lexers
import GrammarEngine.Proofs.Unit.Marks
import GrammarEngine.Proofs.Unit.Parsers
import GrammarEngine.Proofs.Unit.RoundTrip
import GrammarEngine.Recognizer.Basic
import GrammarEngine.Recognizer.Fault
import GrammarEngine.Recognizer.Run
import GrammarEngine.Rope
import GrammarEngine.Sorted
import GrammarEngine.Stream
import GrammarEngine.Text.Case
import GrammarEngine.Text.Class
import GrammarEngine.Text.Lossy
import GrammarEngine.Text.Numeral
import GrammarEngine.Text.Position
import GrammarEngine.Text.Quoted
import GrammarEngine.Text.Utf8
import GrammarEngine.Token
import GrammarEngine.Tree.Basic
import GrammarEngine.Tree.Event
import GrammarEngine.Tree.Render
import GrammarEngine.Unit.Declaration
import GrammarEngine.Unit.Declaration.Reader
import GrammarEngine.Unit.Form
import GrammarEngine.Unit.Source
import GrammarEngine.Unit.Writer
import GrammarEngine.Vocabulary

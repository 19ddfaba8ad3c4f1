import GrammarEngine.InputFault
import GrammarEngine.Vocabulary

/-!
# Tokens

A token is a span of the input with a type and a channel. Parsers see the tokens of the default
channel only; the stream keeps all of them, and the last one stands for the end of the input.
-/
namespace GrammarEngine

/-- The channel that parsers read. -/
def defaultChannel : UInt32 := 0

/-- A span of the input between two character offsets; `index` is its place in the stream. -/
structure Token where
  type : TokenType
  channel : UInt32
  text : String
  start : Nat
  stop : Nat
  position : InputPosition
  index : Nat
deriving Repr, DecidableEq, Inhabited

namespace Token

def isEof (t : Token) : Bool := t.type == TokenType.eof

def isVisible (t : Token) : Bool := t.channel == defaultChannel

/-- What is shown for the end of the input. -/
def eofText : String := "<EOF>"

end Token

structure TokenStream where
  tokens : List Token
  faults : List InputFault
deriving Repr, DecidableEq, Inhabited

namespace TokenStream

/-- The tokens that parsers see. -/
def visible (s : TokenStream) : List Token := s.tokens.filter Token.isVisible

theorem isVisible_of_mem_visible {s : TokenStream} {t : Token} (h : t ∈ s.visible) :
    t.isVisible = true :=
  (List.mem_filter.mp h).2

theorem mem_tokens_of_mem_visible {s : TokenStream} {t : Token} (h : t ∈ s.visible) :
    t ∈ s.tokens :=
  (List.mem_filter.mp h).1

end TokenStream

end GrammarEngine

import GrammarEngine.Lexer.Match
import GrammarEngine.Stream

/-!
# Token streams of a text

At every offset the rules of the current mode compete: the longest match wins, among equal ones the
first rule. A match is emitted, skipped, or kept as the beginning of the next piece; where no rule
matches, one character is reported together with what was kept. The pieces follow one another, and
the stream is read off them.
-/
namespace GrammarEngine

/-- An offset of a text with its line and column. -/
structure Place where
  offset : Nat := 0
  position : InputPosition := {}
deriving Repr, DecidableEq, Inhabited

namespace Place

/-- The place after a text that starts here. -/
def after (p : Place) (cs : List Char) : Place := ⟨p.offset + cs.length, p.position.after cs⟩

theorem after_append (p : Place) (cs ds : List Char) :
    p.after (cs ++ ds) = (p.after cs).after ds := by
  simp [after, InputPosition.after_append, Nat.add_assoc]

end Place

/-- What becomes of a piece of the input. -/
inductive PieceKind where
  | token (type : TokenType) (channel : UInt32)
  | skipped
  | unrecognized
deriving Repr, DecidableEq

structure Piece where
  start : Place
  stop : Place
  kind : PieceKind
deriving Repr, DecidableEq

/-- The mode a lexer is in, and those it returns to. -/
structure ModeState where
  current : UInt32 := 0
  outer : List UInt32 := []
deriving Repr, DecidableEq, Inhabited

namespace ModeState

def push (m : ModeState) (mode : UInt32) : ModeState := ⟨mode, m.current :: m.outer⟩

/-- Return to the mode before; without one the mode stays. -/
def pop (m : ModeState) : ModeState :=
  match m.outer with
  | [] => m
  | mode :: outer => ⟨mode, outer⟩

end ModeState

/-- What the actions of a match add up to. -/
structure MatchEffect where
  type : TokenType
  channel : UInt32 := defaultChannel
  skip : Bool := false
  more : Bool := false
  modes : ModeState
deriving Repr, DecidableEq

namespace MatchEffect

def apply (e : MatchEffect) : LexerAction → MatchEffect
  | .skip => { e with skip := true }
  | .more => { e with more := true }
  | .channel c => { e with channel := c }
  | .type t => { e with type := t }
  | .mode m => { e with modes := { e.modes with current := m } }
  | .pushMode m => { e with modes := e.modes.push m }
  | .popMode => { e with modes := e.modes.pop }

/-- A match that is to be continued yields no piece of its own. -/
def kind? (e : MatchEffect) : Option PieceKind :=
  if e.more then none
  else if e.skip then some .skipped
  else some (.token e.type e.channel)

end MatchEffect

namespace LexerProgram

/-- The match that wins at some offset, with its rule. -/
structure Winner where
  rule : LexerRule
  length : Nat
  alternative : Nat
deriving Repr, DecidableEq

/-- A rule takes over only with a longer match. -/
def contend (see : Char → Char) (text : List Char) (best : Option Winner) (r : LexerRule) :
    Option Winner :=
  match r.match? see text with
  | none => best
  | some m =>
    if (best.map Winner.length).getD 0 < m.length then some ⟨r, m.length, m.alternative⟩ else best

/-- The winner among the rules of a mode. Empty matches do not count. -/
def winner? (p : LexerProgram) (see : Char → Char) (mode : UInt32) (text : List Char) :
    Option Winner :=
  (p.rules.filter fun r => r.mode == mode).foldl (contend see text) none

def Winner.effect (w : Winner) (modes : ModeState) : MatchEffect :=
  ((w.rule.actions[w.alternative]?).getD []).foldl MatchEffect.apply
    { type := w.rule.tokenType, modes }

/-- The pieces of a text that starts at a place; `pending` is where a piece began that is to be
continued. Rules see the folded text. -/
def pieces (p : LexerProgram) (folding : CaseFolding) (modes : ModeState) (pending : Option Place)
    (here : Place) : List Char → List Piece
  | [] => []
  | c :: tail =>
    let start := pending.getD here
    match p.winner? folding.fold modes.current (c :: tail) with
    | none =>
      let next := here.after [c]
      ⟨start, next, .unrecognized⟩ :: pieces p folding modes none next tail
    | some w =>
      let effect := w.effect modes
      let next := here.after (c :: tail.take (w.length - 1))
      let rest := tail.drop (w.length - 1)
      match effect.kind? with
      | none => pieces p folding effect.modes (some start) next rest
      | some kind => ⟨start, next, kind⟩ :: pieces p folding effect.modes none next rest
termination_by text => text.length
decreasing_by all_goals (simp only [List.length_cons, List.length_drop]; omega)

end LexerProgram

namespace Piece

def text (s : CharStream) (p : Piece) : String := s.slice p.start.offset p.stop.offset

/-- The token of a piece at a place of the stream. -/
def token (s : CharStream) (p : Piece) (type : TokenType) (channel : UInt32) (index : Nat) :
    Token :=
  ⟨type, channel, p.text s, p.start.offset, p.stop.offset, p.start.position, index⟩

/-- The tokens among pieces, numbered from a given index on. -/
def tokens (s : CharStream) : Nat → List Piece → List Token
  | _, [] => []
  | index, p :: rest =>
    match p.kind with
    | .token type channel => p.token s type channel index :: tokens s (index + 1) rest
    | _ => tokens s index rest

def fault? (s : CharStream) (p : Piece) : Option InputFault :=
  match p.kind with
  | .unrecognized => some ⟨p.start.position, .unrecognized (p.text s)⟩
  | _ => none

end Piece

/-- The token for the end of the input. -/
def Token.atEnd (p : Place) (index : Nat) : Token :=
  ⟨TokenType.eof, defaultChannel, Token.eofText, p.offset, p.offset, p.position, index⟩

/-- The tokens of a text with the end of the input behind them, and what was not recognized. -/
def LexerProgram.tokenize (p : LexerProgram) (s : CharStream) : TokenStream :=
  let pieces := p.pieces s.folding {} none {} s.text.toList
  let tokens := Piece.tokens s 0 pieces
  let finish := Place.after {} s.text.toList
  ⟨tokens ++ [Token.atEnd finish tokens.length], pieces.filterMap (Piece.fault? s)⟩

end GrammarEngine

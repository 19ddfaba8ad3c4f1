import GrammarEngine.Lexer.Program

/-!
# Matching a lexer rule

The code of a rule is run on all paths at once. A thread is an address of the code; after each
character the threads are the addresses reachable without reading more. Threads that stand at an
`accept` report a match that ends there, and the least alternative among them counts.

A rule looks for its longest match, or for its shortest one that is not empty. It reads characters
in the form in which `see` shows them.
-/
namespace GrammarEngine

/-- Programs of lexer rules. -/
abbrev LexerCode := Array Instruction

namespace LexerCode

/-- The addresses that follow without reading a character. -/
def successors : Instruction → List Nat
  | .split first second => [first.toNat, second.toNat]
  | .jump target => [target.toNat]
  | _ => []

/-- Add to a set of threads all addresses reachable from those that are pending. Every address is
expanded once and leaves two more pending ones at most, so the bound of `close` is never met. -/
def closeWithin (code : LexerCode) : Nat → List Nat → List Nat → List Nat
  | 0, threads, _ => threads
  | _ + 1, threads, [] => threads
  | bound + 1, threads, pc :: pending =>
    match code[pc]? with
    | none => closeWithin code bound threads pending
    | some i =>
      if threads.contains pc then closeWithin code bound threads pending
      else closeWithin code bound (pc :: threads) (successors i ++ pending)

def close (code : LexerCode) (threads : List Nat) (pc : Nat) : List Nat :=
  closeWithin code (2 * code.size + 2) threads [pc]

/-- The threads before the first character. -/
def start (code : LexerCode) : List Nat := close code [] 0

def inRanges (code : UInt32) (ranges : List (UInt32 × UInt32)) : Bool :=
  ranges.any fun r => r.1 ≤ code && code ≤ r.2

/-- Whether an instruction reads a character. -/
def reads (c : Char) : Instruction → Bool
  | .char code => code == c.val
  | .ranges ranges negated => inRanges c.val ranges != negated
  | .any => true
  | _ => false

/-- The threads after one more character. -/
def step (code : LexerCode) (c : Char) (threads : List Nat) : List Nat :=
  threads.foldl (fun next pc =>
    if (code[pc]?).any (reads c) then close code next (pc + 1) else next) []

def accepted? : Instruction → Option Nat
  | .accept alternative => some alternative.toNat
  | _ => none

/-- The least alternative that some thread accepts. -/
def accepts? (code : LexerCode) (threads : List Nat) : Option Nat :=
  (threads.filterMap fun pc => (code[pc]?).bind accepted?).min?

/-- Where a match ends, as a number of characters, and its alternative. -/
structure Match where
  length : Nat
  alternative : Nat
deriving Repr, DecidableEq

/-- The match that ends where the threads stand. -/
def here? (code : LexerCode) (threads : List Nat) (length : Nat) : Option Match :=
  (accepts? code threads).map fun alternative => ⟨length, alternative⟩

/-- The last match from here on; without threads there is none to come. -/
def longest? (code : LexerCode) (see : Char → Char) : List Nat → Nat → List Char → Option Match
  | [], _, _ => none
  | threads, length, [] => here? code threads length
  | threads, length, c :: rest =>
    (longest? code see (step code (see c) threads) (length + 1) rest).or (here? code threads length)

/-- The first match from here on. -/
def first? (code : LexerCode) (see : Char → Char) : List Nat → Nat → List Char → Option Match
  | [], _, _ => none
  | threads, length, [] => here? code threads length
  | threads, length, c :: rest =>
    (here? code threads length).or (first? code see (step code (see c) threads) (length + 1) rest)

/-- The first match that is not empty, else the empty one. -/
def shortest? (code : LexerCode) (see : Char → Char) (text : List Char) : Option Match :=
  match text with
  | [] => here? code (start code) 0
  | c :: rest =>
    (first? code see (step code (see c) (start code)) 1 rest).or (here? code (start code) 0)

end LexerCode

/-- How a rule matches at the beginning of a text. -/
def LexerRule.match? (r : LexerRule) (see : Char → Char) (text : List Char) :
    Option LexerCode.Match :=
  if r.shortest then LexerCode.shortest? r.code see text
  else LexerCode.longest? r.code see (LexerCode.start r.code) 0 text

end GrammarEngine

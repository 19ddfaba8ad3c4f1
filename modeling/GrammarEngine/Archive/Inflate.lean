import GrammarEngine.Archive.Bytes

/-!
# Inflating

A compressed sequence is a series of blocks: stored bytes, or symbols of two prefix codes that are
fixed or described at the head of the block. A symbol is a byte, the end of the block, or a length;
a length is followed by a distance, and that many bytes are copied from what is there already.

Bits are read from the least significant bit of each byte on. A sequence may break off anywhere, and
then stands for the bytes that are complete; what the format does not allow stands for nothing.
-/
namespace GrammarEngine.Inflate

/-- The bits of a byte, least significant first. -/
def bitsOf (b : UInt8) : List Bool := (List.range 8).map fun i => b.toNat.testBit i

/-- The input that is left, where in its byte the next bit stands, and the output so far. -/
structure State where
  bits : List Bool
  phase : Nat
  output : Array UInt8
deriving Repr

/-- Readers of the bit stream. What is put out before a reader stops is kept. -/
abbrev Reader := EStateM Archive.Halt State

def bit : Reader Bool := fun s =>
  match s with
  | ⟨[], phase, output⟩ => .error .exhausted ⟨[], phase, output⟩
  | ⟨b :: rest, phase, output⟩ => .ok b ⟨rest, (phase + 1) % 8, output⟩

/-- A number of some bits, least significant first. -/
def number : Nat → Reader Nat
  | 0 => pure 0
  | count + 1 => do
    let low ← bit
    let high ← number count
    return low.toNat + 2 * high

/-- Go on to the next whole byte. -/
def align : Reader Unit :=
  modify fun s => { s with bits := s.bits.drop ((8 - s.phase) % 8), phase := 0 }

def put (b : UInt8) : Reader Unit := modify fun s => { s with output := s.output.push b }

/-! ## Prefix codes -/

/-- A prefix code: how many code words there are of each length from one on, and the symbols in the
order of their code words. -/
structure Code where
  counts : List Nat
  symbols : Array Nat
deriving Repr

namespace Code

/-- The code in which every symbol has a code word of the given length; zero means none. -/
def ofLengths (lengths : List Nat) : Code :=
  let longest := lengths.foldl max 0
  { counts := (List.range longest).map fun i => lengths.count (i + 1)
    symbols := ((List.range longest).flatMap fun i =>
      (lengths.zipIdx.filter fun p => p.1 == i + 1).map Prod.snd).toArray }

/-- How many code words of the greatest length are free, unless shorter ones take too many. -/
def free? (c : Code) : Option Nat :=
  c.counts.foldlM (fun free count => if count ≤ 2 * free then some (2 * free - count) else none) 1

/-- Whether every bit sequence begins with a code word. -/
def isComplete (c : Code) : Bool := c.free? == some 0

/-- Whether a block may use the code: it is complete, or its only code word has a single bit. -/
def isUsable (c : Code) : Bool := c.isComplete || c.counts == [1]

end Code

/-- Read one symbol. `code` is the code word so far, `first` the first one of its length, and
`index` the number of shorter code words. -/
def symbolFrom (symbols : Array Nat) : List Nat → Nat → Nat → Nat → Reader Nat
  | [], _, _, _ => throw .invalid
  | count :: rest, code, first, index => do
    let code := 2 * code + (← bit).toNat
    if code < first + count then
      match symbols[index + (code - first)]? with
      | some s => return s
      | none => throw .invalid
    else symbolFrom symbols rest code (2 * (first + count)) (index + count)

/-- Read one symbol. Without code words any bit is wrong. -/
def symbol (c : Code) : Reader Nat :=
  symbolFrom c.symbols (if c.counts.isEmpty then [0] else c.counts) 0 0 0

/-! ## Symbols of a block -/

/-- The least length of each length symbol, and its number of extra bits. -/
def lengthBases : Array (Nat × Nat) :=
  #[(3, 0), (4, 0), (5, 0), (6, 0), (7, 0), (8, 0), (9, 0), (10, 0), (11, 1), (13, 1), (15, 1),
    (17, 1), (19, 2), (23, 2), (27, 2), (31, 2), (35, 3), (43, 3), (51, 3), (59, 3), (67, 4),
    (83, 4), (99, 4), (115, 4), (131, 5), (163, 5), (195, 5), (227, 5), (258, 0)]

/-- The least distance of each distance symbol, and its number of extra bits. -/
def distanceBases : Array (Nat × Nat) :=
  #[(1, 0), (2, 0), (3, 0), (4, 0), (5, 1), (7, 1), (9, 2), (13, 2), (17, 3), (25, 3), (33, 4),
    (49, 4), (65, 5), (97, 5), (129, 6), (193, 6), (257, 7), (385, 7), (513, 8), (769, 8),
    (1025, 9), (1537, 9), (2049, 10), (3073, 10), (4097, 11), (6145, 11), (8193, 12), (12289, 12),
    (16385, 13), (24577, 13)]

/-- The value of a symbol with extra bits. -/
def extended (bases : Array (Nat × Nat)) (symbol : Nat) : Reader Nat :=
  match bases[symbol]? with
  | some (base, extra) => do return base + (← number extra)
  | none => throw .invalid

/-- Append bytes that stand a distance back. -/
def copy (distance : Nat) : Nat → Array UInt8 → Array UInt8
  | 0, output => output
  | count + 1, output => copy distance count (output.push (output.getD (output.size - distance) 0))

/-- Copy bytes of the output to its end. -/
def repeatBytes (length distance : Nat) : Reader Unit := do
  if (← get).output.size < distance then throw .invalid
  modify fun s => { s with output := copy distance length s.output }

/-- The symbols of a block up to its end. Each one takes a bit at least. -/
def symbols (lengths distances : Code) : Nat → Reader Unit
  | 0 => throw .invalid
  | bound + 1 => do
    let s ← symbol lengths
    if s < 256 then
      put (UInt8.ofNat s)
      symbols lengths distances bound
    else if s == 256 then return
    else
      let length ← extended lengthBases (s - 257)
      let distance ← extended distanceBases (← symbol distances)
      repeatBytes length distance
      symbols lengths distances bound

/-! ## Blocks -/

def storedBytes : Nat → Reader Unit
  | 0 => return
  | count + 1 => do
    put (UInt8.ofNat (← number 8))
    storedBytes count

/-- Bytes as they are, behind their number and its complement. -/
def stored : Reader Unit := do
  align
  let count ← number 16
  let complement ← number 16
  if count + complement == 0xffff then storedBytes count else throw .invalid

def fixedLengths : Code :=
  Code.ofLengths (List.replicate 144 8 ++ List.replicate 112 9 ++ List.replicate 24 7 ++
    List.replicate 8 8)

def fixedDistances : Code := Code.ofLengths (List.replicate 30 5)

/-- The order in which the lengths of the code for lengths are given. -/
def lengthOrder : List Nat := [16, 17, 18, 0, 8, 7, 9, 6, 10, 5, 11, 4, 12, 3, 13, 2, 14, 1, 15]

def numbers (width : Nat) : Nat → Reader (List Nat)
  | 0 => pure []
  | count + 1 => do return (← number width) :: (← numbers width count)

/-- The code for lengths. Where no length has a code word, every bit stands for the length zero. -/
def lengthCode (given : List Nat) : Code :=
  if given.all (· == 0) then ⟨[2], #[0, 0]⟩
  else Code.ofLengths ((List.range 19).map fun s => ((lengthOrder.zip given).lookup s).getD 0)

/-- Lengths of code words, last first, until there are enough of them. A symbol may repeat the last
length or zero. -/
def codeLengths (code : Code) (enough : Nat) : Nat → List Nat → Reader (List Nat)
  | 0, _ => throw .invalid
  | bound + 1, lengths =>
    if enough ≤ lengths.length then pure lengths
    else do
      let s ← symbol code
      if s < 16 then codeLengths code enough bound (s :: lengths)
      else if s == 16 then
        let count ← number 2
        match lengths with
        | [] => throw .invalid
        | last :: _ => codeLengths code enough bound (List.replicate (3 + count) last ++ lengths)
      else if s == 17 then
        codeLengths code enough bound (List.replicate (3 + (← number 3)) 0 ++ lengths)
      else codeLengths code enough bound (List.replicate (11 + (← number 7)) 0 ++ lengths)

/-- The greatest numbers of code words of the two codes. -/
def maxLengths : Nat := 286

def maxDistances : Nat := 30

/-- The codes described at the head of a block. The end of the block must have a code word; there
need not be any distance. -/
def codes : Reader (Code × Code) := do
  let literals := 257 + (← number 5)
  let distances := 1 + (← number 5)
  let count := 4 + (← number 4)
  if maxLengths < literals || maxDistances < distances then throw .invalid
  let code := lengthCode (← numbers 3 count)
  if !code.isComplete then throw .invalid
  let lengths ← codeLengths code (literals + distances) (literals + distances + 1) []
  if lengths.length != literals + distances then throw .invalid
  let lengths := lengths.reverse
  if lengths.getD 256 0 == 0 then throw .invalid
  let symbolCode := Code.ofLengths (lengths.take literals)
  let distanceCode := Code.ofLengths (lengths.drop literals)
  if symbolCode.isUsable && (distanceCode.counts.isEmpty || distanceCode.isUsable) then
    return (symbolCode, distanceCode)
  else throw .invalid

/-- One block by its type. -/
def block (kind : Nat) (bound : Nat) : Reader Unit :=
  match kind with
  | 0 => stored
  | 1 => symbols fixedLengths fixedDistances bound
  | 2 => do
    let (lengths, distances) ← codes
    symbols lengths distances bound
  | _ => throw .invalid

/-- Blocks up to the one that is marked as the last. -/
def blocks (bound : Nat) : Nat → Reader Unit
  | 0 => throw .invalid
  | count + 1 => do
    let isLast ← bit
    let kind ← number 2
    block kind bound
    if isLast then return else blocks bound count

/-- The bytes that a compressed sequence stands for. Its bits bound the number of its blocks and of
the symbols in them. -/
def decode? (bytes : List UInt8) : Option (List UInt8) :=
  let bits := bytes.flatMap bitsOf
  let bound := bits.length + 1
  match (blocks bound bound).run ⟨bits, 0, #[]⟩ with
  | .ok _ s => some s.output.toList
  | .error .exhausted s => some s.output.toList
  | .error .invalid _ => none

end GrammarEngine.Inflate

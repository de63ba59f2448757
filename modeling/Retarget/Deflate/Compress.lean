import Retarget.Deflate.Codes
import Retarget.Deflate.Lengths
import Retarget.Deflate.Tokens

/-!
Writing a deflate stream. A block is written with its own codes when it is long enough for them to
pay, with the fixed codes when it is short, and as stored bytes when neither shrinks it.
-/
namespace Retarget.Deflate

structure BitSink where
  bytes : Array UInt8
  buffer : Nat
  count : Nat

namespace BitSink

def empty : BitSink := ⟨#[], 0, 0⟩

def flush : (fuel : Nat) → BitSink → BitSink
  | 0, sink => sink
  | fuel + 1, sink =>
    if sink.count < 8 then sink
    else flush fuel
      ⟨sink.bytes.push (UInt8.ofNat (sink.buffer % 256)), sink.buffer / 256, sink.count - 8⟩

/-- The lowest `width` bits of a number, lowest first. -/
def put (width n : Nat) (sink : BitSink) : BitSink :=
  flush 4 ⟨sink.bytes, sink.buffer + (n % (1 <<< width)) <<< sink.count, sink.count + width⟩

def align (sink : BitSink) : BitSink :=
  if sink.count = 0 then sink else sink.put (8 - sink.count) 0

end BitSink

/-- A code as writing needs it: each symbol's word, first bit lowest, with its length. -/
structure Encoder where
  words : Array (Nat × Nat)

def Encoder.ofLengths (lengths : List Nat) : Encoder :=
  ⟨(((codeWords lengths).toList.zip lengths).map fun (word, n) => (n, reverseBits n word)).toArray⟩

def Encoder.put (encoder : Encoder) (symbol : Nat) (sink : BitSink) : BitSink :=
  let (width, word) := encoder.words.getD symbol (0, 0)
  sink.put width word

/-- The symbol of a byte or of a copy's length. -/
def Token.literalSymbol : Token → Nat
  | .literal b => b.toNat
  | .copy length _ => 257 + (symbolFor lengthBases length).1

def Token.distanceSymbol? : Token → Option Nat
  | .literal _ => none
  | .copy _ distance => some (symbolFor distanceBases distance).1

def putToken (literals distances : Encoder) (sink : BitSink) (token : Token) : BitSink :=
  let sink := literals.put token.literalSymbol sink
  match token with
  | .literal _ => sink
  | .copy length distance =>
    let (_, more, extra) := symbolFor lengthBases length
    let (symbol, distanceMore, distanceExtra) := symbolFor distanceBases distance
    (distances.put symbol (sink.put extra more)).put distanceExtra distanceMore

def putTokens (literals distances : Encoder) (tokens : List Token) (sink : BitSink) : BitSink :=
  literals.put 256 (tokens.foldl (putToken literals distances) sink)

/-- A run of word lengths being packed: zeros, or repeats of the last length. -/
structure Packing where
  packed : List (Nat × Nat × Nat)
  zeros : Nat
  repeats : Nat
  last : Option Nat

namespace Packing

def plain (n : Nat) : Nat × Nat × Nat := (n, 0, 0)

def flushRepeats (p : Packing) : Packing :=
  let value := p.last.getD 0
  if p.repeats = 0 then p
  else if p.repeats < 3 then
    { p with packed := List.replicate p.repeats (plain value) ++ p.packed, repeats := 0 }
  else { p with packed := (16, 2, p.repeats - 3) :: p.packed, repeats := 0 }

def flushZeros (p : Packing) : Packing :=
  if p.zeros = 0 then p
  else if p.zeros < 3 then
    { p with packed := List.replicate p.zeros (plain 0) ++ p.packed, zeros := 0 }
  else if p.zeros ≤ 10 then { p with packed := (17, 3, p.zeros - 3) :: p.packed, zeros := 0 }
  else { p with packed := (18, 7, p.zeros - 11) :: p.packed, zeros := 0 }

def addZero (p : Packing) : Packing :=
  let p := p.flushRepeats
  let p := { p with zeros := p.zeros + 1 }
  if p.zeros = 138 then p.flushZeros else p

def addLength (p : Packing) (n : Nat) : Packing :=
  let p := p.flushZeros
  if p.last ≠ some n then
    let p := p.flushRepeats
    { p with packed := plain n :: p.packed }
  else
    let p := { p with repeats := p.repeats + 1 }
    if p.repeats = 6 then p.flushRepeats else p

def add (p : Packing) (n : Nat) : Packing :=
  let p := if n = 0 then p.addZero else p.addLength n
  { p with last := some n }

/-- The symbols of the code-length code for a list of lengths, with their extra bits. -/
def pack (lengths : List Nat) : List (Nat × Nat × Nat) :=
  let p := lengths.foldl add ⟨[], 0, 0, none⟩
  (if p.repeats ≠ 0 then p.flushRepeats else p.flushZeros).packed.reverse

end Packing

/-- A list of lengths without the zeros at its end, but with `least` of them at least. -/
def dropIdleLengths (least : Nat) (lengths : List Nat) : List Nat :=
  let used := (lengths.reverse.dropWhile (· = 0)).length
  lengths.take (max least used)

def putPacked (short : Encoder) (packed : List (Nat × Nat × Nat)) (sink : BitSink) : BitSink :=
  packed.foldl (fun sink (symbol, extra, more) => (short.put symbol sink).put extra more) sink

def shortFor (packed : List (Nat × Nat × Nat)) : List Nat :=
  (wordLengths 7 (occurrences 19 (packed.map Prod.fst))).toList

/-- The lengths of a block's two codes, written in the code-length code, whose own lengths come
first. -/
def putCodes (literals distances : List Nat) (sink : BitSink) : BitSink :=
  let packed := Packing.pack (literals ++ distances)
  let short := shortFor packed
  let ordered := dropIdleLengths 4 (lengthOrder.map fun symbol => short.getD symbol 0)
  let sink := ((sink.put 5 (literals.length - 257)).put 5 (distances.length - 1)).put 4
    (ordered.length - 4)
  putPacked (.ofLengths short) packed (ordered.foldl (fun sink n => sink.put 3 n) sink)

def literalLengths (tokens : List Token) : List Nat :=
  (wordLengths 15 (occurrences 288 (256 :: tokens.map Token.literalSymbol))).toList

def distanceLengths (tokens : List Token) : List Nat :=
  (wordLengths 15 (occurrences 32 (tokens.filterMap Token.distanceSymbol?))).toList

def putOwnCodes (tokens : List Token) (sink : BitSink) : BitSink :=
  let literals := literalLengths tokens
  let distances := distanceLengths tokens
  let sink := putCodes (dropIdleLengths 257 (literals.take 286))
    (dropIdleLengths 1 (distances.take 30)) (sink.put 2 2)
  putTokens (.ofLengths literals) (.ofLengths distances) tokens sink

def putFixedCodes (tokens : List Token) (sink : BitSink) : BitSink :=
  putTokens (.ofLengths fixedLiteralLengths) (.ofLengths fixedDistanceLengths) tokens (sink.put 2 1)

def putStored (bytes : Bytes) (sink : BitSink) : BitSink :=
  let sink := ((sink.put 2 0).align.put 16 bytes.length).put 16 (65535 - bytes.length)
  { sink with bytes := sink.bytes ++ bytes.toArray }

/-- Codes made for a block pay when it is long enough. -/
def putCoded (block : TokenBlock) (sink : BitSink) : BitSink :=
  if block.size < 48 then putFixedCodes block.tokens sink else putOwnCodes block.tokens sink

/-- A block is stored when its codes do not shrink it and all its bytes are in the window. -/
def putBlock (data : Array UInt8) (block : TokenBlock) (sink : BitSink) : BitSink :=
  let coded := putCoded block sink
  if block.size > 32 ∧ coded.bytes.size - sink.bytes.size + 1 ≥ block.size ∧ block.inWindow then
    putStored (data.extract block.start (block.start + block.size)).toList sink
  else coded

def putBlocks (data : Array UInt8) : List TokenBlock → BitSink → BitSink
  | [], sink => sink
  | [block], sink => putBlock data block (sink.put 1 1)
  | block :: rest, sink => putBlocks data rest (putBlock data block (sink.put 1 0))

def compress (bytes : Bytes) : Bytes :=
  let data := bytes.toArray
  (putBlocks data (tokenize data) .empty).align.bytes.toList

end Retarget.Deflate

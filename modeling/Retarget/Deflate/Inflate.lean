import Retarget.Deflate.Codes

/-!
Reading a deflate stream. Bits are taken from the low end of each byte; a block is stored bytes or
symbols of a fixed or a given code, where a symbol is a literal byte, the end, or a copy from what
has been written before. Before the first byte there are zeros, which may be copied too. A stream
that breaks any rule has no content.
-/
namespace Retarget.Deflate

/-- The bits left in a stream: those of the byte begun, then whole bytes. -/
structure BitSource where
  pending : List Bool
  rest : Bytes

namespace BitSource

def ofBytes (bytes : Bytes) : BitSource := ⟨[], bytes⟩

def bitsOf (b : UInt8) : List Bool :=
  (List.range 8).map fun i => b.toNat.testBit i

def next? : BitSource → Option (Bool × BitSource)
  | ⟨bit :: pending, rest⟩ => some (bit, ⟨pending, rest⟩)
  | ⟨[], b :: rest⟩ =>
    match bitsOf b with
    | bit :: pending => some (bit, ⟨pending, rest⟩)
    | [] => none
  | ⟨[], []⟩ => none

def number? : (width : Nat) → BitSource → Option (Nat × BitSource)
  | 0, source => some (0, source)
  | width + 1, source => do
    let (bit, source) ← source.next?
    let (high, source) ← source.number? width
    return (bit.toNat + 2 * high, source)

def align (source : BitSource) : BitSource := ⟨[], source.rest⟩

end BitSource

/-- The symbol whose word comes next. After the words shorter than `length`, `first` is the least
word of this length and `index` the number of shorter words. -/
def Decoder.symbolFrom? (decoder : Decoder) : (left code first index : Nat) → BitSource →
    Option (Nat × BitSource)
  | 0, _, _, _, _ => none
  | left + 1, code, first, index, source => do
    let (bit, source) ← source.next?
    let code := code + bit.toNat
    let count := decoder.counts.getD (15 - left) 0
    if code < first + count then
      let symbol ← decoder.symbols[index + (code - first)]?
      return (symbol, source)
    else decoder.symbolFrom? left (2 * code) (2 * (first + count)) (index + count) source

def Decoder.symbol? (decoder : Decoder) (source : BitSource) : Option (Nat × BitSource) :=
  decoder.symbolFrom? 15 0 0 0 source

/-- The byte written `distance` bytes ago; before all that was written there are zeros. -/
def byteBack (distance : Nat) (out : Array UInt8) : UInt8 :=
  if distance ≤ out.size then out.getD (out.size - distance) 0 else 0

/-- `length` bytes copied from `distance` back, one by one, so a copy may read what it writes. -/
def copyBack : (length distance : Nat) → Array UInt8 → Array UInt8
  | 0, _, out => out
  | length + 1, distance, out => copyBack length distance (out.push (byteBack distance out))

def inflateSymbols (literals distances : Decoder) : (fuel : Nat) → BitSource → Array UInt8 →
    Option (BitSource × Array UInt8)
  | 0, _, _ => none
  | fuel + 1, source, out => do
    let (symbol, source) ← literals.symbol? source
    if symbol < 256 then
      inflateSymbols literals distances fuel source (out.push (UInt8.ofNat symbol))
    else if symbol = 256 then return (source, out)
    else
      let (base, extra) ← lengthBases[symbol - 257]?
      let (more, source) ← source.number? extra
      let (symbol, source) ← distances.symbol? source
      let (distanceBase, distanceExtra) ← distanceBases[symbol]?
      let (distanceMore, source) ← source.number? distanceExtra
      inflateSymbols literals distances fuel source
        (copyBack (base + more) (distanceBase + distanceMore) out)

/-- A stored block: its length, the length's complement, the bytes. -/
def inflateStored (source : BitSource) (out : Array UInt8) : Option (BitSource × Array UInt8) :=
  match source.align.rest with
  | l₀ :: l₁ :: n₀ :: n₁ :: rest =>
    let length := l₀.toNat + 256 * l₁.toNat
    if length + (n₀.toNat + 256 * n₁.toNat) ≠ 65535 then none
    else if rest.length < length then none
    else some (⟨[], rest.drop length⟩, out ++ (rest.take length).toArray)
  | _ => none

/-- `count` word lengths, written in the code-length code with repeats. -/
def codeLengths? (decoder : Decoder) : (fuel count : Nat) → BitSource → Array Nat →
    Option (List Nat × BitSource)
  | 0, _, _, _ => none
  | fuel + 1, count, source, lengths =>
    if lengths.size = count then some (lengths.toList, source)
    else do
      let (symbol, source) ← decoder.symbol? source
      if symbol < 16 then codeLengths? decoder fuel count source (lengths.push symbol)
      else
        let (value, base, extra) ←
          if symbol = 16 then lengths.back?.map fun last => (last, 3, 2)
          else if symbol = 17 then some (0, 3, 3)
          else some (0, 11, 7)
        let (more, source) ← source.number? extra
        if lengths.size + base + more > count then none
        else
          codeLengths? decoder fuel count source (lengths ++ Array.replicate (base + more) value)

def shortLengths? : (count : Nat) → BitSource → Option (List Nat × BitSource)
  | 0, source => some ([], source)
  | count + 1, source => do
    let (n, source) ← source.number? 3
    let (rest, source) ← shortLengths? count source
    return (n :: rest, source)

/-- The length of each symbol of the code-length code; those that are not given have no word. -/
def shortCode (given : List Nat) : List Nat :=
  (List.range 19).map fun symbol => ((lengthOrder.zip given).lookup symbol).getD 0

def givenCodes? (source : BitSource) : Option (Decoder × Decoder × BitSource) := do
  let (literalCount, source) ← source.number? 5
  let (distanceCount, source) ← source.number? 5
  let (shortCount, source) ← source.number? 4
  if literalCount + 257 > 286 ∨ distanceCount + 1 > 30 then none
  else
    let (short, source) ← shortLengths? (shortCount + 4) source
    let lengthCode ← Decoder.complete? (shortCode short)
    let total := literalCount + 257 + (distanceCount + 1)
    let (lengths, source) ← codeLengths? lengthCode (total + 1) total source #[]
    let literals ← Decoder.usable? (lengths.take (literalCount + 257))
    let distances ← Decoder.usable? (lengths.drop (literalCount + 257))
    return (literals, distances, source)

def inflateBlock (fuel : Nat) (source : BitSource) (out : Array UInt8) :
    Option (BitSource × Array UInt8) := do
  let (kind, source) ← source.number? 2
  if kind = 0 then inflateStored source out
  else if kind = 1 then
    inflateSymbols (.ofLengths fixedLiteralLengths) (.ofLengths fixedDistanceLengths) fuel source
      out
  else if kind = 2 then
    let (literals, distances, source) ← givenCodes? source
    inflateSymbols literals distances fuel source out
  else none

def inflateBlocks : (fuel : Nat) → BitSource → Array UInt8 → Option (Array UInt8)
  | 0, _, _ => none
  | fuel + 1, source, out => do
    let (last, source) ← source.next?
    let (source, out) ← inflateBlock fuel source out
    if last then return out else inflateBlocks fuel source out

/-- The content of a stream; bytes after its last block are not looked at. No bytes at all are taken
for an empty content. -/
def inflate (bytes : Bytes) : Option Bytes :=
  if bytes = [] then some []
  else (inflateBlocks (8 * bytes.length + 1) (.ofBytes bytes) #[]).map Array.toList

end Retarget.Deflate

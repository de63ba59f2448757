import Retarget.Bytes

/-!
The alphabets of the deflate format and its canonical prefix codes. A code is given by the length
of each symbol's word; words of one length are consecutive and follow the shorter ones.
-/
namespace Retarget.Deflate

/-- The first length of each length symbol from 257 on, with its number of extra bits. -/
def lengthBases : Array (Nat × Nat) := #[
  (3, 0), (4, 0), (5, 0), (6, 0), (7, 0), (8, 0), (9, 0), (10, 0), (11, 1), (13, 1), (15, 1),
  (17, 1), (19, 2), (23, 2), (27, 2), (31, 2), (35, 3), (43, 3), (51, 3), (59, 3), (67, 4),
  (83, 4), (99, 4), (115, 4), (131, 5), (163, 5), (195, 5), (227, 5), (258, 0)]

def distanceBases : Array (Nat × Nat) := #[
  (1, 0), (2, 0), (3, 0), (4, 0), (5, 1), (7, 1), (9, 2), (13, 2), (17, 3), (25, 3), (33, 4),
  (49, 4), (65, 5), (97, 5), (129, 6), (193, 6), (257, 7), (385, 7), (513, 8), (769, 8),
  (1025, 9), (1537, 9), (2049, 10), (3073, 10), (4097, 11), (6145, 11), (8193, 12), (12289, 12),
  (16385, 13), (24577, 13)]

/-- The order in which the lengths of the code-length code are written. -/
def lengthOrder : List Nat :=
  [16, 17, 18, 0, 8, 7, 9, 6, 10, 5, 11, 4, 12, 3, 13, 2, 14, 1, 15]

/-- The last entry of a table whose base does not exceed `n`, with what `n` has beyond the base. -/
def symbolFor (bases : Array (Nat × Nat)) (n : Nat) : Nat × Nat × Nat :=
  let symbol := (bases.toList.takeWhile fun entry => entry.1 ≤ n).length - 1
  let (base, extra) := bases.getD symbol (0, 0)
  (symbol, n - base, extra)

def fixedLiteralLengths : List Nat :=
  List.replicate 144 8 ++ List.replicate 112 9 ++ List.replicate 24 7 ++ List.replicate 8 8

def fixedDistanceLengths : List Nat :=
  List.replicate 30 5

def occurrences (size : Nat) (numbers : List Nat) : Array Nat :=
  numbers.foldl (fun counts n => counts.modify n (· + 1)) (Array.replicate size 0)

/-- A code as decoding needs it: how many words have each length, and the symbols in the order of
their words. -/
structure Decoder where
  counts : Array Nat
  symbols : Array Nat

/-- How much of the space of words the words of these lengths take, in words of 15 bits. -/
def takenSpace (lengths : List Nat) : Nat :=
  lengths.foldl (fun n length => if length = 0 then n else n + 1 <<< (15 - length)) 0

def IsComplete (lengths : List Nat) : Prop := takenSpace lengths = 1 <<< 15

instance : DecidablePred IsComplete := fun _ => inferInstanceAs (Decidable (_ = _))

def IsSmall (lengths : List Nat) : Prop :=
  lengths.all (· ≤ 1) ∧ lengths.countP (· ≠ 0) ≤ 1

instance : DecidablePred IsSmall := fun _ => inferInstanceAs (Decidable (_ ∧ _))

def Decoder.ofLengths (lengths : List Nat) : Decoder :=
  let indexed := lengths.zipIdx
  let symbols := (List.range 16).flatMap fun i =>
    if i = 0 then [] else (indexed.filter fun entry => entry.1 = i).map Prod.snd
  ⟨occurrences 16 lengths, symbols.toArray⟩

def Decoder.complete? (lengths : List Nat) : Option Decoder :=
  if IsComplete lengths then some (.ofLengths lengths) else none

def Decoder.usable? (lengths : List Nat) : Option Decoder :=
  if IsComplete lengths ∨ IsSmall lengths then some (.ofLengths lengths) else none

/-- The word of each symbol as a number, first bit highest: words of one length count up, and a
longer word starts where the shorter ones ended. -/
def codeWords (lengths : List Nat) : Array Nat :=
  let counts := occurrences 16 lengths
  let starts := (List.range 16).foldl
    (fun (starts : Array Nat) i =>
      if i = 0 then starts.push 0
      else starts.push ((starts.getD (i - 1) 0 + (if i = 1 then 0 else counts.getD (i - 1) 0)) * 2))
    #[]
  (lengths.foldl
    (fun (state : Array Nat × Array Nat) n =>
      if n = 0 then (state.1, state.2.push 0)
      else (state.1.modify n (· + 1), state.2.push (state.1.getD n 0)))
    (starts, #[])).2

def reverseBits : (width : Nat) → Nat → Nat
  | 0, _ => 0
  | width + 1, n => (n % 2) <<< width + reverseBits width (n / 2)

end Retarget.Deflate

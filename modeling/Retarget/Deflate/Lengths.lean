import Retarget.Deflate.Codes

/-!
Word lengths for symbols of known frequency: those of an optimal prefix code, then shortened where
they exceed the longest word allowed while the words still fill the space exactly.
-/
namespace Retarget.Deflate

/-- A weight and how far below it the leaves lie, counted by depth. -/
structure Weighed where
  weight : Nat
  depths : List Nat

/-- Two of the lightest put together: each leaf lies one deeper. -/
def Weighed.merge (a b : Weighed) : Weighed :=
  let rec add : List Nat → List Nat → List Nat
    | [], ys => ys
    | xs, [] => xs
    | x :: xs, y :: ys => (x + y) :: add xs ys
  ⟨a.weight + b.weight, 0 :: add a.depths b.depths⟩

/-- The lightest of two queues that are each in order; of equals the one from the first. -/
def takeLightest : List Weighed → List Weighed → Option (Weighed × List Weighed × List Weighed)
  | [], [] => none
  | leaf :: leaves, [] => some (leaf, leaves, [])
  | [], inner :: inners => some (inner, [], inners)
  | leaf :: leaves, inner :: inners =>
    if inner.weight < leaf.weight then some (inner, leaf :: leaves, inners)
    else some (leaf, leaves, inner :: inners)

def mergeAll : (fuel : Nat) → List Weighed → List Weighed → List Nat
  | 0, _, _ => []
  | fuel + 1, leaves, inners =>
    match takeLightest leaves inners with
    | none => []
    | some (a, leaves, inners) =>
      match takeLightest leaves inners with
      | none => a.depths
      | some (b, leaves, inners) => mergeAll fuel leaves (inners ++ [a.merge b])

/-- How many leaves lie at each depth in an optimal tree for weights in order. A single leaf has a
word of one bit. -/
def optimalCounts (weights : List Nat) : List Nat :=
  match weights with
  | [] => []
  | [_] => [0, 1]
  | _ => mergeAll weights.length (weights.map fun w => ⟨w, [1]⟩) []

/-- One word of the greatest length is given up: a shorter one, as long as can be, makes room for
two that are one bit longer. -/
def giveUpWord (longest : Nat) (counts : Array Nat) : Array Nat :=
  let counts := counts.modify longest (· - 1)
  match ((List.range longest).reverse.find? fun i => i ≠ 0 ∧ counts.getD i 0 ≠ 0) with
  | some i => (counts.modify i (· - 1)).modify (i + 1) (· + 2)
  | none => counts

def cutCounts (longest : Nat) (counts : List Nat) : Array Nat :=
  ((counts.take longest).toArray ++ Array.replicate (longest - counts.length) 0).push
    ((counts.drop longest).foldr (· + ·) 0)

/-- How many words of the greatest length these words take the space of. -/
def countedSpace (longest : Nat) (counts : Array Nat) : Nat :=
  ((List.range (longest + 1)).map fun i =>
    if i = 0 then 0 else counts.getD i 0 <<< (longest - i)).foldr (· + ·) 0

/-- Counts with no word longer than `longest`. The words cut to it may take more than the space of
words, and for each word too many one is given up. -/
def limitCounts (longest : Nat) (counts : List Nat) : Array Nat :=
  let cut := cutCounts longest counts
  if counts.foldr (· + ·) 0 ≤ 1 then cut
  else
    let excess := countedSpace longest cut - 1 <<< longest
    (List.range excess).foldl (fun counts _ => giveUpWord longest counts) cut

/-- Symbols from the rarest to the most frequent, those with one frequency in order. -/
def byFrequency (frequencies : Array Nat) : List (Nat × Nat) :=
  (frequencies.toList.zipIdx.filter fun entry => entry.1 ≠ 0).mergeSort fun a b => a.1 ≤ b.1

def countedLengths (longest : Nat) (counts : Array Nat) : List Nat :=
  (List.range (longest + 1)).flatMap fun i =>
    if i = 0 then [] else List.replicate (counts.getD i 0) i

def assignLengths (lengths : Array Nat) (pairs : List (Nat × Nat)) : Array Nat :=
  pairs.foldl (fun lengths pair => lengths.set! pair.1 pair.2) lengths

/-- Lengths, the shortest first, for the symbols that are used, the most frequent first. -/
def giveLengths (frequencies : Array Nat) (lengths : List Nat) : Array Nat :=
  assignLengths (Array.replicate frequencies.size 0)
    (((byFrequency frequencies).reverse.map Prod.snd).zip lengths)

def wordLengths (longest : Nat) (frequencies : Array Nat) : Array Nat :=
  let weights := (byFrequency frequencies).map Prod.fst
  giveLengths frequencies (countedLengths longest (limitCounts longest (optimalCounts weights)))

end Retarget.Deflate

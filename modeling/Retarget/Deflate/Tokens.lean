import Retarget.Deflate.Codes

/-!
Cutting bytes into literals and copies. Earlier places are found through chains of places whose
three bytes have one hash; a copy found is held back by one byte to see whether the next byte starts
a longer one. Tokens are grouped into blocks as they are found.
-/
namespace Retarget.Deflate

inductive Token
  | literal (byte : UInt8)
  | copy (length distance : Nat)
  deriving Repr

def windowSize : Nat := 32768
def shortestCopy : Nat := 3
def longestCopy : Nat := 258

/-- The tokens of one block, where it starts, how many bytes they stand for, and whether all of
those were still in the window when it was closed. -/
structure TokenBlock where
  start : Nat
  size : Nat
  inWindow : Bool
  tokens : List Token

/-- The last place of each hash and, for each place in the window, the one before it with the same
hash. Places are kept modulo 65536; zero stands for none. -/
structure Chains where
  latest : Array Nat
  previous : Array Nat

namespace Chains

def empty : Chains := ⟨Array.replicate 32768 0, Array.replicate windowSize 0⟩

def hash (a b c : UInt8) : Nat :=
  ((a.toNat <<< 10) ^^^ (b.toNat <<< 5) ^^^ c.toNat) % 32768

/-- The chains with the places from `place` up to, not including, `stop` added. -/
def insertUpTo (data : Array UInt8) (chains : Chains) : (count place : Nat) → Chains
  | 0, _ => chains
  | count + 1, place =>
    let h := hash (data.getD place 0) (data.getD (place + 1) 0) (data.getD (place + 2) 0)
    let before := chains.latest.getD h 0
    insertUpTo data
      ⟨chains.latest.set! h (place % 65536), chains.previous.set! (place % windowSize) before⟩
      count (place + 1)

end Chains

def agreement (data : Array UInt8) (a b : Nat) : (limit : Nat) → Nat
  | 0 => 0
  | limit + 1 =>
    if data.getD a 0 = data.getD b 0 then 1 + agreement data (a + 1) (b + 1) limit else 0

/-- A copy that might be made: its length and how far back it starts. -/
structure Candidate where
  length : Nat
  distance : Nat

/-- The best copy for `place` along its chain. Places are looked at in groups of three, `groups` of
them at most; a place that can do better starts a new group. -/
def searchChain (data : Array UInt8) (chains : Chains) (place reach limit : Nat) :
    (groups left probe : Nat) → Candidate → Candidate
  | 0, 0, _, best => best
  | groups + 1, 0, probe, best => searchChain data chains place reach limit groups 3 probe best
  | groups, left + 1, probe, best =>
    let next := chains.previous.getD probe 0
    let distance := (place + 65536 - next) % 65536
    if next = 0 ∨ distance > reach then best
    else
      let probe := next % windowSize
      let earlier := place - distance
      let better :=
        data.getD (earlier + best.length - 1) 0 = data.getD (place + best.length - 1) 0 ∧
        data.getD (earlier + best.length) 0 = data.getD (place + best.length) 0
      if ¬better then searchChain data chains place reach limit groups left probe best
      else if distance = 0 then best
      else
        let length := agreement data earlier place limit
        if length < 2 ∨ length ≤ best.length then
          searchChain data chains place reach limit groups 0 probe best
        else if length = limit then ⟨length, distance⟩
        else searchChain data chains place reach limit groups 0 probe ⟨length, distance⟩
  termination_by groups left => (groups, left)

/-- The best copy of at most `limit` bytes that is longer than `best`, or `best`. -/
def findCopy (data : Array UInt8) (chains : Chains) (place reach limit : Nat) (best : Candidate) :
    Candidate :=
  if limit ≤ best.length then best
  else
    let groups := if best.length ≥ 32 then 11 else 43
    searchChain data chains place reach limit groups 0 (place % windowSize) best

/-- A block being filled: `room` counts the bytes of a compact record of its tokens, one flag byte
for eight tokens included. -/
structure OpenBlock where
  start : Nat
  size : Nat
  room : Nat
  flagsLeft : Nat
  tokens : List Token

namespace OpenBlock

def startingAt (start : Nat) : OpenBlock := ⟨start, 0, 1, 8, []⟩

def add (block : OpenBlock) (token : Token) : OpenBlock :=
  let (bytes, room) := match token with
    | .literal _ => (1, 1)
    | .copy length _ => (length, 3)
  let newFlags := block.flagsLeft = 1
  { block with
    size := block.size + bytes
    room := block.room + room + (if newFlags then 1 else 0)
    flagsLeft := if newFlags then 8 else block.flagsLeft - 1
    tokens := token :: block.tokens }

/-- A block is closed when its record is full, or when it is long and does not shrink. -/
def isFull (block : OpenBlock) : Bool :=
  block.room > 65528 || (block.size > 31744 && block.room * 115 / 128 ≥ block.size)

/-- The block closed at `place`, with `kept` bytes before it in the window. -/
def close (block : OpenBlock) (place kept : Nat) : TokenBlock :=
  ⟨block.start, block.size, place - block.start ≤ kept, block.tokens.reverse⟩

end OpenBlock

structure Held where
  byte : UInt8
  candidate : Candidate

/-- The copy to be made at a place, longer than the one held back, or one of no use. -/
def copyAt (data : Array UInt8) (chains : Chains) (place reach ahead : Nat) (held : Option Held) :
    Candidate :=
  let start : Candidate := match held with
    | some held => ⟨held.candidate.length, 0⟩
    | none => ⟨shortestCopy - 1, 0⟩
  let found := findCopy data chains place reach ahead start
  let useless := (found.length = shortestCopy ∧ found.distance ≥ 8192) ∨
    place % windowSize = found.distance
  if useless then ⟨0, 0⟩ else found

/-- The tokens that are settled by what is found at a place, how far they lead, and the copy held
back after them. -/
def settle (held : Option Held) (byte : UInt8) (found : Candidate) :
    List Token × Nat × Option Held :=
  match held with
  | some held =>
    if found.length > held.candidate.length then
      if found.length ≥ 128 then
        ([.literal held.byte, .copy found.length found.distance], found.length, none)
      else ([.literal held.byte], 1, some ⟨byte, found⟩)
    else
      ([.copy held.candidate.length held.candidate.distance], held.candidate.length - 1, none)
  | none =>
    if found.distance = 0 then ([.literal byte], 1, none)
    else if found.length ≥ 128 then ([.copy found.length found.distance], found.length, none)
    else ([], 1, some ⟨byte, found⟩)

/-- The tokens from `place` on. `inserted` is the first place not yet in the chains, and `kept` the
number of bytes before `place` that a copy may reach. -/
def tokenizeFrom (data : Array UInt8) : (fuel place inserted kept : Nat) → Chains → Option Held →
    OpenBlock → List TokenBlock → List TokenBlock
  | 0, place, _, kept, _, _, block, closed => block.close place kept :: closed
  | fuel + 1, place, inserted, kept, chains, held, block, closed =>
    if data.size ≤ place then block.close place kept :: closed
    else
      let ahead := min longestCopy (data.size - place)
      let stop := place + ahead - (shortestCopy - 1)
      let chains := chains.insertUpTo data (stop - inserted) inserted
      let reach := min kept (windowSize - ahead)
      let found := copyAt data chains place reach ahead held
      let (tokens, moved, held) := settle held (data.getD place 0) found
      let block := tokens.foldl OpenBlock.add block
      let place := place + moved
      let kept := min (reach + moved) windowSize
      if block.isFull then
        tokenizeFrom data fuel place (max inserted stop) kept chains held
          (.startingAt (block.start + block.size)) (block.close place kept :: closed)
      else tokenizeFrom data fuel place (max inserted stop) kept chains held block closed

/-- The blocks of tokens that stand for the bytes; the last one may be empty. -/
def tokenize (data : Array UInt8) : List TokenBlock :=
  (tokenizeFrom data (data.size + 1) 0 0 0 .empty none (.startingAt 0) []).reverse

end Retarget.Deflate

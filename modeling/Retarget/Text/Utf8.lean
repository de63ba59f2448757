import Retarget.Bytes

/-!
UTF-8 read without refusal: what is no character becomes the replacement character, one for each
longest start of a character that is cut short. A text's own UTF-8 form is read as the text.
-/
namespace Retarget.Text.Utf8

def replacement : Char := '\ufffd'

def tail? (b : UInt8) : Option (Nat × UInt8 × UInt8) :=
  if b < 128 then some (0, 128, 191)
  else if 0xC2 ≤ b ∧ b ≤ 0xDF then some (1, 128, 191)
  else if b = 0xE0 then some (2, 0xA0, 191)
  else if b = 0xED then some (2, 128, 0x9F)
  else if 0xE1 ≤ b ∧ b ≤ 0xEF then some (2, 128, 191)
  else if b = 0xF0 then some (3, 0x90, 191)
  else if 0xF1 ≤ b ∧ b ≤ 0xF3 then some (3, 128, 191)
  else if b = 0xF4 then some (3, 128, 0x8F)
  else none

/-- The bits that a first byte with `extra` bytes after it gives. -/
def firstBits (extra : Nat) (b : UInt8) : Nat :=
  if extra = 0 then b.toNat else b.toNat % (1 <<< (6 - extra))

structure Pending where
  value : Nat
  left : Nat
  low : UInt8
  high : UInt8

def start (b : UInt8) : Text × Option Pending :=
  match tail? b with
  | none => ([replacement], none)
  | some (0, _, _) => ([Char.ofNat b.toNat], none)
  | some (extra, low, high) => ([], some ⟨firstBits extra b, extra, low, high⟩)

def step (pending : Option Pending) (b : UInt8) : Text × Option Pending :=
  match pending with
  | none => start b
  | some p =>
    if p.low ≤ b ∧ b ≤ p.high then
      let value := p.value * 64 + b.toNat % 64
      if p.left ≤ 1 then ([Char.ofNat value], none)
      else ([], some ⟨value, p.left - 1, 128, 191⟩)
    else
      let (chars, pending) := start b
      (replacement :: chars, pending)

def decodeFrom : Option Pending → Bytes → Text
  | none, [] => []
  | some _, [] => [replacement]
  | pending, b :: bs =>
    let (chars, pending) := step pending b
    chars ++ decodeFrom pending bs

def decode (bytes : Bytes) : Text :=
  match Bytes.toString? bytes with
  | some s => s.toList
  | none => decodeFrom none bytes

end Retarget.Text.Utf8

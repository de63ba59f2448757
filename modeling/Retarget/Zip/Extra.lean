import Retarget.Crc32
import Retarget.Text.CodePage437
import Retarget.Text.Utf8
import Retarget.Zip.Record

/-!
The extra part of a central header: fields with a kind and a length, some of which amend what the
header says of its member. A part that ends within a field is read up to there, and what was read
counts; a field that is wrong in itself makes the whole archive unreadable.
-/
namespace Retarget.Zip

structure Description where
  rawName : Bytes
  name : Text
  comment : Text
  method : Nat
  /-- Whether an extra field says that the member is encrypted by AES. -/
  isAes : Bool
  size : Nat
  packedSize : Nat
  offset : Nat
  deriving DecidableEq, Repr

namespace Description

def aesMethod : Nat := 99

def decode (isUtf8 : Bool) (bytes : Bytes) : Text :=
  if isUtf8 then Text.Utf8.decode bytes else Text.CodePage437.decode bytes

def ofFixed (h : CentralHeader) : Description where
  rawName := h.name
  name := decode (h.common.flags.testBit 11) h.name
  comment := decode (h.common.flags.testBit 11) h.comment
  method := h.common.method
  isAes := false
  size := h.common.size
  packedSize := h.common.packedSize
  offset := h.offset

end Description

namespace Extra

/-- Why no more fields are read: the part has ended, or a field is wrong. -/
inductive Stop
  | ended
  | wrong
  deriving DecidableEq, Repr

structure State where
  known : Description
  left : Bytes

/-- A reader of extra fields; what it learned before it stopped is kept. -/
abbrev Reader := EStateM Stop State

def bytes (count : Nat) : Reader Bytes := fun s =>
  match takeBytes? count s.left with
  | some (taken, rest) => .ok taken { s with left := rest }
  | none => .error .ended s

def number (width : Nat) : Reader Nat :=
  return Bytes.ofLittleEndian (← bytes width)

def require (condition : Bool) : Reader Unit :=
  if condition then pure () else throw .wrong

def learn (change : Description → Description) : Reader Unit :=
  modify fun s => { s with known := change s.known }

/-- A number that the fixed part has no room for, if it says so there or the field has all of
them. Gives how many bytes it took. -/
def wideNumber (length : Nat) (fixed : Description → Nat)
    (change : Nat → Description → Description) : Reader Nat := do
  if length ≥ 24 ∨ fixed (← get).known = UInt32.size - 1 then
    let n ← number 8
    learn (change n)
    return 8
  else return 0

def wideNumbers (length : Nat) : Reader Unit := do
  let size ← wideNumber length Description.size fun n d => { d with size := n }
  let packed ← wideNumber length Description.packedSize fun n d => { d with packedSize := n }
  let offset ← wideNumber length Description.offset fun n d => { d with offset := n }
  let used := size + packed + offset
  require (used ≤ length)
  let _ ← bytes (length - used)

def ntfsTimes (length : Nat) : Reader Unit := do
  require (length = 32)
  let _ ← number 4
  let tag ← number 2
  require (tag = 1)
  let size ← number 2
  require (size = 24)
  let _ ← bytes 24

def timeCount (flags length : Nat) : Nat :=
  let first := if flags.testBit 0 ∨ length = 5 then 1 else 0
  let second := if flags.testBit 1 ∧ length > 5 then 1 else 0
  let third := if flags.testBit 2 ∧ length > 5 then 1 else 0
  first + second + third

/-- Up to three times, flags telling which. The length has to agree with the flags, or to be that of
one time. Of the flags only three are known, and bytes for the others are left in place. -/
def times (length : Nat) : Reader Unit := do
  let flags ← number 1
  let set := (List.range 8).countP flags.testBit
  require (length = 5 || length = 1 + 4 * set)
  let _ ← bytes (4 * timeCount flags length)

def aes (length : Nat) : Reader Unit := do
  require (length = 7)
  let version ← number 2
  let vendor ← number 2
  let strength ← number 1
  let method ← number 2
  require (vendor = 0x4541)
  require (version = 1 || version = 2)
  require (1 ≤ strength && strength ≤ 3)
  learn fun d => { d with isAes := true, method := method }

def unicode (length : Nat) (replaced : Description → Bytes) : Reader (Bytes × Text) := do
  let _ ← number 1
  let crc ← number 4
  require (5 ≤ length)
  let content ← bytes (length - 5)
  require ((Crc32.checksum (replaced (← get).known)).toNat = crc)
  match Bytes.toString? content with
  | some text => return (content, text.toList)
  | none => throw .wrong

def unicodeName (length : Nat) : Reader Unit := do
  let (raw, name) ← unicode length Description.rawName
  learn fun d => { d with rawName := raw, name := name }

def unicodeComment (length : Nat) : Reader Unit := do
  let (_, comment) ← unicode length fun d => Bytes.ofString (String.ofList d.comment)
  learn fun d => { d with comment := comment }

/-- One field: its kind, its length and as many bytes as its kind makes of them. -/
def field : Reader Unit := do
  let kind ← number 2
  let length ← number 2
  if kind = 0x0001 then wideNumbers length
  else if kind = 0x000A then ntfsTimes length
  else if kind = 0x9901 then aes length
  else if kind = 0x5455 then times length
  else if kind = 0x6375 then unicodeComment length
  else if kind = 0x7075 then unicodeName length
  else let _ ← bytes length

def fields : (fuel : Nat) → Reader Unit
  | 0 => pure ()
  | fuel + 1 => do
    if (← get).left ≠ [] then
      field
      fields fuel

end Extra

def Description.ofCentral? (h : CentralHeader) : Option Description :=
  let described := match Extra.fields h.extra.length ⟨Description.ofFixed h, h.extra⟩ with
    | .ok _ s => some s.known
    | .error .ended s => some s.known
    | .error .wrong _ => none
  described.filter fun d => d.method ≠ Description.aesMethod || d.isAes

end Retarget.Zip

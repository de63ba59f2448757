import Retarget.Bytes

/-!
The records of a zip archive, each a signature, numbers of fixed width and parts whose lengths are
among the numbers. Writing and reading a record go through the same list of widths. Large archives
have two more records, with wider numbers, before the plain end record.
-/
namespace Retarget.Zip

def putFields (fields : List (Nat × Nat)) : Bytes :=
  fields.flatMap fun field => Bytes.littleEndian field.1 field.2

def takeFields? : List Nat → Bytes → Option (List Nat × Bytes)
  | [], bytes => some ([], bytes)
  | width :: widths, bytes =>
    if bytes.length < width then none
    else
      match takeFields? widths (bytes.drop width) with
      | none => none
      | some (values, rest) => some (Bytes.ofLittleEndian (bytes.take width) :: values, rest)

/-- The first `count` bytes and the rest, if there are as many. -/
def takeBytes? (count : Nat) (bytes : Bytes) : Option (Bytes × Bytes) :=
  if bytes.length < count then none else some (bytes.take count, bytes.drop count)

def afterSignature? (signature bytes : Bytes) : Option Bytes :=
  if signature.isPrefixOf bytes then some (bytes.drop signature.length) else none

structure Common where
  flags : Nat
  method : Nat
  time : Nat
  date : Nat
  crc : Nat
  packedSize : Nat
  size : Nat
  deriving DecidableEq, Repr

def Common.fields (c : Common) : List (Nat × Nat) :=
  [(2, c.flags), (2, c.method), (2, c.time), (2, c.date), (4, c.crc), (4, c.packedSize),
    (4, c.size)]

structure LocalHeader where
  needed : Nat
  common : Common
  name : Bytes
  extra : Bytes
  deriving DecidableEq, Repr

namespace LocalHeader

def signature : Bytes := [0x50, 0x4B, 3, 4]

def encode (h : LocalHeader) : Bytes :=
  signature ++ putFields ((2, h.needed) :: h.common.fields ++
    [(2, h.name.length), (2, h.extra.length)]) ++ h.name ++ h.extra

/-- What comes after a header at the start of the bytes. The name and the extra part are passed
over by their lengths alone. -/
def following? (bytes : Bytes) : Option Bytes := do
  let rest ← afterSignature? signature bytes
  let (values, rest) ← takeFields? [2, 2, 2, 2, 2, 4, 4, 4, 2, 2] rest
  match values with
  | [_, _, _, _, _, _, _, _, nameLength, extraLength] => some (rest.drop (nameLength + extraLength))
  | _ => none

end LocalHeader

structure CentralHeader where
  madeBy : Nat
  needed : Nat
  common : Common
  disk : Nat
  internalAttributes : Nat
  externalAttributes : Nat
  /-- Where the local header starts. -/
  offset : Nat
  name : Bytes
  extra : Bytes
  comment : Bytes
  deriving DecidableEq, Repr

namespace CentralHeader

def signature : Bytes := [0x50, 0x4B, 1, 2]

def minLength : Nat := 46

def encode (h : CentralHeader) : Bytes :=
  signature ++ putFields ((2, h.madeBy) :: (2, h.needed) :: h.common.fields ++
    [(2, h.name.length), (2, h.extra.length), (2, h.comment.length), (2, h.disk),
      (2, h.internalAttributes), (4, h.externalAttributes), (4, h.offset)]) ++
    h.name ++ h.extra ++ h.comment

def parse? (bytes : Bytes) : Option (CentralHeader × Bytes) := do
  let rest ← afterSignature? signature bytes
  let (values, rest) ← takeFields? [2, 2, 2, 2, 2, 2, 4, 4, 4, 2, 2, 2, 2, 2, 4, 4] rest
  match values with
  | [madeBy, needed, flags, method, time, date, crc, packedSize, size, nameLength, extraLength,
      commentLength, disk, internalAttributes, externalAttributes, offset] =>
    let (name, rest) ← takeBytes? nameLength rest
    let (extra, rest) ← takeBytes? extraLength rest
    let (comment, rest) ← takeBytes? commentLength rest
    return (⟨madeBy, needed, ⟨flags, method, time, date, crc, packedSize, size⟩, disk,
      internalAttributes, externalAttributes, offset, name, extra, comment⟩, rest)
  | _ => none

end CentralHeader

structure EndRecord where
  disk : Nat
  directoryDisk : Nat
  entriesHere : Nat
  entries : Nat
  directorySize : Nat
  directoryOffset : Nat
  comment : Bytes
  deriving DecidableEq, Repr

namespace EndRecord

def signature : Bytes := [0x50, 0x4B, 5, 6]

def encode (r : EndRecord) : Bytes :=
  signature ++ putFields [(2, r.disk), (2, r.directoryDisk), (2, r.entriesHere), (2, r.entries),
    (4, r.directorySize), (4, r.directoryOffset), (2, r.comment.length)] ++ r.comment

def parse? (bytes : Bytes) : Option (EndRecord × Bytes) := do
  let rest ← afterSignature? signature bytes
  let (values, rest) ← takeFields? [2, 2, 2, 2, 4, 4, 2] rest
  match values with
  | [disk, directoryDisk, entriesHere, entries, directorySize, directoryOffset, commentLength] =>
    let (comment, rest) ← takeBytes? commentLength rest
    return (⟨disk, directoryDisk, entriesHere, entries, directorySize, directoryOffset, comment⟩,
      rest)
  | _ => none

/-- Whether the numbers may be too large for the record and stand in the one for large archives. -/
def MayBeWide (r : EndRecord) : Prop :=
  r.entries = UInt16.size - 1 ∨ r.directoryOffset = UInt32.size - 1

instance : DecidablePred MayBeWide := fun _ => inferInstanceAs (Decidable (_ ∨ _))

end EndRecord

/-- Where the end record of a large archive is. It stands right before the plain end record. -/
structure WideLocator where
  directoryDisk : Nat
  offset : Nat
  disks : Nat
  deriving DecidableEq, Repr

namespace WideLocator

def signature : Bytes := [0x50, 0x4B, 6, 7]

def length : Nat := 20

def encode (l : WideLocator) : Bytes :=
  signature ++ putFields [(4, l.directoryDisk), (8, l.offset), (4, l.disks)]

def parse? (bytes : Bytes) : Option WideLocator := do
  let rest ← afterSignature? signature bytes
  let (values, _) ← takeFields? [4, 8, 4] rest
  match values with
  | [directoryDisk, offset, disks] => return ⟨directoryDisk, offset, disks⟩
  | _ => none

end WideLocator

structure WideEndRecord where
  /-- How many bytes follow this number. -/
  length : Nat
  madeBy : Nat
  needed : Nat
  disk : Nat
  directoryDisk : Nat
  entriesHere : Nat
  entries : Nat
  directorySize : Nat
  directoryOffset : Nat
  deriving DecidableEq, Repr

namespace WideEndRecord

def signature : Bytes := [0x50, 0x4B, 6, 6]

def minLength : Nat := 44

def headLength : Nat := 12

def encode (r : WideEndRecord) : Bytes :=
  signature ++ putFields [(8, r.length), (2, r.madeBy), (2, r.needed), (4, r.disk),
    (4, r.directoryDisk), (8, r.entriesHere), (8, r.entries), (8, r.directorySize),
    (8, r.directoryOffset)]

def parse? (bytes : Bytes) : Option WideEndRecord := do
  let rest ← afterSignature? signature bytes
  let (values, _) ← takeFields? [8, 2, 2, 4, 4, 8, 8, 8, 8] rest
  match values with
  | [length, madeBy, needed, disk, directoryDisk, entriesHere, entries, directorySize,
      directoryOffset] =>
    return ⟨length, madeBy, needed, disk, directoryDisk, entriesHere, entries, directorySize,
      directoryOffset⟩
  | _ => none

end WideEndRecord

end Retarget.Zip

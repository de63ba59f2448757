import Retarget.Deflate.Inflate
import Retarget.Zip.Extra

/-!
Reading a zip archive: the members that its central directory lists, and the data of one of them.
The directory is found through the last end record that leads to a whole one. Bytes before the
archive shift every offset by as much.
-/
namespace Retarget.Zip

structure Member where
  name : Text
  encrypted : Bool
  method : Nat
  crc : Nat
  packedSize : Nat
  /-- What the header says of the unpacked data; the data itself may be longer or shorter. -/
  size : Nat
  /-- Where the local header starts, counted from the first byte of the file. -/
  offset : Nat
  deriving DecidableEq, Repr

/-- Where a central directory starts, counted from the first byte of the file, how many headers it
has, and how many bytes come before the archive. -/
structure Directory where
  shift : Nat
  start : Nat
  count : Nat
  deriving DecidableEq, Repr

namespace Member

/-- The member of a central header. Its local header has to come before the directory. -/
def ofCentral? (directory : Directory) (h : CentralHeader) : Option Member := do
  let described ← Description.ofCentral? h
  let offset := directory.shift + described.offset
  if directory.start ≤ offset then none
  else
    return {
      name := described.name
      encrypted := h.common.flags.testBit 0 || described.isAes
      method := described.method
      crc := h.common.crc
      packedSize := described.packedSize
      size := described.size
      offset := offset }

def isDirectory (member : Member) : Bool :=
  member.name.getLast? == some '/' || member.name.getLast? == some '\\'

end Member

/-- The first result that is found at one of the next `count` places; `find` is given the distance
to its place. -/
def findAt? {α : Type} (find : Nat → Bytes → Option α) : (count distance : Nat) → Bytes → Option α
  | 0, _, _ => none
  | count + 1, distance, bytes =>
    match find distance bytes with
    | some found => some found
    | none => findAt? find count (distance + 1) bytes.tail

/-- How many places from `start` on have room for a signature before `stop`. -/
def places (start stop : Nat) : Nat := stop - start - 3

/-- How many bytes come before the archive, for an end record found at `position`: the first central
header is the first signature of one at or after the place where the directory should start. -/
def shift? (image : Bytes) (position : Nat) (record : EndRecord) : Option Nat :=
  if record.entries = 0 then some (position - record.directoryOffset)
  else if position ≤ record.directoryOffset then none
  else
    findAt?
      (fun distance bytes =>
        if CentralHeader.signature.isPrefixOf bytes then some distance else none)
      (places record.directoryOffset position) 0 (image.drop record.directoryOffset)

/-- The directory that a plain end record at `position` leads to. -/
def plainDirectory? (image : Bytes) (position : Nat) (record : EndRecord) : Option Directory := do
  let shift ← shift? image position record
  if record.disk ≠ record.directoryDisk then none
  else return ⟨shift, record.directoryOffset + shift, record.entriesHere⟩

/-- The end record of a large archive, `distance` bytes after the place where it should be. It ends
where its locator, at `position`, starts, and there is room before it for all headers. -/
def wideRecordAt? (position : Nat) (locator : WideLocator) (distance : Nat) (bytes : Bytes) :
    Option (Nat × WideEndRecord) := do
  let record ← WideEndRecord.parse? bytes
  let place := locator.offset + distance
  if record.length < WideEndRecord.minLength ∨
      place + WideEndRecord.headLength + record.length ≠ position ∨
      record.directoryDisk ≠ locator.directoryDisk ∨
      place < record.entries * CentralHeader.minLength + record.directoryOffset then none
  else return (distance, record)

/-- The directory that the locator of a large archive, at `position`, leads to. -/
def wideDirectory? (image : Bytes) (position : Nat) (locator : WideLocator) : Option Directory := do
  if position ≤ locator.offset ∨ 1 < locator.disks then none
  else
    let (shift, record) ← findAt? (wideRecordAt? position locator)
      (places locator.offset position) 0 (image.drop locator.offset)
    if record.entries < record.entriesHere ∨ record.madeBy < record.needed ∨
        record.disk ≠ record.directoryDisk then none
    else return ⟨shift, record.directoryOffset + shift, record.entries⟩

/-- The locator right before an end record at `position`, if the record may need one. -/
def locatorBefore? (image : Bytes) (position : Nat) (record : EndRecord) : Option WideLocator :=
  if record.MayBeWide ∧ WideLocator.length ≤ position then
    WideLocator.parse? (image.drop (position - WideLocator.length))
  else none

/-- The directory that an end record at `position` leads to. -/
def directory? (image : Bytes) (position : Nat) (record : EndRecord) : Option Directory :=
  match locatorBefore? image position record with
  | some locator => wideDirectory? image (position - WideLocator.length) locator
  | none => plainDirectory? image position record

/-- The members of `count` headers, one after the other. -/
def centralMembers? (directory : Directory) : (count : Nat) → Bytes → Option (List Member)
  | 0, _ => some []
  | count + 1, bytes => do
    let (header, rest) ← CentralHeader.parse? bytes
    let member ← Member.ofCentral? directory header
    let members ← centralMembers? directory count rest
    return member :: members

/-- Members with one name are one member: it stands where the first stood and is what the last
was. -/
def mergeNames (members : List Member) : List Member :=
  members.foldl
    (fun kept member =>
      if kept.any (·.name = member.name) then
        kept.map fun k => if k.name = member.name then member else k
      else kept ++ [member]) []

/-- The members that an end record at `position` leads to. -/
def membersAt? (image : Bytes) (position : Nat) (rest : Bytes) : Option (List Member) := do
  let (record, _) ← EndRecord.parse? rest
  let directory ← directory? image position record
  let members ← centralMembers? directory directory.count (image.drop directory.start)
  return mergeNames members

/-- The members found through the last end record at or after `position` that leads to some. -/
def membersFrom? (image : Bytes) : (position : Nat) → Bytes → Option (List Member)
  | _, [] => none
  | position, b :: bs =>
    match membersFrom? image (position + 1) bs with
    | some members => some members
    | none => membersAt? image position (b :: bs)

def members? (image : Bytes) : Option (List Member) :=
  membersFrom? image 0 image

namespace Member

/-- The packed data of a member. There is none when the member is encrypted, is packed by a method
other than storing and deflating, or has no local header where it should be. Data that the file
does not hold to its end is cut. -/
def packed? (image : Bytes) (member : Member) : Option Bytes :=
  if member.encrypted ∨ (member.method ≠ 0 ∧ member.method ≠ 8) then none
  else (LocalHeader.following? (image.drop member.offset)).map (·.take member.packedSize)

def maxRoom : Nat := 0x7FFFFFFFFFFFFFFF

/-- The data that packed data stands for, if it can be unpacked and has the member's checksum. Room
for the size that the header states is made first. -/
def unpack? (member : Member) (packed : Bytes) : Option Bytes :=
  if maxRoom < member.size then none
  else do
    let bytes ← if member.method = 0 then some packed else Deflate.inflate packed
    if (Crc32.checksum bytes).toNat = member.crc then some bytes else none

end Member

end Retarget.Zip

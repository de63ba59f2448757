import Retarget.Crc32
import Retarget.Deflate.Compress
import Retarget.Text.Utf8
import Retarget.Zip.Record

/-!
Writing a zip archive: for each member a local header and its data, then the central directory and
the end record, before which a large archive has its two records of wider numbers. A header that has
no room for the place of its member tells it in an extra field. All members carry one fixed time
stamp, so equal members make equal archives.
-/
namespace Retarget.Zip

/-- A member to be written; directories have no data and a slash at the end of their name. -/
inductive NewMember
  | directory (name : Text)
  | file (name : Text) (content : Bytes)
  deriving DecidableEq, Repr

structure Packed where
  name : Bytes
  common : Common
  externalAttributes : Nat
  data : Bytes

def firstDay : Nat := 0x21

def nameFlags (name : Bytes) : Nat :=
  if name.all (· < 128) then 0 else 0x0800

namespace Packed

/-- A file's data is deflated; the attributes are those of a plain file, and of a directory that
everyone may list. -/
def ofNew : NewMember → Packed
  | .directory name =>
    let name := Bytes.ofString (String.ofList name)
    ⟨name, ⟨nameFlags name, 0, 0, firstDay, 0, 0, 0⟩, 0o40755 * 65536, []⟩
  | .file name content =>
    let name := Bytes.ofString (String.ofList name)
    let data := Deflate.compress content
    ⟨name, ⟨nameFlags name, 8, 0, firstDay, (Crc32.checksum content).toNat, data.length,
      content.length⟩, 0o100644 * 65536, data⟩

def needed : Nat := 20

def madeBy : Nat := 3 * 256 + 20

def wideOffset (offset : Nat) : Bytes :=
  if offset < UInt32.size - 1 then [] else putFields [(2, 1), (2, 8), (8, offset)]

def partAt (offset : Nat) (m : Packed) : Bytes :=
  LocalHeader.encode ⟨needed, m.common, m.name, wideOffset offset⟩ ++ m.data

def localPart (m : Packed) : Bytes :=
  m.partAt 0

def centralPart (offset : Nat) (m : Packed) : Bytes :=
  CentralHeader.encode ⟨madeBy, needed, m.common, 0, 0, m.externalAttributes,
    min offset (UInt32.size - 1), m.name, wideOffset offset, []⟩

end Packed

/-- Local parts one after the other, from `offset` on. -/
def localParts : (offset : Nat) → List Packed → Bytes
  | _, [] => []
  | offset, m :: ms => m.partAt offset ++ localParts (offset + (m.partAt offset).length) ms

/-- The central headers of members whose local parts follow one another from `offset` on. -/
def centralParts : (offset : Nat) → List Packed → Bytes
  | _, [] => []
  | offset, m :: ms =>
    m.centralPart offset ++ centralParts (offset + (m.partAt offset).length) ms

def IsWide (count localLength centralLength : Nat) : Prop :=
  UInt16.size ≤ count ∨ UInt32.size ≤ max centralLength localLength

instance (count localLength centralLength : Nat) :
    Decidable (IsWide count localLength centralLength) :=
  inferInstanceAs (Decidable (_ ∨ _))

def wideEnd (count localLength centralLength : Nat) : Bytes :=
  WideEndRecord.encode ⟨WideEndRecord.minLength, Packed.needed, Packed.needed, 0, 0, count, count,
      centralLength, localLength⟩ ++
    WideLocator.encode ⟨0, localLength + centralLength, 1⟩

/-- The record after the directory; a number that has no room is the greatest there is. -/
def endRecord (count localLength centralLength : Nat) : EndRecord where
  disk := 0
  directoryDisk := 0
  entriesHere := min count (UInt16.size - 1)
  entries := min count (UInt16.size - 1)
  directorySize := min centralLength (UInt32.size - 1)
  directoryOffset := min localLength (UInt32.size - 1)
  comment := []

def archiveEnd (count localLength centralLength : Nat) : Bytes :=
  (if IsWide count localLength centralLength then wideEnd count localLength centralLength
    else []) ++ (endRecord count localLength centralLength).encode

def imageOfPacked (members : List Packed) : Bytes :=
  let locals := localParts 0 members
  let central := centralParts 0 members
  locals ++ central ++ archiveEnd members.length locals.length central.length

def image (members : List NewMember) : Bytes :=
  imageOfPacked (members.map Packed.ofNew)

/-- Whether the lengths of a file and of its packed data have room in a header. -/
def HasRoom (content : Bytes) : Prop :=
  content.length < UInt32.size ∧ (Deflate.compress content).length < UInt32.size

instance : DecidablePred HasRoom := fun _ => inferInstanceAs (Decidable (_ ∧ _))

end Retarget.Zip

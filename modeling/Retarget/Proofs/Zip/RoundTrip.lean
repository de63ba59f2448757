import Mathlib.Data.List.Forall2
import Retarget.Proofs.Deflate.RoundTrip
import Retarget.Proofs.Zip.Names
import Retarget.Proofs.Zip.Offsets
import Retarget.Zip.Members

/-!
An archive read back as it was written, be it large or not. The end record stands where too few
bytes follow for a later one, it leads to the directory, if need be by way of the two wider records,
and there each header leads to its local part. The parts follow one another, so what is known of a
part is where it starts.
-/
namespace Retarget.Zip

namespace Packed

/-- The member that a packed one is read as when its local part starts at `offset`. -/
def member (offset : Nat) (m : Packed) : Member where
  name := Description.decode (m.common.flags.testBit 11) m.name
  encrypted := m.common.flags.testBit 0
  method := m.common.method
  crc := m.common.crc
  packedSize := m.common.packedSize
  size := m.common.size
  offset := offset

theorem length_partAt (offset : Nat) (m : Packed) :
    (m.partAt offset).length =
      30 + m.name.length + (wideOffset offset).length + m.data.length := by
  rw [partAt, List.length_append, LocalHeader.length_encode]

theorem length_centralPart (offset : Nat) (m : Packed) :
    (m.centralPart offset).length = 46 + m.name.length + (wideOffset offset).length := by
  simp [centralPart, CentralHeader.length_encode, CentralHeader.minLength]

/-- A header is read as its member, if the directory comes after the local part. -/
theorem ofCentral?_member {m : Packed} (hfits : m.Fits) {offset : Nat} {directory : Directory}
    (hshift : directory.shift = 0) (hbefore : offset < directory.start)
    (hstart : directory.start < UInt64.size) :
    Member.ofCentral? directory (m.header offset) = some (m.member offset) := by
  have hdescribed := ofCentral?_header hfits (Nat.lt_trans hbefore hstart)
  have hhere : directory.shift + offset = offset := by rw [hshift, Nat.zero_add]
  have hplace : ¬directory.start ≤ offset := Nat.not_le_of_lt hbefore
  simp only [Member.ofCentral?, hdescribed, Option.bind_eq_bind, Option.bind_some, hhere, hplace,
    if_false]
  simp [member, header, Description.ofFixed]

/-- Where its local part is, a member's data is found. -/
theorem packed?_member {m : Packed} (hfits : m.Fits) (hplain : m.common.flags.testBit 0 = false)
    (hmethod : m.common.method = 0 ∨ m.common.method = 8)
    (hsize : m.common.packedSize = m.data.length) (before rest : Bytes) :
    (m.member before.length).packed? (before ++ (m.partAt before.length ++ rest)) =
      some m.data := by
  have hneeded : needed < UInt16.size := by decide
  have hextra : (wideOffset before.length).length < UInt16.size :=
    Nat.lt_of_le_of_lt (length_wideOffset_le _) (by decide)
  have hfollowing := LocalHeader.following?_encode
    (h := ⟨needed, m.common, m.name, wideOffset before.length⟩)
    hfits.common hneeded hfits.name hextra (m.data ++ rest)
  have husable : ¬((m.member before.length).encrypted = true ∨
      ((m.member before.length).method ≠ 0 ∧ (m.member before.length).method ≠ 8)) := by
    simp only [member, hplain, Bool.false_eq_true, false_or, not_and_or, not_not]
    exact hmethod
  rw [Member.packed?, if_neg husable]
  simp only [member, List.drop_left, partAt, List.append_assoc, hfollowing, Option.map_some,
    hsize, List.take_left]

end Packed

/-- The members of local parts that follow one another from `offset` on. -/
def membersOf : (offset : Nat) → List Packed → List Member
  | _, [] => []
  | offset, m :: ms => m.member offset :: membersOf (offset + (m.partAt offset).length) ms

/-- A directory that starts where the local parts end is read as their members. -/
theorem centralMembers?_centralParts {members : List Packed} (hfits : ∀ m ∈ members, m.Fits)
    {directory : Directory} (hshift : directory.shift = 0) (hstart : directory.start < UInt64.size)
    {offset : Nat} (hend : offset + (localParts offset members).length ≤ directory.start)
    (rest : Bytes) :
    centralMembers? directory members.length (centralParts offset members ++ rest) =
      some (membersOf offset members) := by
  induction members generalizing offset with
  | nil => rfl
  | cons m ms ih =>
    have hlength := m.length_partAt offset
    rw [localParts, List.length_append] at hend
    have hparse := Packed.parse?_centralPart (hfits m (List.mem_cons_self ..)) offset
      (centralParts (offset + (m.partAt offset).length) ms ++ rest)
    have hmember := Packed.ofCentral?_member (hfits m (List.mem_cons_self ..)) hshift
      (show offset < directory.start by omega) hstart
    have hend' : offset + (m.partAt offset).length +
        (localParts (offset + (m.partAt offset).length) ms).length ≤ directory.start := by omega
    have hrest := ih (fun m' hm' => hfits m' (List.mem_cons_of_mem _ hm')) hend'
    simp only [List.length_cons, centralMembers?, centralParts, List.append_assoc, hparse, hmember,
      hrest, Option.bind_eq_bind, Option.bind_some]
    rfl

theorem mergeNames_of_nodup {members : List Member} (h : (members.map Member.name).Nodup) :
    mergeNames members = members := by
  -- the members kept so far are those before the next one
  have hfold : ∀ kept : List Member, ((kept ++ members).map Member.name).Nodup →
      members.foldl (fun kept member =>
        if kept.any (·.name = member.name) then
          kept.map fun k => if k.name = member.name then member else k
        else kept ++ [member]) kept = kept ++ members := by
    clear h
    induction members with
    | nil => simp
    | cons member rest ih =>
      intro kept hnodup
      have hnew : kept.any (·.name = member.name) = false := by
        rw [List.any_eq_false]
        intro k hk hname
        rw [List.map_append, List.nodup_append] at hnodup
        exact hnodup.2.2 k.name (List.mem_map_of_mem hk) member.name (by simp)
          (by simpa using hname)
      have hrest := ih (kept ++ [member]) (by simpa using hnodup)
      simp only [List.foldl_cons, hnew, Bool.false_eq_true, if_false, hrest, List.append_assoc,
        List.singleton_append]
  simpa [mergeNames] using hfold [] (by simpa using h)

/-- Where fewer bytes are left than an end record takes, no directory is found. -/
theorem membersFrom?_of_short (image : Bytes) {bytes : Bytes} (h : bytes.length < 22)
    (position : Nat) : membersFrom? image position bytes = none := by
  induction bytes generalizing position with
  | nil => rfl
  | cons b bs ih =>
    have hrest := ih (by rw [List.length_cons] at h; omega) (position + 1)
    have hrecord : EndRecord.parse? (b :: bs) = none := EndRecord.parse?_of_short h
    simp only [membersFrom?, hrest, membersAt?, hrecord, Option.bind_eq_bind, Option.bind_none]

/-- What is found later in a file counts. -/
theorem membersFrom?_append {image : Bytes} (before rest : Bytes) {position : Nat}
    {members : List Member}
    (h : membersFrom? image (position + before.length) rest = some members) :
    membersFrom? image position (before ++ rest) = some members := by
  induction before generalizing position with
  | nil => simpa using h
  | cons b bs ih =>
    have hplace : position + (b :: bs).length = position + 1 + bs.length := by
      rw [List.length_cons]
      omega
    rw [hplace] at h
    have hrest := ih h
    simp only [List.cons_append, membersFrom?, hrest]

def localLength (members : List Packed) : Nat :=
  (localParts 0 members).length

def centralLength (members : List Packed) : Nat :=
  (centralParts 0 members).length

/-- The archive is one whose numbers need the wider records. -/
def Large (members : List Packed) : Prop :=
  IsWide members.length (localLength members) (centralLength members)

def betweenOf (members : List Packed) : Bytes :=
  if IsWide members.length (localLength members) (centralLength members) then
    wideEnd members.length (localLength members) (centralLength members)
  else []

def endOf (members : List Packed) : EndRecord :=
  endRecord members.length (localLength members) (centralLength members)

def endPlace (members : List Packed) : Nat :=
  localLength members + centralLength members + (betweenOf members).length

theorem imageOfPacked_eq (members : List Packed) :
    imageOfPacked members = localParts 0 members ++
      (centralParts 0 members ++ (betweenOf members ++ (endOf members).encode)) :=
  List.append_assoc ..

theorem length_imageOfPacked (members : List Packed) :
    (imageOfPacked members).length = endPlace members + 22 := by
  rw [imageOfPacked_eq]
  simp only [List.length_append, EndRecord.length_encode, endOf, endRecord, List.length_nil,
    endPlace, localLength, centralLength]
  omega

/-- What is found at the place of the directory. -/
theorem drop_localLength (members : List Packed) :
    (imageOfPacked members).drop (localLength members) =
      centralParts 0 members ++ (betweenOf members ++ (endOf members).encode) := by
  rw [imageOfPacked_eq, localLength, List.drop_left]

/-- What is found after the directory. -/
theorem drop_centralLength (members : List Packed) :
    (imageOfPacked members).drop (localLength members + centralLength members) =
      betweenOf members ++ (endOf members).encode := by
  rw [← List.drop_drop, drop_localLength, centralLength, List.drop_left]

/-- The directory starts where it should: with no byte before the archive. -/
theorem shift?_imageOfPacked {members : List Packed} (hcount : members.length < UInt16.size)
    (hlength : localLength members < UInt32.size) :
    shift? (imageOfPacked members) (endPlace members) (endOf members) = some 0 := by
  have hoffset : (endOf members).directoryOffset = localLength members :=
    Nat.min_eq_left (Nat.le_sub_one_of_lt hlength)
  have hentries : (endOf members).entries = members.length :=
    Nat.min_eq_left (Nat.le_sub_one_of_lt hcount)
  cases members with
  | nil => rfl
  | cons m ms =>
    have hcentral : 46 ≤ centralLength (m :: ms) := by
      rw [centralLength, centralParts, List.length_append, Packed.length_centralPart]
      omega
    have hfirst : CentralHeader.signature.isPrefixOf
        ((imageOfPacked (m :: ms)).drop (localLength (m :: ms))) = true := by
      rw [drop_localLength, centralParts, Packed.centralPart, CentralHeader.encode]
      simp only [List.append_assoc, List.isPrefixOf_iff_prefix, List.prefix_append]
    have hplaces : places (localLength (m :: ms)) (endPlace (m :: ms)) =
        endPlace (m :: ms) - localLength (m :: ms) - 4 + 1 := by
      rw [places, endPlace]
      omega
    have hsome : ¬(endOf (m :: ms)).entries = 0 := by
      rw [hentries]
      exact Nat.succ_ne_zero _
    have hroom : ¬endPlace (m :: ms) ≤ (endOf (m :: ms)).directoryOffset := by
      rw [hoffset, endPlace]
      omega
    rw [shift?, if_neg hsome, if_neg hroom, hoffset, hplaces, findAt?, if_pos hfirst]

/-- The end record leads to the directory when its numbers have room. -/
theorem plainDirectory?_imageOfPacked {members : List Packed}
    (hcount : members.length < UInt16.size) (hlength : localLength members < UInt32.size) :
    plainDirectory? (imageOfPacked members) (endPlace members) (endOf members) =
      some ⟨0, localLength members, members.length⟩ := by
  have hoffset : (endOf members).directoryOffset = localLength members :=
    Nat.min_eq_left (Nat.le_sub_one_of_lt hlength)
  have hentries : (endOf members).entriesHere = members.length :=
    Nat.min_eq_left (Nat.le_sub_one_of_lt hcount)
  have hdisks : ¬(endOf members).disk ≠ (endOf members).directoryDisk := fun hne => hne rfl
  simp only [plainDirectory?, shift?_imageOfPacked hcount hlength, Option.bind_eq_bind,
    Option.bind_some, hdisks, if_false, hoffset, hentries, Nat.add_zero]
  rfl

def wideRecordOf (members : List Packed) : WideEndRecord :=
  ⟨WideEndRecord.minLength, Packed.needed, Packed.needed, 0, 0, members.length, members.length,
    centralLength members, localLength members⟩

def locatorOf (members : List Packed) : WideLocator :=
  ⟨0, localLength members + centralLength members, 1⟩

theorem betweenOf_of_large {members : List Packed} (h : Large members) :
    betweenOf members = (wideRecordOf members).encode ++ (locatorOf members).encode :=
  if_pos h

/-- The wider records take this much. -/
theorem endPlace_of_large {members : List Packed} (h : Large members) :
    endPlace members = localLength members + centralLength members + 56 + WideLocator.length := by
  rw [endPlace, betweenOf_of_large h, List.length_append, WideEndRecord.length_encode,
    WideLocator.length_encode]
  rfl

/-- A directory has room for its headers. -/
theorem length_mul_le_centralParts (offset : Nat) (members : List Packed) :
    members.length * CentralHeader.minLength ≤ (centralParts offset members).length := by
  induction members generalizing offset with
  | nil => simp
  | cons m ms ih =>
    have hrest := ih (offset + (m.partAt offset).length)
    have hfirst := m.length_centralPart offset
    rw [centralParts, List.length_append, List.length_cons, Nat.succ_mul]
    rw [CentralHeader.minLength] at hrest ⊢
    omega

/-- The wider records lead to the directory. -/
theorem wideDirectory?_imageOfPacked {members : List Packed} (h : Large members)
    (hsize : (imageOfPacked members).length < UInt64.size) :
    wideDirectory? (imageOfPacked members) (endPlace members - WideLocator.length)
        (locatorOf members) =
      some ⟨0, localLength members, members.length⟩ := by
  have htotal := length_imageOfPacked members
  have hplace := endPlace_of_large h
  have hcentral : members.length * CentralHeader.minLength ≤ centralLength members :=
    length_mul_le_centralParts 0 members
  have hcount : members.length ≤ members.length * CentralHeader.minLength :=
    Nat.le_mul_of_pos_right _ (by decide)
  have hneeded : Packed.needed < UInt16.size := by decide
  have hsmall : WideEndRecord.minLength < UInt64.size ∧ 0 < UInt32.size := by decide
  have hfits : (wideRecordOf members).Fits := by
    refine ⟨hsmall.1, hneeded, hneeded, hsmall.2, hsmall.2, ?_, ?_, ?_, ?_⟩ <;>
      simp only [wideRecordOf] <;> omega
  have hparse := WideEndRecord.parse?_encode hfits
    ((locatorOf members).encode ++ (endOf members).encode)
  have hrecord : wideRecordAt? (endPlace members - WideLocator.length) (locatorOf members) 0
      ((imageOfPacked members).drop (locatorOf members).offset) =
        some (0, wideRecordOf members) := by
    have hhere : (locatorOf members).offset + 0 = localLength members + centralLength members := rfl
    have hchecks : ¬((wideRecordOf members).length < WideEndRecord.minLength ∨
        localLength members + centralLength members + WideEndRecord.headLength +
          (wideRecordOf members).length ≠ endPlace members - WideLocator.length ∨
        (wideRecordOf members).directoryDisk ≠ (locatorOf members).directoryDisk ∨
        localLength members + centralLength members <
          (wideRecordOf members).entries * CentralHeader.minLength +
            (wideRecordOf members).directoryOffset) := by
      simp only [wideRecordOf, locatorOf, WideEndRecord.minLength, WideEndRecord.headLength,
        ne_eq, not_true_eq_false, false_or, not_or]
      omega
    rw [wideRecordAt?, show (locatorOf members).offset =
      localLength members + centralLength members from rfl, drop_centralLength,
      betweenOf_of_large h, List.append_assoc, hparse]
    simp only [Option.bind_eq_bind, Option.bind_some, Nat.add_zero]
    rw [if_neg hchecks]
    rfl
  have hplaces : places (locatorOf members).offset (endPlace members - WideLocator.length) =
      52 + 1 := by
    simp only [places, locatorOf]
    omega
  have hroom : ¬(endPlace members - WideLocator.length ≤ (locatorOf members).offset ∨
      1 < (locatorOf members).disks) := by
    simp only [locatorOf]
    omega
  have hagree : ¬((wideRecordOf members).entries < (wideRecordOf members).entriesHere ∨
      (wideRecordOf members).madeBy < (wideRecordOf members).needed ∨
      (wideRecordOf members).disk ≠ (wideRecordOf members).directoryDisk) := by
    simp [wideRecordOf]
  rw [wideDirectory?, if_neg hroom, hplaces, findAt?, hrecord]
  simp only [Option.bind_eq_bind, Option.bind_some]
  rw [if_neg hagree]
  rfl

/-- The locator that the end record of a large archive asks for is the one written before it. -/
theorem locatorBefore?_of_large {members : List Packed} (h : Large members)
    (hsize : (imageOfPacked members).length < UInt64.size) (hwide : (endOf members).MayBeWide) :
    locatorBefore? (imageOfPacked members) (endPlace members) (endOf members) =
      some (locatorOf members) := by
  have htotal := length_imageOfPacked members
  have hplace := endPlace_of_large h
  have hfits : (locatorOf members).Fits := by
    have hsmall : 0 < UInt32.size ∧ 1 < UInt32.size := by decide
    refine ⟨hsmall.1, ?_, hsmall.2⟩
    simp only [locatorOf]
    omega
  have hdrop : (imageOfPacked members).drop (endPlace members - WideLocator.length) =
      (locatorOf members).encode ++ (endOf members).encode := by
    have hstart : endPlace members - WideLocator.length =
        localLength members + centralLength members + (wideRecordOf members).encode.length := by
      rw [WideEndRecord.length_encode, hplace, Nat.add_sub_cancel]
      rfl
    rw [hstart, ← List.drop_drop, drop_centralLength, betweenOf_of_large h, List.append_assoc,
      List.drop_left]
  rw [locatorBefore?, if_pos ⟨hwide, by omega⟩, hdrop, WideLocator.parse?_encode hfits]

/-- What is asked of packed members for their archive to be read back: they fit their headers, the
archive is no longer than a number can tell, and what stands before the end record is not taken for
a locator when it is none. -/
structure Legible (members : List Packed) : Prop where
  fits : ∀ m ∈ members, m.Fits
  length_lt : (imageOfPacked members).length < UInt64.size
  no_locator : Large members ∨
    locatorBefore? (imageOfPacked members) (endPlace members) (endOf members) = none

/-- Only a directory of one certain size, or at one certain place, can be mistaken. -/
theorem no_locator_of_room {members : List Packed} (hcount : members.length < UInt16.size - 1)
    (hlength : localLength members < UInt32.size - 1) :
    locatorBefore? (imageOfPacked members) (endPlace members) (endOf members) = none := by
  have hplain : ¬(endOf members).MayBeWide := by
    simp only [EndRecord.MayBeWide, endOf, endRecord]
    omega
  exact if_neg fun hwide => hplain hwide.1

theorem directory?_imageOfPacked {members : List Packed} (h : Legible members) :
    directory? (imageOfPacked members) (endPlace members) (endOf members) =
      some ⟨0, localLength members, members.length⟩ := by
  have hplain (hcount : members.length < UInt16.size) (hlength : localLength members < UInt32.size)
      (hnone : locatorBefore? (imageOfPacked members) (endPlace members) (endOf members) = none) :
      directory? (imageOfPacked members) (endPlace members) (endOf members) =
        some ⟨0, localLength members, members.length⟩ := by
    rw [directory?, hnone]
    exact plainDirectory?_imageOfPacked hcount hlength
  by_cases hlarge : Large members
  · by_cases hwide : (endOf members).MayBeWide
    · rw [directory?, locatorBefore?_of_large hlarge h.length_lt hwide]
      exact wideDirectory?_imageOfPacked hlarge h.length_lt
    · -- only the size of the directory has no room, and that is not looked at
      have hnone : locatorBefore? (imageOfPacked members) (endPlace members) (endOf members) =
          none := if_neg fun hasked => hwide hasked.1
      simp only [EndRecord.MayBeWide, endOf, endRecord, not_or] at hwide
      exact hplain (by omega) (by omega) hnone
  · have hnone := h.no_locator.resolve_left hlarge
    simp only [Large, IsWide, not_or, Nat.not_le] at hlarge
    exact hplain hlarge.1 (by omega) hnone

/-- The end record leads to all members, if they have different names. -/
theorem membersAt?_imageOfPacked {members : List Packed} (h : Legible members)
    (hnames : ((membersOf 0 members).map Member.name).Nodup) :
    membersAt? (imageOfPacked members) (endPlace members) (endOf members).encode =
      some (membersOf 0 members) := by
  have hsizes : UInt16.size = 65536 ∧ UInt32.size = 4294967296 := ⟨rfl, rfl⟩
  have htotal := length_imageOfPacked members
  have hplace : localLength members ≤ endPlace members := by
    rw [endPlace]
    omega
  have hrecord : (endOf members).Fits :=
    ⟨by simp [endOf, endRecord], by simp [endOf, endRecord], by simp only [endOf, endRecord]; omega,
      by simp only [endOf, endRecord]; omega, by simp only [endOf, endRecord]; omega,
      by simp only [endOf, endRecord]; omega, by simp [endOf, endRecord]⟩
  have hparse := EndRecord.parse?_encode hrecord []
  rw [List.append_nil] at hparse
  have hend : 0 + (localParts 0 members).length ≤ localLength members := by
    rw [Nat.zero_add]
    exact Nat.le_refl _
  have hstart : (⟨0, localLength members, members.length⟩ : Directory).start < UInt64.size :=
    Nat.lt_of_le_of_lt hplace (Nat.lt_of_le_of_lt (Nat.le_add_right _ 22) (htotal ▸ h.length_lt))
  have hmembers := centralMembers?_centralParts h.fits rfl hstart hend
    (betweenOf members ++ (endOf members).encode)
  simp only [membersAt?, hparse, directory?_imageOfPacked h, drop_localLength, hmembers,
    Option.bind_eq_bind, Option.bind_some, mergeNames_of_nodup hnames]
  rfl

/-- An archive is read as its members, if they have different names. -/
theorem members?_imageOfPacked {members : List Packed} (h : Legible members)
    (hnames : ((membersOf 0 members).map Member.name).Nodup) :
    members? (imageOfPacked members) = some (membersOf 0 members) := by
  have hfound := membersAt?_imageOfPacked h hnames
  have hplace : 0 + (localParts 0 members ++ (centralParts 0 members ++ betweenOf members)).length =
      endPlace members := by
    simp only [List.length_append, endPlace, localLength, centralLength]
    omega
  have hlast : membersFrom? (imageOfPacked members)
      (0 + (localParts 0 members ++ (centralParts 0 members ++ betweenOf members)).length)
      (endOf members).encode = some (membersOf 0 members) := by
    have hend := EndRecord.length_encode (endOf members)
    rw [hplace]
    cases htail : (endOf members).encode with
    | nil =>
      rw [htail, List.length_nil] at hend
      omega
    | cons b bs =>
      have hshort : bs.length < 22 := by
        rw [htail, List.length_cons, endOf, endRecord, List.length_nil] at hend
        omega
      rw [membersFrom?, membersFrom?_of_short _ hshort]
      exact htail ▸ hfound
  have hfrom := membersFrom?_append _ _ hlast
  rwa [List.append_assoc, List.append_assoc, ← imageOfPacked_eq] at hfrom

def NewMember.name : NewMember → Text
  | .directory name | .file name _ => name

structure ReadsAs (image : Bytes) (new : NewMember) (member : Member) : Prop where
  name : member.name = new.name
  packed : member.packed? image = some (Packed.ofNew new).data
  unpack : ∀ name content, new = .file name content →
    member.unpack? (Packed.ofNew new).data = some content

theorem Packed.fits_ofNew {new : NewMember} (hname : (Packed.ofNew new).name.length < UInt16.size)
    (hsize : (Packed.ofNew new).common.size < UInt32.size - 1)
    (hdata : (Packed.ofNew new).data.length < UInt32.size - 1) : (Packed.ofNew new).Fits := by
  have hflags : ∀ name, nameFlags name < UInt16.size := by
    intro name
    unfold nameFlags
    split <;> decide
  have hsmall : 0 < UInt16.size ∧ 8 < UInt16.size ∧ firstDay < UInt16.size ∧
      0 < UInt32.size - 1 := by
    decide
  have hroom {n : Nat} (h : n < UInt32.size - 1) : n < UInt32.size :=
    Nat.lt_of_lt_of_le h (Nat.sub_le ..)
  obtain ⟨hzero, hdeflated, hday, hempty⟩ := hsmall
  cases new with
  | directory name =>
    have hattributes : 0o40755 * 65536 < UInt32.size := by decide
    have hmethod : 0 ≠ Description.aesMethod := by decide
    exact ⟨⟨hflags _, hzero, hzero, hday, hroom hempty, hroom hempty, hroom hempty⟩, hempty, hempty,
      hmethod, hattributes, hname⟩
  | file name content =>
    have hattributes : 0o100644 * 65536 < UInt32.size := by decide
    have hmethod : 8 ≠ Description.aesMethod := by decide
    have hcrc : (Crc32.checksum content).toNat < UInt32.size := (Crc32.checksum content).toNat_lt
    exact ⟨⟨hflags _, hdeflated, hzero, hday, hcrc, hroom hdata, hroom hsize⟩, hdata, hsize,
      hmethod, hattributes, hname⟩

/-- A member is read as it was written from where its local part is. -/
theorem Packed.readsAs_member {new : NewMember} (hfits : (Packed.ofNew new).Fits)
    (before rest : Bytes) :
    ReadsAs (before ++ ((Packed.ofNew new).partAt before.length ++ rest)) new
      ((Packed.ofNew new).member before.length) := by
  have hplain : ∀ name, (nameFlags name).testBit 0 = false := by
    intro name
    unfold nameFlags
    split <;> decide
  cases new with
  | directory name =>
    exact ⟨decode_nameFlags name, packed?_member hfits (hplain _) (Or.inl rfl) rfl before rest,
      fun _ _ h => by cases h⟩
  | file name content =>
    refine ⟨decode_nameFlags name, packed?_member hfits (hplain _) (Or.inr rfl) rfl before rest,
      fun _ _ h => ?_⟩
    cases h
    have hroom : content.length ≤ Member.maxRoom := by
      have hlimit : UInt32.size - 1 ≤ Member.maxRoom := by decide
      exact Nat.le_trans (Nat.le_of_lt hfits.size) hlimit
    simp [Member.unpack?, member, ofNew, Deflate.inflate_compress, hroom]

theorem forall₂_readsAs {news : List NewMember} (hfits : ∀ new ∈ news, (Packed.ofNew new).Fits)
    (before rest : Bytes) :
    List.Forall₂ (ReadsAs (before ++ (localParts before.length (news.map Packed.ofNew) ++ rest)))
      news (membersOf before.length (news.map Packed.ofNew)) := by
  induction news generalizing before with
  | nil => exact .nil
  | cons new news ih =>
    have hfirst := Packed.readsAs_member (hfits new (List.mem_cons_self ..)) before
      (localParts (before.length + ((Packed.ofNew new).partAt before.length).length)
        (news.map Packed.ofNew) ++ rest)
    have hrest := ih (fun m hm => hfits m (List.mem_cons_of_mem _ hm))
      (before ++ (Packed.ofNew new).partAt before.length)
    simp only [List.length_append, List.append_assoc] at hrest
    simp only [List.map_cons, localParts, membersOf, List.append_assoc]
    exact .cons hfirst hrest

theorem names_of_readsAs {image : Bytes} {news : List NewMember} {members : List Member}
    (h : List.Forall₂ (ReadsAs image) news members) :
    members.map Member.name = news.map NewMember.name := by
  induction h with
  | nil => rfl
  | cons hfirst _ ih => rw [List.map_cons, List.map_cons, hfirst.name, ih]

/-- Local parts have room for names and data. -/
theorem le_length_localParts {members : List Packed} {m : Packed} (hm : m ∈ members)
    (offset : Nat) : m.name.length + m.data.length ≤ (localParts offset members).length := by
  induction members generalizing offset with
  | nil => cases hm
  | cons first rest ih =>
    rw [localParts, List.length_append]
    rcases List.mem_cons.mp hm with rfl | hm
    · have hpart := m.length_partAt offset
      omega
    · have hlater := ih hm (offset + (first.partAt offset).length)
      omega

/-- A small archive is legible if its files are not too long when they are unpacked. -/
theorem legible_of_small {news : List NewMember} (hlength : (image news).length < UInt16.size - 1)
    (hsize : ∀ new ∈ news, (Packed.ofNew new).common.size < UInt32.size - 1) :
    Legible (news.map Packed.ofNew) := by
  have hlimits : UInt16.size - 1 < UInt32.size - 1 ∧ UInt32.size - 1 < UInt64.size := by decide
  have htotal := length_imageOfPacked (news.map Packed.ofNew)
  have hcentral : news.length * CentralHeader.minLength ≤
      centralLength (news.map Packed.ofNew) := by
    have hheaders := length_mul_le_centralParts 0 (news.map Packed.ofNew)
    rwa [List.length_map] at hheaders
  rw [image] at hlength
  rw [endPlace] at htotal
  rw [CentralHeader.minLength] at hcentral
  refine ⟨fun m hm => ?_, by omega, Or.inr (no_locator_of_room ?_ (by omega))⟩
  · obtain ⟨new, hnew, rfl⟩ := List.mem_map.mp hm
    have hroom := le_length_localParts hm 0
    rw [← localLength] at hroom
    exact Packed.fits_ofNew (by omega) (hsize new hnew) (by omega)
  · rw [List.length_map]
    omega

/-- A legible archive is read as it was written, if its members have different names. -/
theorem members?_of_legible {news : List NewMember} (hnames : (news.map NewMember.name).Nodup)
    (h : Legible (news.map Packed.ofNew)) :
    ∃ members, members? (image news) = some members ∧
      List.Forall₂ (ReadsAs (image news)) news members := by
  have hreads := forall₂_readsAs (fun new hnew => h.fits _ (List.mem_map_of_mem hnew)) []
    (centralParts 0 (news.map Packed.ofNew) ++
      (betweenOf (news.map Packed.ofNew) ++ (endOf (news.map Packed.ofNew)).encode))
  rw [List.nil_append, List.length_nil, ← imageOfPacked_eq] at hreads
  refine ⟨_, members?_imageOfPacked h ?_, hreads⟩
  rwa [names_of_readsAs hreads]

end Retarget.Zip

import Retarget.Zip.Record

/-!
The records of an archive read back as they were written. A number is read back when it fits its
width, a list of numbers when each of them does, and a record when its numbers and the lengths of
its parts do. What follows a record is left as it is.
-/
namespace Retarget

namespace Bytes

def capacity : (width : Nat) → Nat
  | 0 => 1
  | width + 1 => 256 * capacity width

theorem length_littleEndian (width n : Nat) : (littleEndian width n).length = width := by
  induction width generalizing n with
  | zero => rfl
  | succ width ih => simp [littleEndian, ih]

theorem ofLittleEndian_littleEndian {width n : Nat} (h : n < capacity width) :
    ofLittleEndian (littleEndian width n) = n := by
  induction width generalizing n with
  | zero =>
    rw [capacity] at h
    have hzero : n = 0 := by omega
    rw [hzero]
    rfl
  | succ width ih =>
    have hhigh : n / 256 < capacity width := by
      rw [capacity] at h
      omega
    have hlow : (UInt8.ofNat (n % 256)).toNat = n % 256 := by
      rw [UInt8.toNat_ofNat']
      omega
    rw [littleEndian, ofLittleEndian, ih hhigh, hlow]
    omega

end Bytes

namespace Zip

def Fit (fields : List (Nat × Nat)) : Prop :=
  ∀ field ∈ fields, field.2 < Bytes.capacity field.1

theorem fit_nil : Fit [] :=
  fun _ h => nomatch h

theorem fit_cons {field : Nat × Nat} {fields : List (Nat × Nat)} :
    Fit (field :: fields) ↔ field.2 < Bytes.capacity field.1 ∧ Fit fields :=
  List.forall_mem_cons

theorem takeFields?_putFields {fields : List (Nat × Nat)} (h : Fit fields) (rest : Bytes) :
    takeFields? (fields.map Prod.fst) (putFields fields ++ rest) =
      some (fields.map Prod.snd, rest) := by
  induction fields with
  | nil => rfl
  | cons field fields ih =>
    obtain ⟨width, n⟩ := field
    have hlength := Bytes.length_littleEndian width n
    obtain ⟨hfits, hfields⟩ := fit_cons.mp h
    have hrest := ih hfields
    have hput : putFields ((width, n) :: fields) ++ rest =
        Bytes.littleEndian width n ++ (putFields fields ++ rest) := by
      simp [putFields]
    have henough : ¬(Bytes.littleEndian width n ++ (putFields fields ++ rest)).length < width := by
      rw [List.length_append, hlength]
      omega
    rw [List.map_cons, takeFields?, hput, if_neg henough, List.drop_left' hlength,
      List.take_left' hlength, hrest, Bytes.ofLittleEndian_littleEndian hfits]
    rfl

theorem takeBytes?_append {count : Nat} {part : Bytes} (h : part.length = count) (rest : Bytes) :
    takeBytes? count (part ++ rest) = some (part, rest) := by
  have henough : ¬(part ++ rest).length < count := by
    rw [List.length_append, h]
    omega
  rw [takeBytes?, if_neg henough, List.take_left' h, List.drop_left' h]

theorem afterSignature?_append (signature rest : Bytes) :
    afterSignature? signature (signature ++ rest) = some rest := by
  have hprefix : signature.isPrefixOf (signature ++ rest) = true := by
    rw [List.isPrefixOf_iff_prefix]
    exact List.prefix_append signature rest
  rw [afterSignature?, if_pos hprefix, List.drop_left]

theorem length_putFields_cons (field : Nat × Nat) (fields : List (Nat × Nat)) :
    (putFields (field :: fields)).length = field.1 + (putFields fields).length := by
  have hput : putFields (field :: fields) =
      Bytes.littleEndian field.1 field.2 ++ putFields fields := by simp [putFields]
  rw [hput, List.length_append, Bytes.length_littleEndian]

theorem length_putFields_nil : (putFields []).length = 0 := rfl

/-- The numbers that two headers of a member share fit their fields. -/
structure Common.Fits (c : Common) : Prop where
  flags : c.flags < UInt16.size
  method : c.method < UInt16.size
  time : c.time < UInt16.size
  date : c.date < UInt16.size
  crc : c.crc < UInt32.size
  packedSize : c.packedSize < UInt32.size
  size : c.size < UInt32.size

theorem LocalHeader.following?_encode {h : LocalHeader} (hcommon : h.common.Fits)
    (hneeded : h.needed < UInt16.size) (hname : h.name.length < UInt16.size)
    (hextra : h.extra.length < UInt16.size) (rest : Bytes) :
    following? (h.encode ++ rest) = some rest := by
  have hfit : Fit ((2, h.needed) :: h.common.fields ++
      [(2, h.name.length), (2, h.extra.length)]) := by
    obtain ⟨hflags, hmethod, htime, hdate, hcrc, hpacked, hsize⟩ := hcommon
    simp only [Common.fields, List.cons_append, List.nil_append, fit_cons]
    exact ⟨hneeded, hflags, hmethod, htime, hdate, hcrc, hpacked, hsize, hname, hextra, fit_nil⟩
  have hfields := takeFields?_putFields hfit (h.name ++ h.extra ++ rest)
  simp only [Common.fields, List.cons_append, List.nil_append, List.map_cons, List.map_nil]
    at hfields
  unfold following? encode
  simp only [List.append_assoc, afterSignature?_append, Option.bind_eq_bind, Option.bind_some,
    Common.fields, List.cons_append, List.nil_append] at hfields ⊢
  rw [hfields]
  simp only [Option.bind_some]
  rw [← List.append_assoc, List.drop_left' (by rw [List.length_append])]

theorem LocalHeader.length_encode (h : LocalHeader) :
    h.encode.length = 30 + h.name.length + h.extra.length := by
  simp only [encode, signature, Common.fields, List.cons_append, List.nil_append,
    List.length_append, List.length_cons, length_putFields_cons, length_putFields_nil]
  omega

/-- The numbers of a central header and the lengths of its parts fit their fields. -/
structure CentralHeader.Fits (h : CentralHeader) : Prop where
  common : h.common.Fits
  madeBy : h.madeBy < UInt16.size
  needed : h.needed < UInt16.size
  disk : h.disk < UInt16.size
  internalAttributes : h.internalAttributes < UInt16.size
  externalAttributes : h.externalAttributes < UInt32.size
  offset : h.offset < UInt32.size
  name : h.name.length < UInt16.size
  extra : h.extra.length < UInt16.size
  comment : h.comment.length < UInt16.size

theorem CentralHeader.parse?_encode {h : CentralHeader} (hfits : h.Fits) (rest : Bytes) :
    parse? (h.encode ++ rest) = some (h, rest) := by
  obtain ⟨⟨hflags, hmethod, htime, hdate, hcrc, hpacked, hsize⟩, hmadeBy, hneeded, hdisk,
    hinternal, hexternal, hoffset, hname, hextra, hcomment⟩ := hfits
  have hfit : Fit ((2, h.madeBy) :: (2, h.needed) :: h.common.fields ++
      [(2, h.name.length), (2, h.extra.length), (2, h.comment.length), (2, h.disk),
        (2, h.internalAttributes), (4, h.externalAttributes), (4, h.offset)]) := by
    simp only [Common.fields, List.cons_append, List.nil_append, fit_cons]
    exact ⟨hmadeBy, hneeded, hflags, hmethod, htime, hdate, hcrc, hpacked, hsize, hname, hextra,
      hcomment, hdisk, hinternal, hexternal, hoffset, fit_nil⟩
  have hfields := takeFields?_putFields hfit (h.name ++ (h.extra ++ (h.comment ++ rest)))
  simp only [Common.fields, List.cons_append, List.nil_append, List.map_cons, List.map_nil]
    at hfields
  unfold parse? encode
  simp only [List.append_assoc, afterSignature?_append, Option.bind_eq_bind, Option.bind_some,
    Common.fields, List.cons_append, List.nil_append]
  rw [hfields]
  simp only [Option.bind_some, takeBytes?_append]
  rfl

theorem CentralHeader.length_encode (h : CentralHeader) :
    h.encode.length = minLength + h.name.length + h.extra.length + h.comment.length := by
  simp only [encode, signature, Common.fields, List.cons_append, List.nil_append,
    List.length_append, List.length_cons, length_putFields_cons, length_putFields_nil, minLength]
  omega

/-- The numbers of an end record and the length of its comment fit their fields. -/
structure EndRecord.Fits (r : EndRecord) : Prop where
  disk : r.disk < UInt16.size
  directoryDisk : r.directoryDisk < UInt16.size
  entriesHere : r.entriesHere < UInt16.size
  entries : r.entries < UInt16.size
  directorySize : r.directorySize < UInt32.size
  directoryOffset : r.directoryOffset < UInt32.size
  comment : r.comment.length < UInt16.size

theorem EndRecord.parse?_encode {r : EndRecord} (hfits : r.Fits) (rest : Bytes) :
    parse? (r.encode ++ rest) = some (r, rest) := by
  obtain ⟨hdisk, hdirectoryDisk, hhere, hentries, hsize, hoffset, hcomment⟩ := hfits
  have hfit : Fit [(2, r.disk), (2, r.directoryDisk), (2, r.entriesHere), (2, r.entries),
      (4, r.directorySize), (4, r.directoryOffset), (2, r.comment.length)] := by
    simp only [fit_cons]
    exact ⟨hdisk, hdirectoryDisk, hhere, hentries, hsize, hoffset, hcomment, fit_nil⟩
  have hfields := takeFields?_putFields hfit (r.comment ++ rest)
  simp only [List.map_cons, List.map_nil] at hfields
  unfold parse? encode
  simp only [List.append_assoc, afterSignature?_append, Option.bind_eq_bind, Option.bind_some]
  rw [hfields]
  simp only [Option.bind_some, takeBytes?_append]
  rfl

theorem EndRecord.length_encode (r : EndRecord) : r.encode.length = 22 + r.comment.length := by
  simp only [encode, signature, List.cons_append, List.nil_append, List.length_append,
    List.length_cons, length_putFields_cons, length_putFields_nil]
  omega

/-- The numbers of the locator of a large archive fit their fields. -/
structure WideLocator.Fits (l : WideLocator) : Prop where
  directoryDisk : l.directoryDisk < UInt32.size
  offset : l.offset < UInt64.size
  disks : l.disks < UInt32.size

theorem WideLocator.parse?_encode {l : WideLocator} (hfits : l.Fits) (rest : Bytes) :
    parse? (l.encode ++ rest) = some l := by
  obtain ⟨hdisk, hoffset, hdisks⟩ := hfits
  have hfit : Fit [(4, l.directoryDisk), (8, l.offset), (4, l.disks)] := by
    simp only [fit_cons]
    exact ⟨hdisk, hoffset, hdisks, fit_nil⟩
  have hfields := takeFields?_putFields hfit rest
  simp only [List.map_cons, List.map_nil] at hfields
  unfold parse? encode
  simp only [List.append_assoc, afterSignature?_append, Option.bind_eq_bind, Option.bind_some]
  rw [hfields]
  rfl

theorem WideLocator.length_encode (l : WideLocator) : l.encode.length = length := by
  simp only [encode, signature, List.cons_append, List.nil_append, List.length_cons,
    length_putFields_cons, length_putFields_nil, length]

/-- The numbers of the end record of a large archive fit their fields. -/
structure WideEndRecord.Fits (r : WideEndRecord) : Prop where
  length : r.length < UInt64.size
  madeBy : r.madeBy < UInt16.size
  needed : r.needed < UInt16.size
  disk : r.disk < UInt32.size
  directoryDisk : r.directoryDisk < UInt32.size
  entriesHere : r.entriesHere < UInt64.size
  entries : r.entries < UInt64.size
  directorySize : r.directorySize < UInt64.size
  directoryOffset : r.directoryOffset < UInt64.size

theorem WideEndRecord.parse?_encode {r : WideEndRecord} (hfits : r.Fits) (rest : Bytes) :
    parse? (r.encode ++ rest) = some r := by
  obtain ⟨hlength, hmadeBy, hneeded, hdisk, hdirectoryDisk, hhere, hentries, hsize, hoffset⟩ :=
    hfits
  have hfit : Fit [(8, r.length), (2, r.madeBy), (2, r.needed), (4, r.disk), (4, r.directoryDisk),
      (8, r.entriesHere), (8, r.entries), (8, r.directorySize), (8, r.directoryOffset)] := by
    simp only [fit_cons]
    exact ⟨hlength, hmadeBy, hneeded, hdisk, hdirectoryDisk, hhere, hentries, hsize, hoffset,
      fit_nil⟩
  have hfields := takeFields?_putFields hfit rest
  simp only [List.map_cons, List.map_nil] at hfields
  unfold parse? encode
  simp only [List.append_assoc, afterSignature?_append, Option.bind_eq_bind, Option.bind_some]
  rw [hfields]
  rfl

theorem WideEndRecord.length_encode (r : WideEndRecord) :
    r.encode.length = headLength + minLength := by
  simp only [encode, signature, List.cons_append, List.nil_append, List.length_cons,
    length_putFields_cons, length_putFields_nil, headLength, minLength]

theorem takeFields?_of_short {widths : List Nat} {bytes : Bytes}
    (h : bytes.length < widths.foldr (· + ·) 0) :
    takeFields? widths bytes = none := by
  induction widths generalizing bytes with
  | nil => simp at h
  | cons width widths ih =>
    rw [takeFields?]
    split
    · rfl
    · next henough =>
      have hrest : (bytes.drop width).length < widths.foldr (· + ·) 0 := by
        rw [List.foldr_cons] at h
        rw [List.length_drop]
        omega
      rw [ih hrest]

theorem EndRecord.parse?_of_short {bytes : Bytes} (h : bytes.length < 22) :
    parse? bytes = none := by
  unfold parse?
  cases hafter : afterSignature? signature bytes with
  | none => rfl
  | some rest =>
    have hlength : rest.length < [2, 2, 2, 2, 4, 4, 2].foldr (· + ·) 0 := by
      unfold afterSignature? at hafter
      split at hafter
      · cases hafter
        rw [List.length_drop]
        simp [signature]
        omega
      · cases hafter
    simp only [Option.bind_eq_bind, Option.bind_some, takeFields?_of_short hlength,
      Option.bind_none]

end Zip

end Retarget

import Retarget.Proofs.Zip.Records
import Retarget.Zip.Extra
import Retarget.Zip.Image

/-!
Where a member is said to be. A header has four bytes for the place of its local part, the greatest
number standing for a place that is told in an extra field. Whichever way it is told, it is read
back, for all places in an archive of less than 2^64 bytes.
-/
namespace Retarget.Zip

namespace Extra

theorem number_append {width n : Nat} (h : n < Bytes.capacity width) (known : Description)
    (rest : Bytes) :
    number width ⟨known, Bytes.littleEndian width n ++ rest⟩ = .ok n ⟨known, rest⟩ := by
  have htaken := takeBytes?_append (Bytes.length_littleEndian width n) rest
  simp only [number, bytes, bind, EStateM.bind, htaken, pure, EStateM.pure,
    Bytes.ofLittleEndian_littleEndian h]

theorem learn_apply (change : Description → Description) (s : State) :
    learn change s = .ok () { s with known := change s.known } := rfl

theorem wideNumber_apply (length : Nat) (fixed : Description → Nat)
    (change : Nat → Description → Description) (s : State) :
    wideNumber length fixed change s =
      (if length ≥ 24 ∨ fixed s.known = UInt32.size - 1 then
        number 8 >>= fun n => learn (change n) >>= fun _ => pure 8
      else pure 0 : Reader Nat) s := rfl

/-- A number that has room in the fixed part is left out of a field that has not all of them. -/
theorem wideNumber_of_room {length : Nat} {fixed : Description → Nat}
    {change : Nat → Description → Description} {known : Description} (hlength : length < 24)
    (hroom : fixed known < UInt32.size - 1) (left : Bytes) :
    wideNumber length fixed change ⟨known, left⟩ = .ok 0 ⟨known, left⟩ := by
  have hnot : ¬(length ≥ 24 ∨ fixed known = UInt32.size - 1) := by omega
  rw [wideNumber_apply, if_neg hnot]
  rfl

theorem wideNumber_of_no_room {length n : Nat} {fixed : Description → Nat}
    {change : Nat → Description → Description} {known : Description} (hn : n < UInt64.size)
    (hroom : fixed known = UInt32.size - 1) (rest : Bytes) :
    wideNumber length fixed change ⟨known, Bytes.littleEndian 8 n ++ rest⟩ =
      .ok 8 ⟨change n known, rest⟩ := by
  have hwide : length ≥ 24 ∨ fixed known = UInt32.size - 1 := Or.inr hroom
  have hnumber : number 8 ⟨known, Bytes.littleEndian 8 n ++ rest⟩ = .ok n ⟨known, rest⟩ :=
    number_append hn known rest
  rw [wideNumber_apply, if_pos hwide]
  simp only [bind, EStateM.bind, hnumber, learn_apply, pure, EStateM.pure]

/-- A field with the offset alone. -/
theorem wideNumbers_offset {known : Description} {offset : Nat} (hoffset : offset < UInt64.size)
    (hsize : known.size < UInt32.size - 1) (hpacked : known.packedSize < UInt32.size - 1)
    (hwide : known.offset = UInt32.size - 1) :
    wideNumbers 8 ⟨known, Bytes.littleEndian 8 offset⟩ =
      .ok () ⟨{ known with offset := offset }, []⟩ := by
  have hsmall : 8 < 24 := by omega
  have hfirst (change) : wideNumber 8 Description.size change
      ⟨known, Bytes.littleEndian 8 offset⟩ = .ok 0 ⟨known, Bytes.littleEndian 8 offset⟩ :=
    wideNumber_of_room hsmall hsize _
  have hsecond (change) : wideNumber 8 Description.packedSize change
      ⟨known, Bytes.littleEndian 8 offset⟩ = .ok 0 ⟨known, Bytes.littleEndian 8 offset⟩ :=
    wideNumber_of_room hsmall hpacked _
  have hthird (change) : wideNumber 8 Description.offset change
      ⟨known, Bytes.littleEndian 8 offset ++ []⟩ = .ok 8 ⟨change offset known, []⟩ :=
    wideNumber_of_no_room hoffset hwide []
  simp only [List.append_nil] at hthird
  simp only [wideNumbers, bind, EStateM.bind, hfirst, hsecond, hthird]
  rfl

/-- Fields are read as long as there are bytes. -/
theorem fields_apply (fuel : Nat) (s : State) :
    fields (fuel + 1) s =
      (if s.left ≠ [] then field >>= fun _ => fields fuel else pure () : Reader Unit) s := rfl

theorem fields_wideOffset {known : Description} {offset : Nat} (hoffset : offset < UInt64.size)
    (hsize : known.size < UInt32.size - 1) (hpacked : known.packedSize < UInt32.size - 1)
    (hwide : known.offset = UInt32.size - 1) (fuel : Nat) :
    fields (fuel + 2) ⟨known, putFields [(2, 1), (2, 8), (8, offset)]⟩ =
      .ok () ⟨{ known with offset := offset }, []⟩ := by
  have hkind := number_append (show 1 < Bytes.capacity 2 by decide) known
    (Bytes.littleEndian 2 8 ++ Bytes.littleEndian 8 offset)
  have hlength := number_append (show 8 < Bytes.capacity 2 by decide) known
    (Bytes.littleEndian 8 offset)
  have hnumbers := wideNumbers_offset hoffset hsize hpacked hwide
  have hput : putFields [(2, 1), (2, 8), (8, offset)] =
      Bytes.littleEndian 2 1 ++ (Bytes.littleEndian 2 8 ++ Bytes.littleEndian 8 offset) := by
    simp [putFields]
  have hfield : field ⟨known, putFields [(2, 1), (2, 8), (8, offset)]⟩ =
      .ok () ⟨{ known with offset := offset }, []⟩ := by
    simp only [field, bind, EStateM.bind, hput, hkind, hlength, if_true, hnumbers]
  have hleft : putFields [(2, 1), (2, 8), (8, offset)] ≠ [] := by
    rw [hput]
    exact List.cons_ne_nil _ _
  rw [fields_apply, if_pos hleft]
  simp only [bind, EStateM.bind, hfield, fields_apply]
  rfl

end Extra

namespace Packed

/-- What is written of a packed member fits its fields, and its lengths are not taken for numbers
that are told elsewhere. -/
structure Fits (m : Packed) : Prop where
  common : m.common.Fits
  packedSize : m.common.packedSize < UInt32.size - 1
  size : m.common.size < UInt32.size - 1
  method : m.common.method ≠ Description.aesMethod
  externalAttributes : m.externalAttributes < UInt32.size
  name : m.name.length < UInt16.size

theorem wideOffset_of_lt {offset : Nat} (h : offset < UInt32.size - 1) : wideOffset offset = [] :=
  if_pos h

theorem length_wideOffset_le (offset : Nat) : (wideOffset offset).length ≤ 12 := by
  unfold wideOffset
  split
  · exact Nat.zero_le 12
  · simp only [length_putFields_cons, length_putFields_nil]
    omega

def header (offset : Nat) (m : Packed) : CentralHeader :=
  ⟨madeBy, needed, m.common, 0, 0, m.externalAttributes, min offset (UInt32.size - 1), m.name,
    wideOffset offset, []⟩

theorem parse?_centralPart {m : Packed} (hfits : m.Fits) (offset : Nat) (rest : Bytes) :
    CentralHeader.parse? (m.centralPart offset ++ rest) = some (m.header offset, rest) := by
  have hzero : 0 < UInt16.size := by decide
  have hmadeBy : madeBy < UInt16.size := by decide
  have hneeded : needed < UInt16.size := by decide
  have hoffset : min offset (UInt32.size - 1) < UInt32.size := by
    have hpositive : 0 < UInt32.size := by decide
    omega
  have hextra : (wideOffset offset).length < UInt16.size :=
    Nat.lt_of_le_of_lt (length_wideOffset_le offset) (by decide)
  have hheader : (m.header offset).Fits :=
    ⟨hfits.common, hmadeBy, hneeded, hzero, hzero, hfits.externalAttributes, hoffset, hfits.name,
      hextra, hzero⟩
  exact CentralHeader.parse?_encode hheader rest

/-- A header tells where its member is, in one way or the other. -/
theorem ofCentral?_header {m : Packed} (hfits : m.Fits) {offset : Nat}
    (hoffset : offset < UInt64.size) :
    Description.ofCentral? (m.header offset) =
      some { Description.ofFixed (m.header offset) with offset := offset } := by
  have hmethod : (Description.ofFixed (m.header offset)).method ≠ Description.aesMethod :=
    hfits.method
  by_cases hroom : offset < UInt32.size - 1
  · have hextra : (m.header offset).extra = [] := wideOffset_of_lt hroom
    have hhere : (Description.ofFixed (m.header offset)).offset = offset :=
      Nat.min_eq_left (Nat.le_of_lt hroom)
    simp only [Description.ofCentral?, hextra, List.length_nil, Extra.fields, pure, EStateM.pure]
    rw [Option.filter_some, if_pos (by simp [hmethod])]
    exact congrArg
      (fun place => some { Description.ofFixed (m.header offset) with offset := place }) hhere
  · have hextra : (m.header offset).extra = putFields [(2, 1), (2, 8), (8, offset)] := if_neg hroom
    have hwide : (Description.ofFixed (m.header offset)).offset = UInt32.size - 1 :=
      Nat.min_eq_right (Nat.le_of_not_lt hroom)
    have hlength : (putFields [(2, 1), (2, 8), (8, offset)]).length = 10 + 2 := by
      simp only [length_putFields_cons, length_putFields_nil]
    have hsize : (Description.ofFixed (m.header offset)).size < UInt32.size - 1 := hfits.size
    have hpacked : (Description.ofFixed (m.header offset)).packedSize < UInt32.size - 1 :=
      hfits.packedSize
    have hfields := Extra.fields_wideOffset hoffset hsize hpacked hwide 10
    simp only [Description.ofCentral?, hextra, hlength, hfields]
    rw [Option.filter_some, if_pos (by simp [hmethod])]

end Packed

end Retarget.Zip

import Retarget.Proofs.Text.Slices
import Retarget.Zip.Extra
import Retarget.Zip.Image

/-!
Names of members read back as they were written. A name that is all ASCII is not marked and is read
in code page 437, whose lower half is ASCII; any other is marked, and read as the UTF-8 that it is.
-/
namespace Retarget

namespace Text

/-- A character is one byte when its first byte is below 128. -/
theorem utf8EncodeChar_of_ascii {c : Char} (h : ∀ b ∈ String.utf8EncodeChar c, b < 128) :
    String.utf8EncodeChar c = [UInt8.ofNat c.toNat] ∧ c.toNat < 128 := by
  have hval : c.val.toNat = c.toNat := rfl
  unfold String.utf8EncodeChar at h ⊢
  simp only [hval] at h ⊢
  split at h
  · next hsmall =>
    rw [if_pos hsmall]
    exact ⟨rfl, by omega⟩
  · -- the first byte of any longer form is 192 at least
    exfalso
    split at h
    · have hfirst := h _ (List.mem_cons_self ..)
      rw [UInt8.lt_iff_toNat_lt, UInt8.toNat_ofNat'] at hfirst
      simp at hfirst
      omega
    · split at h
      · have hfirst := h _ (List.mem_cons_self ..)
        rw [UInt8.lt_iff_toNat_lt, UInt8.toNat_ofNat'] at hfirst
        simp at hfirst
        omega
      · have hfirst := h _ (List.mem_cons_self ..)
        rw [UInt8.lt_iff_toNat_lt, UInt8.toNat_ofNat'] at hfirst
        simp at hfirst
        omega

theorem CodePage437.decode_ascii (t : Text)
    (h : ∀ b ∈ t.flatMap String.utf8EncodeChar, b < 128) :
    CodePage437.decode (t.flatMap String.utf8EncodeChar) = t := by
  induction t with
  | nil => rfl
  | cons c cs ih =>
    rw [List.flatMap_cons] at h ⊢
    obtain ⟨hbytes, hsmall⟩ := utf8EncodeChar_of_ascii fun b hb => h b (List.mem_append_left _ hb)
    have hrest := ih fun b hb => h b (List.mem_append_right _ hb)
    have hbyte : (UInt8.ofNat c.toNat).toNat = c.toNat := by
      rw [UInt8.toNat_ofNat']
      omega
    have hlt : UInt8.ofNat c.toNat < 128 := by
      rw [UInt8.lt_iff_toNat_lt, hbyte]
      exact hsmall
    rw [hbytes]
    simp only [CodePage437.decode, List.singleton_append, List.map_cons] at hrest ⊢
    rw [hrest, CodePage437.decodeByte_of_lt hlt, hbyte, Char.ofNat_toNat]

end Text

namespace Zip

/-- A name is read as it was written. -/
theorem decode_nameFlags (t : Text) :
    Description.decode ((nameFlags (Bytes.ofString (String.ofList t))).testBit 11)
      (Bytes.ofString (String.ofList t)) = t := by
  unfold nameFlags
  split
  · next hascii =>
    have hbits : (0 : Nat).testBit 11 = false := by decide
    rw [hbits, Description.decode, if_neg (by decide)]
    rw [Bytes.ofString_ofList] at hascii ⊢
    apply Text.CodePage437.decode_ascii t
    intro b hb
    simpa using List.all_eq_true.mp hascii b hb
  · have hbits : (0x0800 : Nat).testBit 11 = true := by decide
    rw [hbits, Description.decode, if_pos rfl, Text.Utf8.decode, Bytes.toString?_ofString]
    simp

end Zip

end Retarget

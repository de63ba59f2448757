import Mathlib.Data.Nat.Bitwise
import Retarget.ClassFile

/-!
The header of a class file taken apart. Bytes that have a version are the header of that version
with some rest after it, in one way only. So setting a version exchanges the header and leaves the
rest, and what is known of lowering a version is known of lowering the bytes that carry it.
-/
namespace Retarget

namespace Bytes

theorem toNat_word16 (high low : UInt8) :
    (word16 high low).toNat = 256 * high.toNat + low.toNat := by
  have hhigh : high.toNat < 256 := high.toNat_lt
  have hlow : low.toNat < 2 ^ 8 := low.toNat_lt
  have hshift : high.toNat <<< 8 % 65536 = high.toNat <<< 8 := by
    rw [Nat.shiftLeft_eq]
    omega
  simp only [word16, UInt16.toNat_or, UInt16.toNat_shiftLeft, UInt8.toNat_toUInt16]
  rw [show UInt16.toNat 8 % 16 = 8 from rfl, hshift, ← Nat.shiftLeft_add_eq_or_of_lt hlow,
    Nat.shiftLeft_eq]
  omega

/-- The bytes of a word make the word. -/
theorem word16_bigEndian16 (w : UInt16) : word16 (w >>> 8).toUInt8 w.toUInt8 = w := by
  have hw : w.toNat < 65536 := w.toNat_lt
  apply UInt16.toNat_inj.mp
  rw [toNat_word16]
  simp only [UInt16.toNat_toUInt8, UInt16.toNat_shiftRight]
  rw [show UInt16.toNat 8 % 16 = 8 from rfl, Nat.shiftRight_eq_div_pow]
  omega

/-- Two bytes are those of the word that they make. -/
theorem bigEndian16_word16 (high low : UInt8) : bigEndian16 (word16 high low) = [high, low] := by
  have hhigh : high.toNat < 256 := high.toNat_lt
  have hlow : low.toNat < 256 := low.toNat_lt
  have hword := toNat_word16 high low
  have hfirst : (word16 high low >>> 8).toUInt8 = high := by
    apply UInt8.toNat_inj.mp
    simp only [UInt16.toNat_toUInt8, UInt16.toNat_shiftRight]
    rw [show UInt16.toNat 8 % 16 = 8 from rfl, Nat.shiftRight_eq_div_pow]
    omega
  have hsecond : (word16 high low).toUInt8 = low := by
    apply UInt8.toNat_inj.mp
    rw [UInt16.toNat_toUInt8]
    omega
  rw [bigEndian16, hfirst, hsecond]

end Bytes

def ClassVersion.lowered (target : UInt16) (version : ClassVersion) : ClassVersion :=
  if version.major ≤ target then version else ⟨target, 0⟩

/-- Lowering twice is lowering to the lower of the two targets. -/
theorem ClassVersion.lowered_lowered (target target' : UInt16) (version : ClassVersion) :
    (version.lowered target).lowered target' = version.lowered (min target target') := by
  have hmin : min target target' = if target ≤ target' then target else target' := rfl
  rw [hmin]
  by_cases hmajor : version.major ≤ target
  · have hfirst : version.lowered target = version := if_pos hmajor
    rw [hfirst]
    split
    · next horder => rw [lowered, if_pos (UInt16.le_trans hmajor horder), hfirst]
    · rfl
  · have hfirst : version.lowered target = ⟨target, 0⟩ := if_neg hmajor
    rw [hfirst]
    split
    · next horder => rw [lowered, if_pos horder, hfirst]
    · next horder =>
      have hlower : target' ≤ target := (UInt16.le_total target target').resolve_left horder
      have hmajor' : ¬version.major ≤ target' := fun h => hmajor (UInt16.le_trans h hlower)
      rw [lowered, lowered, if_neg horder, if_neg hmajor']

theorem ClassVersion.major_lowered_le (target : UInt16) (version : ClassVersion) :
    (version.lowered target).major ≤ target := by
  unfold lowered
  split
  · assumption
  · exact UInt16.le_refl target

namespace ClassFile

def withHeader (version : ClassVersion) (rest : Bytes) : Bytes :=
  magic ++ Bytes.bigEndian16 version.minor ++ Bytes.bigEndian16 version.major ++ rest

variable {bytes rest : Bytes} {version : ClassVersion}

theorem withHeader_eq (version : ClassVersion) (rest : Bytes) :
    withHeader version rest = (0xCA : UInt8) :: 0xFE :: 0xBA :: 0xBE ::
      (version.minor >>> 8).toUInt8 :: version.minor.toUInt8 ::
      (version.major >>> 8).toUInt8 :: version.major.toUInt8 :: rest := rfl

theorem version?_withHeader (version : ClassVersion) (rest : Bytes) :
    version? (withHeader version rest) = some version := by
  simp only [withHeader_eq, version?, magic, if_true, Bytes.word16_bigEndian16]

/-- Bytes have a version when they are its header and something after it. -/
theorem version?_eq_some_iff :
    version? bytes = some version ↔ ∃ rest, bytes = withHeader version rest := by
  constructor
  · intro h
    unfold version? at h
    split at h
    · next m₀ m₁ m₂ m₃ n₀ n₁ v₀ v₁ rest =>
      split at h
      · next hmagic =>
        cases h
        refine ⟨rest, ?_⟩
        rw [withHeader, Bytes.bigEndian16_word16, Bytes.bigEndian16_word16, ← hmagic]
        rfl
      · cases h
    · cases h
  · rintro ⟨rest, rfl⟩
    exact version?_withHeader version rest

theorem setVersion?_withHeader (version version' : ClassVersion) (rest : Bytes) :
    setVersion? (withHeader version rest) version' = some (withHeader version' rest) := by
  rw [setVersion?, version?_withHeader]
  rfl

/-- The magic and what comes after the header do not depend on the version. -/
theorem getElem?_withHeader (version version' : ClassVersion) (rest : Bytes) {i : Nat}
    (hi : i < 4 ∨ 8 ≤ i) : (withHeader version rest)[i]? = (withHeader version' rest)[i]? := by
  rcases hi with hi | hi
  · rw [withHeader, withHeader, List.append_assoc, List.append_assoc, List.append_assoc,
      List.append_assoc, List.getElem?_append_left (by exact hi),
      List.getElem?_append_left (by exact hi)]
  · rw [withHeader, withHeader, List.getElem?_append_right (by exact hi),
      List.getElem?_append_right (by exact hi)]
    rfl

def lowered (target : UInt16) (bytes : Bytes) : Bytes :=
  match version? bytes with
  | none => bytes
  | some version => (setVersion? bytes (version.lowered target)).getD bytes

theorem lowered_withHeader (target : UInt16) (version : ClassVersion) (rest : Bytes) :
    lowered target (withHeader version rest) = withHeader (version.lowered target) rest := by
  rw [lowered, version?_withHeader]
  simp only [setVersion?_withHeader, Option.getD_some]

theorem version?_lowered (target : UInt16) (bytes : Bytes) :
    version? (lowered target bytes) = (version? bytes).map (·.lowered target) := by
  cases hversion : version? bytes with
  | none => simp [lowered, hversion]
  | some version =>
    obtain ⟨rest, rfl⟩ := version?_eq_some_iff.mp hversion
    rw [lowered_withHeader, version?_withHeader, Option.map_some]

theorem lowered_lowered (target target' : UInt16) (bytes : Bytes) :
    lowered target' (lowered target bytes) = lowered (min target target') bytes := by
  cases hversion : version? bytes with
  | none => simp [lowered, hversion]
  | some version =>
    obtain ⟨rest, rfl⟩ := version?_eq_some_iff.mp hversion
    rw [lowered_withHeader, lowered_withHeader, lowered_withHeader, ClassVersion.lowered_lowered]

/-- A class that is not above the target keeps all its bytes. -/
theorem lowered_of_le {target : UInt16} (h : version? bytes = some version)
    (hle : version.major ≤ target) : lowered target bytes = bytes := by
  obtain ⟨rest, rfl⟩ := version?_eq_some_iff.mp h
  rw [lowered_withHeader, ClassVersion.lowered, if_pos hle]

/-- A class above the target has the target's version, and its other bytes. -/
theorem lowered_of_not_le {target : UInt16} (h : version? bytes = some version)
    (hle : ¬version.major ≤ target) :
    version? (lowered target bytes) = some ⟨target, 0⟩ ∧
      (lowered target bytes).length = bytes.length ∧
      ∀ i, i < 4 ∨ 8 ≤ i → (lowered target bytes)[i]? = bytes[i]? := by
  obtain ⟨rest, rfl⟩ := version?_eq_some_iff.mp h
  have hlowered : version.lowered target = ⟨target, 0⟩ := if_neg hle
  rw [lowered_withHeader, hlowered]
  exact ⟨version?_withHeader _ _, rfl, fun i hi => getElem?_withHeader _ _ rest hi⟩

end ClassFile

end Retarget

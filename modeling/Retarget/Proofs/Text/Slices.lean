import Retarget.Bytes

/-!
Texts cut at byte offsets of their UTF-8 form. What is cut off has to be text again, so there is no
slice at an offset inside a character or behind the end; at the offset where a part of the text ends
there is one, which is that part or what follows it. The offset of a character is counted in bytes
too.
-/
namespace Retarget

namespace Bytes

/-- A text's own bytes are read as the text. -/
theorem toString?_ofString (s : String) : toString? (ofString s) = some s := by
  have hbytes : (⟨(ofString s).toArray⟩ : ByteArray) = s.toByteArray := by
    simp [ofString]
  rw [toString?, hbytes, String.fromUTF8?, dif_pos s.isValidUTF8]
  rfl

theorem ofString_ofList (t : Text) :
    ofString (String.ofList t) = t.flatMap String.utf8EncodeChar := by
  simp [ofString, List.utf8Encode]

end Bytes

namespace Text

def utf8 (t : Text) : Bytes :=
  Bytes.ofString (String.ofList t)

def ofUtf8? (bytes : Bytes) : Option Text :=
  (Bytes.toString? bytes).map String.toList

def sliceTo? (t : Text) (offset : Nat) : Option Text :=
  if offset ≤ t.utf8.length then ofUtf8? (t.utf8.take offset) else none

def sliceFrom? (t : Text) (offset : Nat) : Option Text :=
  if offset ≤ t.utf8.length then ofUtf8? (t.utf8.drop offset) else none

/-- The byte offset of the first `c`. -/
def offset? (c : Char) (t : Text) : Option Nat :=
  if c ∈ t then some (utf8 (t.takeWhile (· ≠ c))).length else none

theorem utf8_eq (t : Text) : utf8 t = t.flatMap String.utf8EncodeChar :=
  Bytes.ofString_ofList t

@[simp] theorem utf8_append (a b : Text) : utf8 (a ++ b) = utf8 a ++ utf8 b := by
  rw [utf8_eq, utf8_eq, utf8_eq, List.flatMap_append]

theorem length_utf8_slash : (utf8 ['/']).length = 1 := by
  rw [utf8_eq]
  rfl

/-- No character is without bytes. -/
theorem length_utf8_lt_append (a : Text) (c : Char) (rest : Text) :
    a.utf8.length < (a ++ c :: rest).utf8.length := by
  have hchar : 0 < (utf8 [c]).length := by
    rw [utf8_eq, List.flatMap_singleton, String.length_utf8EncodeChar]
    exact Char.utf8Size_pos c
  rw [← List.singleton_append, utf8_append, utf8_append, List.length_append, List.length_append]
  omega

theorem ofUtf8?_utf8 (t : Text) : ofUtf8? t.utf8 = some t := by
  rw [ofUtf8?, utf8, Bytes.toString?_ofString, Option.map_some, String.toList_ofList]

theorem sliceTo?_append (a b : Text) : sliceTo? (a ++ b) a.utf8.length = some a := by
  rw [sliceTo?, utf8_append, if_pos (by simp), List.take_left, ofUtf8?_utf8]

theorem sliceFrom?_append (a b : Text) : sliceFrom? (a ++ b) a.utf8.length = some b := by
  rw [sliceFrom?, utf8_append, if_pos (by simp), List.drop_left, ofUtf8?_utf8]

theorem le_of_sliceFrom? {t rest : Text} {offset : Nat} (h : t.sliceFrom? offset = some rest) :
    offset ≤ t.utf8.length := by
  unfold sliceFrom? at h
  split at h
  · assumption
  · cases h

theorem offset?_of_not_mem {c : Char} {t : Text} (h : c ∉ t) : offset? c t = none :=
  if_neg h

theorem offset?_append {c : Char} {before : Text} (h : c ∉ before) (rest : Text) :
    offset? c (before ++ c :: rest) = some before.utf8.length := by
  have hbefore : (before ++ c :: rest).takeWhile (· ≠ c) = before := by
    rw [List.takeWhile_append_of_pos, List.takeWhile_cons_of_neg (by simp), List.append_nil]
    intro d hd
    have hne : d ≠ c := by
      intro heq
      exact h (heq ▸ hd)
    simpa using hne
  rw [offset?, if_pos (by simp), hbefore]

end Text

end Retarget

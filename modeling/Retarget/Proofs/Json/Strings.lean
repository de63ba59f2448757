import Mathlib.Tactic.SplitIfs
import Retarget.Json.Parse
import Retarget.Json.Render

/-!
Strings in JSON text. A character is written as itself or as one of the escapes, and either is read
back as the character. So a string is read back from its quoted form, up to the closing quote and
whatever comes after it.
-/
namespace Retarget.Json

variable {fuel : Nat} {taken t rest : Text} {c : Char}

theorem hexValue?_hexDigit {d : Nat} (h : d < 16) :
    Bytes.hexValue? (Bytes.hexDigit d) = some d := by
  have hall : ∀ d : Fin 16, Bytes.hexValue? (Bytes.hexDigit d) = some d.val := by decide
  exact hall ⟨d, h⟩

theorem hex4?_hexDigits4 {n : Nat} (h : n < 65536) :
    hex4? (hexDigits4 n ++ rest) = some (n, rest) := by
  have hdigit : ∀ k, Bytes.hexValue? (Bytes.hexDigit (k % 16)) = some (k % 16) :=
    fun k => hexValue?_hexDigit (Nat.mod_lt k (by omega))
  have hvalue : ((n / 4096 % 16 * 16 + n / 256 % 16) * 16 + n / 16 % 16) * 16 + n % 16 = n := by
    omega
  show hex4? (_ :: _ :: _ :: _ :: rest) = _
  simp only [hex4?, hdigit, Option.bind_eq_bind, Option.bind_some, hvalue]
  rfl

/-- A number that is no half of a pair stands for its character. -/
theorem unicodeEscape?_hexDigits4 {n : Nat} (h : n < 0xD800) :
    unicodeEscape? (hexDigits4 n ++ rest) = some (Char.ofNat n, rest) := by
  have hhigh : ¬(0xD800 ≤ n ∧ n < 0xDC00) := by omega
  have hlow : ¬(0xDC00 ≤ n ∧ n < 0xE000) := by omega
  simp only [unicodeEscape?, hex4?_hexDigits4 (show n < 65536 by omega), Option.bind_eq_bind,
    Option.bind_some, hhigh, hlow, if_false]

/-- What a character is written as is read as that character. -/
theorem stringRest?_escapeChar :
    stringRest? (fuel + 1) taken (escapeChar c ++ rest) = stringRest? fuel (c :: taken) rest := by
  have hletter : ∀ letter d : Char, letter ≠ 'u' → letterEscape? letter = some d →
      stringRest? (fuel + 1) taken ('\\' :: letter :: rest) =
        stringRest? fuel (d :: taken) rest := by
    intro letter d hne hescape
    simp [stringRest?, hescape]
  unfold escapeChar
  split_ifs with hquote hback hnew hreturn htab hb hf hcontrol
  · exact hquote ▸ hletter '"' '"' (by decide) (by decide)
  · exact hback ▸ hletter '\\' '\\' (by decide) (by decide)
  · exact hnew ▸ hletter 'n' '\n' (by decide) (by decide)
  · exact hreturn ▸ hletter 'r' '\r' (by decide) (by decide)
  · exact htab ▸ hletter 't' '\t' (by decide) (by decide)
  · exact hb ▸ hletter 'b' '\x08' (by decide) (by decide)
  · exact hf ▸ hletter 'f' '\x0c' (by decide) (by decide)
  · have hsmall : c.toNat < 0xD800 := Nat.lt_trans (show c.toNat < 32 from hcontrol) (by omega)
    have hread : unicodeEscape? (hexDigits4 c.toNat ++ rest) = some (c, rest) := by
      rw [unicodeEscape?_hexDigits4 hsmall, Char.ofNat_toNat]
    simp [stringRest?, hread]
  · simp [stringRest?, hquote, hback, hcontrol]

theorem stringRest?_flatMap (h : t.length < fuel) :
    stringRest? fuel taken (t.flatMap escapeChar ++ '"' :: rest) =
      some (taken.reverse ++ t, rest) := by
  induction t generalizing fuel taken with
  | nil =>
    obtain ⟨fuel, rfl⟩ := Nat.exists_eq_add_one.mpr h
    simp [stringRest?]
  | cons c cs ih =>
    obtain ⟨fuel, rfl⟩ := Nat.exists_eq_add_one.mpr (Nat.zero_lt_of_lt h)
    have hlength : cs.length < fuel := by
      rw [List.length_cons] at h
      omega
    rw [List.flatMap_cons, List.append_assoc, stringRest?_escapeChar, ih hlength,
      List.reverse_cons, List.append_assoc, List.singleton_append]

theorem escapeChar_ne_nil (c : Char) : escapeChar c ≠ [] := by
  unfold escapeChar
  split_ifs <;> simp

theorem length_le_flatMap_escapeChar (t : Text) : t.length ≤ (t.flatMap escapeChar).length := by
  induction t with
  | nil => exact Nat.le_refl 0
  | cons c cs ih =>
    have hone := List.length_pos_iff.mpr (escapeChar_ne_nil c)
    rw [List.flatMap_cons, List.length_append, List.length_cons]
    omega

/-- A string is read back from what it is written as, and the text after it is left. -/
theorem string?_quote (t rest : Text) : string? (quote t ++ rest) = some (t, rest) := by
  have hlength := length_le_flatMap_escapeChar t
  have htext : quote t ++ rest = '"' :: (t.flatMap escapeChar ++ '"' :: rest) := by
    simp [quote]
  rw [htext, string?, stringRest?_flatMap]
  · rfl
  · rw [List.length_append]
    omega

end Retarget.Json

import Mathlib.Algebra.Group.Nat.Defs
import Retarget.Text.Decimal

/-!
Numbers and their digits. A number is the value of its digits, with zeros in front or not; padded
digits are as many as were asked for when the number is small enough.
-/
namespace Retarget.Text.Decimal

variable {width n : Nat} {t : Text}

theorem value_eq_ofDigitChars (t : Text) : value t = Nat.ofDigitChars 10 t 0 := by
  rw [Nat.ofDigitChars_eq_foldl, value]
  congr 1
  funext n c
  rw [Nat.mul_comm n 10]
  rfl

theorem value_ofNat (n : Nat) : value (ofNat n) = n := by
  rw [value_eq_ofDigitChars, ofNat, Nat.ofDigitChars_ten_toDigits]

theorem isDigit_of_mem_ofNat {c : Char} (h : c ∈ ofNat n) : c.isDigit = true :=
  Nat.isDigit_of_mem_toDigits (by decide) (by decide) h

theorem ofNat_ne_nil (n : Nat) : ofNat n ≠ [] :=
  Nat.toDigits_ne_nil

/-- Only zero starts with the digit zero. -/
theorem eq_zero_of_head?_ofNat (h : (ofNat n).head? = some '0') : n = 0 := by
  induction n using Nat.strongRecOn with
  | ind n ih =>
    unfold ofNat at h ih
    by_cases hsmall : n < 10
    · rw [Nat.toDigits_of_lt_base hsmall, List.head?_cons, Option.some.injEq] at h
      have hall : ∀ d : Fin 10, Nat.digitChar d = '0' → d.val = 0 := by decide
      exact hall ⟨n, hsmall⟩ h
    · obtain ⟨first, others, hfront⟩ := List.exists_cons_of_ne_nil (ofNat_ne_nil (n / 10))
      rw [Nat.toDigits_of_base_le (by decide) (by omega)] at h
      have hzero : n / 10 = 0 := by
        apply ih (n / 10) (by omega)
        unfold ofNat at hfront
        rw [hfront] at h ⊢
        exact h
      omega

theorem isDigit_of_mem_padded {c : Char} (h : c ∈ padded width n) : c.isDigit = true := by
  unfold padded at h
  rcases List.mem_append.mp h with hzero | hdigit
  · rw [List.eq_of_mem_replicate hzero]
    rfl
  · exact isDigit_of_mem_ofNat hdigit

theorem padded_ne_nil (width n : Nat) : padded width n ≠ [] := by
  simp [padded, ofNat_ne_nil]

theorem value_padded (width n : Nat) : value (padded width n) = n := by
  rw [value_eq_ofDigitChars, padded, Nat.ofDigitChars_append, Nat.ofDigitChars_replicate_zero,
    Nat.mul_zero, ← value_eq_ofDigitChars, value_ofNat]

theorem length_padded (hwidth : 0 < width) (h : n < 10 ^ width) :
    (padded width n).length = width := by
  have hfits : (ofNat n).length ≤ width := (Nat.length_toDigits_le_iff (by decide) hwidth).mpr h
  rw [padded, List.length_append, List.length_replicate]
  omega

theorem value_append (t u : Text) : value (t ++ u) = value t * 10 ^ u.length + value u := by
  simp only [value_eq_ofDigitChars, Nat.ofDigitChars_append]
  rw [Nat.ofDigitChars_eq_ofDigitChars_zero, Nat.mul_comm]

theorem digitValue_lt {c : Char} (h : c.isDigit = true) : digitValue c < 10 := by
  have hlast : c.toNat ≤ 57 := (Char.isDigit_iff_toNat.mp h).2
  unfold digitValue
  omega

/-- So many digits are worth less than that power of ten. -/
theorem value_lt (h : ∀ c ∈ t, c.isDigit = true) : value t < 10 ^ t.length := by
  induction t with
  | nil => decide
  | cons c cs ih =>
    rw [List.forall_mem_cons] at h
    have hfirst : value [c] = digitValue c := Nat.zero_add _
    have hdigit := digitValue_lt h.1
    have hrest := ih h.2
    rw [← List.singleton_append, value_append, hfirst, List.length_append, List.length_singleton,
      Nat.pow_add]
    have hmul : digitValue c * 10 ^ cs.length ≤ 9 * 10 ^ cs.length :=
      Nat.mul_le_mul_right _ (by omega)
    omega

def StopsDigits (rest : Text) : Prop :=
  ∀ c ∈ rest.head?, c.isDigit = false

theorem takeWhile_isDigit {rest : Text} (h : StopsDigits rest) :
    rest.takeWhile Char.isDigit = [] := by
  cases rest with
  | nil => rfl
  | cons c cs => rw [List.takeWhile_cons_of_neg (by simp [h c rfl])]

theorem dropWhile_isDigit {rest : Text} (h : StopsDigits rest) :
    rest.dropWhile Char.isDigit = rest := by
  cases rest with
  | nil => rfl
  | cons c cs => rw [List.dropWhile_cons_of_neg (by simp [h c rfl])]

end Retarget.Text.Decimal

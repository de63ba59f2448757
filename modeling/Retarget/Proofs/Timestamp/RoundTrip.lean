import Retarget.Proofs.Text.Decimal
import Retarget.Proofs.Timestamp.Calendar

/-!
Moments and their text. A moment lies in a year that can be reached, and has less than a second of
nanoseconds, or less than two in the last second of a minute. These are the moments that texts are
read as, and each of them is read from the text that it is written as.
-/
namespace Retarget.Timestamp

open Text (trimStart isBlank)
open Text.Decimal (padded value StopsDigits)

def IsMoment (t : Timestamp) : Prop :=
  IsReachable (dateOf (t.seconds / 86400)).1 ∧
    (t.nanos < 1000000000 ∨ t.nanos < 2000000000 ∧ t.seconds % 60 = 59)

instance : DecidablePred IsMoment := fun _ => inferInstanceAs (Decidable (_ ∧ _))

section Read

variable {most width n least greatest : Nat} {digits rest : Text} {c : Char}

theorem isBlank_of_isDigit (h : c.isDigit = true) : isBlank c = false := by
  have hfirst : 48 ≤ c.toNat := (Char.isDigit_iff_toNat.mp h).1
  have hlast : c.toNat ≤ 57 := (Char.isDigit_iff_toNat.mp h).2
  simp only [isBlank, Bool.or_eq_false_iff, Bool.and_eq_false_iff, decide_eq_false_iff_not,
    beq_eq_false_iff_ne]
  omega

theorem trimStart_cons (h : isBlank c = false) : trimStart (c :: rest) = c :: rest := by
  rw [trimStart, List.dropWhile_cons_of_neg (by simp [h])]

theorem exists_digit_of_padded (width n : Nat) :
    ∃ c digits, padded width n = c :: digits ∧ c.isDigit = true := by
  obtain ⟨c, digits, hpadded⟩ :=
    List.exists_cons_of_ne_nil (Text.Decimal.padded_ne_nil width n)
  exact ⟨c, digits, hpadded, Text.Decimal.isDigit_of_mem_padded (by rw [hpadded]; simp)⟩

theorem trimStart_padded : trimStart (padded width n ++ rest) = padded width n ++ rest := by
  obtain ⟨c, digits, hpadded, hdigit⟩ := exists_digit_of_padded width n
  rw [hpadded, List.cons_append, trimStart_cons (isBlank_of_isDigit hdigit)]

/-- Digits are read up to the most that there may be, or up to what is no digit. -/
theorem number?_append (hne : digits ≠ []) (hall : ∀ c ∈ digits, c.isDigit = true)
    (hlength : digits.length ≤ most) (hstop : digits.length = most ∨ StopsDigits rest) :
    number? most (digits ++ rest) = some (value digits, rest) := by
  have hrest : (rest.take (most - digits.length)).takeWhile Char.isDigit = [] := by
    rcases hstop with hfull | hstop
    · rw [hfull, Nat.sub_self, List.take_zero, List.takeWhile_nil]
    · apply Text.Decimal.takeWhile_isDigit
      intro c hc
      rw [List.head?_take] at hc
      split at hc
      · cases hc
      · exact hstop c hc
  have htaken : ((digits ++ rest).take most).takeWhile Char.isDigit = digits := by
    rw [List.take_append, List.take_of_length_le hlength, List.takeWhile_append_of_pos hall, hrest,
      List.append_nil]
  simp only [number?, htaken, hne, if_false, List.drop_left]

theorem number?_padded (hwidth : 0 < width) (hmost : width ≤ most) (h : n < 10 ^ width)
    (hstop : width = most ∨ StopsDigits rest) :
    number? most (padded width n ++ rest) = some (n, rest) := by
  have hlength := Text.Decimal.length_padded hwidth h
  rw [number?_append (Text.Decimal.padded_ne_nil width n)
    (fun _ => Text.Decimal.isDigit_of_mem_padded) (by omega) (by rwa [hlength]),
    Text.Decimal.value_padded]

/-- Two digits are read as their number, if that is in the range. -/
theorem field?_padded (hleast : least ≤ n) (hgreatest : n ≤ greatest) (h : n < 100) :
    field? least greatest (padded 2 n ++ rest) = some (n, rest) := by
  have hnumber : number? 2 (padded 2 n ++ rest) = some (n, rest) :=
    number?_padded (by omega) (by omega) h (Or.inl rfl)
  simp [field?, trimStart_padded, hnumber, hleast, hgreatest]

theorem mark?_cons (h : isBlank c = false) : mark? c (c :: rest) = some rest := by
  simp [mark?, trimStart_cons h]

/-- A year is read from what it is written as, up to what is no digit. -/
theorem year?_renderYear (year : Int) (hstop : StopsDigits rest) :
    year? (renderYear year ++ rest) = some (year, rest) := by
  unfold renderYear
  split
  · next hshort =>
    have hnumber : number? 4 (padded 4 year.toNat ++ rest) = some (year.toNat, rest) :=
      number?_padded (by omega) (by omega) (by omega) (Or.inl rfl)
    obtain ⟨c, digits, hpadded, hdigit⟩ := exists_digit_of_padded 4 year.toNat
    have hminus : c ≠ '-' := fun h => absurd (h ▸ hdigit) (by decide)
    have hplus : c ≠ '+' := fun h => absurd (h ▸ hdigit) (by decide)
    rw [hpadded, List.cons_append] at hnumber ⊢
    rw [year?, trimStart_cons (isBlank_of_isDigit hdigit)]
    split
    · next heq => exact absurd (List.cons.inj heq).1 hminus
    · next heq => exact absurd (List.cons.inj heq).1 hplus
    · simp only [hnumber, Option.map_some, Int.toNat_of_nonneg hshort.1]
  · next hlong =>
    have hnumber : number? (padded 4 year.natAbs ++ rest).length (padded 4 year.natAbs ++ rest) =
        some (year.natAbs, rest) := by
      have hfits : (padded 4 year.natAbs).length ≤ (padded 4 year.natAbs ++ rest).length := by
        rw [List.length_append]
        omega
      rw [number?_append (Text.Decimal.padded_ne_nil 4 year.natAbs)
        (fun _ => Text.Decimal.isDigit_of_mem_padded) hfits (Or.inr hstop),
        Text.Decimal.value_padded]
    by_cases hnegative : year < 0
    · have hvalue : -(year.natAbs : Int) = year := by omega
      have hsign : isBlank '-' = false := by decide
      simp only [hnegative, if_true, List.cons_append, year?, trimStart_cons hsign, hnumber,
        Option.map_some, hvalue]
    · have hvalue : (year.natAbs : Int) = year := by omega
      have hsign : isBlank '+' = false := by decide
      simp only [hnegative, if_false, List.cons_append, year?, trimStart_cons hsign, hnumber,
        Option.map_some, hvalue]

/-- So many digits after the point are read as nanoseconds. -/
theorem fraction?_padded (hwidth : 0 < width ∧ width ≤ 9) (h : n < 10 ^ width) :
    fraction? ('.' :: padded width n ++ ['Z']) = some (n * 10 ^ (9 - width), ['Z']) := by
  have hstop : StopsDigits ['Z'] := by
    intro c hc
    cases hc
    rfl
  have hnumber : number? 9 (padded width n ++ ['Z']) = some (n, ['Z']) :=
    number?_padded hwidth.1 hwidth.2 h (Or.inr hstop)
  simp [fraction?, hnumber, Text.Decimal.length_padded hwidth.1 h]

theorem fraction?_renderFraction {nanos : Nat} (h : nanos < 1000000000) :
    fraction? (renderFraction nanos ++ ['Z']) = some (nanos, ['Z']) := by
  unfold renderFraction
  split
  · next hzero => rw [hzero]; rfl
  · split
    · next hmilli =>
      have hvalue : nanos / 1000000 * 10 ^ (9 - 3) = nanos := by omega
      rw [fraction?_padded (by omega) (by omega), hvalue]
    · split
      · next hmicro =>
        have hvalue : nanos / 1000 * 10 ^ (9 - 6) = nanos := by omega
        rw [fraction?_padded (by omega) (by omega), hvalue]
      · rw [fraction?_padded (by omega) (by omega), Nat.sub_self, Nat.pow_zero, Nat.mul_one]

end Read

/-- The parts of the text are read one after the other, nothing is left of it, and they make the
moment: the date is one that there is, and the year one that can be reached. -/
inductive ReadsAs (text : Text) (t : Timestamp) : Prop
  | parts {year offset : Int} {month day hour minute second fraction : Nat} {mark : Char}
      {afterYear atMonth afterMonth atDay afterDay atHour afterHour atMinute afterMinute atSecond
        afterSecond atZone rest : Text}
      (year_read : year? text = some (year, afterYear))
      (month_at : mark? '-' afterYear = some atMonth)
      (month_read : field? 1 12 atMonth = some (month, afterMonth))
      (day_at : mark? '-' afterMonth = some atDay)
      (day_read : field? 1 31 atDay = some (day, afterDay))
      (hour_at : afterDay = mark :: atHour) (mark_hour : mark = 'T' ∨ mark = 't' ∨ mark = ' ')
      (hour_read : field? 0 23 atHour = some (hour, afterHour))
      (minute_at : mark? ':' afterHour = some atMinute)
      (minute_read : field? 0 59 atMinute = some (minute, afterMinute))
      (second_at : mark? ':' afterMinute = some atSecond)
      (second_read : field? 0 60 atSecond = some (second, afterSecond))
      (fraction_read : fraction? afterSecond = some (fraction, atZone))
      (zone_read : zone? (trimStart atZone) = some (offset, rest))
      (plain : ¬(trimStart rest ≠ [] ∨ 86400 ≤ offset.natAbs ∨ daysInMonth year month < day))
      (seconds_eq : t.seconds = dayNumber year month day * 86400 +
        ((hour * 3600 + minute * 60 + min second 59 : Nat) : Int) - offset)
      (nanos_eq : t.nanos = fraction + (if second = 60 then 1000000000 else 0))
      (reachable : IsReachable year ∧ IsReachable (dateOf (t.seconds / 86400)).1) : ReadsAs text t

theorem parse?_eq_some_iff {text : Text} {t : Timestamp} :
    parse? text = some t ↔ ReadsAs text t := by
  constructor
  · intro h
    unfold parse? at h
    obtain ⟨⟨year, afterYear⟩, hyear, h⟩ := Option.bind_eq_some_iff.mp h
    obtain ⟨atMonth, hatMonth, h⟩ := Option.bind_eq_some_iff.mp h
    obtain ⟨⟨month, afterMonth⟩, hmonth, h⟩ := Option.bind_eq_some_iff.mp h
    obtain ⟨atDay, hatDay, h⟩ := Option.bind_eq_some_iff.mp h
    obtain ⟨⟨day, afterDay⟩, hday, h⟩ := Option.bind_eq_some_iff.mp h
    simp only at h
    split at h
    · next mark atHour =>
      split at h
      · next hmark =>
        obtain ⟨_, hatHour, h⟩ := Option.bind_eq_some_iff.mp h
        cases hatHour
        obtain ⟨⟨hour, afterHour⟩, hhour, h⟩ := Option.bind_eq_some_iff.mp h
        obtain ⟨atMinute, hatMinute, h⟩ := Option.bind_eq_some_iff.mp h
        obtain ⟨⟨minute, afterMinute⟩, hminute, h⟩ := Option.bind_eq_some_iff.mp h
        obtain ⟨atSecond, hatSecond, h⟩ := Option.bind_eq_some_iff.mp h
        obtain ⟨⟨second, afterSecond⟩, hsecond, h⟩ := Option.bind_eq_some_iff.mp h
        obtain ⟨⟨fraction, atZone⟩, hfraction, h⟩ := Option.bind_eq_some_iff.mp h
        obtain ⟨⟨offset, rest⟩, hzone, h⟩ := Option.bind_eq_some_iff.mp h
        simp only at h
        split at h
        · cases h
        · next hplain =>
          split at h
          · next hreachable =>
            cases h
            exact .parts hyear hatMonth hmonth hatDay hday rfl hmark hhour hatMinute hminute
              hatSecond hsecond hfraction hzone hplain rfl rfl hreachable
          · cases h
      · cases h
    · cases h
  · obtain ⟨seconds, nanos⟩ := t
    rintro ⟨hyear, hatMonth, hmonth, hatDay, hday, rfl, hmark, hhour, hatMinute, hminute, hatSecond,
      hsecond, hfraction, hzone, hplain, hseconds, hnanos, hreachable⟩
    simp only at hseconds hnanos hreachable
    unfold parse?
    refine Option.bind_eq_some_iff.mpr ⟨_, hyear, Option.bind_eq_some_iff.mpr ⟨_, hatMonth, ?_⟩⟩
    refine Option.bind_eq_some_iff.mpr ⟨_, hmonth, Option.bind_eq_some_iff.mpr ⟨_, hatDay, ?_⟩⟩
    refine Option.bind_eq_some_iff.mpr ⟨_, hday, ?_⟩
    simp only
    rw [if_pos hmark]
    refine Option.bind_eq_some_iff.mpr ⟨_, rfl, ?_⟩
    refine Option.bind_eq_some_iff.mpr ⟨_, hhour, Option.bind_eq_some_iff.mpr ⟨_, hatMinute, ?_⟩⟩
    refine Option.bind_eq_some_iff.mpr ⟨_, hminute, Option.bind_eq_some_iff.mpr ⟨_, hatSecond, ?_⟩⟩
    refine Option.bind_eq_some_iff.mpr ⟨_, hsecond, Option.bind_eq_some_iff.mpr ⟨_, hfraction, ?_⟩⟩
    refine Option.bind_eq_some_iff.mpr ⟨_, hzone, ?_⟩
    simp only
    rw [if_neg hplain, ← hseconds, ← hnanos, if_pos hreachable]

/-- A moment is read from the text that it is written as. -/
theorem parse?_render {t : Timestamp} (h : t.IsMoment) : parse? t.render = some t := by
  obtain ⟨seconds, nanos⟩ := t
  obtain ⟨hreachable, hnanos⟩ := h
  simp only at hreachable hnanos
  rcases hdate : dateOf (seconds / 86400) with ⟨year, month, day⟩
  obtain ⟨hmonth, hmonth', hday, hday', hnumber⟩ := dayNumber_dateOf hdate
  have hmost := daysInMonth_le year month
  generalize hofDay : (seconds % 86400).toNat = ofDay
  -- The parts of the text, one after the other.
  have hyearRead : ∀ rest, year? (renderYear year ++ '-' :: rest) = some (year, '-' :: rest) := by
    intro rest
    apply year?_renderYear
    intro c hc
    cases hc
    rfl
  have hmonthRead : ∀ rest, field? 1 12 (padded 2 month ++ rest) = some (month, rest) :=
    fun rest => field?_padded hmonth hmonth' (by omega)
  have hdayRead : ∀ rest, field? 1 31 (padded 2 day ++ rest) = some (day, rest) :=
    fun rest => field?_padded hday (by omega) (by omega)
  have hhourRead : ∀ rest, field? 0 23 (padded 2 (ofDay / 3600) ++ rest) =
      some (ofDay / 3600, rest) := fun rest => field?_padded (by omega) (by omega) (by omega)
  have hminuteRead : ∀ rest, field? 0 59 (padded 2 (ofDay / 60 % 60) ++ rest) =
      some (ofDay / 60 % 60, rest) := fun rest => field?_padded (by omega) (by omega) (by omega)
  have hsecondRead : ∀ rest, field? 0 60 (padded 2 (ofDay % 60 + nanos / 1000000000) ++ rest) =
      some (ofDay % 60 + nanos / 1000000000, rest) := fun rest =>
    field?_padded (by omega) (by omega) (by omega)
  have hfractionRead := fraction?_renderFraction (Nat.mod_lt nanos (show 0 < 1000000000 by omega))
  have hdash : ∀ rest, mark? '-' ('-' :: rest) = some rest := fun rest => mark?_cons (by decide)
  have hcolon : ∀ rest, mark? ':' (':' :: rest) = some rest := fun rest => mark?_cons (by decide)
  have hzone : zone? (trimStart ['Z']) = some (0, []) := rfl
  -- What they make together.
  have hseconds : dayNumber year month day * 86400 + ((ofDay / 3600 * 3600 +
      ofDay / 60 % 60 * 60 + min (ofDay % 60 + nanos / 1000000000) 59 : Nat) : Int) - 0 =
        seconds := by
    rw [hnumber]
    omega
  have hnanosRead : nanos % 1000000000 +
      (if ofDay % 60 + nanos / 1000000000 = 60 then 1000000000 else 0) = nanos := by
    split <;> omega
  have hplain : ¬(trimStart [] ≠ [] ∨ 86400 ≤ (0 : Int).natAbs ∨ daysInMonth year month < day) := by
    simp [trimStart]
    omega
  have htext : render ⟨seconds, nanos⟩ = renderYear year ++ '-' :: (padded 2 month ++
      '-' :: (padded 2 day ++ 'T' :: (padded 2 (ofDay / 3600) ++
        ':' :: (padded 2 (ofDay / 60 % 60) ++
          ':' :: (padded 2 (ofDay % 60 + nanos / 1000000000) ++
            (renderFraction (nanos % 1000000000) ++ ['Z'])))))) := by
    simp only [render, hdate, hofDay, renderDate, renderTime, List.append_assoc, List.cons_append]
  rw [hdate] at hreachable
  rw [parse?_eq_some_iff, htext]
  exact .parts (hyearRead _) (hdash _) (hmonthRead _) (hdash _) (hdayRead _) rfl (.inl rfl)
    (hhourRead _) (hcolon _) (hminuteRead _) (hcolon _) (hsecondRead _) hfractionRead hzone hplain
    hseconds.symm hnanosRead.symm ⟨hreachable, by rw [hdate]; exact hreachable⟩

section Sound

variable {most least greatest n : Nat} {text rest : Text} {offset : Int}

/-- What is read as a number are digits, which are taken off. -/
theorem number?_eq_some (h : number? most text = some (n, rest)) :
    ∃ digits, text = digits ++ rest ∧ digits.length ≤ most ∧ n < 10 ^ digits.length := by
  unfold number? at h
  generalize hdigits : (text.take most).takeWhile Char.isDigit = digits at h
  have hfront : digits <+: text.take most := hdigits ▸ List.takeWhile_prefix _
  have hprefix : digits <+: text := hfront.trans (List.take_prefix most text)
  have hall : ∀ c ∈ digits, c.isDigit = true := by
    rw [← hdigits]
    exact List.all_eq_true.mp List.all_takeWhile
  simp only at h
  split at h
  · cases h
  · cases h
    refine ⟨digits, (List.prefix_iff_eq_append.mp hprefix).symm, ?_, Text.Decimal.value_lt hall⟩
    have hlength := hfront.length_le
    rw [List.length_take] at hlength
    omega

theorem field?_le (h : field? least greatest text = some (n, rest)) : n ≤ greatest := by
  unfold field? at h
  obtain ⟨⟨number, after⟩, -, h⟩ := Option.bind_eq_some_iff.mp h
  simp only at h
  split at h
  · next hrange =>
    cases h
    exact hrange.2
  · cases h

/-- A fraction is less than a second. -/
theorem fraction?_lt (h : fraction? text = some (n, rest)) : n < 1000000000 := by
  unfold fraction? at h
  split at h
  · next digits =>
    obtain ⟨⟨number, after⟩, hnumber, h⟩ := Option.bind_eq_some_iff.mp h
    obtain ⟨taken, rfl, hlength, hlt⟩ := number?_eq_some hnumber
    cases h
    have htaken : (taken ++ after).length - after.length = taken.length := by
      rw [List.length_append]
      omega
    calc number * 10 ^ (9 - ((taken ++ after).length - after.length))
      _ = number * 10 ^ (9 - taken.length) := by rw [htaken]
      _ < 10 ^ taken.length * 10 ^ (9 - taken.length) :=
        Nat.mul_lt_mul_of_pos_right hlt (Nat.pow_pos (by omega))
      _ = 1000000000 := by rw [← Nat.pow_add, Nat.add_sub_cancel' hlength]
  · cases h
    omega

theorem offset?_mod (h : offset? text = some (offset, rest)) : offset % 60 = 0 := by
  unfold offset? at h
  simp only at h
  split at h
  · cases h
  · next sign _ =>
    obtain ⟨⟨hours, afterHours⟩, -, h⟩ := Option.bind_eq_some_iff.mp h
    obtain ⟨⟨minutes, afterMinutes⟩, -, h⟩ := Option.bind_eq_some_iff.mp h
    simp only at h
    split at h
    · cases h
      have hwhole : 60 ∣ hours * 3600 + minutes * 60 := by omega
      have hminutes : (60 : Int) ∣ ((hours * 3600 + minutes * 60 : Nat) : Int) :=
        Int.natCast_dvd_natCast.mpr hwhole
      exact Int.emod_eq_zero_of_dvd (Int.dvd_mul_of_dvd_right hminutes)
    · cases h

/-- An offset is of whole minutes. -/
theorem zone?_mod (h : zone? text = some (offset, rest)) : offset % 60 = 0 := by
  unfold zone? at h
  split at h
  · cases h
    rfl
  · cases h
    rfl
  · split at h
    · cases h
      rfl
    · exact offset?_mod h
  · exact offset?_mod h

/-- What a text is read as is a moment. -/
theorem isMoment_of_parse? {t : Timestamp} (h : parse? text = some t) : t.IsMoment := by
  obtain ⟨-, -, -, -, -, -, -, -, -, -, -, hsecond, hfraction, hzone, -, hseconds, hnanos,
    hreachable⟩ := parse?_eq_some_iff.mp h
  have hlast := field?_le hsecond
  have hless := fraction?_lt hfraction
  have hwhole := zone?_mod hzone
  refine ⟨hreachable.2, ?_⟩
  rw [hseconds, hnanos]
  split <;> omega

end Sound

/-- A timestamp is read from its text exactly when it is a moment. -/
theorem parse?_render_eq_some_iff {t : Timestamp} : parse? t.render = some t ↔ t.IsMoment :=
  ⟨isMoment_of_parse?, parse?_render⟩

end Retarget.Timestamp

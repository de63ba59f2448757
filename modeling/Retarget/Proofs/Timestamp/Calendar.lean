import Retarget.Timestamp

/-!
Days and their dates. Four hundred years are an era of 146097 days: centuries of 36524 days, spans
of four years of 1461 days and years of 365, where only the last of a group may have a day more.
The year of a day is told from this split, and a day from its date.
-/
namespace Retarget.Timestamp

/-- A day of an era as whole centuries, spans, years and the days left. A year that ends in a day
more is the last of a span, and that the last of a century in the era's last century only. -/
structure SplitsEra (dayOfEra century span year day : Int) : Prop where
  sum_eq : dayOfEra = 36524 * century + 1461 * span + 365 * year + day
  century_range : 0 ≤ century ∧ century ≤ 3
  span_range : 0 ≤ span ∧ span ≤ 24
  year_range : 0 ≤ year ∧ year ≤ 3
  day_range : 0 ≤ day ∧ day ≤ 365
  last_day : day = 365 → year = 3 ∧ (span = 24 → century = 3)

theorem exists_splitsEra {dayOfEra : Int} (h : 0 ≤ dayOfEra ∧ dayOfEra < 146097) :
    ∃ century span year day, SplitsEra dayOfEra century span year day := by
  have hcentury : ∃ century rest, dayOfEra = 36524 * century + rest ∧ 0 ≤ century ∧ century ≤ 3 ∧
      0 ≤ rest ∧ rest ≤ 36524 ∧ (rest = 36524 → century = 3) := by
    refine ⟨min (dayOfEra / 36524) 3, dayOfEra - 36524 * min (dayOfEra / 36524) 3, ?_⟩
    omega
  obtain ⟨century, rest, hsum, hcentury, hlast, hrest⟩ := hcentury
  have hyear : ∃ year day, rest % 1461 = 365 * year + day ∧ 0 ≤ year ∧ year ≤ 3 ∧ 0 ≤ day ∧
      day ≤ 365 ∧ (day = 365 → year = 3) := by
    refine ⟨min (rest % 1461 / 365) 3, rest % 1461 - 365 * min (rest % 1461 / 365) 3, ?_⟩
    omega
  obtain ⟨year, day, hyearSum, hyear⟩ := hyear
  exact ⟨century, rest / 1461, year, day, by omega, by omega, by omega, by omega, by omega,
    by omega⟩

namespace SplitsEra

variable {dayOfEra century span year day : Int}

/-- The years of the split. -/
theorem year_eq (h : SplitsEra dayOfEra century span year day) :
    (dayOfEra - dayOfEra / 1460 + dayOfEra / 36524 - dayOfEra / 146096) / 365 =
      100 * century + 4 * span + year := by
  obtain ⟨hsum, hcentury, hspan, hyear, hday, hlast⟩ := h
  have hend : dayOfEra / 36524 - dayOfEra / 146096 = century := by
    rcases (by omega : 1461 * span + 365 * year + day < 36524 ∨
        dayOfEra = 146096 ∧ century = 3) with hrest | ⟨rfl, rfl⟩
    · have hwhole : dayOfEra / 36524 = century := by omega
      have hera : dayOfEra / 146096 = 0 := by omega
      rw [hwhole, hera, Int.sub_zero]
    · rfl
  -- What is taken off for the leap days is one too many late in the span's last year.
  have hleap : ∃ late, dayOfEra / 1460 = 25 * century + span + late ∧
      0 ≤ day - late ∧ day - late ≤ 364 := by
    refine ⟨if 1460 ≤ 24 * century + span + 365 * year + day then 1 else 0, ?_⟩
    split <;> omega
  obtain ⟨late, hspans, hlate⟩ := hleap
  omega

/-- The days before the year. -/
theorem start_eq (h : SplitsEra dayOfEra century span year day) {yearOfEra : Int}
    (hyear : yearOfEra = 100 * century + 4 * span + year) :
    365 * yearOfEra + yearOfEra / 4 - yearOfEra / 100 = dayOfEra - day := by
  obtain ⟨hsum, hcentury, hspan, hrange, hday, hlast⟩ := h
  omega

/-- After a year that ends in a day more comes the one that the calendar calls a leap year. -/
theorem isLeapYear_succ (h : SplitsEra dayOfEra century span year day) (hday : day = 365)
    (era : Int) : isLeapYear (100 * century + 4 * span + year + era * 400 + 1) = true := by
  obtain ⟨hsum, hcentury, hspan, hrange, -, hlast⟩ := h
  simp only [isLeapYear, Bool.and_eq_true, Bool.or_eq_true, beq_iff_eq, bne_iff_ne]
  omega

end SplitsEra

/-- The months of a year that begins in March, by the days before them and their own days. -/
theorem month_cases {dayOfYear : Int} (h : 0 ≤ dayOfYear ∧ dayOfYear ≤ 365) :
    let month := (5 * dayOfYear + 2) / 153
    let before := (153 * month + 2) / 5
    0 ≤ month ∧ month ≤ 11 ∧ before ≤ dayOfYear ∧
      (month = 11 → dayOfYear - before < 29 ∧ (dayOfYear - before = 28 → dayOfYear = 365)) ∧
      (month ∈ [1, 3, 6, 8] → dayOfYear - before < 30) ∧ dayOfYear - before < 31 := by
  intro month before
  have hrange : 0 ≤ month ∧ month ≤ 11 := by omega
  refine ⟨hrange.1, hrange.2, ?_⟩
  simp only [List.mem_cons, List.not_mem_nil, or_false]
  omega

/-- A date, told from the split of the day. -/
theorem dateOf_eq {number century span year day : Int}
    (h : SplitsEra ((number + 719468) % 146097) century span year day) :
    let month := (5 * day + 2) / 153
    let yearFromMarch := 100 * century + 4 * span + year + (number + 719468) / 146097 * 400
    dateOf number =
      (if month < 10 then yearFromMarch else yearFromMarch + 1,
        (if month < 10 then month + 3 else month - 9).toNat,
        (day - (153 * month + 2) / 5 + 1).toNat) := by
  intro month yearFromMarch
  have hday : (number + 719468) % 146097 - (365 * (100 * century + 4 * span + year) +
      (100 * century + 4 * span + year) / 4 - (100 * century + 4 * span + year) / 100) = day := by
    rw [h.start_eq rfl]
    omega
  simp only [dateOf, h.year_eq, hday]
  have hmonth := month_cases h.day_range
  by_cases hmarch : (5 * day + 2) / 153 < 10
  · have hlate : ¬(5 * day + 2) / 153 + 3 ≤ 2 := by omega
    simp [month, yearFromMarch, hmarch, hlate]
  · have hearly : (5 * day + 2) / 153 - 9 ≤ 2 := by omega
    simp [month, yearFromMarch, hmarch, hearly]

theorem daysInMonth_le (year : Int) (month : Nat) : daysInMonth year month ≤ 31 := by
  unfold daysInMonth
  split
  · split <;> omega
  · split <;> omega

theorem le_daysInMonth {year : Int} {month day : Nat} (hall : day ≤ 31)
    (hshort : month ∈ [4, 6, 9, 11] → day ≤ 30)
    (hfebruary : month = 2 → day ≤ 29 ∧ (day = 29 → isLeapYear year = true)) :
    day ≤ daysInMonth year month := by
  unfold daysInMonth
  split
  · next htwo =>
    obtain ⟨hlast, hleap⟩ := hfebruary htwo
    split
    · exact hlast
    · next hcommon =>
      have hne : day ≠ 29 := fun h => hcommon (hleap h)
      omega
  · split
    · next hmem => exact hshort hmem
    · exact hall

/-- A day has a date, and it is the day of that date. -/
theorem dayNumber_dateOf {number year : Int} {month day : Nat}
    (h : dateOf number = (year, month, day)) :
    1 ≤ month ∧ month ≤ 12 ∧ 1 ≤ day ∧ day ≤ daysInMonth year month ∧
      dayNumber year month day = number := by
  have hera : 0 ≤ (number + 719468) % 146097 ∧ (number + 719468) % 146097 < 146097 := by omega
  obtain ⟨century, span, yearOfSpan, dayOfYear, hsplit⟩ := exists_splitsEra hera
  have hmonth := month_cases hsplit.day_range
  have hstart := hsplit.start_eq rfl
  have hleap := fun hlast => hsplit.isLeapYear_succ hlast ((number + 719468) / 146097)
  rw [dateOf_eq hsplit, Prod.mk.injEq, Prod.mk.injEq] at h
  obtain ⟨rfl, rfl, rfl⟩ := h
  obtain ⟨-, hcentury, hspan, hyear, -, -⟩ := hsplit
  generalize hyearOfEra : 100 * century + 4 * span + yearOfSpan = yearOfEra at hstart hleap ⊢
  have hrange : 0 ≤ yearOfEra ∧ yearOfEra < 400 := by omega
  have hwhole : (yearOfEra + (number + 719468) / 146097 * 400) / 400 =
      (number + 719468) / 146097 := by omega
  have hpart : (yearOfEra + (number + 719468) / 146097 * 400) % 400 = yearOfEra := by omega
  generalize (5 * dayOfYear + 2) / 153 = monthFromMarch at hmonth ⊢
  generalize hbefore : (153 * monthFromMarch + 2) / 5 = before at hmonth ⊢
  obtain ⟨hfirst, hlast, hstarted, hfebruary, hshort, hall⟩ := hmonth
  simp only [List.mem_cons, List.not_mem_nil, or_false] at hshort
  by_cases hmarch : monthFromMarch < 10
  · simp only [hmarch, if_true]
    have hlate : ¬(monthFromMarch + 3).toNat ≤ 2 := by omega
    have hfrom : (((monthFromMarch + 3).toNat : Int) + 9) % 12 = monthFromMarch := by omega
    refine ⟨by omega, by omega, by omega, le_daysInMonth (by omega) ?_ (by omega), ?_⟩
    · simp only [List.mem_cons, List.not_mem_nil, or_false]
      omega
    · simp only [dayNumber, hlate, if_false, hwhole, hpart, hfrom, hbefore]
      omega
  · simp only [hmarch, if_false]
    have hearly : (monthFromMarch - 9).toNat ≤ 2 := by omega
    have hfrom : (((monthFromMarch - 9).toNat : Int) + 9) % 12 = monthFromMarch := by omega
    refine ⟨by omega, by omega, by omega, le_daysInMonth (by omega) ?_ ?_, ?_⟩
    · simp only [List.mem_cons, List.not_mem_nil, or_false]
      omega
    · intro htwo
      obtain ⟨hlength, hend⟩ := hfebruary (by omega)
      exact ⟨by omega, fun hday => hleap (hend (by omega))⟩
    · simp only [dayNumber, hearly, if_true, Int.add_sub_cancel, hwhole, hpart, hfrom, hbefore]
      omega

end Retarget.Timestamp

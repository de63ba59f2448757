import Retarget.Proofs.Json.Strings
import Retarget.Proofs.Text.Decimal

/-!
Values and their text. A value without fractions and exponents is read back from what it is written
as, in either layout, up to what can stand after a value: the blanks of a layout are passed over, a
number ends where nothing comes that could go on with it, and the text is long enough to be its own
fuel.
-/
namespace Retarget.Json

inductive Whole : Json → Prop
  | null : Whole .null
  | bool (value : Bool) : Whole (.bool value)
  | int (value : Int) : Whole (.int value)
  | str (value : Text) : Whole (.str value)
  | arr {items : List Json} (items_whole : ∀ item ∈ items, Whole item) : Whole (.arr items)
  | obj {fields : List (Text × Json)} (fields_whole : ∀ field ∈ fields, Whole field.2) :
    Whole (.obj fields)

def StopsNumber (rest : Text) : Prop :=
  ∀ c ∈ rest.head?, c.isDigit = false ∧ c ≠ '.' ∧ c ≠ 'e' ∧ c ≠ 'E'

section Numbers

variable {rest : Text}

theorem digits?_append {digits : Text} (hne : digits ≠ [])
    (hall : ∀ c ∈ digits, c.isDigit = true) (hstop : StopsNumber rest) :
    digits? (digits ++ rest) = some (digits, rest) := by
  have hdigits : Text.Decimal.StopsDigits rest := fun c hc => (hstop c hc).1
  simp only [digits?, List.takeWhile_append_of_pos hall, List.dropWhile_append_of_pos hall,
    Text.Decimal.takeWhile_isDigit hdigits, Text.Decimal.dropWhile_isDigit hdigits,
    List.append_nil, hne, if_false]

theorem fraction?_of_stops (hstop : StopsNumber rest) : fraction? rest = some ([], rest) := by
  unfold fraction?
  split
  · exact absurd rfl (hstop '.' rfl).2.1
  · rfl

theorem exponent?_of_stops (hstop : StopsNumber rest) : exponent? rest = some ([], rest) := by
  cases rest with
  | nil => rfl
  | cons c cs =>
    obtain ⟨-, -, hsmall, hlarge⟩ := hstop c rfl
    simp [exponent?, hsmall, hlarge]

/-- A whole number is read back from its digits. -/
theorem number?_ofInt (n : Int) (hstop : StopsNumber rest) :
    number? (Text.Decimal.ofInt n ++ rest) = some (.int n, rest) := by
  have hdigits : ∀ k, digits? (Text.Decimal.ofNat k ++ rest) =
      some (Text.Decimal.ofNat k, rest) := fun k =>
    digits?_append (Text.Decimal.ofNat_ne_nil k) (fun _ => Text.Decimal.isDigit_of_mem_ofNat) hstop
  have hplain : ∀ k, ¬((Text.Decimal.ofNat k).length > 1 ∧
      (Text.Decimal.ofNat k).head? = some '0') := by
    intro k ⟨hlong, hzero⟩
    rw [Text.Decimal.eq_zero_of_head?_ofNat hzero] at hlong
    exact absurd hlong (by decide)
  cases n with
  | ofNat k =>
    have hsign : (Text.Decimal.ofNat k ++ rest).head? ≠ some '-' := by
      obtain ⟨c, cs, hfirst⟩ := List.exists_cons_of_ne_nil (Text.Decimal.ofNat_ne_nil k)
      have hdigit : c.isDigit = true := Text.Decimal.isDigit_of_mem_ofNat (by rw [hfirst]; simp)
      rw [hfirst]
      simp only [List.cons_append, List.head?_cons, ne_eq, Option.some.injEq]
      rintro rfl
      exact absurd hdigit (by decide)
    unfold number?
    simp [-List.head?_append, Text.Decimal.ofInt, hsign, hdigits, hplain, fraction?_of_stops hstop,
      exponent?_of_stops hstop, Text.Decimal.value_ofNat]
  | negSucc k =>
    simp [number?, Text.Decimal.ofInt, hdigits, hplain, fraction?_of_stops hstop,
      exponent?_of_stops hstop, Text.Decimal.value_ofNat, Int.negSucc_eq]

end Numbers

section Blanks

variable {fuel : Nat} {blanks t : Text}

def Blanks (t : Text) : Prop := ∀ c ∈ t, isBlank c = true

theorem Blanks.nil : Blanks [] := fun _ h => absurd h List.not_mem_nil

theorem skipBlanks_append (h : Blanks blanks) : skipBlanks (blanks ++ t) = skipBlanks t :=
  List.dropWhile_append_of_pos h

theorem skipBlanks_cons {c : Char} (h : isBlank c = false) : skipBlanks (c :: t) = c :: t :=
  List.dropWhile_cons_of_neg (by simp [h])

theorem value?_append (h : Blanks blanks) : value? fuel (blanks ++ t) = value? fuel t := by
  cases fuel with
  | zero => rfl
  | succ fuel => rw [value?, value?, skipBlanks_append h]

theorem items?_append (h : Blanks blanks) : items? fuel (blanks ++ t) = items? fuel t := by
  cases fuel with
  | zero => rfl
  | succ fuel => rw [items?, items?, value?_append h]

theorem fields?_append (h : Blanks blanks) : fields? fuel (blanks ++ t) = fields? fuel t := by
  cases fuel with
  | zero => rfl
  | succ fuel => rw [fields?, fields?, skipBlanks_append h]

theorem stopsNumber_cons {c : Char} (h : c.isDigit = false ∧ c ≠ '.' ∧ c ≠ 'e' ∧ c ≠ 'E') :
    StopsNumber (c :: t) := by
  rintro _ ⟨⟩
  exact h

theorem stopsNumber_append (hblanks : Blanks blanks) (ht : StopsNumber t) :
    StopsNumber (blanks ++ t) := by
  cases blanks with
  | nil => exact ht
  | cons c cs =>
    have hc : isBlank c = true := hblanks c List.mem_cons_self
    simp only [isBlank, Bool.or_eq_true, beq_iff_eq] at hc
    rcases hc with ((rfl | rfl) | rfl) | rfl <;> exact stopsNumber_cons (by decide)

end Blanks

namespace Layout

structure Spaced (layout : Layout) : Prop where
  opening (level : Nat) : Blanks (layout.opening level)
  between (level : Nat) : ∃ blanks, Blanks blanks ∧ layout.between level = ',' :: blanks
  closing (level : Nat) : Blanks (layout.closing level)
  afterColon : Blanks layout.afterColon

theorem compact_spaced : compact.Spaced where
  opening _ := .nil
  between _ := ⟨[], .nil, rfl⟩
  closing _ := .nil
  afterColon := .nil

theorem blanks_newLine (level : Nat) : Blanks (newLine level) := by
  intro c hc
  rcases List.mem_cons.mp hc with rfl | hspace
  · rfl
  · rw [List.eq_of_mem_replicate hspace]
    rfl

theorem pretty_spaced : pretty.Spaced where
  opening level := blanks_newLine (level + 1)
  between level := ⟨newLine (level + 1), blanks_newLine (level + 1), rfl⟩
  closing level := blanks_newLine level
  afterColon := by
    intro c hc
    rw [List.mem_singleton.mp hc]
    rfl

end Layout

section Values

variable {layout : Layout} {level fuel : Nat} {json : Json} {t rest : Text}

theorem ne_of_startsNumber {c d : Char} (hc : c = '-' ∨ c.isDigit = true) (hsign : d ≠ '-')
    (hdigit : d.isDigit = false) : c ≠ d := by
  rintro rfl
  rcases hc with rfl | hc
  · exact hsign rfl
  · rw [hdigit] at hc
    cases hc

theorem isBlank_of_startsNumber {c : Char} (hc : c = '-' ∨ c.isDigit = true) :
    isBlank c = false := by
  have hne : ∀ d : Char, d ≠ '-' → d.isDigit = false → c ≠ d := fun _ => ne_of_startsNumber hc
  simp [isBlank, hne ' ' (by decide) (by decide), hne '\n' (by decide) (by decide),
    hne '\t' (by decide) (by decide), hne '\r' (by decide) (by decide)]

/-- A digit or a sign starts no other value than a number. -/
theorem value?_of_startsNumber {c : Char} (hc : c = '-' ∨ c.isDigit = true) :
    value? (fuel + 1) (c :: t) = number? (c :: t) := by
  have hne : ∀ d : Char, d ≠ '-' → d.isDigit = false → c ≠ d := fun _ => ne_of_startsNumber hc
  rw [value?, skipBlanks_cons (isBlank_of_startsNumber hc)]
  simp [hne '[' (by decide) (by decide), hne '{' (by decide) (by decide),
    hne '"' (by decide) (by decide), hne 't' (by decide) (by decide),
    hne 'f' (by decide) (by decide), hne 'n' (by decide) (by decide)]

theorem exists_first_ofInt (n : Int) :
    ∃ c cs, Text.Decimal.ofInt n = c :: cs ∧ (c = '-' ∨ c.isDigit = true) := by
  cases n with
  | ofNat k =>
    obtain ⟨c, cs, hfirst⟩ := List.exists_cons_of_ne_nil (Text.Decimal.ofNat_ne_nil k)
    have hdigit : c ∈ Text.Decimal.ofNat k := by
      rw [hfirst]
      exact List.mem_cons_self
    exact ⟨c, cs, hfirst, .inr (Text.Decimal.isDigit_of_mem_ofNat hdigit)⟩
  | negSucc k => exact ⟨'-', _, rfl, .inl rfl⟩

/-- What a value is written as starts neither with a blank nor with what closes a list. -/
theorem exists_first_renderAt (layout : Layout) (level : Nat) (h : Whole json) :
    ∃ c cs, renderAt layout level json = c :: cs ∧ isBlank c = false ∧ c ≠ ']' := by
  cases h with
  | null => exact ⟨'n', _, rfl, by decide, by decide⟩
  | bool value =>
    cases value with
    | false => exact ⟨'f', _, rfl, by decide, by decide⟩
    | true => exact ⟨'t', _, rfl, by decide, by decide⟩
  | int n =>
    obtain ⟨c, cs, hfirst, hc⟩ := exists_first_ofInt n
    exact ⟨c, cs, by rw [renderAt, hfirst], isBlank_of_startsNumber hc,
      ne_of_startsNumber hc (by decide) (by decide)⟩
  | str text => exact ⟨'"', _, rfl, by decide, by decide⟩
  | @arr items _ =>
    cases items with
    | nil => exact ⟨'[', _, rfl, by decide, by decide⟩
    | cons item items => exact ⟨'[', _, by rw [renderAt]; rfl, by decide, by decide⟩
  | @obj fields _ =>
    cases fields with
    | nil => exact ⟨'{', _, rfl, by decide, by decide⟩
    | cons field fields => exact ⟨'{', _, by rw [renderAt]; rfl, by decide, by decide⟩

/-- The value is read from what it is written as, whatever stands after it, when there is fuel for
the length of it. -/
def ReadBack (layout : Layout) (json : Json) : Prop :=
  ∀ {level fuel : Nat} {rest : Text}, (renderAt layout level json).length < fuel →
    StopsNumber rest → value? fuel (renderAt layout level json ++ rest) = some (json, rest)

theorem ReadBack.intro
    (h : ∀ (level fuel : Nat) (rest : Text), (renderAt layout level json).length ≤ fuel →
      StopsNumber rest →
        value? (fuel + 1) (renderAt layout level json ++ rest) = some (json, rest)) :
    ReadBack layout json := by
  intro level fuel rest hfuel hstop
  obtain ⟨fuel, rfl⟩ := Nat.exists_eq_add_one.mpr (Nat.zero_lt_of_lt hfuel)
  exact h level fuel rest (Nat.le_of_lt_succ hfuel) hstop

/-- What comes after an item does not go on with a number. -/
theorem Layout.Spaced.stopsNumber_items (hlayout : layout.Spaced) {items : List Json} :
    StopsNumber (renderItems layout level items ++ (layout.closing level ++ ']' :: rest)) := by
  cases items with
  | nil =>
    rw [renderItems, List.nil_append]
    exact stopsNumber_append (hlayout.closing level) (stopsNumber_cons (by decide))
  | cons item items =>
    obtain ⟨blanks, -, hbetween⟩ := hlayout.between level
    rw [renderItems, hbetween]
    exact stopsNumber_cons (by decide)

theorem Layout.Spaced.stopsNumber_fields (hlayout : layout.Spaced) {fields : List (Text × Json)} :
    StopsNumber (renderFields layout level fields ++ (layout.closing level ++ '}' :: rest)) := by
  cases fields with
  | nil =>
    rw [renderFields, List.nil_append]
    exact stopsNumber_append (hlayout.closing level) (stopsNumber_cons (by decide))
  | cons field fields =>
    obtain ⟨blanks, -, hbetween⟩ := hlayout.between level
    rw [renderFields, hbetween]
    exact stopsNumber_cons (by decide)

/-- The items of an array are read back one after the other, up to the closing bracket. -/
theorem items?_renderItems (hlayout : layout.Spaced) {item : Json} {items : List Json}
    (hitems : ∀ item' ∈ item :: items, ReadBack layout item')
    (hfuel : (renderAt layout (level + 1) item).length +
      (renderItems layout level items).length + 1 < fuel) :
    items? fuel (renderAt layout (level + 1) item ++
      (renderItems layout level items ++ (layout.closing level ++ ']' :: rest))) =
        some (item :: items, rest) := by
  induction items generalizing item fuel with
  | nil =>
    obtain ⟨fuel, rfl⟩ := Nat.exists_eq_add_one.mpr (Nat.zero_lt_of_lt hfuel)
    rw [items?, hitems item List.mem_cons_self (by omega) hlayout.stopsNumber_items]
    simp only [renderItems, List.nil_append, Option.bind_eq_bind, Option.bind_some,
      skipBlanks_append (hlayout.closing level)]
    rfl
  | cons next items ih =>
    obtain ⟨fuel, rfl⟩ := Nat.exists_eq_add_one.mpr (Nat.zero_lt_of_lt hfuel)
    obtain ⟨blanks, hblanks, hbetween⟩ := hlayout.between level
    have hlength : (renderAt layout (level + 1) next).length +
        (renderItems layout level items).length + 1 < fuel := by
      rw [renderItems, hbetween] at hfuel
      simp only [List.length_append, List.length_cons] at hfuel
      omega
    have hnext := ih (fun item' h => hitems item' (List.mem_cons_of_mem item h)) hlength
    rw [items?, hitems item List.mem_cons_self (by omega) hlayout.stopsNumber_items]
    simp only [renderItems, hbetween, List.cons_append, List.append_assoc, Option.bind_eq_bind,
      Option.bind_some, skipBlanks_cons (show isBlank ',' = false from rfl),
      items?_append hblanks, hnext]
    rfl

/-- A field is read back, and then the text after it says whether there is another. -/
theorem fields?_renderField (hlayout : layout.Spaced) {field : Text × Json}
    (hfield : ReadBack layout field.2) (hfuel : (renderField layout level field).length < fuel)
    (hstop : StopsNumber t) :
    fields? (fuel + 1) (renderField layout level field ++ t) =
      match skipBlanks t with
      | ',' :: rest => (fields? fuel rest).bind fun next => some (field :: next.1, next.2)
      | '}' :: rest => some ([field], rest)
      | _ => none := by
  obtain ⟨name, value⟩ := field
  have hname : skipBlanks (renderField layout level (name, value) ++ t) =
      quote name ++ (':' :: (layout.afterColon ++ (renderAt layout (level + 1) value ++ t))) := by
    rw [renderField]
    simp only [List.append_assoc, List.cons_append]
    exact skipBlanks_cons rfl
  have hvalue : value? fuel (renderAt layout (level + 1) value ++ t) = some (value, t) := by
    have hlength : (renderAt layout (level + 1) value).length < fuel := by
      rw [renderField] at hfuel
      simp only [List.length_append, List.length_cons] at hfuel
      omega
    exact hfield hlength hstop
  rw [fields?, hname, string?_quote]
  simp only [Option.bind_eq_bind, Option.bind_some, value?_append hlayout.afterColon, hvalue,
    skipBlanks_cons (show isBlank ':' = false from rfl)]
  rfl

/-- The fields of an object are read back one after the other, up to the closing brace. -/
theorem fields?_renderFields (hlayout : layout.Spaced) {field : Text × Json}
    {fields : List (Text × Json)} (hfields : ∀ field' ∈ field :: fields, ReadBack layout field'.2)
    (hfuel : (renderField layout level field).length +
      (renderFields layout level fields).length + 1 < fuel) :
    fields? fuel (renderField layout level field ++
      (renderFields layout level fields ++ (layout.closing level ++ '}' :: rest))) =
        some (field :: fields, rest) := by
  induction fields generalizing field fuel with
  | nil =>
    obtain ⟨fuel, rfl⟩ := Nat.exists_eq_add_one.mpr (Nat.zero_lt_of_lt hfuel)
    rw [fields?_renderField hlayout (hfields field List.mem_cons_self) (by omega)
      hlayout.stopsNumber_fields]
    simp only [renderFields, List.nil_append, skipBlanks_append (hlayout.closing level)]
    rfl
  | cons next fields ih =>
    obtain ⟨fuel, rfl⟩ := Nat.exists_eq_add_one.mpr (Nat.zero_lt_of_lt hfuel)
    obtain ⟨blanks, hblanks, hbetween⟩ := hlayout.between level
    have hlength : (renderField layout level next).length +
        (renderFields layout level fields).length + 1 < fuel := by
      rw [renderFields, hbetween] at hfuel
      simp only [List.length_append, List.length_cons] at hfuel
      omega
    have hnext := ih (fun field' h => hfields field' (List.mem_cons_of_mem field h)) hlength
    rw [fields?_renderField hlayout (hfields field List.mem_cons_self) (by omega)
      hlayout.stopsNumber_fields]
    simp only [renderFields, hbetween, List.cons_append, List.append_assoc,
      skipBlanks_cons (show isBlank ',' = false from rfl), fields?_append hblanks, hnext]
    rfl

theorem value?_of_items {c : Char} {blanks : Text} {items : List Json} (hblanks : Blanks blanks)
    (hblank : isBlank c = false) (hclose : c ≠ ']')
    (hitems : items? fuel (c :: t) = some (items, rest)) :
    value? (fuel + 1) ('[' :: (blanks ++ c :: t)) = some (.arr items, rest) := by
  have hskip : skipBlanks (blanks ++ c :: t) = c :: t := by
    rw [skipBlanks_append hblanks, skipBlanks_cons hblank]
  rw [value?, skipBlanks_cons rfl]
  simp [hskip, hclose, hitems]

theorem value?_of_fields {c : Char} {blanks : Text} {fields : List (Text × Json)}
    (hblanks : Blanks blanks) (hblank : isBlank c = false) (hclose : c ≠ '}')
    (hfields : fields? fuel (c :: t) = some (fields, rest)) :
    value? (fuel + 1) ('{' :: (blanks ++ c :: t)) = some (.obj fields, rest) := by
  have hskip : skipBlanks (blanks ++ c :: t) = c :: t := by
    rw [skipBlanks_append hblanks, skipBlanks_cons hblank]
  rw [value?, skipBlanks_cons rfl]
  simp [hskip, hclose, hfields]

theorem readBack_int (n : Int) : ReadBack layout (.int n) := by
  refine ReadBack.intro fun level fuel rest _ hstop => ?_
  have hread := number?_ofInt n hstop
  obtain ⟨c, cs, hfirst, hc⟩ := exists_first_ofInt n
  rw [hfirst, List.cons_append] at hread
  rw [renderAt, hfirst, List.cons_append, value?_of_startsNumber hc, hread]

theorem readBack_str (text : Text) : ReadBack layout (.str text) := by
  refine ReadBack.intro fun level fuel rest _ _ => ?_
  have hread := string?_quote text rest
  have hquote : quote text ++ rest = '"' :: (text.flatMap escapeChar ++ '"' :: rest) := by
    simp [quote]
  rw [hquote] at hread
  rw [renderAt, hquote, value?, skipBlanks_cons rfl]
  simp only [hread]
  rfl

theorem readBack_arr (hlayout : layout.Spaced) {items : List Json}
    (hwhole : ∀ item ∈ items, Whole item) (hitems : ∀ item ∈ items, ReadBack layout item) :
    ReadBack layout (.arr items) := by
  refine ReadBack.intro fun level fuel rest hfuel _ => ?_
  cases items with
  | nil => rfl
  | cons item items =>
    have hlength : (renderAt layout (level + 1) item).length +
        (renderItems layout level items).length + 1 < fuel := by
      rw [renderAt] at hfuel
      simp only [List.length_append, List.length_cons, List.length_nil] at hfuel
      omega
    have hread : items? fuel (renderAt layout (level + 1) item ++
        (renderItems layout level items ++ (layout.closing level ++ ']' :: rest))) =
          some (item :: items, rest) :=
      items?_renderItems hlayout hitems hlength
    obtain ⟨c, cs, hfirst, hblank, hclose⟩ :=
      exists_first_renderAt layout (level + 1) (hwhole item List.mem_cons_self)
    rw [hfirst, List.cons_append] at hread
    have htext : renderAt layout level (.arr (item :: items)) ++ rest =
        '[' :: (layout.opening level ++ c :: (cs ++ (renderItems layout level items ++
          (layout.closing level ++ ']' :: rest)))) := by
      rw [renderAt, hfirst]
      simp
    rw [htext, value?_of_items (hlayout.opening level) hblank hclose hread]

theorem readBack_obj (hlayout : layout.Spaced) {fields : List (Text × Json)}
    (hfields : ∀ field ∈ fields, ReadBack layout field.2) : ReadBack layout (.obj fields) := by
  refine ReadBack.intro fun level fuel rest hfuel _ => ?_
  cases fields with
  | nil => rfl
  | cons field fields =>
    have hlength : (renderField layout level field).length +
        (renderFields layout level fields).length + 1 < fuel := by
      rw [renderAt] at hfuel
      simp only [List.length_append, List.length_cons, List.length_nil] at hfuel
      omega
    have hread : fields? fuel (renderField layout level field ++
        (renderFields layout level fields ++ (layout.closing level ++ '}' :: rest))) =
          some (field :: fields, rest) :=
      fields?_renderFields hlayout hfields hlength
    obtain ⟨cs, hfirst⟩ : ∃ cs, renderField layout level field = '"' :: cs := by
      cases field
      exact ⟨_, by rw [renderField, quote]; rfl⟩
    rw [hfirst, List.cons_append] at hread
    have htext : renderAt layout level (.obj (field :: fields)) ++ rest =
        '{' :: (layout.opening level ++ '"' :: (cs ++ (renderFields layout level fields ++
          (layout.closing level ++ '}' :: rest)))) := by
      rw [renderAt, hfirst]
      simp
    rw [htext, value?_of_fields (hlayout.opening level) (by decide) (by decide) hread]

/-- A value without fractions and exponents is read from what it is written as. -/
theorem readBack_of_whole (hlayout : layout.Spaced) (h : Whole json) : ReadBack layout json := by
  induction h with
  | null => exact ReadBack.intro fun _ _ _ _ _ => rfl
  | bool value => cases value <;> exact ReadBack.intro fun _ _ _ _ _ => rfl
  | int n => exact readBack_int n
  | str text => exact readBack_str text
  | arr items_whole ih => exact readBack_arr hlayout items_whole ih
  | obj _ ih => exact readBack_obj hlayout ih

/-- A value without fractions and exponents is what its text stands for, in either layout. -/
theorem parse?_renderAt (hlayout : layout.Spaced) (h : Whole json) :
    parse? (renderAt layout level json) = some json := by
  have hread : value? ((renderAt layout level json).length + 1)
      (renderAt layout level json ++ []) = some (json, []) :=
    readBack_of_whole hlayout h (Nat.lt_succ_self _) (fun _ hc => nomatch hc)
  rw [List.append_nil] at hread
  rw [parse?, hread]
  rfl

theorem parse?_compress (h : Whole json) : parse? (compress json) = some json :=
  parse?_renderAt Layout.compact_spaced h

theorem parse?_pretty (h : Whole json) : parse? (pretty json) = some json :=
  parse?_renderAt Layout.pretty_spaced h

end Values

end Retarget.Json

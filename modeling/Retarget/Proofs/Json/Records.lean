import Retarget.Json.Decode

/-!
Records as JSON objects. A record is written as the fields that hold something; looking its names up
in what was written finds for each field what it held, and nothing for a field that was left out. So
a record is read from the same values that it was written from.
-/
namespace Retarget.Json

def present (fields : List (String × Option Json)) : List (Text × Json) :=
  fields.flatMap fun field => optional field.1 field.2

variable {α : Type} {name name' : String} {value : Option Json}
  {fields : List (String × Option Json)}

theorem mem_present {field : Text × Json} :
    field ∈ present fields ↔ ∃ name, (name, some field.2) ∈ fields ∧ field.1 = name.toList := by
  obtain ⟨text, json⟩ := field
  have hoptional : ∀ name value, (text, json) ∈ optional name value ↔
      value = some json ∧ text = name.toList := by
    intro name value
    cases value with
    | none => simp [optional]
    | some held => simp [optional, and_comm, eq_comm]
  simp only [present, List.mem_flatMap, hoptional, Prod.exists]
  constructor
  · rintro ⟨name, _, hmem, rfl, htext⟩
    exact ⟨name, hmem, htext⟩
  · rintro ⟨name, hmem, htext⟩
    exact ⟨name, _, hmem, rfl, htext⟩

theorem lookup?_present_cons :
    lookup? name (present ((name', value) :: fields)) =
      (lookup? name (present fields)).or (if name = name' then value else none) := by
  have hhead : (optional name' value).reverse.lookup name.toList =
      if name = name' then value else none := by
    cases value with
    | none => simp [optional]
    | some held =>
      by_cases hname : name = name'
      · simp [optional, hname]
      · have hne : (name.toList == name'.toList) = false :=
          beq_false_of_ne fun h => hname (String.toList_inj.mp h)
        simp [optional, hname, List.lookup_cons, hne]
  rw [lookup?, lookup?, present, List.flatMap_cons, List.reverse_append, List.lookup_append, hhead]
  rfl

theorem lookup?_present_of_not_mem (h : name ∉ fields.map Prod.fst) :
    lookup? name (present fields) = none := by
  induction fields with
  | nil => rfl
  | cons field fields ih =>
    simp only [List.map_cons, List.mem_cons, not_or] at h
    rw [lookup?_present_cons, ih h.2, if_neg h.1]
    rfl

/-- Names that stand for one field each are looked up as what their fields hold. -/
theorem lookup?_present (hnodup : (fields.map Prod.fst).Nodup) (h : (name, value) ∈ fields) :
    lookup? name (present fields) = value := by
  induction fields with
  | nil => cases h
  | cons field fields ih =>
    rw [List.map_cons, List.nodup_cons] at hnodup
    rw [lookup?_present_cons]
    rcases List.mem_cons.mp h with rfl | hlater
    · rw [lookup?_present_of_not_mem hnodup.1, if_pos rfl, Option.none_or]
    · have hne : name ≠ field.1 := by
        rintro rfl
        exact hnodup.1 (List.mem_map.mpr ⟨_, hlater, rfl⟩)
      rw [ih hnodup.2 hlater, if_neg hne, Option.or_none]

/-- A record is read from the values that it was written from. -/
theorem recordFields?_present (hnodup : (fields.map Prod.fst).Nodup) :
    recordFields? (fields.map Prod.fst) (.obj (present fields)) = some (fields.map Prod.snd) := by
  rw [recordFields?, List.map_map]
  congr 1
  exact List.map_congr_left fun field hfield => lookup?_present hnodup hfield

/-- What may be missing or null is read back when it is never written as null. -/
theorem nullable?_map {read : Json → Option α} {write : α → Json} {held : Option α}
    (hnull : ∀ item, write item ≠ .null) (h : ∀ item ∈ held, read (write item) = some item) :
    nullable? read (held.map write) = some held := by
  cases held with
  | none => rfl
  | some item =>
    have hread : read (write item) = some item := h item rfl
    rw [Option.map_some]
    unfold nullable?
    split
    · next hmissing => cases hmissing
    · next hwritten => exact absurd (Option.some.inj hwritten) (hnull item)
    · next hwritten =>
      cases hwritten
      rw [hread]
      rfl

/-- What was read where something may be missing was read from what was there. -/
theorem exists_of_nullable? {read : Json → Option α} {field : Option Json} {item : α}
    (h : nullable? read field = some (some item)) : ∃ json, read json = some item := by
  unfold nullable? at h
  split at h
  · cases h
  · cases h
  · obtain ⟨_, hread, hitem⟩ := Option.map_eq_some_iff.mp h
    cases hitem
    exact ⟨_, hread⟩

/-- A list is read back when each of its items is. -/
theorem listOf?_map {read : Json → Option α} {write : α → Json}
    (h : ∀ item, read (write item) = some item) (items : List α) :
    listOf? read (.arr (items.map write)) = some items := by
  induction items with
  | nil => rfl
  | cons item items ih =>
    simp only [listOf?, List.map_cons, List.mapM_cons, h] at ih ⊢
    rw [ih]
    rfl

/-- Each item of a list that is read is read itself. -/
theorem isSome_of_listOf? {read : Json → Option α} {items : List Json} {item : Json}
    {values : List α} (h : listOf? read (.arr items) = some values) (hitem : item ∈ items) :
    (read item).isSome := by
  induction items generalizing values with
  | nil => cases hitem
  | cons first items ih =>
    rw [listOf?, List.mapM_cons] at h
    obtain ⟨value, hfirst, h⟩ := Option.bind_eq_some_iff.mp h
    obtain ⟨others, hothers, -⟩ := Option.bind_eq_some_iff.mp h
    rcases List.mem_cons.mp hitem with rfl | hlater
    · rw [hfirst]
      rfl
    · exact ih hothers hlater

end Retarget.Json

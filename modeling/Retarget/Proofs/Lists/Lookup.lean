import Mathlib.Data.List.Nodup

/-!
Lists of keys and what stands with them. A key is found where it is first; where the keys are all
different, each is found with what it stands with. Putting something else at a key, or taking the
key away, makes no difference to any other key.
-/
namespace Retarget

/-- Putting something at a key leaves the keys as they are. -/
theorem map_fst_map_put {κ α : Type} [DecidableEq κ] (entries : List (κ × α)) (key : κ)
    (found : α) :
    (entries.map fun e => if e.1 = key then (key, found) else e).map Prod.fst =
      entries.map Prod.fst := by
  rw [List.map_map]
  apply List.map_congr_left
  intro e _
  by_cases h : e.1 = key <;> simp [h]

variable {κ α : Type} [BEq κ] [LawfulBEq κ] {entries : List (κ × α)} {key : κ}

theorem isSome_lookup_iff :
    (entries.lookup key).isSome = true ↔ key ∈ entries.map Prod.fst := by
  rw [List.lookup_isSome_iff, List.mem_map]
  constructor
  · rintro ⟨e, he, hkey⟩
    exact ⟨e, he, (beq_iff_eq.mp hkey).symm⟩
  · rintro ⟨e, he, rfl⟩
    exact ⟨e, he, beq_self_eq_true e.1⟩

theorem lookup_eq_none_iff : entries.lookup key = none ↔ key ∉ entries.map Prod.fst := by
  rw [← isSome_lookup_iff, Bool.not_eq_true, Option.isSome_eq_false_iff, Option.isNone_iff_eq_none]

/-- Where keys are all different, each is found with what it stands with. -/
theorem lookup_of_mem (hnodup : (entries.map Prod.fst).Nodup) {found : α}
    (hmem : (key, found) ∈ entries) : entries.lookup key = some found := by
  induction entries with
  | nil => cases hmem
  | cons e rest ih =>
    obtain ⟨hfirst, hrest⟩ := List.nodup_cons.mp hnodup
    rcases List.mem_cons.mp hmem with rfl | hmem
    · simp
    · have hne : (key == e.1) = false := by
        rw [beq_eq_false_iff_ne]
        rintro rfl
        exact hfirst (List.mem_map.mpr ⟨_, hmem, rfl⟩)
      rw [← ih hrest hmem, List.lookup_cons, hne]

theorem mem_of_lookup {found : α} (h : entries.lookup key = some found) :
    (key, found) ∈ entries := by
  obtain ⟨before, after, rfl, -⟩ := List.lookup_eq_some_iff.mp h
  simp

variable [DecidableEq κ]

theorem lookup_map_put (entries : List (κ × α)) (key other : κ) (found : α) :
    (entries.map fun e => if e.1 = key then (key, found) else e).lookup other =
      if other = key ∧ key ∈ entries.map Prod.fst then some found else entries.lookup other := by
  induction entries with
  | nil => simp
  | cons e rest ih =>
    obtain ⟨first, old⟩ := e
    by_cases hother : other = first
    · subst hother
      by_cases hfirst : other = key <;> simp [hfirst]
    · have hne : (other == first) = false := by simpa using hother
      by_cases hfirst : first = key
      · subst hfirst
        simp [List.lookup_cons, hother, hne, ih]
      · have hmem : key ∈ first :: rest.map Prod.fst ↔ key ∈ rest.map Prod.fst := by
          simp [Ne.symm hfirst]
        simp only [List.map_cons, hfirst, if_false, List.lookup_cons, hne, ih, hmem]

theorem lookup_filter_ne (entries : List (κ × α)) (key other : κ) :
    (entries.filter fun e => e.1 ≠ key).lookup other =
      if other = key then none else entries.lookup other := by
  induction entries with
  | nil => simp
  | cons e rest ih =>
    obtain ⟨first, old⟩ := e
    by_cases hother : other = first
    · subst hother
      by_cases hfirst : other = key
      · simpa [hfirst] using ih
      · simp [hfirst]
    · have hne : (other == first) = false := by simpa using hother
      by_cases hfirst : first = key
      · subst hfirst
        simpa [List.lookup_cons, hne] using ih
      · simpa [List.lookup_cons, hfirst, hne] using ih

end Retarget

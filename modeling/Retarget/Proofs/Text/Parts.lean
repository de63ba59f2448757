import Retarget.Text.Split

/-!
A text and its parts before a separator. The separators are passed from left to right, so each part
begins with the parts before it, and they are the pieces of the text put together one more at a
time, without the last piece. The part before the last separator is the last of them.
-/
namespace Retarget.Text

variable {sep : Char} {t : Text}

theorem beforeLast?_of_not_mem (h : sep ∉ t) : t.beforeLast? sep = none := by
  induction t with
  | nil => rfl
  | cons c cs ih =>
    simp only [List.mem_cons, not_or] at h
    simp [beforeLast?, ih h.2, Ne.symm h.1]

theorem beforeLast?_append (before : Text) {rest : Text} (h : sep ∉ rest) :
    beforeLast? sep (before ++ sep :: rest) = some before := by
  induction before with
  | nil => simp [beforeLast?, beforeLast?_of_not_mem h]
  | cons c cs ih => simp [beforeLast?, ih]

theorem exists_last_of_mem (h : sep ∈ t) :
    ∃ before rest, t = before ++ sep :: rest ∧ sep ∉ rest := by
  induction t with
  | nil => simp at h
  | cons c cs ih =>
    by_cases hlater : sep ∈ cs
    · obtain ⟨before, rest, rfl, hrest⟩ := ih hlater
      exact ⟨c :: before, rest, rfl, hrest⟩
    · rcases List.mem_cons.mp h with rfl | hmem
      · exact ⟨[], cs, rfl, hlater⟩
      · exact absurd hmem hlater

theorem partsBefore_of_not_mem (h : sep ∉ t) : partsBefore sep t = [] := by
  induction t with
  | nil => rfl
  | cons c cs ih =>
    simp only [List.mem_cons, not_or] at h
    simp [partsBefore, ih h.2, Ne.symm h.1]

/-- A separator adds what is before it to the parts before it, and the parts behind it are longer by
that and the separator. -/
theorem partsBefore_append_sep (before rest : Text) :
    partsBefore sep (before ++ sep :: rest) =
      partsBefore sep before ++ before ::
        (partsBefore sep rest).map fun part => before ++ sep :: part := by
  induction before with
  | nil => simp [partsBefore]
  | cons c cs ih =>
    by_cases hc : c = sep
    · simp [partsBefore, hc, ih, Function.comp_def]
    · simp [partsBefore, hc, ih, Function.comp_def]

/-- The parts are what the first pieces make, one more each time, but never all of them. -/
theorem partsBefore_joinWith {pieces : List Text} (h : ∀ piece ∈ pieces, sep ∉ piece) :
    partsBefore sep (joinWith sep pieces) =
      (List.range (pieces.length - 1)).map fun i => joinWith sep (pieces.take (i + 1)) := by
  induction pieces with
  | nil => rfl
  | cons first others ih =>
    obtain ⟨hfirst, hothers⟩ := List.forall_mem_cons.mp h
    cases others with
    | nil => exact partsBefore_of_not_mem hfirst
    | cons second rest =>
      have hrange : List.range ((first :: second :: rest).length - 1) =
          0 :: (List.range ((second :: rest).length - 1)).map Nat.succ :=
        List.range_succ_eq_map
      rw [joinWith, partsBefore_append_sep, partsBefore_of_not_mem hfirst, List.nil_append,
        ih hothers, hrange, List.map_cons, List.map_map, List.map_map]
      rfl

/-- The parts of a text are made of its pieces. -/
theorem partsBefore_eq (sep : Char) (t : Text) :
    partsBefore sep t =
      (List.range ((splitOn sep t).length - 1)).map
        fun i => joinWith sep ((splitOn sep t).take (i + 1)) := by
  rw [← partsBefore_joinWith fun _ => sep_not_mem_of_mem_splitOn, joinWith_splitOn]

/-- Up to the last separator there are all parts but the last, which ends there. -/
theorem partsBefore_of_beforeLast? {before : Text} (h : t.beforeLast? sep = some before) :
    partsBefore sep t = partsBefore sep before ++ [before] := by
  by_cases hmem : sep ∈ t
  · obtain ⟨front, rest, rfl, hrest⟩ := exists_last_of_mem hmem
    rw [beforeLast?_append front hrest, Option.some.injEq] at h
    rw [partsBefore_append_sep, partsBefore_of_not_mem hrest, List.map_nil, h]
  · rw [beforeLast?_of_not_mem hmem] at h
    cases h

theorem beforeLast?_eq_getLast? (sep : Char) (t : Text) :
    t.beforeLast? sep = (partsBefore sep t).getLast? := by
  cases h : t.beforeLast? sep with
  | some before => rw [partsBefore_of_beforeLast? h, List.getLast?_concat]
  | none =>
    have hmem : sep ∉ t := by
      intro hmem
      obtain ⟨front, rest, rfl, hrest⟩ := exists_last_of_mem hmem
      rw [beforeLast?_append front hrest] at h
      cases h
    rw [partsBefore_of_not_mem hmem, List.getLast?_nil]

theorem lt_append_cons (t : List Char) (c : Char) (rest : List Char) : t < t ++ c :: rest := by
  induction t with
  | nil => exact List.nil_lt_cons c rest
  | cons d ds ih => exact List.cons_lt_cons_self.mpr ih

/-- Each part before a separator is followed by it. -/
theorem exists_of_mem_partsBefore {part : Text} (h : part ∈ partsBefore sep t) :
    ∃ rest, t = part ++ sep :: rest := by
  induction t generalizing part with
  | nil => simp [partsBefore] at h
  | cons c cs ih =>
    have hlonger : part ∈ (partsBefore sep cs).map (c :: ·) →
        ∃ rest, c :: cs = part ++ sep :: rest := by
      intro hmem
      obtain ⟨shorter, hshorter, rfl⟩ := List.mem_map.mp hmem
      obtain ⟨rest, hrest⟩ := ih hshorter
      exact ⟨rest, by rw [hrest, List.cons_append]⟩
    by_cases hc : c = sep
    · simp only [partsBefore, hc, if_true, List.mem_cons] at h
      rcases h with rfl | h
      · exact ⟨cs, by rw [hc, List.nil_append]⟩
      · exact hc ▸ hlonger (hc ▸ h)
    · simp only [partsBefore, hc, if_false] at h
      exact hlonger h

theorem cons_mem_partsBefore {part : Text} (c : Char) (h : part ∈ partsBefore sep t) :
    c :: part ∈ partsBefore sep (c :: t) := by
  have hlonger : c :: part ∈ (partsBefore sep t).map (c :: ·) := List.mem_map.mpr ⟨part, h, rfl⟩
  by_cases hc : c = sep
  · simp only [partsBefore, hc, if_true]
    exact List.mem_cons_of_mem _ (hc ▸ hlonger)
  · simpa only [partsBefore, hc, if_false] using hlonger

/-- Of two parts before a separator the first is a part of the other. -/
theorem pairwise_partsBefore (sep : Char) (t : Text) :
    (partsBefore sep t).Pairwise fun outer inner => outer ∈ partsBefore sep inner := by
  induction t with
  | nil => exact List.Pairwise.nil
  | cons c cs ih =>
    have hlonger : ((partsBefore sep cs).map (c :: ·)).Pairwise
        fun outer inner => outer ∈ partsBefore sep inner :=
      List.pairwise_map.mpr (ih.imp fun h => cons_mem_partsBefore c h)
    by_cases hc : c = sep
    · simp only [partsBefore, hc, if_true]
      rw [hc] at hlonger
      refine List.pairwise_cons.mpr ⟨fun inner hinner => ?_, hlonger⟩
      obtain ⟨shorter, -, rfl⟩ := List.mem_map.mp hinner
      simp [partsBefore]
    · simpa only [partsBefore, hc, if_false] using hlonger

end Retarget.Text

import Retarget.EntryPath
import Retarget.Proofs.Text.Parts

/-!
Normal entry paths. What a raw name is read as is normal, and a normal path is read as itself, with
or without the slash that marks a directory. So the text of a normal path neither begins nor ends
with a slash, and the paths above it are normal too.
-/
namespace Retarget

namespace Text

theorem mem_of_mem_splitOn {sep c : Char} {t : Text} (h : c ∈ t) :
    c = sep ∨ ∃ piece ∈ splitOn sep t, c ∈ piece := by
  induction t with
  | nil => simp at h
  | cons d ds ih =>
    by_cases hsep : d = sep
    · rcases List.mem_cons.mp h with rfl | hmem
      · exact Or.inl hsep
      · rcases ih hmem with hc | ⟨piece, hpiece, hc⟩
        · exact Or.inl hc
        · exact Or.inr ⟨piece, by simp [splitOn, hsep, hpiece], hc⟩
    · obtain ⟨first, rest, hsplit⟩ : ∃ first rest, splitOn sep ds = first :: rest :=
        List.exists_cons_of_ne_nil (splitOn_ne_nil sep ds)
      have hcons : splitOn sep (d :: ds) = (d :: first) :: rest := by
        simp only [splitOn, hsep, if_false, hsplit]
      rw [hcons]
      rcases List.mem_cons.mp h with rfl | hmem
      · exact Or.inr ⟨c :: first, List.mem_cons_self .., List.mem_cons_self ..⟩
      · rcases ih hmem with hc | ⟨piece, hpiece, hc⟩
        · exact Or.inl hc
        · rw [hsplit] at hpiece
          rcases List.mem_cons.mp hpiece with rfl | hpiece
          · exact Or.inr ⟨d :: piece, List.mem_cons_self .., List.mem_cons_of_mem _ hc⟩
          · exact Or.inr ⟨piece, List.mem_cons_of_mem _ hpiece, hc⟩

theorem mem_of_mem_piece {sep c : Char} {t piece : Text} (hpiece : piece ∈ splitOn sep t)
    (hc : c ∈ piece) : c ∈ t := by
  induction t generalizing piece with
  | nil =>
    have hnil : piece = [] := by simpa [splitOn] using hpiece
    exact hnil ▸ hc
  | cons d ds ih =>
    obtain ⟨first, rest, hsplit⟩ : ∃ first rest, splitOn sep ds = first :: rest :=
      List.exists_cons_of_ne_nil (splitOn_ne_nil sep ds)
    by_cases hsep : d = sep
    · simp only [splitOn, hsep, if_true, List.mem_cons] at hpiece
      rcases hpiece with rfl | hpiece
      · cases hc
      · exact List.mem_cons_of_mem _ (ih hpiece hc)
    · simp only [splitOn, hsep, if_false, hsplit, List.mem_cons] at hpiece ih
      rcases hpiece with rfl | hpiece
      · rcases List.mem_cons.mp hc with rfl | hc
        · exact List.mem_cons_self ..
        · exact List.mem_cons_of_mem _ (ih (Or.inl rfl) hc)
      · exact List.mem_cons_of_mem _ (ih (Or.inr hpiece) hc)

theorem dropWhile_of_head?_ne {c : Char} {t : Text} (h : t.head? ≠ some c) :
    t.dropWhile (· == c) = t := by
  cases t with
  | nil => rfl
  | cons d ds =>
    have hne : (d == c) = false := by simpa using h
    simp [hne]

theorem trim_of_ends {c : Char} {t : Text} (hhead : t.head? ≠ some c)
    (hlast : t.getLast? ≠ some c) : trim c t = t := by
  rw [trim, dropWhile_of_head?_ne hhead, dropWhile_of_head?_ne (by rwa [List.head?_reverse]),
    List.reverse_reverse]

theorem trim_append_last {c : Char} {t : Text} (hne : t ≠ []) (hhead : t.head? ≠ some c)
    (hlast : t.getLast? ≠ some c) : trim c (t ++ [c]) = t := by
  have hhead' : (t ++ [c]).head? ≠ some c := by
    obtain ⟨d, ds, rfl⟩ := List.exists_cons_of_ne_nil hne
    exact hhead
  rw [trim, dropWhile_of_head?_ne hhead', List.reverse_append, List.reverse_singleton,
    List.singleton_append, List.dropWhile_cons, if_pos (by simp),
    dropWhile_of_head?_ne (by rwa [List.head?_reverse]), List.reverse_reverse]

theorem replace_of_not_mem {a b : Char} {t : Text} (h : a ∉ t) : replace a b t = t := by
  unfold replace
  induction t with
  | nil => rfl
  | cons c cs ih =>
    simp only [List.mem_cons, not_or] at h
    rw [List.map_cons, if_neg (Ne.symm h.1), ih h.2]

theorem not_mem_replace {a b : Char} (h : a ≠ b) (t : Text) : a ∉ replace a b t := by
  intro hmem
  obtain ⟨c, _, hc⟩ := List.mem_map.mp hmem
  by_cases hca : c = a
  · rw [if_pos hca] at hc
    exact h hc.symm
  · rw [if_neg hca] at hc
    exact hca hc

theorem mem_of_mem_trim {c d : Char} {t : Text} (h : d ∈ trim c t) : d ∈ t := by
  have hinner := (List.dropWhile_sublist _).mem (List.mem_reverse.mp h)
  exact (List.dropWhile_sublist _).mem (List.mem_reverse.mp hinner)

end Text

namespace EntryPath

variable {path : EntryPath}

theorem IsNormal.text_ne_nil (h : path.IsNormal) : path.text ≠ [] := by
  intro hnil
  have hsegment := h [] (by simp [segments, hnil, Text.splitOn])
  exact hsegment.1 rfl

theorem IsNormal.head?_ne (h : path.IsNormal) : path.text.head? ≠ some '/' := by
  intro hhead
  cases htext : path.text with
  | nil => simp [htext] at hhead
  | cons c cs =>
    have hc : c = '/' := by simpa [htext] using hhead
    have hsegment := h [] (by simp [segments, htext, hc, Text.splitOn])
    exact hsegment.1 rfl

theorem IsNormal.getLast?_ne (h : path.IsNormal) : path.text.getLast? ≠ some '/' := by
  intro hlast
  obtain ⟨front, hfront⟩ := List.getLast?_eq_some_iff.mp hlast
  have hsegment := h [] (by rw [segments, hfront, Text.splitOn_append_sep]; simp [Text.splitOn])
  exact hsegment.1 rfl

theorem IsNormal.backslash_not_mem (h : path.IsNormal) : '\\' ∉ path.text := by
  intro hmem
  have hpiece : '\\' = '/' ∨ ∃ segment ∈ path.segments, '\\' ∈ segment :=
    Text.mem_of_mem_splitOn hmem
  rcases hpiece with hc | ⟨segment, hsegment, hc⟩
  · cases hc
  · exact (h segment hsegment).2.2.2 hc

theorem firstBadSegment?_eq_none_iff {raw : Text} {segments : List Text} :
    firstBadSegment? raw segments = none ↔
      ∀ segment ∈ segments, segment ≠ [] ∧ segment ≠ ['.'] ∧ segment ≠ ['.', '.'] := by
  induction segments with
  | nil => simp [firstBadSegment?]
  | cons segment rest ih =>
    by_cases hempty : segment = []
    · simp [firstBadSegment?, hempty]
    · by_cases hdots : segment = ['.'] ∨ segment = ['.', '.']
      · rcases hdots with rfl | rfl <;> simp [firstBadSegment?]
      · simp only [firstBadSegment?, hempty, if_false, hdots, ih, List.forall_mem_cons]
        simp only [not_or] at hdots
        simp [hempty, hdots]

theorem parse_of_unify {raw : Text} (h : path.IsNormal) (hunify : unify raw = path.text) :
    parse raw = .ok path := by
  have hnone : firstBadSegment? raw (Text.splitOn '/' path.text) = none :=
    firstBadSegment?_eq_none_iff.mpr fun segment hsegment =>
      ⟨(h segment hsegment).1, (h segment hsegment).2.1, (h segment hsegment).2.2.1⟩
  simp only [parse, hunify, h.text_ne_nil, if_false, hnone]

/-- A normal path is read as itself. -/
theorem parse_of_isNormal (h : path.IsNormal) : parse path.text = .ok path := by
  refine parse_of_unify h ?_
  rw [unify, Text.replace_of_not_mem h.backslash_not_mem,
    Text.trim_of_ends h.head?_ne h.getLast?_ne]

/-- The name of a directory is read as its path. -/
theorem parse_append_slash (h : path.IsNormal) : parse (path.text ++ ['/']) = .ok path := by
  refine parse_of_unify h ?_
  have hslash : '\\' ∉ path.text ++ ['/'] := by
    simp [h.backslash_not_mem]
  rw [unify, Text.replace_of_not_mem hslash,
    Text.trim_append_last h.text_ne_nil h.head?_ne h.getLast?_ne]

/-- What a raw name is read as is normal. -/
theorem isNormal_of_parse {raw : Text} (h : parse raw = .ok path) : path.IsNormal := by
  unfold parse at h
  simp only at h
  split at h
  · cases h
  · split at h
    · cases h
    · next hnone =>
      cases h
      intro segment hsegment
      obtain ⟨hempty, hdot, hdots⟩ := firstBadSegment?_eq_none_iff.mp hnone segment hsegment
      refine ⟨hempty, hdot, hdots, ?_⟩
      intro hmem
      have htext : '\\' ∈ unify raw := Text.mem_of_mem_piece hsegment hmem
      exact Text.not_mem_replace (by decide) raw (Text.mem_of_mem_trim htext)

/-- What comes before a slash in a normal path is normal. -/
theorem IsNormal.of_append {above rest : Text} (h : path.IsNormal)
    (htext : path.text = above ++ '/' :: rest) : (EntryPath.mk above).IsNormal := by
  intro segment hsegment
  apply h segment
  rw [segments, htext, Text.splitOn_append_sep]
  exact List.mem_append_left _ hsegment

theorem isNormal_of_mem_ancestors (h : path.IsNormal) {above : EntryPath}
    (habove : above ∈ path.ancestors) : above.IsNormal := by
  obtain ⟨part, hpart, rfl⟩ := List.mem_map.mp habove
  obtain ⟨rest, hrest⟩ := Text.exists_of_mem_partsBefore hpart
  exact h.of_append hrest

theorem isNormal_of_parent? (h : path.IsNormal) {above : EntryPath}
    (habove : path.parent? = some above) : above.IsNormal := by
  obtain ⟨before, hbefore, rfl⟩ := Option.map_eq_some_iff.mp habove
  exact h.of_append (Text.eq_append_of_beforeLast? hbefore)

end EntryPath

end Retarget

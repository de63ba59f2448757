import Retarget.Entry
import Retarget.Proofs.EntryPath.Made

/-!
Which entries have the role of a class, and which class it is. A class's name is what the text of
its entry is without the file ending, and the text is got back by putting the ending on again, so
names and class entries belong to each other one to one. A normal path that ends as a class does is
a class's unless nothing is left of its last segment, or what is left ends as a class does too.
-/
namespace Retarget

theorem Text.dropSuffix?_eq_some_iff {t tail stem : Text} :
    t.dropSuffix? tail = some stem ↔ t = stem ++ tail := by
  unfold dropSuffix?
  constructor
  · intro h
    split at h
    · next hsuffix =>
      obtain ⟨front, rfl⟩ := List.isSuffixOf_iff_suffix.mp hsuffix
      have hlength : (front ++ tail).length - tail.length = front.length := by
        simp only [List.length_append]
        omega
      rw [hlength, List.take_left, Option.some.injEq] at h
      rw [h]
    · cases h
  · intro h
    subst h
    have hlength : (stem ++ tail).length - tail.length = stem.length := by
      simp only [List.length_append]
      omega
    rw [if_pos (List.isSuffixOf_iff_suffix.mpr (List.suffix_append stem tail)), hlength,
      List.take_left]

namespace ClassName

theorem ofText_eq_ok_iff {text : Text} {name : ClassName} :
    ofText text = .ok name ↔ name.text = text := by
  constructor
  · intro h
    unfold ofText at h
    split at h
    · cases h
    · split at h
      · cases h
      · split at h
        · cases h
        · cases h
          rfl
  · intro h
    rw [← h]
    exact name.ofText_text

/-- The class of an entry is the one whose entry it is. -/
theorem ofEntryText?_eq_some_iff {entry : Text} {name : ClassName} :
    ofEntryText? entry = some name ↔ name.entryText = entry := by
  unfold ofEntryText?
  constructor
  · intro h
    cases hstem : entry.dropSuffix? classSuffix with
    | none => simp [hstem] at h
    | some stem =>
      rw [hstem] at h
      cases hname : ofText stem with
      | error fault => simp [hname, Except.toOption] at h
      | ok found =>
        simp only [hname, Except.toOption, Option.some.injEq] at h
        subst h
        rw [entryText, ofText_eq_ok_iff.mp hname]
        exact (Text.dropSuffix?_eq_some_iff.mp hstem).symm
  · intro h
    have hstem : entry.dropSuffix? classSuffix = some name.text :=
      Text.dropSuffix?_eq_some_iff.mpr h.symm
    simp only [hstem, name.ofText_text]
    rfl

end ClassName

namespace EntryPath

variable {path : EntryPath}

theorem ofClass_eq_iff {name : ClassName} :
    ofClass name = path ↔ ClassName.ofEntryText? path.text = some name := by
  rw [ClassName.ofEntryText?_eq_some_iff, ofClass, mk.injEq]

/-- Whether a normal path is a class's is told by its ending and its last segment. -/
theorem exists_ofEntryText?_iff (h : path.IsNormal) :
    (∃ name, ClassName.ofEntryText? path.text = some name) ↔
      classSuffix <:+ path.text ∧ path.segments.getLast? ≠ some classSuffix ∧
        ¬classSuffix ++ classSuffix <:+ path.text := by
  have hslash : '/' ∉ classSuffix := by decide
  constructor
  · intro hclass
    obtain ⟨name, hname⟩ := hclass
    have htext : name.text ++ classSuffix = path.text := ClassName.ofEntryText?_eq_some_iff.mp hname
    obtain ⟨front, last, hsplit, hsplit'⟩ := Text.splitOn_append_of_not_mem hslash name.text
    have hsegments : path.segments = front ++ [last ++ classSuffix] := by
      rw [segments, ← htext, hsplit']
    refine ⟨⟨name.text, htext⟩, ?_, ?_⟩
    · intro hlast
      rw [hsegments, List.getLast?_concat, Option.some.injEq] at hlast
      have hempty : last = [] := List.append_left_eq_self.mp hlast
      apply name.valid.no_empty_segment
      rw [hsplit, hempty]
      simp
    · intro htwice
      obtain ⟨stem, hstem⟩ := htwice
      rw [← List.append_assoc, ← htext] at hstem
      exact name.valid.no_suffix ⟨stem, List.append_cancel_right hstem⟩
  · intro hclass
    obtain ⟨⟨stem, hstem⟩, hlast, htwice⟩ := hclass
    obtain ⟨front, last, hsplit, hsplit'⟩ := Text.splitOn_append_of_not_mem hslash stem
    have hsegments : path.segments = front ++ [last ++ classSuffix] := by
      rw [segments, ← hstem, hsplit']
    have hne : last ≠ [] := by
      intro hempty
      apply hlast
      rw [hsegments, List.getLast?_concat, hempty, List.nil_append]
    have hvalid : ClassName.Valid stem := by
      refine ⟨?_, ?_, ?_⟩
      · intro hempty
        rw [hempty, Text.splitOn, List.singleton_eq_append_iff] at hsplit
        rcases hsplit with ⟨-, hlast⟩ | ⟨-, hlast⟩
        · exact hne (List.singleton_inj.mp hlast)
        · cases hlast
      · intro hsuffix
        obtain ⟨front', hfront'⟩ := hsuffix
        exact htwice ⟨front', by rw [← hstem, ← hfront', List.append_assoc]⟩
      · intro hmem
        rw [hsplit] at hmem
        rcases List.mem_append.mp hmem with hfront | hhere
        · exact (h [] (by rw [hsegments]; exact List.mem_append_left _ hfront)).1 rfl
        · exact hne (List.mem_singleton.mp hhere).symm
    exact ⟨⟨stem, hvalid⟩, ClassName.ofEntryText?_eq_some_iff.mpr hstem⟩

/-- The path leads through the two directories of the versions, and further. -/
def BelowVersions (path : EntryPath) : Prop :=
  ∃ below, below ≠ [] ∧ path.segments = "META-INF".toList :: "versions".toList :: below

theorem isOverlay_iff : path.isOverlay = true ↔ path.BelowVersions := by
  have hfirst : '/' ∉ "META-INF".toList := by decide
  have hsecond : '/' ∉ "versions".toList := by decide
  have hversions : ∀ rest : Text, versionsPrefix ++ rest =
      "META-INF".toList ++ '/' :: ("versions".toList ++ '/' :: rest) := fun _ => rfl
  rw [isOverlay, List.isPrefixOf_iff_prefix]
  constructor
  · intro h
    obtain ⟨rest, hrest⟩ := h
    refine ⟨Text.splitOn '/' rest, Text.splitOn_ne_nil '/' rest, ?_⟩
    rw [segments, ← hrest, hversions, Text.splitOn_append_sep, Text.splitOn_append_sep,
      Text.splitOn_of_not_mem hfirst, Text.splitOn_of_not_mem hsecond]
    rfl
  · intro h
    obtain ⟨below, hne, hsegments⟩ := h
    obtain ⟨next, others, rfl⟩ := List.exists_cons_of_ne_nil hne
    refine ⟨Text.joinWith '/' (next :: others), ?_⟩
    rw [hversions, ← Text.joinWith_splitOn '/' path.text]
    show _ = Text.joinWith '/' path.segments
    rw [hsegments]
    rfl

end EntryPath

namespace ArchiveEntry

variable {entry : ArchiveEntry}

/-- An entry is a class's when it is a file outside of the overlays at the path of the class. -/
theorem role_eq_classFile_iff {name : ClassName} : entry.role = .classFile name ↔
    entry.kind = .file ∧ entry.path.isOverlay = false ∧ EntryPath.ofClass name = entry.path := by
  have hclass : EntryPath.ofClass name = entry.path → entry.path.isClassFile = true := by
    intro h
    rw [← h, EntryPath.isClassFile, List.isSuffixOf_iff_suffix]
    exact List.suffix_append name.text classSuffix
  unfold role
  constructor
  · intro h
    split at h
    · cases h
    · next hkind =>
      split at h
      · cases h
      · split at h
        · cases h
        · next hoverlay =>
          split at h
          · next found hfound =>
            cases h
            exact ⟨hkind, Bool.eq_false_iff.mpr hoverlay, EntryPath.ofClass_eq_iff.mpr hfound⟩
          · cases h
  · intro h
    obtain ⟨hkind, hoverlay, hsame⟩ := h
    simp only [hkind, hclass hsame, hoverlay, EntryPath.ofClass_eq_iff.mp hsame, Bool.not_true,
      Bool.false_eq_true, if_false]

theorem role_eq_overlayClass_iff : entry.role = .overlayClass ↔
    entry.kind = .file ∧ classSuffix <:+ entry.path.text ∧ entry.path.BelowVersions := by
  rw [← List.isSuffixOf_iff_suffix, ← EntryPath.isOverlay_iff]
  show _ ↔ entry.kind = .file ∧ entry.path.isClassFile = true ∧ entry.path.isOverlay = true
  unfold role
  cases entry.kind with
  | directory => simp
  | file =>
    cases entry.path.isClassFile <;> cases entry.path.isOverlay <;> simp
    split <;> simp

/-- The file is a class's, told by its path alone. -/
theorem exists_role_eq_classFile_iff (h : entry.path.IsNormal) :
    (∃ name, entry.role = .classFile name) ↔
      entry.kind = .file ∧ classSuffix <:+ entry.path.text ∧ ¬entry.path.BelowVersions ∧
        entry.path.segments.getLast? ≠ some classSuffix ∧
        ¬classSuffix ++ classSuffix <:+ entry.path.text := by
  simp only [role_eq_classFile_iff, EntryPath.ofClass_eq_iff, exists_and_left,
    EntryPath.exists_ofEntryText?_iff h, ← EntryPath.isOverlay_iff, Bool.not_eq_true]
  rw [and_left_comm (a := entry.path.isOverlay = false)]

end ArchiveEntry

end Retarget

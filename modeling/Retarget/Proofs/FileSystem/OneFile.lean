import Retarget.Proofs.FileSystem.Places

/-!
Two file systems that differ at most in a file at one path. Making, filling and removing the file
at a path leaves such a difference, and so does any number of these steps. Under every path that
does not lead to the same place, the same is found in both.
-/
namespace Retarget.FileSystem

/-- Directories are the same, and so is all that is not where the path leads. -/
structure OnlyAt (before after : FileSystem) (path : Path) : Prop where
  folders : before.SameFolders after
  elsewhere : ∀ place, ¬before.LeadsTo path place → after.node? place = before.node? place

theorem stat_eq_ok_iff {fs : FileSystem} {path : Path} {place : Location} {node : Node} :
    fs.stat path = .ok (place, node) ↔
      (fs.locate path = .ok (.directory place) ∧ node = .directory) ∨
        ∃ folder name slash, fs.locate path = .ok (.entry folder name slash) ∧
          IsUsableName name ∧ place = folder ++ [name] ∧ fs.node? place = some node ∧
          (node = .directory ∨ slash = false) := by
  constructor
  · intro h
    unfold FileSystem.stat find at h
    split at h
    · simp at h
    · next there hlocate =>
      cases h
      exact Or.inl ⟨hlocate, rfl⟩
    · next folder name slash hlocate =>
      by_cases hname : IsUsableName name
      · simp only [hname, if_true] at h
        refine Or.inr ⟨folder, name, slash, hlocate, hname, ?_⟩
        split at h
        · next hfound => simp at hfound
        · simp at h
        · next content hfound =>
          cases slash with
          | true => simp at h
          | false =>
            cases h
            exact ⟨rfl, Except.ok.inj hfound, Or.inr rfl⟩
        · next hfound =>
          cases h
          exact ⟨rfl, Except.ok.inj hfound, Or.inl rfl⟩
      · simp [hname] at h
  · intro h
    rcases h with ⟨hlocate, rfl⟩ | ⟨folder, name, slash, hlocate, hname, rfl, hnode, hkind⟩
    · simp only [FileSystem.stat, hlocate]
    · simp only [FileSystem.stat, hlocate, find, hname, if_true, hnode]
      cases node with
      | directory => rfl
      | file content => simpa using hkind

/-- What is found under a path depends on the working directory and the nodes alone. -/
theorem stat_congr {fs fs' : FileSystem} (hcwd : fs'.cwd = fs.cwd)
    (hnodes : ∀ place, fs'.node? place = fs.node? place) (path : Path) :
    fs'.stat path = fs.stat path := by
  have hwalk : ∀ here steps, fs'.walk here steps = fs.walk here steps := by
    intro here steps
    induction steps generalizing here with
    | nil => rfl
    | cons step rest ih => simp only [walk, hnodes, ih]
  simp only [FileSystem.stat, locate, find, hcwd, hwalk, hnodes]

/-- A file that was written is read as it was written. -/
theorem readFile_of_write {fs after : FileSystem} {path : Path} {content : Bytes}
    (h : fs.write path content = .ok after) : after.readFile path = .ok content := by
  obtain ⟨place, hleads, hnode, rfl⟩ := write_eq_ok_iff.mp h
  have hfolders := sameFolders_set hleads.ne_nil hnode content
  refine (hfolders.leadsTo_iff.mpr hleads).readFile ?_
  rw [node?_set _ hleads.ne_nil, if_pos rfl]

/-- A file that is there can be written. -/
theorem write_of_readFile {fs : FileSystem} {path : Path} {old : Bytes}
    (h : fs.readFile path = .ok old) (content : Bytes) :
    ∃ after, fs.write path content = .ok after := by
  obtain ⟨place, hleads, hnode⟩ := readFile_eq_ok_iff.mp h
  exact ⟨_, write_eq_ok_iff.mpr ⟨place, hleads, by simp [hnode], rfl⟩⟩

namespace OnlyAt

variable {before middle after : FileSystem} {path : Path}

theorem refl (fs : FileSystem) (path : Path) : OnlyAt fs fs path :=
  ⟨SameFolders.refl fs, fun _ _ => rfl⟩

theorem symm (h : OnlyAt before after path) : OnlyAt after before path := by
  refine ⟨h.folders.symm, fun place hplace => (h.elsewhere place ?_).symm⟩
  rwa [h.folders.leadsTo_iff] at hplace

theorem trans (h : OnlyAt before middle path) (h' : OnlyAt middle after path) :
    OnlyAt before after path := by
  refine ⟨h.folders.trans h'.folders, ?_⟩
  intro place hplace
  rw [h'.elsewhere place (by rwa [h.folders.leadsTo_iff]), h.elsewhere place hplace]

/-- Writing the file at the path. -/
theorem of_write {content : Bytes} (h : before.write path content = .ok after) :
    OnlyAt before after path := by
  obtain ⟨place, hleads, hnode, rfl⟩ := write_eq_ok_iff.mp h
  refine ⟨sameFolders_set hleads.ne_nil hnode content, ?_⟩
  intro other hother
  rw [node?_set before hleads.ne_nil, if_neg]
  rintro rfl
  exact hother hleads

/-- Removing the file at the path. -/
theorem of_remove (h : before.remove path = .ok after) : OnlyAt before after path := by
  obtain ⟨place, content, hleads, hnode, rfl⟩ := remove_eq_ok_iff.mp h
  refine ⟨sameFolders_unset hleads.ne_nil (by simp [hnode]), ?_⟩
  intro other hother
  rw [node?_unset before hleads.ne_nil, if_neg]
  rintro rfl
  exact hother hleads

theorem attempt (change : Change) (disk : Disk)
    (h : ∀ after, disk.files.apply change = .ok after → OnlyAt disk.files after path) :
    OnlyAt disk.files (disk.attempt change).files path := by
  unfold Disk.attempt
  split
  · next after happly => exact h after happly
  · exact refl disk.files path

/-- A file at another place is read as before. -/
theorem readFile (h : OnlyAt before after path) {other : Path} {content : Bytes}
    (hother : ∀ place, before.LeadsTo other place → ¬before.LeadsTo path place)
    (hread : before.readFile other = .ok content) : after.readFile other = .ok content := by
  obtain ⟨place, hleads, hnode⟩ := readFile_eq_ok_iff.mp hread
  refine (h.folders.leadsTo_iff.mpr hleads).readFile ?_
  rw [h.elsewhere place (hother place hleads), hnode]

theorem stat_eq_ok (h : OnlyAt before after path) {other : Path} {found : Location × Node}
    (hother : ∀ place, before.LeadsTo other place → ¬before.LeadsTo path place)
    (hfound : before.stat other = .ok found) : after.stat other = .ok found := by
  obtain ⟨place, node⟩ := found
  rw [stat_eq_ok_iff] at hfound ⊢
  rcases hfound with ⟨hlocate, rfl⟩ | ⟨folder, name, slash, hlocate, hname, rfl, hnode, hkind⟩
  · exact Or.inl ⟨h.folders.locate_eq_ok hlocate, rfl⟩
  · refine Or.inr ⟨folder, name, slash, h.folders.locate_eq_ok hlocate, hname, rfl, ?_, hkind⟩
    rcases hkind with rfl | rfl
    · exact (h.folders.directory_iff _).mpr hnode
    · rw [h.elsewhere _ (hother _ ⟨folder, name, hlocate, hname, rfl⟩), hnode]

/-- What is found under another path is found there in both. -/
theorem stat_eq_ok_iff_of_ne (h : OnlyAt before after path) {other : Path}
    (hother : ∀ place, before.LeadsTo other place → ¬before.LeadsTo path place)
    (found : Location × Node) : after.stat other = .ok found ↔ before.stat other = .ok found := by
  refine ⟨h.symm.stat_eq_ok fun place hleads => ?_, h.stat_eq_ok hother⟩
  rw [h.folders.leadsTo_iff] at hleads ⊢
  exact hother place hleads

/-- When the path leads nowhere there is no difference at all. -/
theorem stat_eq (h : OnlyAt before after path) (hnone : ∀ place, ¬before.LeadsTo path place)
    (other : Path) : after.stat other = before.stat other :=
  stat_congr h.folders.cwd_eq (fun place => h.elsewhere place (hnone place)) other

/-- After removing the file at the path, if it can be removed, nothing new is there. -/
theorem node?_attempt_remove {disk : Disk} (h : OnlyAt before disk.files path)
    {place : Location} (hplace : before.LeadsTo path place) :
    (disk.attempt (.remove path)).files.node? place = before.node? place ∨
      (disk.attempt (.remove path)).files.node? place = none := by
  have hleads := h.folders.leadsTo_iff.mpr hplace
  unfold Disk.attempt
  split
  · next after happly =>
    obtain ⟨there, content, hthere, hnode, rfl⟩ := remove_eq_ok_iff.mp happly
    cases hleads.unique hthere
    refine Or.inr ?_
    rw [node?_unset _ hleads.ne_nil, if_pos rfl]
  · next kind hrefused =>
    cases hnode : disk.files.node? place with
    | none => exact Or.inr rfl
    | some node =>
      cases node with
      | directory => exact Or.inl ((h.folders.directory_iff place).mp hnode).symm
      | file content =>
        have hremoved : disk.files.apply (.remove path) = .ok (disk.files.unset place) :=
          remove_eq_ok_iff.mpr ⟨place, content, hleads, hnode, rfl⟩
        rw [hremoved] at hrefused
        cases hrefused

end OnlyAt

end Retarget.FileSystem

import Retarget.Proofs.Swap.Completion

/-!
A swap that could not move the jar aside. The backup of an earlier run is removed before the jar is
renamed, so when the rename is refused this backup is gone; in all other cases nothing has changed.
It takes a file at the backup's path, and a jar that is not there or cannot be renamed: a jar that
is a file at another place is moved once the backup's place is free.
-/
namespace Retarget.Swap

open FileSystem

/-- How a swap leaves the disk when it could not move the jar aside. -/
inductive BackupFailure (disk : Disk) (jar backup : Path) (kind : IoKind) : Disk → Prop
  /-- There was no file to remove, and the first step was refused. -/
  | untouched (no_file : disk.files.isFile backup = false) :
    BackupFailure disk jar backup kind disk
  /-- A file was removed, and then the jar could not be renamed. -/
  | cleared {place : Location} {old : Bytes} (leads : disk.files.LeadsTo backup place)
    (node : disk.files.node? place = some (.file old))
    (refused : (disk.files.unset place).rename jar backup = .error kind) :
    BackupFailure disk jar backup kind
      ⟨disk.files.unset place, disk.journal ++ [.remove backup]⟩

section Steps

variable {disk disk' : Disk} {jar staged backup a b : Path} {kind : IoKind}

theorem performAll_cons_eq_error {step : Change} {rest : List Change}
    (h : performAll (step :: rest) disk = .error kind disk') :
    (disk.files.apply step = .error kind ∧ disk' = disk) ∨
      ∃ files, disk.files.apply step = .ok files ∧
        performAll rest ⟨files, disk.journal ++ [step]⟩ = .error kind disk' := by
  cases happly : disk.files.apply step with
  | ok files =>
    rw [performAll_cons (perform_of_apply disk.journal happly)] at h
    exact Or.inr ⟨files, rfl, h⟩
  | error kind' =>
    simp only [performAll, bind, EStateM.bind, Disk.perform, happly,
      EStateM.Result.error.injEq] at h
    obtain ⟨rfl, rfl⟩ := h
    exact Or.inl ⟨rfl, rfl⟩

theorem performAll_single_eq_error {step : Change}
    (h : performAll [step] disk = .error kind disk') :
    disk.files.apply step = .error kind ∧ disk' = disk := by
  rcases performAll_cons_eq_error h with hrefused | ⟨files, _, hdone⟩
  · exact hrefused
  · cases hdone

theorem backupSteps_of_swap_error (h : swap jar staged backup disk = .error (.backup a b kind) disk') :
    performAll (backupSteps disk.files jar backup) disk = .error kind disk' := by
  unfold swap at h
  cases hsteps : performAll (backupSteps disk.files jar backup) disk with
  | error kind' stopped =>
    simp only [hsteps, EStateM.Result.error.injEq, SwapError.backup.injEq] at h
    obtain ⟨⟨-, -, rfl⟩, rfl⟩ := h
    rfl
  | ok _ middle =>
    simp only [hsteps] at h
    cases hrename : Disk.perform (.rename staged jar) middle with
    | error kind' stopped => simp [hrename] at h
    | ok _ final => simp [hrename] at h

/-- The backup of an earlier run is gone, or nothing has changed. -/
theorem backupFailure_of_swap (h : swap jar staged backup disk = .error (.backup a b kind) disk') :
    BackupFailure disk jar backup kind disk' := by
  have hsteps := backupSteps_of_swap_error h
  unfold backupSteps at hsteps
  by_cases hexists : disk.files.pathExists backup = true
  · rw [if_pos hexists, List.singleton_append] at hsteps
    rcases performAll_cons_eq_error hsteps with ⟨hrefused, rfl⟩ | ⟨files, hremove, hlast⟩
    · refine .untouched (Bool.eq_false_iff.mpr fun hfile => ?_)
      obtain ⟨place, old, hleads, hnode⟩ := isFile_iff.mp hfile
      have hremove := remove_eq_ok_iff.mpr ⟨place, old, hleads, hnode, rfl⟩
      rw [FileSystem.apply, hremove] at hrefused
      cases hrefused
    · obtain ⟨place, old, hleads, hnode, rfl⟩ := remove_eq_ok_iff.mp hremove
      obtain ⟨hrename, rfl⟩ := performAll_single_eq_error hlast
      exact .cleared hleads hnode hrename
  · rw [if_neg hexists, List.nil_append] at hsteps
    obtain ⟨_, rfl⟩ := performAll_single_eq_error hsteps
    refine .untouched (Bool.eq_false_iff.mpr fun hfile => hexists ?_)
    obtain ⟨place, old, hleads, hnode⟩ := isFile_iff.mp hfile
    rw [hleads.pathExists, hnode]
    rfl

/-- Once its backup's place is free, a jar that is a file at another place can be renamed. -/
theorem rename_of_cleared {fs : FileSystem} {place jarPlace : Location} {old content : Bytes}
    (hleads : fs.LeadsTo backup place) (hnode : fs.node? place = some (.file old))
    (hjar : fs.LeadsTo jar jarPlace) (hcontent : fs.node? jarPlace = some (.file content))
    (hne : jarPlace ≠ place) : ∃ after, (fs.unset place).rename jar backup = .ok after := by
  have hfolders : fs.SameFolders (fs.unset place) := sameFolders_unset hleads.ne_nil (by simp [hnode])
  have hjarNode : (fs.unset place).node? jarPlace = some (.file content) := by
    rw [node?_unset _ hleads.ne_nil, if_neg hne, hcontent]
  refine ⟨_, (rename_eq_ok_iff (hfolders.leadsTo_iff.mpr hjar) hjarNode).mpr
    ⟨place, hfolders.leadsTo_iff.mpr hleads, ?_, rfl⟩⟩
  rw [node?_unset _ hleads.ne_nil, if_pos rfl]
  simp

namespace BackupFailure

theorem eq_of_no_file (h : BackupFailure disk jar backup kind disk')
    (hfile : disk.files.isFile backup = false) : disk' = disk := by
  cases h with
  | untouched _ => rfl
  | cleared hleads hnode _ =>
    rw [isFile_iff.mpr ⟨_, _, hleads, hnode⟩] at hfile
    cases hfile

theorem files_eq_of_file (h : BackupFailure disk jar backup kind disk') {place : Location}
    {old : Bytes} (hleads : disk.files.LeadsTo backup place)
    (hnode : disk.files.node? place = some (.file old)) :
    disk'.files = disk.files.unset place := by
  cases h with
  | untouched hfile =>
    rw [isFile_iff.mpr ⟨_, _, hleads, hnode⟩] at hfile
    cases hfile
  | cleared hleads' _ _ => rw [hleads'.unique hleads]

theorem eq_of_jar (h : BackupFailure disk jar backup kind disk') {jarPlace : Location}
    {content : Bytes} (hjar : disk.files.LeadsTo jar jarPlace)
    (hcontent : disk.files.node? jarPlace = some (.file content))
    (helsewhere : ¬disk.files.LeadsTo backup jarPlace) : disk' = disk := by
  cases h with
  | untouched _ => rfl
  | cleared hleads hnode hrefused =>
    have hne : jarPlace ≠ _ := fun hsame => helsewhere (hsame ▸ hleads)
    obtain ⟨after, hrename⟩ := rename_of_cleared hleads hnode hjar hcontent hne
    rw [hrename] at hrefused
    cases hrefused

end BackupFailure

end Steps

/-- A swap that could not move the jar aside has changed nothing, unless there was a file at the
backup's path. Then this file is gone, and nothing else has changed; that does not happen to a jar
that is a file at another place. -/
theorem backup_failure_loses_only_old_backup {disk disk' : Disk} {jar staged backup a b : Path}
    {kind : IoKind} (h : swap jar staged backup disk = .error (.backup a b kind) disk') :
    (disk'.files = disk.files ↔ disk.files.isFile backup = false) ∧
    (disk.files.isFile backup = false → disk' = disk) ∧
    (∀ place content, disk.files.stat jar = .ok (place, .file content) →
      ¬disk.files.LeadsTo backup place → disk' = disk) ∧
    ∀ place old, disk.files.stat backup = .ok (place, .file old) →
      disk'.files.stat backup = .error .notFound ∧
      disk.files.SameFolders disk'.files ∧
      ∀ other, other ≠ place → disk'.files.node? other = disk.files.node? other := by
  have hfailure := backupFailure_of_swap h
  have hgone : ∀ place old, disk.files.stat backup = .ok (place, .file old) →
      disk'.files.stat backup = .error .notFound ∧
      disk.files.SameFolders disk'.files ∧
      ∀ other, other ≠ place → disk'.files.node? other = disk.files.node? other := by
    intro place old hstat
    obtain ⟨hleads, hnode⟩ := stat_eq_file_iff.mp hstat
    rw [hfailure.files_eq_of_file hleads hnode]
    have hfolders : disk.files.SameFolders (disk.files.unset place) :=
      sameFolders_unset hleads.ne_nil (by simp [hnode])
    refine ⟨?_, hfolders, fun other hother => ?_⟩
    · rw [(hfolders.leadsTo_iff.mpr hleads).stat, node?_unset _ hleads.ne_nil, if_pos rfl]
    · rw [node?_unset _ hleads.ne_nil, if_neg hother]
  refine ⟨⟨fun hsame => Bool.eq_false_iff.mpr fun hfile => ?_, fun hfile => ?_⟩,
    hfailure.eq_of_no_file, fun place content hstat helsewhere => ?_, hgone⟩
  · obtain ⟨place, old, hleads, hnode⟩ := isFile_iff.mp hfile
    have hstat := stat_eq_file_iff.mpr ⟨hleads, hnode⟩
    have hfree := (hgone place old hstat).1
    rw [hsame, hstat] at hfree
    cases hfree
  · rw [hfailure.eq_of_no_file hfile]
  · obtain ⟨hleads, hnode⟩ := stat_eq_file_iff.mp hstat
    exact hfailure.eq_of_jar hleads hnode helsewhere

def backupAlone : Disk :=
  .ofFiles ⟨[], [(["app-old.jar".toList], .file [3])]⟩

def nothingLeft : Disk :=
  ⟨⟨[], []⟩, [.remove (.ofString "app-old.jar")]⟩

/-- The backup is removed, and then there is no jar to rename. -/
theorem swap_backupAlone :
    swap (.ofString "app.jar") (.ofString "app-new.jar") (.ofString "app-old.jar") backupAlone =
      .error (.backup (.ofString "app.jar") (.ofString "app-old.jar") .notFound) nothingLeft := by
  have hexists : backupAlone.files.pathExists (.ofString "app-old.jar") = true := by rfl
  have hremove : backupAlone.files.apply (.remove (.ofString "app-old.jar")) =
      .ok nothingLeft.files := by rfl
  have hrename : nothingLeft.files.apply (.rename (.ofString "app.jar") (.ofString "app-old.jar")) =
      .error .notFound := by rfl
  have hsteps : performAll (backupSteps backupAlone.files (.ofString "app.jar")
      (.ofString "app-old.jar")) backupAlone = .error .notFound nothingLeft := by
    rw [backupSteps, if_pos hexists, List.singleton_append,
      performAll_cons (perform_of_apply backupAlone.journal hremove)]
    simp only [performAll, bind, EStateM.bind, Disk.perform, hrename]
    rfl
  simp only [swap, hsteps]

theorem backup_failure_loses_only_old_backup_backupAlone :
    swap (.ofString "app.jar") (.ofString "app-new.jar") (.ofString "app-old.jar") backupAlone =
        .error (.backup (.ofString "app.jar") (.ofString "app-old.jar") .notFound) nothingLeft ∧
      backupAlone.files.stat (.ofString "app-old.jar") =
        .ok (["app-old.jar".toList], .file [3]) ∧
      nothingLeft.files.stat (.ofString "app-old.jar") = .error .notFound ∧
      nothingLeft.files ≠ backupAlone.files := by
  have hstat : backupAlone.files.stat (.ofString "app-old.jar") =
      .ok (["app-old.jar".toList], .file [3]) := by rfl
  obtain ⟨hsame, -, -, hgone⟩ := backup_failure_loses_only_old_backup swap_backupAlone
  refine ⟨swap_backupAlone, hstat, (hgone _ _ hstat).1, fun hfiles => ?_⟩
  have hfile := hsame.mp hfiles
  rw [FileSystem.isFile, hstat] at hfile
  cases hfile

/-- A swap that could not move the jar aside need not leave the files as they were. -/
theorem old_backup_lost_without_jar :
    ¬∀ (disk disk' : Disk) (jar staged backup : Path) (kind : IoKind),
      jar ≠ staged → jar ≠ backup → staged ≠ backup →
      swap jar staged backup disk = .error (.backup jar backup kind) disk' →
      disk'.files = disk.files := by
  intro hsame
  have hfiles : nothingLeft.files = backupAlone.files := hsame backupAlone nothingLeft
    (.ofString "app.jar") (.ofString "app-new.jar") (.ofString "app-old.jar") .notFound (by decide)
    (by decide) (by decide) swap_backupAlone
  exact absurd hfiles (by decide)

end Retarget.Swap

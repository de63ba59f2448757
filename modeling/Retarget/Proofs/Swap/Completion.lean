import Retarget.Proofs.Swap.CrashSafety

/-!
Completing a swap that was stopped between its renames. It succeeds exactly when a file is staged
and another can be put at the jar's path, where nothing is. Then these two places change and no
other, and the disk is the one that the swap would have left had it not been stopped. When
completing is refused nothing changes, and it is refused once it has succeeded.
-/
namespace Retarget.Swap

open FileSystem

structure Completable (fs : FileSystem) (staged jar : Path) (s j : Location) (new : Bytes) :
    Prop where
  staged_leads : fs.LeadsTo staged s
  staged_node : fs.node? s = some (.file new)
  jar_leads : fs.LeadsTo jar j
  jar_node : fs.node? j = none

def moved (fs : FileSystem) (source target : Location) (content : Bytes) : FileSystem :=
  (fs.unset source).set target (.file content)

/-- What a swap leaves when it is stopped between its renames: nothing at the jar's path, but a file
can be there, the new archive under its staging name, and the old one under the backup's. -/
structure Midpoint (fs : FileSystem) (jar staged backup : Path) (old new : Bytes) : Prop where
  jar_free : ∃ place, fs.LeadsTo jar place ∧ fs.node? place = none
  new_staged : fs.readFile staged = .ok new
  old_kept : fs.readFile backup = .ok old

section Moved

variable {fs : FileSystem} {source target : Location} {content : Bytes}

theorem node?_moved (hsource : source ≠ []) (htarget : target ≠ []) (place : Location) :
    (moved fs source target content).node? place =
      if place = target then some (.file content) else if place = source then none
      else fs.node? place := by
  rw [moved, node?_set _ htarget, node?_unset _ hsource]

theorem sameFolders_moved (hsource : source ≠ []) (htarget : target ≠ []) (hne : target ≠ source)
    (hfile : fs.node? source = some (.file content)) (hfree : fs.node? target ≠ some .directory) :
    fs.SameFolders (moved fs source target content) := by
  have hunset : fs.SameFolders (fs.unset source) := sameFolders_unset hsource (by simp [hfile])
  have hfree' : (fs.unset source).node? target ≠ some .directory := by
    rwa [node?_unset _ hsource, if_neg hne]
  exact hunset.trans (sameFolders_set htarget hfree' content)

end Moved

theorem performAll_cons_eq_ok {step : Change} {rest : List Change} {disk final : Disk}
    (h : performAll (step :: rest) disk = .ok () final) :
    ∃ next, Disk.perform step disk = .ok () next ∧ performAll rest next = .ok () final := by
  cases hstep : Disk.perform step disk with
  | error kind next => simp [performAll, bind, EStateM.bind, hstep] at h
  | ok _ next =>
    rw [performAll_cons hstep] at h
    exact ⟨next, rfl, h⟩

theorem perform_eq_ok {change : Change} {disk after : Disk}
    (h : Disk.perform change disk = .ok () after) :
    ∃ files, disk.files.apply change = .ok files ∧
      after = ⟨files, disk.journal ++ [change]⟩ := by
  unfold Disk.perform at h
  cases happly : disk.files.apply change with
  | error kind => simp [happly] at h
  | ok files =>
    simp only [happly, EStateM.Result.ok.injEq, true_and] at h
    exact ⟨files, rfl, h.symm⟩

namespace Completable

variable {fs : FileSystem} {staged jar : Path} {s j : Location} {new : Bytes}

theorem jar_ne_staged (h : Completable fs staged jar s j new) : j ≠ s := by
  rintro rfl
  have hnode := h.staged_node
  rw [h.jar_node] at hnode
  cases hnode

theorem node?_completed (h : Completable fs staged jar s j new) (place : Location) :
    (moved fs s j new).node? place =
      if place = j then some (.file new) else if place = s then none else fs.node? place :=
  node?_moved h.staged_leads.ne_nil h.jar_leads.ne_nil place

theorem sameFolders_completed (h : Completable fs staged jar s j new) :
    fs.SameFolders (moved fs s j new) :=
  sameFolders_moved h.staged_leads.ne_nil h.jar_leads.ne_nil h.jar_ne_staged h.staged_node
    (by simp [h.jar_node])

theorem rename_eq (h : Completable fs staged jar s j new) :
    fs.apply (.rename staged jar) = .ok (moved fs s j new) := by
  refine (rename_eq_ok_iff h.staged_leads h.staged_node).mpr ⟨j, h.jar_leads, ?_, ?_⟩
  · simp [h.jar_node]
  · rw [if_neg h.jar_ne_staged.symm, moved]

/-- The swap can be completed. -/
theorem complete_eq {disk : Disk} (h : Completable disk.files staged jar s j new) :
    complete staged jar disk =
      .ok () ⟨moved disk.files s j new, disk.journal ++ [.rename staged jar]⟩ := by
  have hstaged : disk.files.isFile staged = true :=
    isFile_iff.mpr ⟨s, new, h.staged_leads, h.staged_node⟩
  have hjar : disk.files.pathExists jar = false := by
    rw [h.jar_leads.pathExists, h.jar_node]
    rfl
  have hrename := perform_of_apply disk.journal h.rename_eq
  simp only [complete, hstaged, hjar, hrename, Bool.not_true, Bool.false_eq_true, if_false]

/-- The jar is there afterwards, and nothing is staged any more. -/
theorem readFile_completed (h : Completable fs staged jar s j new) :
    (moved fs s j new).readFile jar = .ok new ∧
      (moved fs s j new).stat staged = .error .notFound := by
  have hfolders := h.sameFolders_completed
  constructor
  · refine (hfolders.leadsTo_iff.mpr h.jar_leads).readFile ?_
    rw [h.node?_completed, if_pos rfl]
  · rw [(hfolders.leadsTo_iff.mpr h.staged_leads).stat, h.node?_completed,
      if_neg h.jar_ne_staged.symm, if_pos rfl]

end Completable

section Complete

variable {disk disk' : Disk} {staged jar backup : Path}

/-- Only a swap that can be completed is. -/
theorem completable_of_complete (h : complete staged jar disk = .ok () disk') :
    ∃ s j new, Completable disk.files staged jar s j new := by
  unfold complete at h
  by_cases hstaged : disk.files.isFile staged = true
  · by_cases hjar : disk.files.pathExists jar = true
    · simp [hstaged, hjar] at h
    · cases hrename : Disk.perform (.rename staged jar) disk with
      | error kind stopped => simp [hstaged, hjar, hrename] at h
      | ok _ after =>
        obtain ⟨s, new, hs, hnew⟩ := isFile_iff.mp hstaged
        obtain ⟨files, happly, _⟩ := perform_eq_ok hrename
        obtain ⟨j, hj, _⟩ := (rename_eq_ok_iff hs hnew).mp happly
        refine ⟨s, j, new, hs, hnew, hj, ?_⟩
        rw [hj.pathExists] at hjar
        simpa using hjar
  · simp [hstaged] at h

theorem complete_eq_error {fault : CompletionError}
    (h : complete staged jar disk = .error fault disk') : disk' = disk := by
  unfold complete Disk.perform at h
  split at h
  · cases h
    rfl
  · split at h
    · cases h
      rfl
    · cases happly : disk.files.apply (.rename staged jar) with
      | ok files => simp [happly] at h
      | error kind =>
        simp only [happly, EStateM.Result.error.injEq] at h
        exact h.2.symm

/-- Where nothing is staged, or the jar is there, completing is refused. -/
theorem complete_of_refused
    (h : disk.files.pathExists jar = true ∨ disk.files.isFile staged = false) :
    ∃ fault, complete staged jar disk = .error fault disk := by
  cases hresult : complete staged jar disk with
  | error fault stopped =>
    rw [complete_eq_error hresult]
    exact ⟨fault, rfl⟩
  | ok _ after =>
    obtain ⟨s, j, new, hcompletable⟩ := completable_of_complete hresult
    rcases h with hjar | hstaged
    · rw [hcompletable.jar_leads.pathExists, hcompletable.jar_node] at hjar
      simp at hjar
    · rw [isFile_iff.mpr ⟨s, new, hcompletable.staged_leads, hcompletable.staged_node⟩] at hstaged
      simp at hstaged

/-- After it has succeeded the jar is there, whatever was staged under whatever name. -/
theorem pathExists_of_complete (h : complete staged jar disk = .ok () disk') :
    disk'.files.pathExists jar = true := by
  obtain ⟨s, j, new, hcompletable⟩ := completable_of_complete h
  rw [hcompletable.complete_eq, EStateM.Result.ok.injEq] at h
  rw [← h.2, (hcompletable.sameFolders_completed.leadsTo_iff.mpr hcompletable.jar_leads).pathExists,
    hcompletable.node?_completed, if_pos rfl]
  rfl

/-- Completing a stopped swap gives what the swap gives that was not stopped. -/
theorem swap_of_complete {start middle final : Disk}
    (hstopped : performAll (backupSteps start.files jar backup) start = .ok () middle)
    (h : complete staged jar middle = .ok () final) :
    swap jar staged backup start = .ok () final := by
  obtain ⟨s, j, new, hcompletable⟩ := completable_of_complete h
  have hrename := perform_of_apply middle.journal hcompletable.rename_eq
  rw [hcompletable.complete_eq] at h
  cases h
  simp only [swap, hstopped, hrename]

end Complete

/-- What is not there is not renamed. -/
theorem rename_of_free {fs after : FileSystem} {source target : Path} {place : Location}
    (hsource : fs.LeadsTo source place) (hfree : fs.node? place = none) :
    fs.rename source target ≠ .ok after := by
  obtain ⟨folder, name, hlocate, hname, rfl⟩ := hsource
  intro h
  unfold FileSystem.rename at h
  cases htarget : fs.locate target with
  | error kind => simp [hlocate, htarget] at h
  | ok target' =>
    cases target' with
    | directory place => simp [hlocate, htarget] at h
    | entry folder' name' slash => simp [hlocate, htarget, find, hname, hfree] at h

/-- The jar, when it was renamed, is at the backup's place and no longer at its own. -/
theorem node?_of_rename_jar {fs after : FileSystem} {jar backup : Path} {j : Location}
    {old : Bytes} (hjar : fs.LeadsTo jar j) (hnode : fs.node? j = some (.file old))
    (hfree : ∀ b, fs.LeadsTo backup b → j ≠ b) (h : fs.rename jar backup = .ok after) :
    after.LeadsTo jar j ∧ after.node? j = none ∧ after.readFile backup = .ok old := by
  obtain ⟨b, hb, hdirectory, hafter⟩ := (rename_eq_ok_iff hjar hnode).mp h
  have hne := hfree b hb
  have hmoved : after = moved fs j b old := by rw [hafter, if_neg hne, moved]
  rw [hmoved]
  have hfolders := sameFolders_moved hjar.ne_nil hb.ne_nil hne.symm hnode hdirectory
  refine ⟨hfolders.leadsTo_iff.mpr hjar, ?_, (hfolders.leadsTo_iff.mpr hb).readFile ?_⟩
  · rw [node?_moved hjar.ne_nil hb.ne_nil, if_neg hne, if_pos rfl]
  · rw [node?_moved hjar.ne_nil hb.ne_nil, if_pos rfl]

/-- When a swap of a file gets past its first rename, the backup's place was free by then and not
the jar's own. -/
theorem rename_of_backupSteps {start middle : Disk} {jar backup : Path} {j : Location} {old : Bytes}
    (hj : start.files.LeadsTo jar j) (hnode : start.files.node? j = some (.file old))
    (hstopped : performAll (backupSteps start.files jar backup) start = .ok () middle) :
    ∃ cleared : FileSystem, cleared.LeadsTo jar j ∧ cleared.node? j = some (.file old) ∧
      (∀ b, cleared.LeadsTo backup b → j ≠ b) ∧
      cleared.rename jar backup = .ok middle.files := by
  unfold backupSteps at hstopped
  by_cases hexists : start.files.pathExists backup = true
  · rw [if_pos hexists, List.singleton_append] at hstopped
    obtain ⟨_, hremove, hlast⟩ := performAll_cons_eq_ok hstopped
    obtain ⟨_, hrename, hdone⟩ := performAll_cons_eq_ok hlast
    obtain ⟨_, hremoved, rfl⟩ := perform_eq_ok hremove
    obtain ⟨files, hfiles, rfl⟩ := perform_eq_ok hrename
    cases hdone
    obtain ⟨b, content, hb, hfile, rfl⟩ := remove_eq_ok_iff.mp hremoved
    have hfolders : start.files.SameFolders (start.files.unset b) :=
      sameFolders_unset hb.ne_nil (by simp [hfile])
    have hleads := hfolders.leadsTo_iff.mpr hj
    have hne : j ≠ b := by
      rintro rfl
      refine rename_of_free hleads ?_ hfiles
      rw [node?_unset _ hb.ne_nil, if_pos rfl]
    refine ⟨_, hleads, ?_, fun b' hb' => ?_, hfiles⟩
    · rw [node?_unset _ hb.ne_nil, if_neg hne, hnode]
    · rw [(hfolders.leadsTo_iff.mp hb').unique hb]
      exact hne
  · rw [if_neg hexists, List.nil_append] at hstopped
    obtain ⟨_, hrename, hdone⟩ := performAll_cons_eq_ok hstopped
    obtain ⟨files, hfiles, rfl⟩ := perform_eq_ok hrename
    cases hdone
    refine ⟨_, hj, hnode, fun b hb => ?_, hfiles⟩
    rintro rfl
    apply hexists
    rw [hb.pathExists, hnode]
    rfl

/-- A swap of a file that is stopped after its first rename is at the midpoint, if something is
staged. -/
theorem midpoint_of_backupSteps {start middle : Disk} {jar staged backup : Path} {old new : Bytes}
    (hold : start.files.readFile jar = .ok old)
    (hstopped : performAll (backupSteps start.files jar backup) start = .ok () middle)
    (hnew : middle.files.readFile staged = .ok new) :
    Midpoint middle.files jar staged backup old new := by
  obtain ⟨j, hj, hnode⟩ := readFile_eq_ok_iff.mp hold
  obtain ⟨cleared, hleads, hthere, hfree, hrename⟩ := rename_of_backupSteps hj hnode hstopped
  obtain ⟨hleads', hgone, hbackup⟩ := node?_of_rename_jar hleads hthere hfree hrename
  exact ⟨⟨j, hleads', hgone⟩, hnew, hbackup⟩

/-- From a midpoint the swap can be completed. -/
theorem Midpoint.completable {fs : FileSystem} {jar staged backup : Path} {old new : Bytes}
    (h : Midpoint fs jar staged backup old new) : ∃ s j, Completable fs staged jar s j new := by
  obtain ⟨s, hs, hnode⟩ := readFile_eq_ok_iff.mp h.new_staged
  obtain ⟨j, hj, hfree⟩ := h.jar_free
  exact ⟨s, j, hs, hnode, hj, hfree⟩

end Retarget.Swap

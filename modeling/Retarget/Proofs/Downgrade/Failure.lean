import Retarget.Proofs.FileSystem.Siblings
import Retarget.Proofs.Swap.CrashSafety
import Retarget.Proofs.ZipWriter.File

/-!
A run that fails. Whatever goes wrong, and wherever, the files are as they were before, but that a
file at the staging path may be gone; and the failure is never the one between the two renames of
the swap. Building touches the staging path alone, a swap that is refused has not begun, and what
was built is then taken away.
-/
namespace Retarget

open FileSystem Walk

namespace Downgrade

variable (settings : Settings) {context : RunContext}

theorem keeps_supply (catalog : Catalog) (world : World) {Q : ZipWriter → Prop}
    (hwrites : KeptByWrites Q) :
    Keeps (Stays world Q) LeavesWhole (supply settings catalog) := by
  intro s hs
  unfold supply
  by_cases hcopy : settings.copyRuntimeClasses = true
  · have hkeep := hwrites.inject s.required catalog s.world.disk.files
    rw [if_pos hcopy]
    cases hinject : Injection.inject s.required catalog s.world.disk.files s.dest with
    | ok added dest => exact ⟨hs.1, hkeep.ok hs.2 hinject⟩
    | error fault dest =>
      refine ⟨?_, hs.1, (hkeep.error hs.2 hinject).2⟩
      cases fault <;> rfl
  · rw [if_neg hcopy]
    exact hs

theorem keeps_fill (hengine : ∀ request, (context.engine request).LeavesFiles) (source : ZipTree)
    (world : World) {Q : ZipWriter → Prop} (hwrites : KeptByWrites Q) :
    Keeps (Stays world Q) LeavesWhole (fill source settings context) := by
  have hplan : ∀ request, ((planOf settings context).engine request).LeavesFiles := hengine
  exact Keeps.bind (keeps_run hplan hwrites) fun _ =>
    Keeps.bind (keeps_supply settings context.catalog world hwrites) fun _ => Keeps.pure _

/-- Building touches the staging path alone. -/
theorem keeps_build (hengine : ∀ request, (context.engine request).LeavesFiles)
    (start : FileSystem) (staging : Path) :
    Keeps (fun disk : Disk => start.OnlyAt disk.files staging) LeavesWhole
      (build settings context staging) := by
  intro disk hdisk
  unfold build
  cases ZipTree.open disk.files settings.input with
  | error fault => exact ⟨rfl, hdisk⟩
  | ok source =>
    cases hcreate : ZipWriter.create staging disk with
    | error fault disk' =>
      cases ZipWriter.create_eq_error hcreate
      exact ⟨rfl, hdisk⟩
    | ok writer created =>
      obtain ⟨rfl, hwrite, _⟩ := ZipWriter.create_eq_ok hcreate
      have hcreated := hdisk.trans (OnlyAt.of_write hwrite)
      have hfill := keeps_fill settings hengine source
        (World.settled ⟨created, classpathOf source settings⟩)
        (ZipWriter.keptByWrites_path staging)
      have hbegin : Stays (World.settled ⟨created, classpathOf source settings⟩)
          (fun writer : ZipWriter => writer.path = staging)
          ⟨⟨created, classpathOf source settings⟩, .empty, .ofPath staging⟩ := ⟨rfl, rfl⟩
      simp only
      cases hfilled : fill source settings context
          ⟨⟨created, classpathOf source settings⟩, .empty, .ofPath staging⟩ with
      | error fault s =>
        obtain ⟨hwhole, hstays⟩ := hfill.error hbegin hfilled
        have hsame : s.world.disk = created := hstays.disk_eq
        have hpath := hstays.2
        refine ⟨hwhole, ?_⟩
        rw [hsame, ← hpath]
        exact ZipWriter.onlyAt_abandon (hpath ▸ hcreated)
      | ok staged s =>
        have hstays := hfill.ok hbegin hfilled
        have hsame : s.world.disk = created := hstays.disk_eq
        have hpath := hstays.2
        have hfinish := ZipWriter.keeps_finish start staging
        have hready : s.dest.path = staging ∧ start.OnlyAt s.world.disk.files staging :=
          ⟨hpath, hsame ▸ hcreated⟩
        cases hfinished : ZipWriter.finish (s.dest, s.world.disk) with
        | ok _ left => simpa only [hfinished] using (hfinish.ok hready hfinished).2
        | error fault left =>
          simp only [hfinished]
          exact ⟨rfl, (hfinish.error hready hfinished).2.2⟩

variable {settings}

theorem hashFile_eq_ok {path : Path} {digest : Text} {disk disk' : Disk}
    (h : hashFile path disk = .ok digest disk') :
    disk' = disk ∧ ∃ content, disk.files.readFile path = .ok content ∧
      digest = (Sha256.digest content).toHex := by
  unfold hashFile at h
  cases hread : disk.files.readFile path with
  | error kind => simp [hread] at h
  | ok content =>
    simp only [hread, EStateM.Result.ok.injEq] at h
    exact ⟨h.2.symm, content, rfl, h.1.symm⟩

theorem hashFile_eq_error {path : Path} {fault : DowngradeError} {disk disk' : Disk}
    (h : hashFile path disk = .error fault disk') : disk' = disk ∧ LeavesWhole fault := by
  unfold hashFile at h
  cases hread : disk.files.readFile path with
  | error kind =>
    simp only [hread, EStateM.Result.error.injEq] at h
    exact ⟨h.2.symm, h.1 ▸ rfl⟩
  | ok content => simp [hread] at h

/-- A swap that fails has not begun. -/
theorem swapIn_error (hvalid : settings.validate = .ok ()) {input staging : Location}
    {content packed : Bytes} {fault : DowngradeError} {disk disk' : Disk}
    (hinput : disk.files.LeadsTo settings.input input)
    (hnode : disk.files.node? input = some (.file content))
    (hstaging : disk.files.LeadsTo settings.stagingPath staging)
    (hstaged : disk.files.node? staging = some (.file packed))
    (h : swapIn settings disk = .error fault disk') : disk' = disk ∧ LeavesWhole fault := by
  have hne := Settings.staging_ne_input hvalid hinput hstaging
  have hbackup : ∀ b, disk.files.LeadsTo settings.backupPath b → input ≠ b ∧ staging ≠ b :=
    fun b hleads => ⟨(Settings.backup_ne_input hvalid hinput hleads).symm,
      Settings.staging_ne_backup hvalid hinput hstaging hleads⟩
  unfold swapIn at h
  cases hswap : Swap.swap settings.input settings.stagingPath settings.backupPath disk with
  | ok _ swapped => simp [hswap] at h
  | error reason stopped =>
    obtain ⟨rfl, kind, rfl⟩ :=
      Swap.swap_error hinput hnode hstaging hstaged hne.symm hbackup hswap
    simp only [hswap, EStateM.Result.error.injEq] at h
    exact ⟨h.2.symm, h.1 ▸ rfl⟩

/-- Up to and with a swap that fails, the staging path alone is touched. -/
theorem buildAndSwap_error (hengine : ∀ request, (context.engine request).LeavesFiles)
    (hvalid : settings.validate = .ok ()) {input : Location} {content : Bytes} {report : Report}
    {fault : DowngradeError} {disk disk' : Disk}
    (hinput : disk.files.LeadsTo settings.input input)
    (hnode : disk.files.node? input = some (.file content))
    (h : buildAndSwap settings context report disk = .error fault disk') :
    LeavesWhole fault ∧ disk.files.OnlyAt disk'.files settings.stagingPath := by
  have hbuild := keeps_build settings hengine disk.files settings.stagingPath
  have hbegin := OnlyAt.refl disk.files settings.stagingPath
  unfold buildAndSwap at h
  rw [bind_eq_error] at h
  rcases h with h | ⟨staged, built, hbuilt, h⟩
  · exact hbuild.error hbegin h
  · have honly := hbuild.ok hbegin hbuilt
    rw [bind_eq_error] at h
    rcases h with h | ⟨digest, hashed, hhash, h⟩
    · obtain ⟨rfl, hwhole⟩ := hashFile_eq_error h
      exact ⟨hwhole, honly⟩
    · obtain ⟨rfl, packed, hread, _⟩ := hashFile_eq_ok hhash
      obtain ⟨staging, hstaging, hstaged⟩ := readFile_eq_ok_iff.mp hread
      have hinput' := honly.folders.leadsTo_iff.mpr hinput
      have hkept : hashed.files.node? input = some (.file content) := by
        rw [honly.elsewhere input fun hleads => ?_, hnode]
        exact Settings.staging_ne_input hvalid hinput hleads rfl
      rw [bind_eq_error] at h
      rcases h with h | ⟨_, _, _, h⟩
      · obtain ⟨rfl, hwhole⟩ := swapIn_error hvalid hinput' hkept hstaging hstaged h
        exact ⟨hwhole, honly⟩
      · cases h

/-- Files in which a run left no trace, but that a file may be gone that was at the staging path. -/
structure AsBefore (settings : Settings) (before after : FileSystem) : Prop where
  only_staging : before.OnlyAt after settings.stagingPath
  staging : after.stat settings.stagingPath = before.stat settings.stagingPath ∨
    after.stat settings.stagingPath = .error .notFound
  elsewhere : ∀ path,
    (∀ place, before.LeadsTo path place → ¬before.LeadsTo settings.stagingPath place) →
      ∀ found, after.stat path = .ok found ↔ before.stat path = .ok found
  input : ∀ found, after.stat settings.input = .ok found ↔ before.stat settings.input = .ok found
  backup : ∀ found,
    after.stat settings.backupPath = .ok found ↔ before.stat settings.backupPath = .ok found

theorem AsBefore.refl (settings : Settings) (fs : FileSystem) : AsBefore settings fs fs :=
  ⟨OnlyAt.refl fs _, Or.inl rfl, fun _ _ _ => Iff.rfl, fun _ => Iff.rfl, fun _ => Iff.rfl⟩

theorem AsBefore.of_onlyAt (hvalid : settings.validate = .ok ()) {before after : FileSystem}
    {input : Location} (hinput : before.LeadsTo settings.input input)
    (honly : before.OnlyAt after settings.stagingPath)
    (hstaged : ∀ place, before.LeadsTo settings.stagingPath place →
      after.node? place = before.node? place ∨ after.node? place = none) :
    AsBefore settings before after := by
  refine ⟨honly, ?_, fun path hpath => honly.stat_eq_ok_iff_of_ne hpath,
    honly.stat_eq_ok_iff_of_ne fun place hleads hstaging =>
      Settings.staging_ne_input hvalid hleads hstaging rfl,
    honly.stat_eq_ok_iff_of_ne fun place hleads hstaging =>
      Settings.staging_ne_backup hvalid hinput hstaging hleads rfl⟩
  by_cases hleads : ∃ place, before.LeadsTo settings.stagingPath place
  · obtain ⟨place, hplace⟩ := hleads
    rw [hplace.stat, (honly.folders.leadsTo_iff.mpr hplace).stat]
    rcases hstaged place hplace with hsame | hnone
    · exact Or.inl (by rw [hsame])
    · exact Or.inr (by rw [hnone])
  · exact Or.inl (honly.stat_eq (fun place hplace => hleads ⟨place, hplace⟩) _)

theorem checkInput_eq_ok {input staging : Path} {disk disk' : Disk}
    (h : checkInput input staging disk = .ok () disk') :
    disk' = disk ∧ disk.files.isFile input = true := by
  unfold checkInput at h
  by_cases hfile : disk.files.isFile input = true
  · simp only [hfile, if_true, EStateM.Result.ok.injEq, true_and] at h
    exact ⟨h.symm, hfile⟩
  · simp [hfile] at h

theorem checkInput_eq_error {input staging : Path} {fault : DowngradeError} {disk disk' : Disk}
    (h : checkInput input staging disk = .error fault disk') :
    disk' = disk ∧ LeavesWhole fault := by
  unfold checkInput at h
  by_cases hfile : disk.files.isFile input = true
  · simp [hfile] at h
  · simp only [hfile, Bool.false_eq_true, if_false, EStateM.Result.error.injEq] at h
    exact ⟨h.2.symm, h.1 ▸ rfl⟩

/-- The guard takes away what a failed action left at the staging path. -/
theorem guardStaging_error {α : Type} {staging : Path} {act : Run α} {before : FileSystem}
    {fault : DowngradeError} {disk disk' : Disk}
    (hact : ∀ stopped, act disk = .error fault stopped →
      LeavesWhole fault ∧ before.OnlyAt stopped.files staging)
    (h : guardStaging staging act disk = .error fault disk') :
    LeavesWhole fault ∧ before.OnlyAt disk'.files staging ∧
      ∀ place, before.LeadsTo staging place →
        disk'.files.node? place = before.node? place ∨ disk'.files.node? place = none := by
  unfold guardStaging at h
  cases hrun : act disk with
  | ok a stopped => simp [hrun] at h
  | error reason stopped =>
    simp only [hrun, EStateM.Result.error.injEq] at h
    obtain ⟨rfl, hdisk⟩ := h
    obtain ⟨hwhole, honly⟩ := hact stopped hrun
    have hpartial : reason.isPartialSwap = false := hwhole
    rw [hpartial] at hdisk
    simp only [Bool.false_eq_true, if_false] at hdisk
    subst hdisk
    have hremove := OnlyAt.attempt (.remove staging) stopped fun after h => OnlyAt.of_remove h
    exact ⟨hwhole, honly.trans hremove, fun place hplace => honly.node?_attempt_remove hplace⟩

/-- A run that fails has changed nothing, or fails in what the guard is around. -/
theorem run_eq_error {fault : DowngradeError} {disk disk' : Disk}
    (h : run settings context disk = .error fault disk') :
    (LeavesWhole fault ∧ disk' = disk) ∨
      settings.validate = .ok () ∧ disk.files.isFile settings.input = true ∧ ∃ report,
        guardStaging settings.stagingPath (buildAndSwap settings context report) disk =
          .error fault disk' := by
  unfold run at h
  cases hvalid : settings.validate with
  | error reason =>
    simp only [hvalid] at h
    cases h
    exact Or.inl ⟨rfl, rfl⟩
  | ok _ =>
    simp only [hvalid, bind_eq_error] at h
    rcases h with hcheck | ⟨_, checked, hcheck,
      hhash | ⟨_, hashed, hhash, hguard | ⟨_, _, _, hdone⟩⟩⟩
    · exact Or.inl (checkInput_eq_error hcheck).symm
    · obtain ⟨rfl, -⟩ := checkInput_eq_ok hcheck
      exact Or.inl (hashFile_eq_error hhash).symm
    · obtain ⟨rfl, hfile⟩ := checkInput_eq_ok hcheck
      obtain ⟨rfl, -⟩ := hashFile_eq_ok hhash
      exact Or.inr ⟨rfl, hfile, _, hguard⟩
    · cases hdone

/-- A run that fails leaves the input, the backup and all other files as they were; at the staging
path is what was there before, or nothing. It never fails in the midst of a swap. -/
theorem failed_run_leaves_files (hengine : ∀ request, (context.engine request).LeavesFiles)
    {fault : DowngradeError} {disk disk' : Disk}
    (hrun : run settings context disk = .error fault disk') :
    fault.isPartialSwap = false ∧ AsBefore settings disk.files disk'.files := by
  unfold run at hrun
  cases hvalid : settings.validate with
  | error reason =>
    simp only [hvalid] at hrun
    cases hrun
    exact ⟨rfl, AsBefore.refl settings disk.files⟩
  | ok _ =>
    simp only [hvalid] at hrun
    rw [bind_eq_error] at hrun
    rcases hrun with hcheck | ⟨_, checked, hcheck, hrun⟩
    · obtain ⟨rfl, hwhole⟩ := checkInput_eq_error hcheck
      exact ⟨hwhole, AsBefore.refl settings disk'.files⟩
    · obtain ⟨rfl, hfile⟩ := checkInput_eq_ok hcheck
      rw [bind_eq_error] at hrun
      rcases hrun with hhash | ⟨digest, hashed, hhash, hrun⟩
      · obtain ⟨rfl, hwhole⟩ := hashFile_eq_error hhash
        exact ⟨hwhole, AsBefore.refl settings disk'.files⟩
      · obtain ⟨rfl, _⟩ := hashFile_eq_ok hhash
        obtain ⟨input, content, hinput, hnode⟩ := isFile_iff.mp hfile
        rw [bind_eq_error] at hrun
        rcases hrun with hguard | ⟨_, _, _, hrun⟩
        · obtain ⟨hwhole, honly, hstaged⟩ := guardStaging_error
            (fun _ h => buildAndSwap_error hengine hvalid hinput hnode h) hguard
          exact ⟨hwhole, AsBefore.of_onlyAt hvalid hinput honly hstaged⟩
        · cases hrun

def idleContext : RunContext where
  engine _ := .done (.ok ⟨.unchanged, .empty⟩)
  catalog := .empty
  tool := ⟨[], none⟩
  startedAt := ⟨0, 0⟩
  endedAt := ⟨0, 0⟩

def jarSettings : Settings := { input := .ofString "app.jar" }

/-- An input that is no archive, and beside it an archive that an earlier run has staged. -/
def brokenInput : FileSystem :=
  ⟨[], [(["app.jar".toList], .file [0]), (["app-downgrading.jar".toList], .file [1])]⟩

theorem failed_run_leaves_files_brokenInput :
    (∀ request, (idleContext.engine request).LeavesFiles) ∧
      ∃ fault disk', run jarSettings idleContext (.ofFiles brokenInput) = .error fault disk' ∧
        disk'.files = ⟨[], [(["app.jar".toList], .file [0])]⟩ ∧ fault.isPartialSwap = false ∧
        AsBefore jarSettings brokenInput disk'.files := by
  have hengine : ∀ request, (idleContext.engine request).LeavesFiles := fun _ => trivial
  have hrun : run jarSettings idleContext (.ofFiles brokenInput) =
      .error (.io (.openInput jarSettings.input) (ZipTree.OpenError.noDirectory
        jarSettings.input).fault)
        ⟨⟨[], [(["app.jar".toList], .file [0])]⟩, [.remove jarSettings.stagingPath]⟩ := by rfl
  obtain ⟨hwhole, hbefore⟩ := failed_run_leaves_files hengine hrun
  exact ⟨hengine, _, _, hrun, rfl, hwhole, hbefore⟩

end Downgrade

end Retarget

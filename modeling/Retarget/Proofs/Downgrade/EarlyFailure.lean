import Retarget.Proofs.Downgrade.Failure

/-!
A run that fails before it has opened its input. Its guard is set once the input has been hashed,
not once the archive that it stages is there. So a run whose settings are invalid, or whose input is
missing, changes nothing, whereas one whose input is no archive removes what stands at the staging
path, though it was not this run that put it there. Nothing else is ever changed this early.
-/
namespace Retarget.Downgrade

open FileSystem

variable {settings : Settings} {context : RunContext} {disk disk' : Disk}

/-- The run gets its input open, after which it makes the archive that it stages. -/
structure OpensInput (settings : Settings) (fs : FileSystem) : Prop where
  valid : settings.validate = .ok ()
  opened : ∃ source, ZipTree.open fs settings.input = .ok source

/-- The run gets as far as opening its input, which is a file but no archive. -/
structure Unopened (settings : Settings) (fs : FileSystem) : Prop where
  valid : settings.validate = .ok ()
  input_file : fs.isFile settings.input = true
  refused : ∃ reason, ZipTree.open fs settings.input = .error reason

theorem Unopened.not_opensInput {fs : FileSystem} (h : Unopened settings fs) :
    ¬OpensInput settings fs := by
  rintro ⟨-, source, hopen⟩
  obtain ⟨reason, hrefused⟩ := h.refused
  simp [hrefused] at hopen

section Remove

variable {path : Path}

/-- Where there is no file, there is none to be removed. -/
theorem attempt_remove_of_not_isFile (h : disk.files.isFile path = false) :
    disk.attempt (.remove path) = disk := by
  unfold Disk.attempt
  split
  · next after happly =>
    obtain ⟨place, content, hleads, hnode, -⟩ := remove_eq_ok_iff.mp happly
    rw [isFile_iff.mpr ⟨place, content, hleads, hnode⟩] at h
    cases h
  · rfl

theorem attempt_remove_of_file {place : Location} {content : Bytes}
    (hleads : disk.files.LeadsTo path place)
    (hnode : disk.files.node? place = some (.file content)) :
    disk.attempt (.remove path) = ⟨disk.files.unset place, disk.journal ++ [.remove path]⟩ := by
  have happly : disk.files.apply (.remove path) = .ok (disk.files.unset place) :=
    remove_eq_ok_iff.mpr ⟨place, content, hleads, hnode, rfl⟩
  simp only [Disk.attempt, happly]

/-- Whatever was there, no file is there afterwards. -/
theorem isFile_attempt_remove (disk : Disk) (path : Path) :
    (disk.attempt (.remove path)).files.isFile path = false := by
  cases hfile : disk.files.isFile path with
  | false => rw [attempt_remove_of_not_isFile hfile, hfile]
  | true =>
    obtain ⟨place, content, hleads, hnode⟩ := isFile_iff.mp hfile
    have hfolders : disk.files.SameFolders (disk.files.unset place) :=
      sameFolders_unset hleads.ne_nil (by simp [hnode])
    rw [attempt_remove_of_file hleads hnode, FileSystem.isFile,
      (hfolders.leadsTo_iff.mpr hleads).stat, node?_unset _ hleads.ne_nil, if_pos rfl]

end Remove

section Stages

theorem run_of_invalid {reason : SettingsError} (h : settings.validate = .error reason) :
    run settings context disk = .error (.settings reason) disk := by
  unfold run
  rw [h]
  rfl

theorem run_of_missing (hvalid : settings.validate = .ok ())
    (hmissing : disk.files.isFile settings.input = false) :
    ∃ cause, run settings context disk =
      .error (.io (.openInput settings.input) (.text cause)) disk := by
  simp only [run, hvalid, bind, EStateM.bind, checkInput, hmissing]
  exact ⟨_, rfl⟩

/-- Once the input is hashed, a failure to build ends the run, and the guard takes its turn. -/
theorem run_of_build_error (hvalid : settings.validate = .ok ())
    (hfile : disk.files.isFile settings.input = true) {fault : DowngradeError} {stopped : Disk}
    (hbuild : build settings context settings.stagingPath disk = .error fault stopped)
    (hwhole : fault.isPartialSwap = false) :
    run settings context disk = .error fault (stopped.attempt (.remove settings.stagingPath)) := by
  obtain ⟨place, content, hleads, hnode⟩ := isFile_iff.mp hfile
  simp only [run, hvalid, bind, EStateM.bind, checkInput, hfile, if_true, hashFile,
    hleads.readFile hnode, guardStaging, buildAndSwap, hbuild, hwhole, Bool.false_eq_true, if_false]

theorem run_of_unopened (hvalid : settings.validate = .ok ())
    (hfile : disk.files.isFile settings.input = true) {reason : ZipTree.OpenError}
    (hopen : ZipTree.open disk.files settings.input = .error reason) :
    run settings context disk = .error (.io (.openInput settings.input) reason.fault)
      (disk.attempt (.remove settings.stagingPath)) := by
  refine run_of_build_error hvalid hfile ?_ rfl
  simp only [build, hopen]

end Stages

/-- The ways to fail early: something is found wrong before the guard is set, or the input cannot be
opened. -/
theorem early_failure_cases (context : RunContext) (h : ¬OpensInput settings disk.files) :
    (¬Unopened settings disk.files ∧ ∃ fault, run settings context disk = .error fault disk) ∨
      Unopened settings disk.files ∧ ∃ reason,
        ZipTree.open disk.files settings.input = .error reason ∧
        run settings context disk = .error (.io (.openInput settings.input) reason.fault)
          (disk.attempt (.remove settings.stagingPath)) := by
  cases hvalid : settings.validate with
  | error reason =>
    refine Or.inl ⟨fun hun => ?_, _, run_of_invalid hvalid⟩
    rw [hun.valid] at hvalid
    cases hvalid
  | ok _ =>
    cases hfile : disk.files.isFile settings.input with
    | false =>
      obtain ⟨cause, hrun⟩ := run_of_missing hvalid hfile
      refine Or.inl ⟨fun hun => ?_, _, hrun⟩
      rw [hun.input_file] at hfile
      cases hfile
    | true =>
      cases hopen : ZipTree.open disk.files settings.input with
      | error reason =>
        have hun : Unopened settings disk.files := ⟨hvalid, hfile, reason, hopen⟩
        exact Or.inr ⟨hun, reason, rfl, run_of_unopened hvalid hfile hopen⟩
      | ok source => exact absurd ⟨hvalid, source, hopen⟩ h

/-- A run whose settings are invalid or whose input cannot be opened fails. It leaves the disk as it
was, unless its input is a file that cannot be opened as an archive: then it takes away the file at
the staging path, if there is one, and nothing else. -/
theorem early_failure_effect (h : ¬OpensInput settings disk.files) :
    ∃ fault disk', run settings context disk = .error fault disk' ∧
      (¬Unopened settings disk.files → disk' = disk) ∧
      (Unopened settings disk.files →
        (∃ reason, ZipTree.open disk.files settings.input = .error reason ∧
          fault = .io (.openInput settings.input) reason.fault) ∧
        disk.files.OnlyAt disk'.files settings.stagingPath ∧
        disk'.files.isFile settings.stagingPath = false ∧
        (disk.files.isFile settings.stagingPath = false → disk' = disk) ∧
        ∀ place content, disk.files.LeadsTo settings.stagingPath place →
          disk.files.node? place = some (.file content) →
          disk'.files = disk.files.unset place) := by
  rcases early_failure_cases context h with ⟨hnot, fault, hrun⟩ | ⟨hun, reason, hopen, hrun⟩
  · exact ⟨fault, disk, hrun, fun _ => rfl, fun hun => absurd hun hnot⟩
  · refine ⟨_, _, hrun, fun hnot => absurd hun hnot, fun _ => ⟨⟨reason, hopen, rfl⟩, ?_,
      isFile_attempt_remove disk _, attempt_remove_of_not_isFile, ?_⟩⟩
    · exact OnlyAt.attempt (.remove settings.stagingPath) disk fun after h => OnlyAt.of_remove h
    · intro place content hleads hnode
      rw [attempt_remove_of_file hleads hnode]

theorem unopened_brokenInput : Unopened jarSettings brokenInput :=
  ⟨by rfl, by rfl, .noDirectory jarSettings.input, by rfl⟩

/-- The run on an input that is no archive fails before it stages anything, and what an earlier run
had staged is gone. -/
theorem early_failure_effect_brokenInput :
    ¬OpensInput jarSettings (Disk.ofFiles brokenInput).files ∧
      brokenInput.readFile jarSettings.stagingPath = .ok [1] ∧
      ∃ fault disk', run jarSettings idleContext (.ofFiles brokenInput) = .error fault disk' ∧
        disk'.files = ⟨[], [(["app.jar".toList], .file [0])]⟩ := by
  have hnot : ¬OpensInput jarSettings (Disk.ofFiles brokenInput).files :=
    unopened_brokenInput.not_opensInput
  obtain ⟨fault, disk', hrun, -, heffect⟩ := early_failure_effect hnot
  obtain ⟨-, -, -, -, hfiles⟩ := heffect unopened_brokenInput
  exact ⟨hnot, by rfl, fault, disk', hrun,
    hfiles ["app-downgrading.jar".toList] [1] ⟨[], _, by rfl, by decide, rfl⟩ (by rfl)⟩

/-- Not every failure before the archive is made leaves all files as they were. -/
theorem staged_file_lost_to_broken_input :
    ¬∀ (settings : Settings) (context : RunContext) (disk : Disk) (staged : Bytes)
        (fault : DowngradeError) (disk' : Disk),
      disk.files.readFile settings.stagingPath = .ok staged →
      ¬OpensInput settings disk.files →
      run settings context disk = .error fault disk' → disk'.files = disk.files := by
  intro hunchanged
  have hrun : run jarSettings idleContext (.ofFiles brokenInput) =
      .error (.io (.openInput jarSettings.input) (ZipTree.OpenError.noDirectory
        jarSettings.input).fault)
        ⟨⟨[], [(["app.jar".toList], .file [0])]⟩, [.remove jarSettings.stagingPath]⟩ := by rfl
  have hnot : ¬OpensInput jarSettings (Disk.ofFiles brokenInput).files :=
    unopened_brokenInput.not_opensInput
  have hsame := hunchanged _ _ _ [1] _ _ (by rfl) hnot hrun
  exact absurd hsame (by decide)

end Retarget.Downgrade

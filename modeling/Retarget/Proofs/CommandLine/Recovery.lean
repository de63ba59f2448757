import Retarget.CommandLine.Run
import Retarget.Proofs.FileSystem.Siblings
import Retarget.Proofs.Swap.Completion
import Retarget.Proofs.Walk.Invariant

/-!
The command that finishes an interrupted swap. Its staging path is the one that the command which
was interrupted has built its archive at, since both take the suffix from the command line, from the
file or from the defaults, in this order. So it puts in place what was staged, if the jar's path is
free, and otherwise it changes nothing. Suffixes are not checked here, and need not be.
-/
namespace Retarget.CommandLine

open FileSystem Swap

variable {config : Config} {args : RecoverArgs} {disk disk' : Disk}

def stagedPath (config : Config) (args : RecoverArgs) : Path :=
  args.jar.siblingWithSuffix (config.recoverySuffix args.stagingSuffix)

section Settings

theorem stagingPath_merge (config : Config) (jar : Path) (overrides : Overrides) :
    (config.merge jar overrides).settings.stagingPath =
      stagedPath config ⟨jar, overrides.stagingSuffix⟩ := rfl

/-- For settings that a run accepts, a swap is at its midpoint as soon as nothing is at the jar's
path: what is staged lies in the jar's folder, so a file can be there. -/
theorem midpoint_of_free {settings : Settings} {fs : FileSystem} {front name : Text}
    {old new : Bytes} (hvalid : settings.validate = .ok ())
    (hends : settings.input.EndsIn front name) (husable : IsUsable settings.input)
    (hfree : fs.pathExists settings.input = false)
    (hnew : fs.readFile settings.stagingPath = .ok new)
    (hold : fs.readFile settings.backupPath = .ok old) :
    Midpoint fs settings.input settings.stagingPath settings.backupPath old new := by
  obtain ⟨⟨hsuffix, hslash⟩, -, -⟩ := Settings.of_validate hvalid
  obtain ⟨s, hs, -⟩ := readFile_eq_ok_iff.mp hnew
  obtain ⟨j, hj⟩ := leadsTo_of_siblingWithSuffix hends husable hs hsuffix hslash
  rw [hj.pathExists] at hfree
  exact ⟨⟨j, hj, by simpa using hfree⟩, hnew, hold⟩

/-- Looking for platform roots changes no path that a run writes to. -/
theorem settingsOf_paths (surroundings : Surroundings) (merged : Merged) (disk : Disk) :
    ∃ used, settingsOf surroundings merged disk = .ok used disk ∧
      used.input = merged.settings.input ∧ used.stagingPath = merged.settings.stagingPath ∧
      used.backupPath = merged.settings.backupPath := by
  unfold settingsOf
  split
  · exact ⟨_, rfl, rfl, rfl, rfl⟩
  · exact ⟨_, rfl, rfl, rfl, rfl⟩

end Settings

theorem recover_of_complete (h : complete (stagedPath config args) args.jar disk = .ok () disk') :
    recover config args disk = .ok { exitCode := 0 } disk' := by
  unfold stagedPath at h
  simp only [recover, h]

theorem recover_of_refused {fault : CompletionError}
    (h : complete (stagedPath config args) args.jar disk = .error fault disk') :
    ∃ refusal, recover config args disk = .error refusal disk' ∧ refusal.exitCode = 1 := by
  unfold stagedPath at h
  simp only [recover, h]
  exact ⟨_, rfl, rfl⟩

/-- The command succeeds by completing a swap. -/
theorem complete_of_recover {result : CommandResult}
    (h : recover config args disk = .ok result disk') :
    complete (stagedPath config args) args.jar disk = .ok () disk' := by
  cases hcomplete : complete (stagedPath config args) args.jar disk with
  | ok _ after =>
    rw [recover_of_complete hcomplete] at h
    cases h
    rfl
  | error fault after =>
    obtain ⟨refusal, hrefused, -⟩ := recover_of_refused hcomplete
    rw [hrefused] at h
    cases h

/-- The command that fails changes nothing. -/
theorem recover_eq_error {refusal : CommandResult}
    (h : recover config args disk = .error refusal disk') : disk' = disk := by
  cases hcomplete : complete (stagedPath config args) args.jar disk with
  | ok _ after =>
    rw [recover_of_complete hcomplete] at h
    cases h
  | error fault after =>
    obtain ⟨_, hrefused, -⟩ := recover_of_refused hcomplete
    rw [hrefused] at h
    cases h
    exact complete_eq_error hcomplete

theorem recover_of_blocked (h : disk.files.pathExists args.jar = true ∨
    disk.files.isFile (stagedPath config args) = false) :
    ∃ refusal, recover config args disk = .error refusal disk ∧ refusal.exitCode = 1 := by
  obtain ⟨fault, hrefused⟩ := complete_of_refused h
  exact recover_of_refused hrefused

/-- Once the command has succeeded it is refused, with whatever suffix. -/
theorem recover_again {result : CommandResult} (h : recover config args disk = .ok result disk')
    (config' : Config) (suffix : Option Text) :
    ∃ refusal, recover config' ⟨args.jar, suffix⟩ disk' = .error refusal disk' ∧
      refusal.exitCode = 1 := by
  have hthere := pathExists_of_complete (complete_of_recover h)
  exact recover_of_blocked (Or.inl hthere)

theorem leaves_recover_twice (config : Config) (args : RecoverArgs) (disk : Disk) :
    leaves (recover config args) (leaves (recover config args) disk) =
      leaves (recover config args) disk := by
  cases h : recover config args disk with
  | ok result after =>
    obtain ⟨refusal, hrefused, -⟩ := recover_again h config args.stagingSuffix
    simp only [leaves, h, hrefused]
  | error refusal after =>
    obtain rfl := recover_eq_error h
    simp only [leaves, h]

/-- The command finds what was staged under the same configuration and the same suffix. At the
midpoint of a swap it succeeds, changes the jar's and the staged place alone, and leaves what the
whole swap would have left. A swap that is stopped between its renames is at its midpoint, and so is
any disk on which a jar's path is free and its two siblings are files. When the jar is there or
nothing is staged the command fails; a failure changes nothing, and neither does carrying the
command out a second time. -/
theorem recovery_finishes_interrupted_swap (config : Config) (overrides : Overrides) (jar : Path) :
    let args : RecoverArgs := ⟨jar, overrides.stagingSuffix⟩
    let settings := (config.merge jar overrides).settings
    (stagedPath config args = settings.stagingPath ∧
      ∀ surroundings disk, ∃ used,
        settingsOf surroundings (config.merge jar overrides) disk = .ok used disk ∧
          used.input = jar ∧ used.stagingPath = settings.stagingPath ∧
          used.backupPath = settings.backupPath) ∧
      (∀ disk old new,
        Midpoint disk.files jar settings.stagingPath settings.backupPath old new →
        ∃ final, recover config args disk = .ok { exitCode := 0 } final ∧
          final.files.readFile jar = .ok new ∧
          final.files.stat settings.stagingPath = .error .notFound ∧
          disk.files.SameFolders final.files ∧
          (∀ place, ¬disk.files.LeadsTo jar place →
            ¬disk.files.LeadsTo settings.stagingPath place →
            final.files.node? place = disk.files.node? place) ∧
          ∀ start, performAll (backupSteps start.files jar settings.backupPath) start =
              .ok () disk →
            swap jar settings.stagingPath settings.backupPath start = .ok () final) ∧
      (∀ start middle old new, start.files.readFile jar = .ok old →
        performAll (backupSteps start.files jar settings.backupPath) start = .ok () middle →
        middle.files.readFile settings.stagingPath = .ok new →
        Midpoint middle.files jar settings.stagingPath settings.backupPath old new) ∧
      (∀ (fs : FileSystem) front name old new, settings.validate = .ok () →
        jar.EndsIn front name → IsUsable jar → fs.pathExists jar = false →
        fs.readFile settings.stagingPath = .ok new →
        fs.readFile settings.backupPath = .ok old →
        Midpoint fs jar settings.stagingPath settings.backupPath old new) ∧
      (∀ disk, disk.files.pathExists jar = true ∨
          disk.files.isFile settings.stagingPath = false →
        ∃ refusal, recover config args disk = .error refusal disk ∧ refusal.exitCode = 1) ∧
      (∀ disk refusal disk', recover config args disk = .error refusal disk' → disk' = disk) ∧
      ∀ disk, leaves (recover config args) (leaves (recover config args) disk) =
        leaves (recover config args) disk := by
  intro args settings
  have hstaged : settings.stagingPath = stagedPath config args := stagingPath_merge config jar _
  refine ⟨⟨hstaged.symm, fun surroundings disk => settingsOf_paths surroundings _ disk⟩, ?_,
    fun start middle old new => midpoint_of_backupSteps,
    fun fs front name old new => midpoint_of_free,
    fun disk => @recover_of_blocked config args disk,
    fun disk refusal disk' => recover_eq_error, leaves_recover_twice config args⟩
  intro disk old new hmidpoint
  obtain ⟨s, j, hready⟩ := hmidpoint.completable
  obtain ⟨hjar, hgone⟩ := hready.readFile_completed
  have hcomplete : complete (stagedPath config args) args.jar disk = _ := hready.complete_eq
  refine ⟨_, recover_of_complete hcomplete, hjar, hgone, hready.sameFolders_completed, ?_,
    fun start hstopped => swap_of_complete hstopped hcomplete⟩
  intro place hnotJar hnotStaged
  rw [hready.node?_completed, if_neg, if_neg]
  · rintro rfl
    exact hnotStaged hready.staged_leads
  · rintro rfl
    exact hnotJar hready.jar_leads

def stoppedSwap : Disk :=
  .ofFiles ⟨[], [(["app-pre-downgrade.jar".toList], .file [1]),
    (["app-downgrading.jar".toList], .file [2])]⟩

theorem recovery_finishes_interrupted_swap_stoppedSwap :
    stoppedSwap.files.pathExists (.ofString "app.jar") = false ∧
      ∃ final, recover {} ⟨.ofString "app.jar", none⟩ stoppedSwap = .ok { exitCode := 0 } final ∧
        final.files.readFile (.ofString "app.jar") = .ok [2] ∧
        leaves (recover {} ⟨.ofString "app.jar", none⟩) final = final := by
  have hall := recovery_finishes_interrupted_swap {} {} (.ofString "app.jar")
  have hends : (Path.ofString "app.jar").EndsIn [] "app.jar".toList :=
    ⟨rfl, Or.inl rfl, by decide, by decide⟩
  have hfree : stoppedSwap.files.pathExists (.ofString "app.jar") = false := by rfl
  obtain ⟨-, hmidpoint, -, hat, -, -, htwice⟩ := hall
  have hthere :=
    hat stoppedSwap.files _ _ [1] [2] (by rfl) hends (by decide) hfree (by rfl) (by rfl)
  obtain ⟨final, hrecover, hread, -⟩ := hmidpoint stoppedSwap [1] [2] hthere
  refine ⟨hfree, final, hrecover, hread, ?_⟩
  have hsecond := htwice stoppedSwap
  have hleft : leaves (recover {} ⟨.ofString "app.jar", none⟩) stoppedSwap = final := by
    simp only [leaves, hrecover]
  rwa [hleft] at hsecond

end Retarget.CommandLine

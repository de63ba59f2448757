import Retarget.Proofs.Downgrade.Success

/-!
The support classes that a run reports, with copying and without. Both runs record the same names.
With copying, those of them are copied and reported that the input does not have itself; without it
all of them are reported as skipped, also those that would not have been copied.
-/
namespace Retarget

open Walk

namespace Downgrade

variable {settings : Settings} {context context' : RunContext}

def pathsOf (source : ZipTree) : List EntryPath :=
  source.list.map ArchiveEntry.path

/-- What the settings make of the recorded names: those that are reported as copied, and those that
are reported as skipped. -/
def Reported (settings : Settings) (source : ZipTree) (recorded copied skipped : List ClassName) :
    Prop :=
  if settings.copyRuntimeClasses then
    copied = recorded.filter (.ofClass · ∉ pathsOf source) ∧ skipped = []
  else copied = [] ∧ skipped = recorded

theorem reported_of_supply {source : ZipTree} {copied skipped : List ClassName}
    {s s' : Session ZipWriter} (hpaths : s.dest.paths = pathsOf source)
    (h : supply settings context.catalog s = .ok (copied, skipped) s') :
    Reported settings source s.required.names copied skipped := by
  unfold supply at h
  unfold Reported
  by_cases hcopy : settings.copyRuntimeClasses = true
  · simp only [hcopy, if_true] at h ⊢
    cases hinject : Injection.inject s.required context.catalog s.world.disk.files s.dest with
    | error fault dest => simp [hinject] at h
    | ok added dest =>
      simp only [hinject, EStateM.Result.ok.injEq, Prod.mk.injEq] at h
      obtain ⟨⟨rfl, rfl⟩, -⟩ := h
      obtain ⟨new, -, -, -, hnames, rfl, -⟩ := Injection.exists_new_of_inject hinject
      have hlisted : Appending.paths s.dest = pathsOf source := hpaths
      rw [hlisted] at hnames
      exact ⟨hnames, rfl⟩
  · simp only [hcopy, Bool.false_eq_true, if_false, EStateM.Result.ok.injEq, Prod.mk.injEq] at h ⊢
    exact ⟨h.1.1.symm, h.1.2.symm⟩

/-- A run that succeeds reports what its settings make of the names that were recorded. -/
theorem reported_of_run (hengine : ∀ request, (context.engine request).LeavesFiles)
    (hschedule : ∀ jobs, (context.schedule jobs).Perm jobs) {outcome : Outcome} {disk disk' : Disk}
    (h : run settings context disk = .ok outcome disk') :
    ∃ (source : ZipTree) (recorded : NameSet),
      ZipTree.open disk.files settings.input = .ok source ∧
      (∀ name, name ∈ recorded.names ↔
        Recorded settings context source (worldOf settings source disk) name) ∧
      Reported settings source recorded.names outcome.report.supportClasses
        outcome.report.skippedSupportClasses := by
  obtain ⟨-, _, _, report', -, hbuildAndSwap, hreport⟩ := report_of_run h
  obtain ⟨staged, built, digest, hbuild, -, hreport'⟩ := report_of_buildAndSwap hbuildAndSwap
  obtain ⟨source, s, closed, hopen, -, hfill, -⟩ := fill_of_build hbuild
  obtain ⟨written, middle, hsupply, -, -, hpaths, hrecorded, -⟩ :=
    walked_of_fill hengine hschedule (ZipTree.indexed_of_open hopen) hfill
  refine ⟨source, middle.required, hopen, hrecorded, ?_⟩
  rw [hreport, hreport']
  exact reported_of_supply hpaths hsupply

/-- What is recorded is told from the engine and the version that it lowers to. -/
theorem Recorded.of_same {settings' : Settings} {source : ZipTree} {world : World}
    {name : ClassName} (htarget : settings'.targetVersion = settings.targetVersion)
    (hsame : context'.engine = context.engine)
    (h : Recorded settings context source world name) :
    Recorded settings' context' source world name := by
  obtain ⟨entry, hentry, lowered, bytes, output, hrole, hlowered, hname⟩ := h
  have hanswer : ((context'.engine ⟨lowered, bytes, settings'.targetVersion⟩).run world).1 =
      .ok output := by
    rw [hsame, htarget]
    exact hlowered.answer
  exact ⟨entry, hentry, lowered, bytes, output, hrole, ⟨hlowered.read, hanswer⟩, hname⟩

/-- Two runs from one disk with one engine, one copying support classes and one leaving them out.
The one that leaves them out reports as skipped all names that were recorded, in ascending order;
the one that copies has copied those of them that the input does not list. So what is skipped is
what would have been copied exactly when the input lists none of it. -/
theorem skipped_are_copied_unless_listed (settings : Settings)
    (hengine : ∀ request, (context.engine request).LeavesFiles)
    (hsame : context'.engine = context.engine)
    (hschedule : ∀ jobs, (context.schedule jobs).Perm jobs)
    (hschedule' : ∀ jobs, (context'.schedule jobs).Perm jobs)
    {copying leaving : Outcome} {disk after after' : Disk}
    (hcopying : run { settings with copyRuntimeClasses := true } context disk = .ok copying after)
    (hleaving : run { settings with copyRuntimeClasses := false } context' disk =
      .ok leaving after') :
    ∃ source, ZipTree.open disk.files settings.input = .ok source ∧
      (∀ name, name ∈ leaving.report.skippedSupportClasses ↔
        Recorded settings context source (worldOf settings source disk) name) ∧
      leaving.report.skippedSupportClasses.Pairwise (fun a b => a.precedes b) ∧
      leaving.report.supportClasses = [] ∧ copying.report.skippedSupportClasses = [] ∧
      copying.report.supportClasses =
        leaving.report.skippedSupportClasses.filter (.ofClass · ∉ pathsOf source) ∧
      (leaving.report.skippedSupportClasses = copying.report.supportClasses ↔
        ∀ name ∈ leaving.report.skippedSupportClasses, .ofClass name ∉ pathsOf source) := by
  have hengine' : ∀ request, (context'.engine request).LeavesFiles := hsame ▸ hengine
  obtain ⟨source, recorded, hopen, hrecorded, hcopied, hnone⟩ :=
    reported_of_run hengine hschedule hcopying
  obtain ⟨source', recorded', hopen', hrecorded', hnothing, hskipped⟩ :=
    reported_of_run hengine' hschedule' hleaving
  obtain rfl : source' = source := Except.ok.inj (hopen'.symm.trans hopen)
  have hmem : ∀ name, name ∈ recorded'.names ↔
      Recorded settings context source' (worldOf settings source' disk) name := fun name =>
    (hrecorded' name).trans ⟨.of_same rfl hsame.symm, .of_same rfl hsame⟩
  obtain rfl : recorded' = recorded := by
    apply NameSet.eq_of_mem_iff
    intro name
    rw [hmem, hrecorded]
    exact ⟨.of_same rfl rfl, .of_same rfl rfl⟩
  rw [hskipped, hnothing, hcopied, hnone]
  refine ⟨source', hopen, hmem, recorded'.ascending, rfl, rfl, rfl, ?_⟩
  rw [eq_comm, List.filter_eq_self]
  simp only [decide_eq_true_eq]

/-- The names that a run that succeeds reports as copied, and those that it reports as skipped. -/
def reportedNames? : EStateM.Result DowngradeError Disk Outcome →
    Option (List ClassName × List ClassName)
  | .ok outcome _ => some (outcome.report.supportClasses, outcome.report.skippedSupportClasses)
  | .error _ _ => none

theorem reportedNames?_eq_some_iff {result : EStateM.Result DowngradeError Disk Outcome}
    {copied skipped : List ClassName} :
    reportedNames? result = some (copied, skipped) ↔
      ∃ outcome disk', result = .ok outcome disk' ∧ outcome.report.supportClasses = copied ∧
        outcome.report.skippedSupportClasses = skipped := by
  cases result with
  | error fault disk' => simp [reportedNames?]
  | ok outcome disk' => simp [reportedNames?]

def leavingSettings : Settings := { jarSettings with copyRuntimeClasses := false }

def supportShipped : Disk :=
  let stored : Zip.Packed := ⟨Bytes.ofString "s/S.class",
    ⟨0, 0, 0, Zip.firstDay, (Crc32.checksum [1]).toNat, 1, 1⟩, 0, [1]⟩
  .ofFiles ⟨[], [(["app.jar".toList], .file (Zip.imageOfPacked [stored]))]⟩

theorem reportedNames?_copying :
    reportedNames? (run jarSettings appendingContext supportShipped) = some ([], []) := by
  decide +kernel

theorem reportedNames?_leaving :
    reportedNames? (run leavingSettings appendingContext supportShipped) =
      some ([], [helperClass]) := by
  decide +kernel

/-- The support class is skipped without copying and not copied with it, so the input lists it. -/
theorem skipped_are_copied_unless_listed_supportShipped :
    (∀ request, (appendingContext.engine request).LeavesFiles) ∧
      (∀ jobs, (appendingContext.schedule jobs).Perm jobs) ∧
      ∃ copying leaving after after' source,
        run jarSettings appendingContext supportShipped = .ok copying after ∧
        run leavingSettings appendingContext supportShipped = .ok leaving after' ∧
        ZipTree.open supportShipped.files jarSettings.input = .ok source ∧
        .ofClass helperClass ∈ pathsOf source := by
  have hengine : ∀ request, (appendingContext.engine request).LeavesFiles := fun _ => trivial
  have hschedule : ∀ jobs, (appendingContext.schedule jobs).Perm jobs := fun jobs => .refl jobs
  obtain ⟨copying, after, hcopying, hcopied, -⟩ :=
    reportedNames?_eq_some_iff.mp reportedNames?_copying
  obtain ⟨leaving, after', hleaving, -, hskipped⟩ :=
    reportedNames?_eq_some_iff.mp reportedNames?_leaving
  obtain ⟨source, hopen, -, -, -, -, hfilter, -⟩ :=
    skipped_are_copied_unless_listed jarSettings hengine rfl hschedule hschedule hcopying hleaving
  refine ⟨hengine, hschedule, copying, leaving, after, after', source, hcopying, hleaving, hopen,
    ?_⟩
  rw [hcopied, hskipped] at hfilter
  simpa using hfilter.symm

/-- A support class that the input has itself is reported as skipped, though with copying it is not
copied. -/
theorem shipped_class_reported_as_skipped :
    appendingContext.catalog.lookup supportShipped.files helperClass = .ok (some [7]) ∧
      ∃ copying leaving after after',
        run { jarSettings with copyRuntimeClasses := true } appendingContext supportShipped =
          .ok copying after ∧
        run { jarSettings with copyRuntimeClasses := false } appendingContext supportShipped =
          .ok leaving after' ∧
        leaving.report.skippedSupportClasses = [helperClass] ∧
        copying.report.supportClasses = [] := by
  obtain ⟨copying, after, hcopying, hcopied, -⟩ :=
    reportedNames?_eq_some_iff.mp reportedNames?_copying
  obtain ⟨leaving, after', hleaving, -, hskipped⟩ :=
    reportedNames?_eq_some_iff.mp reportedNames?_leaving
  exact ⟨by decide +kernel, copying, leaving, after, after', hcopying, hleaving, hskipped, hcopied⟩

end Downgrade

end Retarget

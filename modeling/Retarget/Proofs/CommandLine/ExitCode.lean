import Retarget.CommandLine.Run
import Retarget.Proofs.Downgrade.Success

/-!
What the exit code of the command that lowers an archive tells. The command gets ready, runs, and
then writes a report if one is asked for. Until the report everything is as it should be: no failure
changes the input, and a run that succeeds replaces it. But the report comes after the swap, so
where it is put matters: a report that cannot be written is a failure after the input was replaced,
and a report put in the input's or the backup's place overwrites what the run left there.
-/
namespace Retarget.CommandLine

open FileSystem Downgrade

def prepare (surroundings : Surroundings) (config : Option Path) (args : DowngradeArgs) :
    Act (Settings × RunContext) := do
  let config ← ask "load jardown.toml config" fun fs =>
    (Config.loadOrDefault fs config (.ofString ".")).mapError Config.LoadError.fault
  let merged := config.merge args.jar args.overrides
  let settings ← settingsOf surroundings merged
  let catalog ← openCatalog merged.runtimeJar
  return (settings, {
    engine := engineOf merged.engine
    catalog := catalog
    tool := tool
    startedAt := surroundings.startedAt
    endedAt := surroundings.endedAt })

variable {surroundings : Surroundings} {config : Option Path} {args : DowngradeArgs}
  {settings : Settings} {context : RunContext} {result : CommandResult} {disk disk' : Disk}

/-- The command prepares, runs and reports. -/
theorem perform_downgrade (surroundings : Surroundings) (verbose : Bool) (config : Option Path)
    (args : DowngradeArgs) :
    perform surroundings ⟨verbose, config, .downgrade args⟩ = (do
      let (settings, context) ← prepare surroundings config args
      let outcome ← runDowngrade settings context
      writeReport outcome.report args.report
      return { exitCode := 0 }) := by
  simp only [perform, downgrade, prepare, bind_assoc, pure_bind]

section Prepare

theorem ask_eq_ok {α : Type} {what : String} {question : FileSystem → Except Fault α} {a : α}
    (h : ask what question disk = .ok a disk') : disk' = disk := by
  unfold ask at h
  split at h
  · cases h
    rfl
  · cases h

theorem ask_eq_error {α : Type} {what : String} {question : FileSystem → Except Fault α}
    (h : ask what question disk = .error result disk') : disk' = disk ∧ result.exitCode = 1 := by
  unfold ask at h
  split at h
  · cases h
  · cases h
    exact ⟨rfl, rfl⟩

theorem settingsOf_eq_ok {merged : Merged}
    (h : settingsOf surroundings merged disk = .ok settings disk') :
    disk' = disk ∧ settings.input = merged.settings.input := by
  unfold settingsOf at h
  split at h
  all_goals
    cases h
    exact ⟨rfl, rfl⟩

theorem settingsOf_ne_error {merged : Merged} :
    settingsOf surroundings merged disk ≠ .error result disk' := by
  unfold settingsOf
  split <;> simp

theorem openCatalog_eq_ok {runtimeJar : Option Path} {catalog : Catalog}
    (h : openCatalog runtimeJar disk = .ok catalog disk') : disk' = disk := by
  cases runtimeJar with
  | none =>
    cases h
    rfl
  | some path =>
    obtain ⟨archive, middle, hask, hdone⟩ := bind_eq_ok.mp h
    cases hdone
    exact ask_eq_ok hask

theorem openCatalog_eq_error {runtimeJar : Option Path}
    (h : openCatalog runtimeJar disk = .error result disk') :
    disk' = disk ∧ result.exitCode = 1 := by
  cases runtimeJar with
  | none => cases h
  | some path =>
    rcases bind_eq_error.mp h with hask | ⟨_, _, _, hdone⟩
    · exact ask_eq_error hask
    · cases hdone

/-- What a command is ready with: the input that was named, a built-in engine, and the jobs in their
own order. -/
theorem prepare_eq_ok (h : prepare surroundings config args disk = .ok (settings, context) disk') :
    disk' = disk ∧ settings.input = args.jar ∧ (∃ kind, context.engine = engineOf kind) ∧
      context.schedule = id := by
  obtain ⟨_, _, hload, hrest⟩ := bind_eq_ok.mp h
  cases ask_eq_ok hload
  obtain ⟨_, _, hsettings, hlast⟩ := bind_eq_ok.mp hrest
  obtain ⟨rfl, hinput⟩ := settingsOf_eq_ok hsettings
  obtain ⟨_, _, hcatalog, hdone⟩ := bind_eq_ok.mp hlast
  cases openCatalog_eq_ok hcatalog
  cases hdone
  exact ⟨rfl, hinput, ⟨_, rfl⟩, rfl⟩

/-- Getting ready fails as a failure does that leaves all files alone. -/
theorem prepare_eq_error (h : prepare surroundings config args disk = .error result disk') :
    disk' = disk ∧ result.exitCode = 1 := by
  rcases bind_eq_error.mp h with hload | ⟨_, _, hload, hrest⟩
  · exact ask_eq_error hload
  · cases ask_eq_ok hload
    rcases bind_eq_error.mp hrest with hsettings | ⟨_, _, hsettings, hlast⟩
    · exact absurd hsettings settingsOf_ne_error
    · obtain ⟨rfl, -⟩ := settingsOf_eq_ok hsettings
      rcases bind_eq_error.mp hlast with hcatalog | ⟨_, _, _, hdone⟩
      · exact openCatalog_eq_error hcatalog
      · cases hdone

end Prepare

theorem leavesFiles_engineOf (kind : EngineKind) (request : TransformRequest) :
    (engineOf kind request).LeavesFiles := by
  cases kind with
  | stamp => exact Engine.leavesFiles_ofVerdict Engine.stampVerdict request
  | verify => exact Engine.leavesFiles_ofVerdict Engine.verifyVerdict request

/-- The built-in engines need no support classes. -/
theorem dependencies_engineOf {kind : EngineKind} {request : TransformRequest} {world : World}
    {output : TransformOutput} (h : ((engineOf kind request).run world).1 = .ok output) :
    output.dependencies = .empty := by
  have hverdict : ∀ verdict : Engine.Verdict,
      ((Engine.ofVerdict verdict request).run world).1 = .ok output →
        output.dependencies = .empty := by
    intro verdict hanswer
    simp only [Engine.ofVerdict, Dialogue.run] at hanswer
    cases hresult : verdict request with
    | error refusal => simp [hresult] at hanswer
    | ok result =>
      simp only [hresult, Except.ok.injEq] at hanswer
      rw [← hanswer]
  cases kind with
  | stamp => exact hverdict Engine.stampVerdict h
  | verify => exact hverdict Engine.verifyVerdict h

section Report

variable {report : Report} {path? : Option Path}

def reportBytes (report : Report) : Bytes :=
  Bytes.ofString (String.ofList (Json.pretty (Json.ofReport report)))

theorem writeReport_some (report : Report) (path : Path) (disk : Disk) :
    writeReport report (some path) disk =
      match disk.files.write path (reportBytes report) with
      | .ok files => .ok () ⟨files, disk.journal ++ [.write path (reportBytes report)]⟩
      | .error kind => .error (failure ((Fault.io kind).context s!"write {path}")) disk := by
  simp only [writeReport, Disk.perform, FileSystem.apply, reportBytes]
  cases disk.files.write path _ <;> rfl

/-- A report is written to its own file, and to no other. -/
theorem writeReport_eq_ok (h : writeReport report path? disk = .ok () disk') :
    (path? = none → disk' = disk) ∧ ∀ path, path? = some path →
      disk.files.OnlyAt disk'.files path ∧
        disk'.files.readFile path = .ok (reportBytes report) := by
  cases path? with
  | none =>
    cases h
    exact ⟨fun _ => rfl, by simp⟩
  | some path =>
    refine ⟨by simp, fun other hother => ?_⟩
    cases hother
    rw [writeReport_some] at h
    cases hwrite : disk.files.write path (reportBytes report) with
    | error kind => simp [hwrite] at h
    | ok after =>
      simp only [hwrite, EStateM.Result.ok.injEq, true_and] at h
      rw [← h]
      exact ⟨OnlyAt.of_write hwrite, readFile_of_write hwrite⟩

/-- A report that cannot be written is a failure, and leaves what the run left. -/
theorem writeReport_eq_error (h : writeReport report path? disk = .error result disk') :
    disk' = disk ∧ result.exitCode = 1 ∧
      ∃ path kind, path? = some path ∧
        disk.files.write path (reportBytes report) = .error kind := by
  cases path? with
  | none => cases h
  | some path =>
    rw [writeReport_some] at h
    cases hwrite : disk.files.write path (reportBytes report) with
    | ok after => simp [hwrite] at h
    | error kind =>
      simp only [hwrite, EStateM.Result.error.injEq] at h
      exact ⟨h.2.symm, h.1 ▸ rfl, path, kind, rfl, hwrite⟩

end Report

/-- The ways for the command to end: it fails to get ready, its run fails, its report is refused, or
all is done. -/
inductive Ending (surroundings : Surroundings) (config : Option Path) (args : DowngradeArgs)
    (disk : Disk) : CommandResult → Disk → Prop
  | unready {result : CommandResult} {disk' : Disk}
      (hready : prepare surroundings config args disk = .error result disk') :
      Ending surroundings config args disk result disk'
  | failed {settings : Settings} {context : RunContext} {e : DowngradeError} {disk' : Disk}
      (hprepare : prepare surroundings config args disk = .ok (settings, context) disk)
      (hfailed : Downgrade.run settings context disk = .error e disk') :
      Ending surroundings config args disk (runFailure settings.input e) disk'
  | refused {settings : Settings} {context : RunContext} {outcome : Outcome} {done disk' : Disk}
      {result : CommandResult}
      (hprepare : prepare surroundings config args disk = .ok (settings, context) disk)
      (hlower : Downgrade.run settings context disk = .ok outcome done)
      (hrefused : writeReport outcome.report args.report done = .error result disk') :
      Ending surroundings config args disk result disk'
  | finished {settings : Settings} {context : RunContext} {outcome : Outcome} {done disk' : Disk}
      (hprepare : prepare surroundings config args disk = .ok (settings, context) disk)
      (hlower : Downgrade.run settings context disk = .ok outcome done)
      (hwritten : writeReport outcome.report args.report done = .ok () disk') :
      Ending surroundings config args disk { exitCode := 0 } disk'

theorem ending_of_run {words : List Text} {verbose : Bool}
    (hparse : parse words = .ok ⟨verbose, config, .downgrade args⟩)
    (hrun : run surroundings words disk = (result, disk')) :
    Ending surroundings config args disk result disk' := by
  simp only [run, hparse, perform_downgrade] at hrun
  cases hprepare : prepare surroundings config args disk with
  | error failed stopped =>
    simp only [bind, EStateM.bind, hprepare, Prod.mk.injEq] at hrun
    obtain ⟨rfl, rfl⟩ := hrun
    exact .unready hprepare
  | ok ready begun =>
    obtain ⟨settings, context⟩ := ready
    obtain ⟨rfl, -⟩ := prepare_eq_ok hprepare
    cases hlower : Downgrade.run settings context begun with
    | error e stopped =>
      simp only [bind, EStateM.bind, hprepare, runDowngrade, hlower, Prod.mk.injEq] at hrun
      obtain ⟨rfl, rfl⟩ := hrun
      exact .failed hprepare hlower
    | ok outcome done =>
      cases hreport : writeReport outcome.report args.report done with
      | error refused stopped =>
        simp only [bind, EStateM.bind, hprepare, runDowngrade, hlower, hreport,
          Prod.mk.injEq] at hrun
        obtain ⟨rfl, rfl⟩ := hrun
        exact .refused hprepare hlower hreport
      | ok _ finished =>
        simp only [bind, EStateM.bind, hprepare, runDowngrade, hlower, hreport, pure, EStateM.pure,
          Prod.mk.injEq] at hrun
        obtain ⟨rfl, rfl⟩ := hrun
        exact .finished hprepare hlower hreport

/-- The input's path has the lowered archive, in which the input's entries are found as the engine
made them, and the backup's path has the bytes that the input had. -/
def Lowers (surroundings : Surroundings) (config : Option Path) (args : DowngradeArgs)
    (disk : Disk) (after : FileSystem) : Prop :=
  ∃ settings context old source written added,
    prepare surroundings config args disk = .ok (settings, context) disk ∧
      disk.files.readFile args.jar = .ok old ∧ after.readFile settings.backupPath = .ok old ∧
      ZipTree.open disk.files args.jar = .ok source ∧
      Filled settings context source (worldOf settings source disk) written added ∧
      (writerOf settings (written ++ added)).FoundAt after args.jar
        (Rebuilt settings context source · (worldOf settings source disk) added)

/-- No report is asked for, or it is put neither where the input is nor where the backup is. -/
def ReportApart (surroundings : Surroundings) (config : Option Path) (args : DowngradeArgs)
    (disk : Disk) : Prop :=
  ∀ path settings context place, args.report = some path →
    prepare surroundings config args disk = .ok (settings, context) disk →
    disk.files.LeadsTo path place →
    ¬disk.files.LeadsTo args.jar place ∧ ¬disk.files.LeadsTo settings.backupPath place

/-- A failed run of a command leaves the input as it was. -/
theorem input_of_failed {e : DowngradeError}
    (hprepare : prepare surroundings config args disk = .ok (settings, context) disk)
    (h : Downgrade.run settings context disk = .error e disk') :
    ∀ found, disk'.files.stat args.jar = .ok found ↔ disk.files.stat args.jar = .ok found := by
  obtain ⟨-, hinput, ⟨kind, hkind⟩, -⟩ := prepare_eq_ok hprepare
  have hengine : ∀ request, (context.engine request).LeavesFiles := by
    intro request
    rw [hkind]
    exact leavesFiles_engineOf kind request
  rcases run_eq_error h with ⟨-, rfl⟩ | ⟨hvalid, hfile, report, hguard⟩
  · exact fun _ => Iff.rfl
  · obtain ⟨place, content, hleads, hnode⟩ := isFile_iff.mp hfile
    obtain ⟨-, honly, hstaged⟩ := guardStaging_error
      (fun _ hfailed => buildAndSwap_error hengine hvalid hleads hnode hfailed) hguard
    rw [← hinput]
    exact (AsBefore.of_onlyAt hvalid hleads honly hstaged).input

/-- A run of a command that succeeds does what the command is for. -/
theorem lowers_of_run {outcome : Outcome} {done : Disk}
    (hprepare : prepare surroundings config args disk = .ok (settings, context) disk)
    (h : Downgrade.run settings context disk = .ok outcome done) :
    disk.files.SameFolders done.files ∧ Lowers surroundings config args disk done.files := by
  obtain ⟨-, hinput, ⟨kind, hkind⟩, hschedule⟩ := prepare_eq_ok hprepare
  have hengine : ∀ request, (context.engine request).LeavesFiles := by
    intro request
    rw [hkind]
    exact leavesFiles_engineOf kind request
  have hnames : ∀ request world output, ((context.engine request).run world).1 = .ok output →
      ∀ name ∈ output.dependencies.names,
        EntryPath.parse (EntryPath.ofClass name).text = .ok (.ofClass name) := by
    intro request world output hanswer name hname
    rw [hkind] at hanswer
    rw [dependencies_engineOf hanswer] at hname
    cases hname
  have hjobs : ∀ jobs, (context.schedule jobs).Perm jobs := by
    intro jobs
    rw [hschedule]
    exact .refl jobs
  obtain ⟨old, source, written, added, hreplaced, hsource, hfilled, horderly⟩ :=
    replaced_of_run hengine hnames hjobs h
  have hfound := hfilled.foundAt horderly hreplaced.input
  have hold := hreplaced.input_before
  rw [hinput] at hold hsource hfound
  exact ⟨hreplaced.folders, settings, context, old, source, written, added, hprepare, hold,
    hreplaced.backup, hsource, hfilled, hfound⟩

/-- A report that is apart from the input and the backup changes neither. -/
theorem Lowers.of_onlyAt {done : Disk} {path : Path}
    (hlowers : Lowers surroundings config args disk done.files)
    (hfolders : disk.files.SameFolders done.files)
    (hapart : ReportApart surroundings config args disk) (hpath : args.report = some path)
    (honly : done.files.OnlyAt disk'.files path) :
    Lowers surroundings config args disk disk'.files := by
  obtain ⟨settings, context, old, source, written, added, hprepare, hold, hbackup, hsource, hfilled,
    hfound⟩ := hlowers
  have hreport : ∀ place, done.files.LeadsTo path place →
      ¬done.files.LeadsTo args.jar place ∧ ¬done.files.LeadsTo settings.backupPath place := by
    intro place hplace
    rw [hfolders.leadsTo_iff] at hplace ⊢
    rw [hfolders.leadsTo_iff]
    exact hapart path settings context place hpath hprepare hplace
  have hjar := honly.readFile (fun place hjar hplace => (hreport place hplace).1 hjar) hfound.bytes
  exact ⟨settings, context, old, source, written, added, hprepare, hold,
    honly.readFile (fun place hjar hplace => (hreport place hplace).2 hjar) hbackup, hsource,
    hfilled, hfound.of_readFile hjar⟩

namespace Ending

theorem exitCode_runFailure (path : Path) (e : DowngradeError) :
    (runFailure path e).exitCode = if e.isPartialSwap then 3 else 1 := rfl

theorem exitCode_cases (h : Ending surroundings config args disk result disk') :
    result.exitCode = 0 ∨ result.exitCode = 1 ∨ result.exitCode = 3 := by
  cases h with
  | unready hready => exact Or.inr (Or.inl (prepare_eq_error hready).2)
  | failed _ _ =>
    rw [exitCode_runFailure]
    split <;> simp
  | refused _ _ hrefused => exact Or.inr (Or.inl (writeReport_eq_error hrefused).2.1)
  | finished _ _ _ => exact Or.inl rfl

/-- Only the swap that stopped half way has code 3. -/
theorem exitCode_eq_three_iff (h : Ending surroundings config args disk result disk') :
    result.exitCode = 3 ↔ ∃ settings context e,
      prepare surroundings config args disk = .ok (settings, context) disk ∧
        Downgrade.run settings context disk = .error e disk' ∧ e.isPartialSwap = true := by
  cases h with
  | unready hready =>
    refine ⟨fun hcode => by simp [(prepare_eq_error hready).2] at hcode, fun hpartial => ?_⟩
    obtain ⟨settings, context, e, hprepare, -⟩ := hpartial
    cases hready.symm.trans hprepare
  | failed hprepare hfailed =>
    refine ⟨fun hcode => ⟨_, _, _, hprepare, hfailed, ?_⟩, fun hpartial => ?_⟩
    · simpa [exitCode_runFailure] using hcode
    · obtain ⟨settings', context', e', hprepare', hfailed', hswap⟩ := hpartial
      cases hprepare.symm.trans hprepare'
      cases hfailed.symm.trans hfailed'
      rw [exitCode_runFailure, if_pos hswap]
  | refused hprepare hlower hrefused =>
    obtain ⟨rfl, hcode, -⟩ := writeReport_eq_error hrefused
    refine ⟨fun hthree => by simp [hcode] at hthree, fun hpartial => ?_⟩
    obtain ⟨settings', context', e, hprepare', hfailed, -⟩ := hpartial
    cases hprepare.symm.trans hprepare'
    cases hlower.symm.trans hfailed
  | finished hprepare hlower _ =>
    refine ⟨fun hthree => by simp at hthree, fun hpartial => ?_⟩
    obtain ⟨settings', context', e, hprepare', hfailed, -⟩ := hpartial
    cases hprepare.symm.trans hprepare'
    cases hlower.symm.trans hfailed

/-- With code 1 the input is left alone, but for one case: a report that is refused after the
swap. -/
theorem of_exitCode_one (h : Ending surroundings config args disk result disk')
    (hcode : result.exitCode = 1) :
    (∀ found, disk'.files.stat args.jar = .ok found ↔ disk.files.stat args.jar = .ok found) ∨
      Lowers surroundings config args disk disk'.files ∧
        ∃ path report kind, args.report = some path ∧
          disk'.files.write path (reportBytes report) = .error kind := by
  cases h with
  | unready hready =>
    obtain ⟨rfl, -⟩ := prepare_eq_error hready
    exact Or.inl fun _ => Iff.rfl
  | failed hprepare hfailed => exact Or.inl (input_of_failed hprepare hfailed)
  | refused hprepare hlower hrefused =>
    obtain ⟨rfl, -, path, kind, hpath, hwrite⟩ := writeReport_eq_error hrefused
    exact Or.inr ⟨(lowers_of_run hprepare hlower).2, path, _, kind, hpath, hwrite⟩
  | finished _ _ _ => simp at hcode

/-- With code 0 the run is done, and the report is all that was written after it. -/
theorem of_exitCode_zero (h : Ending surroundings config args disk result disk')
    (hcode : result.exitCode = 0) :
    ∃ done : Disk, Lowers surroundings config args disk done.files ∧
      (args.report = none → disk' = done) ∧
      (∀ path, args.report = some path → done.files.OnlyAt disk'.files path ∧
        ∃ report, disk'.files.readFile path = .ok (reportBytes report)) ∧
      (ReportApart surroundings config args disk →
        Lowers surroundings config args disk disk'.files) := by
  cases h with
  | unready hready => simp [(prepare_eq_error hready).2] at hcode
  | failed _ _ =>
    rw [exitCode_runFailure] at hcode
    split at hcode <;> simp at hcode
  | refused _ _ hrefused => simp [(writeReport_eq_error hrefused).2.1] at hcode
  | finished hprepare hlower hwritten =>
    obtain ⟨hfolders, hlowers⟩ := lowers_of_run hprepare hlower
    obtain ⟨hsame, hfile⟩ := writeReport_eq_ok hwritten
    refine ⟨_, hlowers, hsame, fun path hpath => ?_, fun hapart => ?_⟩
    · obtain ⟨honly, hread⟩ := hfile path hpath
      exact ⟨honly, _, hread⟩
    · cases hpath : args.report with
      | none => exact hsame hpath ▸ hlowers
      | some path => exact hlowers.of_onlyAt hfolders hapart hpath (hfile path hpath).1

end Ending

/-- The exit code of the command that lowers an archive. It is 3 exactly when the run failed in the
midst of the swap. With 1 the input is as it was before, or the run had succeeded and its report was
refused. With 0 the run succeeded, and after it only the report's file changed: so the input is the
lowered archive and the backup the old one, if the report is apart from both. -/
theorem exit_code_tells_outcome {words : List Text} {verbose : Bool}
    (hparse : parse words = .ok ⟨verbose, config, .downgrade args⟩)
    (hrun : run surroundings words disk = (result, disk')) :
    (result.exitCode = 0 ∨ result.exitCode = 1 ∨ result.exitCode = 3) ∧
      (result.exitCode = 3 ↔ ∃ settings context e,
        prepare surroundings config args disk = .ok (settings, context) disk ∧
          Downgrade.run settings context disk = .error e disk' ∧ e.isPartialSwap = true) ∧
      (result.exitCode = 1 →
        (∀ found, disk'.files.stat args.jar = .ok found ↔
          disk.files.stat args.jar = .ok found) ∨
        Lowers surroundings config args disk disk'.files ∧
          ∃ path report kind, args.report = some path ∧
            disk'.files.write path (reportBytes report) = .error kind) ∧
      (result.exitCode = 0 → ∃ done : Disk, Lowers surroundings config args disk done.files ∧
        (args.report = none → disk' = done) ∧
        (∀ path, args.report = some path → done.files.OnlyAt disk'.files path ∧
          ∃ report, disk'.files.readFile path = .ok (reportBytes report)) ∧
        (ReportApart surroundings config args disk →
          Lowers surroundings config args disk disk'.files)) := by
  have hending := ending_of_run hparse hrun
  exact ⟨hending.exitCode_cases, hending.exitCode_eq_three_iff, hending.of_exitCode_one,
    hending.of_exitCode_zero⟩

/-- An input of one resource, stored as it is; a new archive has it deflated. -/
def oneResource : Disk :=
  let stored : Zip.Packed := ⟨Bytes.ofString "a.txt",
    ⟨0, 0, 0, Zip.firstDay, (Crc32.checksum [1]).toNat, 1, 1⟩, 0, [1]⟩
  .ofFiles ⟨[], [(["app.jar".toList], .file (Zip.imageOfPacked [stored]))]⟩

def bareSurroundings : Surroundings := ⟨none, ⟨0, 0⟩, ⟨0, 0⟩⟩

def jarPath : Path := .ofString "app.jar"

def lowerWords (report : Option String) : List Text :=
  let wish := match report with
    | some path => ["--report", path]
    | none => []
  (["downgrade", "app.jar"] ++ wish).map String.toList

theorem exit_code_tells_outcome_oneResource :
    parse (lowerWords none) = .ok ⟨false, none, .downgrade ⟨jarPath, {}, none⟩⟩ ∧
      ∃ result disk', run bareSurroundings (lowerWords none) oneResource = (result, disk') ∧
        result.exitCode = 0 ∧
        Lowers bareSurroundings none ⟨jarPath, {}, none⟩ oneResource disk'.files := by
  have hparse : parse (lowerWords none) =
      .ok ⟨false, none, .downgrade ⟨jarPath, {}, none⟩⟩ := by decide +kernel
  have hcode : (run bareSurroundings (lowerWords none) oneResource).1.exitCode = 0 := by
    decide +kernel
  cases hrun : run bareSurroundings (lowerWords none) oneResource with
  | mk result disk' =>
    rw [hrun] at hcode
    obtain ⟨-, -, -, hdone⟩ := exit_code_tells_outcome hparse hrun
    obtain ⟨done, hlowers, hsame, -, -⟩ := hdone hcode
    exact ⟨hparse, result, disk', rfl, hcode, hsame rfl ▸ hlowers⟩

/-- With its report refused, the run that lowers the archive ends with 1: the code of a failure that
leaves the input alone, though the input was replaced. -/
theorem refused_report_replaces_input :
    (run bareSurroundings (lowerWords (some "missing/r.json")) oneResource).1.exitCode = 1 ∧
      (run bareSurroundings (lowerWords (some "missing/r.json")) oneResource).2.files.readFile
        jarPath ≠ oneResource.files.readFile jarPath := by
  decide +kernel

end Retarget.CommandLine

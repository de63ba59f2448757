import Retarget.Proofs.Downgrade.Failure
import Retarget.Proofs.Lists.Related
import Retarget.Proofs.Support.Additions
import Retarget.Proofs.Walk.TakenOver
import Retarget.Proofs.ZipTree.Written

/-!
A run that succeeds. The input's old bytes are the backup, nothing is staged any more, and the input
is a new archive. It lists what the old one listed, under the same paths and in the same order, and
after that what was added for support classes. Classes have the bytes that the engine gave them,
all other files their old ones.
-/
namespace Retarget

open FileSystem Walk

namespace Downgrade

variable {settings : Settings} {context : RunContext} {source result : ZipTree}

/-- The world that a walk begins in: the new archive's file has been made, and no class has been
looked up. -/
def worldOf (settings : Settings) (source : ZipTree) (disk : Disk) : World :=
  ⟨disk.attempt (.create settings.stagingPath), classpathOf source settings⟩

/-- The new archive's writer when these entries have been written. -/
def writerOf (settings : Settings) (entries : List (EntryPath × Node)) : ZipWriter :=
  (ZipWriter.ofPath settings.stagingPath).extend entries

/-- A class file of an archive that the engine gave an answer for. -/
structure Lowered (settings : Settings) (context : RunContext) (source : ZipTree) (world : World)
    (path : EntryPath) (name : ClassName) (bytes : Bytes) (output : TransformOutput) : Prop where
  read : source.read path = .ok (some bytes)
  answer : ((context.engine ⟨name, bytes, settings.targetVersion⟩).run world).1 = .ok output

/-- An entry has in the new archive what it should have: a class the engine's bytes, or its own when
the engine left it unchanged, any other file its own. -/
def Kept (settings : Settings) (context : RunContext) (source result : ZipTree) (world : World)
    (entry : ArchiveEntry) : Prop :=
  match entry.role with
  | .directory => result.read entry.path = .ok none
  | .resource | .overlayClass =>
    ∃ bytes, source.read entry.path = .ok (some bytes) ∧
      result.read entry.path = .ok (some bytes)
  | .classFile name =>
    ∃ bytes output, Lowered settings context source world entry.path name bytes output ∧
      result.read entry.path = .ok (some (output.result.final bytes))

/-- The support class is among those that the engine asked for. -/
def Recorded (settings : Settings) (context : RunContext) (source : ZipTree) (world : World)
    (name : ClassName) : Prop :=
  ∃ entry ∈ source.list, ∃ lowered bytes output, entry.role = .classFile lowered ∧
    Lowered settings context source world entry.path lowered bytes output ∧
    name ∈ output.dependencies.names

/-- What was added is what the recorded classes need that the source does not list, with the
catalog's bytes; and nothing when support classes are not copied. -/
def Supplied (settings : Settings) (context : RunContext) (source : ZipTree) (world : World)
    (added : List (EntryPath × Node)) : Prop :=
  if settings.copyRuntimeClasses then
    ∃ found : List (ClassName × Bytes), found.Pairwise (fun a b => a.1.precedes b.1) ∧
      (∀ name, name ∈ found.map Prod.fst ↔ Recorded settings context source world name) ∧
      (∀ f ∈ found, context.catalog.lookup world.disk.files f.1 = .ok (some f.2)) ∧
      added = Injection.additions (source.list.map ArchiveEntry.path)
        (found.filter fun f => .ofClass f.1 ∉ source.list.map ArchiveEntry.path)
  else added = []

structure Replaced (settings : Settings) (before after : FileSystem) (old new : Bytes) : Prop where
  input_before : before.readFile settings.input = .ok old
  input : after.readFile settings.input = .ok new
  backup : after.readFile settings.backupPath = .ok old
  staging : after.stat settings.stagingPath = .error .notFound
  folders : before.SameFolders after
  elsewhere : ∀ place, ¬before.LeadsTo settings.input place →
    ¬before.LeadsTo settings.backupPath place → ¬before.LeadsTo settings.stagingPath place →
    after.node? place = before.node? place

theorem entryBytes_archive {fs : FileSystem} {path : EntryPath} {bytes : Bytes} :
    entryBytes source.archive fs path = .ok bytes ↔ source.read path = .ok (some bytes) := by
  have hask : source.archive.read fs path =
      (source.read path).mapError ZipTree.ReadError.fault := rfl
  rw [entryBytes, hask]
  cases source.read path with
  | error fault =>
    constructor <;>
      · intro h
        cases h
  | ok found =>
    cases found with
    | none =>
      constructor <;>
        · intro h
          cases h
    | some found =>
      constructor <;>
        · intro h
          cases h
          rfl

section Outcome

variable {world : World} {entry : ArchiveEntry} {node : Node} {names : List ClassName}

/-- What an entry gives for the new archive, and what it needs, by the entry's role. -/
inductive Gives (settings : Settings) (context : RunContext) (source : ZipTree) (world : World)
    (entry : ArchiveEntry) : Node → List ClassName → Prop
  | directory (role : entry.role = .directory) :
    Gives settings context source world entry .directory []
  | copy (role : entry.role = .resource ∨ entry.role = .overlayClass) {bytes : Bytes}
    (read : source.read entry.path = .ok (some bytes)) :
    Gives settings context source world entry (.file bytes) []
  | lowered {name : ClassName} (role : entry.role = .classFile name) {bytes : Bytes}
    {output : TransformOutput}
    (lowered : Lowered settings context source world entry.path name bytes output) :
    Gives settings context source world entry (.file (output.result.final bytes))
      output.dependencies.names

/-- The engine's answer does not depend on what was looked up before. -/
theorem answer_settled (hengine : ∀ request, (context.engine request).LeavesFiles)
    (request : TransformRequest) (world : World) :
    ((context.engine request).run world.settled).1 = ((context.engine request).run world).1 := by
  rw [Dialogue.run_settled (hengine request) world]

theorem gives_of_outcome (hengine : ∀ request, (context.engine request).LeavesFiles)
    (h : Walk.outcome source.archive (planOf settings context) world.settled entry =
      .ok (node, names)) :
    Gives settings context source world entry node names := by
  have hcopy : entry.role = .resource ∨ entry.role = .overlayClass →
      (entryBytes source.archive world.settled.disk.files entry.path).map
        (fun bytes => (Node.file bytes, ([] : List ClassName))) = .ok (node, names) →
      Gives settings context source world entry node names := by
    intro hrole hcopied
    cases hbytes : entryBytes source.archive world.settled.disk.files entry.path with
    | error fault =>
      rw [hbytes] at hcopied
      cases hcopied
    | ok bytes =>
      rw [hbytes] at hcopied
      cases hcopied
      exact .copy hrole (entryBytes_archive.mp hbytes)
  unfold Walk.outcome at h
  cases hrole : entry.role with
  | directory =>
    rw [hrole] at h
    cases h
    exact .directory hrole
  | resource =>
    rw [hrole] at h
    exact hcopy (Or.inl hrole) h
  | overlayClass =>
    rw [hrole] at h
    exact hcopy (Or.inr hrole) h
  | classFile name =>
    simp only [hrole, attempt, planOf, answer_settled hengine] at h
    cases hbytes : entryBytes source.archive world.settled.disk.files entry.path with
    | error fault =>
      rw [hbytes] at h
      cases h
    | ok bytes =>
      simp only [hbytes] at h
      cases hrun : ((context.engine ⟨name, bytes, settings.targetVersion⟩).run world).1 with
      | error fault =>
        rw [hrun] at h
        cases h
      | ok output =>
        rw [hrun] at h
        cases h
        exact .lowered hrole ⟨entryBytes_archive.mp hbytes, hrun⟩

theorem outcome_of_lowered (hengine : ∀ request, (context.engine request).LeavesFiles)
    {name : ClassName} (hrole : entry.role = .classFile name) {bytes : Bytes}
    {output : TransformOutput}
    (h : Lowered settings context source world entry.path name bytes output) :
    Walk.outcome source.archive (planOf settings context) world.settled entry =
      .ok (.file (output.result.final bytes), output.dependencies.names) := by
  have hbytes : entryBytes source.archive world.settled.disk.files entry.path = .ok bytes :=
    entryBytes_archive.mpr h.read
  simp only [Walk.outcome, hrole, attempt, planOf, answer_settled hengine, hbytes, h.answer]
  rfl

/-- What is written for an entry is of the entry's kind. -/
theorem Gives.kind_eq (h : Gives settings context source world entry node names) :
    EntryKind.ofNode node = entry.kind := by
  cases h with
  | directory hrole => exact (role_eq_directory_iff.mp hrole).symm
  | copy hrole _ =>
    refine (kind_eq_file ?_).symm
    rcases hrole with hrole | hrole <;> simp [hrole]
  | lowered hrole _ => exact (kind_eq_file (by simp [hrole])).symm

/-- An entry is kept where what it gives is read. -/
theorem Gives.kept (h : Gives settings context source world entry node names)
    (hread : result.read entry.path = .ok node.content?) :
    Kept settings context source result world entry := by
  unfold Kept
  cases h with
  | directory hrole =>
    rw [hrole]
    exact hread
  | copy hrole hbytes =>
    rcases hrole with hrole | hrole
    · rw [hrole]
      exact ⟨_, hbytes, hread⟩
    · rw [hrole]
      exact ⟨_, hbytes, hread⟩
  | lowered hrole hlowered =>
    rw [hrole]
    exact ⟨_, _, hlowered, hread⟩

/-- The names that entries need are the recorded ones. -/
theorem recorded_iff (hengine : ∀ request, (context.engine request).LeavesFiles)
    {name : ClassName} :
    (∃ entry ∈ source.list, ∃ node names,
        Walk.outcome source.archive (planOf settings context) world.settled entry =
          .ok (node, names) ∧ name ∈ names) ↔
      Recorded settings context source world name := by
  constructor
  · intro h
    obtain ⟨entry, hentry, node, names, houtcome, hname⟩ := h
    cases gives_of_outcome hengine houtcome with
    | directory _ => cases hname
    | copy _ _ => cases hname
    | lowered hrole hlowered => exact ⟨entry, hentry, _, _, _, hrole, hlowered, hname⟩
  · intro h
    obtain ⟨entry, hentry, lowered, bytes, output, hrole, hlowered, hname⟩ := h
    exact ⟨entry, hentry, _, _, outcome_of_lowered hengine hrole hlowered, hname⟩

end Outcome

section Build

variable {disk disk' : Disk}

/-- What supplying adds after a walk in which the recorded classes were recorded. -/
theorem supply_eq_ok {world : World} {names : List ClassName × List ClassName}
    {s s' : Session ZipWriter} (hdisk : s.world.disk = world.disk)
    (hpaths : s.dest.paths = source.list.map ArchiveEntry.path)
    (hrequired : ∀ name, name ∈ s.required.names ↔ Recorded settings context source world name)
    (h : supply settings context.catalog s = .ok names s') :
    ∃ added, s'.dest = s.dest.extend added ∧ Supplied settings context source world added := by
  unfold supply at h
  unfold Supplied
  by_cases hcopy : settings.copyRuntimeClasses = true
  · simp only [hcopy, if_true] at h ⊢
    cases hinject : Injection.inject s.required context.catalog s.world.disk.files s.dest with
    | error fault dest => simp [hinject] at h
    | ok added dest =>
      simp only [hinject, EStateM.Result.ok.injEq] at h
      obtain ⟨_, rfl⟩ := h
      obtain ⟨found, hnames, hbytes, _, hdest⟩ := Injection.inject_eq_ok hinject
      have hlisted : Appending.paths s.dest = source.list.map ArchiveEntry.path := hpaths
      rw [hdisk] at hbytes
      rw [hlisted] at hdest
      have hascending := s.required.ascending
      rw [← hnames] at hascending
      refine ⟨_, hdest, found, List.pairwise_map.mp hascending, fun name => ?_, hbytes, rfl⟩
      rw [hnames, hrequired]
  · simp only [hcopy, Bool.false_eq_true, if_false, EStateM.Result.ok.injEq] at h ⊢
    obtain ⟨_, rfl⟩ := h
    exact ⟨[], by simp, rfl⟩

/-- What a new archive is filled with: the source's entries and what was added. -/
structure Filled (settings : Settings) (context : RunContext) (source : ZipTree) (world : World)
    (written added : List (EntryPath × Node)) : Prop where
  gives : List.Forall₂ (fun entry e => e.1 = entry.path ∧ ∃ names,
    Gives settings context source world entry e.2 names) source.list written
  supplied : Supplied settings context source world added

theorem paths_of_forall₂ {entries : List ArchiveEntry} {written : List (EntryPath × Node)}
    (h : List.Forall₂ (fun entry e => e.1 = entry.path) entries written) :
    written.map Prod.fst = entries.map ArchiveEntry.path := by
  induction h with
  | nil => rfl
  | cons hfirst _ ih => rw [List.map_cons, List.map_cons, hfirst, ih]

/-- Filling that succeeds has taken over the source's entries, with what the engine gave for them, and
has recorded the classes it asked for, when it comes to the support classes. -/
theorem walked_of_fill (hengine : ∀ request, (context.engine request).LeavesFiles)
    (hschedule : ∀ jobs, (context.schedule jobs).Perm jobs)
    (hindexed : ZipTree.Indexed source.entries) {world : World} {staging : Path}
    {staged : Staged} {s : Session ZipWriter}
    (h : fill source settings context ⟨world, .empty, .ofPath staging⟩ = .ok staged s) :
    ∃ written middle, supply settings context.catalog middle =
        .ok (staged.added, staged.skipped) s ∧
      middle.world.disk = world.disk ∧
      middle.dest = (ZipWriter.ofPath staging).extend written ∧
      middle.dest.paths = source.list.map ArchiveEntry.path ∧
      (∀ name, name ∈ middle.required.names ↔ Recorded settings context source world name) ∧
      List.Forall₂ (fun entry e => e.1 = entry.path ∧ ∃ names,
        Gives settings context source world entry e.2 names) source.list written := by
  obtain ⟨counts, middle, hwalk, hrest⟩ := bind_eq_ok.mp h
  obtain ⟨names, later, hsupply, hdone⟩ := bind_eq_ok.mp hrest
  cases hdone
  have hplan : ∀ request, ((planOf settings context).engine request).LeavesFiles := hengine
  have horder : ∀ jobs, ((planOf settings context).schedule jobs).Perm jobs := hschedule
  have hlist : source.archive.list world.disk.files = .ok source.list := rfl
  have hlisted : (source.list.map ArchiveEntry.path).Nodup := by
    rw [source.map_path_list]
    exact hindexed.nodup
  obtain ⟨written, htook⟩ := Walk.run_eq_ok hplan horder hlist hlisted
    (by simp [ZipWriter.paths, ZipWriter.ofPath]) hwalk
  have hgives : List.Forall₂ (fun entry e => e.1 = entry.path ∧ ∃ names,
      Gives settings context source world entry e.2 names) source.list written := by
    apply htook.outcomes.imp
    intro entry e he
    obtain ⟨hpath, names, houtcome⟩ := he
    exact ⟨hpath, names, gives_of_outcome hengine houtcome⟩
  refine ⟨written, middle, hsupply, ?_, htook.dest_eq, ?_, fun name => ?_, hgives⟩
  · have hsame := congrArg World.disk htook.world_eq
    simpa using hsame
  · rw [htook.dest_eq, ZipWriter.paths_extend]
    exact paths_of_forall₂ (hgives.imp fun _ _ he => he.1)
  · rw [htook.required, ← recorded_iff hengine]
    exact or_iff_right (List.not_mem_nil)

theorem fill_eq_ok (hengine : ∀ request, (context.engine request).LeavesFiles)
    (hschedule : ∀ jobs, (context.schedule jobs).Perm jobs)
    (hindexed : ZipTree.Indexed source.entries) {world : World} {staging : Path}
    {staged : Staged} {s : Session ZipWriter}
    (h : fill source settings context ⟨world, .empty, .ofPath staging⟩ = .ok staged s) :
    s.world.disk = world.disk ∧ s.dest.paths.Nodup ∧ ∃ written added,
      s.dest = (ZipWriter.ofPath staging).extend (written ++ added) ∧
      Filled settings context source world written added := by
  have hkeep := keeps_fill settings hengine source world.settled ZipWriter.keptByWrites_nodup
  have hstays := hkeep.ok ⟨rfl, by simp [ZipWriter.paths, ZipWriter.ofPath]⟩ h
  obtain ⟨written, middle, hsupply, hdisk, hdest, hpaths, hrequired, hgives⟩ :=
    walked_of_fill hengine hschedule hindexed h
  obtain ⟨added, hadded, hsupplied⟩ := supply_eq_ok hdisk hpaths hrequired hsupply
  refine ⟨hstays.disk_eq, hstays.2, written, added, ?_, hgives, hsupplied⟩
  rw [hadded, hdest, ZipWriter.extend_extend]

/-- The paths that a run adds are normal, if those of the support classes are. -/
theorem Filled.normal {world : World} {written added : List (EntryPath × Node)}
    (hnames : ∀ request world output, ((context.engine request).run world).1 = .ok output →
      ∀ name ∈ output.dependencies.names,
        EntryPath.parse (EntryPath.ofClass name).text = .ok (.ofClass name))
    (hindexed : ZipTree.Indexed source.entries)
    (h : Filled settings context source world written added) :
    ∀ e ∈ written ++ added, e.1.IsNormal := by
  intro e he
  rcases List.mem_append.mp he with he | he
  · have hpath : e.1 ∈ source.entries.map Prod.fst := by
      rw [← source.map_path_list, ← paths_of_forall₂ (h.gives.imp fun _ _ hentry => hentry.1)]
      exact List.mem_map_of_mem he
    obtain ⟨e', he', hsame⟩ := List.mem_map.mp hpath
    exact hsame ▸ hindexed.normal e' he'
  · have hsupplied := h.supplied
    unfold Supplied at hsupplied
    split at hsupplied
    · obtain ⟨found, _, hrecorded, _, rfl⟩ := hsupplied
      obtain ⟨f, hf, hpath⟩ := Injection.mem_additions he
      have hmem := List.mem_map_of_mem (f := Prod.fst) (List.mem_filter.mp hf).1
      obtain ⟨_, _, lowered, bytes, output, _, hlowered, hname⟩ := (hrecorded f.1).mp hmem
      have hnormal := EntryPath.isNormal_of_parse (hnames _ _ _ hlowered.answer _ hname)
      rcases hpath with hsame | habove
      · exact hsame ▸ hnormal
      · exact EntryPath.isNormal_of_mem_ancestors hnormal habove.2
    · subst hsupplied
      cases he

/-- What is written for the entries of the source is listed as they are. -/
theorem Filled.list_written {world : World} {written added : List (EntryPath × Node)}
    (h : Filled settings context source world written added) :
    (written.map fun e => (⟨e.1, .ofNode e.2⟩ : ArchiveEntry)) = source.list := by
  have hall := h.gives
  clear h
  generalize source.list = entries at hall ⊢
  induction hall with
  | nil => rfl
  | @cons entry e entries written hfirst _ ih =>
    obtain ⟨hpath, names, hgives⟩ := hfirst
    rw [List.map_cons, ih, hpath, hgives.kind_eq]

theorem Filled.gives_of_mem {world : World} {written added : List (EntryPath × Node)}
    (h : Filled settings context source world written added) {entry : ArchiveEntry}
    (hentry : entry ∈ source.list) :
    ∃ node names, (entry.path, node) ∈ written ∧
      Gives settings context source world entry node names := by
  obtain ⟨e, he, hpath, names, hgives⟩ := exists_of_mem_left h.gives hentry
  exact ⟨e.2, names, hpath ▸ he, hgives⟩

/-- Building that succeeds opens the input, fills the new archive and writes its end. -/
theorem fill_of_build {staged : Staged}
    (h : build settings context settings.stagingPath disk = .ok staged disk') :
    ∃ source s closed, ZipTree.open disk.files settings.input = .ok source ∧
      (worldOf settings source disk).disk.files.readFile settings.stagingPath = .ok [] ∧
      fill source settings context ⟨worldOf settings source disk, .empty,
        .ofPath settings.stagingPath⟩ = .ok staged s ∧
      ZipWriter.finish (s.dest, s.world.disk) = .ok () (closed, disk') := by
  unfold build at h
  cases hopen : ZipTree.open disk.files settings.input with
  | error fault => simp [hopen] at h
  | ok source =>
    simp only [hopen] at h
    cases hcreate : ZipWriter.create settings.stagingPath disk with
    | error fault stopped => simp [hcreate] at h
    | ok writer created =>
      obtain ⟨rfl, hwrite, hcreated⟩ := ZipWriter.create_eq_ok hcreate
      simp only [hcreate] at h
      cases hfill : fill source settings context
          ⟨⟨created, classpathOf source settings⟩, .empty, .ofPath settings.stagingPath⟩ with
      | error fault s => simp [hfill] at h
      | ok counts s =>
        simp only [hfill] at h
        cases hfinish : ZipWriter.finish (s.dest, s.world.disk) with
        | error fault left => simp [hfinish] at h
        | ok _ left =>
          obtain ⟨closed, finished⟩ := left
          simp only [hfinish, EStateM.Result.ok.injEq] at h
          obtain ⟨rfl, rfl⟩ := h
          have hworld : worldOf settings source disk = ⟨created, classpathOf source settings⟩ := by
            rw [worldOf, ← hcreated]
          rw [← hworld] at hfill
          refine ⟨source, s, closed, rfl, ?_, hfill, hfinish⟩
          rw [hworld]
          exact readFile_of_write hwrite

/-- A new archive that was built: what it was filled with, and its bytes in its file. -/
theorem build_eq_ok (hengine : ∀ request, (context.engine request).LeavesFiles)
    (hschedule : ∀ jobs, (context.schedule jobs).Perm jobs) {staged : Staged}
    (h : build settings context settings.stagingPath disk = .ok staged disk') :
    ∃ source written added, ZipTree.open disk.files settings.input = .ok source ∧
      Filled settings context source (worldOf settings source disk) written added ∧
      (writerOf settings (written ++ added)).paths.Nodup ∧
      disk'.files.readFile settings.stagingPath =
        .ok (writerOf settings (written ++ added)).image := by
  obtain ⟨source, s, closed, hopen, hmade, hfill, hfinish⟩ := fill_of_build h
  obtain ⟨hdisk, hnodup, written, added, hdest, hfilled⟩ :=
    fill_eq_ok hengine hschedule (ZipTree.indexed_of_open hopen) hfill
  rw [hdest, hdisk, ZipWriter.finish_of_open rfl, EStateM.Result.ok.injEq, Prod.mk.injEq] at hfinish
  rw [hdest] at hnodup
  refine ⟨source, written, added, hopen, hfilled, hnodup, ?_⟩
  rw [← hfinish.2.2]
  exact ZipWriter.readFile_filled hmade _

end Build

section Replace

variable {disk disk' : Disk} {old new : Bytes}

/-- A swap that succeeds puts the new archive in the input's place and the input in the backup's. -/
theorem swapIn_eq_ok (hvalid : settings.validate = .ok ())
    (hinput : disk.files.readFile settings.input = .ok old)
    (hstaged : disk.files.readFile settings.stagingPath = .ok new)
    (h : swapIn settings disk = .ok () disk') :
    Replaced settings disk.files disk'.files old new := by
  obtain ⟨j, hjar, hjarNode⟩ := readFile_eq_ok_iff.mp hinput
  obtain ⟨s, hstaging, hstagedNode⟩ := readFile_eq_ok_iff.mp hstaged
  have hfree : ∃ b, disk.files.LeadsTo settings.backupPath b ∧
      disk.files.node? b ≠ some .directory := by
    by_contra hblocked
    have hdirectory : ∀ b, disk.files.LeadsTo settings.backupPath b →
        disk.files.node? b = some .directory := fun b hleads =>
      Decidable.byContradiction fun hnode => hblocked ⟨b, hleads, hnode⟩
    obtain ⟨kind, hrefused⟩ := Swap.performAll_backupSteps_of_blocked hjar hjarNode hdirectory
    simp [swapIn, Swap.swap, hrefused] at h
  obtain ⟨b, hbackup, hbackupNode⟩ := hfree
  have hready : Swap.Ready disk.files settings.input settings.stagingPath settings.backupPath j s b
      old new :=
    ⟨hjar, hjarNode, hstaging, hstagedNode, hbackup, hbackupNode,
      (Settings.staging_ne_input hvalid hjar hstaging).symm,
      (Settings.backup_ne_input hvalid hjar hbackup).symm,
      Settings.staging_ne_backup hvalid hjar hstaging hbackup⟩
  obtain ⟨journal, _, hswap, _⟩ := hready.swap_eq
  simp only [swapIn, hswap, EStateM.Result.ok.injEq, true_and] at h
  have hfiles : disk'.files = Swap.swapped disk.files settings.backupPath j s b old new := by
    rw [← h]
  rw [hfiles]
  obtain ⟨hnew, hold, hgone⟩ := hready.readFile_swapped
  refine ⟨hinput, hnew, hold, hgone, hready.sameFolders_swapped, ?_⟩
  intro place hj hb hs
  have hne : place ≠ j ∧ place ≠ s ∧ place ≠ b := by
    refine ⟨?_, ?_, ?_⟩
    · rintro rfl
      exact hj hjar
    · rintro rfl
      exact hs hstaging
    · rintro rfl
      exact hb hbackup
  rw [hready.node?_swapped, if_neg hne.1, if_neg hne.2.1, if_neg hne.2.2]

/-- What differs before the swap at the staging path does not differ after it. -/
theorem Replaced.of_onlyAt {before middle after : FileSystem}
    (hvalid : settings.validate = .ok ()) (honly : before.OnlyAt middle settings.stagingPath)
    (h : Replaced settings middle after old new) : Replaced settings before after old new := by
  have hleads : ∀ {path : Path} {place : Location},
      middle.LeadsTo path place ↔ before.LeadsTo path place := honly.folders.leadsTo_iff
  obtain ⟨j, hjar, hjarNode⟩ := readFile_eq_ok_iff.mp h.input_before
  have hsame := honly.elsewhere j fun hstaging =>
    Settings.staging_ne_input hvalid (hleads.mp hjar) hstaging rfl
  refine ⟨(hleads.mp hjar).readFile (hsame ▸ hjarNode), h.input, h.backup, h.staging,
    honly.folders.trans h.folders, fun place hj hb hs => ?_⟩
  rw [h.elsewhere place (fun hp => hj (hleads.mp hp)) (fun hp => hb (hleads.mp hp))
    (fun hp => hs (hleads.mp hp)), honly.elsewhere place hs]

end Replace

/-- The new archive is the old one with its classes lowered, and with what was added. -/
structure Rebuilt (settings : Settings) (context : RunContext) (source result : ZipTree)
    (world : World) (added : List (EntryPath × Node)) : Prop where
  list_eq : result.list = source.list ++ added.map fun e => ⟨e.1, .ofNode e.2⟩
  kept : ∀ entry ∈ source.list, Kept settings context source result world entry
  supplied : Supplied settings context source world added
  read_added : ∀ e ∈ added, result.read e.1 = .ok e.2.content?

/-- What the new archive was filled with is found in its file. -/
theorem Filled.foundAt {world : World} {written added : List (EntryPath × Node)} {fs : FileSystem}
    {path : Path} (h : Filled settings context source world written added)
    (horderly : (writerOf settings (written ++ added)).Orderly)
    (hfile : fs.readFile path = .ok (writerOf settings (written ++ added)).image) :
    (writerOf settings (written ++ added)).FoundAt fs path
      (Rebuilt settings context source · world added) := by
  refine (ZipWriter.foundAt_of_readFile horderly hfile).imp fun result hresult => ?_
  obtain ⟨hlist, hread⟩ := hresult
  have hcontent : ∀ path node, (path, node) ∈ written ++ added →
      result.read path = .ok node.content? := by
    intro path node hmem
    have hwritten : (path, node) ∈ (writerOf settings (written ++ added)).entries := hmem
    rw [hread, horderly.read_of_mem hwritten]
  refine ⟨?_, fun entry hentry => ?_, h.supplied, fun e he => ?_⟩
  · rw [hlist, ← h.list_written, ← List.map_append]
    rfl
  · obtain ⟨node, names, hmem, hgives⟩ := h.gives_of_mem hentry
    exact hgives.kept (hcontent entry.path node (List.mem_append_left _ hmem))
  · exact hcontent e.1 e.2 (List.mem_append_right _ he)

/-- Building and swapping that succeeds reports what was staged. -/
theorem report_of_buildAndSwap {report report' : Report} {disk disk' : Disk}
    (h : buildAndSwap settings context report disk = .ok report' disk') :
    ∃ staged built digest, build settings context settings.stagingPath disk = .ok staged built ∧
      swapIn settings built = .ok () disk' ∧
      report' = { report with
        counts := { staged.counts with supportClasses := .ofNat staged.added.length }
        supportClasses := staged.added
        skippedSupportClasses := staged.skipped
        resultSha256 := some digest } := by
  obtain ⟨staged, built, hbuild, hhashing⟩ := bind_eq_ok.mp h
  obtain ⟨digest, hashed, hhash, hswapping⟩ := bind_eq_ok.mp hhashing
  obtain ⟨rfl, _⟩ := hashFile_eq_ok hhash
  obtain ⟨_, swapped, hswap, hdone⟩ := bind_eq_ok.mp hswapping
  cases hdone
  exact ⟨staged, hashed, digest, hbuild, hswap, rfl⟩

theorem buildAndSwap_eq_ok {report report' : Report} {disk disk' : Disk}
    (h : buildAndSwap settings context report disk = .ok report' disk') :
    ∃ staged built, build settings context settings.stagingPath disk = .ok staged built ∧
      swapIn settings built = .ok () disk' := by
  obtain ⟨staged, built, _, hbuild, hswap, _⟩ := report_of_buildAndSwap h
  exact ⟨staged, built, hbuild, hswap⟩

/-- A run that succeeds has valid settings and a file as its input, builds and swaps, and reports
that with its end. -/
theorem report_of_run {outcome : Outcome} {disk disk' : Disk}
    (h : run settings context disk = .ok outcome disk') :
    settings.validate = .ok () ∧ ∃ old report report',
      disk.files.readFile settings.input = .ok old ∧
      buildAndSwap settings context report disk = .ok report' disk' ∧
      outcome.report = { report' with endedAt := some context.endedAt } := by
  unfold run at h
  cases hvalid : settings.validate with
  | error reason =>
    simp only [hvalid] at h
    cases h
  | ok _ =>
    simp only [hvalid] at h
    obtain ⟨_, checked, hcheck, hhashing⟩ := bind_eq_ok.mp h
    obtain ⟨rfl, _⟩ := checkInput_eq_ok hcheck
    obtain ⟨digest, hashed, hhash, hguarding⟩ := bind_eq_ok.mp hhashing
    obtain ⟨rfl, old, hold, _⟩ := hashFile_eq_ok hhash
    obtain ⟨report', guarded, hguard, hdone⟩ := bind_eq_ok.mp hguarding
    cases hdone
    unfold guardStaging at hguard
    split at hguard
    · next hbuild =>
      cases hguard
      exact ⟨rfl, old, _, _, hold, hbuild, rfl⟩
    · cases hguard

theorem run_eq_ok {outcome : Outcome} {disk disk' : Disk}
    (h : run settings context disk = .ok outcome disk') :
    settings.validate = .ok () ∧ ∃ old report report',
      disk.files.readFile settings.input = .ok old ∧
      buildAndSwap settings context report disk = .ok report' disk' := by
  obtain ⟨hvalid, old, report, report', hold, hbuild, _⟩ := report_of_run h
  exact ⟨hvalid, old, report, report', hold, hbuild⟩

/-- What a run that succeeds has filled the new archive with, and swapped in. -/
theorem replaced_of_run (hengine : ∀ request, (context.engine request).LeavesFiles)
    (hnames : ∀ request world output, ((context.engine request).run world).1 = .ok output →
      ∀ name ∈ output.dependencies.names,
        EntryPath.parse (EntryPath.ofClass name).text = .ok (.ofClass name))
    (hschedule : ∀ jobs, (context.schedule jobs).Perm jobs) {outcome : Outcome} {disk disk' : Disk}
    (h : run settings context disk = .ok outcome disk') :
    ∃ old source written added,
      Replaced settings disk.files disk'.files old (writerOf settings (written ++ added)).image ∧
      ZipTree.open disk.files settings.input = .ok source ∧
      Filled settings context source (worldOf settings source disk) written added ∧
      (writerOf settings (written ++ added)).Orderly := by
  obtain ⟨hvalid, old, _, _, hold, hbuildAndSwap⟩ := run_eq_ok h
  obtain ⟨_, built, hbuild, hswap⟩ := buildAndSwap_eq_ok hbuildAndSwap
  obtain ⟨source, written, added, hsource, hfilled, hnodup, hstaged⟩ :=
    build_eq_ok hengine hschedule hbuild
  have honly : disk.files.OnlyAt built.files settings.stagingPath :=
    (keeps_build settings hengine disk.files settings.stagingPath).ok (OnlyAt.refl _ _) hbuild
  have hkept := honly.readFile
    (fun _ hinput hstaging => Settings.staging_ne_input hvalid hinput hstaging rfl) hold
  have hnormal := hfilled.normal hnames (ZipTree.indexed_of_open hsource)
  exact ⟨old, source, written, added, (swapIn_eq_ok hvalid hkept hstaged hswap).of_onlyAt hvalid
    honly, hsource, hfilled, hnodup, hnormal⟩

/-- A run that succeeds replaces the input by a new archive, the old one being kept as the backup,
and changes nothing else. The new archive was filled with the old one's entries, and after them with
what was added for support classes, and that is what is found in it. -/
theorem successful_run_replaces_input
    (hengine : ∀ request, (context.engine request).LeavesFiles)
    (hnames : ∀ request world output, ((context.engine request).run world).1 = .ok output →
      ∀ name ∈ output.dependencies.names,
        EntryPath.parse (EntryPath.ofClass name).text = .ok (.ofClass name))
    (hschedule : ∀ jobs, (context.schedule jobs).Perm jobs) {outcome : Outcome} {disk disk' : Disk}
    (hrun : run settings context disk = .ok outcome disk') :
    ∃ old source written added,
      Replaced settings disk.files disk'.files old (writerOf settings (written ++ added)).image ∧
      ZipTree.open disk.files settings.input = .ok source ∧
      Filled settings context source (worldOf settings source disk) written added ∧
      (writerOf settings (written ++ added)).FoundAt disk'.files settings.input
        (Rebuilt settings context source · (worldOf settings source disk) added) := by
  obtain ⟨old, source, written, added, hreplaced, hsource, hfilled, horderly⟩ :=
    replaced_of_run hengine hnames hschedule hrun
  exact ⟨old, source, written, added, hreplaced, hsource, hfilled,
    hfilled.foundAt horderly hreplaced.input⟩

def helperClass : ClassName := ⟨"s/S".toList, by decide, by decide, by decide⟩

def appendingContext : RunContext where
  engine request := .done (.ok ⟨.changed (request.bytes ++ [0]), .ofList [helperClass]⟩)
  catalog := .ofTable [(helperClass.text, [7])]
  tool := ⟨[], none⟩
  startedAt := ⟨0, 0⟩
  endedAt := ⟨0, 0⟩

def oneClass : Disk :=
  let stored : Zip.Packed := ⟨Bytes.ofString "A.class",
    ⟨0, 0, 0, Zip.firstDay, (Crc32.checksum [1]).toNat, 1, 1⟩, 0, [1]⟩
  .ofFiles ⟨[], [(["app.jar".toList], .file (Zip.imageOfPacked [stored]))]⟩

def listedAfter : EStateM.Result DowngradeError Disk Outcome → Option (List ArchiveEntry)
  | .ok _ disk =>
    match disk.files.readFile jarSettings.input with
    | .ok image =>
      if image.length < UInt16.size - 1 then
        (ZipTree.open disk.files jarSettings.input).toOption.map ZipTree.list
      else none
    | .error _ => none
  | .error _ _ => none

theorem listedAfter_oneClass :
    listedAfter (run jarSettings appendingContext oneClass) =
      some [⟨⟨"A.class".toList⟩, .file⟩, ⟨⟨"s".toList⟩, .directory⟩,
        ⟨⟨"s/S.class".toList⟩, .file⟩] := by
  decide +kernel

/-- What is written for the one class. -/
theorem content_of_oneClass {source : ZipTree} {written added : List (EntryPath × Node)}
    (hsource : ZipTree.open oneClass.files jarSettings.input = .ok source)
    (h : Filled jarSettings appendingContext source (worldOf jarSettings source oneClass) written
      added) {path : EntryPath} {content : Bytes} (hmem : (path, .file content) ∈ written ++ added) :
    content ∈ [[1], [1, 0], [7]] := by
  have hread : ∀ entry ∈ source.list, source.read entry.path = .ok (some [1]) := by
    have hlisted : (ZipTree.open oneClass.files jarSettings.input).toOption.map
        (fun tree => tree.list.all fun entry => tree.read entry.path = .ok (some [1])) =
          some true := by
      decide +kernel
    rw [hsource] at hlisted
    simpa [Except.toOption] using hlisted
  rcases List.mem_append.mp hmem with hmem | hmem
  · obtain ⟨entry, hentry, -, names, hgives⟩ := exists_of_mem_left h.gives.flip hmem
    have hbytes := hread entry hentry
    cases hgives with
    | copy _ hcopied =>
      cases hcopied.symm.trans hbytes
      decide
    | lowered _ hlowered =>
      cases hlowered.read.symm.trans hbytes
      cases hlowered.answer
      exact List.mem_cons_of_mem _ (List.mem_cons_self ..)
  · have hsupplied := h.supplied
    have hcopied : jarSettings.copyRuntimeClasses = true := rfl
    rw [Supplied, if_pos hcopied] at hsupplied
    obtain ⟨found, -, -, hcatalog, rfl⟩ := hsupplied
    obtain ⟨f, hf, hfile | ⟨hdirectory, -⟩⟩ := Injection.mem_additions hmem
    · cases hfile
      have hlooked := hcatalog f (List.mem_filter.mp hf).1
      have hseven : f.2 = [7] := by
        simp only [appendingContext, Catalog.ofTable, List.lookup_cons, List.lookup_nil,
          Except.ok.injEq] at hlooked
        split at hlooked <;> simp_all
      simp [hseven]
    · cases hdirectory

theorem successful_run_replaces_input_oneClass :
    (∀ request, (appendingContext.engine request).LeavesFiles) ∧
      (∀ request world output, ((appendingContext.engine request).run world).1 = .ok output →
        ∀ name ∈ output.dependencies.names,
          EntryPath.parse (EntryPath.ofClass name).text = .ok (.ofClass name)) ∧
      (∀ jobs, (appendingContext.schedule jobs).Perm jobs) ∧
      ∃ outcome disk',
        run jarSettings appendingContext oneClass = .ok outcome disk' ∧
        ∃ old source result added new, Replaced jarSettings oneClass.files disk'.files old new ∧
          ZipTree.open oneClass.files jarSettings.input = .ok source ∧
          ZipTree.open disk'.files jarSettings.input = .ok result ∧
          result.list = [⟨⟨"A.class".toList⟩, .file⟩, ⟨⟨"s".toList⟩, .directory⟩,
            ⟨⟨"s/S.class".toList⟩, .file⟩] ∧
          Rebuilt jarSettings appendingContext source result
            (worldOf jarSettings source oneClass) added := by
  have hengine : ∀ request, (appendingContext.engine request).LeavesFiles := fun _ => trivial
  have hnames : ∀ request world output,
      ((appendingContext.engine request).run world).1 = .ok output →
      ∀ name ∈ output.dependencies.names,
        EntryPath.parse (EntryPath.ofClass name).text = .ok (.ofClass name) := by
    intro request world output h name hname
    cases h
    have hmem : name ∈ [helperClass] ∨ name ∈ NameSet.empty.names := NameSet.mem_insertAll.mp hname
    have hname : name = helperClass := by simpa [NameSet.empty] using hmem
    rw [hname]
    decide
  have hschedule : ∀ jobs, (appendingContext.schedule jobs).Perm jobs := fun jobs => .refl jobs
  refine ⟨hengine, hnames, hschedule, ?_⟩
  have hlisted := listedAfter_oneClass
  cases hrun : run jarSettings appendingContext oneClass with
  | error fault disk' =>
    rw [hrun] at hlisted
    cases hlisted
  | ok outcome disk' =>
    obtain ⟨old, source, written, added, hreplaced, hsource, hfilled, hfound⟩ :=
      successful_run_replaces_input hengine hnames hschedule hrun
    rw [hrun, listedAfter, hreplaced.input] at hlisted
    obtain ⟨hsmall, hlisted⟩ := Option.ite_none_right_eq_some.mp hlisted
    have hcontents : ∀ content ∈ ([[1], [1, 0], [7]] : List Bytes),
        content.length < UInt32.size - 1 := by decide
    have hlegible := ZipWriter.legible_of_small hsmall fun path content hmem =>
      hcontents content (content_of_oneClass hsource hfilled hmem)
    obtain ⟨result, hresult, hrebuilt⟩ := hfound.of_legible hlegible
    rw [hresult] at hlisted
    exact ⟨outcome, disk', rfl, old, source, result, added, _, hreplaced, hsource, hresult,
      Option.some.inj hlisted, hrebuilt⟩

end Downgrade

end Retarget

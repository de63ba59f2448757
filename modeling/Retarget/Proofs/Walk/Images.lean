import Retarget.Proofs.Lists.Related
import Retarget.Proofs.MemoryTree.Entries
import Retarget.Proofs.Walk.Agreement

/-!
A walk with one job into a new tree. In a given world every entry either has an image, which is a
node and for a class what the engine said of it, or fails for a reason. The world that counts is the
one at the beginning, since looking classes up changes no answer. One entry that has an image adds
it to the tree, the counts and the recorded names; so a listing is taken over image by image up to
the first entry that fails, and nothing is there from that entry on.
-/
namespace Retarget.Walk

structure Image where
  node : Node
  /-- For a class, whether the engine changed it. -/
  changed? : Option Bool := none
  /-- The support classes that the engine asked for. -/
  needs : List ClassName := []

/-- What an entry is taken over as: a directory, the bytes it has, or for a class the bytes that
the engine's answer leaves or gives it. -/
inductive Becomes (source : Archive) (engine : Engine) (target : UInt16) (world : World)
    (entry : ArchiveEntry) : Image → Prop
  | directory (role : entry.role = .directory) :
    Becomes source engine target world entry { node := .directory }
  | copy (role : entry.role = .resource ∨ entry.role = .overlayClass) {bytes : Bytes}
    (read : source.read world.disk.files entry.path = .ok (some bytes)) :
    Becomes source engine target world entry { node := .file bytes }
  | unchanged {name : ClassName} (role : entry.role = .classFile name) {bytes : Bytes}
    (read : source.read world.disk.files entry.path = .ok (some bytes)) {needs : NameSet}
    (answer : ((engine ⟨name, bytes, target⟩).run world).1 = .ok ⟨.unchanged, needs⟩) :
    Becomes source engine target world entry ⟨.file bytes, some false, needs.names⟩
  | changed {name : ClassName} (role : entry.role = .classFile name) {bytes new : Bytes}
    (read : source.read world.disk.files entry.path = .ok (some bytes)) {needs : NameSet}
    (answer : ((engine ⟨name, bytes, target⟩).run world).1 = .ok ⟨.changed new, needs⟩) :
    Becomes source engine target world entry ⟨.file new, some true, needs.names⟩

/-- Why an entry is not taken over: it is a file whose bytes cannot be had, or a class that the
engine refuses. -/
inductive Fails (source : Archive) (engine : Engine) (target : UInt16) (world : World)
    (entry : ArchiveEntry) : DowngradeError → Prop
  | unreadable (kind : entry.kind = .file) {fault : Fault}
    (read : source.read world.disk.files entry.path = .error fault) :
    Fails source engine target world entry (.io (.readEntry entry.path source.location) fault)
  | absent (kind : entry.kind = .file)
    (read : source.read world.disk.files entry.path = .ok none) :
    Fails source engine target world entry
      (.io (.readEntry entry.path source.location) (.text "entry disappeared"))
  | unresolved {name missing : ClassName} (role : entry.role = .classFile name) {bytes : Bytes}
    (read : source.read world.disk.files entry.path = .ok (some bytes))
    (answer : ((engine ⟨name, bytes, target⟩).run world).1 = .error (.unresolved missing)) :
    Fails source engine target world entry (.unresolved name missing)
  | refused {name : ClassName} (role : entry.role = .classFile name) {bytes : Bytes} {fault : Fault}
    (read : source.read world.disk.files entry.path = .ok (some bytes))
    (answer : ((engine ⟨name, bytes, target⟩).run world).1 = .error (.internal fault)) :
    Fails source engine target world entry (.transform name fault)

section Entry

variable {source : Archive} {engine : Engine} {target : UInt16} {world later : World}
  {entry : ArchiveEntry} {image : Image} {fault : DowngradeError}

/-- An entry has an image, or it fails. -/
theorem becomes_or_fails (source : Archive) (engine : Engine) (target : UInt16) (world : World)
    (entry : ArchiveEntry) :
    (∃ image, Becomes source engine target world entry image) ∨
      ∃ fault, Fails source engine target world entry fault := by
  by_cases hrole : entry.role = .directory
  · exact Or.inl ⟨_, .directory hrole⟩
  · have hkind := kind_eq_file hrole
    cases hread : source.read world.disk.files entry.path with
    | error fault => exact Or.inr ⟨_, .unreadable hkind hread⟩
    | ok bytes? =>
      cases bytes? with
      | none => exact Or.inr ⟨_, .absent hkind hread⟩
      | some bytes =>
        cases hclass : entry.role with
        | directory => exact absurd hclass hrole
        | resource => exact Or.inl ⟨_, .copy (Or.inl hclass) hread⟩
        | overlayClass => exact Or.inl ⟨_, .copy (Or.inr hclass) hread⟩
        | classFile name =>
          cases hanswer : ((engine ⟨name, bytes, target⟩).run world).1 with
          | error reason =>
            cases reason with
            | unresolved missing => exact Or.inr ⟨_, .unresolved hclass hread hanswer⟩
            | internal fault => exact Or.inr ⟨_, .refused hclass hread hanswer⟩
          | ok output =>
            obtain ⟨_ | new, needs⟩ := output
            · exact Or.inl ⟨_, .unchanged hclass hread hanswer⟩
            · exact Or.inl ⟨_, .changed hclass hread hanswer⟩

theorem disk_eq_of_settled (h : later.settled = world.settled) : later.disk = world.disk := by
  rw [← World.disk_settled, h, World.disk_settled]

/-- The engine's answer is the same in two worlds that settle to one. -/
theorem answer_eq_of_settled (hengine : ∀ request, (engine request).LeavesFiles)
    (h : later.settled = world.settled) (request : TransformRequest) :
    ((engine request).run later).1 = ((engine request).run world).1 := by
  have hlater := Dialogue.run_settled (hengine request) later
  have hworld := Dialogue.run_settled (hengine request) world
  rw [h, hworld] at hlater
  exact (congrArg Prod.fst hlater).symm

theorem Becomes.of_settled (hengine : ∀ request, (engine request).LeavesFiles)
    (hsettled : later.settled = world.settled)
    (h : Becomes source engine target world entry image) :
    Becomes source engine target later entry image := by
  have hdisk : later.disk = world.disk := disk_eq_of_settled hsettled
  have hanswer := answer_eq_of_settled hengine hsettled
  cases h with
  | directory role => exact .directory role
  | copy role read => exact .copy role (hdisk ▸ read)
  | unchanged role read answer => exact .unchanged role (hdisk ▸ read) ((hanswer _).trans answer)
  | changed role read answer => exact .changed role (hdisk ▸ read) ((hanswer _).trans answer)

theorem Fails.of_settled (hengine : ∀ request, (engine request).LeavesFiles)
    (hsettled : later.settled = world.settled)
    (h : Fails source engine target world entry fault) :
    Fails source engine target later entry fault := by
  have hdisk : later.disk = world.disk := disk_eq_of_settled hsettled
  have hanswer := answer_eq_of_settled hengine hsettled
  cases h with
  | unreadable kind read => exact .unreadable kind (hdisk ▸ read)
  | absent kind read => exact .absent kind (hdisk ▸ read)
  | unresolved role read answer => exact .unresolved role (hdisk ▸ read) ((hanswer _).trans answer)
  | refused role read answer => exact .refused role (hdisk ▸ read) ((hanswer _).trans answer)

/-- All but directories are read. -/
theorem Becomes.exists_read (h : Becomes source engine target world entry image)
    (hrole : entry.role ≠ .directory) :
    ∃ bytes, source.read world.disk.files entry.path = .ok (some bytes) := by
  cases h with
  | directory role => exact absurd role hrole
  | copy _ read => exact ⟨_, read⟩
  | unchanged _ read _ => exact ⟨_, read⟩
  | changed _ read _ => exact ⟨_, read⟩

theorem Becomes.read_of_kind_eq (h : Becomes source engine target world entry image)
    (hkind : entry.kind = .file) :
    ∃ bytes, source.read world.disk.files entry.path = .ok (some bytes) := by
  refine h.exists_read fun hrole => ?_
  simp [role_eq_directory_iff.mp hrole] at hkind

/-- An entry that has an image does not fail. -/
theorem Becomes.not_fails (h : Becomes source engine target world entry image) :
    ¬∃ fault, Fails source engine target world entry fault := by
  rintro ⟨fault, hfails⟩
  cases hfails with
  | unreadable kind read =>
    obtain ⟨bytes, hbytes⟩ := h.read_of_kind_eq kind
    simp [hbytes] at read
  | absent kind read =>
    obtain ⟨bytes, hbytes⟩ := h.read_of_kind_eq kind
    simp [hbytes] at read
  | unresolved role read answer => cases h <;> simp_all
  | refused role read answer => cases h <;> simp_all

/-- What becomes of a class is what the engine answers. -/
theorem becomes_class_iff {name : ClassName} (hrole : entry.role = .classFile name) {bytes : Bytes}
    (hread : source.read world.disk.files entry.path = .ok (some bytes)) :
    Becomes source engine target world entry image ↔
      ∃ output, ((engine ⟨name, bytes, target⟩).run world).1 = .ok output ∧
        image = ⟨.file (output.result.final bytes), some output.result.isChanged,
          output.dependencies.names⟩ := by
  constructor
  · intro h
    cases h with
    | directory role => simp [hrole] at role
    | copy role read => simp [hrole] at role
    | unchanged role read answer =>
      cases hrole.symm.trans role
      cases hread.symm.trans read
      exact ⟨_, answer, rfl⟩
    | changed role read answer =>
      cases hrole.symm.trans role
      cases hread.symm.trans read
      exact ⟨_, answer, rfl⟩
  · rintro ⟨⟨_ | new, needs⟩, hanswer, rfl⟩
    · exact .unchanged hrole hread hanswer
    · exact .changed hrole hread hanswer

/-- What is written for an entry is of the entry's kind. -/
theorem Becomes.kind_eq (h : Becomes source engine target world entry image) :
    EntryKind.ofNode image.node = entry.kind := by
  cases h with
  | directory role => exact (role_eq_directory_iff.mp role).symm
  | copy role read =>
    refine (kind_eq_file ?_).symm
    rcases role with role | role <;> simp [role]
  | unchanged role read answer => exact (kind_eq_file (by simp [role])).symm
  | changed role read answer => exact (kind_eq_file (by simp [role])).symm

end Entry

section Counts

/-- How many entries there are of each role, the classes by whether they were changed. The words
hold the length of any list that a memory holds. -/
def tally (entries : List ArchiveEntry) (images : List Image) : EntryCounts where
  directories := .ofNat (entries.countP (·.role = .directory))
  resources := .ofNat (entries.countP (·.role = .resource))
  overlayClasses := .ofNat (entries.countP (·.role = .overlayClass))
  changedClasses := .ofNat (images.countP (·.changed? = some true))
  unchangedClasses := .ofNat (images.countP (·.changed? = some false))

def plus (a b : EntryCounts) : EntryCounts where
  directories := a.directories + b.directories
  resources := a.resources + b.resources
  overlayClasses := a.overlayClasses + b.overlayClasses
  changedClasses := a.changedClasses + b.changedClasses
  unchangedClasses := a.unchangedClasses + b.unchangedClasses
  supportClasses := a.supportClasses + b.supportClasses

theorem plus_assoc (a b c : EntryCounts) : plus (plus a b) c = plus a (plus b c) := by
  simp only [plus, UInt64.add_assoc]

theorem zero_plus (a : EntryCounts) : plus {} a = a := by
  simp only [plus, UInt64.zero_add]

theorem plus_zero (a : EntryCounts) : plus a {} = a := by
  simp only [plus, UInt64.add_zero]

theorem tally_cons (entry : ArchiveEntry) (entries : List ArchiveEntry) (image : Image)
    (images : List Image) :
    tally (entry :: entries) (image :: images) =
      plus (tally [entry] [image]) (tally entries images) := by
  have hcons {α : Type} (p : α → Bool) (a : α) (rest : List α) :
      UInt64.ofNat ((a :: rest).countP p) = .ofNat ([a].countP p) + .ofNat (rest.countP p) := by
    rw [← UInt64.ofNat_add, ← List.countP_append, List.singleton_append]
  simp only [tally, plus, hcons _ entry entries, hcons _ image images, UInt64.add_zero]

theorem classes_plus (a b : EntryCounts) : (plus a b).classes = a.classes + b.classes := by
  simp only [plus, EntryCounts.classes]
  ac_rfl

theorem sourceEntries_plus (a b : EntryCounts) :
    (plus a b).sourceEntries = a.sourceEntries + b.sourceEntries := by
  simp only [plus, EntryCounts.sourceEntries, EntryCounts.classes]
  ac_rfl

variable {source : Archive} {engine : Engine} {target : UInt16} {world : World}
  {entries : List ArchiveEntry} {images : List Image}

/-- Each entry is counted once, and as a class if it is one. -/
theorem Becomes.counted {entry : ArchiveEntry} {image : Image}
    (h : Becomes source engine target world entry image) :
    (tally [entry] [image]).classes = .ofNat ([entry].countP fun e => (jobOf? e).isSome) ∧
      (tally [entry] [image]).sourceEntries = 1 := by
  cases h with
  | directory role =>
    simp [tally, EntryCounts.classes, EntryCounts.sourceEntries, jobOf?, role]
  | copy role read =>
    rcases role with role | role <;>
      simp [tally, EntryCounts.classes, EntryCounts.sourceEntries, jobOf?, role]
  | unchanged role read answer =>
    simp [tally, EntryCounts.classes, EntryCounts.sourceEntries, jobOf?, role]
  | changed role read answer =>
    simp [tally, EntryCounts.classes, EntryCounts.sourceEntries, jobOf?, role]

theorem classes_tally (h : List.Forall₂ (Becomes source engine target world) entries images) :
    (tally entries images).classes = .ofNat (entries.countP fun e => (jobOf? e).isSome) := by
  induction h with
  | nil => rfl
  | @cons entry image rest others hfirst _ ih =>
    rw [tally_cons, classes_plus, hfirst.counted.1, ih, ← UInt64.ofNat_add, ← List.countP_append,
      List.singleton_append]

theorem sourceEntries_tally
    (h : List.Forall₂ (Becomes source engine target world) entries images) :
    (tally entries images).sourceEntries = .ofNat entries.length := by
  induction h with
  | nil => rfl
  | @cons entry image rest others hfirst _ ih =>
    rw [tally_cons, sourceEntries_plus, hfirst.counted.2, ih, List.length_cons, Nat.add_comm,
      UInt64.ofNat_add]
    rfl

/-- No class is counted as changed where none is. -/
theorem changedClasses_tally_eq_zero (h : ∀ image ∈ images, image.changed? ≠ some true) :
    (tally entries images).changedClasses = 0 := by
  have hcount : images.countP (·.changed? = some true) = 0 :=
    List.countP_eq_zero.mpr (by simpa using h)
  rw [tally, hcount]
  rfl

/-- As long as the words hold the counts, no class is changed where none is counted as changed. -/
theorem changed?_ne_of_changedClasses_eq_zero (hlength : images.length < UInt64.size)
    (h : (tally entries images).changedClasses = 0) :
    ∀ image ∈ images, image.changed? ≠ some true := by
  have hcount : images.countP (·.changed? = some true) < UInt64.size :=
    Nat.lt_of_le_of_lt List.countP_le_length hlength
  have hzero : images.countP (·.changed? = some true) = 0 := by
    have hword := congrArg UInt64.toNat h
    rwa [tally, UInt64.toNat_ofNat_of_lt' hcount] at hword
  simpa using List.countP_eq_zero.mp hzero

end Counts

section Step

variable {source : Archive} {plan : WalkPlan} {entry : ArchiveEntry} {image : Image}
  {s : Session MemoryTree}

theorem write_of_ok {stage : Session MemoryTree → Stage} {act : EStateM Fault MemoryTree Unit}
    {dest : MemoryTree} (h : act s.dest = .ok () dest) :
    write stage act s = .ok () { s with dest := dest } := by
  simp only [write, h]

theorem readEntry_of_ok {path : EntryPath} {bytes : Bytes}
    (h : source.read s.world.disk.files path = .ok (some bytes)) :
    readEntry source path s = .ok bytes s := by
  simp only [readEntry, look, entryBytes, h]

theorem copyEntry_of_ok {path : EntryPath} {bytes : Bytes}
    (h : source.read s.world.disk.files path = .ok (some bytes)) (hnew : path ∉ s.dest.paths)
    (hopen : s.dest.finished = false) :
    copyEntry source path s = .ok () { s with dest := s.dest.extend [(path, .file bytes)] } := by
  have hwrite := MemoryTree.writeFile_of_not_mem hnew hopen bytes
  exact bind_eq_ok.mpr ⟨bytes, s, readEntry_of_ok h, write_of_ok hwrite⟩

/-- A class that the engine answers for is transformed as it says. -/
theorem transformJob_of_answer (hengine : ∀ request, (plan.engine request).LeavesFiles)
    {name : ClassName} {bytes : Bytes} {output : TransformOutput}
    (hread : source.read s.world.disk.files entry.path = .ok (some bytes))
    (hanswer : ((plan.engine ⟨name, bytes, plan.target⟩).run s.world).1 = .ok output) :
    ∃ later : World, later.settled = s.world.settled ∧
      transformJob source plan ⟨entry.path, name⟩ s = .ok (transformedBy bytes output)
        { s with world := later, required := s.required.insertAll output.dependencies.names } := by
  apply transformJob_eq_ok hengine
  have hbytes : entryBytes source s.world.disk.files entry.path = .ok bytes := by
    simp only [entryBytes, hread]
  have hsettled := congrArg Prod.fst
    (Dialogue.run_settled (hengine ⟨name, bytes, plan.target⟩) s.world)
  simp only [attempt, World.disk_settled, hbytes, hsettled, hanswer]

/-- An entry that has an image adds it. -/
theorem takeEntry_of_becomes (hengine : ∀ request, (plan.engine request).LeavesFiles)
    (hopen : s.dest.finished = false) (hnew : entry.path ∉ s.dest.paths)
    (h : Becomes source plan.engine plan.target s.world entry image) (counts : EntryCounts) :
    ∃ later : World, later.settled = s.world.settled ∧
      takeEntry source (transformJob source plan) counts entry s =
        .ok (plus counts (tally [entry] [image]))
          ⟨later, s.required.insertAll image.needs, s.dest.extend [(entry.path, image.node)]⟩ := by
  cases h with
  | directory role =>
    have hcreate := MemoryTree.createDirectory_of_not_mem hnew hopen
    have hcount : plus counts (tally [entry] [{ node := .directory }]) =
        { counts with directories := counts.directories + 1 } := by simp [tally, plus, role]
    refine ⟨s.world, rfl, ?_⟩
    rw [takeEntry, role, hcount]
    exact bind_eq_ok.mpr ⟨(), _, write_of_ok hcreate, rfl⟩
  | @copy role bytes read =>
    have hcopy := copyEntry_of_ok read hnew hopen
    refine ⟨s.world, rfl, ?_⟩
    rcases role with role | role
    · have hcount : plus counts (tally [entry] [{ node := .file bytes }]) =
          { counts with resources := counts.resources + 1 } := by simp [tally, plus, role]
      rw [takeEntry, role, hcount]
      exact bind_eq_ok.mpr ⟨(), _, hcopy, rfl⟩
    · have hcount : plus counts (tally [entry] [{ node := .file bytes }]) =
          { counts with overlayClasses := counts.overlayClasses + 1 } := by simp [tally, plus, role]
      rw [takeEntry, role, hcount]
      exact bind_eq_ok.mpr ⟨(), _, hcopy, rfl⟩
  | @unchanged name role bytes read needs answer =>
    obtain ⟨later, hsettled, hjob⟩ := transformJob_of_answer hengine read answer
    have hwrite := MemoryTree.writeFile_of_not_mem hnew hopen bytes
    have hcount : plus counts (tally [entry] [⟨.file bytes, some false, needs.names⟩]) =
        countClass counts false := by simp [tally, plus, role, countClass]
    refine ⟨later, hsettled, ?_⟩
    rw [takeEntry, role, hcount]
    exact bind_eq_ok.mpr ⟨_, _, hjob, bind_eq_ok.mpr ⟨(), _, write_of_ok hwrite, rfl⟩⟩
  | @changed name role bytes new read needs answer =>
    obtain ⟨later, hsettled, hjob⟩ := transformJob_of_answer hengine read answer
    have hwrite := MemoryTree.writeFile_of_not_mem hnew hopen new
    have hcount : plus counts (tally [entry] [⟨.file new, some true, needs.names⟩]) =
        countClass counts true := by simp [tally, plus, role, countClass]
    refine ⟨later, hsettled, ?_⟩
    rw [takeEntry, role, hcount]
    exact bind_eq_ok.mpr ⟨_, _, hjob, bind_eq_ok.mpr ⟨(), _, write_of_ok hwrite, rfl⟩⟩

theorem takeEntry_of_unread (hkind : entry.kind = .file) {fault : DowngradeError}
    (h : entryBytes source s.world.disk.files entry.path = .error fault) (counts : EntryCounts) :
    takeEntry source (transformJob source plan) counts entry s = .error fault s := by
  have hread : readEntry source entry.path s = .error fault s := by
    simp only [readEntry, look, h]
  have hcopy : copyEntry source entry.path s = .error fault s :=
    bind_eq_error.mpr (Or.inl hread)
  unfold takeEntry
  cases hrole : entry.role with
  | directory => simp [role_eq_directory_iff.mp hrole] at hkind
  | resource => exact bind_eq_error.mpr (Or.inl hcopy)
  | overlayClass => exact bind_eq_error.mpr (Or.inl hcopy)
  | classFile name => exact bind_eq_error.mpr (Or.inl (bind_eq_error.mpr (Or.inl hread)))

theorem takeEntry_of_refused (hengine : ∀ request, (plan.engine request).LeavesFiles)
    {name : ClassName} (hrole : entry.role = .classFile name) {bytes : Bytes} {reason : EngineError}
    (hread : source.read s.world.disk.files entry.path = .ok (some bytes))
    (hanswer : ((plan.engine ⟨name, bytes, plan.target⟩).run s.world).1 = .error reason)
    (counts : EntryCounts) :
    ∃ later : World, later.settled = s.world.settled ∧
      takeEntry source (transformJob source plan) counts entry s =
        .error (transformFault name reason) { s with world := later } := by
  have hbytes : entryBytes source s.world.disk.files entry.path = .ok bytes := by
    simp only [entryBytes, hread]
  have hsettled := congrArg Prod.fst
    (Dialogue.run_settled (hengine ⟨name, bytes, plan.target⟩) s.world)
  have hattempt : attempt source plan s.world.settled ⟨entry.path, name⟩ =
      .error (transformFault name reason) := by
    simp only [attempt, World.disk_settled, hbytes, hsettled, hanswer]
  obtain ⟨later, hlater, hjob⟩ := transformJob_eq_error hengine hattempt
  refine ⟨later, hlater, ?_⟩
  rw [takeEntry, hrole]
  exact bind_eq_error.mpr (Or.inl hjob)

/-- An entry that fails ends the walk with its reason, and nothing is written or recorded. -/
theorem takeEntry_of_fails (hengine : ∀ request, (plan.engine request).LeavesFiles)
    {fault : DowngradeError} (h : Fails source plan.engine plan.target s.world entry fault)
    (counts : EntryCounts) :
    ∃ later : World, later.settled = s.world.settled ∧
      takeEntry source (transformJob source plan) counts entry s =
        .error fault { s with world := later } := by
  cases h with
  | unreadable kind read =>
    exact ⟨s.world, rfl, takeEntry_of_unread kind (by simp only [entryBytes, read]) counts⟩
  | absent kind read =>
    exact ⟨s.world, rfl, takeEntry_of_unread kind (by simp only [entryBytes, read]) counts⟩
  | unresolved role read answer => exact takeEntry_of_refused hengine role read answer counts
  | refused role read answer => exact takeEntry_of_refused hengine role read answer counts

end Step

section Run

variable {source : Archive} {plan : WalkPlan} {entries : List ArchiveEntry} {images : List Image}
  {s s' : Session MemoryTree}

def written (entries : List ArchiveEntry) (images : List Image) : List (EntryPath × Node) :=
  List.zipWith (fun entry image => (entry.path, image.node)) entries images

theorem takeAll_append {W : Type} [Destination W] (classOf : ClassJob → Step W Transformed)
    (counts : EntryCounts) (entries rest : List ArchiveEntry) :
    takeAll source classOf counts (entries ++ rest) =
      takeAll source classOf counts entries >>= fun counts =>
        takeAll source classOf counts rest := by
  induction entries generalizing counts with
  | nil => simp [takeAll]
  | cons entry others ih => simp only [List.cons_append, takeAll, ih, bind_assoc]

/-- Entries that have images, at different paths that the tree lacks, are all taken over. -/
theorem takeAll_of_becomes (hengine : ∀ request, (plan.engine request).LeavesFiles)
    (hopen : s.dest.finished = false) (hnodup : (entries.map ArchiveEntry.path).Nodup)
    (hnew : ∀ entry ∈ entries, entry.path ∉ s.dest.paths)
    (h : List.Forall₂ (Becomes source plan.engine plan.target s.world) entries images)
    (counts : EntryCounts) :
    ∃ later : World, later.settled = s.world.settled ∧
      takeAll source (transformJob source plan) counts entries s =
        .ok (plus counts (tally entries images)) ⟨later,
          s.required.insertAll (images.flatMap Image.needs),
          s.dest.extend (written entries images)⟩ := by
  induction entries generalizing s counts images with
  | nil =>
    cases h
    exact ⟨s.world, rfl, by simp [takeAll, tally, written, plus_zero, NameSet.insertAll, pure,
      EStateM.pure]⟩
  | cons entry rest ih =>
    obtain ⟨hpath, hrest⟩ := List.nodup_cons.mp hnodup
    cases h with
    | @cons _ image _ others hfirst hothers =>
      obtain ⟨middle, hmiddle, hentry⟩ :=
        takeEntry_of_becomes hengine hopen (hnew entry (List.mem_cons_self ..)) hfirst counts
      have hlacks : ∀ other ∈ rest,
          other.path ∉ (s.dest.extend [(entry.path, image.node)]).paths := by
        intro other hother hmem
        rw [MemoryTree.paths_extend] at hmem
        rcases List.mem_append.mp hmem with hmem | hmem
        · exact hnew other (List.mem_cons_of_mem _ hother) hmem
        · have hsame : other.path = entry.path := by simpa using hmem
          exact hpath (hsame ▸ List.mem_map_of_mem hother)
      have hlater := hothers.imp fun _ _ h => h.of_settled hengine hmiddle
      obtain ⟨later, hsettled, hall⟩ := ih (s := ⟨middle, s.required.insertAll image.needs,
        s.dest.extend [(entry.path, image.node)]⟩) hopen hrest hlacks hlater
        (plus counts (tally [entry] [image]))
      refine ⟨later, hsettled.trans hmiddle, ?_⟩
      rw [takeAll]
      refine bind_eq_ok.mpr ⟨_, _, hentry, ?_⟩
      rw [hall, plus_assoc, ← tally_cons]
      simp [written, NameSet.insertAll]

/-- What is written for entries is listed as they are. -/
theorem list_written {engine : Engine} {target : UInt16} {world : World}
    (h : List.Forall₂ (Becomes source engine target world) entries images) :
    (written entries images).map (fun e => (⟨e.1, .ofNode e.2⟩ : ArchiveEntry)) = entries := by
  induction h with
  | nil => rfl
  | @cons entry image rest others hfirst _ ih =>
    rw [written, List.zipWith_cons_cons, List.map_cons, ← written, ih, hfirst.kind_eq]

/-- A session in which entries were taken over into a new tree, and nothing else was done. -/
structure TookImages (source : Archive) (plan : WalkPlan) (entries : List ArchiveEntry)
    (images : List Image) (s s' : Session MemoryTree) : Prop where
  becomes : List.Forall₂ (Becomes source plan.engine plan.target s.world) entries images
  list_eq : s'.dest.list = entries
  dest_eq : s'.dest = { s.dest with entries := written entries images }
  required : ∀ name, name ∈ s'.required.names ↔
    name ∈ s.required.names ∨ ∃ image ∈ images, name ∈ image.needs
  disk_eq : s'.world.disk = s.world.disk

theorem TookImages.of_settled (hempty : s.dest.entries = [])
    (h : List.Forall₂ (Becomes source plan.engine plan.target s.world) entries images)
    {later : World} (hsettled : later.settled = s.world.settled) :
    TookImages source plan entries images s ⟨later,
      s.required.insertAll (images.flatMap Image.needs),
      s.dest.extend (written entries images)⟩ := by
  have hdest : s.dest.extend (written entries images) =
      { s.dest with entries := written entries images } := by
    rw [MemoryTree.extend, hempty, List.nil_append]
  refine ⟨h, ?_, hdest, fun name => ?_, disk_eq_of_settled hsettled⟩
  · rw [hdest]
    exact list_written h
  · rw [NameSet.mem_insertAll, List.mem_flatMap, or_comm]

theorem run_eq_takeAll {W : Type} [Destination W] {s : Session W} (hjobs : plan.jobs ≤ 1)
    (hlist : source.list s.world.disk.files = .ok entries) :
    run source plan s = takeAll source (transformJob source plan) {} entries s := by
  rw [run_eq, hlist]
  simp only [Nat.not_lt.mpr hjobs, if_false, sequential]

/-- Where all entries have images, a walk takes them over. -/
theorem run_of_becomes (hengine : ∀ request, (plan.engine request).LeavesFiles)
    (hjobs : plan.jobs ≤ 1) (hempty : s.dest.entries = []) (hopen : s.dest.finished = false)
    (hlist : source.list s.world.disk.files = .ok entries)
    (hnodup : (entries.map ArchiveEntry.path).Nodup)
    (h : List.Forall₂ (Becomes source plan.engine plan.target s.world) entries images) :
    ∃ s', run source plan s = .ok (tally entries images) s' ∧
      TookImages source plan entries images s s' := by
  have hnew : ∀ entry ∈ entries, entry.path ∉ s.dest.paths := by
    simp [MemoryTree.paths, hempty]
  obtain ⟨later, hsettled, hall⟩ := takeAll_of_becomes hengine hopen hnodup hnew h {}
  rw [zero_plus] at hall
  exact ⟨_, (run_eq_takeAll hjobs hlist).trans hall, .of_settled hempty h hsettled⟩

/-- A walk takes over the entries before one that fails, and ends with its reason. -/
theorem run_of_fails (hengine : ∀ request, (plan.engine request).LeavesFiles)
    (hjobs : plan.jobs ≤ 1) (hempty : s.dest.entries = []) (hopen : s.dest.finished = false)
    {entry : ArchiveEntry} {after : List ArchiveEntry}
    (hlist : source.list s.world.disk.files = .ok (entries ++ entry :: after))
    (hnodup : ((entries ++ entry :: after).map ArchiveEntry.path).Nodup)
    (h : List.Forall₂ (Becomes source plan.engine plan.target s.world) entries images)
    {fault : DowngradeError} (hfails : Fails source plan.engine plan.target s.world entry fault) :
    ∃ s', run source plan s = .error fault s' ∧ TookImages source plan entries images s s' := by
  have hnew : ∀ entry ∈ entries, entry.path ∉ s.dest.paths := by
    simp [MemoryTree.paths, hempty]
  rw [List.map_append] at hnodup
  obtain ⟨middle, hmiddle, hbefore⟩ :=
    takeAll_of_becomes hengine hopen (List.Nodup.of_append_left hnodup) hnew h {}
  have hlater := hfails.of_settled hengine hmiddle
  obtain ⟨later, hsettled, hentry⟩ := takeEntry_of_fails (s := ⟨middle,
    s.required.insertAll (images.flatMap Image.needs), s.dest.extend (written entries images)⟩)
    hengine hlater (plus {} (tally entries images))
  refine ⟨_, ?_, .of_settled hempty h (hsettled.trans hmiddle)⟩
  rw [run_eq_takeAll hjobs hlist, takeAll_append]
  refine bind_eq_error.mpr (Or.inr ⟨_, _, hbefore, ?_⟩)
  rw [takeAll]
  exact bind_eq_error.mpr (Or.inl hentry)

/-- All entries have images, or there is a first one that fails. -/
theorem all_become_or_first_fails (source : Archive) (engine : Engine) (target : UInt16)
    (world : World) (entries : List ArchiveEntry) :
    (∃ images, List.Forall₂ (Becomes source engine target world) entries images) ∨
      ∃ before entry after images fault, entries = before ++ entry :: after ∧
        List.Forall₂ (Becomes source engine target world) before images ∧
        Fails source engine target world entry fault := by
  induction entries with
  | nil => exact Or.inl ⟨[], .nil⟩
  | cons first rest ih =>
    rcases becomes_or_fails source engine target world first with ⟨image, hfirst⟩ | ⟨fault, hfirst⟩
    · rcases ih with ⟨images, hrest⟩ | ⟨before, entry, after, images, fault, rfl, hbefore, hfails⟩
      · exact Or.inl ⟨image :: images, .cons hfirst hrest⟩
      · exact Or.inr ⟨first :: before, entry, after, image :: images, fault, rfl,
          .cons hfirst hbefore, hfails⟩
    · exact Or.inr ⟨[], first, rest, [], fault, rfl, .nil, hfirst⟩

theorem not_fails_of_forall₂ {engine : Engine} {target : UInt16} {world : World}
    (h : List.Forall₂ (Becomes source engine target world) entries images) :
    ∀ entry ∈ entries, ¬∃ fault, Fails source engine target world entry fault := by
  induction h with
  | nil => simp
  | cons hfirst _ ih =>
    intro entry hentry
    rcases List.mem_cons.mp hentry with rfl | hentry
    · exact hfirst.not_fails
    · exact ih entry hentry

structure Fresh (s : Session MemoryTree) : Prop where
  empty : s.dest.entries = []
  unfinished : s.dest.finished = false

/-- A walk, with however many jobs, ends well with these counts and this tree. -/
def Makes (source : Archive) (plan : WalkPlan) (s : Session MemoryTree) (counts : EntryCounts)
    (tree : MemoryTree) : Prop :=
  ∃ s', run source plan s = .ok counts s' ∧ s'.dest = tree

/-- The number of jobs makes no difference to what is made. -/
theorem makes_one_iff (hengine : ∀ request, (plan.engine request).LeavesFiles)
    (hschedule : ∀ jobs, (plan.schedule jobs).Perm jobs) {counts : EntryCounts}
    {tree : MemoryTree} :
    Makes source { plan with jobs := 1 } s counts tree ↔ Makes source plan s counts tree := by
  by_cases hjobs : 1 < plan.jobs
  · constructor
    · rintro ⟨t, hrun, hdest⟩
      obtain ⟨t', hrun', hdest', _⟩ :=
        (run_several_ok_iff hengine hjobs hschedule s counts tree t.required).mpr
          ⟨t, hrun, hdest, rfl⟩
      exact ⟨t', hrun', hdest'⟩
    · rintro ⟨t, hrun, hdest⟩
      obtain ⟨t', hrun', hdest', _⟩ :=
        (run_several_ok_iff hengine hjobs hschedule s counts tree t.required).mp
          ⟨t, hrun, hdest, rfl⟩
      exact ⟨t', hrun', hdest'⟩
  · have hsame : run source { plan with jobs := 1 } s = run source plan s := by
      rw [run_one_eq, run_eq]
      simp only [gt_iff_lt, hjobs, if_false]
    rw [Makes, hsame, Makes]

theorem makes_iff_of_one_job (plan : WalkPlan)
    (hengine : ∀ request, (plan.engine request).LeavesFiles) (hjobs : plan.jobs ≤ 1)
    (hfresh : Fresh s)
    (hlist : source.list s.world.disk.files = .ok entries)
    (hnodup : (entries.map ArchiveEntry.path).Nodup) {counts : EntryCounts} {tree : MemoryTree} :
    Makes source plan s counts tree ↔
      ∃ images, List.Forall₂ (Becomes source plan.engine plan.target s.world) entries images ∧
        counts = tally entries images ∧
        tree = { s.dest with entries := written entries images } := by
  constructor
  · rintro ⟨t, hrun, rfl⟩
    rcases all_become_or_first_fails source plan.engine plan.target s.world entries with
      ⟨images, hall⟩ | ⟨before, entry, after, images, fault, rfl, hbefore, hfails⟩
    · obtain ⟨t', hrun', htook⟩ :=
        run_of_becomes hengine hjobs hfresh.empty hfresh.unfinished hlist hnodup hall
      cases hrun'.symm.trans hrun
      exact ⟨images, hall, rfl, htook.dest_eq⟩
    · obtain ⟨t', hrun', _⟩ :=
        run_of_fails hengine hjobs hfresh.empty hfresh.unfinished hlist hnodup hbefore hfails
      cases hrun'.symm.trans hrun
  · rintro ⟨images, himages, rfl, rfl⟩
    obtain ⟨t, hrun, htook⟩ :=
      run_of_becomes hengine hjobs hfresh.empty hfresh.unfinished hlist hnodup himages
    exact ⟨t, hrun, htook.dest_eq⟩

/-- What is made of a listing of different paths is the images of all entries. -/
theorem makes_iff (hengine : ∀ request, (plan.engine request).LeavesFiles)
    (hschedule : ∀ jobs, (plan.schedule jobs).Perm jobs) (hfresh : Fresh s)
    (hlist : source.list s.world.disk.files = .ok entries)
    (hnodup : (entries.map ArchiveEntry.path).Nodup) {counts : EntryCounts} {tree : MemoryTree} :
    Makes source plan s counts tree ↔
      ∃ images, List.Forall₂ (Becomes source plan.engine plan.target s.world) entries images ∧
        counts = tally entries images ∧
        tree = { s.dest with entries := written entries images } := by
  rw [← makes_one_iff hengine hschedule]
  exact makes_iff_of_one_job { plan with jobs := 1 } hengine (Nat.le_refl 1) hfresh hlist hnodup

/-- A walk ends well exactly when every entry has an image. -/
theorem exists_makes_iff (hengine : ∀ request, (plan.engine request).LeavesFiles)
    (hschedule : ∀ jobs, (plan.schedule jobs).Perm jobs) (hfresh : Fresh s)
    (hlist : source.list s.world.disk.files = .ok entries)
    (hnodup : (entries.map ArchiveEntry.path).Nodup) :
    (∃ counts tree, Makes source plan s counts tree) ↔
      ∀ entry ∈ entries, ∃ image,
        Becomes source plan.engine plan.target s.world entry image := by
  simp only [makes_iff hengine hschedule hfresh hlist hnodup]
  constructor
  · rintro ⟨_, _, images, himages, _, _⟩ entry hentry
    obtain himage | ⟨fault, hfails⟩ :=
      becomes_or_fails source plan.engine plan.target s.world entry
    · exact himage
    · exact absurd ⟨fault, hfails⟩ (not_fails_of_forall₂ himages entry hentry)
  · intro hall
    rcases all_become_or_first_fails source plan.engine plan.target s.world entries with
      ⟨images, himages⟩ | ⟨before, entry, after, images, fault, rfl, _, hfails⟩
    · exact ⟨_, _, images, himages, rfl, rfl⟩
    · obtain ⟨image, himage⟩ := hall entry (by simp)
      exact absurd ⟨fault, hfails⟩ himage.not_fails

/-- A walk with one job into a new tree takes over the entries up to the first that fails. It
succeeds exactly when none does, and then the tree lists what the source lists, each entry with its
image, each entry is counted once under its role, and what the classes asked for is recorded beside
what was recorded before. Else it ends with the reason of the first entry that fails, and the tree
and the records are those of the entries before that one. -/
theorem walk_takes_over_until_failure (source : Archive) {plan : WalkPlan}
    (hengine : ∀ request, (plan.engine request).LeavesFiles) (hjobs : plan.jobs ≤ 1)
    {s : Session MemoryTree} (hempty : s.dest.entries = []) (hopen : s.dest.finished = false)
    {entries : List ArchiveEntry} (hlist : source.list s.world.disk.files = .ok entries)
    (hnodup : (entries.map ArchiveEntry.path).Nodup) :
    ((∃ counts s', run source plan s = .ok counts s') ↔
      ∀ entry ∈ entries, ¬∃ fault, Fails source plan.engine plan.target s.world entry fault) ∧
    (∀ counts s', run source plan s = .ok counts s' →
      ∃ images, TookImages source plan entries images s s' ∧ counts = tally entries images ∧
        counts.classes = .ofNat (entries.countP fun entry => (jobOf? entry).isSome) ∧
        counts.sourceEntries = .ofNat entries.length) ∧
    ∀ fault s', run source plan s = .error fault s' →
      ∃ before entry after images, entries = before ++ entry :: after ∧
        (∀ other ∈ before,
          ¬∃ fault, Fails source plan.engine plan.target s.world other fault) ∧
        Fails source plan.engine plan.target s.world entry fault ∧
        TookImages source plan before images s s' := by
  rcases all_become_or_first_fails source plan.engine plan.target s.world entries with
    ⟨images, hall⟩ | ⟨before, entry, after, images, reason, rfl, hbefore, hfails⟩
  · obtain ⟨t, hrun, htook⟩ := run_of_becomes hengine hjobs hempty hopen hlist hnodup hall
    refine ⟨iff_of_true ⟨_, t, hrun⟩ (not_fails_of_forall₂ hall), fun counts s' h => ?_,
      fun fault s' h => ?_⟩
    · cases hrun.symm.trans h
      exact ⟨images, htook, rfl, classes_tally hall, sourceEntries_tally hall⟩
    · cases hrun.symm.trans h
  · obtain ⟨t, hrun, htook⟩ := run_of_fails hengine hjobs hempty hopen hlist hnodup hbefore hfails
    refine ⟨iff_of_false ?_ fun h => h entry (by simp) ⟨reason, hfails⟩, fun counts s' h => ?_,
      fun fault s' h => ?_⟩
    · rintro ⟨counts, s', h⟩
      cases hrun.symm.trans h
    · cases hrun.symm.trans h
    · cases hrun.symm.trans h
      exact ⟨before, entry, after, images, rfl, not_fails_of_forall₂ hbefore, hfails, htook⟩

def refusedClass : ClassName := ⟨"d/B".toList, by decide, by decide, by decide⟩

def refusedSecond : MemoryTree :=
  ⟨"old".toList, [(⟨"d".toList⟩, .directory), (⟨"d/A.class".toList⟩, .file [1]),
    (⟨"d/B.class".toList⟩, .file [2]), (⟨"r".toList⟩, .file [3])], false⟩

def refusing : WalkPlan where
  engine request := .done <|
    if request.name = refusedClass then .error (.internal (.text "refused"))
    else .ok ⟨.changed (request.bytes ++ [0]), .ofList [refusedClass]⟩
  target := 52

theorem walk_takes_over_until_failure_refusedSecond :
    (∀ request, (refusing.engine request).LeavesFiles) ∧ refusing.jobs ≤ 1 ∧
      beginning.dest.entries = [] ∧ beginning.dest.finished = false ∧
      refusedSecond.archive.list beginning.world.disk.files = .ok refusedSecond.list ∧
      (refusedSecond.list.map ArchiveEntry.path).Nodup ∧
      ∃ fault s', run refusedSecond.archive refusing beginning = .error fault s' ∧
        ∃ before entry after images, refusedSecond.list = before ++ entry :: after ∧
          Fails refusedSecond.archive refusing.engine refusing.target beginning.world entry fault ∧
          TookImages refusedSecond.archive refusing before images beginning s' := by
  have hengine : ∀ request, (refusing.engine request).LeavesFiles := fun _ => trivial
  have hnodup : (refusedSecond.list.map ArchiveEntry.path).Nodup := by decide
  obtain ⟨hok, _, herror⟩ := walk_takes_over_until_failure refusedSecond.archive hengine
    (by decide) (s := beginning) rfl rfl rfl hnodup
  have hread : refusedSecond.archive.read beginning.world.disk.files ⟨"d/B.class".toList⟩ =
      .ok (some [2]) := rfl
  have hfails : Fails refusedSecond.archive refusing.engine refusing.target beginning.world
      ⟨⟨"d/B.class".toList⟩, .file⟩ (.transform refusedClass (.text "refused")) :=
    .refused (by decide) hread rfl
  refine ⟨hengine, by decide, rfl, rfl, rfl, hnodup, ?_⟩
  cases hrun : run refusedSecond.archive refusing beginning with
  | ok counts s' => exact absurd ⟨_, hfails⟩ (hok.mp ⟨counts, s', hrun⟩ _ (by decide))
  | error fault s' =>
    obtain ⟨before, entry, after, images, hsplit, _, hreason, htook⟩ := herror fault s' hrun
    exact ⟨fault, s', rfl, before, entry, after, images, hsplit, hreason, htook⟩

end Run

end Retarget.Walk

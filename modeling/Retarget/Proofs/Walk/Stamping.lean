import Retarget.Engine.Builtin
import Retarget.Proofs.ClassFile.Header
import Retarget.Proofs.Walk.Images
import Retarget.Zip.Image
import Retarget.ZipTree

/-!
Walks with the stamping engine. A tree of stamped classes is a function of the source's contents:
each class that has a header is lowered to the target, and all else is as it was. So stamping what
was stamped before is lowering twice, which is lowering once to the lower of the two targets.
-/
namespace Retarget

/-- A source holds the entries that it lists: they have different paths, and every file can be
read. -/
structure Archive.Holds (source : Archive) (fs : FileSystem) (entries : List ArchiveEntry) :
    Prop where
  list_eq : source.list fs = .ok entries
  nodup : (entries.map ArchiveEntry.path).Nodup
  read : ∀ entry ∈ entries, entry.kind = .file →
    ∃ bytes, source.read fs entry.path = .ok (some bytes)

/-- A file that can be read, and that has a header if it is a class. -/
def Archive.Sound (source : Archive) (fs : FileSystem) (entry : ArchiveEntry) : Prop :=
  entry.kind = .file → ∃ bytes, source.read fs entry.path = .ok (some bytes) ∧
    ∀ name, entry.role = .classFile name → ∃ version, ClassFile.version? bytes = some version

def Archive.content (source : Archive) (fs : FileSystem) (entry : ArchiveEntry) : Bytes :=
  match source.read fs entry.path with
  | .ok (some bytes) => bytes
  | _ => []

theorem Archive.content_of_read {source : Archive} {fs : FileSystem} {entry : ArchiveEntry}
    {bytes : Bytes} (h : source.read fs entry.path = .ok (some bytes)) :
    source.content fs entry = bytes := by
  rw [content, h]

theorem Archive.Holds.read_eq {source : Archive} {fs : FileSystem} {entries : List ArchiveEntry}
    (h : source.Holds fs entries) {entry : ArchiveEntry} (hentry : entry ∈ entries)
    (hkind : entry.kind = .file) :
    source.read fs entry.path = .ok (some (source.content fs entry)) := by
  obtain ⟨bytes, hread⟩ := h.read entry hentry hkind
  rw [content_of_read hread, hread]

/-- A tree in memory whose paths are different holds what it lists. -/
theorem MemoryTree.holds {tree : MemoryTree} (hnodup : tree.paths.Nodup) (fs : FileSystem) :
    tree.archive.Holds fs tree.list := by
  refine ⟨rfl, by rwa [map_path_list], fun entry hentry hkind => ?_⟩
  obtain ⟨⟨path, node⟩, hmem, rfl⟩ := List.mem_map.mp hentry
  cases node with
  | directory => cases hkind
  | file bytes => exact ⟨bytes, congrArg Except.ok (read_of_mem hnodup hmem)⟩

def WalkPlan.stamping (plan : WalkPlan) (target : UInt16) : WalkPlan :=
  { plan with engine := Engine.stamp, target := target }

namespace Walk

section Stamp

variable {source : Archive} {target : UInt16} {world : World} {entry : ArchiveEntry} {image : Image}

theorem run_stamp_of_version {name : ClassName} {bytes : Bytes} {version : ClassVersion}
    (h : ClassFile.version? bytes = some version) :
    ((Engine.stamp ⟨name, bytes, target⟩).run world).1 =
      .ok ⟨if version.major ≤ target then .unchanged else .changed (ClassFile.lowered target bytes),
        .empty⟩ := by
  obtain ⟨rest, rfl⟩ := ClassFile.version?_eq_some_iff.mp h
  simp only [Engine.stamp, Engine.ofVerdict, Engine.stampVerdict, Dialogue.run,
    ClassFile.version?_withHeader, ClassFile.setVersion?_withHeader, ClassFile.lowered_withHeader]
  by_cases hle : version.major ≤ target
  · simp only [hle, if_true]
  · simp only [hle, if_false, ClassVersion.lowered]

theorem run_stamp_of_none {name : ClassName} {bytes : Bytes}
    (h : ClassFile.version? bytes = none) :
    ((Engine.stamp ⟨name, bytes, target⟩).run world).1 =
      .error (.internal (.text (Engine.Refusal.notAClassFile name).message)) := by
  simp only [Engine.stamp, Engine.ofVerdict, Engine.stampVerdict, Dialogue.run, h]

def stampedNode (target : UInt16) (entry : ArchiveEntry) (bytes : Bytes) : Node :=
  match entry.role with
  | .directory => .directory
  | .resource | .overlayClass => .file bytes
  | .classFile _ => .file (ClassFile.lowered target bytes)

/-- A class that is stamped has a header; whether it was changed is read off its version. -/
theorem becomes_stamp_iff {name : ClassName} (hrole : entry.role = .classFile name) {bytes : Bytes}
    (hread : source.read world.disk.files entry.path = .ok (some bytes)) :
    Becomes source Engine.stamp target world entry image ↔
      ∃ version, ClassFile.version? bytes = some version ∧
        image = ⟨.file (ClassFile.lowered target bytes),
          some (decide (¬version.major ≤ target)), []⟩ := by
  rw [becomes_class_iff hrole hread]
  cases hversion : ClassFile.version? bytes with
  | none => simp [run_stamp_of_none hversion]
  | some version =>
    simp only [run_stamp_of_version hversion, Except.ok.injEq, exists_eq_left', Option.some.injEq]
    by_cases hle : version.major ≤ target
    · simp [hle, ClassFile.lowered_of_le hversion hle, TransformResult.final,
        TransformResult.isChanged, NameSet.empty]
    · simp [hle, TransformResult.final, TransformResult.isChanged, NameSet.empty]

/-- What stamping makes of an entry with these bytes, and whether it is a change. -/
def stampedImage (target : UInt16) (entry : ArchiveEntry) (bytes : Bytes) : Image where
  node := stampedNode target entry bytes
  changed? := match entry.role with
    | .classFile _ => (ClassFile.version? bytes).map fun version => decide (¬version.major ≤ target)
    | _ => none

/-- What becomes of an entry is a function of its bytes. -/
theorem eq_of_becomes_stamp (h : Becomes source Engine.stamp target world entry image) :
    image = stampedImage target entry (source.content world.disk.files entry) := by
  have hclass {name : ClassName} (role : entry.role = .classFile name) {bytes : Bytes}
      (read : source.read world.disk.files entry.path = .ok (some bytes)) :
      image = stampedImage target entry (source.content world.disk.files entry) := by
    obtain ⟨version, hversion, rfl⟩ := (becomes_stamp_iff role read).mp h
    simp [stampedImage, stampedNode, role, Archive.content_of_read read, hversion]
  cases h with
  | directory role => simp [stampedImage, stampedNode, role]
  | copy role read =>
    rcases role with role | role <;>
      simp [stampedImage, stampedNode, role, Archive.content_of_read read]
  | unchanged role read answer => exact hclass role read
  | changed role read answer => exact hclass role read

/-- Where a class is not above the target it is not changed. -/
theorem changed?_ne_of_le
    (hle : ∀ name version, entry.role = .classFile name →
      ClassFile.version? (source.content world.disk.files entry) = some version →
        version.major ≤ target)
    (h : Becomes source Engine.stamp target world entry image) : image.changed? ≠ some true := by
  rw [eq_of_becomes_stamp h, stampedImage]
  dsimp only
  split
  · next name hrole =>
    cases hversion : ClassFile.version? (source.content world.disk.files entry) with
    | none => simp
    | some version => simpa using hle name version hrole hversion
  · simp

/-- An entry can be stamped unless it is a file that cannot be read, or a class with no header. -/
theorem exists_becomes_stamp_iff :
    (∃ image, Becomes source Engine.stamp target world entry image) ↔
      source.Sound world.disk.files entry := by
  by_cases hrole : entry.role = .directory
  · refine iff_of_true ⟨_, .directory hrole⟩ fun hkind => ?_
    simp [role_eq_directory_iff.mp hrole] at hkind
  · have hkind := kind_eq_file hrole
    constructor
    · rintro ⟨image, h⟩ _
      obtain ⟨bytes, hread⟩ := h.exists_read hrole
      refine ⟨bytes, hread, fun name hname => ?_⟩
      obtain ⟨version, hversion, _⟩ := (becomes_stamp_iff hname hread).mp h
      exact ⟨version, hversion⟩
    · intro h
      obtain ⟨bytes, hread, hheader⟩ := h hkind
      cases hclass : entry.role with
      | directory => exact absurd hclass hrole
      | resource => exact ⟨_, .copy (Or.inl hclass) hread⟩
      | overlayClass => exact ⟨_, .copy (Or.inr hclass) hread⟩
      | classFile name =>
        obtain ⟨version, hversion⟩ := hheader name hclass
        exact ⟨_, (becomes_stamp_iff hclass hread).mpr ⟨version, hversion, rfl⟩⟩

end Stamp

section Entries

variable {source : Archive} {target : UInt16} {world : World} {entries : List ArchiveEntry}
  {images : List Image}

def stampedEntries (source : Archive) (fs : FileSystem) (target : UInt16)
    (entries : List ArchiveEntry) : List (EntryPath × Node) :=
  entries.map fun entry => (entry.path, stampedNode target entry (source.content fs entry))

theorem written_eq_stampedEntries
    (h : List.Forall₂ (Becomes source Engine.stamp target world) entries images) :
    written entries images = stampedEntries source world.disk.files target entries := by
  induction h with
  | nil => rfl
  | cons hfirst _ ih =>
    rw [written, List.zipWith_cons_cons, ← written, ih, eq_of_becomes_stamp hfirst]
    rfl

end Entries

section Run

variable {source : Archive} {plan : WalkPlan} {target : UInt16} {s : Session MemoryTree}
  {entries : List ArchiveEntry} {counts : EntryCounts} {tree : MemoryTree}

/-- A source that something was made of holds the entries that it lists. -/
theorem Makes.holds (h : Makes source plan s counts tree)
    (hengine : ∀ request, (plan.engine request).LeavesFiles)
    (hschedule : ∀ jobs, (plan.schedule jobs).Perm jobs) (hfresh : Fresh s)
    (hlist : source.list s.world.disk.files = .ok entries)
    (hnodup : (entries.map ArchiveEntry.path).Nodup) :
    source.Holds s.world.disk.files entries := by
  refine ⟨hlist, hnodup, fun entry hentry hkind => ?_⟩
  obtain ⟨image, himage⟩ :=
    (exists_makes_iff hengine hschedule hfresh hlist hnodup).mp ⟨counts, tree, h⟩ entry hentry
  exact himage.read_of_kind_eq hkind

/-- A tree that was made of a source holds the source's entries. -/
theorem holds_of_makes (hengine : ∀ request, (plan.engine request).LeavesFiles)
    (hschedule : ∀ jobs, (plan.schedule jobs).Perm jobs) (hfresh : Fresh s)
    (hholds : source.Holds s.world.disk.files entries) (h : Makes source plan s counts tree)
    (fs : FileSystem) : tree.list = entries ∧ tree.archive.Holds fs entries := by
  obtain ⟨images, himages, rfl, rfl⟩ :=
    (makes_iff hengine hschedule hfresh hholds.list_eq hholds.nodup).mp h
  have hlist : ({ s.dest with entries := written entries images } : MemoryTree).list = entries :=
    list_written himages
  have hnodup : ({ s.dest with entries := written entries images } : MemoryTree).paths.Nodup := by
    rw [← MemoryTree.map_path_list, hlist]
    exact hholds.nodup
  have hthere := MemoryTree.holds hnodup fs
  rw [hlist] at hthere
  exact ⟨hlist, hthere⟩

theorem leavesFiles_stamping (plan : WalkPlan) (target : UInt16) (request : TransformRequest) :
    ((plan.stamping target).engine request).LeavesFiles := trivial

/-- A walk that stamps ends well exactly when every file can be read and every class has a header,
whatever the target. -/
theorem exists_makes_stamping_iff (target : UInt16)
    (hschedule : ∀ jobs, (plan.schedule jobs).Perm jobs) (hfresh : Fresh s)
    (hlist : source.list s.world.disk.files = .ok entries)
    (hnodup : (entries.map ArchiveEntry.path).Nodup) :
    (∃ counts tree, Makes source (plan.stamping target) s counts tree) ↔
      ∀ entry ∈ entries, source.Sound s.world.disk.files entry := by
  rw [exists_makes_iff (leavesFiles_stamping plan target) hschedule hfresh hlist hnodup]
  exact forall₂_congr fun entry _ => exists_becomes_stamp_iff

/-- A stamped tree is a function of what the source holds. -/
theorem entries_of_makes_stamping (hschedule : ∀ jobs, (plan.schedule jobs).Perm jobs)
    (hfresh : Fresh s) (hholds : source.Holds s.world.disk.files entries)
    (h : Makes source (plan.stamping target) s counts tree) :
    tree.entries = stampedEntries source s.world.disk.files target entries := by
  obtain ⟨images, himages, rfl, rfl⟩ := (makes_iff (leavesFiles_stamping plan target) hschedule
    hfresh hholds.list_eq hholds.nodup).mp h
  exact written_eq_stampedEntries himages

/-- What a stamped tree has under an entry's path. -/
theorem node?_of_makes_stamping (hschedule : ∀ jobs, (plan.schedule jobs).Perm jobs)
    (hfresh : Fresh s) (hholds : source.Holds s.world.disk.files entries)
    (h : Makes source (plan.stamping target) s counts tree) {entry : ArchiveEntry}
    (hentry : entry ∈ entries) :
    tree.node? entry.path =
      some (stampedNode target entry (source.content s.world.disk.files entry)) := by
  have hentries := entries_of_makes_stamping hschedule hfresh hholds h
  obtain ⟨hlist, _⟩ := holds_of_makes (leavesFiles_stamping plan target) hschedule hfresh hholds h
    s.world.disk.files
  apply MemoryTree.node?_of_mem
  · rw [← MemoryTree.map_path_list, hlist]
    exact hholds.nodup
  · rw [hentries]
    exact List.mem_map_of_mem hentry

/-- The bytes of a stamped tree are those of the nodes that stamping makes. -/
theorem content_of_makes_stamping (hschedule : ∀ jobs, (plan.schedule jobs).Perm jobs)
    (hfresh : Fresh s) (hholds : source.Holds s.world.disk.files entries)
    (h : Makes source (plan.stamping target) s counts tree) {entry : ArchiveEntry}
    (hentry : entry ∈ entries) (fs : FileSystem) :
    tree.archive.content fs entry =
      ((stampedNode target entry (source.content s.world.disk.files entry)).content?).getD [] := by
  have hread : tree.archive.read fs entry.path =
      .ok (stampedNode target entry (source.content s.world.disk.files entry)).content? := by
    have hnode := node?_of_makes_stamping hschedule hfresh hholds h hentry
    exact congrArg Except.ok (by rw [MemoryTree.read, hnode]; rfl)
  rw [Archive.content, hread]
  cases (stampedNode target entry (source.content s.world.disk.files entry)).content? <;> rfl

theorem content_of_makes_stamping_class (hschedule : ∀ jobs, (plan.schedule jobs).Perm jobs)
    (hfresh : Fresh s) (hholds : source.Holds s.world.disk.files entries)
    (h : Makes source (plan.stamping target) s counts tree) {entry : ArchiveEntry}
    (hentry : entry ∈ entries) {name : ClassName} (hrole : entry.role = .classFile name)
    {fs : FileSystem} : tree.archive.content fs entry =
      ClassFile.lowered target (source.content s.world.disk.files entry) := by
  rw [content_of_makes_stamping hschedule hfresh hholds h hentry fs, stampedNode, hrole]
  rfl

/-- What was stamped is stamped again as if it were stamped once, to the lower of the two
targets. -/
theorem stampedNode_stampedNode (target target' : UInt16) (entry : ArchiveEntry) (bytes : Bytes) :
    stampedNode target' entry (((stampedNode target entry bytes).content?).getD []) =
      stampedNode (min target target') entry bytes := by
  unfold stampedNode
  cases entry.role with
  | directory => rfl
  | resource => rfl
  | overlayClass => rfl
  | classFile name => exact congrArg Node.file (ClassFile.lowered_lowered target target' bytes)

theorem stampedEntries_of_makes_stamping (hschedule : ∀ jobs, (plan.schedule jobs).Perm jobs)
    (hfresh : Fresh s) (hholds : source.Holds s.world.disk.files entries)
    (h : Makes source (plan.stamping target) s counts tree) (target' : UInt16) (fs : FileSystem) :
    stampedEntries tree.archive fs target' entries =
      stampedEntries source s.world.disk.files (min target target') entries := by
  refine List.map_congr_left fun entry hentry => ?_
  rw [content_of_makes_stamping hschedule hfresh hholds h hentry fs, stampedNode_stampedNode]

/-- What is read of a stamped tree is sound. -/
theorem sound_of_makes_stamping (hschedule : ∀ jobs, (plan.schedule jobs).Perm jobs)
    (hfresh : Fresh s) (hholds : source.Holds s.world.disk.files entries)
    (h : Makes source (plan.stamping target) s counts tree) {entry : ArchiveEntry}
    (hentry : entry ∈ entries) (fs : FileSystem) : tree.archive.Sound fs entry := by
  obtain ⟨_, hheld⟩ :=
    holds_of_makes (leavesFiles_stamping plan target) hschedule hfresh hholds h fs
  intro hkind
  refine ⟨_, hheld.read_eq hentry hkind, fun name hrole => ?_⟩
  obtain ⟨bytes, hread, hheader⟩ :=
    (exists_makes_stamping_iff target hschedule hfresh hholds.list_eq hholds.nodup).mp
      ⟨counts, tree, h⟩ entry hentry hkind
  obtain ⟨version, hversion⟩ := hheader name hrole
  refine ⟨version.lowered target, ?_⟩
  rw [content_of_makes_stamping_class hschedule hfresh hholds h hentry hrole,
    Archive.content_of_read hread, ClassFile.version?_lowered, hversion, Option.map_some]

/-- A tree that was stamped has no class that is changed by stamping it to the same target or to a
higher one. -/
theorem changedClasses_of_makes_stamping (hschedule : ∀ jobs, (plan.schedule jobs).Perm jobs)
    (hfresh : Fresh s) (hholds : source.Holds s.world.disk.files entries)
    (h : Makes source (plan.stamping target) s counts tree) {target' : UInt16}
    (hle : target ≤ target') {later : Session MemoryTree} (hlater : Fresh later)
    {counts' : EntryCounts} {tree' : MemoryTree}
    (h' : Makes tree.archive (plan.stamping target') later counts' tree') :
    counts'.changedClasses = 0 := by
  obtain ⟨_, hheld⟩ := holds_of_makes (leavesFiles_stamping plan target) hschedule hfresh hholds h
    later.world.disk.files
  obtain ⟨images, himages, rfl, rfl⟩ := (makes_iff (leavesFiles_stamping plan target') hschedule
    hlater hheld.list_eq hheld.nodup).mp h'
  refine changedClasses_tally_eq_zero fun image himage => ?_
  obtain ⟨entry, hentry, hbecomes⟩ := exists_of_mem_left himages.flip himage
  refine changed?_ne_of_le (fun name version hrole hversion => ?_) hbecomes
  rw [content_of_makes_stamping_class hschedule hfresh hholds h hentry hrole,
    ClassFile.version?_lowered] at hversion
  obtain ⟨version', _, rfl⟩ := Option.map_eq_some_iff.mp hversion
  exact UInt16.le_trans (version'.major_lowered_le target) hle

/-- What a stamped tree has under an entry's path. A class there has a version that is not above the
target; a class whose version was not above it either keeps all its bytes, and any other differs
from its bytes in the version only. -/
def StampedFrom (source : Archive) (fs : FileSystem) (target : UInt16) (tree : MemoryTree)
    (entry : ArchiveEntry) : Prop :=
  match entry.role with
  | .directory => tree.node? entry.path = some .directory
  | .resource | .overlayClass =>
    ∃ bytes, source.read fs entry.path = .ok (some bytes) ∧
      tree.node? entry.path = some (.file bytes)
  | .classFile _ =>
    ∃ bytes version new version', source.read fs entry.path = .ok (some bytes) ∧
      ClassFile.version? bytes = some version ∧ tree.node? entry.path = some (.file new) ∧
      ClassFile.version? new = some version' ∧ version'.major ≤ target ∧
      (version.major ≤ target → new = bytes) ∧
      (¬version.major ≤ target → version' = ⟨target, 0⟩ ∧ new.length = bytes.length ∧
        ∀ i, i < 4 ∨ 8 ≤ i → new[i]? = bytes[i]?)

theorem stampedFrom_of_makes_stamping (hschedule : ∀ jobs, (plan.schedule jobs).Perm jobs)
    (hfresh : Fresh s) (hholds : source.Holds s.world.disk.files entries)
    (h : Makes source (plan.stamping target) s counts tree) {entry : ArchiveEntry}
    (hentry : entry ∈ entries) : StampedFrom source s.world.disk.files target tree entry := by
  have hnode := node?_of_makes_stamping hschedule hfresh hholds h hentry
  have hsound :=
    (exists_makes_stamping_iff target hschedule hfresh hholds.list_eq hholds.nodup).mp
      ⟨counts, tree, h⟩ entry hentry
  unfold StampedFrom
  unfold stampedNode at hnode
  cases hrole : entry.role with
  | directory => simpa only [hrole] using hnode
  | resource =>
    have hread := hholds.read_eq hentry (kind_eq_file (by simp [hrole]))
    simp only [hrole] at hnode
    exact ⟨_, hread, hnode⟩
  | overlayClass =>
    have hread := hholds.read_eq hentry (kind_eq_file (by simp [hrole]))
    simp only [hrole] at hnode
    exact ⟨_, hread, hnode⟩
  | classFile name =>
    obtain ⟨bytes, hread, hheader⟩ := hsound (kind_eq_file (by simp [hrole]))
    obtain ⟨version, hversion⟩ := hheader name hrole
    simp only [hrole, Archive.content_of_read hread] at hnode
    refine ⟨bytes, version, _, version.lowered target, hread, hversion, hnode, ?_,
      version.major_lowered_le target, ClassFile.lowered_of_le hversion, fun habove => ?_⟩
    · rw [ClassFile.version?_lowered, hversion, Option.map_some]
    · exact ⟨if_neg habove, (ClassFile.lowered_of_not_le hversion habove).2⟩

/-- Stamping composes as a minimum. A walk that stamps ends well exactly when every file can be read
and every class has a header, so that the target does not matter. Its tree has the source's paths,
kinds and order, and each entry is the source's or a class with another version. To stamp that tree
again gives what stamping the source once to the lower of the two targets gives; if the later target
is not the lower one, that is the tree itself and no class is changed. -/
theorem stamping_twice_is_stamping_once (source : Archive) {plan : WalkPlan}
    (hschedule : ∀ jobs, (plan.schedule jobs).Perm jobs) {s : Session MemoryTree} (hfresh : Fresh s)
    {entries : List ArchiveEntry} (hlist : source.list s.world.disk.files = .ok entries)
    (hnodup : (entries.map ArchiveEntry.path).Nodup) (target target' : UInt16) :
    ((∃ counts tree, Makes source (plan.stamping target) s counts tree) ↔
      ∃ counts tree, Makes source (plan.stamping target') s counts tree) ∧
    ((∃ counts tree, Makes source (plan.stamping target) s counts tree) ↔
      ∀ entry ∈ entries, source.Sound s.world.disk.files entry) ∧
    ∀ counts tree, Makes source (plan.stamping target) s counts tree →
      tree.list = entries ∧
      (∀ entry ∈ entries, StampedFrom source s.world.disk.files target tree entry) ∧
      ∀ later, Fresh later → ∃ counts' twice counts₁ once,
        Makes tree.archive (plan.stamping target') later counts' twice ∧
        Makes source (plan.stamping (min target target')) s counts₁ once ∧
        twice.entries = once.entries ∧
        (target ≤ target' → twice.entries = tree.entries ∧ counts'.changedClasses = 0) := by
  have hany (target : UInt16) :=
    exists_makes_stamping_iff target hschedule hfresh hlist hnodup
  refine ⟨(hany target).trans (hany target').symm, hany target, fun counts tree h => ?_⟩
  have hholds := h.holds (leavesFiles_stamping plan target) hschedule hfresh hlist hnodup
  have hkeeps := holds_of_makes (leavesFiles_stamping plan target) hschedule hfresh hholds h
  refine ⟨(hkeeps s.world.disk.files).1,
    fun entry hentry => stampedFrom_of_makes_stamping hschedule hfresh hholds h hentry,
    fun later hlater => ?_⟩
  have hheld := (hkeeps later.world.disk.files).2
  obtain ⟨counts₁, once, honce⟩ := (hany (min target target')).mpr ((hany target).mp ⟨_, _, h⟩)
  have honce_entries := entries_of_makes_stamping hschedule hfresh hholds honce
  -- The second walk is one over what the first made, where every class still has a header.
  obtain ⟨counts', twice, htwice⟩ := (exists_makes_stamping_iff target' hschedule hlater
    hheld.list_eq hheld.nodup).mpr fun entry hentry =>
      sound_of_makes_stamping hschedule hfresh hholds h hentry later.world.disk.files
  have htwice_entries := entries_of_makes_stamping hschedule hlater hheld htwice
  rw [stampedEntries_of_makes_stamping hschedule hfresh hholds h] at htwice_entries
  refine ⟨counts', twice, counts₁, once, htwice, honce, htwice_entries.trans honce_entries.symm,
    fun hle => ⟨?_, ?_⟩⟩
  · have hmin : min target target' = target := if_pos hle
    rw [htwice_entries, hmin, entries_of_makes_stamping hschedule hfresh hholds h]
  · exact changedClasses_of_makes_stamping hschedule hfresh hholds h hle hlater htwice

def threeVersions : MemoryTree :=
  ⟨"old".toList, [(⟨"A.class".toList⟩, .file (ClassFile.withHeader ⟨61, 1⟩ [7])),
    (⟨"B.class".toList⟩, .file (ClassFile.withHeader ⟨53, 2⟩ [8])),
    (⟨"C.class".toList⟩, .file (ClassFile.withHeader ⟨50, 3⟩ [9])),
    (⟨"META-INF/versions/17/A.class".toList⟩, .file (ClassFile.withHeader ⟨61, 1⟩ [7])),
    (⟨"r".toList⟩, .file [1])], false⟩

def threeVersionsStamped : List (EntryPath × Node) :=
  [(⟨"A.class".toList⟩, .file (ClassFile.withHeader ⟨52, 0⟩ [7])),
    (⟨"B.class".toList⟩, .file (ClassFile.withHeader ⟨52, 0⟩ [8])),
    (⟨"C.class".toList⟩, .file (ClassFile.withHeader ⟨50, 3⟩ [9])),
    (⟨"META-INF/versions/17/A.class".toList⟩, .file (ClassFile.withHeader ⟨61, 1⟩ [7])),
    (⟨"r".toList⟩, .file [1])]

theorem sound_threeVersions (fs : FileSystem) :
    ∀ entry ∈ threeVersions.list, threeVersions.archive.Sound fs entry := by
  intro entry hentry _
  simp only [MemoryTree.list, threeVersions, List.map_cons, List.map_nil, List.mem_cons,
    List.not_mem_nil, or_false] at hentry
  rcases hentry with rfl | rfl | rfl | rfl | rfl
  · exact ⟨_, rfl, fun _ _ => ⟨_, ClassFile.version?_withHeader _ _⟩⟩
  · exact ⟨_, rfl, fun _ _ => ⟨_, ClassFile.version?_withHeader _ _⟩⟩
  · exact ⟨_, rfl, fun _ _ => ⟨_, ClassFile.version?_withHeader _ _⟩⟩
  · exact ⟨_, rfl, fun _ _ => ⟨_, ClassFile.version?_withHeader _ _⟩⟩
  · exact ⟨_, rfl, fun _ hrole => by cases hrole⟩

/-- Stamped to 55 and then to 52, by two jobs that take the classes up backwards. -/
theorem stamping_twice_is_stamping_once_threeVersions :
    (∀ jobs, (backwards.schedule jobs).Perm jobs) ∧ Fresh beginning ∧
      threeVersions.archive.list beginning.world.disk.files = .ok threeVersions.list ∧
      (threeVersions.list.map ArchiveEntry.path).Nodup ∧
      ∃ counts tree counts' twice,
        Makes threeVersions.archive (backwards.stamping 55) beginning counts tree ∧
        Makes tree.archive (backwards.stamping 52) beginning counts' twice ∧
        twice.entries = threeVersionsStamped := by
  have hschedule : ∀ jobs, (backwards.schedule jobs).Perm jobs := List.reverse_perm
  have hfresh : Fresh beginning := ⟨rfl, rfl⟩
  have hnodup : (threeVersions.list.map ArchiveEntry.path).Nodup := by decide
  refine ⟨hschedule, hfresh, rfl, hnodup, ?_⟩
  obtain ⟨_, hmade, hboth⟩ := stamping_twice_is_stamping_once threeVersions.archive hschedule hfresh
    rfl hnodup 55 52
  obtain ⟨counts, tree, h⟩ := hmade.mpr (sound_threeVersions _)
  obtain ⟨_, _, hlater⟩ := hboth counts tree h
  obtain ⟨counts', twice, _, once, htwice, honce, heq, _⟩ := hlater beginning hfresh
  refine ⟨counts, tree, counts', twice, h, htwice, heq.trans ?_⟩
  have hholds := honce.holds (leavesFiles_stamping backwards _) hschedule hfresh rfl hnodup
  rw [entries_of_makes_stamping hschedule hfresh hholds honce]
  decide +kernel

/-- A zip file with a class and with a resource that has not the checksum stated in its header. -/
def damagedResource : Bytes :=
  let content := ClassFile.withHeader ⟨52, 0⟩ [7]
  Zip.imageOfPacked
    [⟨Bytes.ofString "A.class", ⟨0, 0, 0, Zip.firstDay, 2693439423, content.length,
      content.length⟩, 0, content⟩,
    ⟨Bytes.ofString "r", ⟨0, 0, 0, Zip.firstDay, 0, 1, 1⟩, 0, [1]⟩]

def damagedTree : ZipTree :=
  ⟨.ofString "z.jar", damagedResource,
    [(⟨"A.class".toList⟩, ⟨"A.class".toList, false, 0, 2693439423, 9, 9, 0⟩),
      (⟨['r']⟩, ⟨['r'], false, 0, 0, 1, 1, 46⟩)]⟩

theorem members?_damagedResource :
    Zip.members? damagedResource = some (damagedTree.entries.map Prod.snd) := by decide +kernel

theorem open_damagedResource :
    ZipTree.open ⟨[], [(["z.jar".toList], .file damagedResource)]⟩ (.ofString "z.jar") =
      .ok damagedTree := by
  show ZipTree.ofImage (.ofString "z.jar") damagedResource = .ok damagedTree
  rw [ZipTree.ofImage, members?_damagedResource]
  rfl

/-- The class of the damaged archive can be read, and its resource cannot. -/
theorem read_damagedTree (fs : FileSystem) :
    damagedTree.archive.read fs ⟨"A.class".toList⟩ =
        .ok (some (ClassFile.withHeader ⟨52, 0⟩ [7])) ∧
      damagedTree.archive.read fs ⟨['r']⟩ =
        .error (ZipTree.ReadError.damaged ⟨['r']⟩ (.ofString "z.jar")).fault := by
  have hclass : damagedTree.read ⟨"A.class".toList⟩ =
      .ok (some (ClassFile.withHeader ⟨52, 0⟩ [7])) := by decide +kernel
  have hresource : damagedTree.read ⟨['r']⟩ = .error (.damaged ⟨['r']⟩ (.ofString "z.jar")) := by
    decide +kernel
  have hread (path : EntryPath) : damagedTree.archive.read fs path =
      (damagedTree.read path).mapError ZipTree.ReadError.fault := rfl
  rw [hread, hread, hclass, hresource]
  exact ⟨rfl, rfl⟩

/-- That every class has a header is not enough for a walk to end well: a resource that cannot be
read ends it. -/
theorem damaged_resource_stops_stamping :
    ¬∀ (fs : FileSystem) (path : Path) (zip : ZipTree) (plan : WalkPlan) (s : Session MemoryTree)
        (target : UInt16),
      ZipTree.open fs path = .ok zip → (∀ jobs, (plan.schedule jobs).Perm jobs) → Fresh s →
      ((∃ counts tree, Makes zip.archive (plan.stamping target) s counts tree) ↔
        ∀ entry ∈ zip.list, ∀ name, entry.role = .classFile name → ∃ bytes version,
          zip.archive.read s.world.disk.files entry.path = .ok (some bytes) ∧
            ClassFile.version? bytes = some version) := by
  intro hheaders
  have hschedule : ∀ jobs, (backwards.schedule jobs).Perm jobs := List.reverse_perm
  have hfresh : Fresh beginning := ⟨rfl, rfl⟩
  have hnodup : (damagedTree.list.map ArchiveEntry.path).Nodup := by decide
  have hlisted : damagedTree.list = [⟨⟨"A.class".toList⟩, .file⟩, ⟨⟨['r']⟩, .file⟩] := by decide
  obtain ⟨hclass, hresource⟩ := read_damagedTree beginning.world.disk.files
  have hmade := (hheaders _ _ damagedTree backwards beginning 52 open_damagedResource hschedule
    hfresh).mpr fun entry hentry name hrole => by
      simp only [hlisted, List.mem_cons, List.not_mem_nil, or_false] at hentry
      rcases hentry with rfl | rfl
      · exact ⟨_, _, hclass, ClassFile.version?_withHeader _ _⟩
      · cases hrole
  have hsound := (exists_makes_stamping_iff 52 hschedule hfresh rfl hnodup).mp hmade
  obtain ⟨bytes, hread, -⟩ := hsound ⟨⟨['r']⟩, .file⟩ (by simp [hlisted]) rfl
  cases hresource.symm.trans hread

end Run

end Walk

end Retarget

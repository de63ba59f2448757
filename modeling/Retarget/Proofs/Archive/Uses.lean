import Mathlib.Data.List.Perm.Basic
import Retarget.Proofs.ClassSurvey.Agreement
import Retarget.Proofs.FileSystem.Places
import Retarget.Support.Catalog

/-!
What archives are asked for. Whoever opens a path looks classes up by reading one path each, and a
survey reads the path of each class that is listed, so what is read decides all that is answered. A
survey counts into two histograms and names what is malformed; the order in which entries are listed
shows in nothing but the order of those names.
-/
namespace Retarget

variable {fs fs' : FileSystem} {path : Path} {archive : Archive}

theorem openTree_of_isDirectory (h : fs.isDirectory path = true) :
    openTree fs path = .ok (Folder.archive ⟨path⟩) := if_pos h

theorem openTree_of_readFile {image : Bytes} (h : fs.readFile path = .ok image) :
    openTree fs path = (ZipTree.open fs path).map ZipTree.archive := by
  obtain ⟨place, hleads, hnode⟩ := FileSystem.readFile_eq_ok_iff.mp h
  apply if_neg
  rw [FileSystem.isDirectory, hleads.stat, hnode]
  exact Bool.false_ne_true

/-- What a name is answered by those who open a path for it, and by a root that opened it before:
a root of the classpath, then and from then on, and a catalog. -/
def answersAt (path : Path) (name : ClassName) (opening asking : FileSystem) :
    List (Except Fault (Option Bytes)) :=
  [((Root.ofPath path).find opening name).1,
    (((Root.ofPath path).ensureOpened opening).find asking name).1,
    (Catalog.openAt opening path).bind fun archive => (Catalog.ofArchive archive).lookup asking name]

/-- They all answer what is read from the archive that was opened. -/
theorem answersAt_of_openTree (h : openTree fs path = .ok archive) (name : ClassName) :
    answersAt path name fs fs' = [archive.read fs (.ofClass name),
      archive.read fs' (.ofClass name), archive.read fs' (.ofClass name)] := by
  simp only [answersAt, Root.find, Root.ofPath, Root.ensureOpened, Root.openPath, h, Root.answer,
    Catalog.openAt, Except.bind, Catalog.ofArchive]

def Archive.contentAt (source : Archive) (fs : FileSystem) (path : EntryPath) : Option Bytes :=
  (source.read fs path).toOption.join

theorem Archive.contentAt_of_read {source : Archive} {path : EntryPath} {found : Option Bytes}
    (h : source.read fs path = .ok found) : source.contentAt fs path = found := by
  rw [contentAt, h]
  rfl

namespace Histogram

/-- Which of two versions is counted first does not matter. -/
theorem add_right_comm (h : Histogram) (v w : UInt16) : (h.add v).add w = (h.add w).add v := by
  induction h with
  | nil => grind [add]
  | cons first rest ih => grind [add]

end Histogram

namespace ClassSurvey

variable {entries entries' : List ArchiveEntry} (content : EntryPath → Option Bytes)

def classVersion? (entry : ArchiveEntry) : Option UInt16 :=
  match entry.role with
  | .classFile _ => (ClassFile.version? ((content entry.path).getD [])).map ClassVersion.major
  | _ => none

def overlayVersion? (entry : ArchiveEntry) : Option UInt16 :=
  match entry.role with
  | .overlayClass => (ClassFile.version? ((content entry.path).getD [])).map ClassVersion.major
  | _ => none

def malformed? (entry : ArchiveEntry) : Option EntryPath :=
  if isClass entry && (ClassFile.version? ((content entry.path).getD [])).isNone then
    some entry.path
  else none

/-- The entries counted one after the other, given what their paths contain. -/
def counted (entries : List ArchiveEntry) : ClassSurvey :=
  entries.foldl (fun s e => s.count e ((content e.path).getD [])) {}

theorem foldl_count (s : ClassSurvey) :
    entries.foldl (fun s e => s.count e ((content e.path).getD [])) s =
      { classes := (entries.filterMap (classVersion? content)).foldl (fun h v => h.add v) s.classes
        overlayClasses := (entries.filterMap (overlayVersion? content)).foldl
          (fun h v => h.add v) s.overlayClasses
        malformed := s.malformed ++ entries.filterMap (malformed? content) } := by
  induction entries generalizing s with
  | nil => simp
  | cons first rest ih =>
    rw [List.foldl_cons, ih]
    cases hrole : first.role <;>
      cases hversion : ClassFile.version? ((content first.path).getD []) <;>
        simp [count, classVersion?, overlayVersion?, malformed?, isClass, hrole, hversion]

/-- The same histograms, and the same malformed paths in whatever order. -/
structure SameCounts (s t : ClassSurvey) : Prop where
  classes_eq : s.classes = t.classes
  overlayClasses_eq : s.overlayClasses = t.overlayClasses
  malformed_perm : s.malformed.Perm t.malformed

/-- In whatever order entries are listed, as much is counted. -/
theorem sameCounts_of_perm (h : entries.Perm entries') :
    SameCounts (counted content entries) (counted content entries') := by
  have hcomm : RightCommutative fun (h : Histogram) (v : UInt16) => h.add v :=
    ⟨Histogram.add_right_comm⟩
  simp only [counted, foldl_count]
  refine ⟨?_, ?_, ?_⟩
  · exact (h.filterMap _).foldl_eq _
  · exact (h.filterMap _).foldl_eq _
  · exact (h.filterMap _).append_left _

variable {source : Archive} {survey : ClassSurvey} {content}

/-- Only what classes contain is counted. -/
theorem counted_congr {content' : EntryPath → Option Bytes}
    (h : ∀ entry ∈ entries, isClass entry = true → content' entry.path = content entry.path) :
    counted content' entries = counted content entries := by
  unfold counted
  apply List.foldl_ext
  intro s entry hentry
  cases hclass : isClass entry with
  | false => rw [count_of_not_isClass hclass, count_of_not_isClass hclass]
  | true => rw [h entry hentry hclass]

theorem countAll_eq_ok_iff (s : ClassSurvey) : countAll fs source s entries = .ok survey ↔
    (∀ entry ∈ entries, isClass entry = true → ∃ found, source.read fs entry.path = .ok found) ∧
      survey = entries.foldl (fun s e => s.count e ((source.contentAt fs e.path).getD [])) s := by
  induction entries generalizing s with
  | nil =>
    rw [countAll, List.foldl_nil, Except.ok.injEq]
    exact ⟨fun h => ⟨fun _ hmem => absurd hmem List.not_mem_nil, h.symm⟩, fun h => h.2.symm⟩
  | cons first rest ih =>
    rw [countAll, List.forall_mem_cons, List.foldl_cons]
    cases hclass : isClass first with
    | false =>
      rw [if_neg Bool.false_ne_true, ih, count_of_not_isClass hclass]
      simp
    | true =>
      rw [if_pos rfl]
      cases hread : source.read fs first.path with
      | error fault => simp
      | ok found => simp [ih, Archive.contentAt_of_read hread]

/-- A survey succeeds when every class that is listed can be read, and then counts what was read. -/
theorem ofArchive_eq_ok_iff (hlist : source.list fs = .ok entries) :
    ofArchive fs source = .ok survey ↔ ∃ content : EntryPath → Option Bytes,
      (∀ entry ∈ entries, isClass entry = true →
        source.read fs entry.path = .ok (content entry.path)) ∧
      survey = counted content entries := by
  simp only [ofArchive, hlist, countAll_eq_ok_iff]
  constructor
  · intro h
    obtain ⟨hread, hsurvey⟩ := h
    refine ⟨source.contentAt fs, ?_, hsurvey⟩
    intro entry hentry hclass
    obtain ⟨found, hfound⟩ := hread entry hentry hclass
    rw [Archive.contentAt_of_read hfound, hfound]
  · intro h
    obtain ⟨content, hread, hsurvey⟩ := h
    refine ⟨fun entry hentry hclass => ⟨_, hread entry hentry hclass⟩, ?_⟩
    rw [hsurvey]
    apply counted_congr
    intro entry hentry hclass
    exact (Archive.contentAt_of_read (hread entry hentry hclass)).symm

end ClassSurvey

end Retarget

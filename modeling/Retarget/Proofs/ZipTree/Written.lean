import Mathlib.Data.List.Nodup
import Retarget.Proofs.EntryPath.Normal
import Retarget.Proofs.FileSystem.Places
import Retarget.Proofs.Zip.RoundTrip
import Retarget.Proofs.ZipWriter.Entries
import Retarget.ZipTree

/-!
What was written to a zip file, found in it when it is opened. The paths of an opened file are
normal and all different. Entries written under such paths are listed as they were written, and each
is read back.
-/
namespace Retarget

open Zip

namespace ZipTree

variable {members : List Member} {entries : List (EntryPath × Member)}

def enter (entries : List (EntryPath × Member)) (member : Member) :
    Except EntryPathError (List (EntryPath × Member)) := do
  let path ← EntryPath.parse member.name
  return if entries.any (·.1 = path) then entries else entries ++ [(path, member)]

theorem enter_of_parse {kept : List (EntryPath × Member)} {member : Member} {path : EntryPath}
    (h : EntryPath.parse member.name = .ok path) :
    enter kept member =
      .ok (if kept.any (·.1 = path) then kept else kept ++ [(path, member)]) := by
  rw [enter, h]
  rfl

theorem any_path_iff {kept : List (EntryPath × Member)} {path : EntryPath} :
    kept.any (·.1 = path) = true ↔ path ∈ kept.map Prod.fst := by
  simp [List.any_eq_true, List.mem_map]

structure Indexed (entries : List (EntryPath × Member)) : Prop where
  nodup : (entries.map Prod.fst).Nodup
  normal : ∀ e ∈ entries, e.1.IsNormal

theorem Indexed.enter {kept : List (EntryPath × Member)} {member : Member} (hkept : Indexed kept)
    (h : enter kept member = .ok entries) : Indexed entries := by
  cases hparse : EntryPath.parse member.name with
  | error fault =>
    rw [ZipTree.enter, hparse] at h
    cases h
  | ok path =>
    rw [enter_of_parse hparse] at h
    split at h
    · cases h
      exact hkept
    · next hnew =>
      cases h
      rw [any_path_iff] at hnew
      refine ⟨?_, fun e he => ?_⟩
      · rw [List.map_append, List.map_singleton, ← List.concat_eq_append]
        exact hkept.nodup.concat hnew
      · rcases List.mem_append.mp he with he | he
        · exact hkept.normal e he
        · have he : e = (path, member) := by simpa using he
          rw [he]
          exact EntryPath.isNormal_of_parse hparse

/-- What holds before any member is entered, and goes on to hold when one more is, holds when all
are. -/
theorem index_induction {P : List Member → List (EntryPath × Member) → Prop} (hnil : P [] [])
    (hstep : ∀ done kept member next, P done kept → enter kept member = .ok next →
      P (done ++ [member]) next)
    (h : index members = .ok entries) : P members entries := by
  have hfold : ∀ done kept, P done kept → members.foldlM enter kept = .ok entries →
      P (done ++ members) entries := by
    clear h
    induction members with
    | nil =>
      intro done kept hkept h
      cases h
      rwa [List.append_nil]
    | cons member rest ih =>
      intro done kept hkept h
      rw [List.foldlM_cons] at h
      cases henter : enter kept member with
      | error fault =>
        rw [henter] at h
        cases h
      | ok next =>
        rw [henter] at h
        have hrest := ih (done ++ [member]) next (hstep done kept member next hkept henter) h
        rwa [List.append_assoc, List.singleton_append] at hrest
  exact hfold [] [] hnil h

theorem indexed_of_index (h : index members = .ok entries) : Indexed entries :=
  index_induction (P := fun _ kept => Indexed kept) ⟨by simp, by simp⟩
    (fun _ _ _ _ hkept henter => hkept.enter henter) h

/-- Members with different paths are all kept, in order. -/
theorem index_of_parse {paths : List EntryPath}
    (hparse : List.Forall₂ (fun member path => EntryPath.parse member.name = .ok path) members
      paths)
    (hnodup : paths.Nodup) : index members = .ok (paths.zip members) := by
  have hfold : ∀ kept : List (EntryPath × Member), (∀ path ∈ paths, path ∉ kept.map Prod.fst) →
      members.foldlM enter kept = .ok (kept ++ paths.zip members) := by
    induction hparse with
    | nil =>
      intro kept _
      simp
      rfl
    | @cons member path members paths hfirst _ ih =>
      intro kept hnew
      obtain ⟨hpath, hrest⟩ := List.nodup_cons.mp hnodup
      have hthere : ¬kept.any (·.1 = path) = true := fun hany =>
        hnew path (List.mem_cons_self ..) (any_path_iff.mp hany)
      have henter : enter kept member = .ok (kept ++ [(path, member)]) := by
        rw [enter_of_parse hfirst, if_neg hthere]
      have hlater : ∀ other ∈ paths, other ∉ (kept ++ [(path, member)]).map Prod.fst := by
        intro other hother hmem
        rw [List.map_append] at hmem
        rcases List.mem_append.mp hmem with hmem | hmem
        · exact hnew other (List.mem_cons_of_mem _ hother) hmem
        · have hsame : other = path := by simpa using hmem
          exact hpath (hsame ▸ hother)
      rw [List.foldlM_cons, henter]
      have hdone := ih hrest (kept ++ [(path, member)]) hlater
      rw [List.append_assoc] at hdone
      exact hdone
  exact hfold [] (by simp)

theorem map_path_list (tree : ZipTree) :
    tree.list.map ArchiveEntry.path = tree.entries.map Prod.fst := by
  simp [list]

/-- The archive in a file is the archive in its bytes. -/
theorem open_of_readFile {fs : FileSystem} {path : Path} {image : Bytes}
    (h : fs.readFile path = .ok image) : ZipTree.open fs path = ofImage path image := by
  obtain ⟨place, hleads, hnode⟩ := FileSystem.readFile_eq_ok_iff.mp h
  rw [ZipTree.open, hleads.stat, hnode]

theorem indexed_of_ofImage {path : Path} {image : Bytes} {tree : ZipTree}
    (h : ofImage path image = .ok tree) : Indexed tree.entries := by
  unfold ofImage at h
  split at h
  · cases h
  · split at h
    · cases h
    · next hindex =>
      cases h
      exact indexed_of_index hindex

/-- An opened file lists different, normal paths. -/
theorem indexed_of_open {fs : FileSystem} {path : Path} {tree : ZipTree}
    (h : ZipTree.open fs path = .ok tree) : Indexed tree.entries := by
  unfold ZipTree.open at h
  split at h
  · cases h
  · cases h
  · exact indexed_of_ofImage h

end ZipTree

namespace ZipWriter

variable {image : Bytes}

theorem parse_name_memberOf {e : EntryPath × Node} (h : e.1.IsNormal) :
    EntryPath.parse (memberOf e).name = .ok e.1 := by
  obtain ⟨path, _ | content⟩ := e
  · exact EntryPath.parse_append_slash h
  · exact EntryPath.parse_of_isNormal h

theorem kindOf_of_name {e : EntryPath × Node} (h : e.1.IsNormal) {member : Member}
    (hname : member.name = (memberOf e).name) : ZipTree.kindOf member = .ofNode e.2 := by
  obtain ⟨path, _ | content⟩ := e
  · have hlast : member.name.getLast? = some '/' := by
      rw [hname]
      simp [memberOf, NewMember.name]
    simp [ZipTree.kindOf, Member.isDirectory, hlast, EntryKind.ofNode]
  · have hlast : member.name = path.text := hname
    have hslash := h.getLast?_ne
    have hback : path.text.getLast? ≠ some '\\' := fun hback =>
      h.backslash_not_mem (List.mem_of_getLast? hback)
    simp [ZipTree.kindOf, Member.isDirectory, hlast, hslash, hback, EntryKind.ofNode]

theorem kindOf_of_readsAs {e : EntryPath × Node} (h : e.1.IsNormal) {member : Member}
    (hreads : ReadsAs image (memberOf e) member) :
    ZipTree.kindOf member = .ofNode e.2 :=
  kindOf_of_name h hreads.name

/-- A member is read as the node that was written. -/
theorem content_of_readsAs {e : EntryPath × Node} (h : e.1.IsNormal) {member : Member}
    (hreads : ReadsAs image (memberOf e) member) {tree : ZipTree} (himage : tree.image = image)
    (hlookup : tree.entries.lookup e.1 = some member) : tree.read e.1 = .ok e.2.content? := by
  have hkind := kindOf_of_readsAs h hreads
  have hpacked := hreads.packed
  have hunpack := hreads.unpack
  obtain ⟨path, _ | content⟩ := e
  · have hdirectory : member.isDirectory = true := by
      unfold ZipTree.kindOf at hkind
      split at hkind
      · assumption
      · cases hkind
    simp only [ZipTree.read, hlookup, himage, hpacked, hdirectory, if_true]
    rfl
  · have hfile : ¬member.isDirectory = true := by
      intro hdirectory
      simp [ZipTree.kindOf, hdirectory, EntryKind.ofNode] at hkind
    simp only [ZipTree.read, hlookup, himage, hpacked, hfile, hunpack _ content rfl]
    rfl

/-- The member under a path is the one written for it. -/
theorem lookup_zip {entries : List (EntryPath × Node)} {members : List Member}
    (h : List.Forall₂ (fun e member => ReadsAs image (memberOf e) member) entries members)
    (path : EntryPath) :
    (entries.lookup path = none ∧ ((entries.map Prod.fst).zip members).lookup path = none) ∨
      ∃ node member, entries.lookup path = some node ∧ (path, node) ∈ entries ∧
        ((entries.map Prod.fst).zip members).lookup path = some member ∧
        ReadsAs image (memberOf (path, node)) member := by
  induction h with
  | nil => exact Or.inl ⟨rfl, rfl⟩
  | @cons e member entries members hfirst _ ih =>
    obtain ⟨first, node⟩ := e
    by_cases hpath : path = first
    · subst hpath
      exact Or.inr ⟨node, member, by simp, List.mem_cons_self .., by simp, hfirst⟩
    · have hne : (path == first) = false := by simpa using hpath
      rcases ih with ⟨hnone, hnone'⟩ | ⟨node', member', hsome, hmem, hsome', hreads⟩
      · exact Or.inl ⟨by simpa [List.lookup_cons, hne] using hnone,
          by simpa [List.lookup_cons, hne] using hnone'⟩
      · exact Or.inr ⟨node', member', by simpa [List.lookup_cons, hne] using hsome,
          List.mem_cons_of_mem _ hmem, by simpa [List.lookup_cons, hne] using hsome', hreads⟩

theorem list_zip {entries : List (EntryPath × Node)} {members : List Member}
    (h : List.Forall₂ (fun e member => e.1.IsNormal ∧ ReadsAs image (memberOf e) member) entries
      members) :
    (((entries.map Prod.fst).zip members).map fun e => (⟨e.1, ZipTree.kindOf e.2⟩ : ArchiveEntry)) =
      entries.map fun e => ⟨e.1, .ofNode e.2⟩ := by
  induction h with
  | nil => rfl
  | cons hfirst _ ih =>
    simp only [List.map_cons, List.zip_cons_cons, ih, kindOf_of_readsAs hfirst.1 hfirst.2]

def ReadBack (writer : ZipWriter) (image : Bytes) : Prop :=
  ∃ members, members? image = some members ∧
    List.Forall₂ (ReadsAs image) (writer.entries.map memberOf) members

/-- What was written is found when bytes that are read back are opened. -/
theorem ofImage_of_readBack {writer : ZipWriter} (h : writer.Orderly)
    (hback : writer.ReadBack image) (path : Path) :
    ∃ tree, ZipTree.ofImage path image = .ok tree ∧ tree.list = writer.list ∧
      ∀ entry, tree.read entry = .ok (writer.read entry) := by
  obtain ⟨members, hmembers, hreads⟩ := hback
  rw [List.forall₂_map_left_iff] at hreads
  have hplaced := (List.forall₂_and_left _ _).mpr ⟨h.normal, hreads⟩
  have hindex : ZipTree.index members = .ok ((writer.entries.map Prod.fst).zip members) := by
    refine ZipTree.index_of_parse ?_ h.nodup
    rw [List.forall₂_map_right_iff]
    refine (hplaced.imp fun e member he => ?_).flip
    show EntryPath.parse member.name = .ok e.1
    rw [he.2.name]
    exact parse_name_memberOf he.1
  have hopen : ZipTree.ofImage path image =
      .ok ⟨path, image, (writer.entries.map Prod.fst).zip members⟩ := by
    simp only [ZipTree.ofImage, hmembers, hindex]
  refine ⟨_, hopen, list_zip hplaced, ?_⟩
  intro entry
  rcases lookup_zip hreads entry with ⟨hnone, hnone'⟩ | ⟨node, member, hsome, hmem, hsome', hread⟩
  · simp only [ZipTree.read, hnone', read, hnone]
    rfl
  · rw [content_of_readsAs (h.normal _ hmem) hread rfl hsome', read, hsome]
    rfl

/-- The finished archive is one that can be read back: see the members that are legible. -/
def Legible (writer : ZipWriter) : Prop :=
  Zip.Legible ((writer.entries.map memberOf).map Packed.ofNew)

/-- A small archive is legible if its files are not too long. -/
theorem legible_of_small {writer : ZipWriter} (hlength : writer.image.length < UInt16.size - 1)
    (hfiles : ∀ path content, (path, .file content) ∈ writer.entries →
      content.length < UInt32.size - 1) : writer.Legible := by
  refine Zip.legible_of_small hlength fun new hnew => ?_
  obtain ⟨⟨path, _ | content⟩, he, rfl⟩ := List.mem_map.mp hnew
  · exact Nat.zero_lt_succ _
  · exact hfiles path content he

/-- The bytes of the finished archive are read back. -/
theorem readBack_of_legible {writer : ZipWriter} (h : writer.Orderly) (hlegible : writer.Legible) :
    writer.ReadBack writer.image := by
  have hparse : ((writer.entries.map memberOf).map NewMember.name).map EntryPath.parse =
      (writer.entries.map Prod.fst).map Except.ok := by
    simp only [List.map_map]
    exact List.map_congr_left fun e he => parse_name_memberOf (h.normal e he)
  have hnames : ((writer.entries.map memberOf).map NewMember.name).Nodup := by
    refine List.Nodup.of_map EntryPath.parse ?_
    rw [hparse]
    exact h.nodup.map fun a b hab => Except.ok.inj hab
  exact members?_of_legible hnames hlegible

/-- The archive of what was written is the file at a path: opened, it is found to be as `P` says if
its bytes are read back, which they are if it is legible. -/
structure FoundAt (writer : ZipWriter) (fs : FileSystem) (path : Path) (P : ZipTree → Prop) :
    Prop where
  bytes : fs.readFile path = .ok writer.image
  opened : writer.ReadBack writer.image → ∃ tree, ZipTree.open fs path = .ok tree ∧ P tree
  readBack : writer.Legible → writer.ReadBack writer.image

section FoundAt

variable {writer : ZipWriter} {fs : FileSystem} {path : Path} {P Q : ZipTree → Prop}

/-- An archive in its file is found to list and to read what was written. -/
theorem foundAt_of_readFile (h : writer.Orderly) (hfile : fs.readFile path = .ok writer.image) :
    writer.FoundAt fs path fun tree =>
      tree.list = writer.list ∧ ∀ entry, tree.read entry = .ok (writer.read entry) := by
  refine ⟨hfile, fun hback => ?_, readBack_of_legible h⟩
  rw [ZipTree.open_of_readFile hfile]
  exact ofImage_of_readBack h hback path

theorem FoundAt.imp (h : writer.FoundAt fs path P) (himp : ∀ tree, P tree → Q tree) :
    writer.FoundAt fs path Q := by
  refine ⟨h.bytes, fun hback => ?_, h.readBack⟩
  obtain ⟨tree, htree, hP⟩ := h.opened hback
  exact ⟨tree, htree, himp tree hP⟩

theorem FoundAt.of_legible (h : writer.FoundAt fs path P) (hlegible : writer.Legible) :
    ∃ tree, ZipTree.open fs path = .ok tree ∧ P tree :=
  h.opened (h.readBack hlegible)

/-- It is found wherever the file is. -/
theorem FoundAt.of_readFile {fs' : FileSystem} (h : writer.FoundAt fs path P)
    (hfile : fs'.readFile path = .ok writer.image) : writer.FoundAt fs' path P := by
  refine ⟨hfile, fun hback => ?_, h.readBack⟩
  rw [ZipTree.open_of_readFile hfile, ← ZipTree.open_of_readFile h.bytes]
  exact h.opened hback

end FoundAt

end ZipWriter

end Retarget

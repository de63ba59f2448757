import Retarget.MemoryTree
import Retarget.Proofs.Destination.Appending

/-!
What is put into a tree held in memory. A path that the tree lacks goes to the end, whether a
directory is made there or a file is written, as long as the tree is not finished; and where the
paths are all different, what was put there is what is read.
-/
namespace Retarget.MemoryTree

variable {tree : MemoryTree} {path : EntryPath}

theorem contains_iff : tree.contains path = true ↔ path ∈ tree.paths :=
  isSome_lookup_iff

theorem contains_of_not_mem (h : path ∉ tree.paths) : tree.contains path = false :=
  Bool.eq_false_iff.mpr fun hc => h (contains_iff.mp hc)

def extend (tree : MemoryTree) (new : List (EntryPath × Node)) : MemoryTree :=
  { tree with entries := tree.entries ++ new }

@[simp] theorem paths_extend (tree : MemoryTree) (new : List (EntryPath × Node)) :
    (tree.extend new).paths = tree.paths ++ new.map Prod.fst := by
  simp [paths, extend]

@[simp] theorem extend_nil (tree : MemoryTree) : tree.extend [] = tree := by
  simp [extend]

@[simp] theorem extend_extend (tree : MemoryTree) (new new' : List (EntryPath × Node)) :
    (tree.extend new).extend new' = tree.extend (new ++ new') := by
  simp [extend]

theorem put_of_not_mem (h : path ∉ tree.paths) (node : Node) :
    tree.put path node = tree.extend [(path, node)] := by
  rw [put, contains_of_not_mem h, if_neg Bool.false_ne_true, extend]

theorem createDirectory_of_not_mem (h : path ∉ tree.paths) (hopen : tree.finished = false) :
    Destination.createDirectory path tree = .ok () (tree.extend [(path, .directory)]) := by
  have hnone : tree.node? path = none := by
    have hfree := contains_of_not_mem h
    rw [contains] at hfree
    simpa using hfree
  simp only [Destination.createDirectory, step, MemoryTree.createDirectory, hopen, hnone,
    put_of_not_mem h, Bool.false_eq_true, if_false]

theorem writeFile_of_not_mem (h : path ∉ tree.paths) (hopen : tree.finished = false)
    (content : Bytes) :
    Destination.writeFile path content tree = .ok () (tree.extend [(path, .file content)]) := by
  simp only [Destination.writeFile, step, MemoryTree.writeFile, hopen, contains_of_not_mem h,
    put_of_not_mem h, Bool.false_eq_true, if_false]

/-- A finished tree refuses a directory, and so does one that has a file there. -/
theorem createDirectory_of_refused
    (h : tree.finished = true ∨ ∃ content, tree.node? path = some (.file content)) :
    ∃ fault, Destination.createDirectory path tree = .error fault tree := by
  simp only [Destination.createDirectory, step, MemoryTree.createDirectory]
  cases hfinished : tree.finished with
  | true => exact ⟨_, rfl⟩
  | false =>
    rw [hfinished] at h
    obtain ⟨content, hnode⟩ := h.resolve_left (by simp)
    rw [hnode]
    exact ⟨_, rfl⟩

theorem writeFile_of_refused (h : path ∈ tree.paths ∨ tree.finished = true) (content : Bytes) :
    ∃ fault, Destination.writeFile path content tree = .error fault tree := by
  simp only [Destination.writeFile, step, MemoryTree.writeFile]
  by_cases hfinished : tree.finished = true
  · exact ⟨_, by rw [if_pos hfinished]⟩
  · have hthere := contains_iff.mpr (h.resolve_right hfinished)
    exact ⟨_, by rw [if_neg hfinished, if_pos hthere]⟩

instance : Appending MemoryTree where
  entries := entries
  finished := finished
  takes _ _ := True
  extend := extend
  entries_extend _ _ := rfl
  finished_extend _ _ := rfl
  takes_extend _ _ _ := Iff.rfl
  extend_nil := extend_nil
  extend_extend := extend_extend
  contains_iff := contains_iff
  createDirectory_of_open := createDirectory_of_not_mem
  createDirectory_of_finished _ hfinished := createDirectory_of_refused (Or.inl hfinished)
  writeFile_of_open h hopen _ _ := writeFile_of_not_mem h hopen _
  writeFile_of_refused h := writeFile_of_refused (h.imp_right (·.resolve_right (· trivial))) _

theorem node?_of_mem (hnodup : tree.paths.Nodup) {node : Node}
    (hmem : (path, node) ∈ tree.entries) : tree.node? path = some node :=
  lookup_of_mem hnodup hmem

theorem read_of_mem (hnodup : tree.paths.Nodup) {node : Node}
    (hmem : (path, node) ∈ tree.entries) : tree.read path = node.content? := by
  rw [read, node?_of_mem hnodup hmem]
  rfl

theorem map_path_list (tree : MemoryTree) : tree.list.map ArchiveEntry.path = tree.paths := by
  simp [list, paths]

end Retarget.MemoryTree

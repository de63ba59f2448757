import Retarget.Proofs.Destination.Appending
import Retarget.ZipWriter

/-!
What a zip writer has been given. Its steps only add at the end: a directory whose path has been
written to adds nothing, and a file whose path has been is refused. So the paths stay different.
-/
namespace Retarget

namespace ZipWriter

variable {writer writer' : ZipWriter} {path : EntryPath}

def paths (writer : ZipWriter) : List EntryPath :=
  writer.entries.map Prod.fst

def list (writer : ZipWriter) : List ArchiveEntry :=
  writer.entries.map fun e => ⟨e.1, .ofNode e.2⟩

def read (writer : ZipWriter) (path : EntryPath) : Option Bytes :=
  (writer.entries.lookup path).bind Node.content?

structure Orderly (writer : ZipWriter) : Prop where
  nodup : writer.paths.Nodup
  normal : ∀ e ∈ writer.entries, e.1.IsNormal

theorem contains_iff : writer.contains path = true ↔ path ∈ writer.paths :=
  isSome_lookup_iff

/-- What was written under a path is what is read there. -/
theorem Orderly.read_of_mem (h : writer.Orderly) {node : Node}
    (hmem : (path, node) ∈ writer.entries) : writer.read path = node.content? := by
  rw [read, lookup_of_mem h.nodup hmem]
  rfl

theorem createDirectory_eq_ok
    (h : Destination.createDirectory path writer = .ok () writer') :
    writer' = if writer.contains path then writer else writer.add path .directory := by
  simp only [Destination.createDirectory, step, ZipWriter.createDirectory] at h
  by_cases hthere : writer.contains path = true
  · simp only [hthere, if_true, EStateM.Result.ok.injEq, true_and] at h ⊢
    exact h.symm
  · by_cases hfinished : writer.finished = true
    · simp [hthere, hfinished] at h
    · simp only [hthere, hfinished, Bool.false_eq_true, if_false, EStateM.Result.ok.injEq,
        true_and] at h ⊢
      exact h.symm

theorem createDirectory_of_open (h : path ∉ writer.paths) (hopen : writer.finished = false) :
    Destination.createDirectory path writer = .ok () (writer.add path .directory) := by
  have hthere : writer.contains path = false :=
    Bool.eq_false_iff.mpr fun hc => h (contains_iff.mp hc)
  simp [Destination.createDirectory, step, ZipWriter.createDirectory, hthere, hopen]

theorem createDirectory_of_finished (h : path ∉ writer.paths) (hfinished : writer.finished = true) :
    Destination.createDirectory path writer =
      .error (WriteError.finished writer.path).fault writer := by
  have hthere : writer.contains path = false :=
    Bool.eq_false_iff.mpr fun hc => h (contains_iff.mp hc)
  simp [Destination.createDirectory, step, ZipWriter.createDirectory, hthere, hfinished]

theorem writeFile_eq_ok {content : Bytes}
    (h : Destination.writeFile path content writer = .ok () writer') :
    path ∉ writer.paths ∧ writer' = writer.add path (.file content) := by
  simp only [Destination.writeFile, step, ZipWriter.writeFile] at h
  by_cases hthere : writer.contains path = true
  · simp [hthere] at h
  · by_cases hfinished : writer.finished = true
    · simp [hthere, hfinished] at h
    · by_cases hroom : Zip.HasRoom content
      · simp only [hthere, hfinished, hroom, Bool.false_eq_true, not_true_eq_false, if_false,
          EStateM.Result.ok.injEq, true_and] at h
        exact ⟨fun hmem => hthere (contains_iff.mpr hmem), h.symm⟩
      · simp [hthere, hfinished, hroom] at h

/-- What adding under a new path keeps, every write keeps. -/
theorem keptByWrites_of_add {Q : ZipWriter → Prop}
    (hadd : ∀ writer path node, Q writer → path ∉ writer.paths → Q (writer.add path node)) :
    KeptByWrites Q := by
  refine ⟨fun path writer hwriter => ?_, fun path bytes writer hwriter => ?_⟩
  · simp only [Destination.createDirectory, step, ZipWriter.createDirectory]
    by_cases hthere : writer.contains path = true
    · simpa [hthere] using hwriter
    · have hnew := hadd writer path .directory hwriter fun hmem => hthere (contains_iff.mpr hmem)
      by_cases hfinished : writer.finished = true
      · simpa [hthere, hfinished] using hwriter
      · simpa [hthere, hfinished] using hnew
  · simp only [Destination.writeFile, step, ZipWriter.writeFile]
    by_cases hthere : writer.contains path = true
    · simpa [hthere] using hwriter
    · have hnew := hadd writer path (.file bytes) hwriter fun hmem =>
        hthere (contains_iff.mpr hmem)
      by_cases hfinished : writer.finished = true
      · simpa [hthere, hfinished] using hwriter
      · by_cases hroom : Zip.HasRoom bytes
        · simpa [hthere, hfinished, hroom] using hnew
        · simpa [hthere, hfinished, hroom] using hwriter

def extend (writer : ZipWriter) (new : List (EntryPath × Node)) : ZipWriter :=
  { writer with entries := writer.entries ++ new }

theorem add_eq_extend (writer : ZipWriter) (path : EntryPath) (node : Node) :
    writer.add path node = writer.extend [(path, node)] := rfl

@[simp] theorem entries_extend (writer : ZipWriter) (new : List (EntryPath × Node)) :
    (writer.extend new).entries = writer.entries ++ new := rfl

@[simp] theorem paths_extend (writer : ZipWriter) (new : List (EntryPath × Node)) :
    (writer.extend new).paths = writer.paths ++ new.map Prod.fst := by
  simp [paths]

@[simp] theorem extend_nil (writer : ZipWriter) : writer.extend [] = writer := by
  simp [extend]

@[simp] theorem extend_extend (writer : ZipWriter) (new new' : List (EntryPath × Node)) :
    (writer.extend new).extend new' = writer.extend (new ++ new') := by
  simp [extend]

theorem writeFile_of_open (h : path ∉ writer.paths) (hopen : writer.finished = false)
    {content : Bytes} (hroom : Zip.HasRoom content) :
    Destination.writeFile path content writer = .ok () (writer.add path (.file content)) := by
  have hthere : writer.contains path = false :=
    Bool.eq_false_iff.mpr fun hc => h (contains_iff.mp hc)
  simp [Destination.writeFile, step, ZipWriter.writeFile, hthere, hopen, hroom]

theorem writeFile_of_refused {content : Bytes}
    (h : path ∈ writer.paths ∨ writer.finished = true ∨ ¬Zip.HasRoom content) :
    ∃ fault, Destination.writeFile path content writer = .error fault writer := by
  simp only [Destination.writeFile, step, ZipWriter.writeFile]
  by_cases hthere : writer.contains path = true
  · exact ⟨_, by rw [if_pos hthere]⟩
  · have hnew := h.resolve_left fun hmem => hthere (contains_iff.mpr hmem)
    by_cases hfinished : writer.finished = true
    · exact ⟨_, by rw [if_neg hthere, if_pos hfinished]⟩
    · have hroom := hnew.resolve_left hfinished
      exact ⟨_, by rw [if_neg hthere, if_neg hfinished, if_pos hroom]⟩

instance : Appending ZipWriter where
  entries := entries
  finished := finished
  takes _ := Zip.HasRoom
  extend := extend
  entries_extend := entries_extend
  finished_extend _ _ := rfl
  takes_extend _ _ _ := Iff.rfl
  extend_nil := extend_nil
  extend_extend := extend_extend
  contains_iff := contains_iff
  createDirectory_of_open := createDirectory_of_open
  createDirectory_of_finished h hfinished := ⟨_, createDirectory_of_finished h hfinished⟩
  writeFile_of_open := writeFile_of_open
  writeFile_of_refused := writeFile_of_refused

theorem keptByWrites_nodup : KeptByWrites fun writer : ZipWriter => writer.paths.Nodup := by
  apply keptByWrites_of_add
  intro writer path node hnodup hnew
  rw [add_eq_extend, paths_extend]
  rw [List.map_singleton, ← List.concat_eq_append]
  exact hnodup.concat hnew

end ZipWriter

end Retarget

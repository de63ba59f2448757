import Retarget.Proofs.FileSystem.OneFile
import Retarget.Proofs.ZipWriter.Entries

/-!
The file of an archive that is being written. It is made with the writer and filled when the writer
is finished; what is written in between does not touch it, and no other file is touched at all.
-/
namespace Retarget.ZipWriter

open FileSystem

/-- What is written to an archive does not change where the archive is. -/
theorem keptByWrites_path (path : Path) :
    KeptByWrites fun writer : ZipWriter => writer.path = path :=
  keptByWrites_of_add fun _ _ _ hwriter _ => hwriter

/-- Finishing touches the archive's file alone. -/
theorem keeps_finish (start : FileSystem) (path : Path) :
    Keeps (fun s : ZipWriter × Disk => s.1.path = path ∧ start.OnlyAt s.2.files path)
      (fun _ => True) finish := by
  rintro ⟨writer, disk⟩ ⟨rfl, hdisk⟩
  simp only [finish]
  by_cases hfinished : writer.finished = true
  · simpa [hfinished] using hdisk
  · have hwrite := OnlyAt.attempt (.write writer.path writer.image) disk
      fun after happly => OnlyAt.of_write happly
    by_cases hfile : disk.files.isFile writer.path = true
    · simpa [hfinished, hfile] using hdisk.trans hwrite
    · simpa [hfinished, hfile] using hdisk

theorem onlyAt_abandon {start : FileSystem} {writer : ZipWriter} {disk : Disk}
    (h : start.OnlyAt disk.files writer.path) :
    start.OnlyAt (writer.abandon disk).files writer.path := by
  have hkeep := keeps_finish start writer.path
  unfold abandon
  cases hfinish : finish (writer, disk) with
  | ok _ s => exact (hkeep.ok ⟨rfl, h⟩ hfinish).2
  | error fault s => exact (hkeep.error ⟨rfl, h⟩ hfinish).2.2

/-- A writer is made with its file, or there is none and nothing has changed. -/
theorem create_eq_ok {path : Path} {writer : ZipWriter} {disk disk' : Disk}
    (h : create path disk = .ok writer disk') :
    writer = ofPath path ∧ disk.files.write path [] = .ok disk'.files ∧
      disk' = disk.attempt (.create path) := by
  simp only [create, Disk.perform, Disk.attempt, FileSystem.apply] at h ⊢
  cases hwrite : disk.files.write path [] with
  | error kind => simp [hwrite] at h
  | ok files =>
    simp only [hwrite, EStateM.Result.ok.injEq] at h
    obtain ⟨rfl, rfl⟩ := h
    exact ⟨rfl, rfl, rfl⟩

theorem create_eq_error {path : Path} {fault : Fault} {disk disk' : Disk}
    (h : create path disk = .error fault disk') : disk' = disk := by
  simp only [create, Disk.perform, FileSystem.apply] at h
  cases hwrite : disk.files.write path [] with
  | error kind =>
    simp only [hwrite, EStateM.Result.error.injEq] at h
    exact h.2.symm
  | ok files => simp [hwrite] at h

/-- A writer that was not finished has, once it is, its image in its file. -/
theorem finish_of_open {writer : ZipWriter} (hopen : writer.finished = false) (disk : Disk) :
    finish (writer, disk) = .ok () ({ writer with finished := true },
      if disk.files.isFile writer.path then disk.attempt (.write writer.path writer.image)
      else disk) := by
  simp only [finish, hopen, Bool.false_eq_true, if_false]

/-- A file that is there is filled. -/
theorem readFile_filled {disk : Disk} {path : Path} {old : Bytes}
    (h : disk.files.readFile path = .ok old) (image : Bytes) :
    (if disk.files.isFile path then disk.attempt (.write path image)
      else disk).files.readFile path = .ok image := by
  obtain ⟨place, hleads, hnode⟩ := readFile_eq_ok_iff.mp h
  obtain ⟨after, hafter⟩ := write_of_readFile h image
  have happly : disk.files.apply (.write path image) = .ok after := hafter
  rw [if_pos (isFile_iff.mpr ⟨place, old, hleads, hnode⟩), Disk.attempt, happly]
  exact readFile_of_write hafter

end Retarget.ZipWriter

import Retarget.Proofs.EntryPath.Ancestors
import Retarget.Proofs.ZipTree.Written
import Retarget.Proofs.ZipWriter.File

/-!
What a zip file holds after any calls to its writer. A call asks for entries, and a call that
succeeds adds those whose paths are new; one that fails adds nothing. So what has been written is
what the successful calls asked for, each path once and as it was asked for first, and that is found
in the file once the writer is finished or given up.
-/
namespace Retarget.ZipWriter

open FileSystem

inductive Call
  | createDirectory (path : EntryPath)
  | createParents (path : EntryPath)
  | writeFile (path : EntryPath) (content : Bytes)
  | finish

def onWriter (act : EStateM Fault ZipWriter Unit) : EStateM Fault (ZipWriter × Disk) Unit :=
  fun (writer, disk) => match act writer with
    | .ok () writer => .ok () (writer, disk)
    | .error fault writer => .error fault (writer, disk)

namespace Call

def perform : Call → EStateM Fault (ZipWriter × Disk) Unit
  | .createDirectory path => onWriter (Destination.createDirectory path)
  | .createParents path => onWriter (Destination.createParents path)
  | .writeFile path content => onWriter (Destination.writeFile path content)
  | .finish => ZipWriter.finish

/-- The calls that succeed, of calls that are made one after the other whether they succeed or not,
and what is left by all of them. -/
def performAll : List Call → ZipWriter × Disk → List Call × (ZipWriter × Disk)
  | [], s => ([], s)
  | call :: rest, s =>
    match call.perform s with
    | .ok () s =>
      let (done, s) := performAll rest s
      (call :: done, s)
    | .error _ s => performAll rest s

def asked : Call → List (EntryPath × Node)
  | .createDirectory path => [(path, .directory)]
  | .createParents path => path.ancestors.map (·, .directory)
  | .writeFile path content => [(path, .file content)]
  | .finish => []

/-- When a call succeeds: a finished writer has nothing to add any more, and a file is only written
under a new path and if there is room for its lengths. -/
def Allowed (writer : ZipWriter) : Call → Prop
  | .createDirectory path => writer.finished = true → path ∈ writer.paths
  | .createParents path => writer.finished = true → ∀ above ∈ path.ancestors, above ∈ writer.paths
  | .writeFile path content =>
    writer.finished = false ∧ path ∉ writer.paths ∧ Zip.HasRoom content
  | .finish => True

def IsNormal : Call → Prop
  | .createDirectory path | .createParents path | .writeFile path _ => path.IsNormal
  | .finish => True

instance : DecidablePred IsNormal
  | .createDirectory path | .createParents path | .writeFile path _ =>
    inferInstanceAs (Decidable path.IsNormal)
  | .finish => inferInstanceAs (Decidable True)

end Call

def keep (entries : List (EntryPath × Node)) (e : EntryPath × Node) : List (EntryPath × Node) :=
  if e.1 ∈ entries.map Prod.fst then entries else entries ++ [e]

/-- The entries that successful calls created: each path as it was asked for first. -/
def created (done : List Call) : List (EntryPath × Node) :=
  (done.flatMap Call.asked).foldl keep []

section Keep

variable {entries new : List (EntryPath × Node)} {e : EntryPath × Node} {path : EntryPath}

theorem keep_of_mem (h : e.1 ∈ entries.map Prod.fst) : keep entries e = entries := if_pos h

theorem keep_of_not_mem (h : e.1 ∉ entries.map Prod.fst) : keep entries e = entries ++ [e] :=
  if_neg h

theorem mem_keep_iff : path ∈ (keep entries e).map Prod.fst ↔
    path ∈ entries.map Prod.fst ∨ path = e.1 := by
  unfold keep
  split
  · next hthere =>
    constructor
    · exact Or.inl
    · intro h
      rcases h with h | rfl
      · exact h
      · exact hthere
  · simp

theorem mem_foldl_keep_iff : path ∈ (new.foldl keep entries).map Prod.fst ↔
    path ∈ entries.map Prod.fst ∨ path ∈ new.map Prod.fst := by
  induction new generalizing entries with
  | nil => simp
  | cons e rest ih => rw [List.foldl_cons, ih, mem_keep_iff, List.map_cons, List.mem_cons, or_assoc]

theorem nodup_foldl_keep (h : (entries.map Prod.fst).Nodup) :
    ((new.foldl keep entries).map Prod.fst).Nodup := by
  induction new generalizing entries with
  | nil => exact h
  | cons e rest ih =>
    apply ih
    unfold keep
    split
    · exact h
    · next hnew =>
      rw [List.map_append, List.map_singleton, ← List.concat_eq_append]
      exact h.concat hnew

theorem mem_foldl_keep_of_mem (h : e ∈ entries) : e ∈ new.foldl keep entries := by
  induction new generalizing entries with
  | nil => exact h
  | cons first rest ih =>
    apply ih
    unfold keep
    split
    · exact h
    · exact List.mem_append_left _ h

theorem mem_of_mem_foldl_keep (h : e ∈ new.foldl keep entries) : e ∈ entries ∨ e ∈ new := by
  induction new generalizing entries with
  | nil => exact Or.inl h
  | cons first rest ih =>
    rcases ih h with hkeep | hrest
    · unfold keep at hkeep
      split at hkeep
      · exact Or.inl hkeep
      · rcases List.mem_append.mp hkeep with hmem | hmem
        · exact Or.inl hmem
        · exact Or.inr (by simp [List.mem_singleton.mp hmem])
    · exact Or.inr (List.mem_cons_of_mem _ hrest)

theorem mem_created_iff {done : List Call} : path ∈ (created done).map Prod.fst ↔
    ∃ call ∈ done, path ∈ call.asked.map Prod.fst := by
  unfold created
  rw [mem_foldl_keep_iff, List.map_flatMap, List.mem_flatMap]
  simp

end Keep

def keepAll (writer : ZipWriter) (new : List (EntryPath × Node)) : ZipWriter :=
  { writer with entries := new.foldl keep writer.entries }

section Step

variable {writer writer' : ZipWriter} {disk disk' : Disk} {call : Call} {path : EntryPath}

theorem keepAll_nil (writer : ZipWriter) : writer.keepAll [] = writer := rfl

theorem keepAll_cons_of_mem {e : EntryPath × Node} (h : e.1 ∈ writer.paths)
    (new : List (EntryPath × Node)) : writer.keepAll (e :: new) = writer.keepAll new := by
  rw [keepAll, keepAll, List.foldl_cons, keep_of_mem h]

theorem keepAll_cons_of_not_mem {node : Node} (h : path ∉ writer.paths)
    (new : List (EntryPath × Node)) :
    writer.keepAll ((path, node) :: new) = (writer.add path node).keepAll new := by
  rw [keepAll, keepAll, List.foldl_cons, keep_of_not_mem h]
  rfl

theorem keepAll_of_subset {new : List (EntryPath × Node)} (h : ∀ e ∈ new, e.1 ∈ writer.paths) :
    writer.keepAll new = writer := by
  induction new with
  | nil => rfl
  | cons e rest ih =>
    obtain ⟨hfirst, hrest⟩ := List.forall_mem_cons.mp h
    rw [keepAll_cons_of_mem hfirst, ih hrest]

/-- Of directories that are asked for, those that are missing are added. -/
theorem keepAll_directories {asked : List EntryPath} (hnodup : asked.Nodup) :
    writer.keepAll (asked.map (·, .directory)) =
      writer.extend ((asked.filter (· ∉ writer.paths)).map (·, .directory)) := by
  induction asked generalizing writer with
  | nil => exact (extend_nil writer).symm
  | cons path rest ih =>
    obtain ⟨hpath, hrest⟩ := List.nodup_cons.mp hnodup
    rw [List.map_cons]
    by_cases hmem : path ∈ writer.paths
    · rw [keepAll_cons_of_mem hmem, ih hrest, List.filter_cons_of_neg (by simpa using hmem)]
    · rw [keepAll_cons_of_not_mem hmem, ih hrest, List.filter_cons_of_pos (by simpa using hmem),
        add_eq_extend, paths_extend, List.map_singleton, filter_not_mem_concat hpath,
        extend_extend]
      rfl

/-- A directory by itself is made as a missing one is. -/
theorem createDirectory_eq_createMissing (path : EntryPath) (writer : ZipWriter) :
    Destination.createDirectory path writer = Destination.createMissing [path] writer := by
  by_cases hmem : path ∈ writer.paths
  · have hthere : writer.contains path = true := contains_iff.mpr hmem
    rw [Destination.createMissing_cons_of_contains hthere]
    simp only [Destination.createDirectory, step, ZipWriter.createDirectory, hthere, if_true]
    rfl
  · have hfree : Destination.contains writer path = false := Appending.contains_of_not_mem hmem
    rw [Destination.createMissing_cons_of_not_contains hfree]
    exact (congrFun (bind_pure _) writer).symm

/-- Directories are asked for with success unless the writer is finished and lacks one of them. -/
theorem onWriter_createMissing (writer : ZipWriter) (disk : Disk) {asked : List EntryPath}
    (hnodup : asked.Nodup) :
    (writer.finished = true → ∀ path ∈ asked, path ∈ writer.paths) ∧
        onWriter (Destination.createMissing asked) (writer, disk) =
          .ok () (writer.keepAll (asked.map (·, .directory)), disk) ∨
      ¬(writer.finished = true → ∀ path ∈ asked, path ∈ writer.paths) ∧
        ∃ fault, onWriter (Destination.createMissing asked) (writer, disk) =
          .error fault (writer, disk) := by
  rw [keepAll_directories hnodup]
  rcases Appending.createMissing_cases writer hnodup with ⟨hallowed, hok⟩ | ⟨hnot, fault, herror⟩
  · refine Or.inl ⟨hallowed, ?_⟩
    rw [onWriter, hok]
    rfl
  · refine Or.inr ⟨hnot, fault, ?_⟩
    rw [onWriter, herror]

/-- A call that writes adds what it asks for when it is allowed to, and changes nothing else. -/
theorem perform_write (writer : ZipWriter) (disk : Disk) (hcall : call ≠ .finish) :
    call.Allowed writer ∧
        call.perform (writer, disk) = .ok () (writer.keepAll call.asked, disk) ∨
      ¬call.Allowed writer ∧
        ∃ fault, call.perform (writer, disk) = .error fault (writer, disk) := by
  cases call with
  | createDirectory path =>
    have hone := onWriter_createMissing writer disk (List.nodup_singleton path)
    have hsame : Destination.createDirectory (W := ZipWriter) path =
        Destination.createMissing [path] := funext (createDirectory_eq_createMissing path)
    simpa [Call.perform, Call.Allowed, Call.asked, hsame] using hone
  | createParents path => exact onWriter_createMissing writer disk path.nodup_ancestors
  | writeFile path content =>
    by_cases hallowed : Call.Allowed writer (.writeFile path content)
    · obtain ⟨hopen, hnew, hroom⟩ := hallowed
      refine Or.inl ⟨⟨hopen, hnew, hroom⟩, ?_⟩
      rw [Call.perform, onWriter, writeFile_of_open hnew hopen hroom, Call.asked,
        keepAll_cons_of_not_mem hnew, keepAll_nil]
    · have hreason : path ∈ writer.paths ∨ writer.finished = true ∨ ¬Zip.HasRoom content := by
        simp only [Call.Allowed, not_and_or, Bool.not_eq_false, not_not] at hallowed
        exact or_left_comm.mp hallowed
      obtain ⟨fault, herror⟩ := writeFile_of_refused hreason
      refine Or.inr ⟨hallowed, fault, ?_⟩
      rw [Call.perform, onWriter, herror]
  | finish => exact absurd rfl hcall

/-- Finishing adds nothing, and fills the file if it is the first time. -/
theorem perform_finish (writer : ZipWriter) (disk : Disk) :
    (writer.finished = true ∧ Call.finish.perform (writer, disk) = .ok () (writer, disk)) ∨
      (writer.finished = false ∧ Call.finish.perform (writer, disk) =
        .ok () ({ writer with finished := true },
          if disk.files.isFile writer.path then disk.attempt (.write writer.path writer.image)
          else disk)) := by
  cases hfinished : writer.finished with
  | true => exact Or.inl ⟨rfl, by rw [Call.perform, finish, if_pos hfinished]⟩
  | false => exact Or.inr ⟨rfl, finish_of_open hfinished disk⟩

/-- A call succeeds and adds what it asks for if it is allowed to, and else leaves no trace. -/
theorem perform_cases (call : Call) (s : ZipWriter × Disk) :
    (call.Allowed s.1 ∧ ∃ s', call.perform s = .ok () s' ∧
        s'.1.entries = call.asked.foldl keep s.1.entries) ∨
      ¬call.Allowed s.1 ∧ ∃ fault, call.perform s = .error fault s := by
  obtain ⟨writer, disk⟩ := s
  by_cases hcall : call = .finish
  · subst hcall
    rcases perform_finish writer disk with ⟨_, hok⟩ | ⟨_, hok⟩
    · exact Or.inl ⟨trivial, _, hok, rfl⟩
    · exact Or.inl ⟨trivial, _, hok, rfl⟩
  · rcases perform_write writer disk hcall with ⟨hallowed, hok⟩ | hrefused
    · exact Or.inl ⟨hallowed, _, hok, rfl⟩
    · exact Or.inr hrefused

theorem perform_eq_ok_iff {s : ZipWriter × Disk} :
    (∃ s', call.perform s = .ok () s') ↔ call.Allowed s.1 := by
  rcases perform_cases call s with ⟨hallowed, s', hok, -⟩ | ⟨hnot, fault, herror⟩
  · exact ⟨fun _ => hallowed, fun _ => ⟨s', hok⟩⟩
  · simp [herror, hnot]

/-- A call that succeeds adds what it asks for. -/
theorem entries_perform {s s' : ZipWriter × Disk} (h : call.perform s = .ok () s') :
    s'.1.entries = call.asked.foldl keep s.1.entries := by
  rcases perform_cases call s with ⟨-, s'', hok, hentries⟩ | ⟨-, fault, herror⟩
  · cases hok.symm.trans h
    exact hentries
  · cases herror.symm.trans h

/-- A call that fails leaves no trace. -/
theorem perform_error {s s' : ZipWriter × Disk} {fault : Fault}
    (h : call.perform s = .error fault s') : s' = s := by
  rcases perform_cases call s with ⟨-, s'', hok, -⟩ | ⟨-, fault', herror⟩
  · cases hok.symm.trans h
  · cases herror.symm.trans h
    rfl

end Step

section Run

variable {calls : List Call} {s : ZipWriter × Disk}

theorem performAll_cons_of_ok {call : Call} {s' : ZipWriter × Disk}
    (h : call.perform s = .ok () s') (rest : List Call) :
    Call.performAll (call :: rest) s =
      (call :: (Call.performAll rest s').1, (Call.performAll rest s').2) := by
  rw [Call.performAll, h]

theorem performAll_cons_of_error {call : Call} {fault : Fault} {s' : ZipWriter × Disk}
    (h : call.perform s = .error fault s') (rest : List Call) :
    Call.performAll (call :: rest) s = Call.performAll rest s' := by
  rw [Call.performAll, h]

theorem mem_of_mem_performAll {call : Call} (h : call ∈ (Call.performAll calls s).1) :
    call ∈ calls := by
  induction calls generalizing s with
  | nil => exact h
  | cons first rest ih =>
    cases hfirst : first.perform s with
    | error fault s' =>
      rw [performAll_cons_of_error hfirst] at h
      exact List.mem_cons_of_mem _ (ih h)
    | ok _ s' =>
      rw [performAll_cons_of_ok hfirst] at h
      rcases List.mem_cons.mp h with rfl | h
      · exact List.mem_cons_self ..
      · exact List.mem_cons_of_mem _ (ih h)

/-- What all calls have written is what those that succeeded asked for. -/
theorem entries_performAll (calls : List Call) (s : ZipWriter × Disk) :
    (Call.performAll calls s).2.1.entries =
      ((Call.performAll calls s).1.flatMap Call.asked).foldl keep s.1.entries := by
  induction calls generalizing s with
  | nil => rfl
  | cons call rest ih =>
    cases hcall : call.perform s with
    | error fault s' =>
      rw [performAll_cons_of_error hcall, ih, perform_error hcall]
    | ok _ s' =>
      rw [performAll_cons_of_ok hcall]
      simp only [ih, entries_perform hcall, List.flatMap_cons, List.foldl_append]

/-- A file that was written with success is there with its content in the end. -/
theorem mem_entries_of_writeFile {path : EntryPath} {content : Bytes}
    (h : .writeFile path content ∈ (Call.performAll calls s).1) :
    (path, .file content) ∈ (Call.performAll calls s).2.1.entries := by
  induction calls generalizing s with
  | nil => cases h
  | cons call rest ih =>
    cases hcall : call.perform s with
    | error fault s' =>
      rw [performAll_cons_of_error hcall] at h ⊢
      exact ih h
    | ok _ s' =>
      rw [performAll_cons_of_ok hcall] at h ⊢
      rcases List.mem_cons.mp h with rfl | h
      · have hallowed : Call.Allowed s.1 (.writeFile path content) :=
          perform_eq_ok_iff.mp ⟨s', hcall⟩
        have hhere : (path, .file content) ∈ s'.1.entries := by
          rw [entries_perform hcall, Call.asked, List.foldl_cons, keep_of_not_mem hallowed.2.1]
          exact List.mem_append_right _ (List.mem_singleton_self _)
        rw [entries_performAll]
        exact mem_foldl_keep_of_mem hhere
      · exact ih h

/-- The writer's file is there, and holds the archive once the writer is finished. -/
structure OnDisk (path : Path) (s : ZipWriter × Disk) : Prop where
  path_eq : s.1.path = path
  there : ∃ content, s.2.files.readFile path = .ok content
  filled : s.1.finished = true → s.2.files.readFile path = .ok s.1.image

theorem onDisk_create {path : Path} {disk made : Disk} {fresh : ZipWriter}
    (h : create path disk = .ok fresh made) : OnDisk path (fresh, made) := by
  obtain ⟨rfl, hwrite, -⟩ := create_eq_ok h
  exact ⟨rfl, ⟨[], readFile_of_write hwrite⟩, fun hfinished => by cases hfinished⟩

/-- A finished writer is not changed by a call that it allows. -/
theorem keepAll_asked_of_finished {writer : ZipWriter} {call : Call}
    (hfinished : writer.finished = true) (hallowed : call.Allowed writer) :
    writer.keepAll call.asked = writer := by
  cases call with
  | createDirectory path => exact keepAll_of_subset (by simpa [Call.asked] using hallowed hfinished)
  | createParents path => exact keepAll_of_subset (by simpa [Call.asked] using hallowed hfinished)
  | writeFile path content => simp [Call.Allowed, hfinished] at hallowed
  | finish => rfl

theorem keeps_perform (path : Path) (call : Call) :
    Keeps (OnDisk path) (fun _ => True) call.perform := by
  rintro ⟨writer, disk⟩ ⟨rfl, ⟨content, hcontent⟩, hfilled⟩
  by_cases hcall : call = .finish
  · subst hcall
    rcases perform_finish writer disk with ⟨_, hok⟩ | ⟨_, hok⟩
    · rw [hok]
      exact ⟨rfl, ⟨content, hcontent⟩, hfilled⟩
    · rw [hok]
      have hread := readFile_filled hcontent writer.image
      exact ⟨rfl, ⟨writer.image, hread⟩, fun _ => hread⟩
  · rcases perform_write writer disk hcall with ⟨hallowed, hok⟩ | ⟨_, fault, herror⟩
    · rw [hok]
      refine ⟨rfl, ⟨content, hcontent⟩, fun hfinished => ?_⟩
      have hsame : writer.keepAll call.asked = writer :=
        keepAll_asked_of_finished hfinished hallowed
      rw [hsame]
      exact hfilled hfinished
    · rw [herror]
      exact ⟨trivial, rfl, ⟨content, hcontent⟩, hfilled⟩

theorem onDisk_performAll {path : Path} (calls : List Call) (h : OnDisk path s) :
    OnDisk path (Call.performAll calls s).2 := by
  induction calls generalizing s with
  | nil => exact h
  | cons call rest ih =>
    cases hcall : call.perform s with
    | error fault s' =>
      rw [performAll_cons_of_error hcall]
      exact ih ((keeps_perform path call).error h hcall).2
    | ok _ s' =>
      rw [performAll_cons_of_ok hcall]
      exact ih ((keeps_perform path call).ok h hcall)

/-- A writer that is given up leaves the archive in its file. -/
theorem readFile_abandon {path : Path} {writer : ZipWriter} {disk : Disk}
    (h : OnDisk path (writer, disk)) :
    (writer.abandon disk).files.readFile path = .ok writer.image := by
  have hkeep := keeps_perform path .finish (writer, disk) h
  rw [abandon]
  rcases perform_finish writer disk with ⟨hfinished, hok⟩ | ⟨_, hok⟩
  · have hdone : ZipWriter.finish (writer, disk) = .ok () (writer, disk) := hok
    rw [hdone]
    exact h.filled hfinished
  · rw [hok] at hkeep
    rw [Call.perform] at hok
    rw [hok]
    exact hkeep.filled rfl

theorem abandon_of_finished {writer : ZipWriter} (h : writer.finished = true) (disk : Disk) :
    writer.abandon disk = disk := by
  simp only [abandon, finish, h, if_true]

end Run

/-- An archive has these entries and no others, each path once. -/
structure Holds (tree : ZipTree) (entries : List (EntryPath × Node)) : Prop where
  list_eq : tree.list = entries.map fun e => ⟨e.1, .ofNode e.2⟩
  nodup : (entries.map Prod.fst).Nodup
  read_of_mem : ∀ e ∈ entries, tree.read e.1 = .ok e.2.content?
  read_of_not_mem : ∀ path, path ∉ entries.map Prod.fst → tree.read path = .ok none

/-- An archive that lists and reads what was written has the entries that were. -/
theorem Orderly.holds {writer : ZipWriter} (h : writer.Orderly) {tree : ZipTree}
    (hlist : tree.list = writer.list) (hread : ∀ entry, tree.read entry = .ok (writer.read entry)) :
    Holds tree writer.entries := by
  refine ⟨hlist, h.nodup, fun e he => ?_, fun entry hentry => ?_⟩
  · rw [hread, h.read_of_mem he]
  · have hnone : writer.entries.lookup entry = none := by
      rw [List.lookup_eq_none_iff]
      intro e he
      rw [bne_iff_ne]
      rintro rfl
      exact hentry (List.mem_map_of_mem he)
    rw [hread, read, hnone]
    rfl

/-- What was written under normal paths is orderly. -/
theorem orderly_performAll {path : Path} {calls : List Call} {disk : Disk}
    (hnormal : ∀ call ∈ calls, call.IsNormal) :
    (Call.performAll calls (ofPath path, disk)).2.1.Orderly := by
  have hentries := entries_performAll calls (ofPath path, disk)
  refine ⟨?_, fun e he => ?_⟩
  · rw [paths, hentries]
    exact nodup_foldl_keep (by simp [ofPath])
  · rw [hentries] at he
    rcases mem_of_mem_foldl_keep he with hnone | hasked
    · cases hnone
    · obtain ⟨call, hcall, he⟩ := List.mem_flatMap.mp hasked
      have hpath := hnormal call (mem_of_mem_performAll hcall)
      cases call with
      | createDirectory path =>
        cases List.mem_singleton.mp he
        exact hpath
      | createParents path =>
        obtain ⟨above, habove, rfl⟩ := List.mem_map.mp he
        exact EntryPath.isNormal_of_mem_ancestors hpath habove
      | writeFile path content =>
        cases List.mem_singleton.mp he
        exact hpath
      | finish => cases he

/-- Whatever is called, in any order: the writer being finished or given up, what is found in its
file are the entries that successful calls created. Only a call that is allowed succeeds, and one
that fails leaves no trace; the writer has at any time the paths that successful calls asked for. -/
theorem calls_are_read_back {path : Path} {disk made : Disk} {fresh : ZipWriter}
    {calls : List Call} (hcreate : create path disk = .ok fresh made)
    (hnormal : ∀ call ∈ calls, call.IsNormal) :
    ∃ done final left, Call.performAll calls (fresh, made) = (done, final, left) ∧
      final.FoundAt (final.abandon left).files path (Holds · (created done)) ∧
      (final.finished = true → final.abandon left = left) ∧
      (∀ image, final.ReadBack image →
        ∃ tree, ZipTree.ofImage path image = .ok tree ∧ Holds tree (created done)) ∧
      (∀ entry content, .writeFile entry content ∈ done →
        (entry, .file content) ∈ created done) ∧
      (∀ n entry,
        (Call.performAll (calls.take n) (fresh, made)).2.1.contains entry = true ↔
          ∃ call ∈ (Call.performAll (calls.take n) (fresh, made)).1,
            entry ∈ call.asked.map Prod.fst) ∧
      (∀ (call : Call) s, (∃ s', call.perform s = .ok () s') ↔ call.Allowed s.1) ∧
      ∀ (call : Call) s fault s', call.perform s = .error fault s' → s' = s := by
  have hdisk := onDisk_performAll calls (onDisk_create hcreate)
  obtain ⟨rfl, -, -⟩ := create_eq_ok hcreate
  have horderly : (Call.performAll calls (ofPath path, made)).2.1.Orderly :=
    orderly_performAll hnormal
  have hall : ∀ calls, (Call.performAll calls (ofPath path, made)).2.1.entries =
      created (Call.performAll calls (ofPath path, made)).1 :=
    fun calls => entries_performAll calls (ofPath path, made)
  have hentries := hall calls
  have hwritten : ∀ entry content,
      .writeFile entry content ∈ (Call.performAll calls (ofPath path, made)).1 →
        (entry, .file content) ∈ (Call.performAll calls (ofPath path, made)).2.1.entries :=
    fun _ _ => mem_entries_of_writeFile
  rcases hrun : Call.performAll calls (ofPath path, made) with ⟨done, final, left⟩
  rw [hrun] at hdisk horderly hentries hwritten
  have hfound := foundAt_of_readFile horderly (readFile_abandon hdisk)
  refine ⟨done, final, left, rfl, hfound.imp fun tree htree => ?_,
    fun hfinished => abandon_of_finished hfinished left, fun image hback => ?_,
    fun entry content hmem => ?_, fun n entry => ?_, fun call s => perform_eq_ok_iff,
    fun call s fault s' => perform_error⟩
  · rw [← hentries]
    exact horderly.holds htree.1 htree.2
  · obtain ⟨tree, htree, hlist, hread⟩ := ofImage_of_readBack horderly hback path
    rw [← hentries]
    exact ⟨tree, htree, horderly.holds hlist hread⟩
  · rw [← hentries]
    exact hwritten entry content hmem
  · rw [contains_iff, paths, hall]
    exact mem_created_iff

/-- Calls of every kind, of which the second writing of a file and what comes after the end fail. -/
def mixedCalls : List Call :=
  let file : EntryPath := ⟨"a/b".toList⟩
  [.createParents file, .writeFile file [1], .writeFile file [2], .createDirectory file, .finish,
    .createDirectory ⟨['c']⟩, .finish]

def mixedEntries : List (EntryPath × Node) :=
  [(⟨['a']⟩, .directory), (⟨"a/b".toList⟩, .file [1])]

theorem legible_mixedEntries {writer : ZipWriter} (h : writer.entries = mixedEntries) :
    writer.Legible := by
  have hsmall : (Zip.image (mixedEntries.map memberOf)).length < UInt16.size - 1 := by
    decide +kernel
  refine legible_of_small (by rwa [image, h]) fun path content hmem => ?_
  have hcontent : path = ⟨"a/b".toList⟩ ∧ content = [1] := by simpa [h, mixedEntries] using hmem
  rw [hcontent.2]
  decide

theorem calls_are_read_back_mixedCalls :
    ∃ fresh made, create ⟨"out.jar".toList⟩ (.ofFiles ⟨[], []⟩) = .ok fresh made ∧
      (∀ call ∈ mixedCalls, call.IsNormal) ∧
      ∃ done final left, Call.performAll mixedCalls (fresh, made) = (done, final, left) ∧
        created done = mixedEntries ∧
        ∃ tree, ZipTree.open (final.abandon left).files ⟨"out.jar".toList⟩ = .ok tree ∧
          Holds tree (created done) := by
  obtain ⟨fresh, made, hcreate, houtcome⟩ :
      ∃ fresh made, create ⟨"out.jar".toList⟩ (.ofFiles ⟨[], []⟩) = .ok fresh made ∧
        created (Call.performAll mixedCalls (fresh, made)).1 = mixedEntries :=
    ⟨_, _, rfl, by decide +kernel⟩
  have hnormal : ∀ call ∈ mixedCalls, call.IsNormal := by decide
  have hentries : (Call.performAll mixedCalls (fresh, made)).2.1.entries = mixedEntries := by
    obtain ⟨rfl, -, -⟩ := create_eq_ok hcreate
    rw [entries_performAll]
    exact houtcome
  obtain ⟨done, final, left, hrun, hfound, -⟩ := calls_are_read_back hcreate hnormal
  rw [hrun] at houtcome hentries
  obtain ⟨tree, htree, hholds⟩ := hfound.of_legible (legible_mixedEntries hentries)
  exact ⟨fresh, made, hcreate, hnormal, done, final, left, hrun, houtcome, tree, htree, hholds⟩

end Retarget.ZipWriter

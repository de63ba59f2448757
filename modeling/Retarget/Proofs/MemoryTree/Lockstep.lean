import Retarget.Proofs.MemoryTree.Entries
import Retarget.Proofs.ZipWriter.Calls

/-!
A tree in memory and a zip writer that are given the same calls. They have the same entries all
along, in the same order, so what the memory holds is what is found in the file in the end. They
answer a call alike but for one kind of call: a directory that is asked for where something has been
written is refused by the tree if it is finished or a file is there, and never by the writer. That
leaves no trace, so the two stay in step after it. Files too long for their headers, which a tree
may hold and an archive may not, are left out.
-/
namespace Retarget.MemoryTree

open ZipWriter (Call)

def HasRoom : Call → Prop
  | .writeFile _ content => Zip.HasRoom content
  | .createDirectory _ | .createParents _ | .finish => True

instance : DecidablePred HasRoom
  | .writeFile _ content => inferInstanceAs (Decidable (Zip.HasRoom content))
  | .createDirectory _ | .createParents _ | .finish => inferInstanceAs (Decidable True)

def perform : Call → EStateM Fault MemoryTree Unit
  | .createDirectory path => Destination.createDirectory path
  | .createParents path => Destination.createParents path
  | .writeFile path content => Destination.writeFile path content
  | .finish => modify finish

/-- What is left of a tree by calls made one after the other, whether they succeed or not. -/
def performAll (calls : List Call) (tree : MemoryTree) : MemoryTree :=
  calls.foldl (fun tree call => leaves (perform call) tree) tree

/-- A zip writer and a tree have the same entries in the same order, and both are finished or
neither is. -/
structure InStep (writer : ZipWriter) (tree : MemoryTree) : Prop where
  entries_eq : tree.entries = writer.entries
  finished_eq : tree.finished = writer.finished

/-- Both steps succeed or both fail, and what they leave is related. -/
def Alike {σ τ : Type} (R : σ → τ → Prop) :
    EStateM.Result Fault σ Unit → EStateM.Result Fault τ Unit → Prop
  | .ok _ s, .ok _ t => R s t
  | .error _ s, .error _ t => R s t
  | _, _ => False

/-- A call that the writer and the tree answer differently: a directory asked for at a path that is
taken, the tree being finished or the path being a file's. -/
def Parts (writer : ZipWriter) : Call → Prop
  | .createDirectory path =>
    path ∈ writer.paths ∧
      (writer.finished = true ∨ ∃ content, writer.entries.lookup path = some (.file content))
  | .createParents _ | .writeFile _ _ | .finish => False

section Alike

variable {σ τ : Type} {R : σ → τ → Prop} {act : EStateM Fault σ Unit} {act' : EStateM Fault τ Unit}
  {s : σ} {t : τ}

theorem Alike.leaves (h : Alike R (act s) (act' t)) : R (leaves act s) (leaves act' t) := by
  unfold Retarget.leaves
  cases hact : act s <;> cases hact' : act' t <;> simp_all [Alike]

theorem Alike.ok_iff (h : Alike R (act s) (act' t)) :
    (∃ s', act s = .ok () s') ↔ ∃ t', act' t = .ok () t' := by
  cases hact : act s <;> cases hact' : act' t <;> simp_all [Alike]

/-- Steps that go on after they succeeded, and stop after they failed. -/
theorem Alike.bind {next : Unit → EStateM Fault σ Unit} {next' : Unit → EStateM Fault τ Unit}
    (h : Alike R (act s) (act' t)) (hnext : ∀ s t, R s t → Alike R (next () s) (next' () t)) :
    Alike R ((act >>= next) s) ((act' >>= next') t) := by
  simp only [Bind.bind, EStateM.bind]
  cases hact : act s with
  | ok _ s' =>
    cases hact' : act' t with
    | ok _ t' =>
      rw [hact, hact'] at h
      exact hnext s' t' h
    | error fault t' =>
      rw [hact, hact'] at h
      exact h.elim
  | error fault s' =>
    cases hact' : act' t with
    | ok _ t' =>
      rw [hact, hact'] at h
      exact h.elim
    | error fault' t' =>
      rw [hact, hact'] at h
      exact h

end Alike

namespace InStep

variable {writer : ZipWriter} {tree : MemoryTree} {path : EntryPath}

theorem contains_eq (h : InStep writer tree) (path : EntryPath) :
    tree.contains path = writer.contains path := by
  rw [MemoryTree.contains, node?, h.entries_eq, ZipWriter.contains]

theorem list_eq (h : InStep writer tree) : tree.list = writer.list := by
  rw [MemoryTree.list, h.entries_eq, ZipWriter.list]

theorem read_eq (h : InStep writer tree) (path : EntryPath) :
    tree.read path = writer.read path := by
  rw [MemoryTree.read, node?, h.entries_eq, ZipWriter.read]

/-- A new path is added to both at the end. -/
theorem put (h : InStep writer tree) (hnew : writer.contains path = false) (node : Node) :
    InStep (writer.add path node) (tree.put path node) := by
  have hnew' : ¬tree.contains path = true := by simp [h.contains_eq, hnew]
  rw [MemoryTree.put, if_neg hnew']
  exact ⟨congrArg (· ++ [(path, node)]) h.entries_eq, h.finished_eq⟩

theorem createDirectory (h : InStep writer tree) (hnew : writer.contains path = false) :
    Alike InStep (Destination.createDirectory path writer)
      (Destination.createDirectory path tree) := by
  have hnone : tree.node? path = none := by
    have hnew' := h.contains_eq path
    rw [hnew, MemoryTree.contains] at hnew'
    simpa using hnew'
  have hput := h.put hnew .directory
  simp only [Destination.createDirectory, step, ZipWriter.step, MemoryTree.createDirectory,
    ZipWriter.createDirectory, hnew, hnone, h.finished_eq]
  cases writer.finished with
  | true => exact h
  | false => exact hput

theorem writeFile (h : InStep writer tree) (path : EntryPath) {content : Bytes}
    (hroom : Zip.HasRoom content) :
    Alike InStep (Destination.writeFile path content writer)
      (Destination.writeFile path content tree) := by
  simp only [Destination.writeFile, step, ZipWriter.step, MemoryTree.writeFile,
    ZipWriter.writeFile, h.contains_eq, h.finished_eq, hroom]
  cases hthere : writer.contains path with
  | true => cases writer.finished <;> exact h
  | false =>
    have hput := h.put hthere (.file content)
    cases writer.finished with
    | true => exact h
    | false => exact hput

/-- Directories are only asked for where nothing is, so the two answer alike. -/
theorem createMissing (h : InStep writer tree) (paths : List EntryPath) :
    Alike InStep (Destination.createMissing paths writer)
      (Destination.createMissing paths tree) := by
  induction paths generalizing writer tree with
  | nil => exact h
  | cons path rest ih =>
    have hsame : Destination.contains tree path = Destination.contains writer path :=
      h.contains_eq path
    rw [Destination.createMissing_cons, Destination.createMissing_cons, hsame]
    cases hthere : Destination.contains writer path with
    | true => exact ih h
    | false => exact Alike.bind (h.createDirectory hthere) fun _ _ => ih

end InStep

section Step

variable {writer : ZipWriter} {tree : MemoryTree} {path : EntryPath} {s : ZipWriter × Disk}
  {call : Call}

theorem Alike.onWriter {act : EStateM Fault ZipWriter Unit} {act' : EStateM Fault MemoryTree Unit}
    (h : Alike InStep (act writer) (act' tree)) (disk : Disk) :
    Alike (fun s tree => InStep s.1 tree) (ZipWriter.onWriter act (writer, disk)) (act' tree) := by
  cases hact : act writer <;> cases hact' : act' tree <;>
    simp_all [Alike, ZipWriter.onWriter]

/-- A writer has no objection to a directory where something has been written. -/
theorem createDirectory_of_taken (hmem : path ∈ writer.paths) :
    Destination.createDirectory path writer = .ok () writer := by
  have hthere : writer.contains path = true := ZipWriter.contains_iff.mpr hmem
  simp only [Destination.createDirectory, ZipWriter.step, ZipWriter.createDirectory, hthere,
    if_true]

/-- A tree is content with a directory that it has, unless it is finished. -/
theorem createDirectory_of_directory (hopen : tree.finished = false)
    (hnode : tree.node? path = some .directory) :
    Destination.createDirectory path tree = .ok () tree := by
  simp only [Destination.createDirectory, step, MemoryTree.createDirectory, hopen, hnode,
    Bool.false_eq_true, if_false]

/-- The two answer alike when nothing parts them. -/
theorem InStep.perform_alike (h : InStep s.1 tree) (hroom : HasRoom call)
    (hnot : ¬Parts s.1 call) :
    Alike (fun s tree => InStep s.1 tree) (call.perform s) (perform call tree) := by
  obtain ⟨writer, disk⟩ := s
  cases call with
  | createDirectory path =>
    refine Alike.onWriter ?_ disk
    by_cases hmem : path ∈ writer.paths
    · have hthere := ZipWriter.contains_iff.mpr hmem
      obtain ⟨node, hnode⟩ := Option.isSome_iff_exists.mp hthere
      have hfree : ¬(writer.finished = true ∨
          ∃ content, writer.entries.lookup path = some (.file content)) := fun hor =>
        hnot ⟨hmem, hor⟩
      rw [not_or] at hfree
      have hopen : tree.finished = false := by
        rw [h.finished_eq]
        simpa using hfree.1
      have hdirectory : tree.node? path = some .directory := by
        rw [node?, h.entries_eq, hnode]
        cases node with
        | directory => rfl
        | file content => exact absurd ⟨content, hnode⟩ hfree.2
      have hwriter := createDirectory_of_taken hmem
      have htree : perform (.createDirectory path) tree = .ok () tree :=
        createDirectory_of_directory hopen hdirectory
      rw [hwriter, htree]
      exact h
    · have hnew : writer.contains path = false :=
        Bool.eq_false_iff.mpr fun hc => hmem (ZipWriter.contains_iff.mp hc)
      exact h.createDirectory hnew
  | createParents path => exact Alike.onWriter (h.createMissing path.ancestors) disk
  | writeFile path content => exact Alike.onWriter (h.writeFile path hroom) disk
  | finish =>
    rcases ZipWriter.perform_finish writer disk with ⟨hfinished, hok⟩ | ⟨_, hok⟩
    · rw [hok]
      exact ⟨h.entries_eq, hfinished.symm⟩
    · rw [hok]
      exact ⟨h.entries_eq, rfl⟩

/-- What parts them is accepted by the writer and refused by the tree, and changes neither. -/
theorem InStep.perform_parts (h : InStep s.1 tree) (hparts : Parts s.1 call) :
    call.perform s = .ok () s ∧ ∃ fault, perform call tree = .error fault tree := by
  obtain ⟨writer, disk⟩ := s
  cases call with
  | createDirectory path =>
    obtain ⟨hmem, hor⟩ := hparts
    have hrefused : tree.finished = true ∨ ∃ content, tree.node? path = some (.file content) := by
      rw [h.finished_eq, node?, h.entries_eq]
      exact hor
    have hok := createDirectory_of_taken hmem
    refine ⟨?_, createDirectory_of_refused hrefused⟩
    simp only [Call.perform, ZipWriter.onWriter, hok]
  | createParents path => exact hparts.elim
  | writeFile path content => exact hparts.elim
  | finish => exact hparts.elim

/-- A call succeeds on both or fails on both, unless it parts them. -/
theorem InStep.ok_iff (h : InStep s.1 tree) (hroom : HasRoom call) :
    ((∃ s', call.perform s = .ok () s') ↔ ∃ tree', perform call tree = .ok () tree') ↔
      ¬Parts s.1 call := by
  constructor
  · intro hsame hparts
    obtain ⟨hok, fault, herror⟩ := h.perform_parts hparts
    obtain ⟨tree', htree⟩ := hsame.mp ⟨s, hok⟩
    rw [herror] at htree
    cases htree
  · intro hnot
    exact (h.perform_alike hroom hnot).ok_iff

/-- Every call leaves the two in step, however they answer it. -/
theorem InStep.perform (h : InStep s.1 tree) (hroom : HasRoom call) :
    InStep (leaves call.perform s).1 (leaves (perform call) tree) := by
  by_cases hparts : Parts s.1 call
  · obtain ⟨hok, fault, herror⟩ := h.perform_parts hparts
    simp only [leaves, hok, herror]
    exact h
  · exact (h.perform_alike hroom hparts).leaves

/-- A file that has no room is refused by the writer, which it leaves as it was. -/
theorem perform_of_no_room (hroom : ¬HasRoom call) (s : ZipWriter × Disk) :
    ∃ fault, call.perform s = .error fault s := by
  rcases ZipWriter.perform_cases call s with ⟨hallowed, -⟩ | ⟨-, hrefused⟩
  · cases call with
    | writeFile path content => exact absurd hallowed.2.2 hroom
    | createDirectory path => exact absurd trivial hroom
    | createParents path => exact absurd trivial hroom
    | finish => exact absurd trivial hroom
  · exact hrefused

end Step

section Run

variable {tree : MemoryTree} {s : ZipWriter × Disk}

theorem snd_performAll_cons (call : Call) (rest : List Call) (s : ZipWriter × Disk) :
    (Call.performAll (call :: rest) s).2 = (Call.performAll rest (leaves call.perform s)).2 := by
  cases hcall : call.perform s with
  | ok _ s' => simp only [ZipWriter.performAll_cons_of_ok hcall, leaves, hcall]
  | error fault s' => simp only [ZipWriter.performAll_cons_of_error hcall, leaves, hcall]

theorem InStep.performAll (h : InStep s.1 tree) (calls : List Call) :
    InStep (Call.performAll calls s).2.1
      (performAll (calls.filter fun call => HasRoom call) tree) := by
  induction calls generalizing s tree with
  | nil => exact h
  | cons call rest ih =>
    rw [snd_performAll_cons]
    by_cases hroom : HasRoom call
    · rw [List.filter_cons_of_pos (by simpa using hroom)]
      exact ih (h.perform hroom)
    · obtain ⟨fault, herror⟩ := perform_of_no_room hroom s
      have hleft : leaves call.perform s = s := by rw [leaves, herror]
      rw [List.filter_cons_of_neg (by simpa using hroom), hleft]
      exact ih h

/-- An opened archive has the entries of a tree, and their contents. -/
structure Mirrors (archive : ZipTree) (tree : MemoryTree) : Prop where
  list_eq : archive.list = tree.list
  read_eq : ∀ path, archive.read path = .ok (tree.read path)

theorem InStep.mirrors {writer : ZipWriter} (h : InStep writer tree) {archive : ZipTree}
    (hlist : archive.list = writer.list)
    (hread : ∀ entry, archive.read entry = .ok (writer.read entry)) : Mirrors archive tree := by
  refine ⟨?_, fun entry => ?_⟩
  · rw [hlist, h.list_eq]
  · rw [hread, h.read_eq]

/-- Whatever is called, in any order, files that have no room left out: a fresh tree has what the
calls that succeeded on a fresh writer created, it contains what the writer contains all along, and
the two answer the next call alike exactly when it does not part them. A file that has no room is
refused by the writer alone. What is then found in the writer's file, the writer being finished or
given up, is what the tree has. -/
theorem writers_in_step {path : Path} {disk made : Disk} {fresh : ZipWriter} {calls : List Call}
    (hcreate : ZipWriter.create path disk = .ok fresh made)
    (hnormal : ∀ call ∈ calls, call.IsNormal) (location : Text) :
    ∃ done writer left tree, Call.performAll calls (fresh, made) = (done, writer, left) ∧
      performAll (calls.filter fun call => HasRoom call) (empty location) = tree ∧
      ((∀ call ∈ calls, HasRoom call) → performAll calls (empty location) = tree) ∧
      tree.entries = ZipWriter.created done ∧ tree.finished = writer.finished ∧
      (∀ entry, tree.contains entry = writer.contains entry) ∧
      (∀ call, HasRoom call →
        (((∃ s, call.perform (writer, left) = .ok () s) ↔
            ∃ next, perform call tree = .ok () next) ↔ ¬Parts writer call)) ∧
      (∀ call, Parts writer call → call.perform (writer, left) = .ok () (writer, left) ∧
        ∃ fault, perform call tree = .error fault tree) ∧
      (∀ call, ¬HasRoom call →
        ∃ fault, call.perform (writer, left) = .error fault (writer, left)) ∧
      writer.FoundAt (writer.abandon left).files path (Mirrors · tree) ∧
      (∀ image, writer.ReadBack image →
        ∃ archive, ZipTree.ofImage path image = .ok archive ∧ Mirrors archive tree) ∧
      (writer.finished = true → writer.abandon left = left) := by
  have hdisk := ZipWriter.onDisk_performAll calls (ZipWriter.onDisk_create hcreate)
  obtain ⟨rfl, -, -⟩ := ZipWriter.create_eq_ok hcreate
  have horderly : (Call.performAll calls (.ofPath path, made)).2.1.Orderly :=
    ZipWriter.orderly_performAll hnormal
  have hbegin : InStep (.ofPath path) (empty location) := ⟨rfl, rfl⟩
  have hstep : InStep (Call.performAll calls (.ofPath path, made)).2.1
      (performAll (calls.filter fun call => HasRoom call) (empty location)) :=
    InStep.performAll hbegin calls
  have hcreated : (Call.performAll calls (.ofPath path, made)).2.1.entries =
      ZipWriter.created (Call.performAll calls (.ofPath path, made)).1 :=
    ZipWriter.entries_performAll calls (.ofPath path, made)
  have hsame (hroom : ∀ call ∈ calls, HasRoom call) :
      performAll calls (empty location) =
        performAll (calls.filter fun call => HasRoom call) (empty location) := by
    rw [List.filter_eq_self.mpr (by simpa using hroom)]
  rcases hrun : Call.performAll calls (.ofPath path, made) with ⟨done, writer, left⟩
  rw [hrun] at hdisk horderly hstep hcreated
  have hfound := ZipWriter.foundAt_of_readFile horderly (ZipWriter.readFile_abandon hdisk)
  refine ⟨done, writer, left, _, rfl, rfl, hsame, hstep.entries_eq.trans hcreated,
    hstep.finished_eq, hstep.contains_eq, fun call => InStep.ok_iff hstep,
    fun call => InStep.perform_parts hstep, fun call hroom => perform_of_no_room hroom _,
    hfound.imp fun archive h => hstep.mirrors h.1 h.2, fun image hback => ?_,
    fun hfinished => ZipWriter.abandon_of_finished hfinished left⟩
  obtain ⟨archive, harchive, hlist, hread⟩ := ZipWriter.ofImage_of_readBack horderly hback path
  exact ⟨archive, harchive, hstep.mirrors hlist hread⟩

def takenPath : List Call := [.writeFile ⟨['a']⟩ [120]]

theorem hasRoom_takenPath : ∀ call ∈ takenPath, HasRoom call := by
  decide +kernel

theorem performAll_takenPath (path : Path) (disk : Disk) :
    Call.performAll takenPath (.ofPath path, disk) =
      (takenPath, (ZipWriter.ofPath path).add ⟨['a']⟩ (.file [120]), disk) := by
  have hroom : Zip.HasRoom [120] := hasRoom_takenPath _ (List.mem_singleton_self _)
  have hnew : (⟨['a']⟩ : EntryPath) ∉ (ZipWriter.ofPath path).paths := List.not_mem_nil
  have hwrite := ZipWriter.writeFile_of_open hnew rfl hroom
  have hok : Call.perform (.writeFile ⟨['a']⟩ [120]) (.ofPath path, disk) =
      .ok () ((ZipWriter.ofPath path).add ⟨['a']⟩ (.file [120]), disk) := by
    rw [Call.perform, ZipWriter.onWriter, hwrite]
  rw [takenPath, ZipWriter.performAll_cons_of_ok hok]
  rfl

theorem writers_in_step_takenPath :
    ∃ fresh made, ZipWriter.create ⟨"out.jar".toList⟩ (.ofFiles ⟨[], []⟩) = .ok fresh made ∧
      (∀ call ∈ takenPath, call.IsNormal) ∧
      ∃ done writer left tree, Call.performAll takenPath (fresh, made) = (done, writer, left) ∧
        performAll takenPath (empty []) = tree ∧
        (∀ entry, tree.contains entry = writer.contains entry) ∧
        (Call.createDirectory ⟨['a']⟩).perform (writer, left) = .ok () (writer, left) ∧
        ∃ fault, perform (.createDirectory ⟨['a']⟩) tree = .error fault tree := by
  obtain ⟨made, hcreate⟩ : ∃ made, ZipWriter.create ⟨"out.jar".toList⟩ (.ofFiles ⟨[], []⟩) =
      .ok (.ofPath ⟨"out.jar".toList⟩) made := ⟨_, rfl⟩
  have hentries := congrArg (·.2.1.entries) (performAll_takenPath ⟨"out.jar".toList⟩ made)
  have hnormal : ∀ call ∈ takenPath, call.IsNormal := by decide
  obtain ⟨done, writer, left, tree, hrun, -, htree, -, -, hcontains, -, hparts, -⟩ :=
    writers_in_step hcreate hnormal []
  rw [hrun] at hentries
  have hentries : writer.entries = [(⟨['a']⟩, .file [120])] := hentries
  have hpart : Parts writer (.createDirectory ⟨['a']⟩) := by
    refine ⟨?_, Or.inr ⟨[120], ?_⟩⟩
    · rw [ZipWriter.paths, hentries]
      decide
    · rw [hentries]
      decide
  obtain ⟨hok, hrefused⟩ := hparts _ hpart
  exact ⟨_, made, hcreate, hnormal, done, writer, left, tree, hrun, htree hasRoom_takenPath,
    hcontains, hok, hrefused⟩

/-- Not every call is answered alike. -/
theorem file_path_parts_writers :
    ¬∀ (path : Path) (disk made : Disk) (fresh : ZipWriter) (calls : List Call) (call : Call)
        (location : Text),
      ZipWriter.create path disk = .ok fresh made → (∀ call ∈ calls, call.IsNormal) →
      call.IsNormal →
      ((∃ s, call.perform (Call.performAll calls (fresh, made)).2 = .ok () s) ↔
        ∃ next, perform call (performAll calls (empty location)) = .ok () next) := by
  intro hsame
  obtain ⟨fault, hrefused⟩ : ∃ fault, perform (.createDirectory ⟨['a']⟩)
      (performAll takenPath (empty [])) = .error fault (performAll takenPath (empty [])) := ⟨_, rfl⟩
  have halike := hsame ⟨"out.jar".toList⟩ (.ofFiles ⟨[], []⟩) _ (.ofPath ⟨"out.jar".toList⟩)
    takenPath (.createDirectory ⟨['a']⟩) [] rfl (by decide) (by decide)
  rw [performAll_takenPath] at halike
  obtain ⟨next, hok⟩ := halike.mp ⟨_, rfl⟩
  rw [hrefused] at hok
  cases hok

end Run

end Retarget.MemoryTree

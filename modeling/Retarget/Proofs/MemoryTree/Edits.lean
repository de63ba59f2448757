import Mathlib.Data.List.Induction
import Retarget.Proofs.EntryPath.Ancestors
import Retarget.Proofs.MemoryTree.Lockstep

/-!
Trees in memory that are edited in any way. Nodes are put into them by name while they are built, and
the calls of a writer are made to them, in any order and whether they succeed or not. A call that
fails changes nothing, and one that succeeds adds those of the paths that it asks for that are new,
in its own order, unless the tree is finished. Only a node that is put by name takes the place of
another, and it stands where that one stood.
-/
namespace Retarget.MemoryTree

open ZipWriter (Call)

/-- What is done to a tree: a node put at the path that a name stands for, or a writer's call. -/
inductive Edit
  | withNode (raw : Text) (node : Node)
  | call (request : Call)

class Editable (W : Type) where
  withNode : W → Text → Node → Except EntryPathError W
  perform : Call → EStateM Fault W Unit

instance : Editable MemoryTree where
  withNode := withNode
  perform := perform

namespace Edit

section Run

variable {W : Type} [Editable W]

def perform : Edit → EStateM Fault W Unit
  | .withNode raw node => fun tree =>
    match Editable.withNode tree raw node with
    | .ok tree => .ok () tree
    | .error fault => .error (.text (fixtureMessage fault)) tree
  | .call request => Editable.perform request

def fault? (edit : Edit) (tree : W) : Option Fault :=
  match edit.perform tree with
  | .ok _ _ => none
  | .error fault _ => some fault

/-- What is left of a tree by edits made one after the other, whether they succeed or not. -/
def performAll (edits : List Edit) (tree : W) : W :=
  edits.foldl (fun tree edit => leaves edit.perform tree) tree

def done : List Edit → W → List Edit
  | [], _ => []
  | edit :: rest, tree =>
    let later := done rest (leaves edit.perform tree)
    if (edit.fault? tree).isNone then edit :: later else later

end Run

/-- The paths that an edit puts something at, unless there is something already that it leaves. -/
def keys : Edit → List EntryPath
  | .withNode raw _ => (EntryPath.parse raw).toOption.toList
  | .call request => request.asked.map Prod.fst

end Edit

def note (paths : List EntryPath) (path : EntryPath) : List EntryPath :=
  if path ∈ paths then paths else paths ++ [path]

section Note

variable {paths keys : List EntryPath}

/-- Of several different paths the new ones are noted. -/
theorem foldl_note_of_nodup (h : keys.Nodup) :
    keys.foldl note paths = paths ++ keys.filter (· ∉ paths) := by
  induction keys generalizing paths with
  | nil => simp
  | cons key rest ih =>
    obtain ⟨hkey, hrest⟩ := List.nodup_cons.mp h
    rw [List.foldl_cons, ih hrest]
    by_cases hthere : key ∈ paths
    · rw [note, if_pos hthere, List.filter_cons_of_neg (by simpa using hthere)]
    · rw [note, if_neg hthere, filter_not_mem_concat hkey, List.append_assoc,
        List.filter_cons_of_pos (by simpa using hthere), List.singleton_append]

/-- Noting paths one by one leaves out those that came before. -/
theorem foldl_note_nil (keys : List EntryPath) : keys.foldl note [] = keys.eraseDups := by
  induction keys using List.reverseRecOn with
  | nil => rfl
  | append_singleton keys key ih =>
    rw [List.foldl_append, ih, List.eraseDups_append, List.foldl_cons, List.foldl_nil, note]
    by_cases hthere : key ∈ keys
    · simp [hthere, List.removeAll]
    · simp [hthere, List.removeAll, List.eraseDups_cons]

end Note

variable {tree : MemoryTree} {path : EntryPath}

theorem paths_put (tree : MemoryTree) (path : EntryPath) (node : Node) :
    (tree.put path node).paths = note tree.paths path := by
  unfold put note
  by_cases hthere : path ∈ tree.paths
  · rw [if_pos (contains_iff.mpr hthere), if_pos hthere]
    exact map_fst_map_put tree.entries path node
  · rw [contains_of_not_mem hthere, if_neg hthere, if_neg Bool.false_ne_true, paths, paths,
      List.map_append]
    rfl

theorem node?_put (tree : MemoryTree) (path other : EntryPath) (node : Node) :
    (tree.put path node).node? other = if other = path then some node else tree.node? other := by
  unfold put
  by_cases hthere : path ∈ tree.paths
  · have hmem : path ∈ tree.entries.map Prod.fst := hthere
    rw [if_pos (contains_iff.mpr hthere)]
    simp only [node?, lookup_map_put, hmem, and_true]
  · have hnone : tree.entries.lookup path = none := lookup_eq_none_iff.mpr hthere
    rw [contains_of_not_mem hthere, if_neg Bool.false_ne_true]
    simp only [node?, List.lookup_append]
    by_cases hother : other = path
    · subst hother
      simp [hnone]
    · have hne : (other == path) = false := by simpa using hother
      simp [List.lookup_cons, hother, hne]

inductive Outcome (tree : MemoryTree) : Edit → Option Fault → MemoryTree → Prop
  | refused (edit : Edit) (fault : Fault) : Outcome tree edit (some fault) tree
  | put {raw : Text} {path : EntryPath} (node : Node) (hparse : EntryPath.parse raw = .ok path) :
    Outcome tree (.withNode raw node) none (tree.put path node)
  | added {request : Call} {new : List (EntryPath × Node)}
    (hnew : new.map Prod.fst = (request.asked.map Prod.fst).filter (· ∉ tree.paths))
    (hfinished : tree.finished = true → new = []) :
    Outcome tree (.call request) none (tree.extend new)
  | finished : Outcome tree (.call .finish) none tree.finish

section Step

variable {edit : Edit} {request : Call} {after : MemoryTree}

theorem outcome_of_ok (hperform : edit.perform tree = .ok () after)
    (h : Outcome tree edit none after) :
    Outcome tree edit (edit.fault? tree) (leaves edit.perform tree) := by
  simpa only [Edit.fault?, leaves, hperform] using h

theorem outcome_of_refused (hperform : ∃ fault, edit.perform tree = .error fault tree) :
    Outcome tree edit (edit.fault? tree) (leaves edit.perform tree) := by
  obtain ⟨fault, hperform⟩ := hperform
  simpa only [Edit.fault?, leaves, hperform] using Outcome.refused edit fault

/-- A path that is there already is left alone, by a call that has no objection to it. -/
theorem outcome_of_there (hperform : perform request tree = .ok () tree)
    (hthere : ∀ path ∈ request.asked.map Prod.fst, path ∈ tree.paths) :
    Outcome tree (.call request) ((Edit.call request).fault? tree)
      (leaves (Edit.call request).perform tree) := by
  have hnone : (request.asked.map Prod.fst).filter (· ∉ tree.paths) = [] := by
    simpa using hthere
  have hadded : Outcome tree (.call request) none (tree.extend []) :=
    .added (by rw [hnone, List.map_nil]) fun _ => rfl
  rw [extend_nil] at hadded
  exact outcome_of_ok hperform hadded

theorem outcome_createDirectory (tree : MemoryTree) (path : EntryPath) :
    Outcome tree (.call (.createDirectory path)) ((Edit.call (.createDirectory path)).fault? tree)
      (leaves (Edit.call (.createDirectory path)).perform tree) := by
  by_cases hopen : tree.finished = false
  · cases hnode : tree.node? path with
    | none =>
      have hnew : path ∉ tree.paths := lookup_eq_none_iff.mp hnode
      refine outcome_of_ok (createDirectory_of_not_mem hnew hopen) (.added ?_ ?_)
      · simp [Call.asked, hnew]
      · simp [hopen]
    | some node =>
      cases node with
      | file content => exact outcome_of_refused (createDirectory_of_refused (Or.inr ⟨_, hnode⟩))
      | directory =>
        have hthere : path ∈ tree.paths := contains_iff.mp (by rw [contains, hnode]; rfl)
        refine outcome_of_there (createDirectory_of_directory hopen hnode) ?_
        simpa [Call.asked] using hthere
  · exact outcome_of_refused (createDirectory_of_refused (Or.inl (by simpa using hopen)))

theorem outcome_createParents (tree : MemoryTree) (path : EntryPath) :
    Outcome tree (.call (.createParents path)) ((Edit.call (.createParents path)).fault? tree)
      (leaves (Edit.call (.createParents path)).perform tree) := by
  rcases Appending.createMissing_cases tree path.nodup_ancestors with
    ⟨hallowed, hok⟩ | ⟨-, fault, hrefused⟩
  · refine outcome_of_ok hok (.added ?_ fun hfinished => ?_)
    · simp only [Call.asked, List.map_map, Function.comp_def, List.map_id']
      rfl
    · have hnone : path.ancestors.filter (· ∉ Appending.paths tree) = [] := by
        simpa using hallowed hfinished
      rw [hnone, List.map_nil]
  · exact outcome_of_refused ⟨fault, hrefused⟩

theorem outcome_writeFile (tree : MemoryTree) (path : EntryPath) (content : Bytes) :
    Outcome tree (.call (.writeFile path content))
      ((Edit.call (.writeFile path content)).fault? tree)
      (leaves (Edit.call (.writeFile path content)).perform tree) := by
  by_cases hrefused : path ∈ tree.paths ∨ tree.finished = true
  · exact outcome_of_refused (writeFile_of_refused hrefused content)
  · obtain ⟨hnew, hopen⟩ := not_or.mp hrefused
    have hopen : tree.finished = false := by simpa using hopen
    refine outcome_of_ok (writeFile_of_not_mem hnew hopen content) (.added ?_ ?_)
    · simp [Call.asked, hnew]
    · simp [hopen]

/-- There is no other outcome. -/
theorem outcome (edit : Edit) (tree : MemoryTree) :
    Outcome tree edit (edit.fault? tree) (leaves edit.perform tree) := by
  cases edit with
  | withNode raw node =>
    have hput : Editable.withNode tree raw node =
        (EntryPath.parse raw).map fun path => tree.put path node := rfl
    cases hparse : EntryPath.parse raw with
    | error fault =>
      refine outcome_of_refused ⟨.text (fixtureMessage fault), ?_⟩
      simp only [Edit.perform, hput, hparse, Except.map]
    | ok path =>
      refine outcome_of_ok ?_ (.put node hparse)
      simp only [Edit.perform, hput, hparse, Except.map]
  | call request =>
    cases request with
    | createDirectory path => exact outcome_createDirectory tree path
    | createParents path => exact outcome_createParents tree path
    | writeFile path content => exact outcome_writeFile tree path content
    | finish => exact outcome_of_ok rfl .finished

end Step

theorem nodup_keys (edit : Edit) : edit.keys.Nodup := by
  cases edit with
  | withNode raw node => cases h : EntryPath.parse raw <;> simp [Edit.keys, h, Except.toOption]
  | call request =>
    cases request with
    | createDirectory path => simp [Edit.keys, Call.asked]
    | createParents path =>
      simpa [Edit.keys, Call.asked, Function.comp_def] using path.nodup_ancestors
    | writeFile path content => simp [Edit.keys, Call.asked]
    | finish => simp [Edit.keys, Call.asked]

namespace Outcome

variable {edit : Edit} {request : Call} {fault : Option Fault} {after : MemoryTree}

theorem eq_of_refused (h : Outcome tree edit fault after) (hfault : fault ≠ none) :
    after = tree := by
  cases h with
  | refused => rfl
  | put => exact absurd rfl hfault
  | added => exact absurd rfl hfault
  | finished => exact absurd rfl hfault

/-- A finished tree is left as it is by any call. -/
theorem eq_of_finished (h : Outcome tree (.call request) fault after)
    (hfinished : tree.finished = true) : after = tree := by
  cases h with
  | refused => rfl
  | added _ hnone => rw [hnone hfinished, extend_nil]
  | finished =>
    obtain ⟨location, entries, finished⟩ := tree
    cases hfinished
    rfl

theorem finished_of_finished (h : Outcome tree edit fault after)
    (hfinished : tree.finished = true) : after.finished = true := by
  cases h with
  | refused => exact hfinished
  | put node =>
    unfold MemoryTree.put
    split <;> exact hfinished
  | added => exact hfinished
  | finished => rfl

/-- The paths that a successful edit puts something at are noted. -/
theorem paths_eq (h : Outcome tree edit fault after) :
    after.paths = (if fault.isNone then edit.keys else []).foldl note tree.paths := by
  cases h with
  | refused => rfl
  | @put raw path node hparse =>
    have hkeys : (Edit.withNode raw node).keys = [path] := by
      rw [Edit.keys, hparse]
      rfl
    rw [paths_put, Option.isNone_none, if_pos rfl, hkeys]
    rfl
  | added hnew =>
    rw [Option.isNone_none, if_pos rfl, foldl_note_of_nodup (nodup_keys _), paths_extend, hnew]
    rfl
  | finished => rfl

/-- Paths stay where they are, and new ones go to the end. -/
theorem prefix_paths (h : Outcome tree edit fault after) : tree.paths <+: after.paths := by
  rw [h.paths_eq]
  split
  · rw [foldl_note_of_nodup (nodup_keys edit)]
    exact List.prefix_append _ _
  · exact List.prefix_refl _

theorem nodup_paths (h : Outcome tree edit fault after) (hnodup : tree.paths.Nodup) :
    after.paths.Nodup := by
  rw [h.paths_eq]
  split
  · rw [foldl_note_of_nodup (nodup_keys edit)]
    refine hnodup.append ((nodup_keys edit).filter _) fun path hthere hnew => ?_
    have hmissing : path ∉ tree.paths := by simpa using (List.mem_filter.mp hnew).2
    exact hmissing hthere
  · exact hnodup

/-- What is at a path stays there, unless a node is put there by name. -/
theorem node?_eq (h : Outcome tree edit fault after) (hmem : path ∈ tree.paths) :
    after.node? path = tree.node? path ∨ ∃ raw node, edit = .withNode raw node ∧
      EntryPath.parse raw = .ok path ∧ after.node? path = some node := by
  cases h with
  | refused => exact Or.inl rfl
  | @put raw place node hparse =>
    rw [node?_put]
    by_cases hplace : path = place
    · subst hplace
      exact Or.inr ⟨raw, node, rfl, hparse, if_pos rfl⟩
    · exact Or.inl (if_neg hplace)
  | @added _ new =>
    have hthere : path ∈ Appending.paths tree := hmem
    obtain ⟨node, hnode⟩ := Appending.node?_eq_some_of_mem hthere
    have hkept : (tree.extend new).node? path = some node :=
      Appending.node?_extend_of_some hnode new
    exact Or.inl (hkept.trans hnode.symm)
  | finished => exact Or.inl rfl

end Outcome

section Run

variable {edits : List Edit}

theorem nodup_performAll (hnodup : tree.paths.Nodup) :
    (Edit.performAll edits tree).paths.Nodup := by
  induction edits generalizing tree with
  | nil => exact hnodup
  | cons edit rest ih => exact ih ((outcome edit tree).nodup_paths hnodup)

theorem finished_performAll (h : tree.finished = true ∨ .call .finish ∈ edits) :
    (Edit.performAll edits tree).finished = true := by
  induction edits generalizing tree with
  | nil => exact h.resolve_right (List.not_mem_nil)
  | cons edit rest ih =>
    refine ih ?_
    rcases h with hfinished | hmem
    · exact Or.inl ((outcome edit tree).finished_of_finished hfinished)
    · rcases List.mem_cons.mp hmem with rfl | hlater
      · exact Or.inl rfl
      · exact Or.inr hlater

/-- All paths are noted that successful edits put something at, in the order of the edits. -/
theorem paths_performAll (edits : List Edit) (tree : MemoryTree) :
    (Edit.performAll edits tree).paths =
      ((Edit.done edits tree).flatMap Edit.keys).foldl note tree.paths := by
  induction edits generalizing tree with
  | nil => rfl
  | cons edit rest ih =>
    have hstep : (leaves edit.perform tree).paths = _ := (outcome edit tree).paths_eq
    have hrest : (Edit.performAll (edit :: rest) tree).paths = _ := ih (leaves edit.perform tree)
    rw [hrest, hstep, Edit.done]
    split
    · rw [List.flatMap_cons, List.foldl_append]
    · rfl

end Run

section Listing

theorem read_of_not_mem (h : path ∉ tree.paths) : tree.read path = none := by
  rw [read, node?, lookup_eq_none_iff.mpr h, Option.bind_none]

/-- An entry that is listed is a directory that cannot be read, or a file that can. -/
theorem mem_list_cases (hnodup : tree.paths.Nodup) {entry : ArchiveEntry} (h : entry ∈ tree.list) :
    entry.kind = .directory ∧ tree.node? entry.path = some .directory ∧
        tree.read entry.path = none ∨
      ∃ content, entry.kind = .file ∧ tree.node? entry.path = some (.file content) ∧
        tree.read entry.path = some content := by
  obtain ⟨⟨place, node⟩, hmem, rfl⟩ := List.mem_map.mp h
  have hread := read_of_mem hnodup hmem
  have hnode := node?_of_mem hnodup hmem
  cases node with
  | directory => exact Or.inl ⟨rfl, hnode, hread⟩
  | file content => exact Or.inr ⟨content, rfl, hnode, hread⟩

end Listing

end Retarget.MemoryTree

import Retarget.Proofs.Support.Presence

/-!
The directories above a path that is to be written. Those that are missing are made, outermost
first; a path above that is there is passed over, whether it is a directory or a file. So after a
success all paths above are directories exactly when none of them was a file before, and a support
class comes to stand below a file when there was one already, or when the file above it is a support
class that has just been added.
-/
namespace Retarget

open Appending (paths node? extend finished IsFile)

variable {W : Type} [Destination W] [Appending W] {dest dest' : W} {path above : EntryPath}

namespace Destination

/-- After a success there is at every path above what was there before, or else a directory. -/
theorem node?_of_createParents (h : createParents path dest = .ok () dest')
    (habove : above ∈ path.ancestors) :
    node? dest' above = (node? dest above).or (some .directory) := by
  obtain ⟨-, rfl⟩ := (Appending.createMissing_eq_ok_iff path.nodup_ancestors).mp h
  by_cases hthere : above ∈ paths dest
  · obtain ⟨node, hnode⟩ := Appending.node?_eq_some_of_mem hthere
    rw [Appending.node?_extend_of_some hnode, hnode, Option.some_or]
  · have hmissing : above ∈ path.ancestors.filter (· ∉ paths dest) :=
      List.mem_filter.mpr ⟨habove, by simpa using hthere⟩
    have hnodup : (((path.ancestors.filter (· ∉ paths dest)).map fun missing =>
        (missing, Node.directory)).map Prod.fst).Nodup := by
      simpa [Function.comp_def] using path.nodup_ancestors.filter (· ∉ paths dest)
    rw [Appending.node?_extend_of_not_mem hthere, Appending.node?_eq_none_iff.mpr hthere,
      Option.none_or]
    exact lookup_of_mem hnodup (List.mem_map.mpr ⟨above, hmissing, rfl⟩)

theorem directory_of_createParents_iff (h : createParents path dest = .ok () dest')
    (habove : above ∈ path.ancestors) :
    node? dest' above = some .directory ↔ ¬IsFile dest above := by
  rw [node?_of_createParents h habove, IsFile]
  cases node? dest above with
  | none => simp
  | some node => cases node <;> simp

end Destination

namespace Injection

variable {required : NameSet} {catalog : Catalog} {fs : FileSystem} {added : List ClassName}
  {name : ClassName}

theorem mem_paths_additions {present : List EntryPath} {new : List (ClassName × Bytes)}
    {f : ClassName × Bytes} (hf : f ∈ new) (habove : above ∈ (EntryPath.ofClass f.1).ancestors) :
    above ∈ present ∨ above ∈ (additions present new).map Prod.fst := by
  induction new generalizing present with
  | nil => cases hf
  | cons first rest ih =>
    rw [additions, List.map_append, List.mem_append, ← or_assoc, ← List.mem_append]
    rcases List.mem_cons.mp hf with rfl | hf
    · refine Or.inl (List.mem_append.mpr ?_)
      by_cases hthere : above ∈ present
      · exact Or.inl hthere
      · rw [map_fst_placed]
        exact Or.inr (List.mem_append_left _ (List.mem_filter.mpr ⟨habove, by simpa using hthere⟩))
    · exact ih hf

theorem mem_paths_of_above (h : inject required catalog fs dest = .ok added dest')
    (hname : name ∈ added) (habove : above ∈ (EntryPath.ofClass name).ancestors) :
    above ∈ paths dest' := by
  obtain ⟨new, -, -, -, -, rfl, rfl⟩ := exists_new_of_inject h
  obtain ⟨f, hf, rfl⟩ := List.mem_map.mp hname
  rw [Appending.paths_extend, List.mem_append]
  exact mem_paths_additions hf habove

/-- A path above an added class is a file's if it was one, or if it is an added class's. -/
theorem isFile_above_iff (h : inject required catalog fs dest = .ok added dest')
    (hname : name ∈ added) (habove : above ∈ (EntryPath.ofClass name).ancestors) :
    IsFile dest' above ↔ IsFile dest above ∨ ∃ other ∈ added, above = .ofClass other := by
  constructor
  · rintro ⟨content, hnow⟩
    by_cases hthere : above ∈ paths dest
    · obtain ⟨node, hnode⟩ := Appending.node?_eq_some_of_mem hthere
      rw [node?_of_inject h hnode] at hnow
      exact Or.inl ⟨content, hnode.trans hnow⟩
    · obtain ⟨new, -, -, -, -, rfl, rfl⟩ := exists_new_of_inject h
      rw [Appending.node?_extend_of_not_mem hthere] at hnow
      obtain ⟨f, hf, hclass | ⟨hdirectory, -⟩⟩ := mem_additions (mem_of_lookup hnow)
      · exact Or.inr ⟨f.1, List.mem_map_of_mem hf, congrArg Prod.fst hclass⟩
      · cases hdirectory
  · rintro (⟨content, hbefore⟩ | ⟨other, hother, rfl⟩)
    · exact ⟨content, node?_of_inject h hbefore⟩
    · obtain ⟨bytes, -, hnow⟩ := node?_of_added h hother
      exact ⟨bytes, hnow⟩

/-- Parent directories. Asking for those above a path succeeds unless the destination is finished
and lacks one, and a refusal leaves it as it was. After a success the missing ones have been added
as directories, outermost first, and each path above is a directory unless a file was there before.
Above a support class that was added, each path is a directory unless a file was there before or it
is the path of another class that was added. -/
theorem parents_are_directories_unless_files (dest : W) :
    (∀ path : EntryPath,
      path.ancestors.Pairwise (fun outer inner => outer ∈ inner.ancestors) ∧
      ((∃ dest', Destination.createParents path dest = .ok () dest') ↔
        (finished dest = true → ∀ above ∈ path.ancestors, above ∈ paths dest)) ∧
      (∀ fault dest', Destination.createParents path dest = .error fault dest' → dest' = dest) ∧
      ∀ dest', Destination.createParents path dest = .ok () dest' →
        dest' = extend dest ((path.ancestors.filter (· ∉ paths dest)).map (·, .directory)) ∧
        ∀ above ∈ path.ancestors, node? dest' above = some .directory ↔ ¬IsFile dest above) ∧
    ∀ (required : NameSet) (catalog : Catalog) (fs : FileSystem) (added : List ClassName)
      (dest' : W), inject required catalog fs dest = .ok added dest' →
      ∀ name ∈ added, ∀ above ∈ (EntryPath.ofClass name).ancestors,
        node? dest' above = some .directory ↔
          ¬(IsFile dest above ∨ ∃ other ∈ added, above = .ofClass other) := by
  refine ⟨fun path => ⟨path.pairwise_ancestors, ?_, ?_, ?_⟩, ?_⟩
  · simp only [Destination.createParents,
      Appending.createMissing_eq_ok_iff path.nodup_ancestors, exists_and_left, exists_eq, and_true]
  · exact fun fault dest' => Appending.createMissing_eq_error path.nodup_ancestors
  · intro dest' h
    obtain ⟨-, hmade⟩ := (Appending.createMissing_eq_ok_iff path.nodup_ancestors).mp h
    exact ⟨hmade, fun above => Destination.directory_of_createParents_iff h⟩
  · intro required catalog fs added dest' h name hname above habove
    rw [Appending.directory_iff_of_mem (mem_paths_of_above h hname habove),
      isFile_above_iff h hname habove]

/-- A tree with one file, where a directory of `outerClass` should be. -/
def fileAbove : MemoryTree := ⟨"new".toList, [(⟨"a".toList⟩, .file [120])], false⟩

/-- Below the file a directory is made, and a support class is added. -/
theorem parents_are_directories_unless_files_fileAbove :
    (∃ dest', Destination.createParents ⟨"a/b/c".toList⟩ fileAbove = .ok () dest' ∧
      node? dest' ⟨"a/b".toList⟩ = some .directory ∧
      node? dest' ⟨"a".toList⟩ ≠ some .directory) ∧
    ∃ dest', inject (.ofList [outerClass]) threeClasses ⟨[], []⟩ fileAbove =
        .ok [outerClass] dest' ∧
      node? dest' ⟨"a".toList⟩ ≠ some .directory := by
  obtain ⟨hparents, hinject⟩ := parents_are_directories_unless_files fileAbove
  obtain ⟨-, hsucceeds, -, hmade⟩ := hparents ⟨"a/b/c".toList⟩
  have hfile : IsFile fileAbove ⟨"a".toList⟩ := ⟨[120], rfl⟩
  have hfree : ¬IsFile fileAbove ⟨"a/b".toList⟩ := by
    rintro ⟨content, hnode⟩
    cases hnode
  refine ⟨?_, ?_⟩
  · obtain ⟨dest', hok⟩ := hsucceeds.mpr fun hfinished => absurd hfinished (by decide)
    obtain ⟨-, hdirectory⟩ := hmade dest' hok
    exact ⟨dest', hok, (hdirectory _ (by decide)).mpr hfree,
      fun h => (hdirectory _ (by decide)).mp h hfile⟩
  · have hok : inject (.ofList [outerClass]) threeClasses ⟨[], []⟩ fileAbove =
        .ok [outerClass] (fileAbove.extend [(⟨"a/B.class".toList⟩, .file [1])]) := by rfl
    refine ⟨_, hok, fun h => ?_⟩
    have hnot := (hinject _ _ _ _ _ hok outerClass (by simp) _ (by decide)).mp h
    exact hnot (Or.inl hfile)

/-- A file above a path is passed over as a directory is. -/
theorem file_above_passed_over :
    ¬∀ (W : Type) [Destination W] [Appending W] (dest dest' : W) (path : EntryPath),
      Destination.createParents path dest = .ok () dest' →
        ∀ above ∈ path.ancestors, node? dest' above = some .directory := by
  intro hall
  have hdirectory := hall MemoryTree fileAbove (fileAbove.extend [(⟨"a/b".toList⟩, .directory)])
    ⟨"a/b/c".toList⟩ rfl ⟨"a".toList⟩ (by decide)
  cases hdirectory

end Injection

end Retarget

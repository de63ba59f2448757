import Retarget.Proofs.MemoryTree.Entries
import Retarget.Proofs.Support.AllOrNothing
import Retarget.Proofs.ZipWriter.Entries

/-!
What a destination holds at the paths of the recorded classes after they were put in. Nothing that
was held is changed, so a class's path that was free gets the catalog's bytes, a file that was there
keeps its own, and a directory stays a directory: whether something is there is all that is asked
before a class is skipped. So every recorded class is a file in the end exactly when none of their
paths was a directory's.
-/
namespace Retarget

open Appending (paths node? extend IsFile)

namespace Injection

section Additions

variable {present : List EntryPath} {new : List (ClassName × Bytes)}

theorem lookup_additions_of_mem (hascending : new.Pairwise fun a b => a.1.precedes b.1)
    (hlacked : ∀ f ∈ new, .ofClass f.1 ∉ present) {f : ClassName × Bytes} (h : f ∈ new) :
    (additions present new).lookup (.ofClass f.1) = some (.file f.2) :=
  lookup_of_mem (nodup_additions hascending hlacked) (mem_additions_of_mem h)

end Additions

section Inject

variable {W : Type} [Destination W] [Appending W] {dest dest' : W} {required : NameSet}
  {catalog : Catalog} {fs : FileSystem} {added : List ClassName} {name : ClassName}

/-- What is held stays when classes are put in. -/
theorem node?_of_inject (h : inject required catalog fs dest = .ok added dest') {path : EntryPath}
    {node : Node} (hheld : node? dest path = some node) : node? dest' path = some node := by
  obtain ⟨new, -, -, -, -, -, rfl⟩ := exists_new_of_inject h
  exact Appending.node?_extend_of_some hheld _

theorem mem_added_iff (h : inject required catalog fs dest = .ok added dest') :
    name ∈ added ↔ name ∈ required.names ∧ .ofClass name ∉ paths dest := by
  obtain ⟨new, -, -, -, hnames, rfl, -⟩ := exists_new_of_inject h
  rw [hnames, List.mem_filter, decide_eq_true_eq]

/-- A class that is added is found with the catalog's bytes. -/
theorem node?_of_added (h : inject required catalog fs dest = .ok added dest')
    (hadded : name ∈ added) : ∃ bytes, catalog.lookup fs name = .ok (some bytes) ∧
      node? dest' (.ofClass name) = some (.file bytes) := by
  obtain ⟨new, hascending, hlacked, hbytes, -, rfl, rfl⟩ := exists_new_of_inject h
  obtain ⟨f, hf, rfl⟩ := List.mem_map.mp hadded
  refine ⟨f.2, hbytes f hf, ?_⟩
  rw [Appending.node?_extend_of_not_mem (hlacked f hf), lookup_additions_of_mem hascending hlacked hf]

/-- After support classes were put in, with success: everything that was held is held as it was;
those recorded classes were added at whose paths nothing was, with the catalog's bytes; and a
recorded class is a file unless a directory was at its path. -/
theorem recorded_classes_held (h : inject required catalog fs dest = .ok added dest') :
    (∀ path node, node? dest path = some node → node? dest' path = some node) ∧
    (∀ name ∈ required.names, name ∈ added ↔ node? dest (.ofClass name) = none) ∧
    (∀ name ∈ added, ∃ bytes, catalog.lookup fs name = .ok (some bytes) ∧
      node? dest' (.ofClass name) = some (.file bytes)) ∧
    (∀ name ∈ required.names,
      IsFile dest' (.ofClass name) ↔ node? dest (.ofClass name) ≠ some .directory) := by
  have hadded : ∀ name ∈ required.names, name ∈ added ↔ node? dest (.ofClass name) = none := by
    intro name hname
    rw [mem_added_iff h, Appending.node?_eq_none_iff, and_iff_right hname]
  refine ⟨fun path node => node?_of_inject h, hadded, fun name => node?_of_added h, ?_⟩
  intro name hname
  cases hbefore : node? dest (.ofClass name) with
  | none =>
    obtain ⟨bytes, -, hnow⟩ := node?_of_added h ((hadded name hname).mpr hbefore)
    simp [IsFile, hnow]
  | some node => cases node <;> simp [IsFile, node?_of_inject h hbefore]

end Inject

/-- A zip file being written that has one of three classes, and a directory named as another. -/
def takenName : ZipWriter :=
  ⟨⟨"out.jar".toList⟩, [(⟨"d/E.class".toList⟩, .file [9]), (⟨"a/B.class".toList⟩, .directory)],
    false⟩

/-- The class whose path is taken by a directory is skipped as the one that is there is; the third
is added below that directory. -/
theorem recorded_classes_held_takenName :
    ∃ dest', inject (.ofList [ownClass, innerClass, outerClass]) threeClasses ⟨[], []⟩ takenName =
        .ok [innerClass] dest' ∧
      node? dest' (.ofClass ownClass) = some (.file [9]) ∧
      IsFile dest' (.ofClass innerClass) ∧ ¬IsFile dest' (.ofClass outerClass) := by
  have hnames : (NameSet.ofList [ownClass, innerClass, outerClass]).names =
      [outerClass, innerClass, ownClass] := by decide
  have hfound : lookUpAll threeClasses ⟨[], []⟩
      (NameSet.ofList [ownClass, innerClass, outerClass]).names =
        .ok [(outerClass, [1]), (innerClass, [2]), (ownClass, [3])] := by rfl
  have hascending : List.Pairwise (fun a b : ClassName × Bytes => a.1.precedes b.1)
      [(outerClass, [1]), (innerClass, [2]), (ownClass, [3])] := by decide
  have hroom : Zip.HasRoom [2] := by decide +kernel
  have htakes : ∀ f ∈ [(outerClass, [1]), (innerClass, [2]), (ownClass, [3])],
      .ofClass f.1 ∉ paths takenName → Appending.takes takenName f.2 := by
    rintro f hf hnew
    simp only [List.mem_cons, List.not_mem_nil, or_false] at hf
    rcases hf with rfl | rfl | rfl
    · exact absurd (by decide) hnew
    · exact hroom
    · exact absurd (by decide) hnew
  have hinject : inject (.ofList [ownClass, innerClass, outerClass]) threeClasses ⟨[], []⟩
      takenName = .ok [innerClass] (takenName.extend
        [(⟨"a".toList⟩, .directory), (⟨"a/B.class/C.class".toList⟩, .file [2])]) := by
    rw [inject, hfound]
    exact (placeAll_eq_ok_iff hascending fun _ _ => Iff.rfl).mpr
      ⟨by decide, htakes, by decide, by decide⟩
  obtain ⟨hheld, -, -, hfile⟩ := recorded_classes_held hinject
  rw [hnames] at hfile
  refine ⟨_, hinject, hheld _ _ (by decide), (hfile innerClass (by simp)).mpr (by decide), ?_⟩
  exact fun h => (hfile outerClass (by simp)).mp h (by decide)

/-- A directory at a class's path stands for the class, so the class is missing after a success. -/
theorem directory_taken_for_class :
    ¬∀ (W : Type) [Destination W] [Appending W] (dest dest' : W) (required : NameSet)
        (catalog : Catalog) (fs : FileSystem) (added : List ClassName),
      inject required catalog fs dest = .ok added dest' → ∀ name ∈ required.names,
        ∃ content, node? dest' (.ofClass name) = some (.file content) ∧
          (node? dest (.ofClass name) = some (.file content) ∨
            ¬IsFile dest (.ofClass name) ∧ catalog.lookup fs name = .ok (some content)) := by
  intro hall
  obtain ⟨content, hheld, -⟩ := hall MemoryTree
    ⟨"out.jar".toList, [(⟨"d/E.class".toList⟩, .directory)], false⟩
    ⟨"out.jar".toList, [(⟨"d/E.class".toList⟩, .directory)], false⟩
    (.ofList [ownClass]) threeClasses ⟨[], []⟩ [] rfl ownClass (by decide)
  cases hheld

end Injection

end Retarget

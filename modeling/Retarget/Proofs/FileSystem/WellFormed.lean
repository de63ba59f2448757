import Mathlib.Data.List.Induction
import Retarget.FileSystem.Basic
import Retarget.Proofs.Destination.Appending

/-!
File systems as they are on a disk: one node at each place, under names that a directory can hold,
and every node in a directory. So whatever leads to a node leads through directories.
-/
namespace Retarget.FileSystem

def IsName (name : Text) : Prop :=
  name ≠ [] ∧ name ≠ ['.'] ∧ name ≠ ['.', '.'] ∧ '/' ∉ name ∧ IsUsableName name

instance : DecidablePred IsName := fun _ =>
  inferInstanceAs (Decidable (_ ∧ _ ∧ _ ∧ _ ∧ _))

structure WellFormed (fs : FileSystem) : Prop where
  distinct : (fs.nodes.map Prod.fst).Nodup
  named : ∀ e ∈ fs.nodes, e.1 ≠ [] ∧ ∀ name ∈ e.1, IsName name
  within : ∀ e ∈ fs.nodes, fs.node? e.1.dropLast = some .directory

variable {fs : FileSystem} {place : Location} {node : Node}

theorem mem_nodes_of_node? (hplace : place ≠ []) (hnode : fs.node? place = some node) :
    (place, node) ∈ fs.nodes := by
  rw [node?, if_neg hplace] at hnode
  exact mem_of_lookup hnode

namespace WellFormed

variable (h : fs.WellFormed)
include h

theorem mem_nodes_iff : (place, node) ∈ fs.nodes ↔ place ≠ [] ∧ fs.node? place = some node := by
  constructor
  · intro hmem
    have hplace : place ≠ [] := (h.named _ hmem).1
    refine ⟨hplace, ?_⟩
    rw [node?, if_neg hplace]
    exact lookup_of_mem h.distinct hmem
  · intro hplace
    exact mem_nodes_of_node? hplace.1 hplace.2

/-- The names on the way to a node are names. -/
theorem isName_of_node? {way : Location} (hnode : fs.node? (place ++ way) = some node) :
    ∀ name ∈ way, IsName name := by
  intro name hname
  have hne : place ++ way ≠ [] := List.append_ne_nil_of_right_ne_nil place (List.ne_nil_of_mem hname)
  exact (h.named _ (mem_nodes_of_node? hne hnode)).2 name (List.mem_append_right place hname)

/-- Whatever a way to a node leads through is a directory. -/
theorem directory_of_node? {way : Location} (hway : way ≠ [])
    (hnode : fs.node? (place ++ way) = some node) : fs.node? place = some .directory := by
  induction way using List.reverseRecOn generalizing node with
  | nil => exact absurd rfl hway
  | append_singleton front last ih =>
    have hne : place ++ (front ++ [last]) ≠ [] := by simp
    have hfolder := h.within _ (mem_nodes_of_node? hne hnode)
    simp only [← List.append_assoc, List.dropLast_concat] at hfolder
    by_cases hfront : front = []
    · rw [hfront, List.append_nil] at hfolder
      exact hfolder
    · exact ih hfront hfolder

end WellFormed

end Retarget.FileSystem

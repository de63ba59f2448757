import Mathlib.Data.List.Forall2

/-!
Lists whose items are related one by one. Each item of the one has its counterpart in the other, and
what a step makes of each item, where no step fails, is such a list.
-/
namespace Retarget

/-- Each item on the left has one on the right. -/
theorem exists_of_mem_left {α β : Type} {R : α → β → Prop} {xs : List α} {ys : List β}
    (h : List.Forall₂ R xs ys) {x : α} (hx : x ∈ xs) : ∃ y ∈ ys, R x y := by
  induction h with
  | nil => cases hx
  | @cons first other xs ys hfirst _ ih =>
    rcases List.mem_cons.mp hx with hx | hx
    · exact ⟨other, List.mem_cons_self, hx ▸ hfirst⟩
    · obtain ⟨y, hy, hxy⟩ := ih hx
      exact ⟨y, List.mem_cons_of_mem _ hy, hxy⟩

/-- A step made for each item succeeds with what it gives for each. -/
theorem mapM_eq_ok_iff {α β ε : Type} {f : α → Except ε β} {items : List α} {made : List β} :
    items.mapM f = .ok made ↔ List.Forall₂ (fun item b => f item = .ok b) items made := by
  induction items generalizing made with
  | nil =>
    rw [List.mapM_nil, List.forall₂_nil_left_iff]
    show Except.ok [] = Except.ok made ↔ _
    rw [Except.ok.injEq, eq_comm]
  | cons item rest ih =>
    rw [List.mapM_cons, List.forall₂_cons_left_iff]
    simp only [← ih]
    cases hfirst : f item with
    | error fault =>
      constructor
      · intro h
        cases h
      · intro h
        obtain ⟨_, _, hmade, -⟩ := h
        cases hmade
    | ok b =>
      cases hrest : rest.mapM f with
      | error fault =>
        constructor
        · intro h
          cases h
        · intro h
          obtain ⟨_, _, _, hmade, -⟩ := h
          cases hmade
      | ok others =>
        constructor
        · intro h
          cases h
          exact ⟨b, others, rfl, rfl, rfl⟩
        · intro h
          obtain ⟨_, _, hb, hothers, rfl⟩ := h
          cases hb
          cases hothers
          rfl

end Retarget

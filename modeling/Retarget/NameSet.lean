import Retarget.ClassName

/-!
Sets of class names, kept as lists in strictly ascending order, so that equal sets are equal lists.
Main statements: what is in a set after names were put into it, and that sets with the same names
are equal.
-/
namespace Retarget

structure NameSet where
  names : List ClassName
  ascending : names.Pairwise fun a b => a.precedes b
  deriving DecidableEq

namespace NameSet

def empty : NameSet := ⟨[], .nil⟩

def insertInto (name : ClassName) : List ClassName → List ClassName
  | [] => [name]
  | first :: rest =>
    if name = first then first :: rest
    else if name.precedes first then name :: first :: rest
    else first :: insertInto name rest

theorem mem_insertInto {name other : ClassName} {names : List ClassName} :
    other ∈ insertInto name names ↔ other = name ∨ other ∈ names := by
  induction names with
  | nil => simp [insertInto]
  | cons first rest ih =>
    unfold insertInto
    split
    · next h => simp [h]
    · split
      · simp
      · simp only [List.mem_cons, ih]
        constructor
        · rintro (h | h | h) <;> simp [h]
        · rintro (h | h | h) <;> simp [h]

theorem ascending_insertInto {name : ClassName} {names : List ClassName}
    (h : names.Pairwise fun a b => a.precedes b) :
    (insertInto name names).Pairwise fun a b => a.precedes b := by
  induction names with
  | nil => simp [insertInto]
  | cons first rest ih =>
    obtain ⟨hfirst, hrest⟩ := List.pairwise_cons.1 h
    unfold insertInto
    split
    · exact h
    · next hne =>
      split
      · next hlt =>
        refine List.pairwise_cons.2 ⟨fun other hmem => ?_, h⟩
        rcases List.mem_cons.1 hmem with rfl | hmem
        · exact hlt
        · exact ClassName.precedes_trans hlt (hfirst other hmem)
      · next hge =>
        refine List.pairwise_cons.2 ⟨fun other hmem => ?_, ih hrest⟩
        rcases mem_insertInto.1 hmem with rfl | hmem
        · exact ClassName.precedes_of_not_precedes hne hge
        · exact hfirst other hmem

def insert (set : NameSet) (name : ClassName) : NameSet :=
  ⟨insertInto name set.names, ascending_insertInto set.ascending⟩

def insertAll (set : NameSet) (names : List ClassName) : NameSet :=
  names.foldl insert set

def ofList (names : List ClassName) : NameSet :=
  empty.insertAll names

theorem mem_insert {set : NameSet} {name other : ClassName} :
    other ∈ (set.insert name).names ↔ other = name ∨ other ∈ set.names :=
  mem_insertInto

theorem mem_insertAll {set : NameSet} {names : List ClassName} {other : ClassName} :
    other ∈ (set.insertAll names).names ↔ other ∈ names ∨ other ∈ set.names := by
  induction names generalizing set with
  | nil => simp [insertAll]
  | cons name rest ih =>
    have h : set.insertAll (name :: rest) = (set.insert name).insertAll rest := rfl
    rw [h, ih, mem_insert, List.mem_cons]
    constructor
    · rintro (h | h | h) <;> simp [h]
    · rintro ((h | h) | h) <;> simp [h]

theorem nodup (set : NameSet) : set.names.Nodup := by
  refine set.ascending.imp fun {a b} hab heq => ?_
  subst heq
  simp only [ClassName.precedes, decide_eq_true_eq] at hab
  exact List.lt_irrefl _ hab

/-- Sets with the same names are one set. -/
theorem eq_of_mem_iff {a b : NameSet} (h : ∀ name, name ∈ a.names ↔ name ∈ b.names) : a = b := by
  have hperm : a.names.Perm b.names :=
    (List.perm_ext_iff_of_nodup a.nodup b.nodup).mpr fun name => h name
  have hnames : a.names = b.names := by
    refine hperm.eq_of_pairwise (fun x y _ _ hxy hyx => ?_) a.ascending b.ascending
    simp only [ClassName.precedes, decide_eq_true_eq] at hxy hyx
    exact absurd (List.lt_trans hxy hyx) (List.lt_irrefl _)
  obtain ⟨names, _⟩ := a
  obtain ⟨names', _⟩ := b
  cases hnames
  rfl

end NameSet

end Retarget

import Retarget.Proofs.MemoryTree.Entries
import Retarget.Proofs.Support.Additions

/-!
Support classes copied into a tree in memory. Every name is looked up before the first class is
written, so the first name that cannot be had decides, and the tree stays as it was. If all can be
had nothing is in the way of writing: a missing directory can be made, and a class is written only
where nothing is. A class is skipped exactly when the tree had its path from the beginning, since in
ascending order no class is written, and no directory made, where a later class belongs.
-/
namespace Retarget

/-- Why a catalog cannot give a class: looking it up fails, or finds nothing. -/
inductive Catalog.Lacks (catalog : Catalog) (fs : FileSystem) (name : ClassName) :
    SupportError → Prop
  | fault {fault : Fault} (lookup : catalog.lookup fs name = .error fault) :
    Lacks catalog fs name (.copy name fault)
  | missing (lookup : catalog.lookup fs name = .ok none) : Lacks catalog fs name (.missing name)

namespace Injection

section LookUp

variable {catalog : Catalog} {fs : FileSystem}

theorem had_or_lacks (catalog : Catalog) (fs : FileSystem) (name : ClassName) :
    (∃ bytes, catalog.lookup fs name = .ok (some bytes)) ∨
      ∃ error, catalog.Lacks fs name error := by
  cases hlookup : catalog.lookup fs name with
  | error fault => exact Or.inr ⟨_, .fault hlookup⟩
  | ok bytes? =>
    cases bytes? with
    | none => exact Or.inr ⟨_, .missing hlookup⟩
    | some bytes => exact Or.inl ⟨bytes, rfl⟩

theorem not_lacks_of_had {name : ClassName} {bytes : Bytes}
    (h : catalog.lookup fs name = .ok (some bytes)) : ¬∃ error, catalog.Lacks fs name error := by
  rintro ⟨error, hlacks⟩
  cases hlacks with
  | fault lookup => simp [h] at lookup
  | missing lookup => simp [h] at lookup

/-- All names can be had, or there is a first one that cannot. -/
theorem all_had_or_first_lacks (catalog : Catalog) (fs : FileSystem) (names : List ClassName) :
    (∀ name ∈ names, ∃ bytes, catalog.lookup fs name = .ok (some bytes)) ∨
      ∃ before name after error, names = before ++ name :: after ∧
        (∀ other ∈ before, ∃ bytes, catalog.lookup fs other = .ok (some bytes)) ∧
        catalog.Lacks fs name error := by
  induction names with
  | nil => exact Or.inl (by simp)
  | cons first rest ih =>
    rcases had_or_lacks catalog fs first with hfirst | ⟨error, hfirst⟩
    · rcases ih with hrest | ⟨before, name, after, error, rfl, hbefore, hlacks⟩
      · exact Or.inl (List.forall_mem_cons.mpr ⟨hfirst, hrest⟩)
      · exact Or.inr ⟨first :: before, name, after, error, rfl,
          List.forall_mem_cons.mpr ⟨hfirst, hbefore⟩, hlacks⟩
    · exact Or.inr ⟨[], first, rest, error, rfl, by simp, hfirst⟩

theorem lookUpAll_of_had {names : List ClassName}
    (h : ∀ name ∈ names, ∃ bytes, catalog.lookup fs name = .ok (some bytes)) :
    ∃ found, lookUpAll catalog fs names = .ok found := by
  induction names with
  | nil => exact ⟨[], rfl⟩
  | cons first rest ih =>
    obtain ⟨⟨bytes, hfirst⟩, hrest⟩ := List.forall_mem_cons.mp h
    obtain ⟨found, hfound⟩ := ih hrest
    refine ⟨(first, bytes) :: found, ?_⟩
    simp only [lookUpAll, hfirst, hfound]
    rfl

/-- Looking names up ends at the first that cannot be had. -/
theorem lookUpAll_of_lacks {before after : List ClassName} {name : ClassName} {error : SupportError}
    (hbefore : ∀ other ∈ before, ∃ bytes, catalog.lookup fs other = .ok (some bytes))
    (h : catalog.Lacks fs name error) :
    lookUpAll catalog fs (before ++ name :: after) = .error error := by
  induction before with
  | nil =>
    cases h with
    | fault lookup => simp only [List.nil_append, lookUpAll, lookup]
    | missing lookup => simp only [List.nil_append, lookUpAll, lookup]
  | cons first rest ih =>
    obtain ⟨⟨bytes, hfirst⟩, hrest⟩ := List.forall_mem_cons.mp hbefore
    simp only [List.cons_append, lookUpAll, hfirst, ih hrest]
    rfl

/-- In ascending order, what precedes a name stands before it. -/
theorem mem_before_of_precedes {before after : List ClassName} {name other : ClassName}
    (hascending : (before ++ name :: after).Pairwise fun a b => a.precedes b)
    (hother : other ∈ before ++ name :: after) (hprecedes : other.precedes name) :
    other ∈ before := by
  have hirrefl : ¬name.precedes name := by
    rw [ClassName.precedes, decide_eq_true_eq]
    exact List.lt_irrefl name.text
  obtain ⟨_, hfrom, _⟩ := List.pairwise_append.mp hascending
  rcases List.mem_append.mp hother with hbefore | hfromName
  · exact hbefore
  · rcases List.mem_cons.mp hfromName with rfl | hafter
    · exact absurd hprecedes hirrefl
    · exact absurd
        (ClassName.precedes_trans ((List.pairwise_cons.mp hfrom).1 other hafter) hprecedes) hirrefl

end LookUp

/-- Classes in ascending order are placed unless the tree had their paths at first. -/
theorem placeAll_of_open {tree : MemoryTree} {found : List (ClassName × Bytes)}
    {listed : List EntryPath} (hascending : found.Pairwise fun a b => a.1.precedes b.1)
    (hlisted : ∀ f ∈ found, EntryPath.ofClass f.1 ∈ tree.paths ↔ EntryPath.ofClass f.1 ∈ listed)
    (hopen : tree.finished = false) :
    placeAll found tree = .ok ((found.filter fun f => .ofClass f.1 ∉ listed).map Prod.fst)
      (tree.extend (additions tree.paths (found.filter fun f => .ofClass f.1 ∉ listed))) := by
  have hpaths : Appending.paths tree = tree.paths := rfl
  rw [← hpaths] at hlisted ⊢
  have hnot : ¬Appending.finished tree = true := fun hfinished =>
    Bool.false_ne_true (hopen.symm.trans hfinished)
  exact (placeAll_eq_ok_iff hascending hlisted).mpr
    ⟨fun h => absurd h hnot, fun _ _ _ => trivial, rfl, rfl⟩

/-- Injection is all or nothing. If some recorded name cannot be had, the first of these in the
order of names decides how it ends, and the tree is as it was. Else it ends well: the names whose
paths the tree lacked before are returned in ascending order, and what is new stands after all that
was there, for each name the directories above it that are still missing and then the class with the
catalog's bytes. -/
theorem inject_all_or_nothing (required : NameSet) (catalog : Catalog) (fs : FileSystem)
    {tree : MemoryTree} (hopen : tree.finished = false) :
    ((∃ name ∈ required.names, ∃ error, catalog.Lacks fs name error) →
      ∃ name ∈ required.names, ∃ error, catalog.Lacks fs name error ∧
        (∀ other ∈ required.names, other.precedes name → ¬∃ error, catalog.Lacks fs other error) ∧
        inject required catalog fs tree = .error error tree) ∧
    ((¬∃ name ∈ required.names, ∃ error, catalog.Lacks fs name error) →
      ∃ found : List (ClassName × Bytes), found.map Prod.fst = required.names ∧
        (∀ f ∈ found, catalog.lookup fs f.1 = .ok (some f.2)) ∧
        (required.names.filter (.ofClass · ∉ tree.paths)).Pairwise (fun a b => a.precedes b) ∧
        inject required catalog fs tree =
          .ok (required.names.filter (.ofClass · ∉ tree.paths)) (tree.extend
            (additions tree.paths (found.filter fun f => .ofClass f.1 ∉ tree.paths)))) := by
  rcases all_had_or_first_lacks catalog fs required.names with
    hall | ⟨before, name, after, error, hnames, hbefore, hlacks⟩
  · have hnone : ¬∃ name ∈ required.names, ∃ error, catalog.Lacks fs name error := by
      rintro ⟨name, hname, hlacks⟩
      obtain ⟨bytes, hbytes⟩ := hall name hname
      exact not_lacks_of_had hbytes hlacks
    refine ⟨fun h => absurd h hnone, fun _ => ?_⟩
    obtain ⟨found, hfound⟩ := lookUpAll_of_had hall
    obtain ⟨hnames, hbytes⟩ := lookUpAll_eq_ok hfound
    refine ⟨found, hnames, hbytes, required.ascending.filter _, ?_⟩
    have hascending : found.Pairwise fun a b => a.1.precedes b.1 :=
      List.pairwise_map.mp (hnames ▸ required.ascending)
    have hplaced := placeAll_of_open hascending (fun _ _ => Iff.rfl) hopen
    have hadded : required.names.filter (.ofClass · ∉ tree.paths) =
        (found.filter fun f => .ofClass f.1 ∉ tree.paths).map Prod.fst := by
      rw [← hnames, List.filter_map]
      rfl
    rw [hadded]
    simp only [inject, hfound, hplaced]
  · have hmem : name ∈ required.names := by simp [hnames]
    refine ⟨fun _ => ⟨name, hmem, error, hlacks, fun other hother hprecedes => ?_, ?_⟩,
      fun h => absurd ⟨name, hmem, error, hlacks⟩ h⟩
    · obtain ⟨bytes, hbytes⟩ := hbefore other
        (mem_before_of_precedes (hnames ▸ required.ascending) (hnames ▸ hother) hprecedes)
      exact not_lacks_of_had hbytes
    · rw [inject, hnames, lookUpAll_of_lacks hbefore hlacks]

def outerClass : ClassName := ⟨"a/B".toList, by decide, by decide, by decide⟩

/-- A class below a directory that is named as the file of `outerClass` is. -/
def innerClass : ClassName := ⟨"a/B.class/C".toList, by decide, by decide, by decide⟩

def ownClass : ClassName := ⟨"d/E".toList, by decide, by decide, by decide⟩

def threeClasses : Catalog :=
  .ofTable [("a/B".toList, [1]), ("a/B.class/C".toList, [2]), ("d/E".toList, [3])]

def ownCopy : MemoryTree := ⟨"new".toList, [(⟨"d/E.class".toList⟩, .file [9])], false⟩

def twoClassesAdded : MemoryTree :=
  ownCopy.extend [(⟨"a".toList⟩, .directory), (⟨"a/B.class".toList⟩, .file [1]),
    (⟨"a/B.class/C.class".toList⟩, .file [2])]

/-- The outer class is written where the inner one has a directory above it; both are added. -/
theorem inject_all_or_nothing_threeClasses :
    ownCopy.finished = false ∧
      (¬∃ name ∈ (NameSet.ofList [ownClass, innerClass, outerClass]).names,
        ∃ error, threeClasses.Lacks ⟨[], []⟩ name error) ∧
      inject (.ofList [ownClass, innerClass, outerClass]) threeClasses ⟨[], []⟩ ownCopy =
        .ok [outerClass, innerClass] twoClassesAdded := by
  have hnames : (NameSet.ofList [ownClass, innerClass, outerClass]).names =
      [outerClass, innerClass, ownClass] := by decide
  have hnone : ¬∃ name ∈ (NameSet.ofList [ownClass, innerClass, outerClass]).names,
      ∃ error, threeClasses.Lacks ⟨[], []⟩ name error := by
    rw [hnames]
    rintro ⟨name, hname, hlacks⟩
    simp only [List.mem_cons, List.not_mem_nil, or_false] at hname
    rcases hname with rfl | rfl | rfl
    · exact not_lacks_of_had rfl hlacks
    · exact not_lacks_of_had rfl hlacks
    · exact not_lacks_of_had rfl hlacks
  refine ⟨rfl, hnone, ?_⟩
  obtain ⟨_, hadded⟩ := inject_all_or_nothing (.ofList [ownClass, innerClass, outerClass])
    threeClasses ⟨[], []⟩ (show ownCopy.finished = false from rfl)
  obtain ⟨found, hfound, hbytes, _, hinject⟩ := hadded hnone
  have htable : found = [(outerClass, [1]), (innerClass, [2]), (ownClass, [3])] := by
    rw [hnames] at hfound
    obtain ⟨⟨outer, b₁⟩, _, rfl, rfl, hinner⟩ := List.map_eq_cons_iff.mp hfound
    obtain ⟨⟨inner, b₂⟩, _, rfl, rfl, hown⟩ := List.map_eq_cons_iff.mp hinner
    obtain ⟨⟨own, b₃⟩, _, rfl, rfl, hnil⟩ := List.map_eq_cons_iff.mp hown
    cases List.map_eq_nil_iff.mp hnil
    have h₁ : Except.ok (some [1]) = Except.ok (some b₁) := hbytes (outerClass, b₁) (by simp)
    have h₂ : Except.ok (some [2]) = Except.ok (some b₂) := hbytes (innerClass, b₂) (by simp)
    have h₃ : Except.ok (some [3]) = Except.ok (some b₃) := hbytes (ownClass, b₃) (by simp)
    cases h₁
    cases h₂
    cases h₃
    rfl
  rw [hinject, htable]
  rfl

end Injection

end Retarget

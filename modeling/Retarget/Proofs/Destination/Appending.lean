import Retarget.Proofs.Lists.Lookup
import Retarget.Proofs.Walk.Invariant

/-!
Destinations that keep their entries in a list. A path that is new goes to the end of the list,
unless the destination is finished; and no file is written where there is something, whether that is
a file or a directory, or when it is one that the destination cannot take. Directories are only
asked for where nothing is, so all of the directories that are missing can be made, or none is asked
for, or the first of them is refused.
-/
namespace Retarget

/-- A path that is not asked for makes no difference to what of the others is missing. -/
theorem filter_not_mem_concat {paths present : List EntryPath} {path : EntryPath}
    (h : path ∉ paths) :
    paths.filter (· ∉ present ++ [path]) = paths.filter (· ∉ present) := by
  apply List.filter_congr
  intro other hother
  have hne : other ≠ path := by
    rintro rfl
    exact h hother
  simp [hne]

namespace Destination

variable {W : Type} [Destination W] {dest : W} {path : EntryPath}

theorem createMissing_cons (path : EntryPath) (rest : List EntryPath) (dest : W) :
    createMissing (path :: rest) dest =
      (do
        if !contains dest path then createDirectory path
        createMissing rest : EStateM Fault W Unit) dest := rfl

theorem createMissing_cons_of_contains (h : contains dest path = true) (rest : List EntryPath) :
    createMissing (path :: rest) dest = createMissing rest dest := by
  rw [createMissing_cons, h]
  rfl

theorem createMissing_cons_of_not_contains (h : contains dest path = false)
    (rest : List EntryPath) :
    createMissing (path :: rest) dest =
      (createDirectory path >>= fun _ => createMissing rest) dest := by
  rw [createMissing_cons, h]
  rfl

end Destination

/-- A destination that holds a list of entries and adds new ones at its end. -/
class Appending (W : Type) [Destination W] where
  entries : W → List (EntryPath × Node)
  finished : W → Bool
  /-- Whether a file with this content can be held. -/
  takes : W → Bytes → Prop
  /-- The destination after entries are added at its end. -/
  extend : W → List (EntryPath × Node) → W
  entries_extend : ∀ dest new, entries (extend dest new) = entries dest ++ new
  finished_extend : ∀ dest new, finished (extend dest new) = finished dest
  takes_extend : ∀ dest new content, takes (extend dest new) content ↔ takes dest content
  extend_nil : ∀ dest, extend dest [] = dest
  extend_extend : ∀ dest new new', extend (extend dest new) new' = extend dest (new ++ new')
  contains_iff : ∀ {dest path},
    Destination.contains dest path = true ↔ path ∈ (entries dest).map Prod.fst
  createDirectory_of_open : ∀ {dest path}, path ∉ (entries dest).map Prod.fst →
    finished dest = false →
    Destination.createDirectory path dest = .ok () (extend dest [(path, .directory)])
  createDirectory_of_finished : ∀ {dest path}, path ∉ (entries dest).map Prod.fst →
    finished dest = true → ∃ fault, Destination.createDirectory path dest = .error fault dest
  writeFile_of_open : ∀ {dest path}, path ∉ (entries dest).map Prod.fst →
    finished dest = false → ∀ {content}, takes dest content →
    Destination.writeFile path content dest = .ok () (extend dest [(path, .file content)])
  writeFile_of_refused : ∀ {dest path content},
    path ∈ (entries dest).map Prod.fst ∨ finished dest = true ∨ ¬takes dest content →
    ∃ fault, Destination.writeFile path content dest = .error fault dest

namespace Appending

variable {W : Type} [Destination W] [Appending W] {dest dest' : W} {path : EntryPath}

def paths (dest : W) : List EntryPath :=
  (entries dest).map Prod.fst

def node? (dest : W) (path : EntryPath) : Option Node :=
  (entries dest).lookup path

def IsFile (dest : W) (path : EntryPath) : Prop :=
  ∃ content, node? dest path = some (.file content)

theorem contains_of_not_mem (h : path ∉ paths dest) : Destination.contains dest path = false :=
  Bool.eq_false_iff.mpr fun hc => h (contains_iff.mp hc)

theorem node?_eq_none_iff : node? dest path = none ↔ path ∉ paths dest :=
  lookup_eq_none_iff

theorem node?_eq_some_of_mem (h : path ∈ paths dest) : ∃ node, node? dest path = some node :=
  Option.isSome_iff_exists.mp (isSome_lookup_iff.mpr h)

/-- What is held at a path is a directory or a file. -/
theorem directory_iff_of_mem (h : path ∈ paths dest) :
    node? dest path = some .directory ↔ ¬IsFile dest path := by
  obtain ⟨node, hnode⟩ := node?_eq_some_of_mem h
  rw [IsFile, hnode]
  cases node <;> simp

attribute [simp] extend_nil extend_extend finished_extend takes_extend

@[simp] theorem paths_extend (dest : W) (new : List (EntryPath × Node)) :
    paths (extend dest new) = paths dest ++ new.map Prod.fst := by
  simp [paths, entries_extend]

theorem node?_extend (dest : W) (new : List (EntryPath × Node)) (path : EntryPath) :
    node? (extend dest new) path = (node? dest path).or (new.lookup path) := by
  rw [node?, entries_extend, List.lookup_append]
  rfl

/-- What is held is still held when entries are added. -/
theorem node?_extend_of_some {node : Node} (h : node? dest path = some node)
    (new : List (EntryPath × Node)) : node? (extend dest new) path = some node := by
  rw [node?_extend, h, Option.some_or]

theorem node?_extend_of_not_mem (h : path ∉ paths dest) (new : List (EntryPath × Node)) :
    node? (extend dest new) path = new.lookup path := by
  rw [node?_extend, node?_eq_none_iff.mpr h, Option.none_or]

section CreateMissing

variable {asked : List EntryPath}

/-- Directories that are missing are made in the order in which they are asked for. -/
theorem createMissing_of_open (hnodup : asked.Nodup) (hopen : finished dest = false) :
    Destination.createMissing asked dest =
      .ok () (extend dest ((asked.filter (· ∉ paths dest)).map (·, .directory))) := by
  induction asked generalizing dest with
  | nil => exact congrArg (EStateM.Result.ok ()) (extend_nil dest).symm
  | cons path rest ih =>
    obtain ⟨hpath, hrest⟩ := List.nodup_cons.mp hnodup
    by_cases hthere : path ∈ paths dest
    · rw [Destination.createMissing_cons_of_contains (contains_iff.mpr hthere), ih hrest hopen,
        List.filter_cons_of_neg (by simpa using hthere)]
    · have hlater : Destination.createMissing rest (extend dest [(path, .directory)]) = _ :=
        ih hrest ((finished_extend dest _).trans hopen)
      rw [paths_extend, List.map_singleton, filter_not_mem_concat hpath, extend_extend] at hlater
      rw [Destination.createMissing_cons_of_not_contains (contains_of_not_mem hthere),
        List.filter_cons_of_pos (by simpa using hthere)]
      exact bind_eq_ok.mpr ⟨(), _, createDirectory_of_open hthere hopen, hlater⟩

/-- None is made when all are there, be they directories or not. -/
theorem createMissing_of_subset (h : ∀ path ∈ asked, path ∈ paths dest) :
    Destination.createMissing asked dest = .ok () dest := by
  induction asked with
  | nil => rfl
  | cons path rest ih =>
    obtain ⟨hpath, hrest⟩ := List.forall_mem_cons.mp h
    rw [Destination.createMissing_cons_of_contains (contains_iff.mpr hpath), ih hrest]

/-- A finished destination refuses the first that is missing. -/
theorem createMissing_of_finished (hfinished : finished dest = true)
    (h : ¬∀ path ∈ asked, path ∈ paths dest) :
    ∃ fault, Destination.createMissing asked dest = .error fault dest := by
  induction asked with
  | nil => simp at h
  | cons path rest ih =>
    by_cases hthere : path ∈ paths dest
    · rw [Destination.createMissing_cons_of_contains (contains_iff.mpr hthere)]
      exact ih fun hrest => h (List.forall_mem_cons.mpr ⟨hthere, hrest⟩)
    · obtain ⟨fault, hrefused⟩ := createDirectory_of_finished hthere hfinished
      rw [Destination.createMissing_cons_of_not_contains (contains_of_not_mem hthere)]
      exact ⟨fault, bind_eq_error.mpr (Or.inl hrefused)⟩

/-- All that are missing are made, or, where that is not allowed, none is. -/
theorem createMissing_cases (dest : W) (hnodup : asked.Nodup) :
    (finished dest = true → ∀ path ∈ asked, path ∈ paths dest) ∧
        Destination.createMissing asked dest =
          .ok () (extend dest ((asked.filter (· ∉ paths dest)).map (·, .directory))) ∨
      ¬(finished dest = true → ∀ path ∈ asked, path ∈ paths dest) ∧
        ∃ fault, Destination.createMissing asked dest = .error fault dest := by
  by_cases hopen : finished dest = false
  · exact Or.inl ⟨by simp [hopen], createMissing_of_open hnodup hopen⟩
  · have hfinished : finished dest = true := by simpa using hopen
    by_cases hall : ∀ path ∈ asked, path ∈ paths dest
    · have hnone : asked.filter (· ∉ paths dest) = [] := by simpa using hall
      refine Or.inl ⟨fun _ => hall, ?_⟩
      rw [createMissing_of_subset hall, hnone, List.map_nil, extend_nil]
    · exact Or.inr ⟨fun h => hall (h hfinished), createMissing_of_finished hfinished hall⟩

theorem createMissing_eq_ok_iff (hnodup : asked.Nodup) :
    Destination.createMissing asked dest = .ok () dest' ↔
      (finished dest = true → ∀ path ∈ asked, path ∈ paths dest) ∧
        dest' = extend dest ((asked.filter (· ∉ paths dest)).map (·, .directory)) := by
  rcases createMissing_cases dest hnodup with ⟨hallowed, hok⟩ | ⟨hnot, fault, hrefused⟩
  · rw [hok, and_iff_right hallowed, EStateM.Result.ok.injEq, and_iff_right rfl]
    exact eq_comm
  · rw [hrefused]
    simp [hnot]

/-- What refuses a directory is left as it was. -/
theorem createMissing_eq_error {fault : Fault} (hnodup : asked.Nodup)
    (h : Destination.createMissing asked dest = .error fault dest') : dest' = dest := by
  rcases createMissing_cases dest hnodup with ⟨-, hok⟩ | ⟨-, _, hrefused⟩
  · cases hok.symm.trans h
  · cases hrefused.symm.trans h
    rfl

end CreateMissing

end Appending

end Retarget

import Std.Data.TreeMap.Lemmas
import Retarget.Proofs.MemoryTree.Edits

/-!
A tree in memory kept in two parts: the order in which its paths came, and a sorted map from paths to
what is there. A path goes to the end of the order when the map has held nothing at it so far, so the
two parts have the same paths at any time. Edits are answered and leave what they leave in the tree
whose entries are one list.
-/
namespace Retarget

def EntryPath.compareText (a b : EntryPath) : Ordering :=
  compareOn EntryPath.text a b

instance : Std.TransCmp EntryPath.compareText :=
  inferInstanceAs (Std.TransCmp (compareOn EntryPath.text))

instance : Std.LawfulEqCmp EntryPath.compareText where
  compare_self := Std.ReflCmp.compare_self
  eq_of_compare {a b} h := by
    obtain ⟨text⟩ := a
    obtain ⟨text'⟩ := b
    exact congrArg EntryPath.mk (Std.LawfulEqCmp.eq_of_compare h)

structure IndexedTree where
  location : Text
  order : List EntryPath
  /-- The bytes of the files; a directory has none. -/
  contents : Std.TreeMap EntryPath (Option Bytes) EntryPath.compareText
  finished : Bool

namespace IndexedTree

open MemoryTree (WriteError Edit Editable)
open ZipWriter (Call)

def empty (location : Text) : IndexedTree := ⟨location, [], ∅, false⟩

def contains (tree : IndexedTree) (path : EntryPath) : Bool :=
  tree.contents.contains path

/-- What is put at a path. The path is the last in the order if nothing was held at it, not even a
directory. -/
def put (tree : IndexedTree) (path : EntryPath) (content? : Option Bytes) : IndexedTree :=
  let held : Option (Option Bytes) := tree.contents[path]?
  { tree with
    contents := tree.contents.insert path content?
    order := if held.isNone then tree.order ++ [path] else tree.order }

def withNode (tree : IndexedTree) (raw : Text) (node : Node) :
    Except EntryPathError IndexedTree :=
  (EntryPath.parse raw).map fun path => tree.put path node.content?

def read (tree : IndexedTree) (path : EntryPath) : Option Bytes :=
  tree.contents[path]?.join

def kind (tree : IndexedTree) (path : EntryPath) : EntryKind :=
  match tree.contents[path]? with
  | some (some _) => .file
  | _ => .directory

def list (tree : IndexedTree) : List ArchiveEntry :=
  tree.order.map fun path => ⟨path, tree.kind path⟩

def createDirectory (tree : IndexedTree) (path : EntryPath) : Except WriteError IndexedTree :=
  if tree.finished then .error (.finished tree.location)
  else match tree.contents[path]? with
    | some none => .ok tree
    | some (some _) => .error (.isFile path tree.location)
    | none => .ok (tree.put path none)

def writeFile (tree : IndexedTree) (path : EntryPath) (content : Bytes) :
    Except WriteError IndexedTree :=
  if tree.finished then .error (.finished tree.location)
  else if tree.contains path then .error (.duplicate path tree.location)
  else .ok (tree.put path (some content))

def finish (tree : IndexedTree) : IndexedTree :=
  { tree with finished := true }

def step (act : IndexedTree → Except WriteError IndexedTree) : EStateM Fault IndexedTree Unit :=
  fun tree => match act tree with
    | .ok tree => .ok () tree
    | .error fault => .error (.text fault.message) tree

instance : Destination IndexedTree where
  location tree := tree.location
  contains := contains
  createDirectory path := step (·.createDirectory path)
  writeFile path content := step (·.writeFile path content)

def perform : Call → EStateM Fault IndexedTree Unit
  | .createDirectory path => Destination.createDirectory path
  | .createParents path => Destination.createParents path
  | .writeFile path content => Destination.writeFile path content
  | .finish => modify finish

instance : Editable IndexedTree where
  withNode := withNode
  perform := perform

/-- The two parts hold what the entries of a tree are: its paths in order, and the node at each. -/
structure Splits (split : IndexedTree) (tree : MemoryTree) : Prop where
  location_eq : split.location = tree.location
  order_eq : split.order = tree.paths
  contents_eq : ∀ path, split.contents[path]? = (tree.node? path).map Node.content?
  finished_eq : split.finished = tree.finished

/-- Both steps succeed, or both fail with one fault, and what they leave is related. -/
def Agree {σ τ : Type} (R : σ → τ → Prop) :
    EStateM.Result Fault σ Unit → EStateM.Result Fault τ Unit → Prop
  | .ok _ s, .ok _ t => R s t
  | .error fault s, .error fault' t => fault = fault' ∧ R s t
  | _, _ => False

section Agree

variable {σ τ : Type} {R : σ → τ → Prop} {act : EStateM Fault σ Unit} {act' : EStateM Fault τ Unit}
  {s : σ} {t : τ}

theorem Agree.cases (h : Agree R (act s) (act' t)) :
    (∃ s' t', act s = .ok () s' ∧ act' t = .ok () t' ∧ R s' t') ∨
      ∃ fault s' t', act s = .error fault s' ∧ act' t = .error fault t' ∧ R s' t' := by
  revert h
  cases act s with
  | ok _ s' =>
    cases act' t with
    | ok _ t' => exact fun h => Or.inl ⟨s', t', rfl, rfl, h⟩
    | error fault t' => exact fun h => h.elim
  | error fault s' =>
    cases act' t with
    | ok _ t' => exact fun h => h.elim
    | error fault' t' => exact fun h => Or.inr ⟨fault, s', t', rfl, h.1 ▸ rfl, h.2⟩

theorem Agree.bind {next : Unit → EStateM Fault σ Unit} {next' : Unit → EStateM Fault τ Unit}
    (h : Agree R (act s) (act' t)) (hnext : ∀ s t, R s t → Agree R (next () s) (next' () t)) :
    Agree R ((act >>= next) s) ((act' >>= next') t) := by
  simp only [Bind.bind, EStateM.bind]
  rcases h.cases with ⟨s', t', hact, hact', hrel⟩ | ⟨fault, s', t', hact, hact', hrel⟩
  · rw [hact, hact']
    exact hnext s' t' hrel
  · rw [hact, hact']
    exact ⟨rfl, hrel⟩

theorem Agree.leaves (h : Agree R (act s) (act' t)) : R (leaves act s) (leaves act' t) := by
  unfold Retarget.leaves
  rcases h.cases with ⟨s', t', hact, hact', hrel⟩ | ⟨fault, s', t', hact, hact', hrel⟩
  · rw [hact, hact']
    exact hrel
  · rw [hact, hact']
    exact hrel

end Agree

namespace Splits

variable {split : IndexedTree} {tree : MemoryTree} {path : EntryPath}

theorem mem_contents_iff (h : Splits split tree) : path ∈ split.contents ↔ path ∈ tree.paths := by
  rw [Std.TreeMap.mem_iff_isSome_getElem?, h.contents_eq, Option.isSome_map]
  exact isSome_lookup_iff

theorem contains_eq (h : Splits split tree) (path : EntryPath) :
    split.contains path = tree.contains path := by
  rw [contains, Std.TreeMap.contains_eq_isSome_getElem?, h.contents_eq, Option.isSome_map,
    MemoryTree.contains]

/-- The map lacks a path exactly when the list does. -/
theorem isNone_held (h : Splits split tree) :
    split.contents[path]?.isNone = true ↔ path ∉ tree.paths := by
  rw [h.contents_eq, Option.isNone_map, Option.isNone_iff_eq_none]
  exact lookup_eq_none_iff

theorem put (h : Splits split tree) (path : EntryPath) (node : Node) :
    Splits (split.put path node.content?) (tree.put path node) where
  location_eq := by
    unfold MemoryTree.put
    split <;> exact h.location_eq
  order_eq := by
    rw [MemoryTree.paths_put, MemoryTree.note]
    by_cases hthere : path ∈ tree.paths
    · have hheld : ¬split.contents[path]?.isNone = true := fun hnone => h.isNone_held.mp hnone hthere
      rw [if_pos hthere, ← h.order_eq]
      exact if_neg hheld
    · rw [if_neg hthere, ← h.order_eq]
      exact if_pos (h.isNone_held.mpr hthere)
  contents_eq other := by
    rw [MemoryTree.node?_put]
    change (split.contents.insert path node.content?)[other]? = _
    rw [Std.TreeMap.getElem?_insert]
    by_cases hother : other = path
    · rw [if_pos hother, if_pos (Std.LawfulEqCmp.compare_eq_iff_eq.mpr hother.symm)]
      rfl
    · have hne : ¬EntryPath.compareText path other = .eq := fun heq =>
        hother (Std.LawfulEqCmp.compare_eq_iff_eq.mp heq).symm
      rw [if_neg hother, if_neg hne, h.contents_eq]
  finished_eq := by
    unfold MemoryTree.put
    split <;> exact h.finished_eq

theorem createDirectory (h : Splits split tree) (path : EntryPath) :
    Agree Splits (Destination.createDirectory path split)
      (Destination.createDirectory path tree) := by
  have hput := h.put path .directory
  simp only [Destination.createDirectory, step, MemoryTree.step, IndexedTree.createDirectory,
    MemoryTree.createDirectory, h.contents_eq, h.finished_eq, h.location_eq]
  cases tree.finished with
  | true => exact ⟨rfl, h⟩
  | false =>
    cases tree.node? path with
    | none => exact hput
    | some node =>
      cases node with
      | directory => exact h
      | file content => exact ⟨rfl, h⟩

theorem writeFile (h : Splits split tree) (path : EntryPath) (content : Bytes) :
    Agree Splits (Destination.writeFile path content split)
      (Destination.writeFile path content tree) := by
  have hput := h.put path (.file content)
  simp only [Destination.writeFile, step, MemoryTree.step, IndexedTree.writeFile,
    MemoryTree.writeFile, h.contains_eq, h.finished_eq, h.location_eq]
  cases tree.finished with
  | true => exact ⟨rfl, h⟩
  | false =>
    cases tree.contains path with
    | true => exact ⟨rfl, h⟩
    | false => exact hput

theorem createMissing (h : Splits split tree) (paths : List EntryPath) :
    Agree Splits (Destination.createMissing paths split)
      (Destination.createMissing paths tree) := by
  induction paths generalizing split tree with
  | nil => exact h
  | cons path rest ih =>
    have hsame : Destination.contains split path = Destination.contains tree path :=
      h.contains_eq path
    rw [Destination.createMissing_cons, Destination.createMissing_cons, hsame]
    cases Destination.contains tree path with
    | true => exact ih h
    | false => exact Agree.bind (h.createDirectory path) fun _ _ => ih

theorem perform (h : Splits split tree) (edit : Edit) :
    Agree Splits (edit.perform split) (edit.perform tree) := by
  cases edit with
  | withNode raw node =>
    have hsplit : Editable.withNode split raw node =
        (EntryPath.parse raw).map fun path => split.put path node.content? := rfl
    have htree : Editable.withNode tree raw node =
        (EntryPath.parse raw).map fun path => tree.put path node := rfl
    simp only [Edit.perform, hsplit, htree]
    cases EntryPath.parse raw with
    | error fault => exact ⟨rfl, h⟩
    | ok path => exact h.put path node
  | call request =>
    cases request with
    | createDirectory path => exact h.createDirectory path
    | createParents path => exact h.createMissing path.ancestors
    | writeFile path content => exact h.writeFile path content
    | finish => exact ⟨h.location_eq, h.order_eq, h.contents_eq, rfl⟩

theorem fault?_eq (h : Splits split tree) (edit : Edit) : edit.fault? split = edit.fault? tree := by
  unfold Edit.fault?
  rcases (h.perform edit).cases with ⟨s, t, hsplit, htree, -⟩ | ⟨fault, s, t, hsplit, htree, -⟩
  · rw [hsplit, htree]
  · rw [hsplit, htree]

theorem performAll (h : Splits split tree) (edits : List Edit) :
    Splits (Edit.performAll edits split) (Edit.performAll edits tree) := by
  induction edits generalizing split tree with
  | nil => exact h
  | cons edit rest ih => exact ih (h.perform edit).leaves

/-- The two parts hold the same paths, each once. -/
theorem order_perm_keys (h : Splits split tree) (hnodup : tree.paths.Nodup) :
    split.order.Perm split.contents.keys := by
  rw [h.order_eq, List.perm_ext_iff_of_nodup hnodup Std.TreeMap.nodup_keys]
  intro path
  rw [Std.TreeMap.mem_keys, h.mem_contents_iff]

theorem read_eq (h : Splits split tree) (path : EntryPath) : split.read path = tree.read path := by
  rw [read, h.contents_eq, MemoryTree.read]
  cases tree.node? path <;> rfl

/-- Both list the same entries, where no path is held twice. -/
theorem list_eq (h : Splits split tree) (hnodup : tree.paths.Nodup) : split.list = tree.list := by
  rw [list, h.order_eq, MemoryTree.list, MemoryTree.paths, List.map_map]
  apply List.map_congr_left
  intro e he
  have hnode : tree.node? e.1 = some e.2 := MemoryTree.node?_of_mem hnodup he
  have hkind : split.kind e.1 = .ofNode e.2 := by
    rw [kind, h.contents_eq, hnode]
    cases e.2 <;> rfl
  rw [Function.comp_apply, hkind]

theorem empty (location : Text) : Splits (.empty location) (.empty location) where
  location_eq := rfl
  order_eq := rfl
  contents_eq _ := Std.TreeMap.getElem?_emptyc
  finished_eq := rfl

end Splits

/-- Whatever is done to a new tree, in any order: kept in one list or in two parts, it answers alike
and holds the same. The order has the keys of the map, each once, in the order in which edits that
succeeded first put something at them. An edit that fails changes nothing, and no call changes a
tree that was finished. Any edit leaves the paths where they are, with what is there; only a node
that is put by name takes the place of what is there. So every path is listed once, as what is there
now, and can be read if it is a file. -/
theorem order_has_keys_once (location : Text) (edits : List Edit) :
    ∃ (tree : MemoryTree) (split : IndexedTree),
      Edit.performAll edits (MemoryTree.empty location) = tree ∧
      Edit.performAll edits (IndexedTree.empty location) = split ∧
      Splits split tree ∧ split.order.Nodup ∧ split.order.Perm split.contents.keys ∧
      split.order = ((Edit.done edits (MemoryTree.empty location)).flatMap Edit.keys).eraseDups ∧
      (∀ (edit : Edit) (after : MemoryTree), leaves edit.perform tree = after →
        edit.fault? split = edit.fault? tree ∧ Splits (leaves edit.perform split) after ∧
        (edit.fault? tree ≠ none → after = tree) ∧
        (.call .finish ∈ edits → (∃ request, edit = .call request) → after = tree) ∧
        tree.paths <+: after.paths ∧
        ∀ path ∈ tree.paths, after.node? path = tree.node? path ∨
          ∃ raw node, edit = .withNode raw node ∧ EntryPath.parse raw = .ok path ∧
            after.node? path = some node) ∧
      split.list = tree.list ∧ tree.list.map ArchiveEntry.path = tree.paths ∧
      (∀ path, split.read path = tree.read path) ∧
      (∀ entry ∈ tree.list,
        entry.kind = .directory ∧ tree.node? entry.path = some .directory ∧
            tree.read entry.path = none ∨
          ∃ content, entry.kind = .file ∧ tree.node? entry.path = some (.file content) ∧
            tree.read entry.path = some content) ∧
      ∀ path ∉ tree.paths, tree.read path = none := by
  have hsplits := (Splits.empty location).performAll edits
  have hnodup : (Edit.performAll edits (MemoryTree.empty location)).paths.Nodup :=
    MemoryTree.nodup_performAll List.nodup_nil
  have hpaths : (Edit.performAll edits (MemoryTree.empty location)).paths =
      ((Edit.done edits (MemoryTree.empty location)).flatMap Edit.keys).eraseDups := by
    rw [MemoryTree.paths_performAll, ← MemoryTree.foldl_note_nil]
    rfl
  refine ⟨_, _, rfl, rfl, hsplits, ?_, hsplits.order_perm_keys hnodup, ?_, ?_,
    hsplits.list_eq hnodup, MemoryTree.map_path_list _, hsplits.read_eq, ?_, ?_⟩
  · rw [hsplits.order_eq]
    exact hnodup
  · rw [hsplits.order_eq]
    exact hpaths
  · intro edit after hafter
    have houtcome := MemoryTree.outcome edit (Edit.performAll edits (MemoryTree.empty location))
    have hagree := (hsplits.perform edit).leaves
    rw [hafter] at houtcome hagree
    refine ⟨hsplits.fault?_eq edit, hagree, houtcome.eq_of_refused, ?_, houtcome.prefix_paths,
      fun path hmem => houtcome.node?_eq hmem⟩
    intro hfinish hcall
    obtain ⟨request, rfl⟩ := hcall
    exact houtcome.eq_of_finished (MemoryTree.finished_performAll (Or.inr hfinish))
  · exact fun entry hentry => MemoryTree.mem_list_cases hnodup hentry
  · exact fun path hpath => MemoryTree.read_of_not_mem hpath

/-- A file put where a directory was stands where the directory stood. -/
example : (Edit.performAll
    [.withNode ['a'] .directory, .call (.writeFile ⟨['b']⟩ []), .withNode ['a'] (.file [1])]
    (IndexedTree.empty [])).list = [⟨⟨['a']⟩, .file⟩, ⟨⟨['b']⟩, .file⟩] := by
  decide

end IndexedTree

end Retarget

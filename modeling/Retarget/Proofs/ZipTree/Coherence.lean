import Retarget.Proofs.ZipTree.Written

/-!
How the listing of a zip file and what is read from it hang together. Each listed entry shows one
member: the first one whose name is read as the entry's path. The name of that member tells the kind
of the entry, and its content is what is read under the path, so a member that is passed over for
having a path that is taken shifts nothing. A file is opened as soon as every name in it can be read
as a path.
-/
namespace Retarget

namespace Zip

/-- What a member holds, if it can be had: a directory nothing, a file the bytes that its packed
data stands for. -/
inductive Member.Contains (image : Bytes) (member : Member) : Option Bytes → Prop
  | directory {packed : Bytes} (kind : member.isDirectory = true)
    (found : member.packed? image = some packed) : Contains image member none
  | file {packed bytes : Bytes} (kind : member.isDirectory = false)
    (found : member.packed? image = some packed) (unpacked : member.unpack? packed = some bytes) :
    Contains image member (some bytes)

theorem Member.isDirectory_iff {member : Member} : member.isDirectory = true ↔
    member.name.getLast? = some '/' ∨ member.name.getLast? = some '\\' := by
  simp [isDirectory]

section MergeNames

def mergeName (kept : List Member) (member : Member) : List Member :=
  if kept.any (·.name = member.name) then
    kept.map fun k => if k.name = member.name then member else k
  else kept ++ [member]

theorem map_name_mergeName (kept : List Member) (member : Member) :
    (mergeName kept member).map Member.name =
      if member.name ∈ kept.map Member.name then kept.map Member.name
      else kept.map Member.name ++ [member.name] := by
  have hany : kept.any (·.name = member.name) = true ↔ member.name ∈ kept.map Member.name := by
    simp [List.any_eq_true, List.mem_map]
  unfold mergeName
  by_cases hmem : member.name ∈ kept.map Member.name
  · rw [if_pos (hany.mpr hmem), if_pos hmem, List.map_map]
    refine List.map_congr_left fun k _ => ?_
    by_cases hname : k.name = member.name <;> simp [hname]
  · rw [if_neg (hany.not.mpr hmem), if_neg hmem, List.map_append, List.map_singleton]

theorem nodup_mergeNames (raw : List Member) : ((mergeNames raw).map Member.name).Nodup := by
  have hfold : ∀ kept : List Member, (kept.map Member.name).Nodup →
      ((raw.foldl mergeName kept).map Member.name).Nodup := by
    induction raw with
    | nil => exact fun kept hkept => hkept
    | cons member rest ih =>
      intro kept hkept
      refine ih _ ?_
      rw [map_name_mergeName]
      split
      · exact hkept
      · next hnew =>
        rw [← List.concat_eq_append]
        exact hkept.concat hnew
  exact hfold [] (by simp)

/-- The members of an archive are known by their names. -/
theorem nodup_of_members? {image : Bytes} {members : List Member}
    (h : members? image = some members) : (members.map Member.name).Nodup := by
  have hfrom : ∀ (bytes : Bytes) (position : Nat), membersFrom? image position bytes = some members →
      (members.map Member.name).Nodup := by
    intro bytes
    induction bytes with
    | nil => simp [membersFrom?]
    | cons b bs ih =>
      intro position hfound
      rw [membersFrom?] at hfound
      split at hfound
      · next later hlater =>
        cases hfound
        exact ih _ hlater
      · simp only [membersAt?, Option.bind_eq_bind, Option.bind_eq_some_iff] at hfound
        obtain ⟨_, _, _, _, raw, _, hmembers⟩ := hfound
        cases hmembers
        exact nodup_mergeNames raw
  exact hfrom image 0 h

end MergeNames

end Zip

open Zip

namespace ZipTree

variable {members : List Member} {entries : List (EntryPath × Member)}

/-- The first of the members whose names are read as a path. -/
def FirstAt (members : List Member) (path : EntryPath) (member : Member) : Prop :=
  ∃ before after, members = before ++ member :: after ∧
    EntryPath.parse member.name = .ok path ∧
    ∀ other ∈ before, EntryPath.parse other.name ≠ .ok path

/-- Members entered under their paths: in their order, each first at its path, no path left out. -/
structure Enters (members : List Member) (entries : List (EntryPath × Member)) : Prop where
  in_order : (entries.map Prod.snd).Sublist members
  first : ∀ e ∈ entries, FirstAt members e.1 e.2
  entered : ∀ member ∈ members, ∃ path ∈ entries.map Prod.fst,
    EntryPath.parse member.name = .ok path

/-- A listed entry shows a member: the first that has its path, which has its kind and its
content. -/
structure Shows (tree : ZipTree) (members : List Member) (entry : ArchiveEntry) (member : Member) :
    Prop where
  first : FirstAt members entry.path member
  kind_iff : entry.kind = .directory ↔
    member.name.getLast? = some '/' ∨ member.name.getLast? = some '\\'
  read_iff : ∀ content, tree.read entry.path = .ok content ↔ member.Contains tree.image content

theorem FirstAt.append {path : EntryPath} {member : Member} (h : FirstAt members path member)
    (rest : List Member) : FirstAt (members ++ rest) path member := by
  obtain ⟨before, after, rfl, hparse, hbefore⟩ := h
  exact ⟨before, after ++ rest, by simp, hparse, hbefore⟩

theorem FirstAt.mem {path : EntryPath} {member : Member} (h : FirstAt members path member) :
    member ∈ members := by
  obtain ⟨before, after, rfl, -⟩ := h
  simp

/-- When the data of its member can be had, a file is read, and a directory as nothing. -/
theorem Shows.read_of_contains {tree : ZipTree} {entry : ArchiveEntry} {member : Member}
    (h : Shows tree members entry member)
    (hcontains : ∃ content, member.Contains tree.image content) :
    (entry.kind = .directory → tree.read entry.path = .ok none) ∧
      (entry.kind = .file → ∃ bytes, tree.read entry.path = .ok (some bytes)) := by
  have hkind : entry.kind = .directory ↔ member.isDirectory = true :=
    h.kind_iff.trans Member.isDirectory_iff.symm
  obtain ⟨content, hcontent⟩ := hcontains
  have hread := (h.read_iff content).mpr hcontent
  cases hcontent with
  | directory hdirectory _ =>
    exact ⟨fun _ => hread, fun hfile => by simp [hkind.mpr hdirectory] at hfile⟩
  | @file _ bytes hfile _ _ =>
    exact ⟨fun hdirectory => by simp [hkind.mp hdirectory] at hfile, fun _ => ⟨bytes, hread⟩⟩

theorem Enters.enter {done : List Member} {kept next : List (EntryPath × Member)} {member : Member}
    (hkept : Enters done kept) (h : enter kept member = .ok next) :
    Enters (done ++ [member]) next := by
  cases hparse : EntryPath.parse member.name with
  | error fault =>
    rw [ZipTree.enter, hparse] at h
    cases h
  | ok path =>
    rw [enter_of_parse hparse, Except.ok.injEq] at h
    by_cases hthere : path ∈ kept.map Prod.fst
    · rw [if_pos (any_path_iff.mpr hthere)] at h
      subst h
      refine ⟨hkept.in_order.trans (List.sublist_append_left ..),
        fun e he => (hkept.first e he).append [member], fun other hother => ?_⟩
      rcases List.mem_append.mp hother with hdone | hlast
      · exact hkept.entered other hdone
      · cases List.mem_singleton.mp hlast
        exact ⟨path, hthere, hparse⟩
    · rw [if_neg (any_path_iff.not.mpr hthere)] at h
      subst h
      refine ⟨?_, fun e he => ?_, fun other hother => ?_⟩
      · rw [List.map_append, List.map_singleton]
        exact hkept.in_order.append (List.Sublist.refl _)
      · rcases List.mem_append.mp he with he | hlast
        · exact (hkept.first e he).append [member]
        · cases List.mem_singleton.mp hlast
          refine ⟨done, [], rfl, hparse, fun other hother hsame => hthere ?_⟩
          obtain ⟨path', hmem, hparse'⟩ := hkept.entered other hother
          rw [hsame] at hparse'
          cases hparse'
          exact hmem
      · rw [List.map_append, List.map_singleton]
        rcases List.mem_append.mp hother with hdone | hlast
        · obtain ⟨path', hmem, hparse'⟩ := hkept.entered other hdone
          exact ⟨path', List.mem_append_left _ hmem, hparse'⟩
        · cases List.mem_singleton.mp hlast
          exact ⟨path, by simp, hparse⟩

theorem enters_of_index (h : index members = .ok entries) : Enters members entries :=
  index_induction ⟨by simp, by simp, by simp⟩ (fun _ _ _ _ hkept henter => hkept.enter henter) h

theorem foldlM_enter_of_parse (kept : List (EntryPath × Member))
    (h : ∀ member ∈ members, ∃ path, EntryPath.parse member.name = .ok path) :
    ∃ entries, members.foldlM enter kept = .ok entries := by
  induction members generalizing kept with
  | nil => exact ⟨kept, rfl⟩
  | cons member rest ih =>
    obtain ⟨⟨path, hpath⟩, hrest⟩ := List.forall_mem_cons.mp h
    rw [List.foldlM_cons, enter_of_parse hpath]
    exact ih _ hrest

/-- An index is made when every name can be read as a path. -/
theorem index_eq_ok_iff : (∃ entries, index members = .ok entries) ↔
    ∀ member ∈ members, ∃ path, EntryPath.parse member.name = .ok path := by
  constructor
  · rintro ⟨entries, h⟩ member hmember
    obtain ⟨path, -, hparse⟩ := (enters_of_index h).entered member hmember
    exact ⟨path, hparse⟩
  · exact foldlM_enter_of_parse []

/-- The first name that cannot be read as a path tells why there is no index. -/
theorem index_eq_error {before after : List Member} {member : Member} {fault : EntryPathError}
    (hbefore : ∀ other ∈ before, ∃ path, EntryPath.parse other.name = .ok path)
    (h : EntryPath.parse member.name = .error fault) :
    index (before ++ member :: after) = .error fault := by
  obtain ⟨kept, hkept⟩ := foldlM_enter_of_parse [] hbefore
  show (before ++ member :: after).foldlM enter [] = .error fault
  rw [List.foldlM_append, hkept]
  show (member :: after).foldlM enter kept = .error fault
  rw [List.foldlM_cons, enter, h]
  rfl

section Open

variable {path : Path} {image : Bytes} {tree : ZipTree}

theorem ofImage_eq_ok_iff (hmembers : members? image = some members) :
    ofImage path image = .ok tree ↔
      ∃ entries, index members = .ok entries ∧ tree = ⟨path, image, entries⟩ := by
  unfold ofImage
  cases hindex : index members with
  | error fault => simp [hmembers, hindex]
  | ok entries => simp [hmembers, hindex, eq_comm]

theorem ofImage_eq_error (hmembers : members? image = some members) {fault : EntryPathError}
    (h : index members = .error fault) :
    ofImage path image = .error (.invalidName path fault) := by
  simp only [ofImage, hmembers, h]

theorem read_of_not_mem {entry : EntryPath} (h : entry ∉ tree.list.map ArchiveEntry.path) :
    tree.read entry = .ok none := by
  rw [map_path_list] at h
  have hnone : tree.entries.lookup entry = none := by
    rw [← Option.not_isSome_iff_eq_none]
    exact isSome_lookup_iff.not.mpr h
  simp only [read, hnone]

/-- What is read under a path is what its member contains. -/
theorem read_eq_ok_iff {entry : EntryPath} {member : Member}
    (hlookup : tree.entries.lookup entry = some member) {content : Option Bytes} :
    tree.read entry = .ok content ↔ member.Contains tree.image content := by
  simp only [read, hlookup]
  constructor
  · intro h
    cases hpacked : member.packed? tree.image with
    | none => simp [hpacked] at h
    | some packed =>
      cases hkind : member.isDirectory with
      | true =>
        simp only [hpacked, hkind, if_true, Except.ok.injEq] at h
        exact h ▸ .directory hkind hpacked
      | false =>
        cases hunpack : member.unpack? packed with
        | none => simp [hpacked, hkind, hunpack] at h
        | some bytes =>
          simp only [hpacked, hkind, hunpack, Bool.false_eq_true, if_false, Except.ok.injEq] at h
          exact h ▸ .file hkind hpacked hunpack
  · intro h
    cases h with
    | directory hkind hpacked => simp [hpacked, hkind]
    | file hkind hpacked hunpack => simp [hpacked, hkind, hunpack]

theorem shows_of_mem (hindexed : Indexed tree.entries) (henters : Enters members tree.entries)
    {e : EntryPath × Member} (he : e ∈ tree.entries) :
    Shows tree members ⟨e.1, kindOf e.2⟩ e.2 := by
  refine ⟨henters.first e he, ?_, fun content => ?_⟩
  · rw [← Member.isDirectory_iff]
    cases hkind : e.2.isDirectory <;> simp [kindOf, hkind]
  · exact read_eq_ok_iff (lookup_of_mem hindexed.nodup he)

/-- The listed entries show members in the order of the members. -/
theorem exists_shown (hindexed : Indexed tree.entries) (henters : Enters members tree.entries) :
    ∃ shown : List Member, shown.Sublist members ∧
      List.Forall₂ (Shows tree members) tree.list shown := by
  refine ⟨tree.entries.map Prod.snd, henters.in_order, ?_⟩
  rw [list, List.forall₂_map_left_iff, List.forall₂_map_right_iff, List.forall₂_same]
  exact fun e he => shows_of_mem hindexed henters he

end Open

/-- A zip file is opened exactly when all names in it can be read as paths; else the first that
cannot be is told. Then each path is listed once, in the order in which the paths come first, and
what is listed and what is read come from one member, the first with the path. Where the members'
data can be had, every listed file is read, and every directory as nothing; what is not listed is
read as nothing. -/
theorem listing_and_reading_agree {fs : FileSystem} {path : Path} {image : Bytes}
    (hfile : fs.readFile path = .ok image) (hmembers : members? image = some members) :
    (members.map Member.name).Nodup ∧
    ((∃ tree, ZipTree.open fs path = .ok tree) ↔
      ∀ member ∈ members, ∃ entry, EntryPath.parse member.name = .ok entry) ∧
    (∀ before member after fault, members = before ++ member :: after →
      (∀ other ∈ before, ∃ entry, EntryPath.parse other.name = .ok entry) →
      EntryPath.parse member.name = .error fault →
      ZipTree.open fs path = .error (.invalidName path fault)) ∧
    ∀ tree, ZipTree.open fs path = .ok tree →
      (tree.list.map ArchiveEntry.path).Nodup ∧
      (∃ shown : List Member, shown.Sublist members ∧
        List.Forall₂ (Shows tree members) tree.list shown) ∧
      (∀ member ∈ members, ∃ entry ∈ tree.list,
        EntryPath.parse member.name = .ok entry.path) ∧
      (∀ entry, entry ∉ tree.list.map ArchiveEntry.path → tree.read entry = .ok none) ∧
      ((∀ member ∈ members, ∃ content, member.Contains image content) →
        ∀ entry ∈ tree.list, (entry.kind = .directory → tree.read entry.path = .ok none) ∧
          (entry.kind = .file → ∃ bytes, tree.read entry.path = .ok (some bytes))) := by
  rw [open_of_readFile hfile]
  refine ⟨nodup_of_members? hmembers, ?_, ?_, ?_⟩
  · rw [← index_eq_ok_iff]
    simp only [ofImage_eq_ok_iff hmembers]
    exact ⟨fun ⟨_, entries, hindex, _⟩ => ⟨entries, hindex⟩,
      fun ⟨entries, hindex⟩ => ⟨_, entries, hindex, rfl⟩⟩
  · rintro before member after fault rfl hbefore hfault
    exact ofImage_eq_error hmembers (index_eq_error hbefore hfault)
  · intro tree htree
    obtain ⟨entries, hindex, rfl⟩ := (ofImage_eq_ok_iff hmembers).mp htree
    have hindexed := indexed_of_index hindex
    have henters := enters_of_index hindex
    refine ⟨?_, exists_shown hindexed henters, ?_, fun entry => read_of_not_mem, ?_⟩
    · rw [map_path_list]
      exact hindexed.nodup
    · intro member hmember
      obtain ⟨entry, hentry, hparse⟩ := henters.entered member hmember
      rw [← map_path_list ⟨path, image, entries⟩] at hentry
      obtain ⟨listed, hlisted, rfl⟩ := List.mem_map.mp hentry
      exact ⟨listed, hlisted, hparse⟩
    · intro hcontains entry hentry
      obtain ⟨e, he, rfl⟩ := List.mem_map.mp hentry
      have hshows := shows_of_mem hindexed henters he
      exact hshows.read_of_contains (hcontains e.2 hshows.first.mem)

def stored (name : String) (content : Bytes) : Packed :=
  ⟨Bytes.ofString name, ⟨0, 0, 0, firstDay, (Crc32.checksum content).toNat, content.length,
    content.length⟩, 0, content⟩

/-- A directory with a backslash, a file with a slash before its name, and another file whose path
is taken by then. -/
def oddNames : Bytes :=
  imageOfPacked [stored "d\\" [], stored "/x" [1], stored "x" [2]]

def oddFile : FileSystem := ⟨[], [(["odd.jar".toList], .file oddNames)]⟩

def outline (tree : ZipTree) :
    List ArchiveEntry × Except ReadError (Option Bytes) × Except ReadError (Option Bytes) :=
  (tree.list, tree.read ⟨['d']⟩, tree.read ⟨['x']⟩)

theorem listing_and_reading_agree_oddNames :
    oddFile.readFile (.ofString "odd.jar") = .ok oddNames ∧
      ∃ members tree, members? oddNames = some members ∧
        ZipTree.open oddFile (.ofString "odd.jar") = .ok tree ∧
        tree.list = [⟨⟨['d']⟩, .directory⟩, ⟨⟨['x']⟩, .file⟩] ∧
        tree.read ⟨['d']⟩ = .ok none ∧ tree.read ⟨['x']⟩ = .ok (some [1]) ∧
        members.length = 3 ∧ ∃ shown : List Member, shown.Sublist members ∧
          List.Forall₂ (Shows tree members) tree.list shown := by
  have hfile : oddFile.readFile (.ofString "odd.jar") = .ok oddNames := by rfl
  have hcount : (members? oddNames).map List.length = some 3 := by decide +kernel
  have houtline : (ofImage (.ofString "odd.jar") oddNames).toOption.map outline =
      some ([⟨⟨['d']⟩, .directory⟩, ⟨⟨['x']⟩, .file⟩], .ok none, .ok (some [1])) := by
    decide +kernel
  obtain ⟨members, hmembers, hlength⟩ := Option.map_eq_some_iff.mp hcount
  obtain ⟨-, -, -, hagree⟩ := listing_and_reading_agree hfile hmembers
  rw [← open_of_readFile hfile] at houtline
  cases htree : ZipTree.open oddFile (.ofString "odd.jar") with
  | error fault => simp [htree, Except.toOption] at houtline
  | ok tree =>
    obtain ⟨-, hshown, -⟩ := hagree tree htree
    rw [htree] at houtline
    simp only [Except.toOption, Option.map_some, outline, Option.some.injEq,
      Prod.mk.injEq] at houtline
    obtain ⟨hlist, hd, hx⟩ := houtline
    exact ⟨hfile, members, tree, hmembers, rfl, hlist, hd, hx, hlength, hshown⟩

end ZipTree

end Retarget

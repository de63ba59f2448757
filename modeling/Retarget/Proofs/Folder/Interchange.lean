import Retarget.Proofs.Folder.Listing
import Retarget.Proofs.ZipTree.Clashes

/-!
A directory and a jar of what is in it. As long as no name has a backslash, both read the same bytes
under every normal path, so that either may stand for the other wherever classes are looked up. They
list the same entries, though not in the same order, and a survey counts the same in both. Only a
directory whose path starts with a dot cannot be listed, and so is not surveyed as the jar is.
-/
namespace Retarget.Folder

open FileSystem Zip

variable {fs fs' : FileSystem} {root jar : Path} {place way : Location} {node : Node}
  {image : Bytes} {members : List Member} {member : Member} {tree : ZipTree} {path : EntryPath}

/-- How a jar names what lies along a way: with slashes, and one more after a directory. -/
def memberName (way : Location) : Node → Text
  | .directory => Text.joinWith '/' way ++ ['/']
  | .file _ => Text.joinWith '/' way

/-- The member of an image that stands for a node, with its name and its content. -/
structure MemberOf (image : Bytes) (way : Location) (node : Node) (member : Member) : Prop where
  name_eq : member.name = memberName way node
  contains : member.Contains image node.content?

/-- The members stand for what lies below a place, and for nothing else. -/
structure HoldsTree (image : Bytes) (members : List Member) (fs : FileSystem) (place : Location) :
    Prop where
  from_tree : ∀ member ∈ members, ∃ way node, HasBelow fs place way node ∧
    MemberOf image way node member
  whole : ∀ way node, HasBelow fs place way node → ∃ member ∈ members,
    MemberOf image way node member

theorem memberName_eq (way : Location) (node : Node) :
    memberName way node = (ZipWriter.memberOf (⟨Text.joinWith '/' way⟩, node)).name := by
  cases node <;> rfl

section Opened

variable (h : fs.WellFormed) (hplain : ∀ way node, HasBelow fs place way node → IsPlain way)
include h hplain

theorem normal_of_hasBelow (hbelow : HasBelow fs place way node) :
    (EntryPath.mk (Text.joinWith '/' way)).segments = way ∧
      (EntryPath.mk (Text.joinWith '/' way)).IsNormal :=
  isNormal_of_isPlain hbelow.1 (h.isName_of_node? hbelow.2) (hplain way node hbelow)

theorem parse_of_memberOf (hbelow : HasBelow fs place way node)
    (hmember : MemberOf image way node member) :
    EntryPath.parse member.name = .ok ⟨Text.joinWith '/' way⟩ := by
  rw [hmember.name_eq, memberName_eq]
  exact ZipWriter.parse_name_memberOf (normal_of_hasBelow h hplain hbelow).2

theorem kindOf_of_memberOf (hbelow : HasBelow fs place way node)
    (hmember : MemberOf image way node member) : ZipTree.kindOf member = .ofNode node :=
  ZipWriter.kindOf_of_name (normal_of_hasBelow h hplain hbelow).2
    (hmember.name_eq.trans (memberName_eq way node))

variable (hholds : HoldsTree image members fs place)
include hholds

/-- Every member has a path of its own, so each is the first at its path. -/
theorem firstAt_of_memberOf (hnodup : (members.map Member.name).Nodup) (hmem : member ∈ members)
    (hbelow : HasBelow fs place way node) (hmember : MemberOf image way node member) :
    ZipTree.FirstAt members ⟨Text.joinWith '/' way⟩ member := by
  obtain ⟨before, after, hsplit⟩ := List.append_of_mem hmem
  refine ⟨before, after, hsplit, parse_of_memberOf h hplain hbelow hmember, ?_⟩
  intro other hother hparse
  obtain ⟨way', node', hbelow', hmember'⟩ := hholds.from_tree other (by simp [hsplit, hother])
  rw [parse_of_memberOf h hplain hbelow' hmember', Except.ok.injEq] at hparse
  have hway : way' = way := by
    rw [← (normal_of_hasBelow h hplain hbelow').1, hparse, (normal_of_hasBelow h hplain hbelow).1]
  subst hway
  have hnode : node' = node := Option.some.inj (hbelow'.2.symm.trans hbelow.2)
  subst hnode
  have hname : other.name = member.name := hmember'.name_eq.trans hmember.name_eq.symm
  rw [hsplit, List.map_append, List.map_cons] at hnodup
  exact (List.nodup_append.mp hnodup).2.2 _ (List.mem_map_of_mem hother) _ List.mem_cons_self hname

omit hholds in
/-- What is listed for a way without backslashes. -/
theorem lists_iff (hbelow : HasBelow fs place way node) {entry : ArchiveEntry} :
    Lists (way, node) entry ↔ entry = ⟨⟨Text.joinWith '/' way⟩, .ofNode node⟩ := by
  have hparse : ∀ path, EntryPath.parse (Text.joinWith '/' way) = .ok path ↔
      path = ⟨Text.joinWith '/' way⟩ := fun path =>
    parse_iff_of_isPlain hbelow.1 (h.isName_of_node? hbelow.2) (hplain way node hbelow)
  constructor
  · intro hlists
    obtain ⟨path, kind⟩ := entry
    rw [ArchiveEntry.mk.injEq]
    exact ⟨(hparse path).mp hlists.parse_eq, hlists.kind_eq⟩
  · intro hentry
    subst hentry
    exact ⟨(hparse _).mpr rfl, rfl⟩

/-- An opened jar has what lies below a place under the paths of the ways there. -/
structure Mirrors (tree : ZipTree) (fs : FileSystem) (place : Location) : Prop where
  nodup : (tree.entries.map Prod.fst).Nodup
  of_entry : ∀ e ∈ tree.entries, ∃ way node, HasBelow fs place way node ∧
    e.1 = ⟨Text.joinWith '/' way⟩ ∧ MemberOf tree.image way node e.2
  of_below : ∀ way node, HasBelow fs place way node → ∃ member,
    (⟨Text.joinWith '/' way⟩, member) ∈ tree.entries ∧ MemberOf tree.image way node member

theorem exists_mirror (hjar : fs'.readFile jar = .ok image)
    (hmembers : members? image = some members) :
    ∃ tree, ZipTree.open fs' jar = .ok tree ∧ Mirrors tree fs place := by
  have hparse : ∀ member ∈ members, ∃ path, EntryPath.parse member.name = .ok path := by
    intro member hmember
    obtain ⟨way, node, hbelow, hmemberOf⟩ := hholds.from_tree member hmember
    exact ⟨_, parse_of_memberOf h hplain hbelow hmemberOf⟩
  obtain ⟨entries, hindex⟩ := ZipTree.index_eq_ok_iff.mpr hparse
  have henters := ZipTree.enters_of_index hindex
  refine ⟨⟨jar, image, entries⟩, ?_, (ZipTree.indexed_of_index hindex).nodup, ?_, ?_⟩
  · rw [ZipTree.open_of_readFile hjar]
    exact (ZipTree.ofImage_eq_ok_iff hmembers).mpr ⟨entries, hindex, rfl⟩
  · intro e he
    have hfirst := henters.first e he
    obtain ⟨way, node, hbelow, hmemberOf⟩ := hholds.from_tree e.2 hfirst.mem
    obtain ⟨_, _, _, hpath, _⟩ := hfirst
    rw [parse_of_memberOf h hplain hbelow hmemberOf, Except.ok.injEq] at hpath
    exact ⟨way, node, hbelow, hpath.symm, hmemberOf⟩
  · intro way node hbelow
    obtain ⟨member, hmember, hmemberOf⟩ := hholds.whole way node hbelow
    refine ⟨member, (ZipTree.mem_entries_iff henters).mpr ?_, hmemberOf⟩
    exact firstAt_of_memberOf h hplain hholds (nodup_of_members? hmembers) hmember hbelow hmemberOf

end Opened

def surveyAt (fs : FileSystem) (path : Path) : Except Fault ClassSurvey :=
  match openTree fs path with
  | .error fault => .error fault.fault
  | .ok archive => ClassSurvey.ofArchive fs archive

section Mirror

variable (h : fs.WellFormed) (hplain : ∀ way node, HasBelow fs place way node → IsPlain way)
  (hmirrors : Mirrors tree fs place)
include h hplain hmirrors

theorem Mirrors.mem_list_iff {entry : ArchiveEntry} :
    entry ∈ tree.list ↔ ∃ way node, HasBelow fs place way node ∧ Lists (way, node) entry := by
  rw [ZipTree.list, List.mem_map]
  constructor
  · intro hentry
    obtain ⟨e, he, rfl⟩ := hentry
    obtain ⟨way, node, hbelow, hpath, hmemberOf⟩ := hmirrors.of_entry e he
    refine ⟨way, node, hbelow, (lists_iff h hplain hbelow).mpr ?_⟩
    rw [hpath, kindOf_of_memberOf h hplain hbelow hmemberOf]
  · intro hbelow
    obtain ⟨way, node, hbelow, hlists⟩ := hbelow
    obtain ⟨member, hmember, hmemberOf⟩ := hmirrors.of_below way node hbelow
    refine ⟨_, hmember, ?_⟩
    rw [(lists_iff h hplain hbelow).mp hlists, kindOf_of_memberOf h hplain hbelow hmemberOf]

/-- Under a path the jar holds what the file system has along the path's segments. -/
theorem Mirrors.read_eq (path : EntryPath) :
    tree.read path = .ok ((fs.node? (place ++ path.segments)).bind Node.content?) := by
  have hsame : (⟨Text.joinWith '/' path.segments⟩ : EntryPath) = path := by
    rw [EntryPath.segments, Text.joinWith_splitOn]
  have hne : path.segments ≠ [] := Text.splitOn_ne_nil '/' path.text
  cases hnode : fs.node? (place ++ path.segments) with
  | some node =>
    obtain ⟨member, hmember, hmemberOf⟩ := hmirrors.of_below path.segments node ⟨hne, hnode⟩
    rw [hsame] at hmember
    exact (ZipTree.read_eq_ok_iff (lookup_of_mem hmirrors.nodup hmember)).mpr hmemberOf.contains
  | none =>
    apply ZipTree.read_of_not_mem
    rw [ZipTree.map_path_list]
    intro hmem
    obtain ⟨e, he, hpath⟩ := List.mem_map.mp hmem
    obtain ⟨way, node, hbelow, hway, -⟩ := hmirrors.of_entry e he
    have hsegments : path.segments = way := by
      rw [← hpath, hway, (normal_of_hasBelow h hplain hbelow).1]
    rw [hsegments, hbelow.2] at hnode
    cases hnode

theorem Mirrors.answersAt_eq (hopen : openTree fs' jar = .ok tree.archive) (name : ClassName)
    (asking : FileSystem) : answersAt jar name fs' asking = List.replicate 3
      (.ok ((fs.node? (place ++ (EntryPath.ofClass name).segments)).bind Node.content?)) := by
  rw [answersAt_of_openTree hopen]
  have hread : ∀ asking, tree.archive.read asking (.ofClass name) =
      .ok ((fs.node? (place ++ (EntryPath.ofClass name).segments)).bind Node.content?) := by
    intro asking
    show (tree.read (.ofClass name)).mapError ZipTree.ReadError.fault = _
    rw [hmirrors.read_eq h hplain]
    rfl
  rw [hread fs', hread asking]
  rfl

theorem Mirrors.surveyAt_eq (hopen : openTree fs' jar = .ok tree.archive) :
    surveyAt fs' jar = .ok (ClassSurvey.counted
      (fun path => (fs.node? (place ++ path.segments)).bind Node.content?) tree.list) := by
  have hlisted : tree.archive.list fs' = .ok tree.list := rfl
  rw [surveyAt, hopen]
  refine (ClassSurvey.ofArchive_eq_ok_iff hlisted).mpr ⟨_, fun entry _ _ => ?_, rfl⟩
  show (tree.read entry.path).mapError ZipTree.ReadError.fault = _
  rw [hmirrors.read_eq h hplain]
  rfl

end Mirror

section Survey

variable (h : fs.WellFormed) (hroot : fs.stat root = .ok (place, .directory))
include hroot

theorem openTree_of_stat : openTree fs root = .ok (archive ⟨root⟩) :=
  openTree_of_isDirectory (by rw [isDirectory, hroot])

theorem answersAt_eq (name : ClassName) :
    answersAt root name fs fs = List.replicate 3 (.ok (read ⟨root⟩ fs (.ofClass name))) := by
  rw [answersAt_of_openTree (openTree_of_stat hroot)]
  rfl

/-- A directory is surveyed as soon as it is listed. -/
theorem surveyAt_of_list {entries : List ArchiveEntry} (hlist : list ⟨root⟩ fs = .ok entries) :
    surveyAt fs root = .ok (ClassSurvey.counted (read ⟨root⟩ fs) entries) := by
  have hlisted : (archive ⟨root⟩).list fs = .ok entries := by
    show (list ⟨root⟩ fs).mapError ListError.fault = _
    rw [hlist]
    rfl
  rw [surveyAt, openTree_of_stat hroot]
  exact (ClassSurvey.ofArchive_eq_ok_iff hlisted).mpr ⟨_, fun _ _ _ => rfl, rfl⟩

theorem surveyAt_of_list_error {fault : ListError} (hlist : list ⟨root⟩ fs = .error fault) :
    surveyAt fs root = .error fault.fault := by
  have hlisted : (archive ⟨root⟩).list fs = .error fault.fault := by
    show (list ⟨root⟩ fs).mapError ListError.fault = _
    rw [hlist]
    rfl
  rw [surveyAt, openTree_of_stat hroot]
  simp only [ClassSurvey.ofArchive, hlisted]

include h

/-- Under a root that starts with a dot nothing is counted. -/
theorem surveyAt_of_leadingDots {pieces : List Text}
    (hdots : afterLeadingDots? root.text = some pieces) :
    (pieces.head? = some [] ∨ (¬∃ way node, HasBelow fs place way node) →
      surveyAt fs root = .ok {}) ∧
    (pieces.head? ≠ some [] → (∃ way node, HasBelow fs place way node) →
      ∃ fault, surveyAt fs root = .error fault) := by
  have hnone : walkBelow fs place = [] ↔ ¬∃ way node, HasBelow fs place way node := by
    rw [List.eq_nil_iff_forall_not_mem]
    constructor
    · intro hall hbelow
      obtain ⟨way, node, hbelow⟩ := hbelow
      exact hall _ ((mem_walkBelow_iff h).mpr hbelow)
    · intro hall found hfound
      exact hall ⟨found.1, found.2, (mem_walkBelow_iff h).mp hfound⟩
  constructor
  · intro hempty
    rw [← hnone] at hempty
    exact surveyAt_of_list hroot ((list_of_leadingDots hroot hdots).mpr ⟨rfl, hempty⟩)
  · intro hpieces hbelow
    cases hlist : list ⟨root⟩ fs with
    | error fault => exact ⟨_, surveyAt_of_list_error hroot hlist⟩
    | ok entries =>
      rcases ((list_of_leadingDots hroot hdots).mp hlist).2 with hhead | hempty
      · exact absurd hhead hpieces
      · exact absurd hbelow (hnone.mp hempty)

variable (hplain : ∀ way node, HasBelow fs place way node → IsPlain way)
  (hmirrors : Mirrors tree fs place)
include hplain hmirrors

theorem Mirrors.perm_list (hdots : afterLeadingDots? root.text = none) {entries : List ArchiveEntry}
    (hlist : list ⟨root⟩ fs = .ok entries) : entries.Perm tree.list := by
  have hentries : (entries.map ArchiveEntry.path).Nodup :=
    (nodup_list_iff h hroot hdots hlist).mpr (list_of_isPlain h hroot hdots hplain).2
  have hlisted : (tree.list.map ArchiveEntry.path).Nodup := by
    rw [ZipTree.map_path_list]
    exact hmirrors.nodup
  rw [List.perm_ext_iff_of_nodup (hentries.of_map _) (hlisted.of_map _)]
  intro entry
  rw [Folder.mem_list_iff h hroot hdots hlist, hmirrors.mem_list_iff h hplain]

/-- The directory and the jar are surveyed alike where the paths of files can be used. -/
theorem Mirrors.sameCounts (hdots : afterLeadingDots? root.text = none)
    (hopen : openTree fs' jar = .ok tree.archive) :
    ∃ s t, surveyAt fs root = .ok s ∧ surveyAt fs' jar = .ok t ∧
      (FilesFound fs root place → ClassSurvey.SameCounts s t) := by
  obtain ⟨entries, hlist⟩ := (list_of_isPlain h hroot hdots hplain).1
  refine ⟨_, _, surveyAt_of_list hroot hlist, hmirrors.surveyAt_eq h hplain hopen, ?_⟩
  intro hfiles
  have hcontent : ClassSurvey.counted (read ⟨root⟩ fs) entries = ClassSurvey.counted
      (fun path => (fs.node? (place ++ path.segments)).bind Node.content?) entries := by
    apply ClassSurvey.counted_congr
    intro entry hentry hclass
    obtain ⟨way, node, hbelow, hlists⟩ := (Folder.mem_list_iff h hroot hdots hlist).mp hentry
    have hread := read_of_lists h hroot (list_of_isPlain h hroot hdots hplain).2 hfiles hbelow hlists
    rw [hread, (lists_iff h hplain hbelow).mp hlists, (normal_of_hasBelow h hplain hbelow).1,
      hbelow.2]
    rfl
  rw [hcontent]
  exact ClassSurvey.sameCounts_of_perm _ (hmirrors.perm_list h hroot hplain hdots hlist)

end Survey

/-- A directory and a jar of what is below it answer every class's name alike, whose path is normal
and can be used below the directory. Both are surveyed, and with the same counts where the paths of
files can be used; except that below a root that starts with a dot nothing can be counted. -/
theorem folder_and_jar_interchangeable (h : fs.WellFormed)
    (hroot : fs.stat root = .ok (place, .directory))
    (hplain : ∀ way node, HasBelow fs place way node → IsPlain way)
    (hjar : fs'.readFile jar = .ok image) (hmembers : members? image = some members)
    (hholds : HoldsTree image members fs place) :
    (∀ name : ClassName, (EntryPath.ofClass name).IsNormal → ∀ asking : FileSystem,
      answersAt jar name fs' asking = List.replicate 3
        (.ok ((fs.node? (place ++ (EntryPath.ofClass name).segments)).bind Node.content?)) ∧
      (IsUsable (locate ⟨root⟩ (.ofClass name)) →
        answersAt root name fs fs = answersAt jar name fs' asking) ∧
      (¬IsUsable (locate ⟨root⟩ (.ofClass name)) →
        answersAt root name fs fs = List.replicate 3 (.ok none))) ∧
    ∃ t, surveyAt fs' jar = .ok t ∧
      (afterLeadingDots? root.text = none → ∃ s, surveyAt fs root = .ok s ∧
        (FilesFound fs root place → ClassSurvey.SameCounts s t)) ∧
      ∀ pieces, afterLeadingDots? root.text = some pieces →
        (pieces.head? = some [] ∨ (¬∃ way node, HasBelow fs place way node) →
          surveyAt fs root = .ok {}) ∧
        (pieces.head? ≠ some [] → (∃ way node, HasBelow fs place way node) →
          ∃ fault, surveyAt fs root = .error fault) := by
  obtain ⟨tree, htree, hmirrors⟩ := exists_mirror h hplain hholds hjar hmembers
  have hopen : openTree fs' jar = .ok tree.archive := by
    rw [openTree_of_readFile hjar, htree]
    rfl
  constructor
  · intro name hnormal asking
    have hanswers := hmirrors.answersAt_eq h hplain hopen name asking
    refine ⟨hanswers, ?_, ?_⟩
    · intro husable
      rw [answersAt_eq hroot, read_of_isNormal h hroot hnormal, if_pos husable, hanswers]
    · intro husable
      rw [answersAt_eq hroot, read_of_isNormal h hroot hnormal, if_neg husable]
  · refine ⟨_, hmirrors.surveyAt_eq h hplain hopen, ?_, ?_⟩
    · intro hdots
      obtain ⟨s, t, hs, ht, hsame⟩ := hmirrors.sameCounts h hroot hplain hdots hopen
      rw [hmirrors.surveyAt_eq h hplain hopen, Except.ok.injEq] at ht
      rw [ht]
      exact ⟨s, hs, hsame⟩
    · intro pieces hdots
      exact surveyAt_of_leadingDots h hroot hdots

def packageJar : Bytes :=
  imageOfPacked [ZipTree.stored "p/" [], ZipTree.stored "p/C.class" [1]]

def packageMembers : List Member :=
  [ZipTree.storedHeader "p/" [] 0, ZipTree.storedHeader "p/C.class" [1] 32]

def packageJarFile : FileSystem := ⟨[], [(["p.jar".toList], .file packageJar)]⟩

theorem members?_packageJar : members? packageJar = some packageMembers := by decide +kernel

/-- All that there is below the directory. -/
theorem hasBelow_packageFolder (hbelow : HasBelow packageFolder ["lib".toList] way node) :
    way = ["p".toList] ∧ node = .directory ∨
      way = ["p".toList, "C.class".toList] ∧ node = .file [1] := by
  have hmem := mem_nodes_of_node? (List.cons_ne_nil _ way) hbelow.2
  simp only [packageFolder, List.mem_cons, Prod.mk.injEq, List.cons.injEq, true_and,
    List.not_mem_nil, or_false] at hmem
  rcases hmem with ⟨hway, -⟩ | hfound | hfound
  · exact absurd hway hbelow.1
  · exact Or.inl hfound
  · exact Or.inr hfound

theorem holdsTree_packageJar :
    HoldsTree packageJar packageMembers packageFolder ["lib".toList] := by
  have hfolder : MemberOf packageJar ["p".toList] .directory (ZipTree.storedHeader "p/" [] 0) := by
    have hpacked : (ZipTree.storedHeader "p/" [] 0).packed? packageJar = some [] := by decide +kernel
    exact ⟨by decide, .directory (by decide) hpacked⟩
  have hclass : MemberOf packageJar ["p".toList, "C.class".toList] (.file [1])
      (ZipTree.storedHeader "p/C.class" [1] 32) := by
    have hpacked : (ZipTree.storedHeader "p/C.class" [1] 32).packed? packageJar = some [1] := by
      decide +kernel
    exact ⟨by decide, .file (by decide) hpacked (by decide +kernel)⟩
  constructor
  · intro member hmember
    simp only [packageMembers, List.mem_cons, List.not_mem_nil, or_false] at hmember
    rcases hmember with hmember | hmember
    · subst hmember
      exact ⟨_, _, ⟨by decide, by rfl⟩, hfolder⟩
    · subst hmember
      exact ⟨_, _, ⟨by decide, by rfl⟩, hclass⟩
  · intro way node hbelow
    rcases hasBelow_packageFolder hbelow with ⟨hway, hnode⟩ | ⟨hway, hnode⟩
    · subst hway hnode
      exact ⟨_, by simp [packageMembers], hfolder⟩
    · subst hway hnode
      exact ⟨_, by simp [packageMembers], hclass⟩

theorem isPlain_packageFolder (hbelow : HasBelow packageFolder ["lib".toList] way node) :
    IsPlain way := by
  rcases hasBelow_packageFolder hbelow with ⟨hway, -⟩ | ⟨hway, -⟩
  · subst hway
    decide
  · subst hway
    decide

def packageClass : ClassName := ⟨"p/C".toList, by decide, by decide, by decide⟩

theorem folder_and_jar_interchangeable_packageJar :
    packageFolder.stat (.ofString "lib") = .ok (["lib".toList], .directory) ∧
      packageJarFile.readFile (.ofString "p.jar") = .ok packageJar ∧
      HoldsTree packageJar packageMembers packageFolder ["lib".toList] ∧
      answersAt (.ofString "lib") packageClass packageFolder packageFolder =
        answersAt (.ofString "p.jar") packageClass packageJarFile packageJarFile ∧
      answersAt (.ofString "p.jar") packageClass packageJarFile packageJarFile =
        List.replicate 3 (.ok (some [1])) ∧
      ∃ s t, surveyAt packageFolder (.ofString "lib") = .ok s ∧
        surveyAt packageJarFile (.ofString "p.jar") = .ok t ∧ ClassSurvey.SameCounts s t := by
  have hroot : packageFolder.stat (.ofString "lib") = .ok (["lib".toList], .directory) := by rfl
  have hjar : packageJarFile.readFile (.ofString "p.jar") = .ok packageJar := by rfl
  have hfiles : FilesFound packageFolder (.ofString "lib") ["lib".toList] := by
    intro way content hbelow
    refine ⟨isPlain_packageFolder hbelow, ?_⟩
    rcases hasBelow_packageFolder hbelow with ⟨hway, -⟩ | ⟨hway, -⟩
    · subst hway
      decide
    · subst hway
      decide
  obtain ⟨hanswers, t, ht, hdotless, -⟩ := folder_and_jar_interchangeable wellFormed_packageFolder
    hroot (fun _ _ => isPlain_packageFolder) hjar members?_packageJar holdsTree_packageJar
  obtain ⟨hfound, hsame, -⟩ := hanswers packageClass (by decide) packageJarFile
  obtain ⟨s, hs, hcounts⟩ := hdotless (by decide)
  exact ⟨hroot, hjar, holdsTree_packageJar, hsame (by decide), hfound, s, t, hs, ht, hcounts hfiles⟩

/-- A directory is not always surveyed as the jar is. -/
theorem dotted_root_not_surveyed :
    ¬∀ (fs fs' : FileSystem) (root jar : Path) (place : Location) (image : Bytes)
      (members : List Member), fs.WellFormed → fs.stat root = .ok (place, .directory) →
      (∀ way node, HasBelow fs place way node → IsPlain way) →
      fs'.readFile jar = .ok image → members? image = some members →
      HoldsTree image members fs place →
      ∃ s t, surveyAt fs root = .ok s ∧ surveyAt fs' jar = .ok t ∧ ClassSurvey.SameCounts s t := by
  intro hsurveyed
  have hroot : packageFolder.stat (.ofString "./lib") = .ok (["lib".toList], .directory) := by rfl
  have hjar : packageJarFile.readFile (.ofString "p.jar") = .ok packageJar := by rfl
  obtain ⟨s, t, hs, -⟩ := hsurveyed packageFolder packageJarFile _ _ _ _ _ wellFormed_packageFolder
    hroot (fun _ _ => isPlain_packageFolder) hjar members?_packageJar holdsTree_packageJar
  have hdots : afterLeadingDots? (Path.ofString "./lib").text = some ["lib".toList] := by decide
  obtain ⟨fault, hfault⟩ := (surveyAt_of_leadingDots wellFormed_packageFolder hroot hdots).2
    (by decide) ⟨["p".toList], .directory, by decide, by rfl⟩
  rw [hs] at hfault
  cases hfault

end Retarget.Folder

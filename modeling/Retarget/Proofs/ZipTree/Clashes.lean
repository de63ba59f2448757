import Mathlib.Data.List.Induction
import Retarget.Proofs.Archive.Uses
import Retarget.Proofs.Downgrade.Success
import Retarget.Proofs.ZipTree.Coherence

/-!
Members that share a path. The central directory may list several headers whose names are read as
one path. Headers with one name are one member: it stands where the first stood and is what the last
was. Of members with different names the first counts. So what counts at a path is the last header
that has the name of the first header there, and it is what lookups, surveys and walks are given.
-/
namespace Retarget

namespace Zip

/-- The members of all headers that an end record at `position` leads to, names being repeated. -/
def headersAt? (image : Bytes) (position : Nat) (rest : Bytes) : Option (List Member) := do
  let (record, _) ← EndRecord.parse? rest
  let directory ← directory? image position record
  centralMembers? directory directory.count (image.drop directory.start)

def headersFrom? (image : Bytes) : (position : Nat) → Bytes → Option (List Member)
  | _, [] => none
  | position, b :: bs =>
    match headersFrom? image (position + 1) bs with
    | some headers => some headers
    | none => headersAt? image position (b :: bs)

def headers? (image : Bytes) : Option (List Member) :=
  headersFrom? image 0 image

theorem membersAt?_eq (image : Bytes) (position : Nat) (rest : Bytes) :
    membersAt? image position rest = (headersAt? image position rest).map mergeNames := by
  unfold membersAt? headersAt?
  cases EndRecord.parse? rest with
  | none => rfl
  | some parsed =>
    show (directory? image position parsed.1).bind _ = ((directory? image position parsed.1).bind _).map _
    cases directory? image position parsed.1 with
    | none => rfl
    | some directory => exact (Option.map_eq_bind ..).symm

theorem membersFrom?_eq (image : Bytes) (position : Nat) (bytes : Bytes) :
    membersFrom? image position bytes = (headersFrom? image position bytes).map mergeNames := by
  induction bytes generalizing position with
  | nil => rfl
  | cons b bs ih =>
    rw [membersFrom?, headersFrom?, ih]
    cases headersFrom? image (position + 1) bs with
    | some headers => rfl
    | none => exact membersAt?_eq image position (b :: bs)

/-- Repeated names apart, the members are those of the headers. -/
theorem members?_eq (image : Bytes) : members? image = (headers? image).map mergeNames :=
  membersFrom?_eq image 0 image

def LastNamed (headers : List Member) (name : Text) (member : Member) : Prop :=
  ∃ before after, headers = before ++ member :: after ∧ member.name = name ∧
    ∀ other ∈ after, other.name ≠ name

variable {headers : List Member} {name : Text} {member member' : Member}

theorem lastNamed_concat_self (headers : List Member) (member : Member) :
    LastNamed (headers ++ [member]) member.name member :=
  ⟨headers, [], rfl, rfl, by simp⟩

theorem LastNamed.concat (h : LastNamed headers name member) (hother : member'.name ≠ name) :
    LastNamed (headers ++ [member']) name member := by
  obtain ⟨before, after, rfl, hname, hafter⟩ := h
  refine ⟨before, after ++ [member'], by simp, hname, ?_⟩
  intro other hmem
  rcases List.mem_append.mp hmem with hmem | hlast
  · exact hafter other hmem
  · rw [List.mem_singleton.mp hlast]
    exact hother

/-- There is only one last header with a name: it is found first from behind. -/
theorem LastNamed.find?_reverse (h : LastNamed headers name member) :
    headers.reverse.find? (·.name = name) = some member := by
  obtain ⟨before, after, rfl, hname, hafter⟩ := h
  rw [List.find?_eq_some_iff_append]
  refine ⟨by simpa using hname, after.reverse, before.reverse, by simp, ?_⟩
  intro other hother
  simpa using hafter other (List.mem_reverse.mp hother)

theorem LastNamed.unique (h : LastNamed headers name member) (h' : LastNamed headers name member') :
    member' = member := by
  have hfound := h'.find?_reverse
  rw [h.find?_reverse] at hfound
  exact (Option.some.inj hfound).symm

theorem mergeNames_concat (headers : List Member) (member : Member) :
    mergeNames (headers ++ [member]) = mergeName (mergeNames headers) member := by
  rw [mergeNames, List.foldl_append]
  rfl

/-- A member is what the last header of its name was. -/
theorem lastNamed_of_mem_mergeNames (h : member ∈ mergeNames headers) :
    LastNamed headers member.name member := by
  induction headers using List.reverseRecOn generalizing member with
  | nil => cases h
  | append_singleton headers last ih =>
    rw [mergeNames_concat, mergeName] at h
    split at h
    · obtain ⟨kept, hkept, hmember⟩ := List.mem_map.mp h
      by_cases hname : kept.name = last.name
      · rw [if_pos hname] at hmember
        subst hmember
        exact lastNamed_concat_self headers last
      · rw [if_neg hname] at hmember
        subst hmember
        exact (ih hkept).concat (Ne.symm hname)
    · next hnew =>
      rcases List.mem_append.mp h with hkept | hlast
      · apply (ih hkept).concat
        intro hsame
        exact hnew (List.any_eq_true.mpr ⟨member, hkept, by simp [hsame]⟩)
      · rw [List.mem_singleton.mp hlast]
        exact lastNamed_concat_self headers last

/-- The names are those of the headers, each where it comes first. -/
theorem find?_name_mergeNames (p : Text → Bool) (headers : List Member) :
    ((mergeNames headers).map Member.name).find? p = (headers.map Member.name).find? p := by
  induction headers using List.reverseRecOn with
  | nil => rfl
  | append_singleton headers last ih =>
    rw [mergeNames_concat, map_name_mergeName, List.map_append, List.find?_append]
    split
    · next hmem =>
      rw [ih]
      cases hfound : (headers.map Member.name).find? p with
      | some name => rfl
      | none =>
        rw [← ih, List.find?_eq_none] at hfound
        simp [hfound last.name hmem]
    · rw [List.find?_append, ih]
      rfl

theorem mem_name_mergeNames_iff :
    name ∈ (mergeNames headers).map Member.name ↔ name ∈ headers.map Member.name := by
  have hfound := congrArg Option.isSome (find?_name_mergeNames (· = name) headers)
  rw [Bool.eq_iff_iff, List.find?_isSome, List.find?_isSome] at hfound
  simpa using hfound

end Zip

open Zip

namespace ZipTree

section CountsAt

variable {headers members : List Member} {entry : EntryPath} {member first : Member}

/-- What counts at a path: the last header that has the name of the first header there. -/
def CountsAt (headers : List Member) (entry : EntryPath) (member : Member) : Prop :=
  ∃ first, FirstAt headers entry first ∧ LastNamed headers first.name member

def leadsTo (entry : EntryPath) (name : Text) : Bool :=
  decide (EntryPath.parse name = .ok entry)

theorem firstAt_iff : FirstAt members entry member ↔
    members.find? (fun m => leadsTo entry m.name) = some member := by
  rw [List.find?_eq_some_iff_append]
  simp only [leadsTo, decide_eq_true_eq, Bool.not_eq_eq_eq_not, Bool.not_true, decide_eq_false_iff_not]
  constructor
  · intro h
    obtain ⟨before, after, hsplit, hparse, hbefore⟩ := h
    exact ⟨hparse, before, after, hsplit, hbefore⟩
  · intro h
    obtain ⟨hparse, before, after, hsplit, hbefore⟩ := h
    exact ⟨before, after, hsplit, hparse, hbefore⟩

theorem FirstAt.unique (h : FirstAt members entry member) (h' : FirstAt members entry first) :
    first = member := by
  rw [firstAt_iff] at h h'
  rw [h] at h'
  exact (Option.some.inj h').symm

/-- The names alone tell the name of the first. -/
theorem exists_firstAt_iff {name : Text} :
    (∃ member, FirstAt members entry member ∧ member.name = name) ↔
      (members.map Member.name).find? (leadsTo entry) = some name := by
  simp only [List.find?_map, Option.map_eq_some_iff, firstAt_iff]
  rfl

/-- The member that counts is the first once members of one name are merged. -/
theorem countsAt_iff : CountsAt headers entry member ↔ FirstAt (mergeNames headers) entry member := by
  constructor
  · intro h
    obtain ⟨first, hfirst, hlast⟩ := h
    have hfound := exists_firstAt_iff.mp ⟨first, hfirst, rfl⟩
    rw [← find?_name_mergeNames] at hfound
    obtain ⟨kept, hkept, hname⟩ := exists_firstAt_iff.mpr hfound
    have hsame := lastNamed_of_mem_mergeNames hkept.mem
    rw [hname] at hsame
    rw [hsame.unique hlast]
    exact hkept
  · intro h
    have hfound := exists_firstAt_iff.mp ⟨member, h, rfl⟩
    rw [find?_name_mergeNames] at hfound
    obtain ⟨first, hfirst, hname⟩ := exists_firstAt_iff.mpr hfound
    refine ⟨first, hfirst, ?_⟩
    rw [hname]
    exact lastNamed_of_mem_mergeNames h.mem

theorem isDirectory_of_lastNamed (hlast : LastNamed headers first.name member) :
    member.isDirectory = first.isDirectory := by
  obtain ⟨_, _, _, hname, _⟩ := hlast
  rw [Member.isDirectory, Member.isDirectory, hname]

/-- A name that is not repeated is its own last. -/
theorem eq_first_of_lastNamed (honly : ∀ other ∈ headers, other.name = first.name → other = first)
    (hlast : LastNamed headers first.name member) : member = first := by
  obtain ⟨before, after, hsplit, hname, -⟩ := hlast
  exact honly member (by simp [hsplit]) hname

theorem exists_countsAt {header : Member} (hheader : header ∈ headers)
    (hparse : EntryPath.parse header.name = .ok entry) : ∃ member, CountsAt headers entry member := by
  have hsome : ((headers.map Member.name).find? (leadsTo entry)).isSome = true := by
    rw [List.find?_isSome]
    exact ⟨header.name, List.mem_map_of_mem hheader, decide_eq_true hparse⟩
  obtain ⟨name, hfound⟩ := Option.isSome_iff_exists.mp hsome
  rw [← find?_name_mergeNames] at hfound
  obtain ⟨kept, hkept, -⟩ := exists_firstAt_iff.mpr hfound
  exact ⟨kept, countsAt_iff.mpr hkept⟩

end CountsAt

section Opened

variable {fs : FileSystem} {path : Path} {image : Bytes} {headers members : List Member}
  {tree : ZipTree} {entry : EntryPath} {member : Member}

/-- An opened file has under each path the member that counts there. -/
structure Opened (headers : List Member) (tree : ZipTree) : Prop where
  nodup : (tree.entries.map Prod.fst).Nodup
  mem_iff : ∀ entry member, (entry, member) ∈ tree.entries ↔ CountsAt headers entry member

theorem mem_entries_iff {entries : List (EntryPath × Member)} (h : Enters members entries) :
    (entry, member) ∈ entries ↔ FirstAt members entry member := by
  constructor
  · intro hmem
    exact h.first _ hmem
  · intro hfirst
    obtain ⟨path, hpath, hparse⟩ := h.entered member hfirst.mem
    obtain ⟨before, after, _, hparse', _⟩ := id hfirst
    rw [hparse', Except.ok.injEq] at hparse
    subst hparse
    obtain ⟨kept, hkept, rfl⟩ := List.mem_map.mp hpath
    rw [(h.first kept hkept).unique hfirst]
    exact hkept

variable (hfile : fs.readFile path = .ok image) (hheaders : headers? image = some headers)
include hfile hheaders

theorem open_eq_ok_iff : ZipTree.open fs path = .ok tree ↔
    ∃ entries, index (mergeNames headers) = .ok entries ∧ tree = ⟨path, image, entries⟩ := by
  rw [open_of_readFile hfile]
  apply ofImage_eq_ok_iff
  rw [members?_eq, hheaders]
  rfl

theorem exists_open_iff : (∃ tree, ZipTree.open fs path = .ok tree) ↔
    ∀ header ∈ headers, ∃ entry, EntryPath.parse header.name = .ok entry := by
  have hindexed : (∃ tree, ZipTree.open fs path = .ok tree) ↔
      ∃ entries, index (mergeNames headers) = .ok entries := by
    simp only [open_eq_ok_iff hfile hheaders]
    constructor
    · intro h
      obtain ⟨_, entries, hindex, -⟩ := h
      exact ⟨entries, hindex⟩
    · intro h
      obtain ⟨entries, hindex⟩ := h
      exact ⟨_, entries, hindex, rfl⟩
  have hnames : ∀ name, name ∈ (mergeNames headers).map Member.name ↔ name ∈ headers.map Member.name :=
    fun name => mem_name_mergeNames_iff
  rw [hindexed, index_eq_ok_iff]
  simp only [← List.forall_mem_map (f := Member.name)
    (P := fun name => ∃ entry, EntryPath.parse name = .ok entry), hnames]

theorem opened_of_open (htree : ZipTree.open fs path = .ok tree) :
    tree.image = image ∧ Opened headers tree := by
  obtain ⟨entries, hindex, rfl⟩ := (open_eq_ok_iff hfile hheaders).mp htree
  refine ⟨rfl, (indexed_of_index hindex).nodup, ?_⟩
  intro entry member
  rw [countsAt_iff]
  exact mem_entries_iff (enters_of_index hindex)

omit hfile hheaders
variable (h : Opened headers tree)
include h

theorem Opened.mem_list_iff {listed : ArchiveEntry} : listed ∈ tree.list ↔
    ∃ member, CountsAt headers listed.path member ∧ listed.kind = kindOf member := by
  rw [list, List.mem_map]
  constructor
  · intro hlisted
    obtain ⟨e, he, rfl⟩ := hlisted
    exact ⟨e.2, (h.mem_iff e.1 e.2).mp he, rfl⟩
  · intro hcounts
    obtain ⟨member, hmember, hkind⟩ := hcounts
    refine ⟨(listed.path, member), (h.mem_iff _ _).mpr hmember, ?_⟩
    rw [← hkind]

/-- What is read under a path is the content of the member that counts there. -/
theorem Opened.read_iff (hcounts : CountsAt headers entry member) (content : Option Bytes) :
    tree.read entry = .ok content ↔ member.Contains tree.image content :=
  read_eq_ok_iff (lookup_of_mem h.nodup ((h.mem_iff _ _).mpr hcounts))

theorem Opened.archive_read_iff (hcounts : CountsAt headers entry member) (content : Option Bytes) :
    tree.archive.read fs entry = .ok content ↔ member.Contains tree.image content := by
  rw [← h.read_iff hcounts]
  show (tree.read entry).mapError ReadError.fault = .ok content ↔ _
  cases tree.read entry with
  | error fault =>
    constructor
    · intro h
      cases h
    · intro h
      cases h
  | ok found => simp only [Except.mapError, Except.ok.injEq]

/-- A listed entry has the kind that the first name tells, and no other is listed at its path. -/
theorem Opened.listed_once {first : Member} (hfirst : FirstAt headers entry first)
    (hlast : LastNamed headers first.name member) :
    ⟨entry, kindOf first⟩ ∈ tree.list ∧ (tree.list.map ArchiveEntry.path).count entry = 1 := by
  have hkind : kindOf first = kindOf member := by
    rw [kindOf, kindOf, isDirectory_of_lastNamed hlast]
  have hlisted : ⟨entry, kindOf first⟩ ∈ tree.list :=
    h.mem_list_iff.mpr ⟨member, ⟨first, hfirst, hlast⟩, hkind⟩
  refine ⟨hlisted, List.count_eq_one_of_mem ?_ (List.mem_map_of_mem hlisted)⟩
  rw [map_path_list]
  exact h.nodup

/-- A name is answered by the content of the member that counts at its path. -/
theorem Opened.answersAt_iff (hopen : openTree fs path = .ok tree.archive) {name : ClassName}
    (hcounts : CountsAt headers (.ofClass name) member) (content : Option Bytes)
    {asking : FileSystem} {answer : Except Fault (Option Bytes)}
    (hanswer : answer ∈ answersAt path name fs asking) :
    answer = .ok content ↔ member.Contains tree.image content := by
  rw [answersAt_of_openTree hopen] at hanswer
  simp only [List.mem_cons, List.not_mem_nil, or_false] at hanswer
  rcases hanswer with hanswer | hanswer | hanswer
  all_goals
    rw [hanswer]
    exact h.archive_read_iff hcounts content

/-- A survey counts what the classes' members contain. -/
theorem Opened.ofArchive_iff {survey : ClassSurvey} :
    ClassSurvey.ofArchive fs tree.archive = .ok survey ↔ ∃ content : EntryPath → Option Bytes,
      (∀ listed ∈ tree.list, ClassSurvey.isClass listed = true →
        ∃ member, CountsAt headers listed.path member ∧
          member.Contains tree.image (content listed.path)) ∧
      survey = ClassSurvey.counted content tree.list := by
  have hlist : tree.archive.list fs = .ok tree.list := rfl
  rw [ClassSurvey.ofArchive_eq_ok_iff hlist]
  refine exists_congr fun content => and_congr_left fun _ => ?_
  refine forall₂_congr fun listed hlisted => imp_congr_right fun _ => ?_
  obtain ⟨member, hcounts, -⟩ := h.mem_list_iff.mp hlisted
  constructor
  · intro hread
    exact ⟨member, hcounts, (h.archive_read_iff hcounts _).mp hread⟩
  · intro hmember
    obtain ⟨member, hcounts, hcontains⟩ := hmember
    exact (h.archive_read_iff hcounts _).mpr hcontains

/-- Of a new archive's entry, what it has from a member: a class what the engine made of the
member's content, any other file the member's content. -/
def TakenFrom (settings : Settings) (context : RunContext) (image : Bytes) (world : World)
    (result : ZipTree) (listed : ArchiveEntry) (member : Member) : Prop :=
  match listed.role with
  | .directory => result.read listed.path = .ok none
  | .resource | .overlayClass =>
    ∃ bytes, member.Contains image (some bytes) ∧ result.read listed.path = .ok (some bytes)
  | .classFile name =>
    ∃ bytes output, member.Contains image (some bytes) ∧
      ((context.engine ⟨name, bytes, settings.targetVersion⟩).run world).1 = .ok output ∧
      result.read listed.path = .ok (some (output.result.final bytes))

theorem Opened.takenFrom {settings : Settings} {context : RunContext} {world : World}
    {result : ZipTree} {listed : ArchiveEntry} (hcounts : CountsAt headers listed.path member)
    (hkept : Downgrade.Kept settings context tree result world listed) :
    TakenFrom settings context tree.image world result listed member := by
  unfold Downgrade.Kept at hkept
  unfold TakenFrom
  cases hrole : listed.role with
  | directory =>
    rw [hrole] at hkept
    exact hkept
  | resource =>
    rw [hrole] at hkept
    obtain ⟨bytes, hread, hresult⟩ := hkept
    exact ⟨bytes, (h.read_iff hcounts _).mp hread, hresult⟩
  | overlayClass =>
    rw [hrole] at hkept
    obtain ⟨bytes, hread, hresult⟩ := hkept
    exact ⟨bytes, (h.read_iff hcounts _).mp hread, hresult⟩
  | classFile name =>
    rw [hrole] at hkept
    obtain ⟨bytes, output, hlowered, hresult⟩ := hkept
    exact ⟨bytes, output, (h.read_iff hcounts _).mp hlowered.read, hlowered.answer, hresult⟩

end Opened

/-- A run that succeeds takes each entry from the member that counts at its path. -/
theorem takenFrom_of_run {settings : Settings} {context : RunContext} {headers : List Member}
    {outcome : Outcome} {disk disk' : Disk} {tree : ZipTree}
    (hengine : ∀ request, (context.engine request).LeavesFiles)
    (hnames : ∀ request world output, ((context.engine request).run world).1 = .ok output →
      ∀ name ∈ output.dependencies.names,
        EntryPath.parse (EntryPath.ofClass name).text = .ok (.ofClass name))
    (hschedule : ∀ jobs, (context.schedule jobs).Perm jobs)
    (hrun : Downgrade.run settings context disk = .ok outcome disk')
    (htree : ZipTree.open disk.files settings.input = .ok tree) (h : Opened headers tree) :
    ∃ writer : ZipWriter, writer.FoundAt disk'.files settings.input fun result =>
      ∀ listed ∈ tree.list, ∀ member, CountsAt headers listed.path member →
        TakenFrom settings context tree.image (Downgrade.worldOf settings tree disk) result listed
          member := by
  obtain ⟨old, source, written, added, hreplaced, hsource, hfilled, horderly⟩ :=
    Downgrade.replaced_of_run hengine hnames hschedule hrun
  rw [htree, Except.ok.injEq] at hsource
  subst hsource
  refine ⟨_, (hfilled.foundAt horderly hreplaced.input).imp fun result hrebuilt => ?_⟩
  intro listed hlisted member hcounts
  exact h.takenFrom hcounts (hrebuilt.kept listed hlisted)

/-- A file is opened when all names in it can be read as paths. Where headers share a path, the last
one with the first one's name is all that is seen: its content is what is read there, also by lookups
and by a walk, it is what a survey counts, and it is what a run that succeeds takes over. This is the
first header's own content when its name is not repeated. -/
theorem one_header_counts {fs : FileSystem} {path : Path} {image : Bytes} {headers : List Member}
    (hfile : fs.readFile path = .ok image) (hheaders : headers? image = some headers) :
    ((∃ tree, ZipTree.open fs path = .ok tree) ↔
      ∀ header ∈ headers, ∃ entry, EntryPath.parse header.name = .ok entry) ∧
    ∀ tree, ZipTree.open fs path = .ok tree → openTree fs path = .ok tree.archive ∧
      (∀ header ∈ headers, ∃ entry, EntryPath.parse header.name = .ok entry ∧
        ∃ first member, FirstAt headers entry first ∧ LastNamed headers first.name member ∧
          ((∀ other ∈ headers, other.name = first.name → other = first) → member = first) ∧
          ⟨entry, kindOf first⟩ ∈ tree.list ∧ (tree.list.map ArchiveEntry.path).count entry = 1 ∧
          ∀ (content : Option Bytes) (asking : FileSystem),
            (tree.read entry = .ok content ↔ member.Contains image content) ∧
            (∀ name, entry = .ofClass name → ∀ answer ∈ answersAt path name fs asking,
              answer = .ok content ↔ member.Contains image content) ∧
            ∀ bytes, Walk.entryBytes tree.archive asking entry = .ok bytes ↔
              member.Contains image (some bytes)) ∧
      (∀ asking survey, ClassSurvey.ofArchive asking tree.archive = .ok survey ↔
        ∃ content : EntryPath → Option Bytes,
          (∀ listed ∈ tree.list, ClassSurvey.isClass listed = true →
            ∃ member, CountsAt headers listed.path member ∧
              member.Contains image (content listed.path)) ∧
          survey = ClassSurvey.counted content tree.list) ∧
      ∀ (settings : Settings) (context : RunContext) (outcome : Outcome) (disk disk' : Disk),
        disk.files = fs → settings.input = path →
        (∀ request, (context.engine request).LeavesFiles) →
        (∀ request world output, ((context.engine request).run world).1 = .ok output →
          ∀ name ∈ output.dependencies.names,
            EntryPath.parse (EntryPath.ofClass name).text = .ok (.ofClass name)) →
        (∀ jobs, (context.schedule jobs).Perm jobs) →
        Downgrade.run settings context disk = .ok outcome disk' →
        ∃ writer : ZipWriter, writer.FoundAt disk'.files path fun result =>
          ∀ listed ∈ tree.list, ∀ member, CountsAt headers listed.path member →
            TakenFrom settings context image (Downgrade.worldOf settings tree disk) result listed
              member := by
  refine ⟨exists_open_iff hfile hheaders, ?_⟩
  intro tree htree
  obtain ⟨himage, hopened⟩ := opened_of_open hfile hheaders htree
  subst himage
  have hopen : openTree fs path = .ok tree.archive := by
    rw [openTree_of_readFile hfile, htree]
    rfl
  refine ⟨hopen, ?_, fun asking survey => hopened.ofArchive_iff, ?_⟩
  · intro header hheader
    obtain ⟨entry, hparse⟩ := (exists_open_iff hfile hheaders).mp ⟨tree, htree⟩ header hheader
    obtain ⟨member, first, hfirst, hlast⟩ := exists_countsAt hheader hparse
    have hcounts : CountsAt headers entry member := ⟨first, hfirst, hlast⟩
    obtain ⟨hlisted, honce⟩ := hopened.listed_once hfirst hlast
    refine ⟨entry, hparse, first, member, hfirst, hlast,
      fun honly => eq_first_of_lastNamed honly hlast, hlisted, honce, ?_⟩
    intro content asking
    refine ⟨hopened.read_iff hcounts content, ?_, ?_⟩
    · intro name hname answer hanswer
      subst hname
      exact hopened.answersAt_iff hopen hcounts content hanswer
    · intro bytes
      rw [Downgrade.entryBytes_archive]
      exact hopened.read_iff hcounts (some bytes)
  · intro settings context outcome disk disk' hdisk hinput hengine hnames hschedule hrun
    subst hdisk hinput
    exact takenFrom_of_run hengine hnames hschedule hrun htree hopened

def storedHeader (name : String) (content : Bytes) (offset : Nat) : Member :=
  ⟨name.toList, false, 0, (Crc32.checksum content).toNat, content.length, content.length, offset⟩

def repeatedName : Bytes :=
  imageOfPacked [stored "/x" [1], stored "x" [2], stored "/x" [3]]

def repeatedHeaders : List Member :=
  [storedHeader "/x" [1] 0, storedHeader "x" [2] 33, storedHeader "/x" [3] 65]

def repeatedFile : FileSystem := ⟨[], [(["r.jar".toList], .file repeatedName)]⟩

theorem headers?_repeatedName : headers? repeatedName = some repeatedHeaders := by
  decide +kernel

theorem firstAt_repeatedHeaders :
    FirstAt repeatedHeaders ⟨['x']⟩ (storedHeader "/x" [1] 0) :=
  ⟨[], _, rfl, by decide, by simp⟩

theorem lastNamed_repeatedHeaders :
    LastNamed repeatedHeaders (storedHeader "/x" [1] 0).name (storedHeader "/x" [3] 65) :=
  ⟨[storedHeader "/x" [1] 0, storedHeader "x" [2] 33], [], rfl, rfl, by simp⟩

theorem parse_repeatedHeaders :
    ∀ header ∈ repeatedHeaders, EntryPath.parse header.name = .ok ⟨['x']⟩ := by decide

theorem contains_storedHeader :
    (storedHeader "/x" [1] 0).Contains repeatedName (some [1]) ∧
      (storedHeader "/x" [3] 65).Contains repeatedName (some [3]) := by
  have hfirst : (storedHeader "/x" [1] 0).packed? repeatedName = some [1] := by decide +kernel
  have hthird : (storedHeader "/x" [3] 65).packed? repeatedName = some [3] := by decide +kernel
  exact ⟨.file (by decide) hfirst (by decide +kernel), .file (by decide) hthird (by decide +kernel)⟩

theorem one_header_counts_repeatedName :
    repeatedFile.readFile (.ofString "r.jar") = .ok repeatedName ∧
      headers? repeatedName = some repeatedHeaders ∧
      ∃ tree, ZipTree.open repeatedFile (.ofString "r.jar") = .ok tree ∧
        ⟨⟨['x']⟩, .file⟩ ∈ tree.list ∧ (tree.list.map ArchiveEntry.path).count ⟨['x']⟩ = 1 ∧
        tree.read ⟨['x']⟩ = .ok (some [3]) := by
  have hfile : repeatedFile.readFile (.ofString "r.jar") = .ok repeatedName := by rfl
  obtain ⟨hopen, hcounts⟩ := one_header_counts hfile headers?_repeatedName
  obtain ⟨tree, htree⟩ := hopen.mpr fun header hheader =>
    ⟨_, parse_repeatedHeaders header hheader⟩
  obtain ⟨-, hshared, -⟩ := hcounts tree htree
  have hmem : storedHeader "/x" [1] 0 ∈ repeatedHeaders := by simp [repeatedHeaders]
  obtain ⟨entry, hentry, first, member, hfirst, hlast, -, hlisted, honce, hread⟩ := hshared _ hmem
  rw [parse_repeatedHeaders _ hmem, Except.ok.injEq] at hentry
  subst hentry
  rw [firstAt_repeatedHeaders.unique hfirst] at hlast hlisted
  rw [lastNamed_repeatedHeaders.unique hlast] at hread
  exact ⟨hfile, headers?_repeatedName, tree, htree, hlisted, honce,
    (hread (some [3]) repeatedFile).1.mpr contains_storedHeader.2⟩

/-- The first header at a path does not always count, since its name may be repeated. -/
theorem first_header_passed_over :
    ¬∀ (fs : FileSystem) (path : Path) (image : Bytes) (headers : List Member) (tree : ZipTree)
      (entry : EntryPath) (first : Member) (content : Option Bytes),
      fs.readFile path = .ok image → headers? image = some headers →
      ZipTree.open fs path = .ok tree → FirstAt headers entry first →
      first.Contains image content → tree.read entry = .ok content := by
  intro hfirst
  have hfile : repeatedFile.readFile (.ofString "r.jar") = .ok repeatedName := by rfl
  obtain ⟨tree, htree⟩ := (exists_open_iff hfile headers?_repeatedName).mpr fun header hheader =>
    ⟨_, parse_repeatedHeaders header hheader⟩
  obtain ⟨himage, hopened⟩ := opened_of_open hfile headers?_repeatedName htree
  have hcounts : CountsAt repeatedHeaders ⟨['x']⟩ (storedHeader "/x" [3] 65) :=
    ⟨_, firstAt_repeatedHeaders, lastNamed_repeatedHeaders⟩
  have hthird := (hopened.read_iff hcounts (some [3])).mpr (himage ▸ contains_storedHeader.2)
  have hone := hfirst _ _ _ _ tree _ _ _ hfile headers?_repeatedName htree firstAt_repeatedHeaders
    contains_storedHeader.1
  rw [hthird] at hone
  cases hone

end ZipTree

end Retarget

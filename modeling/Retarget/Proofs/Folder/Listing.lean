import Retarget.Proofs.FileSystem.WellFormed
import Retarget.Proofs.Folder.Confinement
import Retarget.Proofs.Lists.Related

/-!
How the listing of a directory and what is read in it hang together. What lies below the root is
listed under the path that its names are read as, and read at the place that the path's segments
lead to. The two are the same as long as no name has a backslash in it. One that has is listed as if
it were several names, so that a file is not found again, and two files may be listed under one path.
-/
namespace Retarget

namespace EntryPath

theorem not_precedes_trans {a b c : EntryPath} (hab : ¬b.precedes a) (hbc : ¬c.precedes b) :
    ¬c.precedes a := by
  simp only [precedes, decide_eq_true_eq] at *
  exact List.not_lt.mpr (List.le_trans (List.not_lt.mp hab) (List.not_lt.mp hbc))

theorem not_precedes_total (a b : EntryPath) : ¬b.precedes a ∨ ¬a.precedes b := by
  simp only [precedes, decide_eq_true_eq]
  exact (List.le_total a.text b.text).imp List.not_lt.mpr List.not_lt.mpr

/-- Of two different paths one comes first. -/
theorem precedes_of_not_precedes {a b : EntryPath} (hne : a ≠ b) (h : ¬b.precedes a) :
    a.precedes b := by
  simp only [precedes, decide_eq_true_eq] at *
  refine Decidable.byContradiction fun h' => hne ?_
  exact congrArg EntryPath.mk (List.le_antisymm (List.not_lt.mp h) (List.not_lt.mp h'))

end EntryPath

namespace Folder

open FileSystem

variable {fs : FileSystem} {root : Path} {place way : Location} {node : Node}
  {found : Location × Node} {entry : ArchiveEntry} {entries : List ArchiveEntry}

/-- A node lies below a place, the way being the names that lead to it from there. -/
def HasBelow (fs : FileSystem) (place way : Location) (node : Node) : Prop :=
  way ≠ [] ∧ fs.node? (place ++ way) = some node

/-- An entry lists what was found: under the path that its names are read as. -/
structure Lists (found : Location × Node) (entry : ArchiveEntry) : Prop where
  parse_eq : EntryPath.parse (Text.joinWith '/' found.1) = .ok entry.path
  kind_eq : entry.kind = .ofNode found.2

theorem entryOf_eq_ok_iff {text : Text} : entryOf text found = .ok entry ↔ Lists found entry := by
  obtain ⟨path, kind⟩ := entry
  unfold entryOf
  cases hparse : EntryPath.parse (Text.joinWith '/' found.1) with
  | error fault =>
    constructor
    · intro h
      cases h
    · intro h
      have hpath := h.parse_eq
      rw [hparse] at hpath
      cases hpath
  | ok parsed =>
    constructor
    · intro h
      cases h
      exact ⟨hparse, rfl⟩
    · intro h
      have hpath := h.parse_eq
      rw [hparse, Except.ok.injEq] at hpath
      rw [hpath, ← h.kind_eq]

section Below

variable (h : fs.WellFormed)
include h

/-- Everything below a place is found there once. -/
theorem mem_walkBelow_iff : (way, node) ∈ walkBelow fs place ↔ HasBelow fs place way node := by
  simp only [walkBelow, List.mem_mergeSort, List.mem_map, below, List.mem_filter, Bool.and_eq_true,
    List.isPrefixOf_iff_prefix, decide_eq_true_eq]
  constructor
  · intro hfound
    obtain ⟨⟨long, there⟩, ⟨hmem, hprefixed, hne⟩, heq⟩ := hfound
    obtain ⟨rest, hrest⟩ := hprefixed
    subst hrest
    simp only [List.drop_left, Prod.mk.injEq] at heq
    obtain ⟨rfl, rfl⟩ := heq
    refine ⟨?_, (h.mem_nodes_iff.mp hmem).2⟩
    intro hnil
    exact hne (by rw [hnil, List.append_nil])
  · intro hway
    obtain ⟨hway, hnode⟩ := hway
    have hne : place ++ way ≠ [] := List.append_ne_nil_of_right_ne_nil place hway
    refine ⟨(place ++ way, node),
      ⟨h.mem_nodes_iff.mpr ⟨hne, hnode⟩, List.prefix_append place way, ?_⟩, by simp⟩
    intro heq
    exact hway (List.append_right_eq_self.mp heq)

theorem nodup_walkBelow : ((walkBelow fs place).map Prod.fst).Nodup := by
  have hperm := (List.mergeSort_perm ((fs.below place).map fun e => (e.1.drop place.length, e.2))
    fun a b => precedes a.1 b.1).map Prod.fst
  refine hperm.nodup_iff.mpr ?_
  have hbelow : (fs.below place).Sublist fs.nodes := List.filter_sublist
  have hdistinct : ((fs.below place).map Prod.fst).Nodup := h.distinct.sublist (hbelow.map Prod.fst)
  have hlong : (((fs.below place).map fun e => (e.1.drop place.length, e.2)).map Prod.fst).map
      (place ++ ·) = (fs.below place).map Prod.fst := by
    rw [List.map_map, List.map_map]
    apply List.map_congr_left
    intro e he
    simp only [below, List.mem_filter, Bool.and_eq_true, List.isPrefixOf_iff_prefix] at he
    exact (List.prefix_iff_eq_append.mp he.2.1)
  rw [← hlong] at hdistinct
  exact hdistinct.of_map _

end Below

section Read

/-- Under a normal path the file at its segments is read, if the path is one that can be used. -/
theorem read_of_isNormal (h : fs.WellFormed) (hroot : fs.stat root = .ok (place, .directory))
    {path : EntryPath} (hnormal : path.IsNormal) :
    read ⟨root⟩ fs path = if IsUsable (locate ⟨root⟩ path) then
      (fs.node? (place ++ path.segments)).bind Node.content? else none := by
  obtain ⟨front, last, hsplit⟩ :=
    (List.eq_nil_or_concat' path.segments).resolve_left (Text.splitOn_ne_nil '/' path.text)
  have hlast := hnormal last (by simp [hsplit])
  have hne : ∀ segment ∈ path.segments, segment ≠ [] := fun segment hsegment =>
    (hnormal segment hsegment).1
  have hfront : ∀ step ∈ front, step ≠ ['.'] ∧ step ≠ ['.', '.'] := by
    intro step hstep
    have hsegment := hnormal step (by simp [hsplit, hstep])
    exact ⟨hsegment.2.1, hsegment.2.2.1⟩
  ext content
  rw [read_eq_some_iff]
  simp only [leadsTo_below_iff hroot hsplit hne ⟨hlast.2.1, hlast.2.2.1⟩,
    walk_names_eq_ok_iff hfront]
  by_cases husable : IsUsable (locate ⟨root⟩ path)
  · rw [if_pos husable, Option.bind_eq_some_iff, hsplit]
    constructor
    · intro hread
      obtain ⟨_, ⟨-, -, _, ⟨rfl, -⟩, rfl⟩, hnode⟩ := hread
      rw [List.append_assoc] at hnode
      exact ⟨.file content, hnode, rfl⟩
    · intro hread
      obtain ⟨node, hnode, hcontent⟩ := hread
      have hname := h.isName_of_node? hnode last (by simp)
      cases node with
      | directory => cases hcontent
      | file bytes =>
        cases hcontent
        refine ⟨_, ⟨husable, hname.2.2.2.2, _, ⟨rfl, ?_⟩, rfl⟩, ?_⟩
        · intro way _ hway
          obtain ⟨rest, rfl⟩ := hway
          have hbeyond : fs.node? (place ++ way ++ (rest ++ [last])) = some (.file content) := by
            rw [← hnode]
            simp
          exact h.directory_of_node? (by simp) hbeyond
        · rw [List.append_assoc]
          exact hnode
  · simp [husable]

end Read

section List

def notAfter (a b : ArchiveEntry) : Bool := !b.path.precedes a.path

theorem notAfter_iff {a b : ArchiveEntry} : notAfter a b = true ↔ ¬b.path.precedes a.path := by
  rw [notAfter, Bool.not_eq_true', Bool.not_eq_true]

theorem pairwise_mergeSort_notAfter (listed : List ArchiveEntry) :
    (listed.mergeSort notAfter).Pairwise fun a b => ¬b.path.precedes a.path := by
  have hsorted : (listed.mergeSort notAfter).Pairwise fun a b => notAfter a b = true := by
    apply List.pairwise_mergeSort
    · intro a b c hab hbc
      rw [notAfter_iff] at hab hbc ⊢
      exact EntryPath.not_precedes_trans hab hbc
    · intro a b
      rw [Bool.or_eq_true, notAfter_iff, notAfter_iff]
      exact EntryPath.not_precedes_total a.path b.path
  exact hsorted.imp fun hab => notAfter_iff.mp hab

variable (hroot : fs.stat root = .ok (place, .directory))
include hroot

/-- A root that does not start with a dot lists what is found below it, in the order of paths. -/
theorem list_eq_ok_iff (hdots : afterLeadingDots? root.text = none) :
    list ⟨root⟩ fs = .ok entries ↔ ∃ listed, List.Forall₂ Lists (walkBelow fs place) listed ∧
      entries = listed.mergeSort notAfter := by
  have hlists : Lists = fun found entry => entryOf root.text found = .ok entry := by
    funext found entry
    exact propext entryOf_eq_ok_iff.symm
  simp only [hlists, ← mapM_eq_ok_iff]
  simp only [list, hroot, hdots]
  cases (walkBelow fs place).mapM (entryOf root.text) with
  | error fault => simp
  | ok listed =>
    simp only [Except.ok.injEq, exists_eq_left']
    exact eq_comm

/-- Below a root that starts with a dot nothing is listed. -/
theorem list_of_leadingDots {pieces : List Text} (hdots : afterLeadingDots? root.text = some pieces) :
    list ⟨root⟩ fs = .ok entries ↔
      entries = [] ∧ (pieces.head? = some [] ∨ walkBelow fs place = []) := by
  have hempty : (Except.ok [] : Except ListError (List ArchiveEntry)) = .ok entries ↔ entries = [] := by
    rw [Except.ok.injEq, eq_comm]
  simp only [list, hroot, hdots]
  cases pieces with
  | nil => cases walkBelow fs place <;> simp [hempty]
  | cons piece others =>
    cases piece with
    | nil => simp [hempty]
    | cons c cs => cases walkBelow fs place <;> simp [hempty]

end List

section Plain

def IsPlain (way : Location) : Prop := ∀ name ∈ way, '\\' ∉ name

instance : DecidablePred IsPlain := fun way =>
  inferInstanceAs (Decidable (∀ name ∈ way, '\\' ∉ name))

/-- Names without backslashes are the segments of a normal path. -/
theorem isNormal_of_isPlain (hway : way ≠ []) (hnames : ∀ name ∈ way, IsName name)
    (hplain : IsPlain way) :
    (EntryPath.mk (Text.joinWith '/' way)).segments = way ∧
      (EntryPath.mk (Text.joinWith '/' way)).IsNormal := by
  have hsegments : (EntryPath.mk (Text.joinWith '/' way)).segments = way :=
    Text.splitOn_joinWith hway fun name hname => (hnames name hname).2.2.2.1
  refine ⟨hsegments, ?_⟩
  intro segment hsegment
  rw [hsegments] at hsegment
  obtain ⟨hne, hdot, hup, -, -⟩ := hnames segment hsegment
  exact ⟨hne, hdot, hup, hplain segment hsegment⟩

theorem parse_iff_of_isPlain (hway : way ≠ []) (hnames : ∀ name ∈ way, IsName name)
    (hplain : IsPlain way) {path : EntryPath} :
    EntryPath.parse (Text.joinWith '/' way) = .ok path ↔ path = ⟨Text.joinWith '/' way⟩ := by
  rw [EntryPath.parse_of_isNormal (isNormal_of_isPlain hway hnames hplain).2, Except.ok.injEq, eq_comm]

/-- The segments of a normal path are a way that is listed under it. -/
theorem isPlain_segments {path : EntryPath} (h : path.IsNormal) :
    IsPlain path.segments ∧ EntryPath.parse (Text.joinWith '/' path.segments) = .ok path := by
  constructor
  · intro segment hsegment
    exact (h segment hsegment).2.2.2
  · rw [EntryPath.segments, Text.joinWith_splitOn]
    exact EntryPath.parse_of_isNormal h

end Plain

section Coherence

/-- The path that what was found is listed under, if its names can be read as one. -/
def pathOf? (found : Location × Node) : Option EntryPath :=
  (EntryPath.parse (Text.joinWith '/' found.1)).toOption

theorem Lists.unique {other : ArchiveEntry} (h : Lists found entry) (h' : Lists found other) :
    entry = other := by
  obtain ⟨path, kind⟩ := entry
  obtain ⟨path', kind'⟩ := other
  have hparse := h.parse_eq
  rw [h'.parse_eq, Except.ok.injEq] at hparse
  rw [ArchiveEntry.mk.injEq]
  exact ⟨hparse.symm, h.kind_eq.trans h'.kind_eq.symm⟩

theorem Lists.pathOf?_eq (h : Lists found entry) : pathOf? found = some entry.path := by
  rw [pathOf?, h.parse_eq]
  rfl

theorem map_pathOf? {founds : List (Location × Node)} {listed : List ArchiveEntry}
    (h : List.Forall₂ Lists founds listed) :
    founds.map pathOf? = (listed.map ArchiveEntry.path).map some := by
  induction h with
  | nil => rfl
  | cons hfirst _ ih => rw [List.map_cons, List.map_cons, List.map_cons, hfirst.pathOf?_eq, ih]

/-- A listing in which each path stands once, after those before it, and is read as what it
lists. -/
structure Coheres (fs : FileSystem) (root : Path) (place : Location)
    (entries : List ArchiveEntry) : Prop where
  ascending : entries.Pairwise fun a b => a.path.precedes b.path
  read_eq : ∀ way node entry, HasBelow fs place way node → Lists (way, node) entry →
    entry ∈ entries → read ⟨root⟩ fs entry.path = node.content?

theorem ascending_iff (hsorted : entries.Pairwise fun a b => ¬b.path.precedes a.path) :
    (entries.Pairwise fun a b => a.path.precedes b.path) ↔
      (entries.map ArchiveEntry.path).Nodup := by
  rw [List.Nodup, List.pairwise_map]
  constructor
  · intro h
    refine h.imp fun hab heq => ?_
    rw [EntryPath.precedes, heq, decide_eq_true_eq] at hab
    exact List.lt_irrefl _ hab
  · intro h
    exact (hsorted.and h).imp fun hab => EntryPath.precedes_of_not_precedes hab.2 hab.1

variable (h : fs.WellFormed) (hroot : fs.stat root = .ok (place, .directory))
include h hroot

/-- What is listed is what lies below the root. -/
theorem mem_list_iff (hdots : afterLeadingDots? root.text = none)
    (hlist : list ⟨root⟩ fs = .ok entries) :
    entry ∈ entries ↔ ∃ way node, HasBelow fs place way node ∧ Lists (way, node) entry := by
  obtain ⟨listed, hlisted, rfl⟩ := (list_eq_ok_iff hroot hdots).mp hlist
  rw [List.mem_mergeSort]
  constructor
  · intro hentry
    obtain ⟨found, hfound, hlists⟩ := exists_of_mem_left hlisted.flip hentry
    exact ⟨found.1, found.2, (mem_walkBelow_iff h).mp hfound, hlists⟩
  · intro hbelow
    obtain ⟨way, node, hbelow, hlists⟩ := hbelow
    obtain ⟨other, hother, hlists'⟩ := exists_of_mem_left hlisted ((mem_walkBelow_iff h).mpr hbelow)
    rw [hlists.unique hlists']
    exact hother

/-- No two things below the place are listed under one path. -/
def ToldApart (fs : FileSystem) (place : Location) : Prop :=
  ∀ way node way' node' path, HasBelow fs place way node → HasBelow fs place way' node' →
    EntryPath.parse (Text.joinWith '/' way) = .ok path →
    EntryPath.parse (Text.joinWith '/' way') = .ok path → way = way'

theorem nodup_list_iff (hdots : afterLeadingDots? root.text = none)
    (hlist : list ⟨root⟩ fs = .ok entries) :
    (entries.map ArchiveEntry.path).Nodup ↔ ToldApart fs place := by
  obtain ⟨listed, hlisted, rfl⟩ := (list_eq_ok_iff hroot hdots).mp hlist
  have hfounds : (walkBelow fs place).Nodup := (nodup_walkBelow h).of_map _
  have hpaths : (listed.map ArchiveEntry.path).Nodup ↔ ((walkBelow fs place).map pathOf?).Nodup := by
    rw [map_pathOf? hlisted, List.nodup_map_iff fun _ _ hsame => Option.some.inj hsame]
  rw [((List.mergeSort_perm listed notAfter).map _).nodup_iff, hpaths,
    List.nodup_map_iff_inj_on hfounds]
  constructor
  · intro hinj way node way' node' path hway hway' hparse hparse'
    have hsame : pathOf? (way, node) = pathOf? (way', node') := by
      rw [pathOf?, pathOf?, hparse, hparse']
    have hfound := hinj _ ((mem_walkBelow_iff h).mpr hway) _ ((mem_walkBelow_iff h).mpr hway') hsame
    exact congrArg Prod.fst hfound
  · intro happart found hfound other hother hsame
    obtain ⟨entry, _, hlists⟩ := exists_of_mem_left hlisted hfound
    obtain ⟨entry', _, hlists'⟩ := exists_of_mem_left hlisted hother
    rw [hlists.pathOf?_eq, hlists'.pathOf?_eq, Option.some.injEq] at hsame
    have hparse' := hlists'.parse_eq
    rw [← hsame] at hparse'
    have hway := happart _ found.2 _ other.2 _ ((mem_walkBelow_iff h).mp hfound)
      ((mem_walkBelow_iff h).mp hother) hlists.parse_eq hparse'
    exact List.inj_on_of_nodup_map (nodup_walkBelow h) hfound hother hway

/-- Every file can be found again: there is no backslash on the way to it, and its path can be
used. -/
def FilesFound (fs : FileSystem) (root : Path) (place : Location) : Prop :=
  ∀ way content, HasBelow fs place way (.file content) →
    IsPlain way ∧ IsUsable (locate ⟨root⟩ ⟨Text.joinWith '/' way⟩)

/-- What is listed under a path that nothing else is listed under is read there, if it is a file
that can be found again or a directory. -/
theorem read_of_lists (happart : ToldApart fs place) (hfiles : FilesFound fs root place)
    (hbelow : HasBelow fs place way node) (hlists : Lists (way, node) entry) :
    read ⟨root⟩ fs entry.path = node.content? := by
  have hnormal : entry.path.IsNormal := EntryPath.isNormal_of_parse hlists.parse_eq
  obtain ⟨-, hparse⟩ := isPlain_segments hnormal
  rw [read_of_isNormal h hroot hnormal]
  cases node with
  | file content =>
    obtain ⟨hplain, husable⟩ := hfiles way content hbelow
    have hnames := h.isName_of_node? hbelow.2
    have hpath := (parse_iff_of_isPlain hbelow.1 hnames hplain).mp hlists.parse_eq
    rw [hpath, if_pos husable, (isNormal_of_isPlain hbelow.1 hnames hplain).1, hbelow.2]
    rfl
  | directory =>
    by_cases husable : IsUsable (locate ⟨root⟩ entry.path)
    · rw [if_pos husable]
      cases hnode : fs.node? (place ++ entry.path.segments) with
      | none => rfl
      | some other =>
        have hother : HasBelow fs place entry.path.segments other :=
          ⟨Text.splitOn_ne_nil '/' entry.path.text, hnode⟩
        have hway := happart _ _ _ _ _ hbelow hother hlists.parse_eq hparse
        rw [← hway, hbelow.2, Option.some.injEq] at hnode
        rw [← hnode]
        rfl
    · rw [if_neg husable]
      rfl

/-- A file that is read under the path that it alone is listed under is found at its own way. -/
theorem found_of_read (happart : ToldApart fs place) (hbelow : HasBelow fs place way node)
    (hlists : Lists (way, node) entry) {content : Bytes}
    (hread : read ⟨root⟩ fs entry.path = some content) :
    IsPlain way ∧ IsUsable (locate ⟨root⟩ ⟨Text.joinWith '/' way⟩) := by
  have hnormal : entry.path.IsNormal := EntryPath.isNormal_of_parse hlists.parse_eq
  obtain ⟨hplain, hparse⟩ := isPlain_segments hnormal
  rw [read_of_isNormal h hroot hnormal] at hread
  by_cases husable : IsUsable (locate ⟨root⟩ entry.path)
  · rw [if_pos husable, Option.bind_eq_some_iff] at hread
    obtain ⟨there, hthere, -⟩ := hread
    have hother : HasBelow fs place entry.path.segments there :=
      ⟨Text.splitOn_ne_nil '/' entry.path.text, hthere⟩
    rw [happart _ _ _ _ _ hbelow hother hlists.parse_eq hparse, EntryPath.segments,
      Text.joinWith_splitOn]
    exact ⟨hplain, husable⟩
  · rw [if_neg husable] at hread
    cases hread

/-- The listing and what is read hang together exactly when all is told apart and all files are
found again. -/
theorem coheres_iff (hdots : afterLeadingDots? root.text = none)
    (hlist : list ⟨root⟩ fs = .ok entries) :
    Coheres fs root place entries ↔ ToldApart fs place ∧ FilesFound fs root place := by
  have hsorted : entries.Pairwise fun a b => ¬b.path.precedes a.path := by
    obtain ⟨listed, -, rfl⟩ := (list_eq_ok_iff hroot hdots).mp hlist
    exact pairwise_mergeSort_notAfter listed
  rw [← nodup_list_iff h hroot hdots hlist, ← ascending_iff hsorted]
  constructor
  · intro hcoheres
    refine ⟨hcoheres.ascending, ?_⟩
    have happart := (nodup_list_iff h hroot hdots hlist).mp
      ((ascending_iff hsorted).mp hcoheres.ascending)
    intro way content hbelow
    obtain ⟨listed, hlisted, rfl⟩ := (list_eq_ok_iff hroot hdots).mp hlist
    obtain ⟨entry, hentry, hlists⟩ := exists_of_mem_left hlisted ((mem_walkBelow_iff h).mpr hbelow)
    have hread := hcoheres.read_eq way _ entry hbelow hlists (List.mem_mergeSort.mpr hentry)
    exact found_of_read h hroot happart hbelow hlists hread
  · intro hboth
    obtain ⟨hascending, hfiles⟩ := hboth
    have happart := (nodup_list_iff h hroot hdots hlist).mp ((ascending_iff hsorted).mp hascending)
    refine ⟨hascending, ?_⟩
    intro way node entry hbelow hlists _
    exact read_of_lists h hroot happart hfiles hbelow hlists

/-- Without backslashes everything is listed, and told apart. -/
theorem list_of_isPlain (hdots : afterLeadingDots? root.text = none)
    (hplain : ∀ way node, HasBelow fs place way node → IsPlain way) :
    (∃ entries, list ⟨root⟩ fs = .ok entries) ∧ ToldApart fs place := by
  have hparse : ∀ way node path, HasBelow fs place way node →
      (EntryPath.parse (Text.joinWith '/' way) = .ok path ↔ path = ⟨Text.joinWith '/' way⟩) :=
    fun way node path hbelow =>
      parse_iff_of_isPlain hbelow.1 (h.isName_of_node? hbelow.2) (hplain way node hbelow)
  constructor
  · have hlisted : List.Forall₂ Lists (walkBelow fs place)
        ((walkBelow fs place).map fun found =>
          ⟨⟨Text.joinWith '/' found.1⟩, .ofNode found.2⟩) := by
      rw [List.forall₂_map_right_iff, List.forall₂_same]
      intro found hfound
      exact ⟨(hparse _ found.2 _ ((mem_walkBelow_iff h).mp hfound)).mpr rfl, rfl⟩
    exact ⟨_, (list_eq_ok_iff hroot hdots).mpr ⟨_, hlisted, rfl⟩⟩
  · intro way node way' node' path hbelow hbelow' hpath hpath'
    have hsame := (hparse _ _ _ hbelow).mp hpath
    rw [(hparse _ _ _ hbelow').mp hpath', EntryPath.mk.injEq] at hsame
    have hnames := isNormal_of_isPlain hbelow.1 (h.isName_of_node? hbelow.2) (hplain _ _ hbelow)
    have hnames' := isNormal_of_isPlain hbelow'.1 (h.isName_of_node? hbelow'.2) (hplain _ _ hbelow')
    rw [← hnames.1, ← hnames'.1, hsame]

end Coherence

/-- A listing is always in order, and it lists what lies below the root unless the root starts with a
dot, when it is empty. It hangs together with what is read exactly when no two things are listed
under one path and no file has a backslash on its way. Where there is no backslash at all, and paths
can be used, it is made and hangs together. -/
theorem listing_coheres_iff_files_found (h : fs.WellFormed)
    (hroot : fs.stat root = .ok (place, .directory)) :
    (∀ entries, list ⟨root⟩ fs = .ok entries →
      entries.Pairwise (fun a b => ¬b.path.precedes a.path) ∧
      (afterLeadingDots? root.text ≠ none → entries = []) ∧
      (afterLeadingDots? root.text = none →
        (∀ entry, entry ∈ entries ↔
          ∃ way node, HasBelow fs place way node ∧ Lists (way, node) entry) ∧
        (Coheres fs root place entries ↔ ToldApart fs place ∧ FilesFound fs root place))) ∧
    (afterLeadingDots? root.text = none →
      (∀ way node, HasBelow fs place way node →
        IsPlain way ∧ IsUsable (locate ⟨root⟩ ⟨Text.joinWith '/' way⟩)) →
      ∃ entries, list ⟨root⟩ fs = .ok entries ∧ Coheres fs root place entries) := by
  constructor
  · intro entries hlist
    cases hdots : afterLeadingDots? root.text with
    | none =>
      refine ⟨?_, by simp, fun _ => ⟨fun entry => mem_list_iff h hroot hdots hlist,
        coheres_iff h hroot hdots hlist⟩⟩
      obtain ⟨listed, -, rfl⟩ := (list_eq_ok_iff hroot hdots).mp hlist
      exact pairwise_mergeSort_notAfter listed
    | some pieces =>
      obtain ⟨hempty, -⟩ := (list_of_leadingDots hroot hdots).mp hlist
      subst hempty
      exact ⟨.nil, fun _ => rfl, by simp⟩
  · intro hdots hbelow
    obtain ⟨hlisted, happart⟩ := list_of_isPlain h hroot hdots fun way node hhas =>
      (hbelow way node hhas).1
    obtain ⟨entries, hlist⟩ := hlisted
    exact ⟨entries, hlist, (coheres_iff h hroot hdots hlist).mpr
      ⟨happart, fun way content hhas => hbelow way _ hhas⟩⟩

def packageFolder : FileSystem :=
  ⟨[], [(["lib".toList], .directory), (["lib".toList, "p".toList], .directory),
    (["lib".toList, "p".toList, "C.class".toList], .file [1])]⟩

theorem wellFormed_packageFolder : packageFolder.WellFormed := ⟨by decide, by decide, by decide⟩

theorem listing_coheres_iff_files_found_packageFolder :
    packageFolder.WellFormed ∧
      packageFolder.stat (.ofString "lib") = .ok (["lib".toList], .directory) ∧
      ∃ entries, list ⟨.ofString "lib"⟩ packageFolder = .ok entries ∧
        Coheres packageFolder (.ofString "lib") ["lib".toList] entries ∧
        ⟨⟨"p/C.class".toList⟩, .file⟩ ∈ entries := by
  have hroot : packageFolder.stat (.ofString "lib") = .ok (["lib".toList], .directory) := by rfl
  obtain ⟨hlisting, hmade⟩ := listing_coheres_iff_files_found wellFormed_packageFolder hroot
  have hdots : afterLeadingDots? (Path.ofString "lib").text = none := by decide
  have hplain : ∀ e ∈ packageFolder.nodes, IsPlain (e.1.drop 1) ∧
      IsUsable (locate ⟨.ofString "lib"⟩ ⟨Text.joinWith '/' (e.1.drop 1)⟩) := by decide
  obtain ⟨entries, hlist, hcoheres⟩ := hmade hdots fun way node hbelow =>
    hplain _ (mem_nodes_of_node? (List.cons_ne_nil _ way) hbelow.2)
  refine ⟨wellFormed_packageFolder, hroot, entries, hlist, hcoheres, ?_⟩
  rw [((hlisting entries hlist).2.2 hdots).1]
  exact ⟨["p".toList, "C.class".toList], .file [1], ⟨by decide, by rfl⟩, by decide, rfl⟩

def backslashFolder : FileSystem :=
  ⟨[], [(["lib".toList], .directory), (["lib".toList, "a\\b".toList], .file [1])]⟩

/-- A file that is listed is not always read. -/
theorem listed_file_not_read :
    ¬∀ (fs : FileSystem) (root : Path) (place : Location) (entries : List ArchiveEntry),
      fs.WellFormed → fs.stat root = .ok (place, .directory) → list ⟨root⟩ fs = .ok entries →
      Coheres fs root place entries := by
  intro hcoheres
  have h : backslashFolder.WellFormed := ⟨by decide, by decide, by decide⟩
  have hroot : backslashFolder.stat (.ofString "lib") = .ok (["lib".toList], .directory) := by rfl
  have hlist : list ⟨.ofString "lib"⟩ backslashFolder = .ok [⟨⟨"a/b".toList⟩, .file⟩] := by
    decide +kernel
  have hfound := (coheres_iff h hroot (by decide) hlist).mp (hcoheres _ _ _ _ h hroot hlist)
  have hplain := (hfound.2 ["a\\b".toList] [1] ⟨by decide, by rfl⟩).1
  exact absurd hplain (by decide)

end Folder

end Retarget

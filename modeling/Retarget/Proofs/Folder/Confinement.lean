import Retarget.Classpath.Root
import Retarget.Proofs.EntryPath.Made
import Retarget.Proofs.FileSystem.OneFile
import Retarget.Proofs.FileSystem.Siblings
import Retarget.Support.Catalog

/-!
What a lookup in a directory can see. The path that is looked up is the root's path with the
segments of the entry's path after it. So the file system is walked to the root first, and from
there along the segments. As long as these do not climb above the root, the answer depends on what
is below the root alone. A class whose name climbs is looked for outside, and what is found there is
what is answered.
-/
namespace Retarget

/-- The steps go above the place where they begin, `depth` names having led down from it so far. -/
def climbsFrom : Nat → List Text → Bool
  | _, [] => false
  | depth, step :: rest =>
    if step = ['.'] then climbsFrom depth rest
    else if step = ['.', '.'] then
      match depth with
      | 0 => true
      | depth + 1 => climbsFrom depth rest
    else climbsFrom (depth + 1) rest

section Climbs

/-- A name leads one step further down. -/
theorem climbsFrom_name {step : Text} (h : step ≠ ['.'] ∧ step ≠ ['.', '.'])
    (under rest : List Text) :
    climbsFrom under.length (step :: rest) = climbsFrom (under ++ [step]).length rest := by
  rw [List.length_append]
  simp only [climbsFrom, h, if_false, List.length_singleton]

/-- A step up takes the last name back. -/
theorem climbsFrom_up_concat (under rest : List Text) (last : Text) :
    climbsFrom (under ++ [last]).length (['.', '.'] :: rest) = climbsFrom under.length rest := by
  rw [List.length_append]
  rfl

theorem step_cases (step : Text) :
    step = ['.'] ∨ step = ['.', '.'] ∨ (step ≠ ['.'] ∧ step ≠ ['.', '.']) := by
  by_cases hdot : step = ['.']
  · exact Or.inl hdot
  · by_cases hup : step = ['.', '.']
    · exact Or.inr (Or.inl hup)
    · exact Or.inr (Or.inr ⟨hdot, hup⟩)

end Climbs

namespace FileSystem

variable {fs fs' : FileSystem}

section Walk

theorem walk_up (fs : FileSystem) (here : Location) (rest : List Text) :
    fs.walk here (['.', '.'] :: rest) = fs.walk here.dropLast rest := rfl

theorem walk_name {step : Text} (h : step ≠ ['.'] ∧ step ≠ ['.', '.']) (fs : FileSystem)
    (here : Location) (rest : List Text) :
    fs.walk here (step :: rest) =
      match fs.node? (here ++ [step]) with
      | none => .error (if IsUsableName step then .notFound else .other)
      | some (.file _) => .error .notADirectory
      | some .directory => fs.walk (here ++ [step]) rest :=
  (if_neg h.1).trans (if_neg h.2)

/-- A walk that takes a name passes through a directory. -/
theorem walk_name_eq_ok_iff {step : Text} (h : step ≠ ['.'] ∧ step ≠ ['.', '.'])
    {here found : Location} {rest : List Text} :
    fs.walk here (step :: rest) = .ok found ↔
      fs.node? (here ++ [step]) = some .directory ∧ fs.walk (here ++ [step]) rest = .ok found := by
  rw [walk_name h]
  cases fs.node? (here ++ [step]) with
  | none => simp
  | some node => cases node <;> simp

/-- Names lead straight down, each to a directory. -/
theorem walk_names_eq_ok_iff {here found : Location} {steps : List Text}
    (h : ∀ step ∈ steps, step ≠ ['.'] ∧ step ≠ ['.', '.']) :
    fs.walk here steps = .ok found ↔ found = here ++ steps ∧
      ∀ way, way ≠ [] → way <+: steps → fs.node? (here ++ way) = some .directory := by
  induction steps generalizing here with
  | nil =>
    constructor
    · intro hhere
      cases hhere
      exact ⟨(List.append_nil _).symm, fun way hway hwithin =>
        absurd (List.prefix_nil.mp hwithin) hway⟩
    · rintro ⟨rfl, -⟩
      rw [List.append_nil]
      rfl
  | cons step rest ih =>
    obtain ⟨hstep, hrest⟩ := List.forall_mem_cons.mp h
    rw [walk_name_eq_ok_iff hstep, ih hrest, List.append_assoc, List.singleton_append]
    constructor
    · rintro ⟨hnode, rfl, hways⟩
      refine ⟨rfl, fun way hway hwithin => ?_⟩
      cases way with
      | nil => exact absurd rfl hway
      | cons first way =>
        obtain ⟨rfl, hbelow⟩ := List.cons_prefix_cons.mp hwithin
        by_cases hend : way = []
        · rw [hend, hnode]
        · have hthere := hways way hend hbelow
          rwa [List.append_assoc, List.singleton_append] at hthere
    · rintro ⟨rfl, hways⟩
      refine ⟨hways [step] (by simp) (by simp), rfl, fun way _ hwithin => ?_⟩
      rw [List.append_assoc, List.singleton_append]
      exact hways (step :: way) (by simp) (List.cons_prefix_cons.mpr ⟨rfl, hwithin⟩)

theorem walk_append (fs : FileSystem) (here : Location) (first rest : List Text) :
    fs.walk here (first ++ rest) = (fs.walk here first).bind fun there => fs.walk there rest := by
  induction first generalizing here with
  | nil => rfl
  | cons step first ih =>
    rw [List.cons_append]
    rcases step_cases step with rfl | rfl | hname
    · exact ih here
    · exact ih here.dropLast
    · rw [walk_name hname, walk_name hname]
      cases fs.node? (here ++ [step]) with
      | none => rfl
      | some node =>
        cases node with
        | file content => rfl
        | directory => exact ih (here ++ [step])

/-- The steps of a path to a directory lead there. -/
theorem walk_of_stat {path : Path} {place : Location} (h : fs.stat path = .ok (place, .directory)) :
    path.text ≠ [] ∧
      fs.walk (if path.isAbsolute then [] else fs.cwd) (steps path) = .ok place := by
  rw [stat_eq_ok_iff] at h
  unfold locate at h
  by_cases hempty : path.text = []
  · simp [hempty] at h
  by_cases husable : IsUsable path
  · simp only [hempty, husable, not_true_eq_false, if_false] at h
    refine ⟨hempty, ?_⟩
    cases hlast : (steps path).getLast? with
    | none =>
      rw [List.getLast?_eq_none_iff] at hlast
      rw [hlast]
      simpa [hlast, walk] using h
    | some last =>
      have hsplit : steps path = (steps path).dropLast ++ [last] :=
        (List.dropLast_append_getLast? last hlast).symm
      rw [hsplit, walk_append]
      cases hwalk : fs.walk (if path.isAbsolute then [] else fs.cwd) (steps path).dropLast with
      | error kind => simp [hlast, hwalk] at h
      | ok folder =>
        simp only [hlast, hwalk] at h
        rcases step_cases last with rfl | rfl | hname
        · simpa [Except.bind, walk] using h
        · simpa [Except.bind, walk] using h
        · simp only [hname, if_false, Except.ok.injEq, Target.entry.injEq, reduceCtorEq,
            false_and, false_or] at h
          obtain ⟨_, _, _, ⟨rfl, rfl, rfl⟩, _, rfl, hnode, _⟩ := h
          show fs.walk folder [last] = .ok (folder ++ [last])
          rw [walk_name hname, hnode]
          rfl
  · simp [hempty, husable] at h

/-- Steps that do not climb lead to one place below two directories that hold the same. -/
theorem walk_agree {place place' under : Location} {steps : List Text}
    (hsame : ∀ below, fs'.node? (place' ++ below) = fs.node? (place ++ below))
    (hstay : climbsFrom under.length steps = false) :
    (∃ kind, fs.walk (place ++ under) steps = .error kind ∧
        fs'.walk (place' ++ under) steps = .error kind) ∨
      ∃ found, fs.walk (place ++ under) steps = .ok (place ++ found) ∧
        fs'.walk (place' ++ under) steps = .ok (place' ++ found) := by
  induction steps generalizing under with
  | nil => exact Or.inr ⟨under, rfl, rfl⟩
  | cons step rest ih =>
    rcases step_cases step with rfl | rfl | hname
    · exact ih hstay
    · rcases List.eq_nil_or_concat' under with rfl | ⟨under, name, rfl⟩
      · cases hstay
      · rw [climbsFrom_up_concat] at hstay
        rw [walk_up, walk_up, ← List.append_assoc, ← List.append_assoc, List.dropLast_concat,
          List.dropLast_concat]
        exact ih hstay
    · rw [climbsFrom_name hname] at hstay
      rw [walk_name hname, walk_name hname, List.append_assoc, List.append_assoc,
        hsame (under ++ [step])]
      cases fs.node? (place ++ (under ++ [step])) with
      | none => exact Or.inl ⟨_, rfl, rfl⟩
      | some node =>
        cases node with
        | file content => exact Or.inl ⟨_, rfl, rfl⟩
        | directory => exact ih hstay

/-- Once a walk is outside of a place, it stays there as long as it does not take the place's
name. -/
theorem walk_outside {up here found : Location} {name : Text} {steps : List Text}
    (houtside : ¬up ++ [name] <+: here) (hname : name ∉ steps)
    (h : fs.walk here steps = .ok found) : ¬up ++ [name] <+: found := by
  induction steps generalizing here with
  | nil =>
    cases h
    exact houtside
  | cons step rest ih =>
    obtain ⟨hstep, hrest⟩ := not_or.mp (mt List.mem_cons.mpr hname)
    rcases step_cases step with rfl | rfl | hstep_name
    · exact ih houtside hrest h
    · rw [walk_up] at h
      exact ih (fun hwithin => houtside (hwithin.trans (List.dropLast_prefix here))) hrest h
    · refine ih ?_ hrest ((walk_name_eq_ok_iff hstep_name).mp h).2
      rw [List.prefix_concat_iff, not_or]
      refine ⟨fun heq => hstep ?_, houtside⟩
      simpa using (List.append_inj' heq rfl).2

/-- Steps that climb end outside of where they began, unless they come back by its name. -/
theorem walk_of_climbs {up under found : Location} {name : Text} {steps : List Text}
    (hclimbs : climbsFrom under.length steps = true) (hname : name ∉ steps)
    (h : fs.walk (up ++ [name] ++ under) steps = .ok found) : ¬up ++ [name] <+: found := by
  induction steps generalizing under with
  | nil => cases hclimbs
  | cons step rest ih =>
    have hrest := (not_or.mp (mt List.mem_cons.mpr hname)).2
    rcases step_cases step with rfl | rfl | hstep_name
    · exact ih hclimbs hrest h
    · rcases List.eq_nil_or_concat' under with rfl | ⟨under, last, rfl⟩
      · rw [List.append_nil, walk_up, List.dropLast_concat] at h
        refine walk_outside (fun hwithin => ?_) hrest h
        have hlength := hwithin.length_le
        rw [List.length_append, List.length_singleton] at hlength
        omega
      · rw [walk_up, ← List.append_assoc, List.dropLast_concat] at h
        rw [climbsFrom_up_concat] at hclimbs
        exact ih hclimbs hrest h
    · rw [climbsFrom_name hstep_name] at hclimbs
      have hwalk := ((walk_name_eq_ok_iff hstep_name).mp h).2
      rw [List.append_assoc] at hwalk
      exact ih hclimbs hrest hwalk

end Walk

section Join

variable {segment : Text}

theorem join_of_relative (hslash : '/' ∉ segment) (path : Path) :
    path.join ⟨segment⟩ =
      if path.text = [] ∨ path.text.getLast? = some '/' then ⟨path.text ++ segment⟩
      else ⟨path.text ++ '/' :: segment⟩ := by
  have hrelative : Path.isAbsolute ⟨segment⟩ = false := by
    cases segment with
    | nil => rfl
    | cons c cs => simpa [Path.isAbsolute] using fun hc : c = '/' => hslash (by simp [hc])
  simp only [Path.join, hrelative, Bool.false_eq_true, if_false]

/-- A segment that is joined to a path is one more step. -/
theorem steps_join (hne : segment ≠ []) (hslash : '/' ∉ segment) (path : Path) :
    steps (path.join ⟨segment⟩) = steps path ++ [segment] := by
  rw [join_of_relative hslash]
  split
  · next hend =>
    rcases hend with hnil | hlast
    · simp [steps, hnil, Text.splitOn_of_not_mem hslash, hne, Text.splitOn]
    · obtain ⟨before, hbefore⟩ := List.getLast?_eq_some_iff.mp hlast
      simp [steps, hbefore, Text.splitOn_append_sep, Text.splitOn_of_not_mem hslash, hne,
        Text.splitOn]
  · simp [steps, Text.splitOn_append_sep, Text.splitOn_of_not_mem hslash, hne]

/-- A path with segments joined to it starts as the path does. -/
theorem isAbsolute_join (hslash : '/' ∉ segment) {path : Path} (hpath : path.text ≠ []) :
    (path.join ⟨segment⟩).text ≠ [] ∧ (path.join ⟨segment⟩).isAbsolute = path.isAbsolute := by
  rw [join_of_relative hslash]
  cases htext : path.text with
  | nil => exact absurd htext hpath
  | cons c cs => split <;> simp [Path.isAbsolute, htext]

theorem getLast?_join (hne : segment ≠ []) (hslash : '/' ∉ segment) (path : Path) :
    ((path.join ⟨segment⟩).text.getLast? == some '/') = false := by
  have hlast : ∀ front : Text, ((front ++ segment).getLast? == some '/') = false := by
    intro front
    rw [List.getLast?_append, List.getLast?_eq_some_getLast hne]
    simpa using fun h : segment.getLast hne = '/' => hslash (h ▸ List.getLast_mem hne)
  rw [join_of_relative hslash]
  split
  · exact hlast path.text
  · rw [List.append_cons]
    exact hlast (path.text ++ ['/'])

/-- Several segments joined to a path are so many more steps. -/
theorem steps_foldl_join {segments : List Text}
    (h : ∀ segment ∈ segments, segment ≠ [] ∧ '/' ∉ segment) {path : Path}
    (hpath : path.text ≠ []) :
    let joined := segments.foldl (fun place segment => place.join ⟨segment⟩) path
    steps joined = steps path ++ segments ∧ joined.text ≠ [] ∧
      joined.isAbsolute = path.isAbsolute := by
  induction segments generalizing path with
  | nil => exact ⟨(List.append_nil _).symm, hpath, rfl⟩
  | cons segment rest ih =>
    obtain ⟨⟨hne, hslash⟩, hrest⟩ := List.forall_mem_cons.mp h
    obtain ⟨hjoined, habsolute⟩ := isAbsolute_join hslash hpath
    obtain ⟨hsteps, htext, hstart⟩ := ih hrest hjoined
    refine ⟨?_, htext, hstart.trans habsolute⟩
    rw [List.foldl_cons, hsteps, steps_join hne hslash, List.append_assoc, List.singleton_append]

end Join

/-- Below a directory a path is looked up from that directory's place. -/
theorem locate_below {root : Path} {place : Location}
    (hroot : fs.stat root = .ok (place, .directory)) {path : EntryPath} {front : List Text}
    {last : Text} (hsegments : path.segments = front ++ [last])
    (hne : ∀ segment ∈ path.segments, segment ≠ []) (hlast : last ≠ ['.'] ∧ last ≠ ['.', '.']) :
    fs.locate (Folder.locate ⟨root⟩ path) =
      if IsUsable (Folder.locate ⟨root⟩ path) then
        (fs.walk place front).map fun folder => .entry folder last false
      else .error .other := by
  have hpieces : ∀ segment ∈ path.segments, segment ≠ [] ∧ '/' ∉ segment := fun segment hsegment =>
    ⟨hne segment hsegment, Text.sep_not_mem_of_mem_splitOn hsegment⟩
  obtain ⟨htext, hwalk⟩ := walk_of_stat hroot
  have hjoined := steps_foldl_join hpieces htext
  have hlast_mem : last ∈ path.segments := by simp [hsegments]
  have hslash : ((Folder.locate ⟨root⟩ path).text.getLast? == some '/') = false := by
    rw [Folder.locate, hsegments, List.foldl_append]
    exact getLast?_join (hpieces last hlast_mem).1 (hpieces last hlast_mem).2 _
  change steps (Folder.locate ⟨root⟩ path) = _ ∧ (Folder.locate ⟨root⟩ path).text ≠ [] ∧
    (Folder.locate ⟨root⟩ path).isAbsolute = _ at hjoined
  generalize Folder.locate ⟨root⟩ path = target at hjoined hslash ⊢
  obtain ⟨hsteps, hempty, habsolute⟩ := hjoined
  rw [hsegments, ← List.append_assoc] at hsteps
  unfold locate
  rw [if_neg hempty, hsteps, List.getLast?_concat, List.dropLast_concat, habsolute, hslash]
  by_cases husable : IsUsable target
  · simp only [husable, not_true_eq_false, if_false, if_true, hlast, walk_append, hwalk,
      Except.bind]
    cases fs.walk place front <;> rfl
  · simp only [husable, not_false_eq_true, if_true, if_false]

/-- Where a path below a directory leads: along its segments from the directory's place. -/
theorem leadsTo_below_iff {root : Path} {place : Location}
    (hroot : fs.stat root = .ok (place, .directory)) {path : EntryPath} {front : List Text}
    {last : Text} (hsegments : path.segments = front ++ [last])
    (hne : ∀ segment ∈ path.segments, segment ≠ []) (hlast : last ≠ ['.'] ∧ last ≠ ['.', '.'])
    {file : Location} :
    fs.LeadsTo (Folder.locate ⟨root⟩ path) file ↔
      IsUsable (Folder.locate ⟨root⟩ path) ∧ IsUsableName last ∧
        ∃ folder, fs.walk place front = .ok folder ∧ file = folder ++ [last] := by
  unfold LeadsTo
  rw [locate_below hroot hsegments hne hlast]
  by_cases husable : IsUsable (Folder.locate ⟨root⟩ path)
  · rw [if_pos husable]
    cases fs.walk place front with
    | error kind => simp [Except.map]
    | ok folder =>
      constructor
      · rintro ⟨_, _, heq, hname, rfl⟩
        cases heq
        exact ⟨husable, hname, folder, rfl, rfl⟩
      · rintro ⟨-, hname, _, heq, rfl⟩
        cases heq
        exact ⟨folder, last, rfl, hname, rfl⟩
  · simp [husable]

end FileSystem

namespace ClassName

/-- On its way to its file the class's name goes above the directory that it is looked up in. -/
def climbs (name : ClassName) : Bool :=
  climbsFrom 0 name.segments.dropLast

/-- The file's segments are those of the name but the last, and a name of its own. -/
theorem segments_ofClass (name : ClassName) :
    ∃ last, (EntryPath.ofClass name).segments = name.segments.dropLast ++ [last] ∧
      (∀ segment ∈ (EntryPath.ofClass name).segments, segment ≠ []) ∧
      last ≠ ['.'] ∧ last ≠ ['.', '.'] := by
  obtain ⟨front, last, hname, hsplit⟩ :=
    Text.splitOn_append_of_not_mem (show '/' ∉ classSuffix by decide) name.text
  have hsegments : (EntryPath.ofClass name).segments = front ++ [last ++ classSuffix] := hsplit
  have hfront : name.segments.dropLast = front := by
    rw [segments, hname, List.dropLast_concat]
  have hne : ∀ short : Text, short.length < 6 → last ++ classSuffix ≠ short := by
    intro short hshort heq
    have hlength : (last ++ classSuffix).length = last.length + 6 := List.length_append
    rw [heq] at hlength
    omega
  refine ⟨last ++ classSuffix, by rw [hsegments, hfront], fun segment hmem => ?_,
    hne ['.'] (by decide), hne ['.', '.'] (by decide)⟩
  rw [hsegments] at hmem
  rcases List.mem_append.mp hmem with hmem | hmem
  · rintro rfl
    exact name.valid.no_empty_segment (by rw [hname]; exact List.mem_append_left _ hmem)
  · rw [List.mem_singleton.mp hmem]
    exact hne [] (by decide)

/-- A plain name has only names on its way. -/
theorem IsPlain.climbs_eq {name : ClassName} (h : name.IsPlain) : name.climbs = false := by
  have hnames : ∀ (steps : List Text) (under : Location),
      (∀ step ∈ steps, step ≠ ['.'] ∧ step ≠ ['.', '.']) →
        climbsFrom under.length steps = false := by
    intro steps
    induction steps with
    | nil => intro _ _; rfl
    | cons step rest ih =>
      intro under hsteps
      obtain ⟨hstep, hrest⟩ := List.forall_mem_cons.mp hsteps
      rw [climbsFrom_name hstep]
      exact ih (under ++ [step]) hrest
  exact hnames _ [] h.dots_not_mem

end ClassName

namespace Folder

open FileSystem

variable {fs fs' : FileSystem} {root : Path} {name : ClassName}

theorem read_eq_some_iff {folder : Folder} {path : EntryPath} {content : Bytes} :
    folder.read fs path = some content ↔
      ∃ file, fs.LeadsTo (folder.locate path) file ∧ fs.node? file = some (.file content) := by
  rw [← readFile_eq_ok_iff]
  unfold Folder.read readFile
  cases fs.stat (folder.locate path) with
  | error kind => simp
  | ok found =>
    obtain ⟨place, node⟩ := found
    cases node <;> simp [Node.content?]

/-- A directory is at the root in both file systems, and what lies below it is the same. -/
def AgreeBelow (root : Path) (fs fs' : FileSystem) : Prop :=
  ∃ place place', fs.stat root = .ok (place, .directory) ∧
    fs'.stat root = .ok (place', .directory) ∧
    ∀ below, fs'.node? (place' ++ below) = fs.node? (place ++ below)

theorem AgreeBelow.symm (h : AgreeBelow root fs fs') : AgreeBelow root fs' fs := by
  obtain ⟨place, place', hroot, hroot', hsame⟩ := h
  exact ⟨place', place, hroot', hroot, fun below => (hsame below).symm⟩

theorem read_of_agree (hagree : AgreeBelow root fs fs') (hstay : name.climbs = false)
    {content : Bytes} (h : read ⟨root⟩ fs (.ofClass name) = some content) :
    read ⟨root⟩ fs' (.ofClass name) = some content := by
  obtain ⟨place, place', hroot, hroot', hsame⟩ := hagree
  obtain ⟨last, hsegments, hne, hlast⟩ := name.segments_ofClass
  rw [read_eq_some_iff] at h ⊢
  obtain ⟨file, hleads, hnode⟩ := h
  obtain ⟨husable, hname, folder, hwalk, rfl⟩ :=
    (leadsTo_below_iff hroot hsegments hne hlast).mp hleads
  have hboth := @walk_agree fs fs' place place' [] _ hsame hstay
  rw [List.append_nil, List.append_nil] at hboth
  rcases hboth with ⟨kind, herror, -⟩ | ⟨found, hfound, hfound'⟩
  · rw [herror] at hwalk
    cases hwalk
  · rw [hfound] at hwalk
    cases hwalk
    refine ⟨place' ++ found ++ [last], ?_, ?_⟩
    · exact (leadsTo_below_iff hroot' hsegments hne hlast).mpr ⟨husable, hname, _, hfound', rfl⟩
    · rw [List.append_assoc, hsame, ← List.append_assoc, hnode]

/-- As long as the name does not climb, the answer depends on what is below the root. -/
theorem read_congr (hagree : AgreeBelow root fs fs') (hstay : name.climbs = false) :
    read ⟨root⟩ fs' (.ofClass name) = read ⟨root⟩ fs (.ofClass name) := by
  ext content
  exact ⟨read_of_agree hagree.symm hstay, read_of_agree hagree hstay⟩

/-- Under a plain name the file at its segments is found, if they lead there through directories. -/
theorem read_of_isPlain {place : Location} (hroot : fs.stat root = .ok (place, .directory))
    (hplain : name.IsPlain) {content : Bytes} :
    read ⟨root⟩ fs (.ofClass name) = some content ↔
      IsUsable (locate ⟨root⟩ (.ofClass name)) ∧
        (∀ last ∈ (EntryPath.ofClass name).segments.getLast?, IsUsableName last) ∧
        (∀ way, way ≠ [] → way <+: (EntryPath.ofClass name).segments.dropLast →
          fs.node? (place ++ way) = some .directory) ∧
        fs.node? (place ++ (EntryPath.ofClass name).segments) = some (.file content) := by
  obtain ⟨last, hsegments, hne, hlast⟩ := name.segments_ofClass
  rw [read_eq_some_iff]
  simp only [leadsTo_below_iff hroot hsegments hne hlast, walk_names_eq_ok_iff hplain.dots_not_mem]
  rw [hsegments, List.getLast?_concat, List.dropLast_concat, ← List.append_assoc]
  constructor
  · rintro ⟨_, ⟨husable, hname, _, ⟨rfl, hways⟩, rfl⟩, hnode⟩
    exact ⟨husable, by simpa using hname, hways, hnode⟩
  · rintro ⟨husable, hname, hways, hnode⟩
    exact ⟨_, ⟨husable, hname last rfl, _, ⟨rfl, hways⟩, rfl⟩, hnode⟩

/-- What is found under a name that climbs is outside of the root, unless the name comes back by the
root's own. -/
theorem outside_of_read {up : Location} {own : Text}
    (hroot : fs.stat root = .ok (up ++ [own], .directory)) (hclimbs : name.climbs = true)
    (hown : own ∉ (EntryPath.ofClass name).segments) {content : Bytes}
    (h : read ⟨root⟩ fs (.ofClass name) = some content) :
    ∃ file, fs.LeadsTo (locate ⟨root⟩ (.ofClass name)) file ∧
      fs.node? file = some (.file content) ∧ ¬up ++ [own] <+: file := by
  obtain ⟨last, hsegments, hne, hlast⟩ := name.segments_ofClass
  obtain ⟨file, hleads, hnode⟩ := read_eq_some_iff.mp h
  obtain ⟨-, -, folder, hwalk, rfl⟩ := (leadsTo_below_iff hroot hsegments hne hlast).mp hleads
  rw [hsegments, List.mem_append, List.mem_singleton, not_or] at hown
  have houtside : ¬up ++ [own] <+: folder :=
    @walk_of_climbs fs up [] folder own _ hclimbs hown.1 (by rwa [List.append_nil])
  refine ⟨_, hleads, hnode, ?_⟩
  rw [List.prefix_concat_iff, not_or]
  refine ⟨fun heq => hown.2 ?_, houtside⟩
  simpa using (List.append_inj' heq rfl).2

/-- Another file put where a climbing name leads is what is read then, though nothing has changed at
or below the root. -/
theorem read_of_write {up : Location} {own : Text}
    (hroot : fs.stat root = .ok (up ++ [own], .directory)) (hclimbs : name.climbs = true)
    (hown : own ∉ (EntryPath.ofClass name).segments) {content : Bytes}
    (h : read ⟨root⟩ fs (.ofClass name) = some content) (other : Bytes) :
    ∃ fs', AgreeBelow root fs fs' ∧ read ⟨root⟩ fs' (.ofClass name) = some other := by
  obtain ⟨file, hleads, hnode, houtside⟩ := outside_of_read hroot hclimbs hown h
  obtain ⟨after, hwrite⟩ := write_of_readFile (hleads.readFile hnode) other
  have honly := OnlyAt.of_write hwrite
  refine ⟨after, ⟨_, _, hroot, honly.stat_eq_ok (fun place hplace hfile => ?_) hroot,
    fun below => honly.elsewhere _ fun hfile => houtside ?_⟩, ?_⟩
  · rw [hplace.stat, hfile.unique hleads, hnode] at hroot
    cases hroot
  · rw [← hfile.unique hleads]
    exact List.prefix_append (up ++ [own]) below
  · rw [read_eq_some_iff]
    exact readFile_eq_ok_iff.mp (readFile_of_write hwrite)

/-- What is answered to a name under a root: by a root of the classpath that is opened for it, by
one that has been opened before, and by the catalog of the support classes there. -/
def answers (root : Path) (name : ClassName) (fs : FileSystem) :
    List (Except Fault (Option Bytes)) :=
  [((Root.ofPath root).find fs name).1,
    ((⟨root, .opened (Folder.archive ⟨root⟩)⟩ : Root).find fs name).1,
    (Catalog.openAt fs root).bind fun archive => (Catalog.ofArchive archive).lookup fs name]

/-- Under a directory they all answer what is read there. -/
theorem answers_of_stat {place : Location} (hroot : fs.stat root = .ok (place, .directory))
    (name : ClassName) :
    answers root name fs = List.replicate 3 (.ok (read ⟨root⟩ fs (.ofClass name))) := by
  have hdirectory : fs.isDirectory root = true := by simp [isDirectory, hroot]
  have hopen : openTree fs root = .ok (Folder.archive ⟨root⟩) := by
    simp [openTree, hdirectory]
  simp only [answers, Root.find, Root.ensureOpened, Root.ofPath, Root.openPath, hopen, Root.answer,
    Catalog.openAt, Except.bind, Catalog.ofArchive, Folder.archive]
  rfl

/-- A name that does not climb is answered from what is below the root alone; the plain names are
among these, and are answered with the file at their segments. What is answered to a name that climbs has
been read outside of the root, unless the name comes back by the root's own, and is something else
when another file is there. -/
theorem directory_lookups_confined (name : ClassName) (root : Path) :
    (name.climbs = false → ∀ fs fs', AgreeBelow root fs fs' →
        read ⟨root⟩ fs' (.ofClass name) = read ⟨root⟩ fs (.ofClass name) ∧
          answers root name fs' = answers root name fs) ∧
      (name.IsPlain → name.climbs = false ∧
        ∀ fs place content, fs.stat root = .ok (place, .directory) →
          (read ⟨root⟩ fs (.ofClass name) = some content ↔
            IsUsable (locate ⟨root⟩ (.ofClass name)) ∧
              (∀ last ∈ (EntryPath.ofClass name).segments.getLast?, IsUsableName last) ∧
              (∀ way, way ≠ [] → way <+: (EntryPath.ofClass name).segments.dropLast →
                fs.node? (place ++ way) = some .directory) ∧
              fs.node? (place ++ (EntryPath.ofClass name).segments) = some (.file content))) ∧
      (name.climbs = true → ∀ fs up own content, fs.stat root = .ok (up ++ [own], .directory) →
        own ∉ (EntryPath.ofClass name).segments →
        read ⟨root⟩ fs (.ofClass name) = some content →
        (∃ file, fs.LeadsTo (locate ⟨root⟩ (.ofClass name)) file ∧ ¬up ++ [own] <+: file) ∧
          ∀ other, ∃ fs', AgreeBelow root fs fs' ∧
            answers root name fs' = List.replicate 3 (.ok (some other))) := by
  refine ⟨fun hstay fs fs' hagree => ?_,
    fun hplain => ⟨hplain.climbs_eq, fun fs place content hroot => read_of_isPlain hroot hplain⟩,
    fun hclimbs fs up own content hroot hown h => ⟨?_, fun other => ?_⟩⟩
  · have hread := read_congr hagree hstay
    obtain ⟨place, place', hroot, hroot', -⟩ := hagree
    exact ⟨hread, by rw [answers_of_stat hroot, answers_of_stat hroot', hread]⟩
  · obtain ⟨file, hleads, -, houtside⟩ := outside_of_read hroot hclimbs hown h
    exact ⟨file, hleads, houtside⟩
  · obtain ⟨fs', hagree, hread⟩ := read_of_write hroot hclimbs hown h other
    obtain ⟨_, place', _, hroot', -⟩ := id hagree
    exact ⟨fs', hagree, by rw [answers_of_stat hroot', hread]⟩

def besideFolder (content : Bytes) : FileSystem :=
  ⟨[], [(["lib".toList], .directory), (["x.class".toList], .file content)]⟩

def outsideName : ClassName := ⟨"../x".toList, by decide, by decide, by decide⟩

/-- Not every name that is accepted is answered from what is below the root. -/
theorem lookup_outside_folder :
    ¬∀ (text : Text) (name : ClassName) (root : Path) (fs fs' : FileSystem),
      ClassName.ofText text = .ok name → AgreeBelow root fs fs' →
      answers root name fs' = answers root name fs := by
  intro hconfined
  have hagree : AgreeBelow (.ofString "lib") (besideFolder [1]) (besideFolder [2]) := by
    refine ⟨["lib".toList], ["lib".toList], by rfl, by rfl, fun below => ?_⟩
    cases below with
    | nil => rfl
    | cons step rest => rfl
  have hfound : ∀ content, read ⟨.ofString "lib"⟩ (besideFolder [content]) (.ofClass outsideName) =
      some [content] := by
    intro content
    rfl
  have hsame := hconfined _ outsideName (.ofString "lib") _ _ outsideName.ofText_text hagree
  obtain ⟨_, _, hroot, hroot', -⟩ := hagree
  rw [answers_of_stat hroot, answers_of_stat hroot', hfound, hfound] at hsame
  simp at hsame

end Folder

end Retarget

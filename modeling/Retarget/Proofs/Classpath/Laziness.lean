import Retarget.Classpath.Eager
import Retarget.Proofs.Classpath.History

/-!
Lazy lookup against eager lookup. Over files that stay as they are, a lookup answers what asking all
places in order answers, their roots being opened beforehand. That it is lazy is seen in the roots
alone: after a run of lookups a root is open exactly when one of them got to it, all places before
it lacking the class.
-/
namespace Retarget

theorem Root.isOpened_ensureOpened (fs : FileSystem) (root : Root) :
    (root.ensureOpened fs).isOpened = true := by
  obtain ⟨path, state⟩ := root
  cases state with
  | closed =>
    simp only [ensureOpened, openPath]
    cases openTree fs path <;> rfl
  | unusable => rfl
  | opened archive => rfl

namespace Classpath

variable {fs : FileSystem} {name : ClassName}

def nothing {α : Type} : Except Fault (Option α) → Bool
  | .ok none => true
  | _ => false

theorem nothing_iff {α : Type} {answer : Except Fault (Option α)} :
    nothing answer = true ↔ answer = .ok none := by
  cases answer with
  | error fault => simp [nothing]
  | ok found => cases found <;> simp [nothing]

theorem nothing_map {α β : Type} (f : α → β) (answer : Except Fault (Option α)) :
    nothing (answer.map (Option.map f)) = nothing answer := by
  cases answer with
  | error fault => rfl
  | ok found => cases found <;> rfl

namespace Place

def lacks (fs : FileSystem) (name : ClassName) (place : Place) : Bool :=
  nothing (place.answer fs name)

def report (fs : FileSystem) (name : ClassName) (place : Place) :
    Except Fault (Option ResolvedClass) :=
  (place.answer fs name).map (Option.map (⟨·, place.origin⟩))

theorem report_eq_some_iff {place : Place} {found : ResolvedClass} :
    place.report fs name = .ok (some found) ↔
      place.answer fs name = .ok (some found.bytes) ∧ place.origin = found.origin := by
  obtain ⟨bytes, origin⟩ := found
  unfold report
  cases place.answer fs name with
  | error fault => simp [Except.map]
  | ok found => cases found <;> simp [Except.map]

theorem report_eq_error_iff {place : Place} {fault : Fault} :
    place.report fs name = .error fault ↔ place.answer fs name = .error fault := by
  unfold report
  cases place.answer fs name <;> simp [Except.map]

theorem nothing_report (place : Place) : nothing (place.report fs name) = place.lacks fs name := by
  rw [report, nothing_map, lacks]

end Place

section Eager

variable {place : Place} {asked : List Place} {answer : Except Fault (Option ResolvedClass)}

theorem firstAnswer_cons (place : Place) (rest : List Place) :
    firstAnswer fs name (place :: rest) =
      if place.lacks fs name then firstAnswer fs name rest else place.report fs name := by
  rw [firstAnswer, Place.report, Place.lacks]
  cases place.answer fs name with
  | error fault => rfl
  | ok found => cases found <;> rfl

/-- A class is not found when every place lacks it. -/
theorem nothing_firstAnswer (asked : List Place) :
    nothing (firstAnswer fs name asked) = asked.all (Place.lacks fs name) := by
  induction asked with
  | nil => rfl
  | cons place rest ih =>
    rw [firstAnswer_cons, List.all_cons, ← ih]
    by_cases hlacks : place.lacks fs name = true
    · simp [hlacks]
    · simp [hlacks, Place.nothing_report]

theorem firstAnswer_append (first second : List Place) :
    firstAnswer fs name (first ++ second) =
      if first.all (Place.lacks fs name) then firstAnswer fs name second
      else firstAnswer fs name first := by
  induction first with
  | nil => rfl
  | cons place rest ih =>
    rw [List.cons_append, firstAnswer_cons, firstAnswer_cons, ih]
    by_cases hlacks : place.lacks fs name = true
    · simp only [hlacks, if_true, List.all_cons, Bool.true_and]
    · simp [hlacks]

/-- Any other answer is that of a place that all places before it leave the answer to. -/
theorem firstAnswer_eq_iff (h : answer ≠ .ok none) :
    firstAnswer fs name asked = answer ↔
      ∃ before place after, asked = before ++ place :: after ∧
        (∀ other ∈ before, other.answer fs name = .ok none) ∧ place.report fs name = answer := by
  constructor
  · intro hanswer
    induction asked with
    | nil => exact absurd hanswer.symm h
    | cons place rest ih =>
      rw [firstAnswer_cons] at hanswer
      by_cases hlacks : place.lacks fs name = true
      · rw [if_pos hlacks] at hanswer
        obtain ⟨before, decisive, after, hrest, hbefore, hdecisive⟩ := ih hanswer
        refine ⟨place :: before, decisive, after, by rw [hrest, List.cons_append], ?_, hdecisive⟩
        rw [List.forall_mem_cons]
        exact ⟨nothing_iff.mp hlacks, hbefore⟩
      · rw [if_neg hlacks] at hanswer
        exact ⟨[], place, rest, rfl, by simp, hanswer⟩
  · intro hdecided
    obtain ⟨before, place, after, rfl, hbefore, hreport⟩ := hdecided
    have hall : before.all (Place.lacks fs name) = true :=
      List.all_eq_true.mpr fun other hother => nothing_iff.mpr (hbefore other hother)
    have hplace : ¬place.lacks fs name = true := by
      rw [← Place.nothing_report, nothing_iff, hreport]
      exact h
    rw [firstAnswer_append, if_pos hall, firstAnswer_cons, if_neg hplace, hreport]

theorem firstAnswer_eq_none_iff :
    firstAnswer fs name asked = .ok none ↔ ∀ place ∈ asked, place.answer fs name = .ok none := by
  rw [← nothing_iff, nothing_firstAnswer, List.all_eq_true]
  exact forall₂_congr fun place _ => nothing_iff

theorem origin_of_mem_placesOf {tier : Tier} (h : place ∈ placesOf fs tier) :
    place.origin = tier.origin := by
  cases tier with
  | archive tree =>
    rw [List.mem_singleton.mp h]
    rfl
  | roots kind list =>
    obtain ⟨root, -, rfl⟩ := List.mem_map.mp h
    rfl
  | custom origin description look =>
    rw [List.mem_singleton.mp h]
    rfl

/-- A tier answers what its places answer. -/
theorem firstAnswer_placesOf (tier : Tier) :
    firstAnswer fs name (placesOf fs tier) =
      (tier.find fs name).1.map (Option.map (⟨·, tier.origin⟩)) := by
  have hone : ∀ place : Place, firstAnswer fs name [place] = place.report fs name := by
    intro place
    rw [firstAnswer_cons]
    split
    · next hlacks => rw [Place.report, nothing_iff.mp hlacks]; rfl
    · rfl
  cases tier with
  | archive tree => exact hone _
  | roots kind list =>
    simp only [placesOf, Tier.find]
    induction list with
    | nil => rfl
    | cons root rest ih =>
      simp only [List.map_cons, firstAnswer, Tier.findInRoots, Root.find]
      cases (root.ensureOpened fs).answer fs name with
      | error fault => rfl
      | ok found =>
        cases found with
        | none => exact ih
        | some bytes => rfl
  | custom origin description look => exact hone _

theorem nothing_find (tier : Tier) :
    nothing (tier.find fs name).1 = (placesOf fs tier).all (Place.lacks fs name) := by
  rw [← nothing_firstAnswer, firstAnswer_placesOf, nothing_map]

def places (fs : FileSystem) (classpath : Classpath) : List Place :=
  classpath.tiers.flatMap (placesOf fs)

/-- Whatever was looked up before, a lookup answers what eager lookup does. -/
theorem fst_resolve (classpath : Classpath) :
    (classpath.resolve fs name).1 = eagerResolve fs name classpath := by
  unfold resolve eagerResolve
  induction classpath.tiers with
  | nil => rfl
  | cons tier rest ih =>
    have horigin := Tier.origin_find fs name tier
    rw [List.flatMap_cons, firstAnswer_append, ← nothing_find, firstAnswer_placesOf]
    rcases hfind : tier.find fs name with ⟨found, tier'⟩
    rw [hfind] at horigin
    simp only [resolveIn, hfind]
    cases found with
    | error fault => rfl
    | ok found =>
      cases found with
      | none => exact ih
      | some bytes =>
        rw [← horigin]
        rfl

def eagerProject (fs : FileSystem) (name : ClassName) (asked : List Place) : Except Fault Bool :=
  (firstAnswer fs name (asked.filter (·.origin = .archive))).map Option.isSome

theorem fst_isProjectClass (classpath : Classpath) :
    (classpath.isProjectClass fs name).1 = eagerProject fs name (classpath.places fs) := by
  unfold isProjectClass eagerProject places
  induction classpath.tiers with
  | nil => rfl
  | cons tier rest ih =>
    rw [List.flatMap_cons, List.filter_append]
    by_cases harchive : tier.origin = .archive
    · have hall : (placesOf fs tier).filter (·.origin = .archive) = placesOf fs tier := by
        apply List.filter_eq_self.mpr
        intro place hplace
        simpa [origin_of_mem_placesOf hplace] using harchive
      rw [hall, firstAnswer_append, ← nothing_find, firstAnswer_placesOf]
      simp only [projectClassIn, harchive, if_true]
      rcases tier.find fs name with ⟨found, tier'⟩
      cases found with
      | error fault => rfl
      | ok found =>
        cases found with
        | none => exact ih
        | some bytes => rfl
    · have hnone : (placesOf fs tier).filter (·.origin = .archive) = [] := by
        apply List.filter_eq_nil_iff.mpr
        intro place hplace
        simpa [origin_of_mem_placesOf hplace] using harchive
      rw [hnone, List.nil_append, ← ih]
      simp only [projectClassIn, harchive, if_false]

end Eager

section Opened

def rootAt? (classpath : Classpath) (i j : Nat) : Option Root :=
  match classpath.tiers[i]? with
  | some (.roots _ list) => list[j]?
  | _ => none

def openedAt (classpath : Classpath) (i j : Nat) : Bool :=
  (classpath.rootAt? i j).any Root.isOpened

def placesBefore (fs : FileSystem) (classpath : Classpath) (i j : Nat) : List Place :=
  (classpath.tiers.take i).flatMap (placesOf fs) ++
    ((classpath.tiers[i]?.map (placesOf fs)).getD []).take j

/-- Among roots, a lookup opens those that it gets to. -/
theorem getElem?_findInRoots (list : List Root) (i : Nat) :
    (Tier.findInRoots fs name list).2[i]? = list[i]?.map fun root =>
      if (list.take i).all fun other => nothing (other.find fs name).1 then root.ensureOpened fs
      else root := by
  induction list generalizing i with
  | nil => rfl
  | cons first rest ih =>
    rcases hfind : first.find fs name with ⟨found, first'⟩
    have hopened : first' = first.ensureOpened fs := by
      have hsnd : (first.find fs name).2 = first.ensureOpened fs := rfl
      rwa [hfind] at hsnd
    simp only [Tier.findInRoots, hfind]
    cases i with
    | zero =>
      cases found with
      | error fault => simp [hopened]
      | ok found => cases found <;> simp [hopened]
    | succ i =>
      cases found with
      | error fault => simp [hfind, nothing]
      | ok found => cases found <;> simp [hfind, nothing, ih]

/-- Among tiers, a lookup looks in those that it gets to. -/
theorem getElem?_resolveIn (tiers : List Tier) (i : Nat) :
    (resolveIn fs name tiers).2[i]? = tiers[i]?.map fun tier =>
      if (tiers.take i).all fun other => nothing (other.find fs name).1 then (tier.find fs name).2
      else tier := by
  induction tiers generalizing i with
  | nil => rfl
  | cons first rest ih =>
    rcases hfind : first.find fs name with ⟨found, first'⟩
    simp only [resolveIn, hfind]
    cases i with
    | zero =>
      cases found with
      | error fault => simp [hfind]
      | ok found => cases found <;> simp [hfind]
    | succ i =>
      cases found with
      | error fault => simp [hfind, nothing]
      | ok found => cases found <;> simp [hfind, nothing, ih]

/-- A lookup opens a root when all places before it lack the class, and leaves it as it is
otherwise. -/
theorem rootAt?_resolve (classpath : Classpath) (i j : Nat) :
    (classpath.resolve fs name).2.rootAt? i j = (classpath.rootAt? i j).map fun root =>
      if (classpath.placesBefore fs i j).all (Place.lacks fs name) then root.ensureOpened fs
      else root := by
  have htiers : (classpath.resolve fs name).2.tiers = (resolveIn fs name classpath.tiers).2 := rfl
  unfold rootAt? placesBefore
  rw [htiers, getElem?_resolveIn]
  have hbefore : ((classpath.tiers.take i).flatMap (placesOf fs)).all (Place.lacks fs name) =
      (classpath.tiers.take i).all fun tier => nothing (tier.find fs name).1 := by
    rw [List.all_flatMap]
    simp only [nothing_find]
  cases htier : classpath.tiers[i]? with
  | none => rfl
  | some tier =>
    rw [List.all_append, hbefore]
    cases tier with
    | archive tree => simp [Tier.find]
    | custom origin description look => simp [Tier.find]
    | roots kind list =>
      have hroots : ((placesOf fs (.roots kind list)).take j).all (Place.lacks fs name) =
          (list.take j).all fun root => nothing (root.find fs name).1 := by
        rw [placesOf, ← List.map_take, List.all_map]
        rfl
      simp only [Option.map_some, Option.getD_some, hroots]
      by_cases hreached : ((classpath.tiers.take i).all fun tier =>
          nothing (tier.find fs name).1) = true
      · simp only [hreached, if_true, Bool.true_and]
        exact getElem?_findInRoots list j
      · simp [hreached]

theorem openedAt_resolve (fs : FileSystem) (name : ClassName) (classpath : Classpath) (i j : Nat) :
    (classpath.resolve fs name).2.openedAt i j = true ↔
      classpath.openedAt i j = true ∨ (classpath.rootAt? i j).isSome = true ∧
        (classpath.placesBefore fs i j).all (Place.lacks fs name) = true := by
  unfold openedAt
  rw [rootAt?_resolve]
  cases classpath.rootAt? i j with
  | none => simp
  | some root =>
    by_cases hlack : (classpath.placesBefore fs i j).all (Place.lacks fs name) = true
    · simp [hlack, Root.isOpened_ensureOpened]
    · simp [hlack]

end Opened

section Settled

variable {classpath classpath' : Classpath}

theorem placesOf_settled (tier : Tier) : placesOf fs (tier.settled fs) = placesOf fs tier := by
  cases tier with
  | archive tree => rfl
  | roots kind list =>
    simp only [Tier.settled, placesOf, List.map_map, Function.comp_def,
      Root.ensureOpened_ensureOpened]
  | custom origin description look => rfl

/-- The places are told from the settled classpath, and so are those before a root and whether there
is that root. -/
theorem places_of_settled (h : classpath.settled fs = classpath'.settled fs) :
    classpath.places fs = classpath'.places fs := by
  have hsettled : ∀ classpath : Classpath, (classpath.settled fs).places fs =
      classpath.places fs := by
    intro classpath
    simp only [places, settled, List.flatMap_map, placesOf_settled]
  rw [← hsettled, h, hsettled]

theorem placesBefore_of_settled (h : classpath.settled fs = classpath'.settled fs) (i j : Nat) :
    classpath.placesBefore fs i j = classpath'.placesBefore fs i j := by
  have hsettled : ∀ classpath : Classpath, (classpath.settled fs).placesBefore fs i j =
      classpath.placesBefore fs i j := by
    intro classpath
    simp only [placesBefore, settled, ← List.map_take, List.flatMap_map, placesOf_settled,
      List.getElem?_map, Option.map_map, Function.comp_def]
  rw [← hsettled, h, hsettled]

theorem isSome_rootAt?_of_settled (h : classpath.settled fs = classpath'.settled fs) (i j : Nat) :
    (classpath.rootAt? i j).isSome = (classpath'.rootAt? i j).isSome := by
  have hsettled : ∀ classpath : Classpath, ((classpath.settled fs).rootAt? i j).isSome =
      (classpath.rootAt? i j).isSome := by
    intro classpath
    simp only [rootAt?, settled, List.getElem?_map]
    cases classpath.tiers[i]? with
    | none => rfl
    | some tier => cases tier <;> simp [Tier.settled]
  rw [← hsettled, h, hsettled]

end Settled

inductive Lookup
  | resolve (name : ClassName)
  | isProjectClass (name : ClassName)

inductive Answer
  | resolved (found : Except Fault (Option ResolvedClass))
  | project (found : Except Fault Bool)

namespace Lookup

def perform (fs : FileSystem) (classpath : Classpath) : Lookup → Answer × Classpath
  | .resolve name =>
    let (found, classpath) := classpath.resolve fs name
    (.resolved found, classpath)
  | .isProjectClass name =>
    let (found, classpath) := classpath.isProjectClass fs name
    (.project found, classpath)

def performAll (fs : FileSystem) : List Lookup → Classpath → List Answer × Classpath
  | [], classpath => ([], classpath)
  | lookup :: rest, classpath =>
    let (answer, classpath) := lookup.perform fs classpath
    let (answers, classpath) := performAll fs rest classpath
    (answer :: answers, classpath)

def eager (fs : FileSystem) (asked : List Place) : Lookup → Answer
  | .resolve name => .resolved (firstAnswer fs name asked)
  | .isProjectClass name => .project (eagerProject fs name asked)

theorem fst_perform (lookup : Lookup) (classpath : Classpath) :
    (lookup.perform fs classpath).1 = lookup.eager fs (classpath.places fs) := by
  cases lookup with
  | resolve name => exact congrArg Answer.resolved (fst_resolve classpath)
  | isProjectClass name => exact congrArg Answer.project (fst_isProjectClass classpath)

theorem settled_perform (fs : FileSystem) (lookup : Lookup) (classpath : Classpath) :
    (lookup.perform fs classpath).2.settled fs = classpath.settled fs := by
  cases lookup with
  | resolve name => exact settled_resolve fs name classpath
  | isProjectClass name => exact congrArg (settled fs) (snd_isProjectClass fs name classpath)

/-- All answers are those of the places by themselves. -/
theorem fst_performAll (lookups : List Lookup) (classpath : Classpath) :
    (performAll fs lookups classpath).1 = lookups.map (eager fs (classpath.places fs)) := by
  induction lookups generalizing classpath with
  | nil => rfl
  | cons lookup rest ih =>
    have hplaces := places_of_settled (settled_perform fs lookup classpath)
    simp only [performAll, List.map_cons, ih, hplaces, fst_perform]

/-- A root is open in the end when it was at first, or when one lookup found nothing in all places
before it. -/
theorem openedAt_performAll (lookups : List Lookup) (classpath : Classpath) (i j : Nat) :
    (performAll fs lookups classpath).2.openedAt i j = true ↔
      classpath.openedAt i j = true ∨ (classpath.rootAt? i j).isSome = true ∧
        ∃ name, .resolve name ∈ lookups ∧
          (classpath.placesBefore fs i j).all (Place.lacks fs name) = true := by
  induction lookups generalizing classpath with
  | nil => simp [performAll]
  | cons lookup rest ih =>
    have hsettled := settled_perform fs lookup classpath
    have hlater := ih (lookup.perform fs classpath).2
    rw [placesBefore_of_settled hsettled, isSome_rootAt?_of_settled hsettled] at hlater
    simp only [performAll, hlater]
    cases lookup with
    | resolve name =>
      have hnow := openedAt_resolve fs name classpath i j
      simp only [perform, hnow, List.mem_cons, Lookup.resolve.injEq]
      constructor
      · intro h
        rcases h with (hbefore | ⟨hthere, hlack⟩) | ⟨hthere, other, hmem, hlack⟩
        · exact Or.inl hbefore
        · exact Or.inr ⟨hthere, name, Or.inl rfl, hlack⟩
        · exact Or.inr ⟨hthere, other, Or.inr hmem, hlack⟩
      · intro h
        rcases h with hbefore | ⟨hthere, other, rfl | hmem, hlack⟩
        · exact Or.inl (Or.inl hbefore)
        · exact Or.inl (Or.inr ⟨hthere, hlack⟩)
        · exact Or.inr ⟨hthere, other, hmem, hlack⟩
    | isProjectClass name =>
      have hnow : (classpath.isProjectClass fs name).2 = classpath := snd_isProjectClass ..
      simp [perform, hnow]

end Lookup

inductive Source
  | archive (tree : Archive)
  | roots (kind : RootsKind) (paths : List Path)
  | custom (origin : ClassOrigin) (description : Text)
      (find : FileSystem → ClassName → Except Fault (Option Bytes))

namespace Source

def tier : Source → Tier
  | .archive tree => .archive tree
  | .roots kind paths => .ofPaths kind paths
  | .custom origin description find => .custom origin description find

/-- What is found in a root that is opened beforehand; one that cannot be opened holds nothing. -/
def rootAnswer (fs : FileSystem) (path : Path) (fs' : FileSystem) (name : ClassName) :
    Except Fault (Option Bytes) :=
  match openTree fs path with
  | .ok tree => tree.read fs' (.ofClass name)
  | .error _ => .ok none

def places (fs : FileSystem) : Source → List Place
  | .archive tree => [⟨.archive, fun fs name => tree.read fs (.ofClass name)⟩]
  | .roots kind paths => paths.map fun path => ⟨kind.origin, rootAnswer fs path⟩
  | .custom origin _ find => [⟨origin, find⟩]

theorem placesOf_tier (source : Source) : placesOf fs source.tier = source.places fs := by
  cases source with
  | archive tree => rfl
  | custom origin description find => rfl
  | roots kind paths =>
    rw [tier, Tier.ofPaths, placesOf, List.map_map]
    apply List.map_congr_left
    intro path _
    have hroot : (((Root.ofPath path).ensureOpened fs).answer) = rootAnswer fs path := by
      funext fs' name
      simp only [Root.ofPath, Root.ensureOpened, Root.openPath, Root.answer, rootAnswer]
      cases openTree fs path <;> rfl
    exact congrArg (Place.mk kind.origin) hroot

end Source

def ofSources (sources : List Source) : Classpath := ⟨sources.map Source.tier⟩

theorem places_ofSources (sources : List Source) :
    (ofSources sources).places fs = sources.flatMap (Source.places fs) := by
  simp only [places, ofSources, List.flatMap_map, Source.placesOf_tier]

section Sources

variable {sources : List Source} {kind : RootsKind} {paths : List Path} {i j : Nat}

theorem rootAt?_ofSources (hroots : sources[i]? = some (.roots kind paths)) :
    (ofSources sources).rootAt? i j = paths[j]?.map Root.ofPath := by
  simp only [rootAt?, ofSources, List.getElem?_map, hroots, Option.map_some, Source.tier,
    Tier.ofPaths]

theorem placesBefore_ofSources (hroots : sources[i]? = some (.roots kind paths)) :
    (ofSources sources).placesBefore fs i j =
      (sources.take i).flatMap (Source.places fs) ++
        (Source.roots kind (paths.take j)).places fs := by
  have htake : ((Source.roots kind paths).places fs).take j =
      (Source.roots kind (paths.take j)).places fs := List.map_take.symm
  simp only [placesBefore, ofSources, List.getElem?_map, hroots, Option.map_some, Option.getD_some,
    ← List.map_take, List.flatMap_map, Source.placesOf_tier, htake]

end Sources

/-- Looking up lazily answers what asking every archive and every root in order answers, whatever is
looked up before: the first that has the class or fails decides. A root is open afterwards exactly
when a lookup found nothing in the tiers before its tier and in the roots before it. -/
theorem lazy_lookups_answer_as_eager (fs : FileSystem) (sources : List Source)
    (lookups : List Lookup) :
    (Lookup.performAll fs lookups (ofSources sources)).1 =
        lookups.map (Lookup.eager fs (sources.flatMap (Source.places fs))) ∧
      (∀ name asked found, firstAnswer fs name asked = .ok (some found) ↔
        ∃ before place after, asked = before ++ place :: after ∧
          (∀ other ∈ before, other.answer fs name = .ok none) ∧
          place.answer fs name = .ok (some found.bytes) ∧ place.origin = found.origin) ∧
      (∀ name asked fault, firstAnswer fs name asked = .error fault ↔
        ∃ before place after, asked = before ++ place :: after ∧
          (∀ other ∈ before, other.answer fs name = .ok none) ∧
          place.answer fs name = .error fault) ∧
      (∀ name asked, firstAnswer fs name asked = .ok none ↔
        ∀ place ∈ asked, place.answer fs name = .ok none) ∧
      (∀ i j kind paths path, sources[i]? = some (.roots kind paths) → paths[j]? = some path →
        ((Lookup.performAll fs lookups (ofSources sources)).2.openedAt i j = true ↔
          ∃ name, .resolve name ∈ lookups ∧
            ∀ place ∈ (sources.take i).flatMap (Source.places fs) ++
              (Source.roots kind (paths.take j)).places fs, place.answer fs name = .ok none)) ∧
      ∀ name (classpath : Classpath), (classpath.isProjectClass fs name).2 = classpath := by
  refine ⟨?_, fun name asked found => ?_, fun name asked fault => ?_,
    fun name asked => firstAnswer_eq_none_iff, ?_, fun name => snd_isProjectClass fs name⟩
  · rw [Lookup.fst_performAll, places_ofSources]
  · rw [firstAnswer_eq_iff (by simp)]
    simp only [Place.report_eq_some_iff]
  · rw [firstAnswer_eq_iff (by simp)]
    simp only [Place.report_eq_error_iff]
  · intro i j kind paths path hroots hpath
    have hclosed : (ofSources sources).openedAt i j = false := by
      rw [openedAt, rootAt?_ofSources hroots, hpath]
      rfl
    rw [Lookup.openedAt_performAll, hclosed, rootAt?_ofSources hroots, hpath,
      placesBefore_ofSources hroots]
    simp only [Bool.false_eq_true, false_or, Option.map_some, Option.isSome_some, true_and,
      List.all_eq_true, Place.lacks, nothing_iff]

/-- A root that is missing and one that has the class are opened, the one after them is not. -/
example :
    let fs : FileSystem :=
      ⟨[], [(["lib".toList], .directory), (["lib".toList, "A.class".toList], .file [1])]⟩
    let roots := Source.roots .classpath [.ofString "missing.jar", .ofString "lib", .ofString "jdk"]
    let name : ClassName := ⟨"A".toList, by decide, by decide, by decide⟩
    (Lookup.performAll fs [.resolve name, .isProjectClass name] (ofSources [roots])).2.tiers.map
      Tier.opened? = [some [true, true, false]] := by
  decide

end Classpath

end Retarget

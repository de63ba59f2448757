import Retarget.Downgrade.Run
import Retarget.MemoryTree
import Retarget.Proofs.Classpath.Laziness

/-!
Whether a class is the project's own, asked of the archives alone and told from a full lookup. A
tier is asked as one place, so both questions are lookups among places: the one among those of
archives, the other among all. With the archives in front the two part only where a later tier
fails: the full lookup fails there, and the other has its answer already.
-/
namespace Retarget.Classpath

variable {fs : FileSystem} {name : ClassName}

def placeOf (tier : Tier) : Place := ⟨tier.origin, fun fs name => (tier.find fs name).1⟩

theorem fst_resolve_eq_firstAnswer (classpath : Classpath) :
    (classpath.resolve fs name).1 = firstAnswer fs name (classpath.tiers.map placeOf) := by
  unfold resolve
  induction classpath.tiers with
  | nil => rfl
  | cons tier rest ih =>
    have horigin := Tier.origin_find fs name tier
    rcases hfind : tier.find fs name with ⟨found, tier'⟩
    rw [hfind] at horigin
    simp only [List.map_cons, firstAnswer, placeOf, resolveIn, hfind]
    cases found with
    | error fault => rfl
    | ok found =>
      cases found with
      | none => exact ih
      | some bytes => rw [← horigin]

theorem fst_isProjectClass_eq_firstAnswer (classpath : Classpath) :
    (classpath.isProjectClass fs name).1 = (firstAnswer fs name
      ((classpath.tiers.filter (·.origin = .archive)).map placeOf)).map Option.isSome := by
  unfold isProjectClass
  induction classpath.tiers with
  | nil => rfl
  | cons tier rest ih =>
    by_cases harchive : tier.origin = .archive
    · rw [List.filter_cons_of_pos (by simpa using harchive)]
      simp only [List.map_cons, firstAnswer, placeOf, projectClassIn, harchive, if_true]
      rcases tier.find fs name with ⟨found, tier'⟩
      cases found with
      | error fault => rfl
      | ok found =>
        cases found with
        | none => exact ih
        | some bytes => rfl
    · rw [List.filter_cons_of_neg (by simpa using harchive), ← ih]
      simp only [projectClassIn, harchive, if_false]

/-- A lookup gets to a tier, all before it lacking the class, and fails there. -/
def FailsAt (fs : FileSystem) (name : ClassName) (tiers : List Tier) (tier : Tier) (fault : Fault) :
    Prop :=
  ∃ before after, tiers = before ++ tier :: after ∧
    (∀ other ∈ before, (other.find fs name).1 = .ok none) ∧ (tier.find fs name).1 = .error fault

section Ends

variable {tiers first second : List Tier} {tier : Tier} {fault : Fault}

/-- Asking tiers as places fails when one of them fails that is got to. -/
theorem firstAnswer_map_placeOf_eq_error_iff :
    firstAnswer fs name (tiers.map placeOf) = .error fault ↔
      ∃ tier, FailsAt fs name tiers tier fault := by
  rw [firstAnswer_eq_iff (by simp)]
  constructor
  · rintro ⟨before, place, after, hsplit, hbefore, hreport⟩
    obtain ⟨first, rest, rfl, rfl, hrest⟩ := List.map_eq_append_iff.mp hsplit
    obtain ⟨tier, later, rfl, rfl, rfl⟩ := List.map_eq_cons_iff.mp hrest
    refine ⟨tier, first, later, rfl, ?_, Place.report_eq_error_iff.mp hreport⟩
    intro other hother
    exact hbefore (placeOf other) (List.mem_map_of_mem hother)
  · rintro ⟨tier, before, after, rfl, hbefore, hfails⟩
    refine ⟨before.map placeOf, placeOf tier, after.map placeOf, by simp, ?_,
      Place.report_eq_error_iff.mpr hfails⟩
    intro place hplace
    obtain ⟨other, hother, rfl⟩ := List.mem_map.mp hplace
    exact hbefore other hother

theorem firstAnswer_map_placeOf_eq_none_iff :
    firstAnswer fs name (tiers.map placeOf) = .ok none ↔
      ∀ other ∈ tiers, (other.find fs name).1 = .ok none := by
  rw [firstAnswer_eq_none_iff, List.forall_mem_map]
  rfl

theorem mem_of_failsAt (h : FailsAt fs name tiers tier fault) : tier ∈ tiers := by
  obtain ⟨before, after, rfl, -, -⟩ := h
  simp

/-- A tier behind others is got to when they all lack the class. -/
theorem failsAt_append :
    FailsAt fs name (first ++ second) tier fault ↔
      FailsAt fs name first tier fault ∨
        (∀ other ∈ first, (other.find fs name).1 = .ok none) ∧
          FailsAt fs name second tier fault := by
  constructor
  · rintro ⟨before, after, hsplit, hbefore, hfails⟩
    rcases List.append_eq_append_iff.mp hsplit with
      ⟨middle, hbehind, hsecond⟩ | ⟨middle, hfront, hrest⟩
    · rw [hbehind, List.forall_mem_append] at hbefore
      exact Or.inr ⟨hbefore.1, middle, after, hsecond, hbefore.2, hfails⟩
    · rcases List.cons_eq_append_iff.mp hrest with ⟨hnil, hsecond⟩ | ⟨later, hmiddle, -⟩
      · rw [hnil, List.append_nil] at hfront
        rw [hfront]
        exact Or.inr ⟨hbefore, [], after, hsecond, by simp, hfails⟩
      · exact Or.inl ⟨before, later, by rw [hfront, hmiddle], hbefore, hfails⟩
  · rintro (⟨before, after, rfl, hbefore, hfails⟩ | ⟨hlack, before, after, rfl, hbefore, hfails⟩)
    · exact ⟨before, after ++ second, by simp, hbefore, hfails⟩
    · refine ⟨first ++ before, after, by simp, ?_, hfails⟩
      rw [List.forall_mem_append]
      exact ⟨hlack, hbefore⟩

/-- What is found is of the origin of one of the tiers. -/
theorem origin_of_firstAnswer {found : ResolvedClass}
    (h : firstAnswer fs name (tiers.map placeOf) = .ok (some found)) :
    ∃ tier ∈ tiers, tier.origin = found.origin := by
  obtain ⟨before, place, after, hsplit, -, hreport⟩ := (firstAnswer_eq_iff (by simp)).mp h
  have hplace : place ∈ tiers.map placeOf := by simp [hsplit]
  obtain ⟨tier, hmem, rfl⟩ := List.mem_map.mp hplace
  exact ⟨tier, hmem, (Place.report_eq_some_iff.mp hreport).2⟩

end Ends

def ArchivesFirst (classpath : Classpath) : Prop :=
  classpath.tiers.Pairwise fun earlier later => later.origin = .archive → earlier.origin = .archive

section Order

variable {classpath classpath' : Classpath} {tier : Tier} {fault : Fault}

theorem archivesFirst_classpathOf (source : ZipTree) (settings : Settings) :
    (Downgrade.classpathOf source settings).ArchivesFirst := by
  simp [ArchivesFirst, Downgrade.classpathOf, Tier.origin, Tier.ofPaths, RootsKind.origin]

/-- The origins are told from the settled classpath, and the order with them. -/
theorem archivesFirst_of_settled (h : classpath.settled fs = classpath'.settled fs)
    (hfirst : classpath.ArchivesFirst) : classpath'.ArchivesFirst := by
  have horigins : ∀ classpath : Classpath, classpath.tiers.map Tier.origin =
      (classpath.settled fs).tiers.map Tier.origin := by
    intro classpath
    simp only [settled, List.map_map, Function.comp_def, Tier.origin_settled]
  have hsame : classpath.tiers.map Tier.origin = classpath'.tiers.map Tier.origin := by
    rw [horigins, h, ← horigins]
  have hiff : ∀ classpath : Classpath, classpath.ArchivesFirst ↔
      (classpath.tiers.map Tier.origin).Pairwise fun earlier later =>
        later = .archive → earlier = .archive := by
    intro classpath
    rw [ArchivesFirst, List.pairwise_map]
  rw [hiff, hsame] at hfirst
  exact (hiff classpath').mpr hfirst

theorem archivesFirst_performAll (lookups : List Lookup) (h : classpath.ArchivesFirst) :
    (Lookup.performAll fs lookups classpath).2.ArchivesFirst := by
  induction lookups generalizing classpath with
  | nil => exact h
  | cons lookup rest ih =>
    exact ih (archivesFirst_of_settled (Lookup.settled_perform fs lookup classpath).symm h)

/-- With the archives in front, the tiers are the archives followed by the others. -/
theorem tiers_of_archivesFirst (h : classpath.ArchivesFirst) :
    classpath.tiers = classpath.tiers.filter (·.origin = .archive) ++
      classpath.tiers.filter (·.origin ≠ .archive) := by
  obtain ⟨tiers⟩ := classpath
  unfold ArchivesFirst at h
  induction tiers with
  | nil => rfl
  | cons tier rest ih =>
    rw [List.pairwise_cons] at h
    obtain ⟨hlater, hrest⟩ := h
    by_cases harchive : tier.origin = .archive
    · rw [List.filter_cons_of_pos (by simpa using harchive),
        List.filter_cons_of_neg (by simpa using harchive), List.cons_append, ← ih hrest]
    · have hothers : ∀ later ∈ tier :: rest, later.origin ≠ .archive := by
        rw [List.forall_mem_cons]
        exact ⟨harchive, fun later hmem horigin => harchive (hlater later hmem horigin)⟩
      rw [List.filter_eq_nil_iff.mpr (by simpa using hothers),
        List.filter_eq_self.mpr (by simpa using hothers), List.nil_append]

def archivesAnswer (fs : FileSystem) (name : ClassName) (classpath : Classpath) :
    Except Fault (Option ResolvedClass) :=
  firstAnswer fs name ((classpath.tiers.filter (·.origin = .archive)).map placeOf)

def othersAnswer (fs : FileSystem) (name : ClassName) (classpath : Classpath) :
    Except Fault (Option ResolvedClass) :=
  firstAnswer fs name ((classpath.tiers.filter (·.origin ≠ .archive)).map placeOf)

theorem origin_of_archivesAnswer {found : ResolvedClass}
    (h : classpath.archivesAnswer fs name = .ok (some found)) : found.origin = .archive := by
  obtain ⟨tier, hmem, horigin⟩ := origin_of_firstAnswer h
  rw [← horigin]
  exact of_decide_eq_true (List.mem_filter.mp hmem).2

theorem origin_of_othersAnswer {found : ResolvedClass}
    (h : classpath.othersAnswer fs name = .ok (some found)) : found.origin ≠ .archive := by
  obtain ⟨tier, hmem, horigin⟩ := origin_of_firstAnswer h
  rw [← horigin]
  exact of_decide_eq_true (List.mem_filter.mp hmem).2

/-- The other tiers answer when the archives lack the class. -/
theorem fst_resolve_of_archivesFirst (h : classpath.ArchivesFirst) :
    (classpath.resolve fs name).1 =
      if nothing (classpath.archivesAnswer fs name) then classpath.othersAnswer fs name
      else classpath.archivesAnswer fs name := by
  rw [fst_resolve_eq_firstAnswer, tiers_of_archivesFirst h, List.map_append, firstAnswer_append,
    ← nothing_firstAnswer]
  rfl

theorem failsAt_archive_iff (h : classpath.ArchivesFirst) :
    (∃ tier, FailsAt fs name classpath.tiers tier fault ∧ tier.origin = .archive) ↔
      classpath.archivesAnswer fs name = .error fault := by
  rw [archivesAnswer, firstAnswer_map_placeOf_eq_error_iff]
  constructor
  · rintro ⟨tier, hfails, horigin⟩
    rw [tiers_of_archivesFirst h, failsAt_append] at hfails
    rcases hfails with hfails | ⟨-, hfails⟩
    · exact ⟨tier, hfails⟩
    · have hother := (List.mem_filter.mp (mem_of_failsAt hfails)).2
      exact absurd horigin (of_decide_eq_true hother)
  · rintro ⟨tier, hfails⟩
    have harchive := (List.mem_filter.mp (mem_of_failsAt hfails)).2
    refine ⟨tier, ?_, of_decide_eq_true harchive⟩
    rw [tiers_of_archivesFirst h, failsAt_append]
    exact Or.inl hfails

theorem failsAt_other_iff (h : classpath.ArchivesFirst) :
    (∃ tier, FailsAt fs name classpath.tiers tier fault ∧ tier.origin ≠ .archive) ↔
      classpath.archivesAnswer fs name = .ok none ∧
        classpath.othersAnswer fs name = .error fault := by
  rw [archivesAnswer, firstAnswer_map_placeOf_eq_none_iff, othersAnswer,
    firstAnswer_map_placeOf_eq_error_iff]
  constructor
  · rintro ⟨tier, hfails, horigin⟩
    rw [tiers_of_archivesFirst h, failsAt_append] at hfails
    rcases hfails with hfails | ⟨hlack, hfails⟩
    · have harchive := (List.mem_filter.mp (mem_of_failsAt hfails)).2
      exact absurd (of_decide_eq_true harchive) horigin
    · exact ⟨hlack, tier, hfails⟩
  · rintro ⟨hlack, tier, hfails⟩
    have hother := (List.mem_filter.mp (mem_of_failsAt hfails)).2
    refine ⟨tier, ?_, of_decide_eq_true hother⟩
    rw [tiers_of_archivesFirst h, failsAt_append]
    exact Or.inr ⟨hlack, hfails⟩

end Order

/-- With the archives in front, as a run builds its classpath and as lookups leave it, a class is
the project's own exactly when a lookup finds it in an archive. It is not when the lookup finds
nothing, finds it elsewhere or fails in a tier that is no archive; and the test fails as the lookup
does when that fails in an archive. So the test parts from a full lookup only where that fails in a
tier that is no archive. -/
theorem project_test_agrees_with_resolution (fs : FileSystem) (name : ClassName)
    (classpath : Classpath) (h : classpath.ArchivesFirst) :
    ((classpath.isProjectClass fs name).1 = .ok true ↔
        ∃ found, (classpath.resolve fs name).1 = .ok (some found) ∧ found.origin = .archive) ∧
      ((classpath.isProjectClass fs name).1 = .ok false ↔
        (classpath.resolve fs name).1 = .ok none ∨
          (∃ found, (classpath.resolve fs name).1 = .ok (some found) ∧ found.origin ≠ .archive) ∨
          ∃ fault tier, FailsAt fs name classpath.tiers tier fault ∧ tier.origin ≠ .archive) ∧
      (∀ fault, (classpath.isProjectClass fs name).1 = .error fault ↔
        ∃ tier, FailsAt fs name classpath.tiers tier fault ∧ tier.origin = .archive) ∧
      (∀ fault, (classpath.resolve fs name).1 = .error fault ↔
        ∃ tier, FailsAt fs name classpath.tiers tier fault) ∧
      ((classpath.isProjectClass fs name).1 = (classpath.resolvesToProject fs name).1 ∨
        (classpath.isProjectClass fs name).1 = .ok false ∧
          ∃ fault, (classpath.resolvesToProject fs name).1 = .error fault ∧
            ∃ tier, FailsAt fs name classpath.tiers tier fault ∧ tier.origin ≠ .archive) ∧
      (∀ source settings, (Downgrade.classpathOf source settings).ArchivesFirst) ∧
      ∀ lookups, (Lookup.performAll fs lookups classpath).2.ArchivesFirst := by
  have hproject : (classpath.isProjectClass fs name).1 =
      (classpath.archivesAnswer fs name).map Option.isSome := fst_isProjectClass_eq_firstAnswer _
  have hresolve : (classpath.resolve fs name).1 =
      if nothing (classpath.archivesAnswer fs name) then classpath.othersAnswer fs name
      else classpath.archivesAnswer fs name := fst_resolve_of_archivesFirst h
  have hdefault : (classpath.resolvesToProject fs name).1 =
      (classpath.resolve fs name).1.map fun found => found.any (·.origin == .archive) := rfl
  have hfails : ∀ fault, (classpath.resolve fs name).1 = .error fault ↔
      ∃ tier, FailsAt fs name classpath.tiers tier fault := by
    intro fault
    rw [fst_resolve_eq_firstAnswer, firstAnswer_map_placeOf_eq_error_iff]
  have hkept : ∀ lookups, (Lookup.performAll fs lookups classpath).2.ArchivesFirst :=
    fun lookups => archivesFirst_performAll lookups h
  simp only [failsAt_archive_iff h, failsAt_other_iff h, hdefault]
  -- The archives decide unless they lack the class; then the other tiers do.
  rcases hfirst : classpath.archivesAnswer fs name with fault | _ | found
  · have hboth : (classpath.resolve fs name).1 = .error fault := by simp [hresolve, hfirst, nothing]
    refine ⟨?_, ?_, ?_, hfails, ?_, archivesFirst_classpathOf, hkept⟩ <;>
      simp [hproject, hfirst, hboth, Except.map]
  · have hnot : (classpath.isProjectClass fs name).1 = .ok false := by
      simp [hproject, hfirst, Except.map]
    have hlater : (classpath.resolve fs name).1 = classpath.othersAnswer fs name := by
      simp [hresolve, hfirst, nothing]
    rcases hsecond : classpath.othersAnswer fs name with fault | _ | found
    · refine ⟨?_, ?_, ?_, hfails, ?_, archivesFirst_classpathOf, hkept⟩ <;>
        simp [hnot, hlater, hsecond, Except.map]
    · refine ⟨?_, ?_, ?_, hfails, ?_, archivesFirst_classpathOf, hkept⟩ <;>
        simp [hnot, hlater, hsecond, Except.map]
    · have horigin := origin_of_othersAnswer hsecond
      refine ⟨?_, ?_, ?_, hfails, ?_, archivesFirst_classpathOf, hkept⟩ <;>
        simp [hnot, hlater, hsecond, horigin, Except.map]
  · have horigin := origin_of_archivesAnswer hfirst
    have hfound : (classpath.resolve fs name).1 = .ok (some found) := by
      simp [hresolve, hfirst, nothing]
    refine ⟨?_, ?_, ?_, hfails, ?_, archivesFirst_classpathOf, hkept⟩ <;>
      simp [hproject, hfirst, hfound, horigin, Except.map]

def unreachableStore : Tier := .custom .classpath "store".toList fun _ _ => .error (.io .other)

def jarBeforeStore : Classpath :=
  ⟨[.archive (MemoryTree.archive ⟨"app.jar".toList, [(⟨"A.class".toList⟩, .file [1])], true⟩),
    unreachableStore]⟩

/-- A class that the jar lacks is not the project's, though looking it up fails. -/
theorem project_test_before_unreachable_store :
    let name : ClassName := ⟨['B'], by decide, by decide, by decide⟩
    jarBeforeStore.ArchivesFirst ∧ (jarBeforeStore.isProjectClass ⟨[], []⟩ name).1 = .ok false ∧
      (jarBeforeStore.resolve ⟨[], []⟩ name).1 = .error (.io .other) := by
  intro name
  have hfirst : jarBeforeStore.ArchivesFirst := by
    simp [ArchivesFirst, jarBeforeStore, Tier.origin]
  have hstore : FailsAt ⟨[], []⟩ name jarBeforeStore.tiers unreachableStore (.io .other) := by
    refine ⟨jarBeforeStore.tiers.take 1, [], rfl, ?_, rfl⟩
    intro other hother
    rw [List.mem_singleton.mp hother]
    rfl
  have hagree := project_test_agrees_with_resolution ⟨[], []⟩ name jarBeforeStore hfirst
  refine ⟨hfirst, hagree.2.1.mpr ?_, (hagree.2.2.2.1 _).mpr ⟨_, hstore⟩⟩
  exact Or.inr (Or.inr ⟨_, _, hstore, by decide⟩)

end Retarget.Classpath

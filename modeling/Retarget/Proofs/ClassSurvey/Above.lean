import Retarget.Proofs.Archive.Uses

/-!
How many classes are above a version. A survey's histogram counts the versions of the classes
outside the overlays, one for each entry with a header, so what it counts from a version on is what
the entries have from it on. Above a version is from the next one on; the last version has no next
one and is counted as above itself, which is the one case where the count is not what it is said to
be.
-/
namespace Retarget.ClassSurvey

variable {fs : FileSystem} {source : Archive} {entries : List ArchiveEntry} {survey : ClassSurvey}

/-- The versions of the classes outside the overlays that have a header, entry by entry. -/
def classVersions (content : EntryPath → Option Bytes) (entries : List ArchiveEntry) :
    List UInt16 :=
  entries.filterMap (classVersion? content)

/-- The versions of the classes in the overlays that have a header, entry by entry. -/
def overlayVersions (content : EntryPath → Option Bytes) (entries : List ArchiveEntry) :
    List UInt16 :=
  entries.filterMap (overlayVersion? content)

theorem countP_filterMap_any {α β : Type} (p : β → Bool) (f : α → Option β) (l : List α) :
    (l.filterMap f).countP p = l.countP fun a => (f a).any p := by
  rw [List.countP_filterMap]
  congr 1
  funext a
  cases f a <;> rfl

theorem counted_eq (content : EntryPath → Option Bytes) (entries : List ArchiveEntry) :
    counted content entries =
      { classes := .ofVersions (classVersions content entries)
        overlayClasses := .ofVersions (overlayVersions content entries)
        malformed := entries.filterMap (malformed? content) } := by
  rw [counted, foldl_count]
  rfl

/-- A survey that was made counts what the archive lists, with what can be read. -/
theorem eq_counted_of_ofArchive (hlist : source.list fs = .ok entries)
    (h : ofArchive fs source = .ok survey) :
    survey = counted (source.contentAt fs) entries := by
  simp only [ofArchive, hlist, countAll_eq_ok_iff] at h
  exact h.2

theorem toNat_nextVersion (version : UInt16) :
    (nextVersion version).toNat = min (version.toNat + 1) 65535 := by
  have hbound := version.toNat_lt
  unfold nextVersion
  split
  · next h =>
    subst h
    rfl
  · next h =>
    have hlast : version.toNat ≠ 65535 := fun heq => h (UInt16.toNat_inj.mp heq)
    rw [UInt16.toNat_add, UInt16.toNat_one]
    omega

/-- The next version is the least above a version, if there is any. -/
theorem nextVersion_le_iff {target version : UInt16} (h : target ≠ 65535) :
    nextVersion target ≤ version ↔ target < version := by
  have hlast : target.toNat ≠ 65535 := fun heq => h (UInt16.toNat_inj.mp heq)
  have hbound := target.toNat_lt
  rw [UInt16.le_iff_toNat_le, UInt16.lt_iff_toNat_lt, toNat_nextVersion]
  omega

theorem nextVersion_last_le_iff {version : UInt16} :
    nextVersion 65535 ≤ version ↔ version = 65535 := by
  have hlast : (65535 : UInt16).toNat = 65535 := rfl
  have hbound := version.toNat_lt
  rw [UInt16.le_iff_toNat_le, toNat_nextVersion, ← UInt16.toNat_inj]
  omega

theorem nextVersion_le_nextVersion {a b : UInt16} (h : a ≤ b) : nextVersion a ≤ nextVersion b := by
  rw [UInt16.le_iff_toNat_le] at h ⊢
  rw [toNat_nextVersion, toNat_nextVersion]
  omega

section Counted

variable {content : EntryPath → Option Bytes}

/-- What is counted above a version are the entries with the next version or a later one. -/
theorem above_counted (target : UInt16) : (counted content entries).above target =
    (classVersions content entries).countP (nextVersion target ≤ ·) := by
  rw [counted_eq]
  exact Histogram.countWhere_ofVersions (nextVersion target ≤ ·) _

theorem highest?_counted_eq_some {version : UInt16}
    (h : (counted content entries).highest? = some version) :
    version ∈ classVersions content entries ∧
      ∀ v ∈ classVersions content entries, v ≤ version := by
  have hhighest := Histogram.highest_ofVersions (classVersions content entries)
  rw [counted_eq, highest?] at h
  obtain ⟨last, hlast, rfl⟩ := Option.map_eq_some_iff.mp h
  rw [hlast] at hhighest
  exact hhighest

theorem highest?_counted_eq_none (h : (counted content entries).highest? = none) :
    classVersions content entries = [] := by
  have hhighest := Histogram.highest_ofVersions (classVersions content entries)
  rw [counted_eq, highest?] at h
  rw [Option.map_eq_none_iff.mp h] at hhighest
  exact hhighest

/-- Nothing is counted from a version on exactly when the highest version is below it. -/
theorem above_counted_eq_zero_iff (target : UInt16) :
    (counted content entries).above target = 0 ↔
      ∀ version, (counted content entries).highest? = some version →
        ¬nextVersion target ≤ version := by
  rw [above_counted, List.countP_eq_zero]
  simp only [decide_eq_true_eq]
  cases hhighest : (counted content entries).highest? with
  | none => simp [highest?_counted_eq_none hhighest]
  | some highest =>
    obtain ⟨hmem, hmax⟩ := highest?_counted_eq_some hhighest
    simp only [Option.some.injEq, forall_eq']
    constructor
    · exact fun h => h highest hmem
    · intro h version hversion hle
      exact h (UInt16.le_trans hle (hmax version hversion))

end Counted

/-- Classes above a version are counted, for every version but the last. A survey's count above a
version is the number of entries that are classes outside the overlays with a header and a higher
version, and is zero exactly when the highest version is absent or not above it. Above the last
version there is nothing; but what is counted there are the classes of that version itself, so the
count is zero exactly when there are none. Above a higher version no more is counted. -/
theorem above_counts_higher_unless_last (hlist : source.list fs = .ok entries)
    (h : ofArchive fs source = .ok survey) :
    (∀ target, target ≠ 65535 →
      survey.above target =
        entries.countP (fun entry =>
          (classVersion? (source.contentAt fs) entry).any (target < ·)) ∧
      (survey.above target = 0 ↔ ∀ version, survey.highest? = some version → version ≤ target)) ∧
    (survey.above 65535 =
        entries.countP (fun entry =>
          (classVersion? (source.contentAt fs) entry).any (· = 65535)) ∧
      (survey.above 65535 = 0 ↔ survey.highest? ≠ some 65535)) ∧
    ∀ lower higher, lower ≤ higher → survey.above higher ≤ survey.above lower := by
  cases eq_counted_of_ofArchive hlist h
  refine ⟨fun target htarget => ⟨?_, ?_⟩, ⟨?_, ?_⟩, fun lower higher hle => ?_⟩
  · rw [above_counted, classVersions, countP_filterMap_any]
    simp only [nextVersion_le_iff htarget]
  · rw [above_counted_eq_zero_iff]
    simp only [nextVersion_le_iff htarget, UInt16.not_lt]
  · rw [above_counted, classVersions, countP_filterMap_any]
    simp only [nextVersion_last_le_iff]
  · rw [above_counted_eq_zero_iff]
    simp only [nextVersion_last_le_iff]
    constructor
    · exact fun hnone hlast => hnone 65535 hlast rfl
    · rintro hne version hversion rfl
      exact hne hversion
  · rw [above_counted, above_counted]
    apply List.countP_mono_left
    intro version _ hversion
    rw [decide_eq_true_eq] at hversion ⊢
    exact UInt16.le_trans (nextVersion_le_nextVersion hle) hversion

/-- Of classes of the versions 50, 53 and 61, and an overlay class, two are above 52 and none is
above 61. -/
theorem above_counts_higher_unless_last_threeVersions :
    Walk.threeVersions.archive.list ⟨[], []⟩ = .ok Walk.threeVersions.list ∧
      ∃ survey, ofArchive ⟨[], []⟩ Walk.threeVersions.archive = .ok survey ∧
        survey.highest? = some 61 ∧ survey.above 61 = 0 ∧ survey.above 65535 = 0 ∧
        Walk.threeVersions.list.countP (fun entry =>
          (classVersion? (Walk.threeVersions.archive.contentAt ⟨[], []⟩) entry).any (52 < ·)) =
            2 := by
  have hsurvey := ofArchive_threeVersions ⟨[], []⟩
  obtain ⟨hhigher, ⟨-, hlast⟩, -⟩ := above_counts_higher_unless_last rfl hsurvey
  have hhighest : (⟨[(50, 1), (53, 1), (61, 1)], [(61, 1)], []⟩ : ClassSurvey).highest? = some 61 :=
    rfl
  refine ⟨rfl, _, hsurvey, hhighest, ?_, ?_, ?_⟩
  · exact (hhigher 61 (by decide)).2.mpr (by simp [hhighest])
  · exact hlast.mpr (by simp [hhighest])
  · rw [← (hhigher 52 (by decide)).1]
    decide

def lastVersion : MemoryTree :=
  ⟨"old".toList, [(⟨"A.class".toList⟩, .file (ClassFile.withHeader ⟨65535, 0⟩ []))], false⟩

/-- A class of the last version is counted as above that version, which it is not. -/
theorem last_version_above_itself :
    ∃ survey, ofArchive ⟨[], []⟩ lastVersion.archive = .ok survey ∧
      survey.highest? = some 65535 ∧ survey.above 65535 = 1 ∧
      lastVersion.list.countP (fun entry =>
        (classVersion? (lastVersion.archive.contentAt ⟨[], []⟩) entry).any (65535 < ·)) = 0 :=
  ⟨⟨[(65535, 1)], [], []⟩, by rfl, by rfl, by decide, by decide⟩

end Retarget.ClassSurvey

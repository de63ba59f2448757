import Retarget.Proofs.ClassSurvey.Histogram
import Retarget.Proofs.Walk.Stamping

/-!
Verifying, stamping and surveying look at the same classes. What the verifying engine lets through
is what the stamping engine leaves unchanged; and that is what a survey says of an archive whose
versions are not above the target and where only overlays hold malformed classes. Each of the three
is settled entry by entry, so one entry decides for all of them alike.
-/
namespace Retarget

def WalkPlan.verifying (plan : WalkPlan) (target : UInt16) : WalkPlan :=
  { plan with engine := Engine.verify, target := target }

namespace Walk

section Verify

variable {source : Archive} {target : UInt16} {world : World} {entry : ArchiveEntry} {image : Image}

/-- What is answered of a class that is verified is answered of it when it is stamped and not
changed. -/
theorem run_verify_eq_ok_iff {request : TransformRequest} {output : TransformOutput} :
    ((Engine.verify request).run world).1 = .ok output ↔
      ((Engine.stamp request).run world).1 = .ok output ∧ output.result = .unchanged := by
  obtain ⟨name, bytes, target⟩ := request
  cases hversion : ClassFile.version? bytes with
  | none =>
    rw [run_stamp_of_none hversion]
    simp [Engine.verify, Engine.ofVerdict, Engine.verifyVerdict, Dialogue.run, hversion]
  | some version =>
    rw [run_stamp_of_version hversion]
    by_cases hle : version.major ≤ target
    · simp only [Engine.verify, Engine.ofVerdict, Engine.verifyVerdict, Dialogue.run, hversion, hle,
        if_true, Except.ok.injEq, iff_self_and]
      rintro rfl
      rfl
    · simp only [Engine.verify, Engine.ofVerdict, Engine.verifyVerdict, Dialogue.run, hversion, hle,
        if_false, reduceCtorEq, Except.ok.injEq, false_iff, not_and]
      rintro rfl
      simp

/-- What becomes of an entry that is verified is what becomes of it when it is stamped and not
changed. -/
theorem becomes_verify_iff :
    Becomes source Engine.verify target world entry image ↔
      Becomes source Engine.stamp target world entry image ∧ image.changed? ≠ some true := by
  constructor
  · intro h
    cases h with
    | directory role => exact ⟨.directory role, by simp⟩
    | copy role read => exact ⟨.copy role read, by simp⟩
    | unchanged role read answer =>
      exact ⟨.unchanged role read (run_verify_eq_ok_iff.mp answer).1, by simp⟩
    | changed role read answer => cases (run_verify_eq_ok_iff.mp answer).2
  · rintro ⟨h, hunchanged⟩
    cases h with
    | directory role => exact .directory role
    | copy role read => exact .copy role read
    | unchanged role read answer =>
      exact .unchanged role read (run_verify_eq_ok_iff.mpr ⟨answer, rfl⟩)
    | changed role read answer => exact absurd rfl hunchanged

variable {entries : List ArchiveEntry} {images : List Image}

theorem forall₂_verify_iff :
    List.Forall₂ (Becomes source Engine.verify target world) entries images ↔
      List.Forall₂ (Becomes source Engine.stamp target world) entries images ∧
        ∀ image ∈ images, image.changed? ≠ some true := by
  constructor
  · intro h
    refine ⟨h.imp fun _ _ hbecomes => (becomes_verify_iff.mp hbecomes).1, fun image himage => ?_⟩
    obtain ⟨entry, _, hbecomes⟩ := exists_of_mem_left h.flip himage
    exact (becomes_verify_iff.mp hbecomes).2
  · rintro ⟨h, hunchanged⟩
    induction h with
    | nil => exact .nil
    | cons hfirst _ ih =>
      obtain ⟨hhere, hlater⟩ := List.forall_mem_cons.mp hunchanged
      exact .cons (becomes_verify_iff.mpr ⟨hfirst, hhere⟩) (ih hlater)

variable {plan : WalkPlan} {s : Session MemoryTree} {counts : EntryCounts} {tree : MemoryTree}

theorem leavesFiles_verifying (plan : WalkPlan) (target : UInt16) (request : TransformRequest) :
    ((plan.verifying target).engine request).LeavesFiles := trivial

/-- A walk that verifies makes what a walk that stamps and changes no class makes. -/
theorem makes_verifying_iff (hschedule : ∀ jobs, (plan.schedule jobs).Perm jobs) (hfresh : Fresh s)
    (hlist : source.list s.world.disk.files = .ok entries)
    (hnodup : (entries.map ArchiveEntry.path).Nodup) (hlength : entries.length < UInt64.size) :
    Makes source (plan.verifying target) s counts tree ↔
      Makes source (plan.stamping target) s counts tree ∧ counts.changedClasses = 0 := by
  rw [makes_iff (leavesFiles_verifying plan target) hschedule hfresh hlist hnodup,
    makes_iff (leavesFiles_stamping plan target) hschedule hfresh hlist hnodup]
  constructor
  · rintro ⟨images, himages, rfl, rfl⟩
    obtain ⟨hstamp, hunchanged⟩ := forall₂_verify_iff.mp himages
    exact ⟨⟨images, hstamp, rfl, rfl⟩, changedClasses_tally_eq_zero hunchanged⟩
  · rintro ⟨⟨images, himages, rfl, rfl⟩, hzero⟩
    have hfits : images.length < UInt64.size := himages.length_eq ▸ hlength
    exact ⟨images, forall₂_verify_iff.mpr
      ⟨himages, changed?_ne_of_changedClasses_eq_zero hfits hzero⟩, rfl, rfl⟩

end Verify

end Walk

theorem ArchiveEntry.isOverlay_of_role {entry : ArchiveEntry} (h : entry.role = .overlayClass) :
    entry.path.isOverlay = true := by
  unfold role at h
  split at h
  · cases h
  · split at h
    · cases h
    · split at h
      · assumption
      · split at h <;> cases h

theorem ArchiveEntry.isOverlay_of_role_classFile {entry : ArchiveEntry} {name : ClassName}
    (h : entry.role = .classFile name) : entry.path.isOverlay = false := by
  unfold role at h
  split at h
  · cases h
  · split at h
    · cases h
    · split at h
      · cases h
      · next hpath => exact Bool.eq_false_iff.mpr hpath

namespace ClassSurvey

variable {survey : ClassSurvey} {target : UInt16} {entry : ArchiveEntry} {bytes : Bytes}

/-- No class outside the overlays is above the target, and none there is malformed. -/
structure Within (target : UInt16) (survey : ClassSurvey) : Prop where
  versions : ∀ bar ∈ survey.classes, bar.1 ≤ target
  malformed : ∀ path ∈ survey.malformed, path.isOverlay = true

/-- Counting an entry stays within the target unless it is a class with no header or with a version
above the target. -/
theorem within_count_iff :
    (survey.count entry bytes).Within target ↔ survey.Within target ∧
      ∀ name, entry.role = .classFile name →
        ∃ version, ClassFile.version? bytes = some version ∧ version.major ≤ target := by
  unfold count
  cases hrole : entry.role with
  | directory => simp
  | resource => simp
  | overlayClass =>
    have hoverlay := ArchiveEntry.isOverlay_of_role hrole
    cases ClassFile.version? bytes with
    | none =>
      simp only [reduceCtorEq, false_implies, implies_true, and_true]
      refine ⟨fun h => ⟨h.versions, fun path hpath => h.malformed path (by simp [hpath])⟩,
        fun h => ⟨h.versions, fun path hpath => ?_⟩⟩
      rcases List.mem_append.mp hpath with hbefore | hhere
      · exact h.malformed path hbefore
      · exact List.mem_singleton.mp hhere ▸ hoverlay
    | some version =>
      simp only [reduceCtorEq, false_implies, implies_true, and_true]
      exact ⟨fun h => ⟨h.versions, h.malformed⟩, fun h => ⟨h.versions, h.malformed⟩⟩
  | classFile name =>
    have houtside := ArchiveEntry.isOverlay_of_role_classFile hrole
    cases ClassFile.version? bytes with
    | none =>
      simp only [EntryRole.classFile.injEq, forall_eq', reduceCtorEq, false_and, exists_false,
        and_false, iff_false]
      intro h
      have hoverlay := h.malformed entry.path (by simp)
      rw [houtside] at hoverlay
      cases hoverlay
    | some version =>
      simp only [EntryRole.classFile.injEq, forall_eq', Option.some.injEq, exists_eq_left']
      have hversions := Histogram.forall_versions_add (h := survey.classes) (v := version.major)
        (p := (· ≤ target))
      constructor
      · intro h
        obtain ⟨hhere, hbefore⟩ := hversions.mp h.versions
        exact ⟨⟨hbefore, h.malformed⟩, hhere⟩
      · rintro ⟨h, hhere⟩
        exact ⟨hversions.mpr ⟨hhere, h.versions⟩, h.malformed⟩

/-- An entry that a survey gets over: its bytes can be asked for if it is a class, and outside the
overlays it has a header with a version that is not above the target. -/
def Conforms (source : Archive) (fs : FileSystem) (target : UInt16) (entry : ArchiveEntry) : Prop :=
  isClass entry = true → ∃ bytes?, source.read fs entry.path = .ok bytes? ∧
    ∀ name, entry.role = .classFile name →
      ∃ version, ClassFile.version? (bytes?.getD []) = some version ∧ version.major ≤ target

variable {source : Archive} {fs : FileSystem} {entries : List ArchiveEntry}

theorem conforms_iff (hclass : isClass entry = true) :
    Conforms source fs target entry ↔ ∃ bytes?, source.read fs entry.path = .ok bytes? ∧
      ∀ name, entry.role = .classFile name →
        ∃ version, ClassFile.version? (bytes?.getD []) = some version ∧ version.major ≤ target := by
  rw [Conforms, forall_prop_of_true hclass]

/-- An entry of another kind than a class is not counted. -/
theorem count_of_not_isClass (h : isClass entry = false) : survey.count entry bytes = survey := by
  unfold isClass at h
  unfold count
  split <;> simp_all

/-- A survey stays within the target exactly when it starts so and every entry conforms. -/
theorem countAll_within_iff :
    (∃ survey', countAll fs source survey entries = .ok survey' ∧ survey'.Within target) ↔
      survey.Within target ∧ ∀ entry ∈ entries, Conforms source fs target entry := by
  induction entries generalizing survey with
  | nil => simp [countAll]
  | cons first rest ih =>
    rw [List.forall_mem_cons, countAll]
    cases hclass : isClass first with
    | false =>
      have hconforms : Conforms source fs target first := fun h => by simp [hclass] at h
      simp only [Bool.false_eq_true, if_false, ih, hconforms, true_and]
    | true =>
      rw [if_pos rfl, conforms_iff hclass]
      cases hread : source.read fs first.path with
      | error fault => simp
      | ok bytes? =>
        simp only [ih, within_count_iff, Except.ok.injEq, exists_eq_left', and_assoc]

/-- An archive's survey is within the target exactly when all that it lists conforms. -/
theorem ofArchive_within_iff (hlist : source.list fs = .ok entries) :
    (∃ survey, ofArchive fs source = .ok survey ∧ survey.Within target) ↔
      ∀ entry ∈ entries, Conforms source fs target entry := by
  have hempty : ({} : ClassSurvey).Within target := ⟨by simp, by simp⟩
  simp only [ofArchive, hlist, countAll_within_iff, hempty, true_and]

/-- An entry can be verified exactly when it conforms and, if its bytes are only copied, it can be
read. -/
theorem exists_becomes_verify_iff {world : World} :
    (∃ image, Walk.Becomes source Engine.verify target world entry image) ↔
      (entry.role = .resource ∨ entry.role = .overlayClass →
        ∃ bytes, source.read world.disk.files entry.path = .ok (some bytes)) ∧
      Conforms source world.disk.files target entry := by
  cases hrole : entry.role with
  | directory =>
    refine iff_of_true ⟨_, .directory hrole⟩ ⟨by simp, fun hclass => ?_⟩
    simp [isClass, hrole] at hclass
  | resource =>
    constructor
    · rintro ⟨image, h⟩
      refine ⟨fun _ => h.exists_read (by simp [hrole]), fun hclass => ?_⟩
      simp [isClass, hrole] at hclass
    · rintro ⟨hread, _⟩
      obtain ⟨bytes, hread⟩ := hread (Or.inl rfl)
      exact ⟨_, .copy (Or.inl hrole) hread⟩
  | overlayClass =>
    constructor
    · rintro ⟨image, h⟩
      obtain ⟨bytes, hread⟩ := h.exists_read (by simp [hrole])
      exact ⟨fun _ => ⟨bytes, hread⟩, fun _ => ⟨some bytes, hread, fun name hname => by
        simp [hrole] at hname⟩⟩
    · rintro ⟨hread, _⟩
      obtain ⟨bytes, hread⟩ := hread (Or.inr rfl)
      exact ⟨_, .copy (Or.inr hrole) hread⟩
  | classFile name =>
    constructor
    · rintro ⟨image, h⟩
      obtain ⟨bytes, hread⟩ := h.exists_read (by simp [hrole])
      obtain ⟨hstamp, hunchanged⟩ := Walk.becomes_verify_iff.mp h
      obtain ⟨version, hversion, rfl⟩ := (Walk.becomes_stamp_iff hrole hread).mp hstamp
      exact ⟨by simp, fun _ => ⟨some bytes, hread, fun _ _ =>
        ⟨version, hversion, by simpa using hunchanged⟩⟩⟩
    · rintro ⟨_, hconforms⟩
      obtain ⟨bytes?, hread, hheader⟩ := hconforms (by simp [isClass, hrole])
      obtain ⟨version, hversion, hle⟩ := hheader name hrole
      cases bytes? with
      | none => cases hversion
      | some bytes =>
        exact ⟨_, Walk.becomes_verify_iff.mpr
          ⟨(Walk.becomes_stamp_iff hrole hread).mpr ⟨version, hversion, rfl⟩, by simpa using hle⟩⟩

theorem kind_eq_file_of_isClass (h : isClass entry = true) : entry.kind = .file := by
  refine Walk.kind_eq_file fun hrole => ?_
  simp [isClass, hrole] at h

/-- Where every file can be read, a survey counts what the entries contain. -/
theorem countAll_of_read (hread : ∀ entry ∈ entries, entry.kind = .file →
      source.read fs entry.path = .ok (some (source.content fs entry))) :
    countAll fs source survey entries =
      .ok (entries.foldl (fun s e => s.count e (source.content fs e)) survey) := by
  induction entries generalizing survey with
  | nil => rfl
  | cons first rest ih =>
    obtain ⟨hfirst, hrest⟩ := List.forall_mem_cons.mp hread
    rw [countAll, List.foldl_cons]
    cases hclass : isClass first with
    | false =>
      rw [if_neg Bool.false_ne_true, count_of_not_isClass hclass]
      exact ih hrest
    | true =>
      rw [if_pos rfl, hfirst (kind_eq_file_of_isClass hclass)]
      exact ih hrest

theorem ofArchive_of_holds (h : source.Holds fs entries) : ofArchive fs source =
    .ok (entries.foldl (fun s e => s.count e (source.content fs e)) {}) := by
  rw [ofArchive, h.list_eq]
  exact countAll_of_read fun entry hentry hkind => h.read_eq hentry hkind

/-- The survey with the versions above the target counted as the target's, but for the overlays. -/
def merged (target : UInt16) (survey : ClassSurvey) : ClassSurvey :=
  { survey with classes := survey.classes.merged target }

theorem ascending_count (h : survey.classes.Ascending) :
    (survey.count entry bytes).classes.Ascending := by
  unfold count
  split
  · exact h
  · exact h
  · split <;> exact h
  · split
    · exact h.add _
    · exact h

/-- A stamped class is counted under the version that it was lowered to. -/
theorem merged_count (h : survey.classes.Ascending) :
    (survey.count entry bytes).merged target = (survey.merged target).count entry
      (((Walk.stampedNode target entry bytes).content?).getD []) := by
  unfold count Walk.stampedNode
  cases entry.role with
  | directory => rfl
  | resource => rfl
  | overlayClass =>
    simp only [Node.content?, Option.getD_some]
    cases ClassFile.version? bytes <;> rfl
  | classFile name =>
    simp only [Node.content?, Option.getD_some, ClassFile.version?_lowered]
    cases ClassFile.version? bytes with
    | none => rfl
    | some version =>
      simp only [Option.map_some, merged, Histogram.merged_add h, ClassVersion.lowered]
      split <;> rfl

theorem merged_foldl_count (h : survey.classes.Ascending) (content : ArchiveEntry → Bytes) :
    (entries.foldl (fun s e => s.count e (content e)) survey).merged target =
      entries.foldl (fun s e => s.count e
        (((Walk.stampedNode target e (content e)).content?).getD [])) (survey.merged target) := by
  induction entries generalizing survey with
  | nil => rfl
  | cons first rest ih =>
    rw [List.foldl_cons, List.foldl_cons, ih (ascending_count h), merged_count h]

section Agreement

open Walk

variable {plan : WalkPlan} {s : Session MemoryTree} {counts : EntryCounts} {tree : MemoryTree}

/-- A walk that verifies ends well exactly when all that is only copied can be read and the survey
is within the target. -/
theorem exists_makes_verifying_iff (hschedule : ∀ jobs, (plan.schedule jobs).Perm jobs)
    (hfresh : Fresh s) (hlist : source.list s.world.disk.files = .ok entries)
    (hnodup : (entries.map ArchiveEntry.path).Nodup) :
    (∃ counts tree, Makes source (plan.verifying target) s counts tree) ↔
      (∀ entry ∈ entries, entry.role = .resource ∨ entry.role = .overlayClass →
        ∃ bytes, source.read s.world.disk.files entry.path = .ok (some bytes)) ∧
      ∃ survey, ofArchive s.world.disk.files source = .ok survey ∧ survey.Within target := by
  rw [exists_makes_iff (leavesFiles_verifying plan target) hschedule hfresh hlist hnodup,
    ofArchive_within_iff hlist, ← forall₂_and]
  exact forall₂_congr fun entry _ => exists_becomes_verify_iff

/-- A stamped tree's survey is its source's, merged at the target. -/
theorem ofArchive_of_makes_stamping (hschedule : ∀ jobs, (plan.schedule jobs).Perm jobs)
    (hfresh : Fresh s) (hholds : source.Holds s.world.disk.files entries)
    (h : Makes source (plan.stamping target) s counts tree) :
    ∃ survey, ofArchive s.world.disk.files source = .ok survey ∧
      ∀ fs, ofArchive fs tree.archive = .ok (survey.merged target) := by
  refine ⟨_, ofArchive_of_holds hholds, fun fs => ?_⟩
  obtain ⟨_, hheld⟩ :=
    holds_of_makes (leavesFiles_stamping plan target) hschedule hfresh hholds h fs
  have hempty : ({} : ClassSurvey).classes.Ascending := List.Pairwise.nil
  rw [ofArchive_of_holds hheld, merged_foldl_count hempty]
  refine congrArg Except.ok (List.foldl_ext _ _ _ fun survey entry hentry => ?_)
  rw [content_of_makes_stamping hschedule hfresh hholds h hentry fs]

/-- Verifying, stamping and surveying agree. A walk that verifies ends well exactly when one that
stamps does and changes no class, and exactly when the survey has no version above the target
outside the overlays and no malformed class there, all that is only copied being readable. What a
walk that stamps has made can be verified, and its survey is the source's with all versions above
the target counted as the target's. -/
theorem verify_stamp_survey_agree (source : Archive) {plan : WalkPlan}
    (hschedule : ∀ jobs, (plan.schedule jobs).Perm jobs) {s : Session MemoryTree} (hfresh : Fresh s)
    {entries : List ArchiveEntry} (hlist : source.list s.world.disk.files = .ok entries)
    (hnodup : (entries.map ArchiveEntry.path).Nodup) (hlength : entries.length < UInt64.size)
    (target : UInt16) :
    ((∃ counts tree, Makes source (plan.verifying target) s counts tree) ↔
      ∃ counts tree, Makes source (plan.stamping target) s counts tree ∧
        counts.changedClasses = 0) ∧
    ((∃ counts tree, Makes source (plan.verifying target) s counts tree) ↔
      (∀ entry ∈ entries, entry.role = .resource ∨ entry.role = .overlayClass →
        ∃ bytes, source.read s.world.disk.files entry.path = .ok (some bytes)) ∧
      ∃ survey, ofArchive s.world.disk.files source = .ok survey ∧ survey.Within target) ∧
    ∀ counts tree, Makes source (plan.stamping target) s counts tree →
      (∀ later, Fresh later →
        ∃ counts' tree', Makes tree.archive (plan.verifying target) later counts' tree') ∧
      ∃ survey, ofArchive s.world.disk.files source = .ok survey ∧
        ∀ fs, ofArchive fs tree.archive = .ok (survey.merged target) := by
  refine ⟨?_, exists_makes_verifying_iff hschedule hfresh hlist hnodup, fun counts tree h => ?_⟩
  · exact exists₂_congr fun counts tree =>
      makes_verifying_iff hschedule hfresh hlist hnodup hlength
  · have hholds := h.holds (leavesFiles_stamping plan target) hschedule hfresh hlist hnodup
    refine ⟨fun later hlater => ?_, ofArchive_of_makes_stamping hschedule hfresh hholds h⟩
    obtain ⟨_, hheld⟩ := holds_of_makes (leavesFiles_stamping plan target) hschedule hfresh hholds h
      later.world.disk.files
    obtain ⟨counts', tree', h'⟩ := (exists_makes_stamping_iff target hschedule hlater
      hheld.list_eq hheld.nodup).mpr fun entry hentry =>
        sound_of_makes_stamping hschedule hfresh hholds h hentry later.world.disk.files
    have hzero := changedClasses_of_makes_stamping hschedule hfresh hholds h (UInt16.le_refl target)
      hlater h'
    exact ⟨counts', tree', (makes_verifying_iff hschedule hlater hheld.list_eq hheld.nodup
      hlength).mpr ⟨h', hzero⟩⟩

theorem ofArchive_threeVersions (fs : FileSystem) :
    ofArchive fs threeVersions.archive = .ok ⟨[(50, 1), (53, 1), (61, 1)], [(61, 1)], []⟩ := by
  rfl

/-- The three versions are refused at 52, and not any more once they are stamped. -/
theorem verify_stamp_survey_agree_threeVersions :
    (∀ jobs, (backwards.schedule jobs).Perm jobs) ∧ Fresh beginning ∧
      threeVersions.archive.list beginning.world.disk.files = .ok threeVersions.list ∧
      (threeVersions.list.map ArchiveEntry.path).Nodup ∧
      threeVersions.list.length < UInt64.size ∧
      (¬∃ counts tree, Makes threeVersions.archive (backwards.verifying 52) beginning counts tree) ∧
      ∃ counts tree, Makes threeVersions.archive (backwards.stamping 52) beginning counts tree ∧
        (∃ counts' tree', Makes tree.archive (backwards.verifying 52) beginning counts' tree') ∧
        ∀ fs, ofArchive fs tree.archive = .ok ⟨[(50, 1), (52, 2)], [(61, 1)], []⟩ := by
  have hschedule : ∀ jobs, (backwards.schedule jobs).Perm jobs := List.reverse_perm
  have hfresh : Fresh beginning := ⟨rfl, rfl⟩
  have hnodup : (threeVersions.list.map ArchiveEntry.path).Nodup := by decide
  have hlength : threeVersions.list.length < UInt64.size := by decide
  refine ⟨hschedule, hfresh, rfl, hnodup, hlength, ?_⟩
  obtain ⟨_, hsurvey, hstamped⟩ := verify_stamp_survey_agree threeVersions.archive hschedule hfresh
    rfl hnodup hlength 52
  constructor
  · rw [hsurvey]
    rintro ⟨_, survey, hmade, hwithin⟩
    cases (ofArchive_threeVersions _).symm.trans hmade
    exact absurd (hwithin.versions (61, 1) (by simp)) (by decide)
  · obtain ⟨counts, tree, h⟩ :=
      (exists_makes_stamping_iff 52 hschedule hfresh rfl hnodup).mpr (sound_threeVersions _)
    obtain ⟨hverified, survey, hmade, hmerged⟩ := hstamped counts tree h
    cases (ofArchive_threeVersions _).symm.trans hmade
    exact ⟨counts, tree, h, hverified beginning hfresh, hmerged⟩

/-- A survey passes over resources, so it may be within the target where no walk can end well. -/
theorem damaged_resource_parts_survey :
    ¬∀ (fs : FileSystem) (path : Path) (zip : ZipTree) (plan : WalkPlan) (s : Session MemoryTree)
        (target : UInt16),
      ZipTree.open fs path = .ok zip → (∀ jobs, (plan.schedule jobs).Perm jobs) → Fresh s →
      ((∃ counts tree, Makes zip.archive (plan.verifying target) s counts tree) ↔
        ∃ survey, ofArchive s.world.disk.files zip.archive = .ok survey ∧
          survey.Within target) := by
  intro hsurvey
  have hschedule : ∀ jobs, (backwards.schedule jobs).Perm jobs := List.reverse_perm
  have hfresh : Fresh beginning := ⟨rfl, rfl⟩
  have hnodup : (damagedTree.list.map ArchiveEntry.path).Nodup := by decide
  have hlisted : damagedTree.list = [⟨⟨"A.class".toList⟩, .file⟩, ⟨⟨['r']⟩, .file⟩] := by decide
  obtain ⟨hclass, hresource⟩ := read_damagedTree beginning.world.disk.files
  have hlist : damagedTree.archive.list beginning.world.disk.files =
      .ok [⟨⟨"A.class".toList⟩, .file⟩, ⟨⟨['r']⟩, .file⟩] := congrArg Except.ok hlisted
  have hwithin : ∃ survey, ofArchive beginning.world.disk.files damagedTree.archive = .ok survey ∧
      survey.Within 52 := by
    refine (ofArchive_within_iff hlist).mpr fun entry hentry hisClass => ?_
    simp only [List.mem_cons, List.not_mem_nil, or_false] at hentry
    rcases hentry with rfl | rfl
    · exact ⟨_, hclass, fun _ _ => ⟨_, ClassFile.version?_withHeader _ _, by decide⟩⟩
    · cases hisClass
  have hmade := (hsurvey _ _ damagedTree backwards beginning 52 open_damagedResource hschedule
    hfresh).mpr hwithin
  obtain ⟨hread, -⟩ := (exists_makes_verifying_iff hschedule hfresh hlist
    (hlisted ▸ hnodup)).mp hmade
  obtain ⟨bytes, hbytes⟩ := hread ⟨⟨['r']⟩, .file⟩ (by simp) (Or.inl rfl)
  cases hresource.symm.trans hbytes

end Agreement

end ClassSurvey

end Retarget

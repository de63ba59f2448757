import Retarget.Proofs.ClassSurvey.Buckets
import Retarget.Proofs.Walk.OwnClass

/-!
What a walk counts, and what a survey counts of the same archive. Whatever is written for an entry
and wherever it is written, an entry that is taken over adds one to the count of its role, and its
bytes were read if it is a file. So after a walk a survey can read all classes; it puts each of them
into one bucket, by its header and by where it lies, and the buckets add up to the walk's counts.
-/
namespace Retarget

/-- There are bytes under a path, the same whatever happens to files. -/
def Archive.Reads (source : Archive) (path : EntryPath) : Prop :=
  ∃ bytes, ∀ fs, source.read fs path = .ok (some bytes)

theorem reads_of_entryBytes {source : Archive} (hfixed : source.Fixed) {fs : FileSystem}
    {path : EntryPath} {bytes : Bytes} (h : Walk.entryBytes source fs path = .ok bytes) :
    source.Reads path := by
  unfold Walk.entryBytes at h
  split at h
  · cases h
  · cases h
  · next found hfound => exact ⟨found, fun fs' => (hfixed fs fs' path).trans hfound⟩

namespace Walk

variable {W : Type} {source : Archive} {plan : WalkPlan} {s s' : Session W}

section Reading

variable (hfixed : source.Fixed)
include hfixed

theorem reads_of_readEntry {path : EntryPath} {bytes : Bytes}
    (h : readEntry source path s = .ok bytes s') : source.Reads path := by
  simp only [readEntry, look] at h
  cases hbytes : entryBytes source s.world.disk.files path with
  | error fault => simp [hbytes] at h
  | ok found => exact reads_of_entryBytes hfixed hbytes

theorem reads_of_transformJob {job : ClassJob} {transformed : Transformed}
    (h : transformJob source plan job s = .ok transformed s') : source.Reads job.path := by
  obtain ⟨bytes, middle, hread, -⟩ := bind_eq_ok.mp h
  exact reads_of_readEntry hfixed hread

/-- Whatever order classes are transformed in, each of them is read. -/
theorem reads_of_transformAll {jobs : List ClassJob} {results : List (EntryPath × Transformed)}
    (h : transformAll source plan jobs s = .ok results s') :
    ∀ job ∈ jobs, source.Reads job.path := by
  induction jobs generalizing s s' results with
  | nil => simp
  | cons job rest ih =>
    simp only [transformAll] at h
    obtain ⟨transformed, middle, hjob, hrest⟩ := bind_eq_ok.mp h
    obtain ⟨others, last, hothers, -⟩ := bind_eq_ok.mp hrest
    exact List.forall_mem_cons.mpr ⟨reads_of_transformJob hfixed hjob, ih hothers⟩

end Reading

/-- Entries that were taken over: each was counted once and by its role, and the files were read. -/
structure Accounted (source : Archive) (entries : List ArchiveEntry) (before after : EntryCounts) :
    Prop where
  classes : after.classes = before.classes + .ofNat (entries.countP fun e => (jobOf? e).isSome)
  overlayClasses : after.overlayClasses =
    before.overlayClasses + .ofNat (entries.countP (·.role = .overlayClass))
  sourceEntries : after.sourceEntries = before.sourceEntries + .ofNat entries.length
  reads : ∀ entry ∈ entries, entry.role ≠ .directory → source.Reads entry.path

theorem Accounted.append {entries entries' : List ArchiveEntry} {before middle after : EntryCounts}
    (h : Accounted source entries before middle) (h' : Accounted source entries' middle after) :
    Accounted source (entries ++ entries') before after := by
  refine ⟨?_, ?_, ?_, ?_⟩
  · rw [h'.classes, h.classes, List.countP_append, UInt64.ofNat_add, UInt64.add_assoc]
  · rw [h'.overlayClasses, h.overlayClasses, List.countP_append, UInt64.ofNat_add, UInt64.add_assoc]
  · rw [h'.sourceEntries, h.sourceEntries, List.length_append, UInt64.ofNat_add, UInt64.add_assoc]
  · intro entry hentry
    rcases List.mem_append.mp hentry with hentry | hentry
    · exact h.reads entry hentry
    · exact h'.reads entry hentry

/-- One entry more of its role; of a class it is told whether it was changed. -/
def countEntry (counts : EntryCounts) (entry : ArchiveEntry) (changed : Bool) : EntryCounts :=
  match entry.role with
  | .directory => { counts with directories := counts.directories + 1 }
  | .resource => { counts with resources := counts.resources + 1 }
  | .overlayClass => { counts with overlayClasses := counts.overlayClasses + 1 }
  | .classFile _ => countClass counts changed

theorem accounted_countEntry (counts : EntryCounts) {entry : ArchiveEntry} (changed : Bool)
    (hread : entry.role ≠ .directory → source.Reads entry.path) :
    Accounted source [entry] counts (countEntry counts entry changed) := by
  refine ⟨?_, ?_, ?_, by simpa using hread⟩
  · unfold countEntry
    cases hrole : entry.role <;> cases changed <;>
      simp only [EntryCounts.classes, countClass, jobOf?, hrole, if_true, Bool.false_eq_true,
        if_false, List.countP_singleton, Option.isSome] <;> ac_rfl
  · unfold countEntry
    cases hrole : entry.role <;> cases changed <;> simp [countClass, hrole]
  · unfold countEntry
    cases entry.role <;> cases changed <;>
      simp only [EntryCounts.sourceEntries, EntryCounts.classes, countClass, if_true,
        Bool.false_eq_true, if_false, List.length_singleton] <;> ac_rfl

variable [Destination W] {classOf : ClassJob → Step W Transformed}

/-- An entry that is taken over is counted by its role, and read if it is a file. -/
theorem accounted_of_takeEntry (hfixed : source.Fixed) {entry : ArchiveEntry}
    {counts counts' : EntryCounts}
    (hclass : ∀ job, jobOf? entry = some job → ∀ {t t' transformed},
      classOf job t = .ok transformed t' → source.Reads job.path)
    (h : takeEntry source classOf counts entry s = .ok counts' s') :
    Accounted source [entry] counts counts' := by
  suffices hcounted : (∃ changed, counts' = countEntry counts entry changed) ∧
      (entry.role ≠ .directory → source.Reads entry.path) by
    obtain ⟨⟨changed, rfl⟩, hread⟩ := hcounted
    exact accounted_countEntry counts changed hread
  have hcopied : ∀ {t t' : Session W}, copyEntry source entry.path t = .ok () t' →
      source.Reads entry.path := by
    intro t t' hcopy
    obtain ⟨bytes, middle, hread, -⟩ := bind_eq_ok.mp hcopy
    exact reads_of_readEntry hfixed hread
  unfold takeEntry at h
  unfold countEntry
  cases hrole : entry.role with
  | directory =>
    simp only [hrole] at h
    obtain ⟨_, middle, -, hrest⟩ := bind_eq_ok.mp h
    cases hrest
    exact ⟨⟨false, rfl⟩, fun hne => absurd rfl hne⟩
  | resource =>
    simp only [hrole] at h
    obtain ⟨_, middle, hcopy, hrest⟩ := bind_eq_ok.mp h
    cases hrest
    exact ⟨⟨false, rfl⟩, fun _ => hcopied hcopy⟩
  | overlayClass =>
    simp only [hrole] at h
    obtain ⟨_, middle, hcopy, hrest⟩ := bind_eq_ok.mp h
    cases hrest
    exact ⟨⟨false, rfl⟩, fun _ => hcopied hcopy⟩
  | classFile name =>
    simp only [hrole] at h
    obtain ⟨transformed, middle, htransformed, hrest⟩ := bind_eq_ok.mp h
    obtain ⟨_, later, -, hrest⟩ := bind_eq_ok.mp hrest
    cases hrest
    exact ⟨⟨transformed.changed, rfl⟩, fun _ => hclass _ (by rw [jobOf?, hrole]) htransformed⟩

theorem accounted_of_takeAll (hfixed : source.Fixed) {entries : List ArchiveEntry}
    {counts total : EntryCounts}
    (hclass : ∀ job ∈ entries.filterMap jobOf?, ∀ {t t' transformed},
      classOf job t = .ok transformed t' → source.Reads job.path)
    (h : takeAll source classOf counts entries s = .ok total s') :
    Accounted source entries counts total := by
  induction entries generalizing counts s with
  | nil =>
    cases h
    exact ⟨(UInt64.add_zero _).symm, (UInt64.add_zero _).symm, (UInt64.add_zero _).symm, by simp⟩
  | cons entry rest ih =>
    simp only [takeAll] at h
    obtain ⟨counts', middle, hentry, hrest⟩ := bind_eq_ok.mp h
    have hfirst := accounted_of_takeEntry hfixed (fun job hjob =>
      hclass job (List.mem_filterMap.mpr ⟨entry, List.mem_cons_self .., hjob⟩)) hentry
    refine hfirst.append (ih (fun job hjob => hclass job ?_) hrest)
    obtain ⟨other, hother, hsome⟩ := List.mem_filterMap.mp hjob
    exact List.mem_filterMap.mpr ⟨other, List.mem_cons_of_mem _ hother, hsome⟩

/-- A walk that succeeds has counted all that was listed, however many jobs it had. -/
theorem accounted_of_run (hfixed : source.Fixed)
    (hschedule : ∀ jobs, (plan.schedule jobs).Perm jobs) {counts : EntryCounts}
    (h : run source plan s = .ok counts s') :
    ∃ entries, source.list s.world.disk.files = .ok entries ∧
      Accounted source entries {} counts := by
  rw [run_eq] at h
  cases hlist : source.list s.world.disk.files with
  | error fault => simp [hlist] at h
  | ok entries =>
    simp only [hlist] at h
    refine ⟨entries, rfl, ?_⟩
    split at h
    · -- The classes were all read beforehand, so taking their results needs no reading.
      obtain ⟨results, middle, htransformed, htaken⟩ := bind_eq_ok.mp h
      have hreads := reads_of_transformAll hfixed htransformed
      exact accounted_of_takeAll hfixed (fun job hjob _ _ _ _ =>
        hreads job ((hschedule _).mem_iff.mpr hjob)) htaken
    · exact accounted_of_takeAll hfixed (fun _ _ _ _ _ => reads_of_transformJob hfixed) h

end Walk

namespace ClassSurvey

open Walk

variable {W : Type} [Destination W] {source : Archive} {plan : WalkPlan} {s s' : Session W}

/-- A survey of what was taken over succeeds, for all classes were read. -/
theorem ofArchive_of_accounted {fs : FileSystem} {entries : List ArchiveEntry}
    {before after : EntryCounts} (hlist : source.list fs = .ok entries)
    (h : Accounted source entries before after) :
    ofArchive fs source = .ok (counted (source.contentAt fs) entries) := by
  apply (ofArchive_eq_ok_iff hlist).mpr
  refine ⟨source.contentAt fs, ?_, rfl⟩
  intro entry hentry hclass
  have hfile : entry.role ≠ .directory := by
    intro hrole
    simp [isClass, hrole] at hclass
  obtain ⟨bytes, hread⟩ := h.reads entry hentry hfile
  rw [Archive.contentAt_of_read (hread fs), hread fs]

/-- A survey counts as a walk does. Where the listing and what is read stay as they are, whatever
the engine, the target and the jobs: if a walk succeeds a survey succeeds, and has as many classes
outside the overlays, with a header or malformed, as the walk counted classes, and as many in the
overlays as the walk counted there; and the walk counted all entries that were listed. It counts in
64 bits, which makes no difference to a listing that is no longer than they can tell. Every class
has one bucket of the survey, other entries have none, and a bucket has one for each entry that it
is the bucket of. -/
theorem survey_counts_as_walk (hlist : ∀ fs fs', source.list fs' = source.list fs)
    (hfixed : source.Fixed) (hschedule : ∀ jobs, (plan.schedule jobs).Perm jobs)
    {counts : EntryCounts} (h : run source plan s = .ok counts s') (fs : FileSystem) :
    ∃ entries survey, source.list fs = .ok entries ∧ ofArchive fs source = .ok survey ∧
      counts.classes = .ofNat survey.classTotal ∧
      counts.overlayClasses = .ofNat survey.overlayTotal ∧
      counts.sourceEntries = .ofNat entries.length ∧
      (entries.length < UInt64.size → counts.classes.toNat = survey.classTotal ∧
        counts.overlayClasses.toNat = survey.overlayTotal ∧
        counts.sourceEntries.toNat = entries.length) ∧
      (∀ entry, (bucket? (source.contentAt fs) entry).isSome = isClass entry) ∧
      ∀ bucket, survey.amount bucket =
        entries.countP (bucket? (source.contentAt fs) · = some bucket) := by
  obtain ⟨entries, hentries, haccounted⟩ := accounted_of_run hfixed hschedule h
  rw [← hlist s.world.disk.files fs] at hentries
  have hclasses : counts.classes = .ofNat (counted (source.contentAt fs) entries).classTotal := by
    rw [haccounted.classes, classTotal_counted]
    exact UInt64.zero_add _
  have hoverlay : counts.overlayClasses =
      .ofNat (counted (source.contentAt fs) entries).overlayTotal := by
    rw [haccounted.overlayClasses, overlayTotal_counted]
    exact UInt64.zero_add _
  have hall : counts.sourceEntries = .ofNat entries.length := by
    rw [haccounted.sourceEntries]
    exact UInt64.zero_add _
  refine ⟨entries, _, hentries, ofArchive_of_accounted hentries haccounted, hclasses, hoverlay,
    hall, fun hsize => ?_, isSome_bucket? _, amount_counted _ _⟩
  have hfits : ∀ n ≤ entries.length, (UInt64.ofNat n).toNat = n := fun n hn =>
    UInt64.toNat_ofNat_of_lt' (Nat.lt_of_le_of_lt hn hsize)
  rw [hclasses, hoverlay, hall]
  refine ⟨hfits _ ?_, hfits _ ?_, hfits _ (Nat.le_refl _)⟩
  · rw [classTotal_counted]
    exact List.countP_le_length
  · rw [overlayTotal_counted]
    exact List.countP_le_length

/-- Classes with and without a header, outside the overlays and in them, and two other entries. -/
def allKinds : MemoryTree :=
  ⟨"old".toList, [(⟨"A.class".toList⟩, .file (ClassFile.withHeader ⟨61, 0⟩ [7])),
    (⟨"B.class".toList⟩, .file [1]),
    (⟨"META-INF/versions/17/A.class".toList⟩, .file (ClassFile.withHeader ⟨61, 0⟩ [8])),
    (⟨"META-INF/versions/17/B.class".toList⟩, .file []),
    (⟨"d".toList⟩, .directory),
    (⟨"r".toList⟩, .file [2])], false⟩

/-- Two classes and two overlay classes among six entries are counted, by two jobs that take the
classes up backwards as by a survey, which has one class under version 61 and one malformed. -/
theorem survey_counts_as_walk_allKinds :
    (∀ fs fs', allKinds.archive.list fs' = allKinds.archive.list fs) ∧ allKinds.archive.Fixed ∧
      (∀ jobs, (backwards.schedule jobs).Perm jobs) ∧
      ∃ counts s' survey, run allKinds.archive backwards beginning = .ok counts s' ∧
        ofArchive ⟨[], []⟩ allKinds.archive = .ok survey ∧
        counts.classes.toNat = survey.classTotal ∧ survey.classTotal = 2 ∧
        counts.overlayClasses.toNat = survey.overlayTotal ∧ survey.overlayTotal = 2 ∧
        counts.sourceEntries = 6 ∧ survey.amount (.version 61) = 1 ∧
        survey.amount (.malformed ⟨"B.class".toList⟩) = 1 := by
  have hlist : ∀ fs fs', allKinds.archive.list fs' = allKinds.archive.list fs := fun _ _ => rfl
  have hfixed : allKinds.archive.Fixed := fun _ _ _ => rfl
  have hschedule : ∀ jobs, (backwards.schedule jobs).Perm jobs := List.reverse_perm
  have hmade : (made? (run allKinds.archive backwards beginning)).isSome := by decide +kernel
  refine ⟨hlist, hfixed, hschedule, ?_⟩
  cases hrun : run allKinds.archive backwards beginning with
  | error fault s' => simp [hrun, made?] at hmade
  | ok counts s' =>
    obtain ⟨entries, survey, hentries, hsurvey, hclasses, hoverlay, hall, hfits, -, hamount⟩ :=
      survey_counts_as_walk hlist hfixed hschedule hrun ⟨[], []⟩
    cases hentries
    obtain ⟨hclassTotal, hoverlayTotal, -⟩ := hfits (by decide)
    have hcounted := eq_counted_of_ofArchive rfl hsurvey
    refine ⟨counts, s', survey, rfl, hsurvey, hclassTotal, ?_, hoverlayTotal, ?_, hall, ?_, ?_⟩
    · rw [hcounted]
      decide +kernel
    · rw [hcounted]
      decide +kernel
    · rw [hamount]
      decide +kernel
    · rw [hamount]
      decide +kernel

end ClassSurvey
end Retarget

import Retarget.Proofs.Entry.Roles
import Retarget.Proofs.Walk.Agreement

/-!
What looking up the class that is being transformed gives. The name of a class entry leads back to
the entry, and the archive is asked before all other tiers, and stays first however much is looked
up. So an engine is only ever given classes that are found under the name it is given, in the
archive, with the very bytes it is given. Whatever it would do with another class is never seen, and
as long as the archive's entries stay as they are it can do without looking up its own class.
-/
namespace Retarget

namespace Classpath

def StartsWith (source : Archive) (classpath : Classpath) : Prop :=
  ∃ rest, classpath.tiers = .archive source :: rest

variable {source : Archive} {classpath : Classpath}

/-- The first tier is an archive, which no lookup changes. -/
theorem StartsWith.resolve (h : classpath.StartsWith source) (fs : FileSystem) (name : ClassName) :
    (classpath.resolve fs name).2.StartsWith source := by
  obtain ⟨rest, hrest⟩ := h
  simp only [Classpath.resolve, hrest, resolveIn, Tier.find]
  cases source.read fs (.ofClass name) with
  | error fault => exact ⟨rest, rfl⟩
  | ok found =>
    cases found with
    | some bytes => exact ⟨rest, rfl⟩
    | none => exact ⟨(resolveIn fs name rest).2, rfl⟩

/-- What the archive has is what is found. -/
theorem StartsWith.resolve_of_read (h : classpath.StartsWith source) {fs : FileSystem}
    {name : ClassName} {bytes : Bytes}
    (hread : source.read fs (.ofClass name) = .ok (some bytes)) :
    classpath.resolve fs name = (.ok (some ⟨bytes, .archive⟩), classpath) := by
  obtain ⟨tiers⟩ := classpath
  obtain ⟨rest, hrest⟩ := h
  subst hrest
  simp only [Classpath.resolve, resolveIn, Tier.find, hread, Tier.origin]

end Classpath

/-- Under every path there is the same, whatever happens to files. -/
def Archive.Fixed (source : Archive) : Prop :=
  ∀ fs fs' path, source.read fs' path = source.read fs path

namespace Dialogue

variable {α : Type} {source : Archive}

theorem startsWith_run (d : Dialogue α) {world : World}
    (h : world.classpath.StartsWith source) : (d.run world).2.classpath.StartsWith source := by
  induction d generalizing world with
  | done answer => exact h
  | resolve name next ih => exact ih _ (h.resolve world.disk.files name)
  | isProjectClass name next ih =>
    apply ih
    show (world.classpath.isProjectClass world.disk.files name).2.StartsWith source
    rw [Classpath.snd_isProjectClass]
    exact h
  | change step next ih =>
    simp only [run]
    cases Disk.perform step world.disk with
    | ok _ disk => exact ih (.ok ()) h
    | error kind disk => exact ih (.error kind) h

/-- The dialogue without the questions for one class, its answer being known. -/
def knowing (name : ClassName) (answer : Except Fault (Option ResolvedClass)) :
    Dialogue α → Dialogue α
  | .done a => .done a
  | .resolve asked next =>
    if asked = name then (next answer).knowing name answer
    else .resolve asked fun found => (next found).knowing name answer
  | .isProjectClass asked next => .isProjectClass asked fun found => (next found).knowing name answer
  | .change step next => .change step fun outcome => (next outcome).knowing name answer

/-- A class that the archive has need not be asked for. -/
theorem run_knowing {d : Dialogue α} (hkept : d.LeavesFiles ∨ source.Fixed) {name : ClassName}
    {bytes : Bytes} {world : World} (hfirst : world.classpath.StartsWith source)
    (hread : source.read world.disk.files (.ofClass name) = .ok (some bytes)) :
    (d.knowing name (.ok (some ⟨bytes, .archive⟩))).run world = d.run world := by
  induction d generalizing world with
  | done answer => rfl
  | resolve asked next ih =>
    have hnext : ∀ found, (next found).LeavesFiles ∨ source.Fixed := fun found =>
      hkept.imp_left fun h => h found
    by_cases hasked : asked = name
    · subst hasked
      have hfound := hfirst.resolve_of_read hread
      simp only [knowing, if_true, run, hfound]
      exact ih _ (hnext _) hfirst hread
    · simp only [knowing, hasked, if_false, run]
      exact ih _ (hnext _) (hfirst.resolve world.disk.files asked) hread
  | isProjectClass asked next ih =>
    have hnext : ∀ found, (next found).LeavesFiles ∨ source.Fixed := fun found =>
      hkept.imp_left fun h => h found
    have hsame := Classpath.snd_isProjectClass world.disk.files asked world.classpath
    simp only [knowing, run, hsame]
    exact ih _ (hnext _) hfirst hread
  | change step next ih =>
    have hfixed : source.Fixed := hkept.resolve_left fun h => h
    simp only [knowing, run]
    cases Disk.perform step world.disk with
    | ok _ disk => exact ih _ (Or.inr hfixed) hfirst ((hfixed _ _ _).trans hread)
    | error kind disk => exact ih _ (Or.inr hfixed) hfirst ((hfixed _ _ _).trans hread)

end Dialogue

/-- Where an engine works, looking up its own class gives the bytes that it was given, as the
archive's, and opens nothing. -/
def TransformRequest.FoundIn (request : TransformRequest) (world : World) : Prop :=
  world.classpath.resolve world.disk.files request.name =
    (.ok (some ⟨request.bytes, .archive⟩), world.classpath)

/-- The engine, told beforehand what looking up the class that it is given would give. -/
def Engine.informed (engine : Engine) : Engine := fun request =>
  (engine request).knowing request.name (.ok (some ⟨request.bytes, .archive⟩))

section SameOn

variable {ε σ α β : Type} {P : σ → Prop} {E : ε → Prop}

def SameOn (P : σ → Prop) (act act' : EStateM ε σ α) : Prop :=
  ∀ s, P s → act' s = act s

theorem SameOn.bind {act act' : EStateM ε σ α} {next next' : α → EStateM ε σ β}
    (h : SameOn P act act') (hkeeps : Keeps P E act) (hnext : ∀ a, SameOn P (next a) (next' a)) :
    SameOn P (act >>= next) (act' >>= next') := by
  intro s hs
  simp only [Bind.bind, EStateM.bind, h s hs]
  cases hact : act s with
  | error fault middle => rfl
  | ok a middle => exact hnext a middle (hkeeps.ok hs hact)

end SameOn

namespace Walk

variable {W : Type} {source : Archive} {plan plan' : WalkPlan}

def AsksFirst (source : Archive) (s : Session W) : Prop := s.world.classpath.StartsWith source

abbrev KeepsFirst {α : Type} (source : Archive) (act : Step W α) : Prop :=
  Keeps (AsksFirst source) (fun _ => True) act

theorem keepsFirst_look {α : Type} (ask : Session W → Except DowngradeError α) :
    KeepsFirst source (look ask) := by
  intro s hs
  simp only [look]
  cases ask s with
  | ok a => exact hs
  | error fault => exact ⟨trivial, hs⟩

theorem keepsFirst_write (stage : Session W → Stage) (act : EStateM Fault W Unit) :
    KeepsFirst source (write stage act) := by
  intro s hs
  simp only [write]
  cases act s.dest with
  | ok _ dest => exact hs
  | error fault dest => exact ⟨trivial, hs⟩

theorem keepsFirst_transformJob (job : ClassJob) :
    KeepsFirst (W := W) source (transformJob source plan job) := by
  apply Keeps.bind (keepsFirst_look _)
  intro bytes s hs
  have hlater := (plan.engine ⟨job.name, bytes, plan.target⟩).startsWith_run hs
  simp only [transformClass]
  rcases hrun : (plan.engine ⟨job.name, bytes, plan.target⟩).run s.world with ⟨outcome, later⟩
  rw [hrun] at hlater
  cases outcome with
  | ok output => exact hlater
  | error fault => exact ⟨trivial, hlater⟩

theorem keepsFirst_transformAll (jobs : List ClassJob) :
    KeepsFirst (W := W) source (transformAll source plan jobs) := by
  induction jobs with
  | nil => exact Keeps.pure []
  | cons job rest ih =>
    exact Keeps.bind (keepsFirst_transformJob job) fun _ => Keeps.bind ih fun _ => Keeps.pure _

/-- The two plans differ in nothing but what their engines do with a class that the archive does
not have under the given name with the given bytes. -/
structure SameOnOwn (source : Archive) (plan plan' : WalkPlan) : Prop where
  target_eq : plan'.target = plan.target
  jobs_eq : plan'.jobs = plan.jobs
  schedule_eq : plan'.schedule = plan.schedule
  run_eq : ∀ request world, world.classpath.StartsWith source →
    source.read world.disk.files (.ofClass request.name) = .ok (some request.bytes) →
    (plan'.engine request).run world = (plan.engine request).run world

/-- The class is looked up where its bytes were read. -/
theorem sameOn_transformJob (h : SameOnOwn source plan plan') {job : ClassJob}
    (hjob : EntryPath.ofClass job.name = job.path) :
    SameOn (AsksFirst (W := W) source) (transformJob source plan job)
      (transformJob source plan' job) := by
  intro s hs
  simp only [transformJob, bind, EStateM.bind, readEntry, look]
  cases hbytes : entryBytes source s.world.disk.files job.path with
  | error fault => rfl
  | ok bytes =>
    have hread : source.read s.world.disk.files (.ofClass job.name) = .ok (some bytes) := by
      rw [hjob]
      unfold entryBytes at hbytes
      split at hbytes
      · cases hbytes
      · cases hbytes
      · next found hfound =>
        cases hbytes
        exact hfound
    have hrun := h.run_eq ⟨job.name, bytes, plan.target⟩ s.world hs hread
    simp only [transformClass, h.target_eq, hrun]

theorem sameOn_transformAll (h : SameOnOwn source plan plan') {jobs : List ClassJob}
    (hjobs : ∀ job ∈ jobs, EntryPath.ofClass job.name = job.path) :
    SameOn (AsksFirst (W := W) source) (transformAll source plan jobs)
      (transformAll source plan' jobs) := by
  induction jobs with
  | nil => exact fun _ _ => rfl
  | cons job rest ih =>
    obtain ⟨hjob, hrest⟩ := List.forall_mem_cons.mp hjobs
    apply SameOn.bind (sameOn_transformJob h hjob) (keepsFirst_transformJob job)
    intro transformed
    exact SameOn.bind (ih hrest) (keepsFirst_transformAll rest) fun _ _ _ => rfl

/-- A class entry's job is told by the name of the class. -/
theorem ofClass_of_jobOf? {entry : ArchiveEntry} {job : ClassJob} (h : jobOf? entry = some job) :
    EntryPath.ofClass job.name = job.path := by
  obtain ⟨-, hname⟩ := ofEntryText?_of_jobOf? h
  exact EntryPath.ofClass_eq_iff.mpr hname

variable [Destination W]

theorem sameOn_takeEntry {classOf classOf' : ClassJob → Step W Transformed} {entry : ArchiveEntry}
    (hclass : ∀ job, jobOf? entry = some job →
      SameOn (AsksFirst source) (classOf job) (classOf' job))
    (hkeeps : ∀ job, KeepsFirst source (classOf job)) (counts : EntryCounts) :
    SameOn (AsksFirst source) (takeEntry source classOf counts entry)
      (takeEntry source classOf' counts entry) := by
  unfold takeEntry
  cases hrole : entry.role with
  | directory => exact fun _ _ => rfl
  | resource => exact fun _ _ => rfl
  | overlayClass => exact fun _ _ => rfl
  | classFile name =>
    have hjob : jobOf? entry = some ⟨entry.path, name⟩ := by rw [jobOf?, hrole]
    exact SameOn.bind (hclass _ hjob) (hkeeps _) fun _ _ _ => rfl

theorem keepsFirst_takeEntry {classOf : ClassJob → Step W Transformed}
    (hclass : ∀ job, KeepsFirst source (classOf job)) (counts : EntryCounts)
    (entry : ArchiveEntry) : KeepsFirst source (takeEntry source classOf counts entry) := by
  unfold takeEntry copyEntry
  split
  · exact Keeps.bind (keepsFirst_write _ _) fun _ => Keeps.pure _
  · exact Keeps.bind (Keeps.bind (keepsFirst_look _) fun _ => keepsFirst_write _ _) fun _ =>
      Keeps.pure _
  · exact Keeps.bind (Keeps.bind (keepsFirst_look _) fun _ => keepsFirst_write _ _) fun _ =>
      Keeps.pure _
  · exact Keeps.bind (hclass _) fun _ => Keeps.bind (keepsFirst_write _ _) fun _ => Keeps.pure _

theorem sameOn_takeAll {classOf classOf' : ClassJob → Step W Transformed}
    {entries : List ArchiveEntry}
    (hclass : ∀ entry ∈ entries, ∀ job, jobOf? entry = some job →
      SameOn (AsksFirst source) (classOf job) (classOf' job))
    (hkeeps : ∀ job, KeepsFirst source (classOf job)) (counts : EntryCounts) :
    SameOn (AsksFirst source) (takeAll source classOf counts entries)
      (takeAll source classOf' counts entries) := by
  induction entries generalizing counts with
  | nil => exact fun _ _ => rfl
  | cons entry rest ih =>
    obtain ⟨hfirst, hrest⟩ := List.forall_mem_cons.mp hclass
    apply SameOn.bind (sameOn_takeEntry hfirst hkeeps counts) (keepsFirst_takeEntry hkeeps counts entry)
    exact fun counts => ih hrest counts

/-- A walk does not show what its engine does with classes that are not the archive's own. -/
theorem sameOn_run (h : SameOnOwn source plan plan')
    (hschedule : ∀ jobs, (plan.schedule jobs).Perm jobs) :
    SameOn (AsksFirst (W := W) source) (run source plan) (run source plan') := by
  apply SameOn.bind (fun _ _ => rfl) (keepsFirst_look _)
  intro entries
  rw [h.jobs_eq]
  split
  · apply SameOn.bind _ (keepsFirst_transformAll _) fun _ _ _ => rfl
    rw [h.schedule_eq]
    apply sameOn_transformAll h
    intro job hjob
    obtain ⟨entry, -, hentry⟩ := List.mem_filterMap.mp ((hschedule _).mem_iff.mp hjob)
    exact ofClass_of_jobOf? hentry
  · exact sameOn_takeAll (fun _ _ _ hjob => sameOn_transformJob h (ofClass_of_jobOf? hjob))
      keepsFirst_transformJob {}

/-- Which entries are classes is told by their normal paths alone, and names and class entries lead
to each other. With the archive asked first, an entry with the role of a class is what its name
resolves to; and every engine that a walk starts finds its own class so. For a walk does not show
what engines do with requests that are not found so, nor whether they look up their own class. -/
theorem classes_found_under_own_names :
    (∀ entry : ArchiveEntry, entry.path.IsNormal →
      ((∃ name, entry.role = .classFile name) ↔
        entry.kind = .file ∧ classSuffix <:+ entry.path.text ∧ ¬entry.path.BelowVersions ∧
          entry.path.segments.getLast? ≠ some classSuffix ∧
          ¬classSuffix ++ classSuffix <:+ entry.path.text) ∧
      (entry.role = .overlayClass ↔
        entry.kind = .file ∧ classSuffix <:+ entry.path.text ∧ entry.path.BelowVersions) ∧
      ∀ name, entry.role = .classFile name → EntryPath.ofClass name = entry.path) ∧
    (∀ name entry, ClassName.ofEntryText? entry = some name ↔ name.entryText = entry) ∧
    ∀ (source : Archive),
      (∀ (classpath : Classpath) (fs : FileSystem) (entry : ArchiveEntry) (name : ClassName)
        (bytes : Bytes), classpath.StartsWith source → entry.role = .classFile name →
        source.read fs entry.path = .ok (some bytes) →
        classpath.resolve fs name = (.ok (some ⟨bytes, .archive⟩), classpath)) ∧
      ∀ (W : Type) [Destination W] (plan : WalkPlan) (s : Session W),
        (∀ jobs, (plan.schedule jobs).Perm jobs) → s.world.classpath.StartsWith source →
        (∀ engine : Engine,
          (∀ request world, world.classpath.StartsWith source → request.FoundIn world →
            (engine request).run world = (plan.engine request).run world) →
          run source { plan with engine := engine } s = run source plan s) ∧
        ((∀ request, (plan.engine request).LeavesFiles) ∨ source.Fixed →
          run source { plan with engine := plan.engine.informed } s = run source plan s) := by
  refine ⟨?_, fun name entry => ClassName.ofEntryText?_eq_some_iff, fun source => ⟨?_, ?_⟩⟩
  · intro entry hnormal
    refine ⟨ArchiveEntry.exists_role_eq_classFile_iff hnormal,
      ArchiveEntry.role_eq_overlayClass_iff, ?_⟩
    intro name hrole
    exact (ArchiveEntry.role_eq_classFile_iff.mp hrole).2.2
  · intro classpath fs entry name bytes hfirst hrole hread
    rw [← (ArchiveEntry.role_eq_classFile_iff.mp hrole).2.2] at hread
    exact hfirst.resolve_of_read hread
  · intro W _ plan s hschedule hfirst
    constructor
    · intro engine hengine
      have hsame : SameOnOwn source plan { plan with engine := engine } := by
        refine ⟨rfl, rfl, rfl, ?_⟩
        intro request world hworld hread
        exact hengine request world hworld (hworld.resolve_of_read hread)
      exact sameOn_run hsame hschedule s hfirst
    · intro hkept
      have hsame : SameOnOwn source plan { plan with engine := plan.engine.informed } := by
        refine ⟨rfl, rfl, rfl, ?_⟩
        intro request world hworld hread
        exact Dialogue.run_knowing (hkept.imp_left fun h => h request) hworld hread
      exact sameOn_run hsame hschedule s hfirst

/-- The engine, which does not start unless looking up its own class gives what it was given. -/
def demanding (engine : Engine) : Engine := fun request =>
  .resolve request.name fun found => match found with
    | .ok (some ⟨bytes, .archive⟩) =>
      if bytes = request.bytes then engine request else .done (.error (.unresolved request.name))
    | _ => .done (.error (.unresolved request.name))

def shadowing : Session MemoryTree :=
  { beginning with world.classpath := ⟨[.archive twoClasses.archive,
      .custom .classpath "other".toList fun _ _ => .ok (some [9])]⟩ }

def made? : EStateM.Result DowngradeError (Session W) EntryCounts → Option (EntryCounts × W)
  | .ok counts t => some (counts, t.dest)
  | .error _ _ => none

theorem classes_found_under_own_names_shadowing :
    (∀ jobs, (backwards.schedule jobs).Perm jobs) ∧
      shadowing.world.classpath.StartsWith twoClasses.archive ∧
      (∀ (request : TransformRequest) (world : World), request.FoundIn world →
        (demanding backwards.engine request).run world = (backwards.engine request).run world) ∧
      made? (run twoClasses.archive { backwards with engine := demanding backwards.engine }
        shadowing) = some ({ changedClasses := 2 }, twoLoweredClasses) := by
  have hschedule : ∀ jobs, (backwards.schedule jobs).Perm jobs := List.reverse_perm
  have hfirst : shadowing.world.classpath.StartsWith twoClasses.archive := ⟨_, rfl⟩
  have hengine : ∀ (request : TransformRequest) (world : World), request.FoundIn world →
      (demanding backwards.engine request).run world = (backwards.engine request).run world := by
    intro request world hfound
    simp only [demanding, Dialogue.run, show world.classpath.resolve _ _ = _ from hfound, if_true]
  obtain ⟨-, -, hwalk⟩ := classes_found_under_own_names
  have hsame := ((hwalk twoClasses.archive).2 MemoryTree backwards shadowing hschedule hfirst).1
    (demanding backwards.engine) fun request world _ hfound => hengine request world hfound
  refine ⟨hschedule, hfirst, hengine, ?_⟩
  rw [hsame]
  decide +kernel

end Walk

end Retarget

import Retarget.MemoryTree
import Retarget.Proofs.Walk.Invariant

/-!
A walk with several jobs and a walk with one. What becomes of a class is a function of the settled
world, so it does not matter when its turn comes. The two walks are compared step by step: the one
with several jobs has recorded beforehand what the classes still to come will need, and is otherwise
in the same state.
-/
namespace Retarget.Walk

variable {W : Type}

/-- What becomes of a class in a world: what is written for it, and what it needs. -/
def attempt (source : Archive) (plan : WalkPlan) (world : World) (job : ClassJob) :
    Except DowngradeError (Transformed × List ClassName) :=
  match entryBytes source world.disk.files job.path with
  | .error fault => .error fault
  | .ok bytes =>
    match ((plan.engine ⟨job.name, bytes, plan.target⟩).run world).1 with
    | .error fault => .error (transformFault job.name fault)
    | .ok output => .ok (transformedBy bytes output, output.dependencies.names)

/-- The support classes that a class needs; one that fails needs none. -/
def neededBy (source : Archive) (plan : WalkPlan) (world : World) (job : ClassJob) :
    List ClassName :=
  match attempt source plan world job with
  | .ok (_, names) => names
  | .error _ => []

section Attempt

variable {source : Archive} {plan : WalkPlan} {job : ClassJob} {s : Session W}

/-- Whatever was looked up before, a class that can be transformed is. Its needs are recorded. -/
theorem transformJob_eq_ok (hengine : ∀ request, (plan.engine request).LeavesFiles)
    {transformed : Transformed} {names : List ClassName}
    (h : attempt source plan s.world.settled job = .ok (transformed, names)) :
    ∃ later : World, later.settled = s.world.settled ∧ transformJob source plan job s =
      .ok transformed { s with world := later, required := s.required.insertAll names } := by
  unfold attempt at h
  cases hbytes : entryBytes source s.world.disk.files job.path with
  | error fault => simp [World.settled, hbytes] at h
  | ok bytes =>
    have hsame := Dialogue.run_settled (hengine ⟨job.name, bytes, plan.target⟩) s.world
    have hlater := Dialogue.settled_run (hengine ⟨job.name, bytes, plan.target⟩) s.world
    rcases hrun : (plan.engine ⟨job.name, bytes, plan.target⟩).run s.world with ⟨outcome, later⟩
    rw [hrun] at hsame hlater
    have hread : entryBytes source s.world.settled.disk.files job.path = .ok bytes := hbytes
    simp only [hread, hsame] at h
    cases outcome with
    | error fault => cases h
    | ok output =>
      cases h
      refine ⟨later, hlater, ?_⟩
      simp only [transformJob, bind, EStateM.bind, readEntry, look, hbytes, transformClass, hrun]

theorem transformJob_eq_error (hengine : ∀ request, (plan.engine request).LeavesFiles)
    {fault : DowngradeError} (h : attempt source plan s.world.settled job = .error fault) :
    ∃ later : World, later.settled = s.world.settled ∧
      transformJob source plan job s = .error fault { s with world := later } := by
  unfold attempt at h
  cases hbytes : entryBytes source s.world.disk.files job.path with
  | error reason =>
    have hread : entryBytes source s.world.settled.disk.files job.path = .error reason := hbytes
    simp only [hread, Except.error.injEq] at h
    refine ⟨s.world, rfl, ?_⟩
    simp only [transformJob, bind, EStateM.bind, readEntry, look, hbytes, h]
  | ok bytes =>
    have hsame := Dialogue.run_settled (hengine ⟨job.name, bytes, plan.target⟩) s.world
    have hlater := Dialogue.settled_run (hengine ⟨job.name, bytes, plan.target⟩) s.world
    rcases hrun : (plan.engine ⟨job.name, bytes, plan.target⟩).run s.world with ⟨outcome, later⟩
    rw [hrun] at hsame hlater
    have hread : entryBytes source s.world.settled.disk.files job.path = .ok bytes := hbytes
    simp only [hread, hsame] at h
    cases outcome with
    | ok output => cases h
    | error reason =>
      cases h
      refine ⟨later, hlater, ?_⟩
      simp only [transformJob, bind, EStateM.bind, readEntry, look, hbytes, transformClass, hrun]

/-- A class that was transformed could be. -/
theorem attempt_of_transformJob (hengine : ∀ request, (plan.engine request).LeavesFiles)
    {transformed : Transformed} {s' : Session W}
    (h : transformJob source plan job s = .ok transformed s') :
    ∃ names, attempt source plan s.world.settled job = .ok (transformed, names) ∧
      s'.dest = s.dest ∧ s'.required = s.required.insertAll names := by
  cases hattempt : attempt source plan s.world.settled job with
  | error fault =>
    obtain ⟨later, _, hrun⟩ := transformJob_eq_error hengine hattempt
    rw [hrun] at h
    cases h
  | ok found =>
    obtain ⟨expected, names⟩ := found
    obtain ⟨later, _, hrun⟩ := transformJob_eq_ok hengine hattempt
    rw [hrun] at h
    cases h
    exact ⟨names, rfl, rfl, rfl⟩

end Attempt

/-- One result, the sessions then being related; or one failure, and one destination. -/
def Alike {α : Type} (S : Session W → Session W → Prop) :
    EStateM.Result DowngradeError (Session W) α → EStateM.Result DowngradeError (Session W) α → Prop
  | .ok a t, .ok b t' => a = b ∧ S t t'
  | .error fault t, .error fault' t' => fault = fault' ∧ t.dest = t'.dest
  | _, _ => False

/-- One result and one destination; where it is a success, the same names were recorded too. -/
abbrev SameResult (one many : EStateM.Result DowngradeError (Session W) EntryCounts) : Prop :=
  Alike (fun t t' => t.dest = t'.dest ∧ t.required = t'.required) one many

def Agrees {α : Type} (R S : Session W → Session W → Prop) (act act' : Step W α) : Prop :=
  ∀ s s', R s s' → Alike S (act s) (act' s')

namespace Agrees

variable {α β : Type} {R S T : Session W → Session W → Prop}

theorem pure (a : α) : Agrees R R (pure a : Step W α) (Pure.pure a) :=
  fun _ _ h => ⟨rfl, h⟩

theorem bind {act act' : Step W α} {next next' : α → Step W β} (h : Agrees R S act act')
    (hnext : ∀ a, Agrees S T (next a) (next' a)) :
    Agrees R T (act >>= next) (act' >>= next') := by
  intro s s' hs
  have hact := h s s' hs
  simp only [Bind.bind, EStateM.bind]
  cases hrun : act s with
  | ok a t =>
    cases hrun' : act' s' with
    | ok b t' =>
      rw [hrun, hrun'] at hact
      obtain ⟨rfl, ht⟩ := hact
      exact hnext a t t' ht
    | error fault t' =>
      rw [hrun, hrun'] at hact
      exact hact.elim
  | error fault t =>
    cases hrun' : act' s' with
    | ok b t' =>
      rw [hrun, hrun'] at hact
      exact hact.elim
    | error fault' t' =>
      rw [hrun, hrun'] at hact
      exact hact

end Agrees

/-- Two sessions with one destination and one settled world, of which the second has recorded
some names that the first has not. -/
structure Ahead (world : World) (names : List ClassName) (s s' : Session W) : Prop where
  world_eq : s.world.settled = world
  world_eq' : s'.world.settled = world
  dest_eq : s'.dest = s.dest
  required : ∀ name, name ∈ s'.required.names ↔ name ∈ names ∨ name ∈ s.required.names

variable {world : World} {names : List ClassName}

theorem agrees_look {α : Type} {R : Session W → Session W → Prop}
    {ask : Session W → Except DowngradeError α}
    (h : ∀ s s', R s s' → s'.dest = s.dest ∧ ask s' = ask s) :
    Agrees R R (look ask) (look ask) := by
  intro s s' hs
  obtain ⟨hdest, hask⟩ := h s s' hs
  simp only [look, hask]
  cases ask s with
  | ok a => exact ⟨rfl, hs⟩
  | error fault => exact ⟨rfl, hdest.symm⟩

theorem agrees_readEntry (source : Archive) (path : EntryPath) :
    Agrees (Ahead (W := W) world names) (Ahead world names) (readEntry source path)
      (readEntry source path) := by
  refine agrees_look fun s s' hs => ⟨hs.dest_eq, ?_⟩
  have hdisk : s'.world.settled.disk = s.world.settled.disk := by rw [hs.world_eq, hs.world_eq']
  rw [World.disk_settled, World.disk_settled] at hdisk
  rw [hdisk]

theorem agrees_write {stage : Session W → Stage} (act : EStateM Fault W Unit)
    (hstage : ∀ s s' : Session W, s'.dest = s.dest → stage s' = stage s) :
    Agrees (Ahead world names) (Ahead world names) (write stage act) (write stage act) := by
  intro s s' hs
  simp only [write, hs.dest_eq]
  cases act s.dest with
  | ok _ dest => exact ⟨rfl, hs.world_eq, hs.world_eq', rfl, hs.required⟩
  | error fault dest => exact ⟨by rw [hstage s s' hs.dest_eq], rfl⟩

variable [Destination W]

theorem agrees_writeEntry (path : EntryPath) (bytes : Bytes) :
    Agrees (Ahead (W := W) world names) (Ahead world names) (writeEntry path bytes)
      (writeEntry path bytes) :=
  agrees_write _ fun s s' hdest => by rw [hdest]

theorem agrees_copyEntry (source : Archive) (path : EntryPath) :
    Agrees (Ahead (W := W) world names) (Ahead world names) (copyEntry source path)
      (copyEntry source path) :=
  Agrees.bind (agrees_readEntry source path) fun bytes => agrees_writeEntry path bytes

/-- An entry is taken alike, if its class is. -/
theorem agrees_takeEntry {source : Archive} {classOf classOf' : ClassJob → Step W Transformed}
    {needs : ClassJob → List ClassName} {entry : ArchiveEntry}
    (hclass : ∀ job, jobOf? entry = some job →
      Agrees (Ahead world (needs job ++ names)) (Ahead world names) (classOf job) (classOf' job))
    (counts : EntryCounts) :
    Agrees (Ahead world ((jobOf? entry).toList.flatMap needs ++ names)) (Ahead world names)
      (takeEntry source classOf counts entry) (takeEntry source classOf' counts entry) := by
  unfold takeEntry
  unfold jobOf? at hclass ⊢
  cases hrole : entry.role with
  | directory =>
    exact Agrees.bind (agrees_write _ fun _ _ _ => rfl) fun _ => Agrees.pure _
  | resource => exact Agrees.bind (agrees_copyEntry source entry.path) fun _ => Agrees.pure _
  | overlayClass => exact Agrees.bind (agrees_copyEntry source entry.path) fun _ => Agrees.pure _
  | classFile name =>
    have hjob := hclass ⟨entry.path, name⟩ (by rw [hrole])
    simp only [Option.toList_some, List.flatMap_cons, List.flatMap_nil, List.append_nil]
    exact Agrees.bind hjob fun transformed =>
      Agrees.bind (agrees_writeEntry entry.path transformed.bytes) fun _ => Agrees.pure _

/-- All entries are taken alike, if all classes are. -/
theorem agrees_takeAll (source : Archive) {classOf classOf' : ClassJob → Step W Transformed}
    {needs : ClassJob → List ClassName} {entries : List ArchiveEntry}
    (hclass : ∀ job ∈ entries.filterMap jobOf?, ∀ names,
      Agrees (Ahead world (needs job ++ names)) (Ahead world names) (classOf job) (classOf' job))
    (counts : EntryCounts) :
    Agrees (Ahead world ((entries.filterMap jobOf?).flatMap needs)) (Ahead world [])
      (takeAll source classOf counts entries) (takeAll source classOf' counts entries) := by
  induction entries generalizing counts with
  | nil => exact Agrees.pure counts
  | cons entry rest ih =>
    have hmem : ∀ job, job ∈ (entry :: rest).filterMap jobOf? ↔
        jobOf? entry = some job ∨ job ∈ rest.filterMap jobOf? := by simp [List.mem_filterMap]
    have hrest := ih fun job hjob => hclass job ((hmem job).mpr (Or.inr hjob))
    have hentry : Agrees
        (Ahead world ((jobOf? entry).toList.flatMap needs ++ (rest.filterMap jobOf?).flatMap needs))
        (Ahead world ((rest.filterMap jobOf?).flatMap needs))
        (takeEntry source classOf counts entry) (takeEntry source classOf' counts entry) :=
      agrees_takeEntry (fun job hjob => hclass job ((hmem job).mpr (Or.inl hjob)) _) counts
    have hneeds : ((entry :: rest).filterMap jobOf?).flatMap needs =
        (jobOf? entry).toList.flatMap needs ++ (rest.filterMap jobOf?).flatMap needs := by
      cases hjob : jobOf? entry <;> simp [hjob]
    rw [hneeds]
    exact Agrees.bind hentry fun counts => hrest counts

section Schedule

variable {source : Archive} {plan : WalkPlan} {jobs : List ClassJob}

omit [Destination W]

/-- A class that was transformed beforehand is taken as if it were transformed now. -/
theorem agrees_takeTransformed (hengine : ∀ request, (plan.engine request).LeavesFiles)
    {job : ClassJob} {transformed : Transformed} {needs : List ClassName}
    {results : List (EntryPath × Transformed)}
    (hattempt : attempt source plan world job = .ok (transformed, needs))
    (hresult : results.lookup job.path = some transformed) :
    Agrees (Ahead (W := W) world (neededBy source plan world job ++ names)) (Ahead world names)
      (transformJob source plan job) (takeTransformed results job) := by
  intro s s' hs
  rw [← hs.world_eq] at hattempt
  obtain ⟨later, hlater, hrun⟩ := transformJob_eq_ok hengine hattempt
  have hneeds : neededBy source plan world job = needs := by
    rw [neededBy, ← hs.world_eq, hattempt]
  simp only [hrun, takeTransformed, look, hresult]
  refine ⟨rfl, hlater.trans hs.world_eq, hs.world_eq', hs.dest_eq, ?_⟩
  intro name
  rw [hs.required, hneeds, List.mem_append, NameSet.mem_insertAll]
  constructor
  · intro h
    rcases h with (h | h) | h <;> simp [h]
  · intro h
    rcases h with h | h | h <;> simp [h]

/-- All classes transformed, in whatever order: every result is there, all needs are recorded. -/
theorem transformAll_eq_ok (hengine : ∀ request, (plan.engine request).LeavesFiles)
    (hpaths : ∀ a ∈ jobs, ∀ b ∈ jobs, a.path = b.path → a = b) {s : Session W}
    (hok : ∀ job ∈ jobs, ∃ found, attempt source plan s.world.settled job = .ok found) :
    ∃ results s', transformAll source plan jobs s = .ok results s' ∧
      Ahead s.world.settled (jobs.flatMap (neededBy source plan s.world.settled)) s s' ∧
      ∀ job ∈ jobs, ∀ transformed needs,
        attempt source plan s.world.settled job = .ok (transformed, needs) →
          results.lookup job.path = some transformed := by
  induction jobs generalizing s with
  | nil => exact ⟨[], s, rfl, ⟨rfl, rfl, rfl, by simp⟩, by simp⟩
  | cons job rest ih =>
    obtain ⟨⟨transformed, needs⟩, hattempt⟩ := hok job (List.mem_cons_self ..)
    obtain ⟨later, hlater, hrun⟩ := transformJob_eq_ok hengine hattempt
    have hneeds : neededBy source plan s.world.settled job = needs := by rw [neededBy, hattempt]
    obtain ⟨results, s', hrest, hahead, hresults⟩ :=
      ih (s := { s with world := later, required := s.required.insertAll needs })
        (fun a ha b hb => hpaths a (List.mem_cons_of_mem _ ha) b (List.mem_cons_of_mem _ hb))
        (fun other hother => by
          rw [hlater]
          exact hok other (List.mem_cons_of_mem _ hother))
    rw [hlater] at hahead hresults
    refine ⟨(job.path, transformed) :: results, s', ?_, ⟨rfl, hahead.world_eq', hahead.dest_eq, ?_⟩,
      ?_⟩
    · simp only [transformAll, bind, EStateM.bind, hrun, hrest]
      rfl
    · intro name
      rw [hahead.required, NameSet.mem_insertAll, List.flatMap_cons, List.mem_append, hneeds]
      constructor
      · intro h
        rcases h with h | h | h <;> simp [h]
      · intro h
        rcases h with (h | h) | h <;> simp [h]
    · intro other hother expected needs' hexpected
      by_cases hpath : other.path = job.path
      · have hsame := hpaths other hother job (List.mem_cons_self ..) hpath
        rw [hsame, hattempt] at hexpected
        cases hexpected
        simp [hpath]
      · have hmem : other ∈ rest := by
          rcases List.mem_cons.mp hother with rfl | hmem
          · exact absurd rfl hpath
          · exact hmem
        have hkey : (other.path == job.path) = false := by simpa using hpath
        rw [List.lookup_cons, hkey]
        exact hresults other hmem expected needs' hexpected

/-- A class that cannot be transformed fails all of them, and nothing has been written. -/
theorem transformAll_eq_error (hengine : ∀ request, (plan.engine request).LeavesFiles)
    {job : ClassJob} (hjob : job ∈ jobs) {fault : DowngradeError} {s : Session W}
    (hfail : attempt source plan s.world.settled job = .error fault) :
    ∃ reason s', transformAll source plan jobs s = .error reason s' ∧ s'.dest = s.dest := by
  induction jobs generalizing s with
  | nil => simp at hjob
  | cons first rest ih =>
    cases hattempt : attempt source plan s.world.settled first with
    | error reason =>
      obtain ⟨later, _, hrun⟩ := transformJob_eq_error hengine hattempt
      refine ⟨reason, { s with world := later }, ?_, rfl⟩
      simp only [transformAll, bind, EStateM.bind, hrun]
    | ok found =>
      obtain ⟨transformed, needs⟩ := found
      obtain ⟨later, hlater, hrun⟩ := transformJob_eq_ok hengine hattempt
      have hmem : job ∈ rest := by
        rcases List.mem_cons.mp hjob with rfl | hmem
        · rw [hattempt] at hfail
          cases hfail
        · exact hmem
      obtain ⟨reason, s', hrest, hdest⟩ :=
        ih (s := { s with world := later, required := s.required.insertAll needs }) hmem
          (by rw [hlater]; exact hfail)
      refine ⟨reason, s', ?_, hdest⟩
      simp only [transformAll, bind, EStateM.bind, hrun, hrest]

theorem role_eq_directory_iff {entry : ArchiveEntry} :
    entry.role = .directory ↔ entry.kind = .directory := by
  obtain ⟨path, _ | _⟩ := entry
  · exact ⟨fun _ => rfl, fun _ => rfl⟩
  · simp only [ArchiveEntry.role, reduceCtorEq, iff_false]
    split
    · simp
    · split
      · simp
      · split <;> simp

theorem kind_eq_file {entry : ArchiveEntry} (h : entry.role ≠ .directory) : entry.kind = .file := by
  cases hkind : entry.kind with
  | directory => exact absurd (role_eq_directory_iff.mpr hkind) h
  | file => rfl

/-- The class that an entry is of is read off its path. -/
theorem ofEntryText?_of_jobOf? {entry : ArchiveEntry} {job : ClassJob}
    (h : jobOf? entry = some job) :
    job.path = entry.path ∧ ClassName.ofEntryText? job.path.text = some job.name := by
  unfold jobOf? ArchiveEntry.role at h
  split at h
  · next name hrole =>
    cases h
    refine ⟨rfl, ?_⟩
    split at hrole
    · cases hrole
    · split at hrole
      · cases hrole
      · split at hrole
        · cases hrole
        · split at hrole
          · next found hfound =>
            cases hrole
            exact hfound
          · cases hrole
  · cases h

theorem jobs_eq_of_path_eq {entries : List ArchiveEntry} :
    ∀ a ∈ entries.filterMap jobOf?, ∀ b ∈ entries.filterMap jobOf?, a.path = b.path → a = b := by
  intro a ha b hb hpath
  obtain ⟨entry, _, hentry⟩ := List.mem_filterMap.mp ha
  obtain ⟨entry', _, hentry'⟩ := List.mem_filterMap.mp hb
  have hname := (ofEntryText?_of_jobOf? hentry).2
  rw [hpath, (ofEntryText?_of_jobOf? hentry').2] at hname
  obtain ⟨path, name⟩ := a
  obtain ⟨path', name'⟩ := b
  cases hpath
  cases hname
  rfl

end Schedule

section Run

variable {source : Archive} {plan : WalkPlan} {entries : List ArchiveEntry}

/-- A walk with one job that succeeds has transformed every class. -/
theorem attempt_of_sequential (hengine : ∀ request, (plan.engine request).LeavesFiles)
    {counts total : EntryCounts} {s s' : Session W}
    (h : takeAll source (transformJob source plan) counts entries s = .ok total s') :
    ∀ job ∈ entries.filterMap jobOf?,
      ∃ found, attempt source plan s.world.settled job = .ok found := by
  induction entries generalizing counts s with
  | nil => simp
  | cons entry rest ih =>
    intro job hjob
    simp only [takeAll] at h
    obtain ⟨counts', middle, hentry, hrest⟩ := bind_eq_ok.mp h
    have hstays : Stays s.world.settled (fun _ : W => True) middle :=
      (keeps_takeEntry keptByWrites_true (keeps_transformJob hengine) counts entry).ok
        ⟨rfl, trivial⟩ hentry
    obtain ⟨other, hother, hsome⟩ := List.mem_filterMap.mp hjob
    rcases List.mem_cons.mp hother with rfl | hmem
    · unfold takeEntry at hentry
      unfold jobOf? at hsome
      cases hrole : other.role with
      | directory => simp [hrole] at hsome
      | resource => simp [hrole] at hsome
      | overlayClass => simp [hrole] at hsome
      | classFile name =>
        simp only [hrole, Option.some.injEq] at hsome hentry
        subst hsome
        obtain ⟨transformed, _, hclass, _⟩ := bind_eq_ok.mp hentry
        obtain ⟨needs, hattempt, _⟩ := attempt_of_transformJob hengine hclass
        exact ⟨_, hattempt⟩
    · rw [← hstays.1]
      exact ih hrest job (List.mem_filterMap.mpr ⟨other, hmem, hsome⟩)

theorem run_eq (source : Archive) (plan : WalkPlan) (s : Session W) :
    run source plan s = match source.list s.world.disk.files with
      | .error fault => .error (.io (.listEntries source.location) fault) s
      | .ok entries =>
        if plan.jobs > 1 then scheduled source plan entries s
        else sequential source plan entries s := by
  cases hlist : source.list s.world.disk.files with
  | error fault =>
    simp only [run, listEntries, look, bind, EStateM.bind, hlist]
    rfl
  | ok entries =>
    simp only [run, listEntries, look, bind, EStateM.bind, hlist]
    by_cases hjobs : plan.jobs > 1
    · simp only [hjobs, if_true]
      rfl
    · simp only [hjobs, if_false]
      rfl

/-- What a walk with one job does, the plan being for several. -/
theorem run_one_eq (source : Archive) (plan : WalkPlan) (s : Session W) :
    run source { plan with jobs := 1 } s = match source.list s.world.disk.files with
      | .error fault => .error (.io (.listEntries source.location) fault) s
      | .ok entries => sequential source plan entries s :=
  run_eq source { plan with jobs := 1 } s

theorem run_several_eq (source : Archive) {plan : WalkPlan} (hjobs : 1 < plan.jobs)
    (s : Session W) :
    run source plan s = match source.list s.world.disk.files with
      | .error fault => .error (.io (.listEntries source.location) fault) s
      | .ok entries => scheduled source plan entries s := by
  simp only [run_eq, gt_iff_lt, hjobs, if_true]

/-- When every class can be transformed, the order makes no difference. -/
theorem scheduled_of_attempts (hengine : ∀ request, (plan.engine request).LeavesFiles)
    (hschedule : ∀ jobs, (plan.schedule jobs).Perm jobs) (s : Session W)
    (hok : ∀ job ∈ entries.filterMap jobOf?,
      ∃ found, attempt source plan s.world.settled job = .ok found) :
    Alike (Ahead s.world.settled []) (sequential source plan entries s)
      (scheduled source plan entries s) := by
  have hperm := hschedule (entries.filterMap jobOf?)
  obtain ⟨results, s', hall, hahead, hresults⟩ := transformAll_eq_ok hengine
    (fun a ha b hb => jobs_eq_of_path_eq a (hperm.mem_iff.mp ha) b (hperm.mem_iff.mp hb))
    (fun job hjob => hok job (hperm.mem_iff.mp hjob))
  have hstart : Ahead s.world.settled
      ((entries.filterMap jobOf?).flatMap (neededBy source plan s.world.settled)) s s' := by
    refine ⟨hahead.world_eq, hahead.world_eq', hahead.dest_eq, ?_⟩
    intro name
    rw [hahead.required, (hperm.flatMap_right _).mem_iff]
  have hclass : ∀ job ∈ entries.filterMap jobOf?, ∀ names,
      Agrees (Ahead s.world.settled (neededBy source plan s.world.settled job ++ names))
        (Ahead s.world.settled names) (transformJob source plan job)
        (takeTransformed (W := W) results job) := by
    intro job hjob names
    obtain ⟨⟨transformed, needs⟩, hattempt⟩ := hok job hjob
    exact agrees_takeTransformed hengine hattempt
      (hresults job (hperm.mem_iff.mpr hjob) transformed needs hattempt)
  have htake := agrees_takeAll source hclass {} s s' hstart
  simpa only [sequential, scheduled, bind, EStateM.bind, hall] using htake

/-- When some class cannot be transformed, a walk with several jobs has written nothing. -/
theorem scheduled_eq_error (hengine : ∀ request, (plan.engine request).LeavesFiles)
    (hschedule : ∀ jobs, (plan.schedule jobs).Perm jobs) {s : Session W} {job : ClassJob}
    (hjob : job ∈ entries.filterMap jobOf?) {fault : DowngradeError}
    (hfail : attempt source plan s.world.settled job = .error fault) :
    ∃ reason t, scheduled source plan entries s = .error reason t ∧ t.dest = s.dest := by
  have hmem := (hschedule (entries.filterMap jobOf?)).mem_iff.mpr hjob
  obtain ⟨reason, t, hall, hdest⟩ := transformAll_eq_error hengine hmem hfail
  refine ⟨reason, t, ?_, hdest⟩
  simp only [scheduled, bind, EStateM.bind, hall]

theorem sequential_eq_error (hengine : ∀ request, (plan.engine request).LeavesFiles)
    {s : Session W} {job : ClassJob} (hjob : job ∈ entries.filterMap jobOf?)
    {fault : DowngradeError} (hfail : attempt source plan s.world.settled job = .error fault) :
    ∃ reason t, sequential source plan entries s = .error reason t := by
  cases hrun : sequential source plan entries s with
  | error reason t => exact ⟨reason, t, rfl⟩
  | ok counts t =>
    obtain ⟨found, hfound⟩ := attempt_of_sequential hengine hrun job hjob
    rw [hfail] at hfound
    cases hfound

omit [Destination W] in
theorem SameResult.of_ahead {one many : EStateM.Result DowngradeError (Session W) EntryCounts}
    (h : Alike (Ahead world []) one many) : SameResult one many := by
  cases one with
  | error fault t =>
    cases many with
    | error fault' t' => exact h
    | ok counts t' => exact h
  | ok counts t =>
    cases many with
    | error fault t' => exact h
    | ok counts' t' =>
      obtain ⟨hcounts, hahead⟩ := h
      refine ⟨hcounts, hahead.dest_eq.symm, NameSet.eq_of_mem_iff ?_⟩
      intro name
      simp [hahead.required]

/-- If every class can be transformed, the walks with one and with several jobs end alike. -/
theorem sameResult_of_attempts (hengine : ∀ request, (plan.engine request).LeavesFiles)
    (hjobs : 1 < plan.jobs) (hschedule : ∀ jobs, (plan.schedule jobs).Perm jobs) {s : Session W}
    (hok : ∀ entries, source.list s.world.disk.files = .ok entries →
      ∀ job ∈ entries.filterMap jobOf?, ∃ found,
        attempt source plan s.world.settled job = .ok found) :
    SameResult (run source { plan with jobs := 1 } s) (run source plan s) := by
  rw [run_one_eq, run_several_eq source hjobs]
  cases hlist : source.list s.world.disk.files with
  | error fault => exact ⟨rfl, rfl⟩
  | ok entries =>
    exact SameResult.of_ahead (scheduled_of_attempts hengine hschedule s (hok entries hlist))

/-- If some class cannot be transformed, both fail, and the one with several jobs has written
nothing. -/
theorem run_eq_error_of_attempt (hengine : ∀ request, (plan.engine request).LeavesFiles)
    (hjobs : 1 < plan.jobs) (hschedule : ∀ jobs, (plan.schedule jobs).Perm jobs) {s : Session W}
    (hlist : source.list s.world.disk.files = .ok entries) {job : ClassJob}
    (hjob : job ∈ entries.filterMap jobOf?) {fault : DowngradeError}
    (hfail : attempt source plan s.world.settled job = .error fault) :
    (∃ fault t, run source { plan with jobs := 1 } s = .error fault t) ∧
      ∃ fault t, run source plan s = .error fault t ∧ t.dest = s.dest := by
  rw [run_one_eq, run_several_eq source hjobs, hlist]
  exact ⟨sequential_eq_error hengine hjob hfail,
    scheduled_eq_error hengine hschedule hjob hfail⟩

omit [Destination W] in
theorem SameResult.ok_iff {one many : EStateM.Result DowngradeError (Session W) EntryCounts}
    (h : SameResult one many) (counts : EntryCounts) (dest : W) (required : NameSet) :
    (∃ t, many = .ok counts t ∧ t.dest = dest ∧ t.required = required) ↔
      ∃ t, one = .ok counts t ∧ t.dest = dest ∧ t.required = required := by
  cases one with
  | error fault t =>
    cases many with
    | error fault' t' => simp
    | ok counts t' => exact h.elim
  | ok total t =>
    cases many with
    | error fault t' => exact h.elim
    | ok total' t' =>
      obtain ⟨rfl, hdest, hrequired⟩ := h
      constructor
      · intro h
        obtain ⟨_, hrun, rfl, rfl⟩ := h
        cases hrun
        exact ⟨t, rfl, hdest, hrequired⟩
      · intro h
        obtain ⟨_, hrun, rfl, rfl⟩ := h
        cases hrun
        exact ⟨t', rfl, hdest.symm, hrequired.symm⟩

/-- A walk succeeds with several jobs as it does with one. -/
theorem run_several_ok_iff (hengine : ∀ request, (plan.engine request).LeavesFiles)
    (hjobs : 1 < plan.jobs) (hschedule : ∀ jobs, (plan.schedule jobs).Perm jobs) (s : Session W)
    (counts : EntryCounts) (dest : W) (required : NameSet) :
    (∃ t, run source plan s = .ok counts t ∧ t.dest = dest ∧ t.required = required) ↔
      ∃ t, run source { plan with jobs := 1 } s = .ok counts t ∧ t.dest = dest ∧
        t.required = required := by
  by_cases hok : ∀ entries, source.list s.world.disk.files = .ok entries →
      ∀ job ∈ entries.filterMap jobOf?, ∃ found,
        attempt source plan s.world.settled job = .ok found
  · exact (sameResult_of_attempts hengine hjobs hschedule hok).ok_iff counts dest required
  · simp only [Classical.not_forall] at hok
    obtain ⟨entries, hlist, job, hjob, hnone⟩ := hok
    cases hattempt : attempt source plan s.world.settled job with
    | ok found => exact absurd ⟨found, hattempt⟩ hnone
    | error fault =>
      obtain ⟨⟨_, _, hone⟩, _, _, hmany, _⟩ :=
        run_eq_error_of_attempt hengine hjobs hschedule hlist hjob hattempt
      simp [hone, hmany]

/-- Several jobs, in whatever order they take up the classes, do what one job does. They succeed
with the same counts, destination and recorded names; if every class can be transformed they also
fail alike; and if some class cannot, both fail and the several jobs have written nothing. -/
theorem several_jobs_agree_with_one (source : Archive)
    (hengine : ∀ request, (plan.engine request).LeavesFiles)
    (hjobs : 1 < plan.jobs) (hschedule : ∀ jobs, (plan.schedule jobs).Perm jobs) (s : Session W) :
    (∀ counts dest required,
      (∃ t, run source plan s = .ok counts t ∧ t.dest = dest ∧ t.required = required) ↔
        ∃ t, run source { plan with jobs := 1 } s = .ok counts t ∧ t.dest = dest ∧
          t.required = required) ∧
    ((∀ entries, source.list s.world.disk.files = .ok entries →
        ∀ job ∈ entries.filterMap jobOf?, ∃ transformed t,
          transformJob source plan job s = .ok transformed t) →
      SameResult (run source { plan with jobs := 1 } s) (run source plan s)) ∧
    ∀ entries, source.list s.world.disk.files = .ok entries →
      (∃ job ∈ entries.filterMap jobOf?, ∃ fault t,
        transformJob source plan job s = .error fault t) →
      (∃ fault t, run source { plan with jobs := 1 } s = .error fault t) ∧
        ∃ fault t, run source plan s = .error fault t ∧ t.dest = s.dest := by
  refine ⟨run_several_ok_iff hengine hjobs hschedule s, fun hok => ?_, ?_⟩
  · apply sameResult_of_attempts hengine hjobs hschedule
    intro entries hlist job hjob
    obtain ⟨transformed, t, hrun⟩ := hok entries hlist job hjob
    obtain ⟨needs, hattempt, _⟩ := attempt_of_transformJob hengine hrun
    exact ⟨_, hattempt⟩
  · rintro entries hlist ⟨job, hjob, fault, t, hrun⟩
    cases hattempt : attempt source plan s.world.settled job with
    | ok found =>
      obtain ⟨later, _, hdone⟩ := transformJob_eq_ok hengine hattempt
      rw [hrun] at hdone
      cases hdone
    | error reason => exact run_eq_error_of_attempt hengine hjobs hschedule hlist hjob hattempt

def twoClasses : MemoryTree :=
  ⟨"old".toList, [(⟨"A.class".toList⟩, .file [1]), (⟨"B.class".toList⟩, .file [2])], false⟩

def backwards : WalkPlan where
  engine request := .done (.ok ⟨.changed (request.bytes ++ [0]), .empty⟩)
  target := 52
  jobs := 2
  schedule := List.reverse

def beginning : Session MemoryTree :=
  ⟨⟨.ofFiles ⟨[], []⟩, ⟨[]⟩⟩, .empty, .empty "new".toList⟩

def twoLoweredClasses : MemoryTree :=
  ⟨"new".toList, [(⟨"A.class".toList⟩, .file [1, 0]), (⟨"B.class".toList⟩, .file [2, 0])], false⟩

theorem several_jobs_agree_with_one_twoClasses :
    (∀ request, (backwards.engine request).LeavesFiles) ∧ 1 < backwards.jobs ∧
      (∀ jobs, (backwards.schedule jobs).Perm jobs) ∧
      ∃ t, run twoClasses.archive backwards beginning = .ok { changedClasses := 2 } t ∧
        t.dest = twoLoweredClasses ∧ t.required = .empty := by
  have hengine : ∀ request, (backwards.engine request).LeavesFiles := fun _ => trivial
  have hjobs : 1 < backwards.jobs := by decide
  have hschedule : ∀ jobs, (backwards.schedule jobs).Perm jobs := List.reverse_perm
  obtain ⟨hsuccess, _, _⟩ := several_jobs_agree_with_one twoClasses.archive hengine hjobs
    hschedule beginning
  refine ⟨hengine, hjobs, hschedule, (hsuccess _ _ _).mpr ?_⟩
  have hone : (match run twoClasses.archive { backwards with jobs := 1 } beginning with
      | .ok counts t => decide (counts = { changedClasses := 2 } ∧ t.dest = twoLoweredClasses ∧
        t.required = .empty)
      | .error _ _ => false) = true := by decide +kernel
  generalize run twoClasses.archive { backwards with jobs := 1 } beginning = result at hone ⊢
  cases result with
  | error fault t => cases hone
  | ok counts t =>
    obtain ⟨rfl, hdest, hrequired⟩ := of_decide_eq_true hone
    exact ⟨t, rfl, hdest, hrequired⟩

end Run

end Retarget.Walk

import Mathlib.Data.List.Forall2
import Retarget.Proofs.Walk.Agreement
import Retarget.Proofs.ZipWriter.Entries

/-!
What a walk writes to a zip file. Each entry of the source, of whatever role, gives one node under
its own path, so what is written is the source's listing with a node for each path; and the support
classes that are recorded are those that the classes need.
-/
namespace Retarget

namespace Walk

/-- What becomes of an entry in a world: the node written for it, and what it needs. -/
def outcome (source : Archive) (plan : WalkPlan) (world : World) (entry : ArchiveEntry) :
    Except DowngradeError (Node × List ClassName) :=
  match entry.role with
  | .directory => .ok (.directory, [])
  | .resource | .overlayClass =>
    (entryBytes source world.disk.files entry.path).map fun bytes => (.file bytes, [])
  | .classFile name =>
    (attempt source plan world ⟨entry.path, name⟩).map fun found => (.file found.1.bytes, found.2)

variable {source : Archive} {plan : WalkPlan} {s s' : Session ZipWriter}

theorem write_eq_ok {stage : Session ZipWriter → Stage} {act : EStateM Fault ZipWriter Unit}
    (h : write stage act s = .ok () s') :
    ∃ dest, act s.dest = .ok () dest ∧ s' = { s with dest := dest } := by
  unfold write at h
  cases hact : act s.dest with
  | error fault dest => simp [hact] at h
  | ok _ dest =>
    simp only [hact, EStateM.Result.ok.injEq, true_and] at h
    exact ⟨dest, rfl, h.symm⟩

theorem copyEntry_eq_ok {path : EntryPath} (h : copyEntry source path s = .ok () s') :
    ∃ bytes, entryBytes source s.world.disk.files path = .ok bytes ∧
      s' = { s with dest := s.dest.add path (.file bytes) } := by
  obtain ⟨bytes, middle, hread, hwrite⟩ := bind_eq_ok.mp h
  simp only [readEntry, look] at hread
  cases hbytes : entryBytes source s.world.disk.files path with
  | error fault => simp [hbytes] at hread
  | ok found =>
    simp only [hbytes, EStateM.Result.ok.injEq] at hread
    obtain ⟨rfl, rfl⟩ := hread
    obtain ⟨dest, hdest, rfl⟩ := write_eq_ok hwrite
    exact ⟨found, rfl, by rw [(ZipWriter.writeFile_eq_ok hdest).2]⟩

/-- A session after some entries were taken over: each has its node under its path. -/
structure TookOver (source : Archive) (plan : WalkPlan) (entries : List ArchiveEntry)
    (written : List (EntryPath × Node)) (s s' : Session ZipWriter) : Prop where
  world_eq : s'.world.settled = s.world.settled
  dest_eq : s'.dest = s.dest.extend written
  outcomes : List.Forall₂ (fun entry e => e.1 = entry.path ∧
    ∃ names, outcome source plan s.world.settled entry = .ok (e.2, names)) entries written
  required : ∀ name, name ∈ s'.required.names ↔ name ∈ s.required.names ∨
    ∃ entry ∈ entries, ∃ node names,
      outcome source plan s.world.settled entry = .ok (node, names) ∧ name ∈ names

/-- One entry, given the node that was written for it and the names that were recorded. -/
theorem TookOver.single {entry : ArchiveEntry} {node : Node} {names : List ClassName}
    (hworld : s'.world.settled = s.world.settled) (hdest : s'.dest = s.dest.add entry.path node)
    (hnode : outcome source plan s.world.settled entry = .ok (node, names))
    (hrequired : ∀ name, name ∈ s'.required.names ↔ name ∈ s.required.names ∨ name ∈ names) :
    TookOver source plan [entry] [(entry.path, node)] s s' := by
  refine ⟨hworld, hdest, .cons ⟨rfl, names, hnode⟩ .nil, ?_⟩
  intro name
  simp [hrequired, hnode]

/-- An entry that is copied gives its own bytes and needs nothing. -/
theorem tookOver_of_copyEntry {entry : ArchiveEntry} {middle : Session ZipWriter}
    (hrole : entry.role = .resource ∨ entry.role = .overlayClass)
    (h : copyEntry source entry.path s = .ok () middle) :
    ∃ node, TookOver source plan [entry] [(entry.path, node)] s middle := by
  obtain ⟨bytes, hbytes, rfl⟩ := copyEntry_eq_ok h
  have hnode : outcome source plan s.world.settled entry = .ok (.file bytes, []) := by
    rcases hrole with hrole | hrole
    · simp only [outcome, hrole, World.disk_settled, hbytes]
      rfl
    · simp only [outcome, hrole, World.disk_settled, hbytes]
      rfl
  exact ⟨_, .single rfl rfl hnode (by simp)⟩

theorem takeEntry_eq_ok (hengine : ∀ request, (plan.engine request).LeavesFiles)
    {counts counts' : EntryCounts} {entry : ArchiveEntry} (hnew : entry.path ∉ s.dest.paths)
    (h : takeEntry source (transformJob source plan) counts entry s = .ok counts' s') :
    ∃ node, TookOver source plan [entry] [(entry.path, node)] s s' := by
  unfold takeEntry at h
  cases hrole : entry.role with
  | directory =>
    simp only [hrole] at h
    obtain ⟨_, middle, hwrite, hrest⟩ := bind_eq_ok.mp h
    obtain ⟨dest, hdest, rfl⟩ := write_eq_ok hwrite
    cases hrest
    have hthere : ¬s.dest.contains entry.path = true := fun h => hnew (ZipWriter.contains_iff.mp h)
    have hadd := ZipWriter.createDirectory_eq_ok hdest
    rw [if_neg hthere] at hadd
    exact ⟨_, .single rfl hadd (by rw [outcome, hrole]) (by simp)⟩
  | resource =>
    simp only [hrole] at h
    obtain ⟨_, middle, hcopy, hrest⟩ := bind_eq_ok.mp h
    cases hrest
    exact tookOver_of_copyEntry (Or.inl hrole) hcopy
  | overlayClass =>
    simp only [hrole] at h
    obtain ⟨_, middle, hcopy, hrest⟩ := bind_eq_ok.mp h
    cases hrest
    exact tookOver_of_copyEntry (Or.inr hrole) hcopy
  | classFile name =>
    simp only [hrole] at h
    obtain ⟨transformed, middle, hclass, hrest⟩ := bind_eq_ok.mp h
    obtain ⟨_, later, hwrite, hrest⟩ := bind_eq_ok.mp hrest
    obtain ⟨dest, hdest, rfl⟩ := write_eq_ok hwrite
    cases hrest
    obtain ⟨names, hattempt, hsame, hrequired⟩ := attempt_of_transformJob hengine hclass
    have hstays := (keeps_transformJob (Q := fun _ : ZipWriter => True) hengine _).ok
      ⟨rfl, trivial⟩ hclass
    have hadd := (ZipWriter.writeFile_eq_ok hdest).2
    rw [hsame] at hadd
    have hnode : outcome source plan s.world.settled entry =
        .ok (.file transformed.bytes, names) := by
      simp only [outcome, hrole, hattempt]
      rfl
    refine ⟨_, .single hstays.1 hadd hnode ?_⟩
    intro other
    rw [hrequired, NameSet.mem_insertAll, or_comm]

theorem TookOver.append {entries entries' : List ArchiveEntry}
    {written written' : List (EntryPath × Node)} {middle : Session ZipWriter}
    (h : TookOver source plan entries written s middle)
    (h' : TookOver source plan entries' written' middle s') :
    TookOver source plan (entries ++ entries') (written ++ written') s s' := by
  have hworld := h.world_eq
  refine ⟨h'.world_eq.trans hworld, ?_, ?_, fun name => ?_⟩
  · rw [h'.dest_eq, h.dest_eq, ZipWriter.extend_extend]
  · have hlater := h'.outcomes
    rw [hworld] at hlater
    exact List.rel_append h.outcomes hlater
  · rw [h'.required, h.required, hworld]
    constructor
    · intro h
      rcases h with (hold | ⟨entry, hentry, hneeds⟩) | ⟨entry, hentry, hneeds⟩
      · exact Or.inl hold
      · exact Or.inr ⟨entry, List.mem_append_left _ hentry, hneeds⟩
      · exact Or.inr ⟨entry, List.mem_append_right _ hentry, hneeds⟩
    · intro h
      rcases h with hold | ⟨entry, hentry, hneeds⟩
      · exact Or.inl (Or.inl hold)
      · rcases List.mem_append.mp hentry with hentry | hentry
        · exact Or.inl (Or.inr ⟨entry, hentry, hneeds⟩)
        · exact Or.inr ⟨entry, hentry, hneeds⟩

/-- Entries with different paths, none of which has been written to, are all taken over. -/
theorem takeAll_eq_ok (hengine : ∀ request, (plan.engine request).LeavesFiles)
    {counts total : EntryCounts} {entries : List ArchiveEntry}
    (hnodup : (entries.map ArchiveEntry.path).Nodup)
    (hnew : ∀ entry ∈ entries, entry.path ∉ s.dest.paths)
    (h : takeAll source (transformJob source plan) counts entries s = .ok total s') :
    ∃ written, TookOver source plan entries written s s' := by
  induction entries generalizing counts s with
  | nil =>
    cases h
    exact ⟨[], rfl, by simp, .nil, by simp⟩
  | cons entry rest ih =>
    obtain ⟨hpath, hrest⟩ := List.nodup_cons.mp hnodup
    simp only [takeAll] at h
    obtain ⟨counts', middle, hentry, hlater⟩ := bind_eq_ok.mp h
    obtain ⟨node, htook⟩ := takeEntry_eq_ok hengine (hnew entry (List.mem_cons_self ..)) hentry
    have hnew' : ∀ other ∈ rest, other.path ∉ middle.dest.paths := by
      intro other hother hmem
      rw [htook.dest_eq, ZipWriter.paths_extend] at hmem
      rcases List.mem_append.mp hmem with hmem | hmem
      · exact hnew other (List.mem_cons_of_mem _ hother) hmem
      · have hsame : other.path = entry.path := by simpa using hmem
        exact hpath (hsame ▸ List.mem_map_of_mem hother)
    obtain ⟨written, hwritten⟩ := ih hrest hnew' hlater
    exact ⟨_, htook.append hwritten⟩

/-- However many jobs there are, a walk that succeeds has taken over all entries. -/
theorem run_eq_ok (hengine : ∀ request, (plan.engine request).LeavesFiles)
    (hschedule : ∀ jobs, (plan.schedule jobs).Perm jobs) {counts : EntryCounts}
    {entries : List ArchiveEntry} (hlist : source.list s.world.disk.files = .ok entries)
    (hnodup : (entries.map ArchiveEntry.path).Nodup)
    (hnew : ∀ entry ∈ entries, entry.path ∉ s.dest.paths)
    (h : run source plan s = .ok counts s') :
    ∃ written, TookOver source plan entries written s s' := by
  by_cases hjobs : 1 < plan.jobs
  · obtain ⟨t, hone, hdest, hrequired⟩ :=
      (run_several_ok_iff hengine hjobs hschedule s counts s'.dest s'.required).mp
        ⟨s', h, rfl, rfl⟩
    rw [run_one_eq, hlist] at hone
    obtain ⟨written, htook⟩ := takeAll_eq_ok hengine hnodup hnew hone
    have hstays := (keeps_run hengine keptByWrites_true).ok ⟨rfl, trivial⟩ h
    refine ⟨written, hstays.1, ?_, htook.outcomes, fun name => ?_⟩
    · rw [← hdest, htook.dest_eq]
    · rw [← hrequired, htook.required]
  · rw [run_eq, hlist] at h
    simp only [hjobs, if_false] at h
    exact takeAll_eq_ok hengine hnodup hnew h

end Walk

end Retarget

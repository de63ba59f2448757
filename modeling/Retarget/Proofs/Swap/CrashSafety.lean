import Retarget.Proofs.FileSystem.Places
import Retarget.Swap

/-!
The swap step by step. When the jar and the staged archive are files and the backup's path leads to
a place that is free or has a file, no step is refused; a backup path below a directory that is not
there leads nowhere. Wherever the steps are broken off, the old bytes are under the jar's or the
backup's path and the new ones under the staged or the jar's, and after the first rename completing
the swap gives what the whole swap gives.
-/
namespace Retarget.Swap

def steps (fs : FileSystem) (jar staged backup : Path) : List Change :=
  backupSteps fs jar backup ++ [.rename staged jar]

/-- What may be found whenever the steps of a swap are broken off. -/
structure Recoverable (fs : FileSystem) (jar staged backup : Path) (old new : Bytes) : Prop where
  old_kept : fs.readFile jar = .ok old ∨ fs.readFile backup = .ok old
  new_kept : fs.readFile staged = .ok new ∨ fs.readFile jar = .ok new
  jar_whole : fs.stat jar = .error .notFound ∨ fs.readFile jar = .ok old ∨
    fs.readFile jar = .ok new

structure Ready (fs : FileSystem) (jar staged backup : Path) (j s b : Location)
    (old new : Bytes) : Prop where
  jar_leads : fs.LeadsTo jar j
  jar_node : fs.node? j = some (.file old)
  staged_leads : fs.LeadsTo staged s
  staged_node : fs.node? s = some (.file new)
  backup_leads : fs.LeadsTo backup b
  backup_node : fs.node? b ≠ some .directory
  jar_ne_staged : j ≠ s
  jar_ne_backup : j ≠ b
  staged_ne_backup : s ≠ b

def cleared (fs : FileSystem) (backup : Path) (b : Location) : FileSystem :=
  if fs.pathExists backup then fs.unset b else fs

def halfway (fs : FileSystem) (backup : Path) (j b : Location) (old : Bytes) : FileSystem :=
  ((cleared fs backup b).unset j).set b (.file old)

def swapped (fs : FileSystem) (backup : Path) (j s b : Location) (old new : Bytes) : FileSystem :=
  ((halfway fs backup j b old).unset s).set j (.file new)

theorem performAll_cons {step : Change} {rest : List Change} {disk next : Disk}
    (h : Disk.perform step disk = .ok () next) :
    performAll (step :: rest) disk = performAll rest next := by
  simp [performAll, bind, EStateM.bind, h]

/-- Steps after steps that succeed. -/
theorem performAll_append {left right : List Change} {disk middle : Disk}
    (h : performAll left disk = .ok () middle) :
    performAll (left ++ right) disk = performAll right middle := by
  induction left generalizing disk with
  | nil =>
    cases h
    rfl
  | cons step rest ih =>
    cases hstep : Disk.perform step disk with
    | error kind next => simp [performAll, bind, EStateM.bind, hstep] at h
    | ok a next =>
      rw [performAll_cons hstep] at h
      rw [List.cons_append, performAll_cons hstep, ih h]

theorem perform_of_apply {change : Change} {before after : FileSystem} (journal : List Change)
    (h : before.apply change = .ok after) :
    Disk.perform change ⟨before, journal⟩ = .ok () ⟨after, journal ++ [change]⟩ := by
  simp [Disk.perform, h]

namespace Ready

variable {fs : FileSystem} {jar staged backup : Path} {j s b : Location} {old new : Bytes}

theorem node?_cleared (h : Ready fs jar staged backup j s b old new) (place : Location) :
    (cleared fs backup b).node? place = if place = b then none else fs.node? place := by
  unfold cleared
  split
  · exact FileSystem.node?_unset fs h.backup_leads.ne_nil place
  · next hfree =>
    rw [h.backup_leads.pathExists] at hfree
    split
    · next hplace => simpa [hplace] using hfree
    · rfl

theorem node?_halfway (h : Ready fs jar staged backup j s b old new) (place : Location) :
    (halfway fs backup j b old).node? place =
      if place = b then some (.file old) else if place = j then none else fs.node? place := by
  rw [halfway, FileSystem.node?_set _ h.backup_leads.ne_nil,
    FileSystem.node?_unset _ h.jar_leads.ne_nil, h.node?_cleared]
  split
  · rfl
  · rfl

theorem node?_swapped (h : Ready fs jar staged backup j s b old new) (place : Location) :
    (swapped fs backup j s b old new).node? place =
      if place = j then some (.file new) else if place = s then none
      else if place = b then some (.file old) else fs.node? place := by
  rw [swapped, FileSystem.node?_set _ h.jar_leads.ne_nil,
    FileSystem.node?_unset _ h.staged_leads.ne_nil, h.node?_halfway]
  by_cases hjar : place = j
  · simp [hjar]
  · simp [hjar]

theorem sameFolders_cleared (h : Ready fs jar staged backup j s b old new) :
    fs.SameFolders (cleared fs backup b) := by
  unfold cleared
  split
  · exact FileSystem.sameFolders_unset h.backup_leads.ne_nil h.backup_node
  · exact FileSystem.SameFolders.refl fs

theorem sameFolders_halfway (h : Ready fs jar staged backup j s b old new) :
    fs.SameFolders (halfway fs backup j b old) := by
  refine ⟨FileSystem.cwd_set .. |>.trans h.sameFolders_cleared.cwd_eq, ?_⟩
  intro place
  rw [h.node?_halfway]
  by_cases hb : place = b
  · simp [hb, h.backup_node]
  · by_cases hj : place = j
    · simp [hj, h.jar_ne_backup, h.jar_node]
    · simp [hb, hj]

theorem sameFolders_swapped (h : Ready fs jar staged backup j s b old new) :
    fs.SameFolders (swapped fs backup j s b old new) := by
  refine ⟨FileSystem.cwd_set .. |>.trans h.sameFolders_halfway.cwd_eq, ?_⟩
  intro place
  rw [h.node?_swapped]
  by_cases hj : place = j
  · simp [hj, h.jar_node]
  · by_cases hs : place = s
    · simp [hs, Ne.symm h.jar_ne_staged, h.staged_node]
    · by_cases hb : place = b
      · simp [hb, Ne.symm h.jar_ne_backup, Ne.symm h.staged_ne_backup, h.backup_node]
      · simp [hj, hs, hb]

/-- A file at the backup's place can be removed. -/
theorem remove_backup (h : Ready fs jar staged backup j s b old new)
    (hexists : fs.pathExists backup = true) :
    fs.apply (.remove backup) = .ok (cleared fs backup b) := by
  rw [h.backup_leads.pathExists, Option.isSome_iff_exists] at hexists
  obtain ⟨node, hnode⟩ := hexists
  cases node with
  | directory => exact absurd hnode h.backup_node
  | file content =>
    refine FileSystem.remove_eq_ok_iff.mpr ⟨b, content, h.backup_leads, hnode, ?_⟩
    rw [cleared, h.backup_leads.pathExists, hnode]
    rfl

theorem rename_jar (h : Ready fs jar staged backup j s b old new) :
    (cleared fs backup b).apply (.rename jar backup) = .ok (halfway fs backup j b old) := by
  have hfolders := h.sameFolders_cleared
  have hnode : (cleared fs backup b).node? j = some (.file old) := by
    rw [h.node?_cleared, if_neg h.jar_ne_backup, h.jar_node]
  refine (FileSystem.rename_eq_ok_iff (hfolders.leadsTo_iff.mpr h.jar_leads) hnode).mpr
    ⟨b, hfolders.leadsTo_iff.mpr h.backup_leads, ?_, ?_⟩
  · simp [h.node?_cleared]
  · rw [if_neg h.jar_ne_backup, halfway]

theorem rename_staged (h : Ready fs jar staged backup j s b old new) :
    (halfway fs backup j b old).apply (.rename staged jar) =
      .ok (swapped fs backup j s b old new) := by
  have hfolders := h.sameFolders_halfway
  have hnode : (halfway fs backup j b old).node? s = some (.file new) := by
    rw [h.node?_halfway, if_neg h.staged_ne_backup, if_neg (Ne.symm h.jar_ne_staged),
      h.staged_node]
  refine (FileSystem.rename_eq_ok_iff (hfolders.leadsTo_iff.mpr h.staged_leads) hnode).mpr
    ⟨j, hfolders.leadsTo_iff.mpr h.jar_leads, ?_, ?_⟩
  · simp [h.node?_halfway, h.jar_ne_backup]
  · rw [if_neg (Ne.symm h.jar_ne_staged), swapped]

/-- The removal, if there is one, and the disk after it. -/
theorem performAll_clearing {disk : Disk}
    (h : Ready disk.files jar staged backup j s b old new) (rest : List Change) :
    ∃ journal, performAll
        ((if disk.files.pathExists backup then [.remove backup] else []) ++ rest) disk =
      performAll rest ⟨cleared disk.files backup b, journal⟩ := by
  by_cases hexists : disk.files.pathExists backup = true
  · rw [if_pos hexists, List.singleton_append,
      performAll_cons (perform_of_apply disk.journal (h.remove_backup hexists))]
    exact ⟨_, rfl⟩
  · rw [if_neg hexists, cleared, if_neg hexists]
    exact ⟨disk.journal, rfl⟩

/-- The first rename succeeds, and the disk is halfway. -/
theorem performAll_backupSteps {disk : Disk}
    (h : Ready disk.files jar staged backup j s b old new) :
    ∃ journal, performAll (backupSteps disk.files jar backup) disk =
      .ok () ⟨halfway disk.files backup j b old, journal⟩ := by
  obtain ⟨journal, hclearing⟩ := h.performAll_clearing [.rename jar backup]
  refine ⟨journal ++ [.rename jar backup], ?_⟩
  rw [backupSteps, hclearing, performAll_cons (perform_of_apply journal h.rename_jar)]
  rfl

theorem recoverable_of_folders {after : FileSystem}
    (h : Ready fs jar staged backup j s b old new) (hfolders : fs.SameFolders after)
    (hold : after.node? j = some (.file old) ∨ after.node? b = some (.file old))
    (hnew : after.node? s = some (.file new) ∨ after.node? j = some (.file new))
    (hjar : after.node? j = none ∨ after.node? j = some (.file old) ∨
      after.node? j = some (.file new)) :
    Recoverable after jar staged backup old new := by
  have hj : after.LeadsTo jar j := hfolders.leadsTo_iff.mpr h.jar_leads
  have hs : after.LeadsTo staged s := hfolders.leadsTo_iff.mpr h.staged_leads
  have hb : after.LeadsTo backup b := hfolders.leadsTo_iff.mpr h.backup_leads
  refine ⟨hold.imp hj.readFile hb.readFile, hnew.imp hs.readFile hj.readFile,
    hjar.imp (fun hnone => ?_) (Or.imp hj.readFile hj.readFile)⟩
  rw [hj.stat, hnone]

theorem recoverable_start (h : Ready fs jar staged backup j s b old new) :
    Recoverable fs jar staged backup old new :=
  h.recoverable_of_folders (FileSystem.SameFolders.refl fs) (Or.inl h.jar_node)
    (Or.inl h.staged_node) (Or.inr (Or.inl h.jar_node))

theorem recoverable_cleared (h : Ready fs jar staged backup j s b old new) :
    Recoverable (cleared fs backup b) jar staged backup old new := by
  have hj : (cleared fs backup b).node? j = some (.file old) := by
    rw [h.node?_cleared, if_neg h.jar_ne_backup, h.jar_node]
  have hs : (cleared fs backup b).node? s = some (.file new) := by
    rw [h.node?_cleared, if_neg h.staged_ne_backup, h.staged_node]
  exact h.recoverable_of_folders h.sameFolders_cleared (Or.inl hj) (Or.inl hs)
    (Or.inr (Or.inl hj))

theorem recoverable_halfway (h : Ready fs jar staged backup j s b old new) :
    Recoverable (halfway fs backup j b old) jar staged backup old new := by
  have hj : (halfway fs backup j b old).node? j = none := by
    rw [h.node?_halfway, if_neg h.jar_ne_backup, if_pos rfl]
  have hs : (halfway fs backup j b old).node? s = some (.file new) := by
    rw [h.node?_halfway, if_neg h.staged_ne_backup, if_neg (Ne.symm h.jar_ne_staged),
      h.staged_node]
  have hb : (halfway fs backup j b old).node? b = some (.file old) := by
    rw [h.node?_halfway, if_pos rfl]
  exact h.recoverable_of_folders h.sameFolders_halfway (Or.inr hb) (Or.inl hs) (Or.inl hj)

theorem recoverable_swapped (h : Ready fs jar staged backup j s b old new) :
    Recoverable (swapped fs backup j s b old new) jar staged backup old new := by
  have hj : (swapped fs backup j s b old new).node? j = some (.file new) := by
    rw [h.node?_swapped, if_pos rfl]
  have hb : (swapped fs backup j s b old new).node? b = some (.file old) := by
    rw [h.node?_swapped, if_neg (Ne.symm h.jar_ne_backup), if_neg (Ne.symm h.staged_ne_backup),
      if_pos rfl]
  exact h.recoverable_of_folders h.sameFolders_swapped (Or.inr hb) (Or.inr hj)
    (Or.inr (Or.inr hj))

/-- The two renames broken off anywhere. -/
theorem recoverable_take_renames (h : Ready fs jar staged backup j s b old new)
    (journal : List Change) (n : Nat) :
    ∃ stopped, performAll
        ([Change.rename jar backup, .rename staged jar].take n)
        ⟨cleared fs backup b, journal⟩ = .ok () stopped ∧
      Recoverable stopped.files jar staged backup old new := by
  have hfirst := perform_of_apply journal h.rename_jar
  have hsecond := perform_of_apply (journal ++ [.rename jar backup]) h.rename_staged
  match n with
  | 0 => exact ⟨_, rfl, h.recoverable_cleared⟩
  | 1 =>
    exact ⟨⟨halfway fs backup j b old, _⟩, performAll_cons hfirst, h.recoverable_halfway⟩
  | n + 2 =>
    refine ⟨⟨swapped fs backup j s b old new,
      journal ++ [.rename jar backup] ++ [.rename staged jar]⟩, ?_, h.recoverable_swapped⟩
    rw [List.take_succ_cons, performAll_cons hfirst, List.take_succ_cons,
      performAll_cons hsecond, List.take_nil]
    rfl

/-- Whenever the steps are broken off, both contents can be had. -/
theorem recoverable_take {disk : Disk} (h : Ready disk.files jar staged backup j s b old new)
    (n : Nat) :
    ∃ stopped, performAll ((steps disk.files jar staged backup).take n) disk = .ok () stopped ∧
      Recoverable stopped.files jar staged backup old new := by
  unfold steps backupSteps
  by_cases hexists : disk.files.pathExists backup = true
  · rw [if_pos hexists]
    cases n with
    | zero => exact ⟨disk, rfl, h.recoverable_start⟩
    | succ n =>
      have hremove := perform_of_apply disk.journal (h.remove_backup hexists)
      obtain ⟨stopped, hstopped, hsafe⟩ :=
        h.recoverable_take_renames (disk.journal ++ [.remove backup]) n
      exact ⟨stopped, (performAll_cons hremove).trans hstopped, hsafe⟩
  · have hcleared : cleared disk.files backup b = disk.files := by rw [cleared, if_neg hexists]
    obtain ⟨stopped, hstopped, hsafe⟩ := h.recoverable_take_renames disk.journal n
    rw [hcleared] at hstopped
    rw [if_neg hexists]
    exact ⟨stopped, hstopped, hsafe⟩

/-- The second rename, made at once or later. -/
theorem perform_rename_staged (h : Ready fs jar staged backup j s b old new)
    (journal : List Change) :
    Disk.perform (.rename staged jar) ⟨halfway fs backup j b old, journal⟩ =
      .ok () ⟨swapped fs backup j s b old new, journal ++ [.rename staged jar]⟩ :=
  perform_of_apply journal h.rename_staged

/-- The steps make the swap, and it succeeds. -/
theorem swap_eq {disk : Disk} (h : Ready disk.files jar staged backup j s b old new) :
    ∃ journal,
      performAll (backupSteps disk.files jar backup) disk =
        .ok () ⟨halfway disk.files backup j b old, journal⟩ ∧
      Swap.swap jar staged backup disk =
        .ok () ⟨swapped disk.files backup j s b old new, journal ++ [.rename staged jar]⟩ ∧
      performAll (steps disk.files jar staged backup) disk =
        .ok () ⟨swapped disk.files backup j s b old new, journal ++ [.rename staged jar]⟩ := by
  obtain ⟨journal, hhalf⟩ := h.performAll_backupSteps
  have hlast := h.perform_rename_staged journal
  refine ⟨journal, hhalf, ?_, ?_⟩
  · simp only [Swap.swap, hhalf, hlast]
  · rw [steps, performAll_append hhalf, performAll_cons hlast]
    rfl

/-- After the swap the two contents are where they belong, and no other place has changed. -/
theorem readFile_swapped (h : Ready fs jar staged backup j s b old new) :
    (swapped fs backup j s b old new).readFile jar = .ok new ∧
      (swapped fs backup j s b old new).readFile backup = .ok old ∧
      (swapped fs backup j s b old new).stat staged = .error .notFound := by
  have hfolders := h.sameFolders_swapped
  refine ⟨(hfolders.leadsTo_iff.mpr h.jar_leads).readFile ?_,
    (hfolders.leadsTo_iff.mpr h.backup_leads).readFile ?_, ?_⟩
  · rw [h.node?_swapped, if_pos rfl]
  · rw [h.node?_swapped, if_neg (Ne.symm h.jar_ne_backup), if_neg (Ne.symm h.staged_ne_backup),
      if_pos rfl]
  · rw [(hfolders.leadsTo_iff.mpr h.staged_leads).stat, h.node?_swapped,
      if_neg (Ne.symm h.jar_ne_staged), if_pos rfl]

/-- Between the renames the swap can be completed. -/
theorem complete_halfway (h : Ready fs jar staged backup j s b old new) (journal : List Change) :
    complete staged jar ⟨halfway fs backup j b old, journal⟩ =
      .ok () ⟨swapped fs backup j s b old new, journal ++ [.rename staged jar]⟩ := by
  have hstaged : (halfway fs backup j b old).isFile staged = true := by
    refine FileSystem.isFile_iff.mpr
      ⟨s, new, h.sameFolders_halfway.leadsTo_iff.mpr h.staged_leads, ?_⟩
    rw [h.node?_halfway, if_neg h.staged_ne_backup, if_neg (Ne.symm h.jar_ne_staged),
      h.staged_node]
  have hjar : (halfway fs backup j b old).pathExists jar = false := by
    rw [(h.sameFolders_halfway.leadsTo_iff.mpr h.jar_leads).pathExists, h.node?_halfway,
      if_neg h.jar_ne_backup, if_pos rfl]
    rfl
  simp [complete, hstaged, hjar, h.perform_rename_staged]

end Ready

theorem performAll_of_refused {step : Change} {rest : List Change} {disk : Disk}
    (h : ∀ after, disk.files.apply step ≠ .ok after) :
    ∃ kind, performAll (step :: rest) disk = .error kind disk := by
  cases happly : disk.files.apply step with
  | ok after => exact absurd happly (h after)
  | error kind =>
    refine ⟨kind, ?_⟩
    simp [performAll, bind, EStateM.bind, Disk.perform, happly]

/-- Where no file can be put under the backup's path, the first step is refused. -/
theorem performAll_backupSteps_of_blocked {disk : Disk} {jar backup : Path} {j : Location}
    {old : Bytes} (hjar : disk.files.LeadsTo jar j) (hnode : disk.files.node? j = some (.file old))
    (hblocked : ∀ b, disk.files.LeadsTo backup b → disk.files.node? b = some .directory) :
    ∃ kind, performAll (backupSteps disk.files jar backup) disk = .error kind disk := by
  unfold backupSteps
  split
  · apply performAll_of_refused
    intro after hremove
    obtain ⟨b, content, hleads, hfile, _⟩ := FileSystem.remove_eq_ok_iff.mp hremove
    simp [hblocked b hleads] at hfile
  · apply performAll_of_refused
    intro after hrename
    obtain ⟨b, hleads, hfree, _⟩ := (FileSystem.rename_eq_ok_iff hjar hnode).mp hrename
    exact hfree (hblocked b hleads)

/-- A swap of two files that fails has changed nothing, so it did not get to its second rename. -/
theorem swap_error {disk disk' : Disk} {jar staged backup : Path} {j s : Location}
    {old new : Bytes} {fault : SwapError} (hjar : disk.files.LeadsTo jar j)
    (hjar_node : disk.files.node? j = some (.file old)) (hstaged : disk.files.LeadsTo staged s)
    (hstaged_node : disk.files.node? s = some (.file new)) (hne : j ≠ s)
    (hbackup : ∀ b, disk.files.LeadsTo backup b → j ≠ b ∧ s ≠ b)
    (h : swap jar staged backup disk = .error fault disk') :
    disk' = disk ∧ ∃ kind, fault = .backup jar backup kind := by
  by_cases hfree : ∃ b, disk.files.LeadsTo backup b ∧ disk.files.node? b ≠ some .directory
  · obtain ⟨b, hleads, hnode⟩ := hfree
    have hready : Ready disk.files jar staged backup j s b old new :=
      ⟨hjar, hjar_node, hstaged, hstaged_node, hleads, hnode, hne, (hbackup b hleads).1,
        (hbackup b hleads).2⟩
    obtain ⟨journal, _, hswap, _⟩ := hready.swap_eq
    rw [hswap] at h
    cases h
  · have hblocked : ∀ b, disk.files.LeadsTo backup b → disk.files.node? b = some .directory := by
      intro b hleads
      exact Decidable.byContradiction fun hnode => hfree ⟨b, hleads, hnode⟩
    obtain ⟨kind, hrefused⟩ := performAll_backupSteps_of_blocked hjar hjar_node hblocked
    simp only [swap, hrefused, EStateM.Result.error.injEq] at h
    exact ⟨h.2.symm, kind, h.1.symm⟩

/-- A swap of files never fails, changes three places, and can be broken off anywhere: both contents
stay whole, and completing what was stopped between the renames gives what the swap gives. -/
theorem swap_survives_interruption {disk : Disk} {jar staged backup : Path}
    {jarPlace stagedPlace backupPlace : Location} {old new : Bytes}
    (hjar : disk.files.stat jar = .ok (jarPlace, .file old))
    (hstaged : disk.files.stat staged = .ok (stagedPlace, .file new))
    (hbackup : disk.files.LeadsTo backup backupPlace)
    (hfree : disk.files.node? backupPlace ≠ some .directory)
    (hdistinct : jarPlace ≠ stagedPlace ∧ jarPlace ≠ backupPlace ∧ stagedPlace ≠ backupPlace) :
    ∃ final middle,
      swap jar staged backup disk = .ok () final ∧
      (final.files.readFile jar = .ok new ∧ final.files.readFile backup = .ok old ∧
        final.files.stat staged = .error .notFound ∧ disk.files.SameFolders final.files ∧
        ∀ place, place ≠ jarPlace → place ≠ stagedPlace → place ≠ backupPlace →
          final.files.node? place = disk.files.node? place) ∧
      (∀ n, ∃ stopped,
        performAll ((steps disk.files jar staged backup).take n) disk = .ok () stopped ∧
        Recoverable stopped.files jar staged backup old new) ∧
      performAll (steps disk.files jar staged backup) disk = .ok () final ∧
      performAll (backupSteps disk.files jar backup) disk = .ok () middle ∧
      complete staged jar middle = .ok () final := by
  obtain ⟨hjar_leads, hjar_node⟩ := FileSystem.stat_eq_file_iff.mp hjar
  obtain ⟨hstaged_leads, hstaged_node⟩ := FileSystem.stat_eq_file_iff.mp hstaged
  have h : Ready disk.files jar staged backup jarPlace stagedPlace backupPlace old new :=
    ⟨hjar_leads, hjar_node, hstaged_leads, hstaged_node, hbackup, hfree, hdistinct.1,
      hdistinct.2.1, hdistinct.2.2⟩
  obtain ⟨journal, hhalf, hswap, hsteps⟩ := h.swap_eq
  obtain ⟨hnew, hold, hgone⟩ := h.readFile_swapped
  refine ⟨_, _, hswap, ⟨hnew, hold, hgone, h.sameFolders_swapped, ?_⟩, h.recoverable_take,
    hsteps, hhalf, h.complete_halfway journal⟩
  intro place hj hs hb
  rw [h.node?_swapped, if_neg hj, if_neg hs, if_neg hb]

/-- A directory with a jar, an archive staged beside it and the backup of an earlier run. -/
def threeJars : Disk :=
  .ofFiles ⟨[], [(["app.jar".toList], .file [1]), (["app-new.jar".toList], .file [2]),
    (["app-old.jar".toList], .file [3])]⟩

theorem swap_survives_interruption_threeJars :
    threeJars.files.stat (.ofString "app.jar") = .ok (["app.jar".toList], .file [1]) ∧
      threeJars.files.stat (.ofString "app-new.jar") = .ok (["app-new.jar".toList], .file [2]) ∧
      threeJars.files.LeadsTo (.ofString "app-old.jar") ["app-old.jar".toList] ∧
      threeJars.files.node? ["app-old.jar".toList] ≠ some .directory ∧
      ∃ final, swap (.ofString "app.jar") (.ofString "app-new.jar") (.ofString "app-old.jar")
          threeJars = .ok () final ∧
        final.files.readFile (.ofString "app.jar") = .ok [2] ∧
        final.files.readFile (.ofString "app-old.jar") = .ok [1] ∧
        ∀ n, ∃ stopped,
          performAll ((steps threeJars.files (.ofString "app.jar") (.ofString "app-new.jar")
            (.ofString "app-old.jar")).take n) threeJars = .ok () stopped ∧
          Recoverable stopped.files (.ofString "app.jar") (.ofString "app-new.jar")
            (.ofString "app-old.jar") [1] [2] := by
  have hjar : threeJars.files.stat (.ofString "app.jar") = .ok (["app.jar".toList], .file [1]) := by
    rfl
  have hstaged : threeJars.files.stat (.ofString "app-new.jar") =
      .ok (["app-new.jar".toList], .file [2]) := by rfl
  have hbackup : threeJars.files.LeadsTo (.ofString "app-old.jar") ["app-old.jar".toList] :=
    ⟨[], "app-old.jar".toList, by rfl, by decide, rfl⟩
  have hfree : threeJars.files.node? ["app-old.jar".toList] ≠ some .directory := by decide
  obtain ⟨final, _, hswap, ⟨hnew, hold, _⟩, hprefix, _⟩ :=
    swap_survives_interruption hjar hstaged hbackup hfree (by decide)
  exact ⟨hjar, hstaged, hbackup, hfree, final, hswap, hnew, hold, hprefix⟩

def twoJars : Disk :=
  .ofFiles ⟨[], [(["app.jar".toList], .file [1]), (["app-new.jar".toList], .file [2])]⟩

/-- That nothing is under the backup's path is not enough: its directory has to be there. -/
theorem backup_needs_its_directory :
    ¬∀ (disk : Disk) (jar staged backup : Path) (jarPlace stagedPlace : Location)
        (old new : Bytes),
      disk.files.stat jar = .ok (jarPlace, .file old) →
      disk.files.stat staged = .ok (stagedPlace, .file new) →
      (disk.files.stat backup = .error .notFound ∨
        ∃ place content, disk.files.stat backup = .ok (place, .file content)) →
      jar ≠ staged → jar ≠ backup → staged ≠ backup →
      ∃ final, swap jar staged backup disk = .ok () final := by
  intro hsucceeds
  obtain ⟨final, hfinal⟩ := hsucceeds twoJars (.ofString "app.jar") (.ofString "app-new.jar")
    (.ofString "bak/app.jar") ["app.jar".toList] ["app-new.jar".toList] [1] [2] (by rfl) (by rfl)
    (Or.inl (by rfl)) (by decide) (by decide) (by decide)
  have hrefused : swap (.ofString "app.jar") (.ofString "app-new.jar") (.ofString "bak/app.jar")
      twoJars = .error (.backup (.ofString "app.jar") (.ofString "bak/app.jar") .notFound)
        twoJars := by rfl
  rw [hrefused] at hfinal
  cases hfinal

end Retarget.Swap

import Retarget.FileSystem.Change
import Retarget.Proofs.Lists.Lookup

/-!
What each change does to a file system, place by place. A path leads to a place when a file can be
there under that path. Making, filling, removing and renaming files touches the places that the
paths lead to and no other, and since no directory comes or goes, every path still leads to the
place that it led to before.
-/
namespace Retarget.FileSystem

theorem node?_set (fs : FileSystem) {place : Location} (hplace : place ≠ []) (node : Node)
    (other : Location) :
    (fs.set place node).node? other = if other = place then some node else fs.node? other := by
  by_cases hroot : other = []
  · subst hroot
    simp [node?, Ne.symm hplace]
  · unfold set
    split
    · next hmem =>
      simp only [node?, hroot, if_false, lookup_map_put, hmem, and_true]
    · next hmem =>
      simp only [node?, hroot, if_false, List.lookup_append]
      by_cases hother : other = place
      · subst hother
        simp [lookup_eq_none_iff.mpr hmem]
      · have hne : (other == place) = false := by simpa using hother
        simp [List.lookup_cons, hother, hne]

theorem node?_unset (fs : FileSystem) {place : Location} (hplace : place ≠ [])
    (other : Location) :
    (fs.unset place).node? other = if other = place then none else fs.node? other := by
  by_cases hroot : other = []
  · subst hroot
    simp [node?, Ne.symm hplace]
  · simp only [node?, unset, hroot, if_false, lookup_filter_ne]

theorem cwd_set (fs : FileSystem) (place : Location) (node : Node) :
    (fs.set place node).cwd = fs.cwd := by
  unfold set
  split <;> rfl

/-- The path ends at a name under which a file can be: the directories on its way are there, and
it can be looked at and made there. -/
def LeadsTo (fs : FileSystem) (path : Path) (place : Location) : Prop :=
  ∃ folder name, fs.locate path = .ok (.entry folder name false) ∧ IsUsableName name ∧
    place = folder ++ [name]

theorem LeadsTo.unique {fs : FileSystem} {path : Path} {a b : Location}
    (ha : fs.LeadsTo path a) (hb : fs.LeadsTo path b) : a = b := by
  obtain ⟨folder, name, hlocate, _, rfl⟩ := ha
  obtain ⟨folder', name', hlocate', _, rfl⟩ := hb
  rw [hlocate] at hlocate'
  cases hlocate'
  rfl

theorem LeadsTo.ne_nil {fs : FileSystem} {path : Path} {place : Location}
    (h : fs.LeadsTo path place) : place ≠ [] := by
  obtain ⟨folder, name, _, _, rfl⟩ := h
  simp

theorem LeadsTo.stat {fs : FileSystem} {path : Path} {place : Location}
    (h : fs.LeadsTo path place) :
    fs.stat path = match fs.node? place with
      | none => .error .notFound
      | some node => .ok (place, node) := by
  obtain ⟨folder, name, hlocate, hname, rfl⟩ := h
  simp only [FileSystem.stat, hlocate, find, hname, if_true]
  cases fs.node? (folder ++ [name]) with
  | none => rfl
  | some node => cases node <;> rfl

theorem LeadsTo.pathExists {fs : FileSystem} {path : Path} {place : Location}
    (h : fs.LeadsTo path place) : fs.pathExists path = (fs.node? place).isSome := by
  rw [FileSystem.pathExists, h.stat]
  cases fs.node? place <;> rfl

/-- A file is found under a path when the path leads to a place with a file. -/
theorem stat_eq_file_iff {fs : FileSystem} {path : Path} {place : Location} {content : Bytes} :
    fs.stat path = .ok (place, .file content) ↔
      fs.LeadsTo path place ∧ fs.node? place = some (.file content) := by
  constructor
  · intro h
    unfold FileSystem.stat find at h
    split at h
    · simp at h
    · simp at h
    · next folder name slash hlocate =>
      by_cases hname : IsUsableName name
      · simp only [hname, if_true] at h
        split at h
        · next hfound => simp at hfound
        · simp at h
        · next found hfound =>
          cases slash with
          | true => simp at h
          | false =>
            simp only [Bool.false_eq_true, if_false, Except.ok.injEq, Prod.mk.injEq,
              Node.file.injEq] at h hfound
            obtain ⟨rfl, rfl⟩ := h
            exact ⟨⟨folder, name, hlocate, hname, rfl⟩, hfound⟩
        · simp at h
      · simp [hname] at h
  · intro h
    obtain ⟨hleads, hnode⟩ := h
    rw [hleads.stat, hnode]

theorem readFile_eq_ok_iff {fs : FileSystem} {path : Path} {content : Bytes} :
    fs.readFile path = .ok content ↔
      ∃ place, fs.LeadsTo path place ∧ fs.node? place = some (.file content) := by
  constructor
  · intro h
    unfold readFile at h
    split at h
    · simp at h
    · simp at h
    · next place found hstat =>
      cases h
      exact ⟨place, stat_eq_file_iff.mp hstat⟩
  · intro h
    obtain ⟨place, h⟩ := h
    rw [readFile, stat_eq_file_iff.mpr h]

theorem LeadsTo.readFile {fs : FileSystem} {path : Path} {place : Location} {content : Bytes}
    (h : fs.LeadsTo path place) (hnode : fs.node? place = some (.file content)) :
    fs.readFile path = .ok content :=
  readFile_eq_ok_iff.mpr ⟨place, h, hnode⟩

theorem isFile_iff {fs : FileSystem} {path : Path} :
    fs.isFile path = true ↔
      ∃ place content, fs.LeadsTo path place ∧ fs.node? place = some (.file content) := by
  constructor
  · intro h
    unfold isFile at h
    split at h
    · next place content hstat => exact ⟨place, content, stat_eq_file_iff.mp hstat⟩
    · simp at h
  · intro h
    obtain ⟨place, content, h⟩ := h
    rw [isFile, stat_eq_file_iff.mpr h]

/-- Two file systems with the same directories: what differs is in and of files. -/
structure SameFolders (before after : FileSystem) : Prop where
  cwd_eq : after.cwd = before.cwd
  directory_iff : ∀ place, after.node? place = some .directory ↔
    before.node? place = some .directory

namespace SameFolders

variable {before middle after : FileSystem}

theorem refl (fs : FileSystem) : SameFolders fs fs :=
  ⟨rfl, fun _ => Iff.rfl⟩

theorem symm (h : SameFolders before after) : SameFolders after before :=
  ⟨h.cwd_eq.symm, fun place => (h.directory_iff place).symm⟩

theorem trans (h : SameFolders before middle) (h' : SameFolders middle after) :
    SameFolders before after :=
  ⟨h'.cwd_eq.trans h.cwd_eq, fun place => (h'.directory_iff place).trans (h.directory_iff place)⟩

theorem walk_eq_ok (h : SameFolders before after) {here folder : Location} {steps : List Text}
    (hwalk : before.walk here steps = .ok folder) : after.walk here steps = .ok folder := by
  induction steps generalizing here with
  | nil => simpa [walk] using hwalk
  | cons step rest ih =>
    unfold walk at hwalk ⊢
    split
    · next hdot => exact ih (by simpa [hdot] using hwalk)
    · next hdot =>
      split
      · next hup => exact ih (by simpa [hdot, hup] using hwalk)
      · next hup =>
        simp only [hdot, hup, if_false] at hwalk
        cases hnode : before.node? (here ++ [step]) with
        | none => simp [hnode] at hwalk
        | some node =>
          cases node with
          | file content => simp [hnode] at hwalk
          | directory =>
            rw [hnode] at hwalk
            rw [(h.directory_iff _).mpr hnode]
            exact ih hwalk

theorem locate_eq_ok (h : SameFolders before after) {path : Path} {target : Target}
    (hlocate : before.locate path = .ok target) : after.locate path = .ok target := by
  unfold locate at hlocate ⊢
  rw [h.cwd_eq]
  split
  · next hempty => simp [hempty] at hlocate
  · next hempty =>
    rw [if_neg hempty] at hlocate
    split
    · next hunusable => simp [hunusable] at hlocate
    · next husable =>
      rw [if_neg husable] at hlocate
      cases hlast : (steps path).getLast? with
      | none => simpa [hlast] using hlocate
      | some last =>
        simp only [hlast] at hlocate ⊢
        split at hlocate
        · simp at hlocate
        · next folder hwalk => rw [h.walk_eq_ok hwalk]; exact hlocate

/-- Where directories stay, paths lead where they led. -/
theorem leadsTo_iff (h : SameFolders before after) {path : Path} {place : Location} :
    after.LeadsTo path place ↔ before.LeadsTo path place := by
  constructor
  · intro h
    obtain ⟨folder, name, hlocate, hrest⟩ := h
    exact ⟨folder, name, h.symm.locate_eq_ok hlocate, hrest⟩
  · intro h
    obtain ⟨folder, name, hlocate, hrest⟩ := h
    exact ⟨folder, name, h.locate_eq_ok hlocate, hrest⟩

end SameFolders

theorem sameFolders_set {fs : FileSystem} {place : Location} (hplace : place ≠ [])
    (hnode : fs.node? place ≠ some .directory) (content : Bytes) :
    SameFolders fs (fs.set place (.file content)) := by
  refine ⟨cwd_set .., ?_⟩
  intro other
  rw [node?_set fs hplace]
  by_cases hother : other = place
  · subst hother
    simp [hnode]
  · simp [hother]

theorem sameFolders_unset {fs : FileSystem} {place : Location} (hplace : place ≠ [])
    (hnode : fs.node? place ≠ some .directory) : SameFolders fs (fs.unset place) := by
  refine ⟨rfl, ?_⟩
  intro other
  rw [node?_unset fs hplace]
  by_cases hother : other = place
  · subst hother
    simp [hnode]
  · simp [hother]

/-- A file is written where the path leads, unless a directory is there. -/
theorem write_eq_ok_iff {fs after : FileSystem} {path : Path} {content : Bytes} :
    fs.write path content = .ok after ↔
      ∃ place, fs.LeadsTo path place ∧ fs.node? place ≠ some .directory ∧
        after = fs.set place (.file content) := by
  constructor
  · intro h
    unfold write find at h
    split at h
    · simp at h
    · simp at h
    · next folder name slash hlocate =>
      cases slash with
      | true => simp at h
      | false =>
        by_cases hname : IsUsableName name
        · simp only [hname, if_true, Bool.false_eq_true, if_false] at h
          refine ⟨folder ++ [name], ⟨folder, name, hlocate, hname, rfl⟩, ?_, ?_⟩
          · intro hnode
            simp [hnode] at h
          · split at h
            · next hfound => simp at hfound
            · simp at h
            · cases h
              rfl
        · simp [hname] at h
  · intro h
    obtain ⟨_, ⟨folder, name, hlocate, hname, rfl⟩, hnode, rfl⟩ := h
    simp [write, hlocate, find, hname]

/-- A file is removed from where the path leads. -/
theorem remove_eq_ok_iff {fs after : FileSystem} {path : Path} :
    fs.remove path = .ok after ↔
      ∃ place content, fs.LeadsTo path place ∧ fs.node? place = some (.file content) ∧
        after = fs.unset place := by
  constructor
  · intro h
    unfold remove find at h
    split at h
    · simp at h
    · simp at h
    · next folder name slash hlocate =>
      by_cases hname : IsUsableName name
      · simp only [hname, if_true] at h
        split at h
        · simp at h
        · simp at h
        · simp at h
        · next content hfound =>
          cases slash with
          | true => simp at h
          | false =>
            cases h
            exact ⟨_, content, ⟨folder, name, hlocate, hname, rfl⟩, Except.ok.inj hfound, rfl⟩
      · simp [hname] at h
  · intro h
    obtain ⟨_, content, ⟨folder, name, hlocate, hname, rfl⟩, hnode, rfl⟩ := h
    simp [remove, hlocate, find, hname, hnode]

/-- A path that ends at a name can lead to a place, or asks for a directory, or is too long. -/
private theorem rename_file_entry {fs : FileSystem} {source target : Path}
    {folder folder' : Location} {name name' : Text} {slash : Bool} {content : Bytes}
    (hsource : fs.locate source = .ok (.entry folder name false)) (hname : IsUsableName name)
    (hnode : fs.node? (folder ++ [name]) = some (.file content))
    (htarget : fs.locate target = .ok (.entry folder' name' slash)) :
    fs.rename source target =
      if IsUsableName name' then
        if slash then .error .notADirectory
        else fs.move (folder ++ [name]) (folder' ++ [name']) (.file content)
      else .error .other := by
  simp only [rename, hsource, htarget, find, hname, if_true, hnode]
  by_cases hname' : IsUsableName name'
  · cases slash <;> simp [hname']
  · simp [hname']

/-- A file takes the place that the new path leads to, unless a directory is there. -/
theorem rename_eq_ok_iff {fs after : FileSystem} {source target : Path} {a : Location}
    {content : Bytes} (hsource : fs.LeadsTo source a)
    (hnode : fs.node? a = some (.file content)) :
    fs.rename source target = .ok after ↔
      ∃ b, fs.LeadsTo target b ∧ fs.node? b ≠ some .directory ∧
        after = if a = b then fs else (fs.unset a).set b (.file content) := by
  obtain ⟨folder, name, hlocate, hname, rfl⟩ := hsource
  constructor
  · intro h
    cases htarget : fs.locate target with
    | error kind => simp [rename, hlocate, htarget] at h
    | ok target' =>
      cases target' with
      | directory place => simp [rename, hlocate, htarget] at h
      | entry folder' name' slash =>
        rw [rename_file_entry hlocate hname hnode htarget] at h
        split at h
        · next hname' =>
          split at h
          · simp at h
          · next hslash =>
            have hentry : slash = false := by simpa using hslash
            subst hentry
            refine ⟨_, ⟨folder', name', htarget, hname', rfl⟩, ?_⟩
            simp only [move, moveFile] at h
            split at h
            · next hsame =>
              rw [← hsame, hnode, if_pos rfl]
              exact ⟨by simp, (Except.ok.inj h).symm⟩
            · next hsame =>
              split at h
              · simp at h
              · next hdir => exact ⟨hdir, by rw [if_neg hsame]; exact (Except.ok.inj h).symm⟩
        · simp at h
  · intro h
    obtain ⟨_, ⟨folder', name', htarget, hname', rfl⟩, hdir, rfl⟩ := h
    rw [rename_file_entry hlocate hname hnode htarget, if_pos hname']
    by_cases hsame : folder ++ [name] = folder' ++ [name']
    · simp [move, hsame]
    · simp [move, hsame, moveFile, hdir]

end Retarget.FileSystem

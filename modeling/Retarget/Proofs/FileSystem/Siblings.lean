import Retarget.Proofs.FileSystem.Places
import Retarget.Proofs.Path.Siblings
import Retarget.Settings

/-!
A path and the file beside it lead to two names in one directory. So the input of a run, the archive
that is staged beside it and the backup are at three places that differ in their last name alone.
-/
namespace Retarget.FileSystem

open Retarget.Path

/-- Dots among the steps of a walk change nothing. -/
theorem walk_filter_dots (fs : FileSystem) (here : Location) (steps : List Text) :
    fs.walk here (steps.filter fun step => step != ['.']) = fs.walk here steps := by
  induction steps generalizing here with
  | nil => rfl
  | cons step rest ih =>
    by_cases hdot : step = ['.']
    · subst hdot
      simpa [walk] using ih here
    · have hkeep : (step != ['.']) = true := by simpa using hdot
      rw [List.filter_cons_of_pos (by exact hkeep)]
      simp only [walk, hdot, if_false, ih]

theorem liveSteps_eq (t : Text) :
    liveSteps t = ((t.splitOn '/').filter (· ≠ [])).filter fun step => step != ['.'] := by
  rw [liveSteps, List.filter_filter]
  congr 1
  funext piece
  by_cases hpiece : piece = [] <;> simp [isIdle, hpiece, bne]

theorem steps_of_endsIn {path : Path} {front name : Text} (h : path.EndsIn front name) :
    steps path = (front.splitOn '/').filter (· ≠ []) ++ [name] := by
  rw [steps]
  rcases h.front_ends with rfl | ⟨before, rfl⟩
  · simp [h.pieces_of_nil, h.name_ne.1, Text.splitOn]
  · rw [h.pieces, Text.splitOn_append_sep]
    simp [h.name_ne.1, Text.splitOn]

/-- A path that ends in a name ends there in the directory that its front leads to. -/
theorem locate_of_endsIn (fs : FileSystem) {path : Path} {front name : Text}
    (h : path.EndsIn front name) :
    fs.locate path =
      if IsUsable path then
        (fs.walk (if path.isAbsolute then [] else fs.cwd) (liveSteps front)).map
          fun folder => .entry folder name false
      else .error .other := by
  have hne : path.text ≠ [] := by simp [h.text_eq, h.name_ne.1]
  have hlast : (path.text.getLast? == some '/') = false := by
    rw [h.text_eq, List.getLast?_append, List.getLast?_eq_some_getLast h.name_ne.1]
    simpa using fun hslash : name.getLast h.name_ne.1 = '/' =>
      h.no_slash (hslash ▸ List.getLast_mem h.name_ne.1)
  unfold locate
  rw [if_neg hne, steps_of_endsIn h, List.getLast?_concat, List.dropLast_concat, hlast,
    liveSteps_eq, walk_filter_dots]
  by_cases husable : IsUsable path
  · simp only [husable, not_true_eq_false, if_false, if_true, h.name_ne.2.1, h.name_ne.2.2]
    split
    · next hwalk => rw [hwalk]; rfl
    · next hwalk => rw [hwalk]; rfl
  · simp only [husable, not_false_eq_true, if_true, if_false]

theorem exists_front_and_last (t : Text) :
    ∃ front last, t = front ++ last ∧ (front = [] ∨ ∃ before, front = before ++ ['/']) ∧
      '/' ∉ last := by
  induction t with
  | nil => exact ⟨[], [], rfl, Or.inl rfl, by simp⟩
  | cons c cs ih =>
    obtain ⟨front, last, rfl, hfront, hlast⟩ := ih
    rcases hfront with rfl | ⟨before, rfl⟩
    · by_cases hc : c = '/'
      · exact ⟨[c], last, rfl, Or.inr ⟨[], by simp [hc]⟩, hlast⟩
      · exact ⟨[], c :: last, rfl, Or.inl rfl, by simp [Ne.symm hc, hlast]⟩
    · exact ⟨c :: (before ++ ['/']), last, rfl, Or.inr ⟨c :: before, rfl⟩, hlast⟩

/-- What a path that ends at a name looks like. -/
theorem locate_eq_entry {fs : FileSystem} {path : Path} {folder : Location} {name : Text}
    {slash : Bool} (h : fs.locate path = .ok (.entry folder name slash)) :
    path.text ≠ [] ∧ (steps path).getLast? = some name ∧ name ≠ ['.'] ∧ name ≠ ['.', '.'] ∧
      (path.text.getLast? == some '/') = slash := by
  unfold locate at h
  by_cases hne : path.text = []
  · simp [hne] at h
  by_cases husable : IsUsable path
  · simp only [hne, husable, not_true_eq_false, if_false] at h
    cases hlast : (steps path).getLast? with
    | none => simp [hlast] at h
    | some last =>
      cases hwalk : fs.walk (if path.isAbsolute then [] else fs.cwd) (steps path).dropLast with
      | error kind => simp [hlast, hwalk] at h
      | ok found =>
        simp only [hlast, hwalk] at h
        by_cases hdot : last = ['.']
        · simp [hdot] at h
        · by_cases hup : last = ['.', '.']
          · simp [hup] at h
          · simp only [hdot, hup, if_false, Except.ok.injEq, Target.entry.injEq] at h
            obtain ⟨_, rfl, hslash⟩ := h
            exact ⟨hne, rfl, hdot, hup, hslash⟩
  · simp [hne, husable] at h

/-- What leads to a name without asking for a directory ends in that name. -/
theorem endsIn_of_locate {fs : FileSystem} {path : Path} {folder : Location} {name : Text}
    (h : fs.locate path = .ok (.entry folder name false)) : ∃ front, path.EndsIn front name := by
  obtain ⟨hne, hstep, hdot, hup, hslash⟩ := locate_eq_entry h
  obtain ⟨front, last, htext, hfront, hlast⟩ := exists_front_and_last path.text
  have hlast_ne : last ≠ [] := by
    rintro rfl
    rw [List.append_nil] at htext
    rcases hfront with rfl | ⟨before, rfl⟩
    · exact hne htext
    · simp [htext] at hslash
  have hsteps : (steps path).getLast? = some last := by
    rw [steps, htext]
    rcases hfront with rfl | ⟨before, rfl⟩
    · rw [List.nil_append, Text.splitOn_of_not_mem hlast]
      simp [hlast_ne]
    · rw [List.append_assoc, List.singleton_append, Text.splitOn_append_sep,
        Text.splitOn_of_not_mem hlast]
      simp [hlast_ne]
  rw [hsteps] at hstep
  cases hstep
  exact ⟨front, htext, hfront, ⟨hlast_ne, hdot, hup⟩, hlast⟩

/-- The file beside a path is in the same directory, unless its path is too long. -/
theorem locate_siblingWithSuffix {fs : FileSystem} {path : Path} {folder : Location}
    {name suffix : Text} (h : fs.locate path = .ok (.entry folder name false))
    (hsuffix : suffix ≠ []) (hslash : '/' ∉ suffix) :
    fs.locate (path.siblingWithSuffix suffix) =
      if IsUsable (path.siblingWithSuffix suffix) then
        .ok (.entry folder (suffixedName name suffix) false)
      else .error .other := by
  obtain ⟨front, hends⟩ := endsIn_of_locate h
  obtain ⟨front', hends', hlive, habsolute⟩ := hends.siblingWithSuffix hsuffix hslash
  rw [locate_of_endsIn fs hends] at h
  rw [locate_of_endsIn fs hends', hlive, habsolute]
  split at h
  · cases hwalk : fs.walk (if path.isAbsolute then [] else fs.cwd) (liveSteps front) with
    | error kind => simp [hwalk, Except.map] at h
    | ok found =>
      simp only [hwalk, Except.map, Except.ok.injEq, Target.entry.injEq] at h
      rw [h.1]
      rfl
  · simp at h

theorem LeadsTo.siblingWithSuffix {fs : FileSystem} {path : Path} {place other : Location}
    {suffix : Text} (hplace : fs.LeadsTo path place)
    (hother : fs.LeadsTo (path.siblingWithSuffix suffix) other) (hsuffix : suffix ≠ [])
    (hslash : '/' ∉ suffix) :
    ∃ folder name, fs.locate path = .ok (.entry folder name false) ∧ place = folder ++ [name] ∧
      other = folder ++ [suffixedName name suffix] := by
  obtain ⟨folder, name, hlocate, _, rfl⟩ := hplace
  obtain ⟨folder', name', hlocate', _, rfl⟩ := hother
  rw [locate_siblingWithSuffix hlocate hsuffix hslash] at hlocate'
  split at hlocate'
  · simp only [Except.ok.injEq, Target.entry.injEq] at hlocate'
    exact ⟨folder, name, hlocate, rfl, by rw [hlocate'.1, hlocate'.2.1]⟩
  · simp at hlocate'

theorem byteLength_append (a b : Text) : byteLength (a ++ b) = byteLength a + byteLength b := by
  simp [byteLength, String.ofList_append]

theorem isUsableName_of_suffixedName {name suffix : Text}
    (h : IsUsableName (suffixedName name suffix)) : IsUsableName name := by
  obtain ⟨stem, tail, hsplit, hsuffixed⟩ := suffixedName_eq name suffix
  have hlength : byteLength (suffixedName name suffix) = byteLength name + byteLength suffix := by
    rw [hsuffixed, hsplit, byteLength_append, byteLength_append, byteLength_append]
    omega
  unfold IsUsableName at h ⊢
  omega

/-- A path that is written as a file's leads to a place where the file beside it does. -/
theorem leadsTo_of_siblingWithSuffix {fs : FileSystem} {path : Path} {front name suffix : Text}
    {other : Location} (hends : path.EndsIn front name) (husable : IsUsable path)
    (hother : fs.LeadsTo (path.siblingWithSuffix suffix) other) (hsuffix : suffix ≠ [])
    (hslash : '/' ∉ suffix) : ∃ place, fs.LeadsTo path place := by
  obtain ⟨front', hends', hlive, habsolute⟩ := hends.siblingWithSuffix hsuffix hslash
  obtain ⟨folder, name', hlocate, hname, rfl⟩ := hother
  rw [locate_of_endsIn fs hends', hlive, habsolute] at hlocate
  split at hlocate
  · cases hwalk : fs.walk (if path.isAbsolute then [] else fs.cwd) (liveSteps front) with
    | error kind => simp [hwalk, Except.map] at hlocate
    | ok found =>
      simp only [hwalk, Except.map, Except.ok.injEq, Target.entry.injEq] at hlocate
      obtain ⟨rfl, rfl, -⟩ := hlocate
      refine ⟨found ++ [name], found, name, ?_, isUsableName_of_suffixedName hname, rfl⟩
      rw [locate_of_endsIn fs hends, if_pos husable, hwalk]
      rfl
  · simp at hlocate

end FileSystem

namespace Settings

theorem suffixError?_eq_none_iff {which : JarRole} {suffix : Text} :
    suffixError? which suffix = none ↔ suffix ≠ [] ∧ '/' ∉ suffix ∧ '\\' ∉ suffix := by
  unfold suffixError?
  split
  · next h => simp [h]
  · next h =>
    split
    · next hsep => simp only [reduceCtorEq, false_iff, not_and]; grind
    · next hsep => simpa [h] using not_or.mp hsep

/-- What is known of settings in which nothing is wrong. -/
theorem of_validate {settings : Settings} (h : settings.validate = .ok ()) :
    (settings.stagingSuffix ≠ [] ∧ '/' ∉ settings.stagingSuffix) ∧
      (settings.backupSuffix ≠ [] ∧ '/' ∉ settings.backupSuffix) ∧
      settings.stagingPath.same settings.backupPath = false := by
  have herror : settings.error? = none := by
    unfold validate at h
    cases hfault : settings.error? with
    | none => rfl
    | some fault => simp [hfault] at h
  simp only [error?, Option.or_eq_none_iff, suffixError?_eq_none_iff] at herror
  obtain ⟨hbackup, hstaging, _, _, hclash⟩ := herror
  refine ⟨⟨hstaging.1, hstaging.2.1⟩, ⟨hbackup.1, hbackup.2.1⟩, ?_⟩
  simpa [clash?] using hclash

variable {fs : FileSystem} {settings : Settings} {input staging backup : Location}

private theorem suffixed_place_ne {folder : Location} {name suffix : Text} (hsuffix : suffix ≠ []) :
    folder ++ [Path.suffixedName name suffix] ≠ folder ++ [name] := by
  intro h
  have hname : Path.suffixedName name suffix = name := by simpa using h
  have hlength := Path.length_suffixedName name suffix
  have hpos : 0 < suffix.length := List.length_pos_iff.mpr hsuffix
  rw [hname] at hlength
  omega

theorem staging_ne_input (h : settings.validate = .ok ()) (hinput : fs.LeadsTo settings.input input)
    (hstaging : fs.LeadsTo settings.stagingPath staging) : staging ≠ input := by
  obtain ⟨⟨hsuffix, hslash⟩, _, _⟩ := of_validate h
  obtain ⟨folder, name, _, rfl, rfl⟩ := hinput.siblingWithSuffix hstaging hsuffix hslash
  exact suffixed_place_ne hsuffix

theorem backup_ne_input (h : settings.validate = .ok ()) (hinput : fs.LeadsTo settings.input input)
    (hbackup : fs.LeadsTo settings.backupPath backup) : backup ≠ input := by
  obtain ⟨_, ⟨hsuffix, hslash⟩, _⟩ := of_validate h
  obtain ⟨folder, name, _, rfl, rfl⟩ := hinput.siblingWithSuffix hbackup hsuffix hslash
  exact suffixed_place_ne hsuffix

/-- Were the staged archive and the backup at one place, their paths would be one. -/
theorem staging_ne_backup (h : settings.validate = .ok ())
    (hinput : fs.LeadsTo settings.input input)
    (hstaging : fs.LeadsTo settings.stagingPath staging)
    (hbackup : fs.LeadsTo settings.backupPath backup) : staging ≠ backup := by
  obtain ⟨⟨hsuffix, hslash⟩, ⟨hsuffix', hslash'⟩, hclash⟩ := of_validate h
  rintro rfl
  obtain ⟨folder, name, hlocate, _, hplace⟩ := hinput.siblingWithSuffix hstaging hsuffix hslash
  obtain ⟨folder', name', hlocate', _, hplace'⟩ :=
    hinput.siblingWithSuffix hbackup hsuffix' hslash'
  rw [hlocate] at hlocate'
  cases hlocate'
  have hname : Path.suffixedName name settings.stagingSuffix =
      Path.suffixedName name settings.backupSuffix := by
    simpa using hplace.symm.trans hplace'
  obtain ⟨front, hends⟩ := FileSystem.endsIn_of_locate hlocate
  have hpath : settings.stagingPath = settings.backupPath := by
    rw [stagingPath, backupPath, hends.siblingWithSuffix_eq, hends.siblingWithSuffix_eq, hname]
  simp [hpath, Path.same] at hclash

end Settings
end Retarget

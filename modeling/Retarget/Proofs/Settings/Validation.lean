import Retarget.Proofs.FileSystem.Siblings
import Retarget.Proofs.Path.Components
import Retarget.Proofs.Text.Parts

/-!
When settings are valid. A suffix goes into a file name before its extension, and can be read off
there, so different suffixes give different files beside the input, none of which is the input. The
paths of settings with suffixes that can stand in a name clash therefore only if the suffixes are
equal; and whether they can stand there is all else that is asked.
-/
namespace Retarget

namespace Path

variable {path : Path} {name suffix : Text}

/-- A file name and the name that it becomes with a suffix in it: the suffix goes before the last
extension, or to the end of a name that has none. A dot in front begins no extension. -/
inductive Suffixed (suffix : Text) : Text → Text → Prop
  | beforeExtension {stem extension : Text} (stem_ne : stem ≠ []) (last : '.' ∉ extension) :
    Suffixed suffix (stem ++ '.' :: extension) (stem ++ suffix ++ '.' :: extension)
  | atEnd {name : Text} (no_extension : '.' ∉ name.drop 1) : Suffixed suffix name (name ++ suffix)

theorem suffixedName_extension {stem extension : Text} (hstem : stem ≠ []) (hlast : '.' ∉ extension)
    (suffix : Text) :
    suffixedName (stem ++ '.' :: extension) suffix = stem ++ suffix ++ '.' :: extension := by
  obtain ⟨c, cs, rfl⟩ := List.exists_cons_of_ne_nil hstem
  simp only [suffixedName, splitName, Text.beforeLast?_append (c :: cs) hlast]
  simp

theorem suffixedName_no_extension (hnone : '.' ∉ name.drop 1) (suffix : Text) :
    suffixedName name suffix = name ++ suffix := by
  cases name with
  | nil => rfl
  | cons c cs =>
    have hrest : Text.beforeLast? '.' cs = none := Text.beforeLast?_of_not_mem hnone
    by_cases hc : c = '.' <;> simp [suffixedName, splitName, Text.beforeLast?, hrest, hc]

/-- A name has a last extension, or it has none. -/
theorem extension_cases (name : Text) :
    (∃ stem extension, stem ≠ [] ∧ '.' ∉ extension ∧ name = stem ++ '.' :: extension) ∨
      '.' ∉ name.drop 1 := by
  cases name with
  | nil => exact Or.inr (by simp)
  | cons c cs =>
    by_cases hdot : '.' ∈ cs
    · obtain ⟨before, extension, rfl, hlast⟩ := Text.exists_last_of_mem hdot
      exact Or.inl ⟨c :: before, extension, List.cons_ne_nil _ _, hlast, rfl⟩
    · exact Or.inr hdot

theorem suffixed_iff {result : Text} :
    Suffixed suffix name result ↔ result = suffixedName name suffix := by
  constructor
  · intro h
    cases h with
    | beforeExtension hstem hlast => exact (suffixedName_extension hstem hlast suffix).symm
    | atEnd hnone => exact (suffixedName_no_extension hnone suffix).symm
  · rintro rfl
    rcases extension_cases name with ⟨stem, extension, hstem, hlast, rfl⟩ | hnone
    · rw [suffixedName_extension hstem hlast]
      exact .beforeExtension hstem hlast
    · rw [suffixedName_no_extension hnone]
      exact .atEnd hnone

theorem suffixedName_nil (name : Text) : suffixedName name [] = name := by
  rcases extension_cases name with ⟨stem, extension, hstem, hlast, rfl⟩ | hnone
  · rw [suffixedName_extension hstem hlast, List.append_nil]
  · rw [suffixedName_no_extension hnone, List.append_nil]

/-- A suffix can be read off the name that it was put into. -/
theorem suffixedName_inj {suffix' : Text} :
    suffixedName name suffix = suffixedName name suffix' ↔ suffix = suffix' := by
  rcases extension_cases name with ⟨stem, extension, hstem, hlast, rfl⟩ | hnone
  · simp [suffixedName_extension hstem hlast]
  · simp [suffixedName_no_extension hnone]

theorem isFileName_suffixedName (hname : IsFileName name) (hslash : '/' ∉ suffix) :
    IsFileName (suffixedName name suffix) := by
  by_cases hempty : suffix = []
  · rw [hempty, suffixedName_nil]
    exact hname
  · exact ⟨suffixedName_ne hname.name_ne hempty, slash_not_mem_suffixedName hname.no_slash hslash⟩

/-- What has the file name of a path with a suffix in it, in the directory that the path is in. -/
structure Beside (path : Path) (suffix : Text) (other : Path) : Prop where
  name : ∃ name result, path.fileName? = some name ∧ other.fileName? = some result ∧
    Suffixed suffix name result
  folder : ∃ above above', path.parent? = some above ∧ other.parent? = some above' ∧
    above.same above' = true

section Sibling

variable (h : path.fileName? = some name) (hslash : '/' ∉ suffix)
include h hslash

theorem components_siblingWithSuffix : (path.siblingWithSuffix suffix).components =
    path.dropLast.components ++ [.name (suffixedName name suffix)] := by
  have hsuffixed := isFileName_suffixedName (isFileName_of_fileName? h) hslash
  simp only [siblingWithSuffix, h]
  exact components_withFileName h hsuffixed

theorem fileName?_siblingWithSuffix :
    (path.siblingWithSuffix suffix).fileName? = some (suffixedName name suffix) := by
  rw [fileName?_eq_some_iff, components_siblingWithSuffix h hslash, List.getLast?_concat]

theorem beside_siblingWithSuffix : path.Beside suffix (path.siblingWithSuffix suffix) := by
  have hname := fileName?_siblingWithSuffix h hslash
  refine ⟨⟨name, _, h, hname, suffixed_iff.mpr rfl⟩,
    ⟨_, _, parent?_of_fileName? h, parent?_of_fileName? hname, ?_⟩⟩
  have hcomponents := components_dropLast hname
  rw [components_siblingWithSuffix h hslash] at hcomponents
  exact same_iff.mpr (List.append_inj_left' hcomponents rfl)

/-- Only without a suffix is the file beside a path the path's own. -/
theorem same_siblingWithSuffix_iff : path.same (path.siblingWithSuffix suffix) = true ↔
    suffix = [] := by
  rw [same_iff, components_siblingWithSuffix h hslash, components_dropLast h,
    List.append_cancel_left_eq, List.cons.injEq, Component.name.injEq, and_iff_left rfl]
  have hempty : suffixedName name suffix = suffixedName name [] ↔ suffix = [] := suffixedName_inj
  rw [suffixedName_nil] at hempty
  exact eq_comm.trans hempty

/-- Different suffixes give different files. -/
theorem siblings_same_iff {suffix' : Text} (hslash' : '/' ∉ suffix') :
    (path.siblingWithSuffix suffix).same (path.siblingWithSuffix suffix') = true ↔
      suffix = suffix' := by
  rw [same_iff, components_siblingWithSuffix h hslash, components_siblingWithSuffix h hslash',
    List.append_cancel_left_eq, List.cons.injEq, Component.name.injEq, and_iff_left rfl,
    suffixedName_inj]

end Sibling

end Path

namespace Settings

open Retarget.Path

/-- A suffix that can stand in a name: there is something of it, and no separator in it. -/
structure IsSuffix (suffix : Text) : Prop where
  ne_nil : suffix ≠ []
  no_slash : '/' ∉ suffix
  no_backslash : '\\' ∉ suffix

theorem isSuffix_iff {which : JarRole} {suffix : Text} :
    suffixError? which suffix = none ↔ IsSuffix suffix :=
  suffixError?_eq_none_iff.trans ⟨fun h => ⟨h.1, h.2.1, h.2.2⟩, fun h => ⟨h.1, h.2, h.3⟩⟩

theorem suffixError?_ne_pathClash {which first second : JarRole} {suffix : Text} {path : Path} :
    suffixError? which suffix ≠ some (.pathClash first second path) := by
  unfold suffixError?
  split
  · simp
  · split <;> simp

variable {settings : Settings} {name : Text}

theorem validate_eq_ok_iff : settings.validate = .ok () ↔ settings.error? = none := by
  unfold validate
  cases settings.error? <;> simp

theorem validate_eq_error_iff {fault : SettingsError} :
    settings.validate = .error fault ↔ settings.error? = some fault := by
  unfold validate
  cases settings.error? <;> simp

/-- Once both suffixes can stand in names, the paths clash exactly when the suffixes are equal. -/
theorem error?_of_isSuffix (hname : settings.input.fileName? = some name)
    (hbackup : IsSuffix settings.backupSuffix) (hstaging : IsSuffix settings.stagingSuffix) :
    settings.error? = if settings.stagingSuffix = settings.backupSuffix then
      some (.pathClash .staging .backup settings.stagingPath) else none := by
  have hinput : ∀ suffix, IsSuffix suffix → ∀ role,
      clash? .input role settings.input (settings.input.siblingWithSuffix suffix) = none := by
    intro suffix hsuffix role
    apply if_neg
    rw [same_siblingWithSuffix_iff hname hsuffix.no_slash]
    exact hsuffix.ne_nil
  have hsiblings : clash? .staging .backup settings.stagingPath settings.backupPath =
      if settings.stagingSuffix = settings.backupSuffix then
        some (.pathClash .staging .backup settings.stagingPath) else none := by
    simp only [clash?, stagingPath, backupPath,
      siblings_same_iff hname hstaging.no_slash hbackup.no_slash]
  rw [error?, isSuffix_iff.mpr hbackup, isSuffix_iff.mpr hstaging, hsiblings, stagingPath,
    backupPath, hinput _ hstaging, hinput _ hbackup]
  rfl

/-- A suffix that cannot stand in a name is told before any clash. -/
theorem isSuffix_of_error?
    (h : ∀ fault ∈ settings.error?, ∃ first second path, fault = .pathClash first second path) :
    IsSuffix settings.backupSuffix ∧ IsSuffix settings.stagingSuffix := by
  have hno_fault : ∀ which suffix fault, suffixError? which suffix = some fault →
      settings.error? ≠ some fault := by
    intro which suffix fault hfault herror
    obtain ⟨first, second, path, rfl⟩ := h fault herror
    exact suffixError?_ne_pathClash hfault
  cases hbackup : suffixError? .backup settings.backupSuffix with
  | some fault =>
    exact absurd (by rw [error?, hbackup, Option.some_or]) (hno_fault _ _ fault hbackup)
  | none =>
    cases hstaging : suffixError? .staging settings.stagingSuffix with
    | some fault =>
      exact absurd (by rw [error?, hbackup, hstaging, Option.none_or, Option.some_or])
        (hno_fault _ _ fault hstaging)
    | none => exact ⟨isSuffix_iff.mp hbackup, isSuffix_iff.mp hstaging⟩

theorem error?_eq_none_iff (hname : settings.input.fileName? = some name) :
    settings.error? = none ↔ IsSuffix settings.backupSuffix ∧ IsSuffix settings.stagingSuffix ∧
      settings.stagingSuffix ≠ settings.backupSuffix := by
  constructor
  · intro h
    obtain ⟨hbackup, hstaging⟩ : IsSuffix settings.backupSuffix ∧ IsSuffix settings.stagingSuffix :=
      isSuffix_of_error? (by simp [h])
    refine ⟨hbackup, hstaging, fun heq => ?_⟩
    rw [error?_of_isSuffix hname hbackup hstaging, if_pos heq] at h
    cases h
  · rintro ⟨hbackup, hstaging, hne⟩
    rw [error?_of_isSuffix hname hbackup hstaging, if_neg hne]

theorem error?_eq_pathClash_iff (hname : settings.input.fileName? = some name)
    {first second : JarRole} {path : Path} :
    settings.error? = some (.pathClash first second path) ↔ IsSuffix settings.stagingSuffix ∧
      settings.stagingSuffix = settings.backupSuffix ∧ first = .staging ∧ second = .backup ∧
      path = settings.stagingPath := by
  constructor
  · intro h
    obtain ⟨hbackup, hstaging⟩ : IsSuffix settings.backupSuffix ∧ IsSuffix settings.stagingSuffix :=
      isSuffix_of_error? (by simp [h])
    rw [error?_of_isSuffix hname hbackup hstaging] at h
    split at h
    · next heq =>
      cases h
      exact ⟨hstaging, heq, rfl, rfl, rfl⟩
    · cases h
  · rintro ⟨hstaging, heq, rfl, rfl, rfl⟩
    rw [error?_of_isSuffix hname (heq ▸ hstaging) hstaging, if_pos heq]

/-- Validation is exact, for every input whose path ends in a file name. Settings are valid exactly
when both suffixes can stand in a name and differ. Then the input, the staged archive and the backup
are three files in one directory, and the latter two are named as the input with the suffix before
the last extension. Different suffixes, empty ones too, always give different files; so the paths
are said to clash exactly for one suffix, given twice, that can stand in a name. -/
theorem validation_exact (hname : settings.input.fileName? = some name) :
    (settings.validate = .ok () ↔ IsSuffix settings.backupSuffix ∧
      IsSuffix settings.stagingSuffix ∧ settings.stagingSuffix ≠ settings.backupSuffix) ∧
    (settings.validate = .ok () →
      (settings.input.same settings.stagingPath = false ∧
        settings.input.same settings.backupPath = false ∧
        settings.stagingPath.same settings.backupPath = false) ∧
      settings.input.Beside settings.stagingSuffix settings.stagingPath ∧
      settings.input.Beside settings.backupSuffix settings.backupPath) ∧
    (∀ suffix suffix', '/' ∉ suffix → '/' ∉ suffix' →
      (settings.input.siblingWithSuffix suffix).same (settings.input.siblingWithSuffix suffix') =
        true → suffix = suffix') ∧
    ∀ first second path, settings.validate = .error (.pathClash first second path) ↔
      IsSuffix settings.stagingSuffix ∧ settings.stagingSuffix = settings.backupSuffix ∧
        first = .staging ∧ second = .backup ∧ path = settings.stagingPath := by
  have hvalid := error?_eq_none_iff hname
  rw [← validate_eq_ok_iff] at hvalid
  refine ⟨hvalid, fun h => ?_, fun suffix suffix' hslash hslash' =>
    (siblings_same_iff hname hslash hslash').mp, fun first second path => ?_⟩
  · obtain ⟨hbackup, hstaging, hne⟩ := hvalid.mp h
    have hapart : ∀ suffix, IsSuffix suffix →
        settings.input.same (settings.input.siblingWithSuffix suffix) = false := by
      intro suffix hsuffix
      rw [Bool.eq_false_iff, ne_eq, same_siblingWithSuffix_iff hname hsuffix.no_slash]
      exact hsuffix.ne_nil
    refine ⟨⟨hapart _ hstaging, hapart _ hbackup, ?_⟩,
      beside_siblingWithSuffix hname hstaging.no_slash,
      beside_siblingWithSuffix hname hbackup.no_slash⟩
    rw [Bool.eq_false_iff, ne_eq, stagingPath, backupPath,
      siblings_same_iff hname hstaging.no_slash hbackup.no_slash]
    exact hne
  · rw [validate_eq_error_iff, error?_eq_pathClash_iff hname]

/-- A hidden name with dots in it and at its end, written with idle pieces around it. -/
def dotted : Settings where
  input := ⟨"out//./.app..jar./".toList⟩
  backupSuffix := ".".toList
  stagingSuffix := "jar.".toList

def dottedTwice : Settings := { dotted with backupSuffix := dotted.stagingSuffix }

theorem validation_exact_dotted : dotted.input.fileName? = some ".app..jar.".toList ∧
    dotted.validate = .ok () ∧ dotted.stagingPath = ⟨"out/.app..jarjar..".toList⟩ ∧
    dotted.backupPath = ⟨"out/.app..jar..".toList⟩ ∧
    dotted.stagingPath.same dotted.backupPath = false ∧
    dottedTwice.validate = .error (.pathClash .staging .backup dotted.stagingPath) := by
  have hname : dotted.input.fileName? = some ".app..jar.".toList := by decide
  have hstaging : IsSuffix dotted.stagingSuffix := ⟨by decide, by decide, by decide⟩
  have hbackup : IsSuffix dotted.backupSuffix := ⟨by decide, by decide, by decide⟩
  obtain ⟨hvalid, hapart, -, -⟩ := validation_exact hname
  have hok : dotted.validate = .ok () := hvalid.mpr ⟨hbackup, hstaging, by decide⟩
  obtain ⟨⟨-, -, hdifferent⟩, -, -⟩ := hapart hok
  have hname' : dottedTwice.input.fileName? = some ".app..jar.".toList := hname
  obtain ⟨-, -, -, hclash⟩ := validation_exact hname'
  exact ⟨hname, hok, by decide, by decide, hdifferent,
    (hclash _ _ _).mpr ⟨hstaging, rfl, rfl, rfl, rfl⟩⟩

end Settings
end Retarget

import Retarget.Proofs.ClassSurvey.Above

/-!
Which bucket of a survey an entry is counted in. Only classes have one, and they have one each: a
class with a header is counted under its version, where it lies telling in which histogram, and a
class without one under its path. A survey has as many in each bucket as there are entries of that
bucket. So the classes outside the overlays, with or without a header, are as many as a survey has
of versions and malformed paths there, and those in the overlays likewise.
-/
namespace Retarget.ClassSurvey

inductive Bucket
  | version (version : UInt16)
  | overlayVersion (version : UInt16)
  | malformed (path : EntryPath)
  deriving DecidableEq

def bucket? (content : EntryPath → Option Bytes) (entry : ArchiveEntry) : Option Bucket :=
  match entry.role, ClassFile.version? ((content entry.path).getD []) with
  | .directory, _ | .resource, _ => none
  | .classFile _, some version => some (.version version.major)
  | .overlayClass, some version => some (.overlayVersion version.major)
  | .classFile _, none | .overlayClass, none => some (.malformed entry.path)

def amount (survey : ClassSurvey) : Bucket → Nat
  | .version version => survey.classes.countWhere (· = version)
  | .overlayVersion version => survey.overlayClasses.countWhere (· = version)
  | .malformed path => survey.malformed.count path

def classTotal (survey : ClassSurvey) : Nat :=
  survey.classes.total + (survey.malformed.filter (!·.isOverlay)).length

def overlayTotal (survey : ClassSurvey) : Nat :=
  survey.overlayClasses.total + (survey.malformed.filter (·.isOverlay)).length

variable (content : EntryPath → Option Bytes) (entries : List ArchiveEntry)

/-- The entries with a bucket are the classes. -/
theorem isSome_bucket? (entry : ArchiveEntry) : (bucket? content entry).isSome = isClass entry := by
  unfold bucket? isClass
  cases entry.role <;> cases ClassFile.version? ((content entry.path).getD []) <;> rfl

/-- Each bucket holds the entries that it is the bucket of. -/
theorem amount_counted (bucket : Bucket) : (counted content entries).amount bucket =
    entries.countP (bucket? content · = some bucket) := by
  rw [counted_eq]
  cases bucket with
  | version version =>
    rw [amount, Histogram.countWhere_ofVersions, classVersions, countP_filterMap_any]
    congr 1
    funext entry
    unfold classVersion? bucket?
    cases entry.role <;> cases ClassFile.version? ((content entry.path).getD []) <;> simp
  | overlayVersion version =>
    rw [amount, Histogram.countWhere_ofVersions, overlayVersions, countP_filterMap_any]
    congr 1
    funext entry
    unfold overlayVersion? bucket?
    cases entry.role <;> cases ClassFile.version? ((content entry.path).getD []) <;> simp
  | malformed path =>
    rw [amount, List.count, countP_filterMap_any]
    congr 1
    funext entry
    unfold malformed? bucket? isClass
    cases entry.role <;> cases ClassFile.version? ((content entry.path).getD []) <;>
      simp [beq_eq_decide]

/-- The classes that lie somewhere are those with a header and those without one. -/
theorem length_add_length_malformed (version? : ArchiveEntry → Option UInt16)
    (lies : EntryPath → Bool) (kind : ArchiveEntry → Bool)
    (hkind : ∀ entry, kind entry = (isClass entry && lies entry.path))
    (hversion : ∀ entry, (version? entry).isSome =
      (kind entry && (ClassFile.version? ((content entry.path).getD [])).isSome)) :
    (entries.filterMap version?).length +
        ((entries.filterMap (malformed? content)).filter lies).length = entries.countP kind := by
  have hmalformed : ∀ entry, (malformed? content entry).any lies =
      (kind entry && !(ClassFile.version? ((content entry.path).getD [])).isSome) := by
    intro entry
    rw [hkind, malformed?]
    cases isClass entry <;> cases ClassFile.version? ((content entry.path).getD []) <;> simp
  have hsplit := List.countP_eq_countP_filter_add entries kind fun entry =>
    (ClassFile.version? ((content entry.path).getD [])).isSome
  rw [List.countP_filter, List.countP_filter] at hsplit
  rw [hsplit, List.length_filterMap_eq_countP, ← List.countP_eq_length_filter,
    countP_filterMap_any]
  simp only [hversion, hmalformed]

/-- A survey has all classes outside the overlays. -/
theorem classTotal_counted : (counted content entries).classTotal =
    entries.countP fun entry => (Walk.jobOf? entry).isSome := by
  rw [counted_eq, classTotal, Histogram.total_ofVersions]
  apply length_add_length_malformed
  · intro entry
    unfold Walk.jobOf? isClass
    cases hrole : entry.role with
    | directory => rfl
    | resource => rfl
    | overlayClass => simp [ArchiveEntry.isOverlay_of_role hrole]
    | classFile name => simp [ArchiveEntry.isOverlay_of_role_classFile hrole]
  · intro entry
    unfold classVersion? Walk.jobOf?
    cases entry.role <;> simp

/-- A survey has all classes in the overlays. -/
theorem overlayTotal_counted : (counted content entries).overlayTotal =
    entries.countP (·.role = .overlayClass) := by
  rw [counted_eq, overlayTotal, Histogram.total_ofVersions]
  apply length_add_length_malformed
  · intro entry
    unfold isClass
    cases hrole : entry.role with
    | directory => rfl
    | resource => rfl
    | overlayClass => simp [ArchiveEntry.isOverlay_of_role hrole]
    | classFile name => simp [ArchiveEntry.isOverlay_of_role_classFile hrole]
  · intro entry
    unfold overlayVersion?
    cases entry.role <;> simp

end Retarget.ClassSurvey

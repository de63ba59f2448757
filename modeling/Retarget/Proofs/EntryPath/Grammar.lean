import Mathlib.Logic.ExistsUnique
import Retarget.Proofs.EntryPath.Normal

/-!
The grammar of raw names. A raw name has one core, which is what stands between the slashes at its
two ends when backslashes are read as slashes. The core alone decides: the name is accepted when the
core is not empty and all its segments are proper, and the core is then the path. Else the fault is
that of the first segment, from the left, that is not proper. So two names are read as one path when
they have one core.
-/
namespace Retarget

namespace Text

/-- Only `c`s are trimmed. -/
theorem exists_trimmed (c : Char) (t : Text) : ∃ before after, t = before ++ trim c t ++ after ∧
    (∀ d ∈ before, d = c) ∧ ∀ d ∈ after, d = c := by
  have hall : ∀ s : Text, ∀ d ∈ s.takeWhile (· == c), d = c := by
    intro s d hd
    simpa using List.all_eq_true.mp List.all_takeWhile d hd
  have hinner : t.dropWhile (· == c) =
      trim c t ++ ((t.dropWhile (· == c)).reverse.takeWhile (· == c)).reverse := by
    rw [trim, ← List.reverse_append, List.takeWhile_append_dropWhile, List.reverse_reverse]
  refine ⟨t.takeWhile (· == c), ((t.dropWhile (· == c)).reverse.takeWhile (· == c)).reverse, ?_,
    hall t, fun d hd => hall _ d (List.mem_reverse.mp hd)⟩
  rw [List.append_assoc, ← hinner, List.takeWhile_append_dropWhile]

theorem head?_dropWhile_ne (c : Char) (t : Text) : (t.dropWhile (· == c)).head? ≠ some c := by
  intro hhead
  have hstop := List.head?_dropWhile_not (· == c) t
  rw [hhead] at hstop
  simp at hstop

theorem getLast?_trim_ne (c : Char) (t : Text) : (trim c t).getLast? ≠ some c := by
  rw [trim, List.getLast?_reverse]
  exact head?_dropWhile_ne c _

theorem head?_trim_ne (c : Char) (t : Text) : (trim c t).head? ≠ some c := by
  intro hhead
  obtain ⟨rest, hrest⟩ : trim c t <+: t.dropWhile (· == c) := by
    rw [trim, ← List.reverse_suffix, List.reverse_reverse]
    exact List.dropWhile_suffix _
  apply head?_dropWhile_ne c t
  rw [← hrest, List.head?_append, hhead]
  rfl

/-- Whatever has no `c` at its ends is what is left when the `c`s around it are trimmed. -/
theorem trim_surrounded {c : Char} {before core after : Text} (hbefore : ∀ d ∈ before, d = c)
    (hafter : ∀ d ∈ after, d = c) (hhead : core.head? ≠ some c) (hlast : core.getLast? ≠ some c) :
    trim c (before ++ core ++ after) = core := by
  have hleft : (before ++ core ++ after).dropWhile (· == c) =
      (core ++ after).dropWhile (· == c) := by
    rw [List.append_assoc]
    exact List.dropWhile_append_of_pos fun d hd => beq_iff_eq.mpr (hbefore d hd)
  have hright : (after.reverse ++ core.reverse).dropWhile (· == c) = core.reverse := by
    rw [List.dropWhile_append_of_pos fun d hd => beq_iff_eq.mpr (hafter d (List.mem_reverse.mp hd))]
    exact dropWhile_of_head?_ne (by rwa [List.head?_reverse])
  cases core with
  | nil =>
    have hnone : (after ++ []).dropWhile (· == c) = [] :=
      List.dropWhile_append_of_pos fun d hd => beq_iff_eq.mpr (hafter d hd)
    rw [List.append_nil] at hnone
    rw [trim, hleft, List.nil_append, hnone]
    rfl
  | cons d ds =>
    have hstay : (d :: ds ++ after).dropWhile (· == c) = d :: ds ++ after :=
      dropWhile_of_head?_ne hhead
    rw [trim, hleft, hstay, List.reverse_append, hright, List.reverse_reverse]

end Text

namespace EntryPath

variable {raw core : Text} {path : EntryPath} {fault : EntryPathError}

/-- What a raw name is without the slashes at its ends, a backslash being a slash. -/
structure Core (raw core : Text) : Prop where
  surrounded : ∃ before after, raw.replace '\\' '/' = before ++ core ++ after ∧
    (∀ c ∈ before, c = '/') ∧ ∀ c ∈ after, c = '/'
  head?_ne : core.head? ≠ some '/'
  getLast?_ne : core.getLast? ≠ some '/'

theorem core_unify (raw : Text) : Core raw (unify raw) :=
  ⟨Text.exists_trimmed '/' _, Text.head?_trim_ne '/' _, Text.getLast?_trim_ne '/' _⟩

theorem Core.eq_unify (h : Core raw core) : core = unify raw := by
  obtain ⟨before, after, hraw, hbefore, hafter⟩ := h.surrounded
  rw [unify, hraw, Text.trim_surrounded hbefore hafter h.head?_ne h.getLast?_ne]

def ProperSegment (segment : Text) : Prop :=
  segment ≠ [] ∧ segment ≠ ['.'] ∧ segment ≠ ['.', '.']

instance : DecidablePred ProperSegment := fun _ => inferInstanceAs (Decidable (_ ∧ _ ∧ _))

/-- The segments that are not proper, and what they are refused for. -/
inductive Faulty (raw : Text) : Text → EntryPathError → Prop
  | empty : Faulty raw [] (.emptySegment raw)
  | dot : Faulty raw ['.'] (.escapes raw)
  | dots : Faulty raw ['.', '.'] (.escapes raw)

theorem Faulty.not_proper {segment : Text} (h : Faulty raw segment fault) :
    ¬ProperSegment segment := by
  rintro ⟨hempty, hdot, hdots⟩
  cases h with
  | empty => exact hempty rfl
  | dot => exact hdot rfl
  | dots => exact hdots rfl

/-- The first bad segment has proper ones before it, and its own fault is told. -/
theorem firstBadSegment?_eq_some_iff {segments : List Text} :
    firstBadSegment? raw segments = some fault ↔ ∃ before bad after,
      segments = before ++ bad :: after ∧ (∀ segment ∈ before, ProperSegment segment) ∧
        Faulty raw bad fault := by
  induction segments with
  | nil => simp [firstBadSegment?]
  | cons first rest ih =>
    -- A segment that is not proper is the first bad one, and nothing is before it.
    have hhere : ∀ reason, firstBadSegment? raw (first :: rest) = some reason →
        Faulty raw first reason → (firstBadSegment? raw (first :: rest) = some fault ↔
          ∃ before bad after, first :: rest = before ++ bad :: after ∧
            (∀ segment ∈ before, ProperSegment segment) ∧ Faulty raw bad fault) := by
      intro reason hfirst hfaulty
      constructor
      · intro h
        cases hfirst.symm.trans h
        exact ⟨[], first, rest, rfl, by simp, hfaulty⟩
      · rintro ⟨before, bad, after, hsegments, hbefore, hbad⟩
        cases before with
        | nil =>
          obtain ⟨rfl, rfl⟩ := List.cons.inj hsegments
          rw [hfirst]
          cases hfaulty <;> cases hbad <;> rfl
        | cons other others =>
          obtain ⟨rfl, -⟩ := List.cons.inj hsegments
          exact absurd (hbefore _ (List.mem_cons_self ..)) hfaulty.not_proper
    by_cases hempty : first = []
    · subst hempty
      exact hhere _ rfl .empty
    · by_cases hdots : first = ['.'] ∨ first = ['.', '.']
      · rcases hdots with rfl | rfl
        · exact hhere _ rfl .dot
        · exact hhere _ rfl .dots
      · rw [firstBadSegment?, if_neg hempty, if_neg hdots, ih]
        rw [not_or] at hdots
        constructor
        · rintro ⟨before, bad, after, rfl, hbefore, hbad⟩
          exact ⟨first :: before, bad, after, rfl,
            List.forall_mem_cons.mpr ⟨⟨hempty, hdots⟩, hbefore⟩, hbad⟩
        · rintro ⟨before, bad, after, hsegments, hbefore, hbad⟩
          cases before with
          | nil =>
            obtain ⟨rfl, -⟩ := List.cons.inj hsegments
            exact absurd ⟨hempty, hdots⟩ hbad.not_proper
          | cons other others =>
            obtain ⟨rfl, rfl⟩ := List.cons.inj hsegments
            exact ⟨others, bad, after, rfl, (List.forall_mem_cons.mp hbefore).2, hbad⟩

inductive Refused (raw core : Text) : EntryPathError → Prop
  | empty (h : core = []) : Refused raw core .empty
  | segment {before after : List Text} {bad : Text} {fault : EntryPathError} (hne : core ≠ [])
    (hsegments : core.splitOn '/' = before ++ bad :: after)
    (hbefore : ∀ segment ∈ before, ProperSegment segment) (hbad : Faulty raw bad fault) :
    Refused raw core fault

theorem parse_eq_ok_iff (h : Core raw core) : parse raw = .ok path ↔
    core ≠ [] ∧ (∀ segment ∈ core.splitOn '/', ProperSegment segment) ∧ path.text = core := by
  cases h.eq_unify
  unfold parse
  by_cases hempty : unify raw = []
  · simp [hempty]
  · have hproper : firstBadSegment? raw ((unify raw).splitOn '/') = none ↔
        ∀ segment ∈ (unify raw).splitOn '/', ProperSegment segment := firstBadSegment?_eq_none_iff
    cases hbad : firstBadSegment? raw ((unify raw).splitOn '/') with
    | some fault =>
      have hnot : ¬∀ segment ∈ (unify raw).splitOn '/', ProperSegment segment := by
        intro hall
        rw [hproper.mpr hall] at hbad
        cases hbad
      simp [hempty, hbad, hnot]
    | none =>
      have hall : ∀ segment ∈ (unify raw).splitOn '/', ProperSegment segment := hproper.mp hbad
      simp only [hempty, if_false, hbad]
      constructor
      · intro h
        cases h
        exact ⟨hempty, hall, rfl⟩
      · rintro ⟨-, -, htext⟩
        rw [← htext]

theorem parse_eq_error_iff (h : Core raw core) : parse raw = .error fault ↔
    Refused raw core fault := by
  cases h.eq_unify
  have hparse : parse raw = .error fault ↔ (unify raw = [] ∧ fault = .empty) ∨
      (unify raw ≠ [] ∧ firstBadSegment? raw ((unify raw).splitOn '/') = some fault) := by
    unfold parse
    by_cases hempty : unify raw = []
    · simp [hempty, eq_comm]
    · cases hbad : firstBadSegment? raw ((unify raw).splitOn '/') <;> simp [hempty, hbad]
  rw [hparse, firstBadSegment?_eq_some_iff]
  constructor
  · rintro (⟨hempty, rfl⟩ | ⟨hne, before, bad, after, hsegments, hbefore, hbad⟩)
    · exact .empty hempty
    · exact .segment hne hsegments hbefore hbad
  · rintro (hempty | ⟨hne, hsegments, hbefore, hbad⟩)
    · exact Or.inl ⟨hempty, rfl⟩
    · exact Or.inr ⟨hne, _, _, _, hsegments, hbefore, hbad⟩

/-- Only a name without a core is refused as empty. -/
theorem refused_empty_iff : Refused raw core .empty ↔ core = [] := by
  constructor
  · intro h
    cases h with
    | empty hempty => exact hempty
    | segment _ _ _ hbad => cases hbad
  · exact .empty

/-- Raw names are accepted by their cores. Every name has one core; it is accepted exactly when the
core is not empty and has proper segments only, and is then the path, which has no backslash and is
read as itself. A name without a core is refused as empty, and any other for its first segment that
is not proper. Names that are accepted are read as one path exactly when they have one core. -/
theorem parse_decided_by_core :
    (∀ raw, ∃! core, Core raw core) ∧
    (∀ raw core, Core raw core →
      (∀ path, parse raw = .ok path ↔
        core ≠ [] ∧ (∀ segment ∈ core.splitOn '/', ProperSegment segment) ∧ path.text = core) ∧
      (∀ fault, parse raw = .error fault ↔ Refused raw core fault) ∧
      (parse raw = .error .empty ↔ core = [])) ∧
    (∀ raw path, parse raw = .ok path → '\\' ∉ path.text ∧ parse path.text = .ok path) ∧
    ∀ raw raw' core core' path path', Core raw core → Core raw' core' →
      parse raw = .ok path → parse raw' = .ok path' → (path = path' ↔ core = core') := by
  refine ⟨fun raw => ⟨unify raw, core_unify raw, fun core h => h.eq_unify⟩, ?_, ?_, ?_⟩
  · intro raw core h
    refine ⟨fun path => parse_eq_ok_iff h, fun fault => parse_eq_error_iff h, ?_⟩
    rw [parse_eq_error_iff h, refused_empty_iff]
  · intro raw path hparse
    have hnormal := isNormal_of_parse hparse
    exact ⟨hnormal.backslash_not_mem, parse_of_isNormal hnormal⟩
  · intro raw raw' core core' path path' hcore hcore' hparse hparse'
    obtain ⟨-, -, htext⟩ := (parse_eq_ok_iff hcore).mp hparse
    obtain ⟨-, -, htext'⟩ := (parse_eq_ok_iff hcore').mp hparse'
    obtain ⟨text⟩ := path
    obtain ⟨text'⟩ := path'
    rw [← htext, ← htext', EntryPath.mk.injEq]

/-- Mixed separators, in the middle and at both ends: two names of one path, one of nothing, and two
that are refused for the first of their bad segments. -/
theorem parse_decided_by_core_mixedSeparators :
    (parse "\\a/b\\\\".toList = .ok ⟨"a/b".toList⟩ ∧ parse "a\\b".toList = .ok ⟨"a/b".toList⟩) ∧
      parse "/\\".toList = .error .empty ∧
      parse "a\\/../b".toList = .error (.emptySegment "a\\/../b".toList) ∧
      parse "a/..\\/b".toList = .error (.escapes "a/..\\/b".toList) := by
  obtain ⟨-, hdecided, -, -⟩ := parse_decided_by_core
  have hslashes : Core "\\a/b\\\\".toList "a/b".toList :=
    ⟨⟨"/".toList, "//".toList, by decide, by simp, by simp⟩, by decide, by decide⟩
  have hplain : Core "a\\b".toList "a/b".toList :=
    ⟨⟨[], [], by decide, by simp, by simp⟩, by decide, by decide⟩
  have hproper : ∀ segment ∈ ("a/b".toList).splitOn '/', ProperSegment segment := by decide
  refine ⟨⟨?_, ?_⟩, ?_, ?_, ?_⟩
  · exact ((hdecided _ _ hslashes).1 _).mpr ⟨by decide, hproper, rfl⟩
  · exact ((hdecided _ _ hplain).1 _).mpr ⟨by decide, hproper, rfl⟩
  · have hnone : Core "/\\".toList [] :=
      ⟨⟨"//".toList, [], by decide, by simp, by simp⟩, by decide, by decide⟩
    exact (hdecided _ _ hnone).2.2.mpr rfl
  · have hcore : Core "a\\/../b".toList "a//../b".toList :=
      ⟨⟨[], [], by decide, by simp, by simp⟩, by decide, by decide⟩
    have hsegments : ("a//../b".toList).splitOn '/' =
        ["a".toList] ++ [] :: ["..".toList, "b".toList] := by decide
    exact ((hdecided _ _ hcore).2.1 _).mpr (.segment (by decide) hsegments (by decide) .empty)
  · have hcore : Core "a/..\\/b".toList "a/..//b".toList :=
      ⟨⟨[], [], by decide, by simp, by simp⟩, by decide, by decide⟩
    have hsegments : ("a/..//b".toList).splitOn '/' =
        ["a".toList] ++ "..".toList :: [[], "b".toList] := by decide
    exact ((hdecided _ _ hcore).2.1 _).mpr (.segment (by decide) hsegments (by decide) .dots)

end EntryPath

end Retarget

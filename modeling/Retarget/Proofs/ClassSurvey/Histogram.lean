import Mathlib.Data.List.Induction
import Retarget.ClassSurvey

/-!
Counting into a histogram. One more of a version adds that version and no other, keeps the versions
in ascending order and adds one to the total. So merging all from a version on into that version
commutes with counting: a higher version may be counted as that version just as well. Versions that
were counted one after the other can be read off again: how many there are of some kind, and which
is the highest.
-/
namespace Retarget.Histogram

variable {h : Histogram} {v target : UInt16}

theorem add_cons_self (v : UInt16) (n : Nat) (rest : Histogram) :
    add v ((v, n) :: rest) = (v, n + 1) :: rest := if_pos rfl

theorem add_cons_of_lt {w : UInt16} (hlt : v < w) (n : Nat) (rest : Histogram) :
    add v ((w, n) :: rest) = (v, 1) :: (w, n) :: rest := by
  rw [add, if_neg (UInt16.ne_of_lt hlt), if_pos hlt]

theorem add_cons_of_gt {w : UInt16} (hgt : w < v) (n : Nat) (rest : Histogram) :
    add v ((w, n) :: rest) = (w, n) :: add v rest := by
  rw [add, if_neg (UInt16.ne_of_lt hgt).symm, if_neg (UInt16.lt_asymm hgt)]

/-- What holds of all versions after one more is counted holds of that one and of those before. -/
theorem forall_versions_add {p : UInt16 → Prop} :
    (∀ bar ∈ h.add v, p bar.1) ↔ p v ∧ ∀ bar ∈ h, p bar.1 := by
  induction h with
  | nil => simp [add]
  | cons first rest ih =>
    obtain ⟨w, n⟩ := first
    unfold add
    split
    · next heq => simp [heq]
    · split
      · simp
      · simp only [List.forall_mem_cons, ih]
        exact and_left_comm

def Ascending (h : Histogram) : Prop := h.Pairwise fun a b => a.1 < b.1

theorem Ascending.add (hasc : h.Ascending) (v : UInt16) : (h.add v).Ascending := by
  induction h with
  | nil => exact List.pairwise_singleton _ _
  | cons first rest ih =>
    obtain ⟨w, n⟩ := first
    obtain ⟨hfirst, hrest⟩ := List.pairwise_cons.mp hasc
    unfold Histogram.add
    split
    · exact List.pairwise_cons.mpr ⟨hfirst, hrest⟩
    · next hne =>
      split
      · next hlt =>
        refine List.pairwise_cons.mpr ⟨?_, hasc⟩
        exact List.forall_mem_cons.mpr ⟨hlt, fun bar hbar => UInt16.lt_trans hlt (hfirst bar hbar)⟩
      · next hge =>
        have hgt : w < v := UInt16.lt_of_le_of_ne (UInt16.not_lt.mp hge) (Ne.symm hne)
        exact List.pairwise_cons.mpr ⟨forall_versions_add.mpr ⟨hgt, hfirst⟩, ih hrest⟩

theorem total_add : (h.add v).total = h.total + 1 := by
  induction h with
  | nil => rfl
  | cons first rest ih =>
    obtain ⟨w, n⟩ := first
    unfold add
    split
    · simp only [total, List.foldr_cons]
      omega
    · split
      · simp only [total, List.foldr_cons]
        omega
      · simp only [total, List.foldr_cons] at ih ⊢
        omega

/-- The versions below the target as they are, and all others counted as the target. -/
def merged (target : UInt16) (h : Histogram) : Histogram :=
  h.filter (·.1 < target) ++
    if h.all (·.1 < target) then [] else [(target, h.countFrom target)]

theorem merged_cons_of_lt {n : Nat} {rest : Histogram} (hlt : v < target) :
    merged target ((v, n) :: rest) = (v, n) :: merged target rest := by
  have hnot : ¬target ≤ v := UInt16.not_le.mpr hlt
  rw [merged, merged, countFrom, countFrom, List.filter_cons_of_pos (by simpa using hlt),
    List.filter_cons_of_neg (by simpa using hnot), List.all_cons, decide_eq_true hlt, Bool.true_and,
    List.cons_append]

/-- Where all is from the target on, all is merged. -/
theorem merged_of_forall_le (hne : h ≠ []) (hall : ∀ bar ∈ h, target ≤ bar.1) :
    h.merged target = [(target, h.total)] := by
  have hnone : h.filter (·.1 < target) = [] :=
    List.filter_eq_nil_iff.mpr fun bar hbar => by simpa using hall bar hbar
  have hkept : h.filter (target ≤ ·.1) = h :=
    List.filter_eq_self.mpr fun bar hbar => by simpa using hall bar hbar
  have hsome : h.all (·.1 < target) = false := by
    obtain ⟨first, rest, rfl⟩ := List.exists_cons_of_ne_nil hne
    have hfirst : ¬first.1 < target := UInt16.not_lt.mpr (hall first (List.mem_cons_self ..))
    simp [hfirst]
  rw [merged, hnone, countFrom, hkept, hsome]
  rfl

theorem add_ne_nil (v : UInt16) (h : Histogram) : h.add v ≠ [] := by
  cases h with
  | nil => simp [add]
  | cons first rest =>
    unfold add
    split
    · simp
    · split <;> simp

/-- One more of a version that is above the target is one more of the target. -/
theorem merged_add (hasc : h.Ascending) (v : UInt16) :
    (h.add v).merged target = (h.merged target).add (if v ≤ target then v else target) := by
  induction h with
  | nil =>
    by_cases hv : v < target
    · have hbelow : merged target [(v, 1)] = [(v, 1)] := merged_cons_of_lt hv
      rw [if_pos (UInt16.le_of_lt hv)]
      exact hbelow
    · have hlowered : (if v ≤ target then v else target) = target := by grind
      have habove : ∀ bar ∈ [(v, 1)], target ≤ bar.1 := by simpa using UInt16.not_lt.mp hv
      rw [hlowered]
      exact merged_of_forall_le (List.cons_ne_nil _ _) habove
  | cons first rest ih =>
    obtain ⟨w, n⟩ := first
    have hrest := ih (List.pairwise_cons.mp hasc).2
    by_cases hw : w < target
    · rw [merged_cons_of_lt hw]
      by_cases heq : v = w
      · subst heq
        rw [add_cons_self, merged_cons_of_lt hw, if_pos (UInt16.le_of_lt hw), add_cons_self]
      · rcases UInt16.lt_or_lt_of_ne heq with hlt | hgt
        · have hv : v < target := UInt16.lt_trans hlt hw
          rw [add_cons_of_lt hlt, merged_cons_of_lt hv, merged_cons_of_lt hw,
            if_pos (UInt16.le_of_lt hv), add_cons_of_lt hlt]
        · have hlowered : w < if v ≤ target then v else target := by
            split
            · exact hgt
            · exact hw
          rw [add_cons_of_gt hgt, merged_cons_of_lt hw, hrest, add_cons_of_gt hlowered]
    · -- All that was counted before is merged, so only where the new one goes is left.
      have hle : target ≤ w := UInt16.not_lt.mp hw
      have hall : ∀ bar ∈ (w, n) :: rest, target ≤ bar.1 :=
        List.forall_mem_cons.mpr ⟨hle, fun bar hbar => UInt16.le_of_lt
          (UInt16.lt_of_le_of_lt hle ((List.pairwise_cons.mp hasc).1 bar hbar))⟩
      have hmerged := merged_of_forall_le (List.cons_ne_nil _ _) hall
      rw [hmerged]
      by_cases hv : v < target
      · rw [add_cons_of_lt (UInt16.lt_of_lt_of_le hv hle), merged_cons_of_lt hv,
          hmerged, if_pos (UInt16.le_of_lt hv), add_cons_of_lt hv]
      · have hlowered : (if v ≤ target then v else target) = target := by grind
        rw [merged_of_forall_le (add_ne_nil v _)
          (forall_versions_add.mpr ⟨UInt16.not_lt.mp hv, hall⟩), total_add, hlowered, add_cons_self]

def countWhere (p : UInt16 → Bool) (h : Histogram) : Nat :=
  total (h.filter fun bar => p bar.1)

variable {p : UInt16 → Bool} {versions : List UInt16}

theorem countWhere_cons (p : UInt16 → Bool) (n : Nat) (rest : Histogram) :
    countWhere p ((v, n) :: rest) = (if p v then n else 0) + countWhere p rest := by
  unfold countWhere
  by_cases hp : p v = true
  · rw [List.filter_cons_of_pos (by exact hp), if_pos hp]
    rfl
  · rw [List.filter_cons_of_neg (by exact hp), if_neg hp, Nat.zero_add]

theorem countWhere_add : (h.add v).countWhere p = h.countWhere p + if p v then 1 else 0 := by
  induction h with
  | nil =>
    rw [add, countWhere_cons]
    exact Nat.add_comm ..
  | cons first rest ih =>
    obtain ⟨w, n⟩ := first
    unfold add
    split
    · next heq =>
      subst heq
      simp only [countWhere_cons]
      split <;> omega
    · split
      · simp only [countWhere_cons]
        omega
      · simp only [countWhere_cons, ih]
        omega

def ofVersions (versions : List UInt16) : Histogram :=
  versions.foldl (fun h v => h.add v) []

theorem ofVersions_concat (versions : List UInt16) (v : UInt16) :
    ofVersions (versions ++ [v]) = (ofVersions versions).add v := by
  rw [ofVersions, List.foldl_append]
  rfl

theorem countWhere_ofVersions (p : UInt16 → Bool) (versions : List UInt16) :
    (ofVersions versions).countWhere p = versions.countP p := by
  induction versions using List.reverseRecOn with
  | nil => rfl
  | append_singleton before v ih =>
    rw [ofVersions_concat, countWhere_add, ih, List.countP_append, List.countP_singleton]

theorem total_ofVersions (versions : List UInt16) :
    (ofVersions versions).total = versions.length := by
  have hall : (ofVersions versions).countWhere (fun _ => true) = (ofVersions versions).total := by
    rw [countWhere, List.filter_eq_self.mpr fun _ _ => rfl]
  rw [← hall, countWhere_ofVersions, List.countP_true]

theorem ascending_ofVersions (versions : List UInt16) : (ofVersions versions).Ascending := by
  induction versions using List.reverseRecOn with
  | nil => exact List.Pairwise.nil
  | append_singleton before v ih =>
    rw [ofVersions_concat]
    exact ih.add v

/-- The versions in a histogram are those that were counted. -/
theorem forall_versions_ofVersions {p : UInt16 → Prop} :
    (∀ bar ∈ ofVersions versions, p bar.1) ↔ ∀ v ∈ versions, p v := by
  induction versions using List.reverseRecOn with
  | nil => simp [ofVersions]
  | append_singleton before v ih =>
    rw [ofVersions_concat, forall_versions_add, ih]
    simp only [List.mem_append, List.mem_singleton, or_imp, forall_and, forall_eq]
    exact and_comm

theorem Ascending.le_getLast (hasc : h.Ascending) {last : UInt16 × Nat}
    (hlast : h.getLast? = some last) : ∀ bar ∈ h, bar.1 ≤ last.1 := by
  obtain ⟨before, rfl⟩ := List.getLast?_eq_some_iff.mp hlast
  intro bar hbar
  rcases List.mem_append.mp hbar with hbefore | hhere
  · exact UInt16.le_of_lt
      ((List.pairwise_append.mp hasc).2.2 bar hbefore last (List.mem_singleton.mpr rfl))
  · rw [List.mem_singleton.mp hhere]
    exact UInt16.le_refl _

/-- The last bar is that of the highest version that was counted. -/
theorem highest_ofVersions (versions : List UInt16) :
    match (ofVersions versions).getLast? with
    | none => versions = []
    | some last => last.1 ∈ versions ∧ ∀ v ∈ versions, v ≤ last.1 := by
  cases hlast : (ofVersions versions).getLast? with
  | none =>
    have hnone : ∀ v ∈ versions, False := by
      rw [← forall_versions_ofVersions, List.getLast?_eq_none_iff.mp hlast]
      simp
    exact List.eq_nil_iff_forall_not_mem.mpr hnone
  | some last =>
    have hhighest := (ascending_ofVersions versions).le_getLast hlast
    have hcounted : ∀ bar ∈ ofVersions versions, bar.1 ∈ versions :=
      forall_versions_ofVersions.mpr fun v hv => hv
    exact ⟨hcounted last (List.mem_of_getLast? hlast), forall_versions_ofVersions.mp hhighest⟩

end Retarget.Histogram

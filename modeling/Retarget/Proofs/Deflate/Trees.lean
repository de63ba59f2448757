import Mathlib.Algebra.BigOperators.Group.Finset.Basic
import Mathlib.Algebra.BigOperators.Ring.Finset
import Mathlib.Algebra.Order.BigOperators.Group.Finset
import Retarget.Deflate.Lengths
import Retarget.Proofs.Deflate.Words

/-!
How many words have each length. The leaves of a tree fill the space of words, and so do those of
two trees put together. When the leaves that lie too deep are cut, the words take more than the
space there is, but by no more than one word of the greatest length for each leaf that was cut. One
word given up makes room for exactly one, and as long as there is an excess there is a word to give
up and a shorter one to split.
-/
namespace Retarget.Deflate

/-- Leaves counted by depth fill the space of words, which is counted in words of `n` bits. -/
def FillsSpace (depths : List Nat) : Prop :=
  ∀ n, depths.length ≤ n → ∑ i ∈ Finset.range n, depths.getD i 0 * 2 ^ (n - i) = 2 ^ n

section Sums

theorem sum_range_getD_add_drop (counts : List Nat) (n : Nat) :
    (∑ i ∈ Finset.range n, counts.getD i 0) + (counts.drop n).sum = counts.sum := by
  induction counts generalizing n with
  | nil => simp
  | cons count rest ih =>
    cases n with
    | zero => simp
    | succ n =>
      rw [Finset.sum_range_succ', List.drop_succ_cons, List.sum_cons, ← ih n]
      simp only [List.getD_cons_succ, List.getD_cons_zero]
      omega

theorem sum_range_getD (counts : List Nat) {n : Nat} (hn : counts.length ≤ n) :
    ∑ i ∈ Finset.range n, counts.getD i 0 = counts.sum := by
  have hall := sum_range_getD_add_drop counts n
  rwa [List.drop_eq_nil_of_le hn, List.sum_nil, Nat.add_zero] at hall

theorem sum_map_range (n : Nat) (f : Nat → Nat) :
    ((List.range n).map f).sum = ∑ i ∈ Finset.range n, f i := by
  induction n with
  | zero => rfl
  | succ n ih => rw [List.sum_range_succ, ih, Finset.sum_range_succ]

/-- What is changed where one count is. -/
theorem sum_modify (counts : Array Nat) {k n : Nat} (hk : k < n) (hsize : n ≤ counts.size)
    (f weight : Nat → Nat) :
    (∑ i ∈ Finset.range n, (counts.modify k f).getD i 0 * weight i) +
        counts.getD k 0 * weight k =
      (∑ i ∈ Finset.range n, counts.getD i 0 * weight i) + f (counts.getD k 0) * weight k := by
  have hmem : k ∈ Finset.range n := Finset.mem_range.mpr hk
  have hothers : ∑ i ∈ (Finset.range n).erase k, (counts.modify k f).getD i 0 * weight i =
      ∑ i ∈ (Finset.range n).erase k, counts.getD i 0 * weight i := by
    apply Finset.sum_congr rfl
    intro i hi
    obtain ⟨hne, hi⟩ := Finset.mem_erase.mp hi
    rw [getD_modify _ (Nat.lt_of_lt_of_le (Finset.mem_range.mp hi) hsize), if_neg (Ne.symm hne)]
  rw [← Finset.add_sum_erase _ _ hmem, ← Finset.add_sum_erase (Finset.range n) _ hmem, hothers,
    getD_modify _ (Nat.lt_of_lt_of_le hk hsize), if_pos rfl]
  omega

end Sums

section Trees

theorem getD_add (xs ys : List Nat) (i : Nat) :
    (Weighed.merge.add xs ys).getD i 0 = xs.getD i 0 + ys.getD i 0 := by
  induction xs generalizing ys i with
  | nil => simp [Weighed.merge.add]
  | cons x xs ih =>
    cases ys with
    | nil => simp [Weighed.merge.add]
    | cons y ys =>
      cases i with
      | zero => rfl
      | succ i => exact ih ys i

theorem length_add (xs ys : List Nat) :
    (Weighed.merge.add xs ys).length = max xs.length ys.length := by
  induction xs generalizing ys with
  | nil => simp [Weighed.merge.add]
  | cons x xs ih =>
    cases ys with
    | nil => simp [Weighed.merge.add]
    | cons y ys => rw [Weighed.merge.add, List.length_cons, ih, List.length_cons, List.length_cons,
        Nat.succ_max_succ]

theorem sum_add (xs ys : List Nat) :
    (Weighed.merge.add xs ys).sum = xs.sum + ys.sum := by
  induction xs generalizing ys with
  | nil => simp [Weighed.merge.add]
  | cons x xs ih =>
    cases ys with
    | nil => simp [Weighed.merge.add]
    | cons y ys =>
      rw [Weighed.merge.add, List.sum_cons, ih, List.sum_cons, List.sum_cons]
      omega

theorem fillsSpace_leaf : FillsSpace [1] := by
  intro n hn
  obtain ⟨m, rfl⟩ : ∃ m, n = m + 1 := Nat.exists_eq_add_of_le' hn
  rw [Finset.sum_range_succ', Finset.sum_eq_zero (by simp)]
  simp

theorem fillsSpace_merge {a b : Weighed} (ha : FillsSpace a.depths) (hb : FillsSpace b.depths) :
    FillsSpace (a.merge b).depths := by
  intro n hn
  rw [Weighed.merge, List.length_cons, length_add] at hn
  obtain ⟨m, rfl⟩ := Nat.exists_eq_add_of_le' (Nat.le_trans (Nat.le_add_left 1 _) hn)
  have hdeeper : ∀ i, (a.merge b).depths.getD (i + 1) 0 * 2 ^ (m + 1 - (i + 1)) =
      a.depths.getD i 0 * 2 ^ (m - i) + b.depths.getD i 0 * 2 ^ (m - i) := by
    intro i
    rw [Nat.add_sub_add_right, ← Nat.add_mul]
    exact congrArg (· * 2 ^ (m - i)) (getD_add a.depths b.depths i)
  have hroot : (a.merge b).depths.getD 0 0 = 0 := rfl
  rw [Finset.sum_range_succ', hroot, Nat.zero_mul, Nat.add_zero, Finset.sum_congr rfl
    fun i _ => hdeeper i, Finset.sum_add_distrib, ha m (by omega), hb m (by omega), Nat.pow_succ]
  omega

theorem takeLightest_eq_some {leaves inners leaves' inners' : List Weighed} {tree : Weighed}
    (h : takeLightest leaves inners = some (tree, leaves', inners')) :
    (tree :: (leaves' ++ inners')).Perm (leaves ++ inners) := by
  cases leaves with
  | nil =>
    cases inners with
    | nil => cases h
    | cons inner inners =>
      obtain ⟨rfl, rfl, rfl⟩ := h
      exact List.Perm.refl _
  | cons leaf leaves =>
    cases inners with
    | nil =>
      obtain ⟨rfl, rfl, rfl⟩ := h
      exact List.Perm.refl _
    | cons inner inners =>
      rw [takeLightest] at h
      split at h
      · obtain ⟨rfl, rfl, rfl⟩ := h
        exact List.perm_middle.symm
      · obtain ⟨rfl, rfl, rfl⟩ := h
        exact List.Perm.refl _

theorem takeLightest_eq_none {leaves inners : List Weighed}
    (h : takeLightest leaves inners = none) : leaves ++ inners = [] := by
  cases leaves with
  | nil =>
    cases inners with
    | nil => rfl
    | cons inner inners => cases h
  | cons leaf leaves =>
    cases inners with
    | nil => cases h
    | cons inner inners =>
      rw [takeLightest] at h
      split at h <;> cases h

/-- The tree that all are merged into fills the space and has the leaves of all. -/
theorem mergeAll_fillsSpace {fuel : Nat} {leaves inners : List Weighed}
    (hfuel : (leaves ++ inners).length ≤ fuel) (hsome : leaves ++ inners ≠ [])
    (hall : ∀ tree ∈ leaves ++ inners, FillsSpace tree.depths) :
    FillsSpace (mergeAll fuel leaves inners) ∧
      (mergeAll fuel leaves inners).sum =
        ((leaves ++ inners).map fun tree => tree.depths.sum).sum := by
  induction fuel generalizing leaves inners with
  | zero => exact absurd (List.length_eq_zero_iff.mp (Nat.le_zero.mp hfuel)) hsome
  | succ fuel ih =>
    rw [mergeAll]
    split
    · next hnone => exact absurd (takeLightest_eq_none hnone) hsome
    · next a leaves₁ inners₁ hfirst =>
      have hperm := takeLightest_eq_some hfirst
      have ha : FillsSpace a.depths := hall a (hperm.mem_iff.mp List.mem_cons_self)
      split
      · next hlast =>
        rw [takeLightest_eq_none hlast] at hperm
        refine ⟨ha, ?_⟩
        rw [← (hperm.map _).sum_eq]
        simp
      · next b leaves₂ inners₂ hsecond =>
        have hperm₂ := takeLightest_eq_some hsecond
        have hb : FillsSpace b.depths := by
          apply hall b
          apply hperm.mem_iff.mp
          exact List.mem_cons_of_mem a (hperm₂.mem_iff.mp List.mem_cons_self)
        have hboth := (hperm₂.cons a).trans hperm
        have hnext : ∀ tree ∈ leaves₂ ++ (inners₂ ++ [a.merge b]), FillsSpace tree.depths := by
          intro tree htree
          rw [← List.append_assoc, List.mem_append, List.mem_singleton] at htree
          rcases htree with hold | rfl
          · have hbehind := List.mem_cons_of_mem a (List.mem_cons_of_mem b hold)
            exact hall tree (hboth.mem_iff.mp hbehind)
          · exact fillsSpace_merge ha hb
        have hlength := hboth.length_eq
        obtain ⟨hfills, hsum⟩ := ih (by simp at hlength hfuel ⊢; omega) (by simp) hnext
        refine ⟨hfills, ?_⟩
        rw [hsum, ← (hboth.map _).sum_eq]
        have hmerged : (a.merge b).depths.sum = a.depths.sum + b.depths.sum := by
          rw [Weighed.merge, List.sum_cons, sum_add, Nat.zero_add]
        simp only [List.map_append, List.map_cons, List.map_nil, List.sum_append, List.sum_cons,
          List.sum_nil, hmerged]
        omega

/-- A tree with more than one leaf has none at its root. -/
theorem getD_zero_of_fillsSpace {depths : List Nat} (h : FillsSpace depths)
    (hleaves : 2 ≤ depths.sum) : depths.getD 0 0 = 0 := by
  have hfull := h (depths.length + 1) (by omega)
  have hsum := sum_range_getD depths (Nat.le_add_right depths.length 1)
  rw [Finset.sum_range_succ'] at hfull hsum
  have hpositive : ∑ i ∈ Finset.range depths.length, depths.getD (i + 1) 0 ≤
      ∑ i ∈ Finset.range depths.length,
        depths.getD (i + 1) 0 * 2 ^ (depths.length + 1 - (i + 1)) :=
    Finset.sum_le_sum fun i _ => Nat.le_mul_of_pos_right _ (Nat.two_pow_pos _)
  rw [Nat.sub_zero] at hfull
  by_contra hroot
  have hmany := Nat.mul_le_mul_right (2 ^ (depths.length + 1)) (Nat.pos_of_ne_zero hroot)
  have htwo : 2 ≤ depths.getD 0 0 → 2 * 2 ^ (depths.length + 1) ≤
      depths.getD 0 0 * 2 ^ (depths.length + 1) := Nat.mul_le_mul_right _
  have hpos := Nat.two_pow_pos (depths.length + 1)
  omega

end Trees

section Limits

/-- Words counted by length that take more than the space of words by an excess. At least as many of
them have the greatest length. -/
structure Exceeds (longest total excess : Nat) (counts : Array Nat) : Prop where
  size_eq : counts.size = longest + 1
  rootless : counts.getD 0 0 = 0
  total_eq : ∑ i ∈ Finset.range (longest + 1), counts.getD i 0 = total
  space_eq : ∑ i ∈ Finset.range (longest + 1), counts.getD i 0 * 2 ^ (longest - i) =
    2 ^ longest + excess
  excess_le : excess ≤ counts.getD longest 0

variable {longest total excess : Nat} {counts : Array Nat} {depths : List Nat}

theorem total_modify (counts : Array Nat) {k n : Nat} (hk : k < n) (hsize : n ≤ counts.size)
    (f : Nat → Nat) :
    (∑ i ∈ Finset.range n, (counts.modify k f).getD i 0) + counts.getD k 0 =
      (∑ i ∈ Finset.range n, counts.getD i 0) + f (counts.getD k 0) := by
  simpa only [Nat.mul_one] using sum_modify counts hk hsize f fun _ => 1

/-- Two words one bit longer take the space of the word they are put for. -/
theorem sums_lengthened {i : Nat} (hi : i < longest) (hsize : counts.size = longest + 1)
    (hword : counts.getD i 0 ≠ 0) :
    (∑ j ∈ Finset.range (longest + 1),
        ((counts.modify i (· - 1)).modify (i + 1) (· + 2)).getD j 0) =
      (∑ j ∈ Finset.range (longest + 1), counts.getD j 0) + 1 ∧
    (∑ j ∈ Finset.range (longest + 1),
        ((counts.modify i (· - 1)).modify (i + 1) (· + 2)).getD j 0 * 2 ^ (longest - j)) =
      ∑ j ∈ Finset.range (longest + 1), counts.getD j 0 * 2 ^ (longest - j) := by
  have hsize' : (counts.modify i (· - 1)).size = longest + 1 := by
    rw [Array.size_modify, hsize]
  have hi₁ : i < longest + 1 := Nat.lt_succ_of_lt hi
  have hi₂ : i + 1 < longest + 1 := Nat.succ_lt_succ hi
  have htotal₁ := total_modify counts hi₁ (Nat.le_of_eq hsize.symm) (· - 1)
  have hspace₁ := sum_modify counts hi₁ (Nat.le_of_eq hsize.symm) (· - 1)
    fun j => 2 ^ (longest - j)
  have htotal₂ := total_modify (counts.modify i (· - 1)) hi₂ (Nat.le_of_eq hsize'.symm) (· + 2)
  have hspace₂ := sum_modify (counts.modify i (· - 1)) hi₂ (Nat.le_of_eq hsize'.symm) (· + 2)
    fun j => 2 ^ (longest - j)
  have hhalf : 2 ^ (longest - i) = 2 * 2 ^ (longest - (i + 1)) := by
    rw [← Nat.pow_succ']
    congr 1
    omega
  obtain ⟨words, hwords⟩ := Nat.exists_eq_succ_of_ne_zero hword
  rw [hwords, Nat.succ_sub_one] at htotal₁ hspace₁
  rw [Nat.succ_mul] at hspace₁
  rw [Nat.add_mul] at hspace₂
  constructor <;> omega

/-- One word given up makes room for one. -/
theorem Exceeds.giveUpWord (h : Exceeds longest total (excess + 1) counts) (hsome : longest ≠ 0)
    (hroom : total ≤ 2 ^ longest) :
    Exceeds longest total excess (giveUpWord longest counts) := by
  obtain ⟨hsize, hroot, htotal, hspace, hexcess⟩ := h
  have hgiven : (counts.modify longest (· - 1)).size = longest + 1 := by
    rw [Array.size_modify, hsize]
  have hlast : longest < longest + 1 := Nat.lt_succ_self longest
  have htotal₁ := total_modify counts hlast (Nat.le_of_eq hsize.symm) (· - 1)
  have hspace₁ := sum_modify counts hlast (Nat.le_of_eq hsize.symm) (· - 1)
    fun i => 2 ^ (longest - i)
  simp only [Nat.sub_self, Nat.pow_zero, Nat.mul_one] at hspace₁
  have hroot₁ : (counts.modify longest (· - 1)).getD 0 0 = 0 := by
    rw [getD_modify _ (by omega), if_neg hsome, hroot]
  have hgave : (counts.modify longest (· - 1)).getD longest 0 = counts.getD longest 0 - 1 := by
    rw [getD_modify _ (by omega), if_pos rfl]
  rw [Retarget.Deflate.giveUpWord]
  generalize counts.modify longest (· - 1) = given at *
  split
  · next i hfind =>
    have hi : i < longest := by simpa using List.mem_of_find?_eq_some hfind
    obtain ⟨hne, hword⟩ : i ≠ 0 ∧ given.getD i 0 ≠ 0 := by simpa using List.find?_some hfind
    obtain ⟨htotal₂, hspace₂⟩ := sums_lengthened hi hgiven hword
    have hkept : given.getD longest 0 ≤
        ((given.modify i (· - 1)).modify (i + 1) (· + 2)).getD longest 0 := by
      rw [getD_modify _ (by rw [Array.size_modify]; omega), getD_modify _ (by omega),
        if_neg (Nat.ne_of_lt hi)]
      split <;> omega
    refine ⟨by rw [Array.size_modify, Array.size_modify, hgiven], ?_, by omega, by omega, by omega⟩
    rw [getD_modify _ (by rw [Array.size_modify]; omega), getD_modify _ (by omega),
      if_neg (Nat.succ_ne_zero i), if_neg hne, hroot₁]
  · next hfind =>
    have hnone : ∀ i < longest, given.getD i 0 = 0 := by
      intro i hi
      by_cases hne : i = 0
      · rw [hne, hroot₁]
      · simpa [hne] using List.find?_eq_none.mp hfind i (by simpa using hi)
    -- all words have the greatest length, and there are not as many as fill the space
    rw [Finset.sum_range_succ, Finset.sum_eq_zero fun i hi => hnone i (Finset.mem_range.mp hi)]
      at htotal₁
    rw [Finset.sum_range_succ, Finset.sum_eq_zero fun i hi => by
      rw [hnone i (Finset.mem_range.mp hi), Nat.zero_mul]] at hspace₁
    rw [Nat.sub_self, Nat.pow_zero] at hspace₁
    omega

theorem Exceeds.giveUpAll (h : Exceeds longest total excess counts) (hsome : longest ≠ 0)
    (hroom : total ≤ 2 ^ longest) :
    Exceeds longest total 0
      ((List.range excess).foldl (fun counts _ => Deflate.giveUpWord longest counts) counts) := by
  induction excess generalizing counts with
  | zero => exact h
  | succ excess ih =>
    have hnext := ih (h.giveUpWord hsome hroom)
    rwa [List.range_succ_eq_map, List.foldl_cons, List.foldl_map]

theorem toList_cutCounts (longest : Nat) (depths : List Nat) :
    (cutCounts longest depths).toList = depths.take longest ++
      (List.replicate (longest - depths.length) 0 ++ [(depths.drop longest).sum]) := by
  simp [cutCounts, List.sum_eq_foldr]

theorem getD_cutCounts (longest : Nat) (depths : List Nat) (i : Nat) :
    (cutCounts longest depths).getD i 0 = (depths.take longest ++
      (List.replicate (longest - depths.length) 0 ++ [(depths.drop longest).sum])).getD i 0 := by
  rw [← toList_cutCounts, Array.getD_eq_getD_getElem?, List.getD_eq_getElem?_getD,
    Array.getElem?_toList]

theorem getD_cutCounts_of_lt {i : Nat} (hi : i < longest) (depths : List Nat) :
    (cutCounts longest depths).getD i 0 = depths.getD i 0 := by
  rw [getD_cutCounts, List.getD_eq_getElem?_getD, List.getD_eq_getElem?_getD]
  rcases Nat.lt_or_ge i depths.length with hinside | hbeyond
  · rw [List.getElem?_append_left (by simp; omega), List.getElem?_take_of_lt hi]
  · rw [List.getElem?_append_right (by simp; omega), List.getElem?_append_left (by simp; omega),
      List.getElem?_eq_none hbeyond, List.getElem?_replicate_of_lt (by simp; omega)]
    rfl

theorem getD_cutCounts_longest (longest : Nat) (depths : List Nat) :
    (cutCounts longest depths).getD longest 0 = (depths.drop longest).sum := by
  have hbefore : (depths.take longest ++ List.replicate (longest - depths.length) 0).length =
      longest := by
    simp
    omega
  rw [getD_cutCounts, ← List.append_assoc, List.getD_eq_getElem?_getD,
    List.getElem?_append_right (Nat.le_of_eq hbefore), hbefore, Nat.sub_self]
  rfl

theorem countedSpace_eq (hroot : counts.getD 0 0 = 0) :
    countedSpace longest counts =
      ∑ i ∈ Finset.range (longest + 1), counts.getD i 0 * 2 ^ (longest - i) := by
  rw [countedSpace, ← List.sum_eq_foldr, sum_map_range]
  apply Finset.sum_congr rfl
  intro i _
  rw [Nat.shiftLeft_eq]
  split
  · next hzero => rw [hzero, hroot, Nat.zero_mul]
  · rfl

/-- The leaves above the cut fill the space of words at most, and with a word of the greatest length
for each of the others at least. -/
theorem FillsSpace.cut (hfills : FillsSpace depths) (longest : Nat) :
    ∑ i ∈ Finset.range longest, depths.getD i 0 * 2 ^ (longest - i) ≤ 2 ^ longest ∧
    2 ^ longest ≤ (∑ i ∈ Finset.range longest, depths.getD i 0 * 2 ^ (longest - i)) +
      (depths.drop longest).sum := by
  have hfull := hfills (longest + depths.length) (Nat.le_add_left _ _)
  have hdeep : ∀ i, depths.getD (longest + i) 0 = (depths.drop longest).getD i 0 := by
    intro i
    rw [List.getD_eq_getElem?_getD, List.getD_eq_getElem?_getD, List.getElem?_drop]
  have hshort : ∑ i ∈ Finset.range longest, depths.getD i 0 * 2 ^ (longest + depths.length - i) =
      2 ^ depths.length * ∑ i ∈ Finset.range longest, depths.getD i 0 * 2 ^ (longest - i) := by
    rw [Finset.mul_sum]
    apply Finset.sum_congr rfl
    intro i hi
    have hlt := Finset.mem_range.mp hi
    rw [show longest + depths.length - i = depths.length + (longest - i) by omega, Nat.pow_add,
      Nat.mul_left_comm]
  have hlong : ∑ i ∈ Finset.range depths.length,
      (depths.drop longest).getD i 0 * 2 ^ (depths.length - i) ≤
        2 ^ depths.length * (depths.drop longest).sum := by
    rw [← @sum_range_getD (depths.drop longest) depths.length (by simp), Finset.mul_sum]
    apply Finset.sum_le_sum
    intro i _
    rw [Nat.mul_comm]
    exact Nat.mul_le_mul_right _ (Nat.pow_le_pow_right (by decide) (Nat.sub_le _ _))
  rw [Finset.sum_range_add] at hfull
  simp only [hdeep, Nat.add_sub_add_left] at hfull
  rw [hshort, Nat.add_comm longest, Nat.pow_add] at hfull
  constructor
  · apply Nat.le_of_mul_le_mul_left _ (Nat.two_pow_pos depths.length)
    omega
  · apply Nat.le_of_mul_le_mul_left _ (Nat.two_pow_pos depths.length)
    rw [Nat.mul_add]
    omega

/-- The leaves that are cut take a word of the greatest length each, where they took part of one
or a whole one. -/
theorem exceeds_cutCounts (hfills : FillsSpace depths) (hleaves : 2 ≤ depths.sum)
    (hsome : longest ≠ 0) :
    Exceeds longest depths.sum (countedSpace longest (cutCounts longest depths) - 1 <<< longest)
      (cutCounts longest depths) := by
  have hroot : (cutCounts longest depths).getD 0 0 = 0 := by
    rw [getD_cutCounts_of_lt (Nat.pos_of_ne_zero hsome)]
    exact getD_zero_of_fillsSpace hfills hleaves
  have hsize : (cutCounts longest depths).size = longest + 1 := by
    rw [← Array.length_toList, toList_cutCounts]
    simp
    omega
  have hshort : ∀ i ∈ Finset.range longest,
      (cutCounts longest depths).getD i 0 = depths.getD i 0 := fun i hi =>
    getD_cutCounts_of_lt (Finset.mem_range.mp hi) depths
  have htotal : ∑ i ∈ Finset.range (longest + 1), (cutCounts longest depths).getD i 0 =
      depths.sum := by
    rw [Finset.sum_range_succ, getD_cutCounts_longest, Finset.sum_congr rfl hshort]
    exact sum_range_getD_add_drop depths longest
  have hspace : ∑ i ∈ Finset.range (longest + 1),
      (cutCounts longest depths).getD i 0 * 2 ^ (longest - i) =
        (∑ i ∈ Finset.range longest, depths.getD i 0 * 2 ^ (longest - i)) +
          (depths.drop longest).sum := by
    rw [Finset.sum_range_succ, getD_cutCounts_longest, Nat.sub_self, Nat.pow_zero, Nat.mul_one,
      Finset.sum_congr rfl fun i hi => by rw [hshort i hi]]
  obtain ⟨hless, hmore⟩ := hfills.cut longest
  rw [countedSpace_eq hroot, hspace, Nat.one_shiftLeft]
  refine ⟨hsize, hroot, htotal, ?_, ?_⟩
  · rw [hspace]
    omega
  · rw [getD_cutCounts_longest]
    omega

end Limits

end Retarget.Deflate

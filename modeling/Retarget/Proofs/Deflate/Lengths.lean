import Mathlib.Data.List.Nodup
import Retarget.Proofs.Deflate.Trees

/-!
The word lengths that symbols of known frequency get. There are as many lengths as symbols that are
used, and each of those gets one, so they fill the space of words as the lengths do. A symbol that
is used alone gets a word of one bit.
-/
namespace Retarget.Deflate

variable {longest : Nat} {counts frequencies : Array Nat} {lengths : List Nat}

section Lengths

theorem sum_map_countedLengths (hroot : counts.getD 0 0 = 0) (f : Nat → Nat) :
    ((countedLengths longest counts).map f).sum =
      ∑ i ∈ Finset.range (longest + 1), counts.getD i 0 * f i := by
  rw [countedLengths]
  induction longest + 1 with
  | zero => rfl
  | succ n ih =>
    rw [List.range_succ, List.flatMap_append, List.map_append, List.sum_append, ih,
      Finset.sum_range_succ, List.flatMap_singleton]
    congr 1
    split
    · next hzero => rw [hzero, hroot, Nat.zero_mul, List.map_nil, List.sum_nil]
    · rw [List.map_replicate, List.sum_replicate, Nat.nsmul_eq_mul]

theorem mem_countedLengths {n : Nat} (h : n ∈ countedLengths longest counts) :
    n ≠ 0 ∧ n ≤ longest := by
  obtain ⟨i, hi, hn⟩ := List.mem_flatMap.mp h
  have hle := List.mem_range.mp hi
  split at hn
  · cases hn
  · next hne =>
    obtain rfl := List.eq_of_mem_replicate hn
    exact ⟨hne, Nat.le_of_lt_succ hle⟩

theorem Exceeds.length_countedLengths {total : Nat} (h : Exceeds longest total 0 counts) :
    (countedLengths longest counts).length = total := by
  have hsum := @sum_map_countedLengths longest counts h.rootless fun _ => 1
  simp only [Nat.mul_one, List.map_const', List.sum_replicate, Nat.nsmul_eq_mul] at hsum
  rw [hsum, h.total_eq]

/-- Words without an excess fill the space of words. -/
theorem Exceeds.isComplete {total : Nat} (h : Exceeds longest total 0 counts)
    (hlongest : longest ≤ 15) : IsComplete (countedLengths longest counts) := by
  have hwords : ∀ i ∈ Finset.range (longest + 1), counts.getD i 0 * spaceOf i =
      2 ^ (15 - longest) * (counts.getD i 0 * 2 ^ (longest - i)) := by
    intro i hi
    have hle := Finset.mem_range.mp hi
    rw [spaceOf]
    split
    · next hzero => rw [hzero, h.rootless, Nat.zero_mul, Nat.zero_mul, Nat.mul_zero]
    · rw [Nat.mul_left_comm, ← Nat.pow_add]
      congr 2
      omega
  rw [IsComplete, takenSpace_eq, sum_map_countedLengths h.rootless, Finset.sum_congr rfl hwords,
    ← Finset.mul_sum, h.space_eq, Nat.add_zero, ← Nat.pow_add, Nat.one_shiftLeft]
  congr 1
  omega

theorem exceeds_limitCounts {weights : List Nat} (hmany : 2 ≤ weights.length)
    (hroom : weights.length ≤ 2 ^ longest) (hlongest : longest ≠ 0) :
    Exceeds longest weights.length 0 (limitCounts longest (optimalCounts weights)) := by
  have hone : (fun tree : Weighed => tree.depths.sum) ∘ (fun w => (⟨w, [1]⟩ : Weighed)) =
      fun _ => 1 := rfl
  obtain ⟨hfills, hsum⟩ := @mergeAll_fillsSpace weights.length
    (weights.map fun w => ⟨w, [1]⟩) [] (by simp)
    (by simp [List.ne_nil_of_length_pos (show 0 < weights.length by omega)])
    (by simpa using fun _ _ => fillsSpace_leaf)
  rw [List.append_nil, List.map_map, hone, List.map_const', List.sum_replicate,
    Nat.nsmul_eq_mul, Nat.mul_one] at hsum
  have hoptimal : optimalCounts weights =
      mergeAll weights.length (weights.map fun w => ⟨w, [1]⟩) [] := by
    match weights, hmany with
    | _ :: _ :: _, _ => rfl
  rw [hoptimal, limitCounts, ← List.sum_eq_foldr, if_neg (by omega)]
  have hcut := exceeds_cutCounts hfills (by omega) hlongest
  rw [hsum] at hcut
  exact hcut.giveUpAll hlongest hroom

/-- A single leaf has a word of one bit. -/
theorem countedLengths_single (hlongest : 2 ≤ longest) :
    countedLengths longest (limitCounts longest [0, 1]) = [1] := by
  obtain ⟨m, rfl⟩ := Nat.exists_eq_add_of_le' hlongest
  have hcounts : ∀ i, (limitCounts (m + 2) [0, 1]).getD i 0 =
      (0 :: 1 :: (List.replicate m 0 ++ [0])).getD i 0 := by
    intro i
    have hlimit : limitCounts (m + 2) [0, 1] = cutCounts (m + 2) [0, 1] := rfl
    rw [hlimit, getD_cutCounts]
    simp
  have hlonger : ∀ i, (limitCounts (m + 2) [0, 1]).getD (i + 1 + 1) 0 = 0 := by
    intro i
    rw [hcounts, List.getD_cons_succ, List.getD_cons_succ, ← List.replicate_succ',
      List.getD_eq_getElem?_getD, List.getElem?_replicate]
    split <;> rfl
  have hsum : ∀ f : Nat → Nat,
      ((countedLengths (m + 2) (limitCounts (m + 2) [0, 1])).map f).sum = f 1 := by
    intro f
    rw [sum_map_countedLengths (hcounts 0), Finset.sum_range_succ', Finset.sum_range_succ',
      Finset.sum_eq_zero fun i _ => by rw [hlonger, Nat.zero_mul], hcounts, hcounts]
    simp
  have hone : (countedLengths (m + 2) (limitCounts (m + 2) [0, 1])).length = 1 := by
    simpa using hsum fun _ => 1
  obtain ⟨n, hn⟩ := List.length_eq_one_iff.mp hone
  have hbit := hsum id
  rw [hn] at hbit ⊢
  simpa using hbit

end Lengths

section Assignment

theorem takenSpace_set {i : Nat} (h : lengths[i]? = some 0) (n : Nat) :
    takenSpace (lengths.set i n) = takenSpace lengths + spaceOf n := by
  induction lengths generalizing i with
  | nil => cases h
  | cons first rest ih =>
    cases i with
    | zero =>
      obtain rfl : first = 0 := by simpa using h
      rw [List.set_cons_zero, takenSpace_cons, takenSpace_cons, spaceOf, spaceOf, if_pos rfl]
      omega
    | succ i => rw [List.set_cons_succ, takenSpace_cons, takenSpace_cons, ih h, Nat.add_assoc]

theorem assignLengths_cons (base : Array Nat) (pair : Nat × Nat) (rest : List (Nat × Nat)) :
    assignLengths base (pair :: rest) =
      assignLengths (base.setIfInBounds pair.1 pair.2) rest := rfl

variable {base : Array Nat} {pairs : List (Nat × Nat)}

theorem size_assignLengths (base : Array Nat) (pairs : List (Nat × Nat)) :
    (assignLengths base pairs).size = base.size := by
  induction pairs generalizing base with
  | nil => rfl
  | cons pair rest ih => rw [assignLengths_cons, ih, Array.size_setIfInBounds]

theorem getElem?_assignLengths_of_not_mem {symbol : Nat} (h : symbol ∉ pairs.map Prod.fst) :
    (assignLengths base pairs)[symbol]? = base[symbol]? := by
  induction pairs generalizing base with
  | nil => rfl
  | cons pair rest ih =>
    rw [List.map_cons, List.mem_cons, not_or] at h
    rw [assignLengths_cons, ih h.2, Array.getElem?_setIfInBounds_ne (Ne.symm h.1)]

theorem getElem?_assignLengths_of_mem (hnodup : (pairs.map Prod.fst).Nodup) {symbol n : Nat}
    (hmem : (symbol, n) ∈ pairs) (hsize : symbol < base.size) :
    (assignLengths base pairs)[symbol]? = some n := by
  induction pairs generalizing base with
  | nil => cases hmem
  | cons first rest ih =>
    obtain ⟨hfirst, hrest⟩ := List.nodup_cons.mp hnodup
    rw [assignLengths_cons]
    rcases List.mem_cons.mp hmem with rfl | hmem
    · rw [getElem?_assignLengths_of_not_mem hfirst, Array.getElem?_setIfInBounds_self_of_lt hsize]
    · exact ih hrest hmem (by rwa [Array.size_setIfInBounds])

/-- Symbols that had no words get those of the lengths. -/
theorem takenSpace_assignLengths (hnodup : (pairs.map Prod.fst).Nodup)
    (hbase : ∀ symbol ∈ pairs.map Prod.fst, base[symbol]? = some 0) :
    takenSpace (assignLengths base pairs).toList =
      takenSpace base.toList + takenSpace (pairs.map Prod.snd) := by
  induction pairs generalizing base with
  | nil => rfl
  | cons first rest ih =>
    obtain ⟨hfirst, hrest⟩ := List.nodup_cons.mp hnodup
    have hnext : ∀ symbol ∈ rest.map Prod.fst,
        (base.setIfInBounds first.1 first.2)[symbol]? = some 0 := by
      intro symbol hsymbol
      have hne : first.1 ≠ symbol := fun hsame => hfirst (hsame ▸ hsymbol)
      rw [Array.getElem?_setIfInBounds_ne hne]
      exact hbase symbol (List.mem_cons_of_mem _ hsymbol)
    have hset : base.toList[first.1]? = some 0 := by
      rw [Array.getElem?_toList]
      exact hbase first.1 List.mem_cons_self
    rw [assignLengths_cons, ih hrest hnext, Array.toList_setIfInBounds, takenSpace_set hset,
      List.map_cons, takenSpace_cons, Nat.add_assoc]

end Assignment

section WordLengths

theorem mem_byFrequency_iff {n symbol : Nat} :
    (n, symbol) ∈ byFrequency frequencies ↔ frequencies[symbol]? = some n ∧ n ≠ 0 := by
  rw [byFrequency, List.mem_mergeSort, List.mem_filter, List.mem_zipIdx_iff_getElem?]
  simp

theorem lt_size_of_used {symbol : Nat} (hused : frequencies.getD symbol 0 ≠ 0) :
    symbol < frequencies.size := by
  by_contra hbeyond
  rw [Array.getD_eq_getD_getElem?, Array.getElem?_eq_none (Nat.le_of_not_lt hbeyond)] at hused
  exact hused rfl

theorem nodup_byFrequency (frequencies : Array Nat) :
    ((byFrequency frequencies).map Prod.snd).Nodup := by
  have hperm := List.mergeSort_perm (frequencies.toList.zipIdx.filter fun entry => entry.1 ≠ 0)
    fun a b => a.1 ≤ b.1
  rw [byFrequency, (hperm.map Prod.snd).nodup_iff]
  have hsymbols : (frequencies.toList.zipIdx.map Prod.snd).Nodup := by
    rw [List.zipIdx_map_snd]
    exact List.nodup_range'
  exact hsymbols.sublist ((List.filter_sublist).map Prod.snd)

theorem takenSpace_replicate (m n : Nat) : takenSpace (List.replicate m n) = m * spaceOf n := by
  rw [takenSpace_eq, List.map_replicate, List.sum_replicate, Nat.nsmul_eq_mul]

theorem takenSpace_of_le_one (h : ∀ n ∈ lengths, n ≤ 1) :
    takenSpace lengths = lengths.countP (· ≠ 0) * 2 ^ 14 := by
  induction lengths with
  | nil => rfl
  | cons n rest ih =>
    have hn : n ≤ 1 := h n List.mem_cons_self
    rw [takenSpace_cons, ih fun n hn => h n (List.mem_cons_of_mem _ hn), List.countP_cons]
    rcases Nat.le_one_iff_eq_zero_or_eq_one.mp hn with rfl | rfl
    · simp [spaceOf]
    · simp [spaceOf]
      omega

theorem isSmall_iff :
    IsSmall lengths ↔ (∀ n ∈ lengths, n ≤ 1) ∧ lengths.countP (· ≠ 0) ≤ 1 := by
  simp [IsSmall]

theorem IsSmall.takenSpace_le (h : IsSmall lengths) : takenSpace lengths ≤ 2 ^ 14 := by
  obtain ⟨hall, hone⟩ := isSmall_iff.mp h
  rw [takenSpace_of_le_one hall]
  omega

/-- Lengths that are as many as the symbols used go to these symbols. -/
structure Gives (frequencies : Array Nat) (given : List Nat) : Prop where
  length_eq : given.length = (byFrequency frequencies).length
  ne_zero : ∀ n ∈ given, n ≠ 0

namespace Gives

variable {given : List Nat} (h : Gives frequencies given)
include h

theorem map_fst_pairs :
    (((byFrequency frequencies).reverse.map Prod.snd).zip given).map Prod.fst =
      (byFrequency frequencies).reverse.map Prod.snd := by
  apply List.map_fst_zip
  simp [h.length_eq]

theorem map_snd_pairs :
    (((byFrequency frequencies).reverse.map Prod.snd).zip given).map Prod.snd = given := by
  apply List.map_snd_zip
  simp [h.length_eq]

theorem nodup_pairs :
    ((((byFrequency frequencies).reverse.map Prod.snd).zip given).map Prod.fst).Nodup := by
  rw [h.map_fst_pairs, List.map_reverse, List.nodup_reverse]
  exact nodup_byFrequency frequencies

theorem mem_pairs_iff {symbol : Nat} :
    symbol ∈ (((byFrequency frequencies).reverse.map Prod.snd).zip given).map Prod.fst ↔
      frequencies.getD symbol 0 ≠ 0 := by
  rw [h.map_fst_pairs, List.mem_map, Array.getD_eq_getD_getElem?]
  constructor
  · rintro ⟨⟨n, symbol⟩, hmem, rfl⟩
    obtain ⟨hget, hne⟩ := mem_byFrequency_iff.mp (List.mem_reverse.mp hmem)
    rwa [hget]
  · intro hne
    cases hget : frequencies[symbol]? with
    | none => exact absurd (by rw [hget]; rfl) hne
    | some n =>
      rw [hget] at hne
      exact ⟨(n, symbol), List.mem_reverse.mpr (mem_byFrequency_iff.mpr ⟨hget, hne⟩), rfl⟩

theorem getElem?_of_used {symbol : Nat} (hused : frequencies.getD symbol 0 ≠ 0) :
    ∃ n ∈ given, (giveLengths frequencies given)[symbol]? = some n := by
  have hsize := lt_size_of_used hused
  obtain ⟨⟨symbol', n⟩, hmem, rfl⟩ := List.mem_map.mp (h.mem_pairs_iff.mpr hused)
  refine ⟨n, (List.of_mem_zip hmem).2, ?_⟩
  exact getElem?_assignLengths_of_mem h.nodup_pairs hmem (by rwa [Array.size_replicate])

theorem getElem?_of_unused {symbol : Nat} (hunused : frequencies.getD symbol 0 = 0) :
    (giveLengths frequencies given)[symbol]? = (Array.replicate frequencies.size 0)[symbol]? :=
  getElem?_assignLengths_of_not_mem fun hmem => h.mem_pairs_iff.mp hmem hunused

theorem hasWord_iff (symbol : Nat) :
    HasWord (giveLengths frequencies given).toList symbol ↔ frequencies.getD symbol 0 ≠ 0 := by
  rw [HasWord, Array.getElem?_toList]
  constructor
  · rintro ⟨n, hget, hne⟩ hunused
    rw [h.getElem?_of_unused hunused, Array.getElem?_replicate] at hget
    split at hget
    · exact hne (Option.some.inj hget).symm
    · cases hget
  · intro hused
    obtain ⟨n, hmem, hget⟩ := h.getElem?_of_used hused
    exact ⟨n, hget, h.ne_zero n hmem⟩

theorem eq_zero_or_mem {n : Nat} (hmem : n ∈ (giveLengths frequencies given).toList) :
    n = 0 ∨ n ∈ given := by
  obtain ⟨symbol, hget⟩ := List.mem_iff_getElem?.mp hmem
  rw [Array.getElem?_toList] at hget
  by_cases hused : frequencies.getD symbol 0 = 0
  · rw [h.getElem?_of_unused hused, Array.getElem?_replicate] at hget
    split at hget
    · exact .inl (Option.some.inj hget).symm
    · cases hget
  · obtain ⟨m, hgiven, hsame⟩ := h.getElem?_of_used hused
    rw [hsame, Option.some.injEq] at hget
    exact .inr (hget ▸ hgiven)

theorem takenSpace_eq : takenSpace (giveLengths frequencies given).toList = takenSpace given := by
  have hbase : ∀ symbol ∈ (((byFrequency frequencies).reverse.map Prod.snd).zip given).map Prod.fst,
      (Array.replicate frequencies.size 0)[symbol]? = some 0 := by
    intro symbol hmem
    rw [Array.getElem?_replicate, if_pos (lt_size_of_used (h.mem_pairs_iff.mp hmem))]
  rw [giveLengths, takenSpace_assignLengths h.nodup_pairs hbase, Array.toList_replicate,
    takenSpace_replicate, spaceOf, if_pos rfl, Nat.mul_zero, Nat.zero_add, h.map_snd_pairs]

end Gives

structure IsCodeFor (longest : Nat) (frequencies : Array Nat) (lengths : List Nat) : Prop where
  length_eq : lengths.length = frequencies.size
  short : ∀ n ∈ lengths, n ≤ longest
  hasWord_iff : ∀ symbol, HasWord lengths symbol ↔ frequencies.getD symbol 0 ≠ 0
  usable : IsComplete lengths ∨ IsSmall lengths
  complete : ∀ a b, a ≠ b → frequencies.getD a 0 ≠ 0 → frequencies.getD b 0 ≠ 0 →
    IsComplete lengths

theorem Gives.isCodeFor {given : List Nat} (h : Gives frequencies given)
    (hshort : ∀ n ∈ given, n ≤ longest) (hmany : 2 ≤ given.length → IsComplete given)
    (hfew : given.length < 2 → ∀ n ∈ given, n ≤ 1) :
    IsCodeFor longest frequencies (giveLengths frequencies given).toList := by
  have hcomplete : 2 ≤ given.length → IsComplete (giveLengths frequencies given).toList := by
    intro hlength
    rw [IsComplete, h.takenSpace_eq]
    exact hmany hlength
  refine ⟨?_, ?_, h.hasWord_iff, ?_, ?_⟩
  · rw [Array.length_toList, giveLengths, size_assignLengths, Array.size_replicate]
  · intro n hn
    rcases h.eq_zero_or_mem hn with rfl | hgiven
    · exact Nat.zero_le _
    · exact hshort n hgiven
  · rcases Nat.lt_or_ge given.length 2 with hless | hmore
    · right
      have hone : ∀ n ∈ (giveLengths frequencies given).toList, n ≤ 1 := by
        intro n hn
        rcases h.eq_zero_or_mem hn with rfl | hgiven
        · exact Nat.zero_le _
        · exact hfew hless n hgiven
      have hspace := h.takenSpace_eq
      rw [takenSpace_of_le_one hone, takenSpace_of_le_one (hfew hless)] at hspace
      have hcount := List.countP_le_length (p := fun n => decide (n ≠ 0)) (l := given)
      exact isSmall_iff.mpr ⟨hone, by omega⟩
    · exact .inl (hcomplete hmore)
  · intro a b hne ha hb
    apply hcomplete
    have hlength : given.length =
        ((((byFrequency frequencies).reverse.map Prod.snd).zip given).map Prod.fst).length := by
      rw [h.map_fst_pairs, h.length_eq, List.length_map, List.length_reverse]
    rw [← h.mem_pairs_iff] at ha hb
    rw [hlength]
    match hsymbols : (((byFrequency frequencies).reverse.map Prod.snd).zip given).map Prod.fst with
    | [] =>
      rw [hsymbols] at ha
      cases ha
    | [symbol] =>
      rw [hsymbols, List.mem_singleton] at ha hb
      exact absurd (ha.trans hb.symm) hne
    | _ :: _ :: _ =>
      rw [List.length_cons, List.length_cons]
      omega

/-- The lengths make a code, whatever the frequencies are. -/
theorem isCodeFor_wordLengths (hlongest : 2 ≤ longest) (hshort : longest ≤ 15)
    (hroom : frequencies.size ≤ 2 ^ longest) :
    IsCodeFor longest frequencies (wordLengths longest frequencies).toList := by
  have hused : (byFrequency frequencies).length ≤ frequencies.size := by
    rw [byFrequency, List.length_mergeSort]
    refine Nat.le_trans (List.length_filter_le _ _) ?_
    rw [List.length_zipIdx, Array.length_toList]
  rw [wordLengths]
  match hsorted : byFrequency frequencies with
  | [] =>
    have hnone : giveLengths frequencies (countedLengths longest
        (limitCounts longest (optimalCounts []))) = giveLengths frequencies [] := by
      rw [giveLengths, giveLengths, hsorted]
      rfl
    rw [List.map_nil, hnone]
    exact Gives.isCodeFor ⟨by rw [hsorted]; rfl, by simp⟩ (by simp) (by simp) (by simp)
  | [entry] =>
    have hone : countedLengths longest (limitCounts longest
        (optimalCounts ([entry].map Prod.fst))) = [1] := countedLengths_single hlongest
    rw [hone]
    refine Gives.isCodeFor ⟨by rw [hsorted]; rfl, by simp⟩ ?_ (by simp) (by simp)
    simp
    omega
  | first :: second :: rest =>
    rw [← hsorted]
    have hweights : ((byFrequency frequencies).map Prod.fst).length =
        (byFrequency frequencies).length := List.length_map _
    have htwo : 2 ≤ (byFrequency frequencies).length := by
      rw [hsorted, List.length_cons, List.length_cons]
      omega
    have hlimit := @exceeds_limitCounts longest ((byFrequency frequencies).map Prod.fst)
      (by omega) (by omega) (by omega)
    have hlength := hlimit.length_countedLengths
    refine Gives.isCodeFor ⟨hlength.trans hweights, fun n hn => (mem_countedLengths hn).1⟩
      (fun n hn => (mem_countedLengths hn).2) (fun _ => hlimit.isComplete hshort) ?_
    intro hless
    omega

end WordLengths

/-- The words of a code have space. -/
theorem IsCodeFor.isCode {lengths : List Nat} (h : IsCodeFor longest frequencies lengths)
    (hshort : longest ≤ 15) : IsCode lengths := by
  refine ⟨fun n hn => Nat.le_trans (h.short n hn) hshort, ?_⟩
  rcases h.usable with hcomplete | hsmall
  · exact Nat.le_of_eq hcomplete
  · exact Nat.le_trans hsmall.takenSpace_le (by decide)

end Retarget.Deflate

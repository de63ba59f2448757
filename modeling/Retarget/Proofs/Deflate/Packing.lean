import Mathlib.Algebra.GroupWithZero.Nat
import Mathlib.Data.List.Induction
import Retarget.Deflate.Compress
import Retarget.Deflate.Inflate

/-!
Word lengths as symbols of the code-length code. A symbol adds one length, or some of the last one,
or some zeros, and what is read from symbols is what they add one after another. While lengths are
packed, those not yet written are a run of zeros or a run of the last length that was written, so
the two flushes and the step keep one invariant.
-/
namespace Retarget.Deflate

/-- What a packed entry adds to the lengths before it. -/
inductive Adds (lengths : List Nat) : Nat × Nat × Nat → List Nat → Prop
  | plain {n : Nat} (hn : n < 16) : Adds lengths (n, 0, 0) (lengths ++ [n])
  | repeats {n more : Nat} (hlast : lengths.getLast? = some n) (hmore : more < 2 ^ 2) :
    Adds lengths (16, 2, more) (lengths ++ List.replicate (3 + more) n)
  | zeros {more : Nat} (hmore : more < 2 ^ 3) :
    Adds lengths (17, 3, more) (lengths ++ List.replicate (3 + more) 0)
  | manyZeros {more : Nat} (hmore : more < 2 ^ 7) :
    Adds lengths (18, 7, more) (lengths ++ List.replicate (11 + more) 0)

theorem Adds.length_lt {before after : List Nat} {entry : Nat × Nat × Nat}
    (h : Adds before entry after) : before.length < after.length := by
  cases h <;> rw [List.length_append]
  · exact Nat.lt_add_one _
  all_goals
    rw [List.length_replicate]
    omega

inductive Unpacks : List Nat → List (Nat × Nat × Nat) → List Nat → Prop
  | nil {lengths : List Nat} : Unpacks lengths [] lengths
  | cons {before middle after : List Nat} {entry : Nat × Nat × Nat}
    {rest : List (Nat × Nat × Nat)} (hentry : Adds before entry middle)
    (hrest : Unpacks middle rest after) : Unpacks before (entry :: rest) after

namespace Unpacks

variable {before middle after : List Nat} {packed rest : List (Nat × Nat × Nat)}

theorem append (h : Unpacks before packed middle) (hrest : Unpacks middle rest after) :
    Unpacks before (packed ++ rest) after := by
  induction h with
  | nil => exact hrest
  | cons hentry _ ih => exact .cons hentry (ih hrest)

theorem plains {n : Nat} (hn : n < 16) (before : List Nat) (m : Nat) :
    Unpacks before (List.replicate m (n, 0, 0)) (before ++ List.replicate m n) := by
  induction m generalizing before with
  | zero =>
    rw [List.replicate_zero, List.replicate_zero, List.append_nil]
    exact .nil
  | succ m ih =>
    have hrest := ih (before ++ [n])
    rw [List.append_assoc, List.singleton_append, ← List.replicate_succ] at hrest
    exact .cons (.plain hn) hrest

theorem length_le (h : Unpacks before packed after) :
    before.length + packed.length ≤ after.length := by
  induction h with
  | nil => exact Nat.le_refl _
  | cons hentry _ ih =>
    have hlonger := hentry.length_lt
    rw [List.length_cons]
    omega

theorem symbol_lt (h : Unpacks before packed after) : ∀ entry ∈ packed, entry.1 < 19 := by
  induction h with
  | nil => simp
  | cons hentry _ ih =>
    rw [List.forall_mem_cons]
    refine ⟨?_, ih⟩
    cases hentry with
    | plain hn => exact Nat.lt_of_lt_of_le hn (by decide)
    | repeats | zeros | manyZeros => simp

/-- Symbols that are all one add only one length. -/
theorem all_eq {symbol n : Nat} (hn : n = if symbol < 16 then symbol else 0)
    (h : Unpacks before packed after) (hsymbols : ∀ entry ∈ packed, entry.1 = symbol)
    (hbefore : ∀ m ∈ before, m = n) : ∀ m ∈ after, m = n := by
  induction h with
  | nil => exact hbefore
  | @cons before middle after entry rest hentry _ ih =>
    apply ih fun entry hmem => hsymbols entry (List.mem_cons_of_mem _ hmem)
    have hsymbol := hsymbols entry List.mem_cons_self
    intro m hm
    cases hentry with
    | plain hshort =>
      rcases List.mem_append.mp hm with hm | hm
      · exact hbefore m hm
      · rw [List.mem_singleton.mp hm, hn, ← hsymbol, if_pos hshort]
    | repeats hlast _ =>
      rcases List.mem_append.mp hm with hm | hm
      · exact hbefore m hm
      · rw [List.eq_of_mem_replicate hm]
        exact hbefore _ (List.mem_of_getLast? hlast)
    | zeros _ =>
      rcases List.mem_append.mp hm with hm | hm
      · exact hbefore m hm
      · rw [List.eq_of_mem_replicate hm, hn, ← hsymbol]
        rfl
    | manyZeros _ =>
      rcases List.mem_append.mp hm with hm | hm
      · exact hbefore m hm
      · rw [List.eq_of_mem_replicate hm, hn, ← hsymbol]
        rfl

end Unpacks

namespace Packing

variable {p : Packing} {written lengths : List Nat}

/-- The lengths that a packing still holds back: zeros or repeats of the last one, not both. -/
def pending (p : Packing) : List Nat :=
  List.replicate p.zeros 0 ++ List.replicate p.repeats (p.last.getD 0)

structure Packs (p : Packing) (written lengths : List Nat) : Prop where
  unpacks : Unpacks [] p.packed.reverse written
  lengths_eq : lengths = written ++ p.pending
  last_eq : p.last = lengths.getLast?
  one_kind : p.zeros = 0 ∨ p.repeats = 0
  zeros_lt : p.zeros < 138
  repeats_lt : p.repeats < 6
  follows : p.repeats ≠ 0 → written.getLast? = some (p.last.getD 0)

theorem flushRepeats_eq (h : Unpacks [] p.packed.reverse written) (hfew : p.repeats ≤ 6)
    (hshort : p.last.getD 0 < 16)
    (hfollows : p.repeats ≠ 0 → written.getLast? = some (p.last.getD 0)) :
    ∃ packed, p.flushRepeats = { p with packed := packed, repeats := 0 } ∧
      Unpacks [] packed.reverse (written ++ List.replicate p.repeats (p.last.getD 0)) := by
  rw [flushRepeats]
  split
  · next hnone =>
    refine ⟨p.packed, ?_, ?_⟩
    · rw [← hnone]
    · rwa [hnone, List.replicate_zero, List.append_nil]
  · next hsome =>
    split
    · next hone =>
      refine ⟨_, rfl, ?_⟩
      rw [List.reverse_append, List.reverse_replicate]
      exact h.append (.plains hshort written p.repeats)
    · next hthree =>
      refine ⟨_, rfl, ?_⟩
      have hadds := Adds.repeats (hfollows hsome) (show p.repeats - 3 < 2 ^ 2 by omega)
      rw [Nat.add_sub_cancel' (by omega)] at hadds
      rw [List.reverse_cons]
      exact h.append (.cons hadds .nil)

theorem flushZeros_eq (h : Unpacks [] p.packed.reverse written) (hfew : p.zeros ≤ 138) :
    ∃ packed, p.flushZeros = { p with packed := packed, zeros := 0 } ∧
      Unpacks [] packed.reverse (written ++ List.replicate p.zeros 0) := by
  rw [flushZeros]
  split
  · next hnone =>
    refine ⟨p.packed, ?_, ?_⟩
    · rw [← hnone]
    · rwa [hnone, List.replicate_zero, List.append_nil]
  · split
    · refine ⟨_, rfl, ?_⟩
      rw [List.reverse_append, List.reverse_replicate]
      exact h.append (.plains (by decide) written p.zeros)
    · split
      · refine ⟨_, rfl, ?_⟩
        have hadds := @Adds.zeros written (p.zeros - 3) (by omega)
        rw [Nat.add_sub_cancel' (by omega)] at hadds
        rw [List.reverse_cons]
        exact h.append (.cons hadds .nil)
      · refine ⟨_, rfl, ?_⟩
        have hadds := @Adds.manyZeros written (p.zeros - 11) (by omega)
        rw [Nat.add_sub_cancel' (by omega)] at hadds
        rw [List.reverse_cons]
        exact h.append (.cons hadds .nil)

theorem packs_start : Packs ⟨[], 0, 0, none⟩ [] [] :=
  ⟨.nil, rfl, rfl, .inl rfl, by decide, by decide, by simp⟩

theorem Packs.last_lt (h : Packs p written lengths) (hshort : ∀ m ∈ lengths, m < 16) :
    p.last.getD 0 < 16 := by
  rw [h.last_eq]
  cases hlast : lengths.getLast? with
  | none => decide
  | some m => exact hshort m (List.mem_of_getLast? hlast)

theorem Packs.addZero (h : Packs p written lengths) (hshort : ∀ m ∈ lengths, m < 16) :
    ∃ written', Packs (p.add 0) written' (lengths ++ [0]) := by
  obtain ⟨packed, hflush, hunpacks⟩ := flushRepeats_eq h.unpacks (Nat.le_of_lt h.repeats_lt)
    (h.last_lt hshort) h.follows
  have hlengths : lengths ++ [0] =
      written ++ List.replicate p.repeats (p.last.getD 0) ++ List.replicate (p.zeros + 1) 0 := by
    rw [h.lengths_eq, pending, List.replicate_succ']
    rcases h.one_kind with hnone | hnone <;> simp [hnone]
  have hzeros := h.zeros_lt
  have hadd : p.add 0 = { (if p.zeros + 1 = 138
      then flushZeros ⟨packed, p.zeros + 1, 0, p.last⟩
      else ⟨packed, p.zeros + 1, 0, p.last⟩) with last := some 0 } := by
    simp only [add, Packing.addZero, hflush, if_true]
  rw [hadd]
  split
  · obtain ⟨packed', hflush', hunpacks'⟩ :=
      @flushZeros_eq ⟨packed, p.zeros + 1, 0, p.last⟩ _ hunpacks hzeros
    rw [hflush']
    exact ⟨_, hunpacks', hlengths.trans (by simp [pending]), by simp, .inr rfl, by simp, by simp,
      by simp⟩
  · refine ⟨_, hunpacks, hlengths.trans (by simp [pending]), by simp, .inr rfl, ?_, by simp,
      by simp⟩
    simp only
    omega

theorem Packs.addLength (h : Packs p written lengths) (hshort : ∀ m ∈ lengths, m < 16) {n : Nat}
    (hn : n ≠ 0) (hless : n < 16) :
    ∃ written', Packs (p.add n) written' (lengths ++ [n]) := by
  obtain ⟨packed, hflush, hunpacks⟩ := flushZeros_eq h.unpacks (Nat.le_of_lt h.zeros_lt)
  have hlengths : lengths =
      written ++ List.replicate p.zeros 0 ++ List.replicate p.repeats (p.last.getD 0) := by
    rw [h.lengths_eq, pending, List.append_assoc]
  have hfollows : p.repeats ≠ 0 →
      (written ++ List.replicate p.zeros 0).getLast? = some (p.last.getD 0) := by
    intro hsome
    have hnone : p.zeros = 0 := h.one_kind.resolve_right hsome
    rw [hnone, List.replicate_zero, List.append_nil]
    exact h.follows hsome
  have hrepeats := h.repeats_lt
  by_cases hlast : p.last = some n
  · have hadd : p.add n = { (if p.repeats + 1 = 6
        then flushRepeats ⟨packed, 0, p.repeats + 1, some n⟩
        else ⟨packed, 0, p.repeats + 1, some n⟩) with last := some n } := by
      simp only [add, Packing.addLength, hflush, if_neg hn, hlast, ne_eq, not_true_eq_false,
        if_false]
    have hnow : lengths ++ [n] =
        written ++ List.replicate p.zeros 0 ++ List.replicate (p.repeats + 1) n := by
      rw [hlengths, hlast, List.replicate_succ', Option.getD_some, List.append_assoc]
    -- the last length is no zero, so no zeros are held back
    have hfollows' : (written ++ List.replicate p.zeros 0).getLast? = some n := by
      by_cases hnone : p.repeats = 0
      · rw [← hlast, h.last_eq, hlengths, hnone, List.replicate_zero, List.append_nil]
      · rw [hfollows hnone, hlast, Option.getD_some]
    rw [hadd]
    split
    · obtain ⟨packed', hflush', hunpacks'⟩ :=
        @flushRepeats_eq ⟨packed, 0, p.repeats + 1, some n⟩ _ hunpacks hrepeats hless
          fun _ => hfollows'
      rw [hflush']
      exact ⟨_, hunpacks', hnow.trans (by simp [pending]), by simp, .inl rfl, by simp, by simp,
        by simp⟩
    · refine ⟨_, hunpacks, hnow.trans (by simp [pending]), by simp, .inl rfl, by simp, ?_,
        fun _ => hfollows'⟩
      simp only
      omega
  · obtain ⟨packed', hflush', hunpacks'⟩ := @flushRepeats_eq ⟨packed, 0, p.repeats, p.last⟩ _
      hunpacks (Nat.le_of_lt hrepeats) (h.last_lt hshort) hfollows
    have hadd : p.add n = ⟨(n, 0, 0) :: packed', 0, 0, some n⟩ := by
      simp only [add, Packing.addLength, hflush, if_neg hn, hlast, ne_eq, not_false_eq_true,
        if_true, hflush', Packing.plain]
    rw [hadd]
    refine ⟨lengths ++ [n], ?_, by simp [pending], by simp, .inl rfl, by simp, by simp, by simp⟩
    rw [List.reverse_cons]
    rw [← hlengths] at hunpacks'
    exact hunpacks'.append (.cons (.plain hless) .nil)

theorem Packs.add (h : Packs p written lengths) (hshort : ∀ m ∈ lengths, m < 16) {n : Nat}
    (hless : n < 16) : ∃ written', Packs (p.add n) written' (lengths ++ [n]) := by
  by_cases hn : n = 0
  · subst hn
    exact h.addZero hshort
  · exact h.addLength hshort hn hless

theorem exists_packs (lengths : List Nat) (hshort : ∀ n ∈ lengths, n < 16) :
    ∃ written, Packs (lengths.foldl Packing.add ⟨[], 0, 0, none⟩) written lengths := by
  induction lengths using List.reverseRecOn with
  | nil => exact ⟨[], packs_start⟩
  | append_singleton lengths n ih =>
    have hbefore : ∀ m ∈ lengths, m < 16 := fun m hm => hshort m (List.mem_append_left _ hm)
    obtain ⟨written, hpacks⟩ := ih hbefore
    rw [List.foldl_append]
    exact hpacks.add hbefore (hshort n (by simp))

/-- The entries unpack to the lengths they were made from. -/
theorem unpacks_pack (lengths : List Nat) (hshort : ∀ n ∈ lengths, n < 16) :
    Unpacks [] (pack lengths) lengths := by
  obtain ⟨written, hpacks⟩ := exists_packs lengths hshort
  have hlengths := hpacks.lengths_eq
  rw [pack]
  split
  · next hsome =>
    obtain ⟨packed, hflush, hunpacks⟩ := flushRepeats_eq hpacks.unpacks
      (Nat.le_of_lt hpacks.repeats_lt) (hpacks.last_lt hshort) hpacks.follows
    rw [pending, hpacks.one_kind.resolve_right hsome, List.replicate_zero, List.nil_append]
      at hlengths
    rw [hflush]
    rwa [← hlengths] at hunpacks
  · next hnone =>
    obtain ⟨packed, hflush, hunpacks⟩ := flushZeros_eq hpacks.unpacks
      (Nat.le_of_lt hpacks.zeros_lt)
    rw [pending, Decidable.not_not.mp hnone, List.replicate_zero, List.append_nil] at hlengths
    rw [hflush]
    rwa [← hlengths] at hunpacks

end Packing

end Retarget.Deflate

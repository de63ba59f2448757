import Mathlib.Algebra.GroupWithZero.Nat
import Retarget.Deflate.Compress
import Retarget.Deflate.Inflate

/-!
Streams as lists of bits. What is put into a sink stands at the end of its bits, whole bytes and
those of the byte begun, so nothing is said of how bits are gathered. What a source has before it is
a list of bits as well, and its length tells where the source is in a byte: so a source that is
aligned drops as many bits as are left over when the rest is counted in bytes.
-/
namespace Retarget.Deflate

def bitsOfNat : (width : Nat) → Nat → List Bool
  | 0, _ => []
  | width + 1, n => n.testBit 0 :: bitsOfNat width (n / 2)

section Numbers

theorem length_bitsOfNat (width n : Nat) : (bitsOfNat width n).length = width := by
  induction width generalizing n with
  | zero => rfl
  | succ width ih => rw [bitsOfNat, List.length_cons, ih]

/-- The bits of a number are those of its lower part and then those of its upper part. -/
theorem bitsOfNat_add {low n : Nat} (hn : n < 2 ^ low) (high m : Nat) :
    bitsOfNat (low + high) (n + m * 2 ^ low) = bitsOfNat low n ++ bitsOfNat high m := by
  induction low generalizing n with
  | zero =>
    have hzero : n = 0 := by omega
    simp [hzero, bitsOfNat]
  | succ low ih =>
    have hhalf : n / 2 < 2 ^ low := by
      rw [Nat.pow_succ] at hn
      omega
    have hdouble : m * 2 ^ (low + 1) = 2 * (m * 2 ^ low) := by
      rw [Nat.pow_succ, ← Nat.mul_assoc, Nat.mul_comm]
    have hbit : (n + m * 2 ^ (low + 1)).testBit 0 = n.testBit 0 := by
      rw [hdouble, Nat.testBit_zero, Nat.testBit_zero, Nat.add_mul_mod_self_left]
    have hrest : (n + m * 2 ^ (low + 1)) / 2 = n / 2 + m * 2 ^ low := by
      rw [hdouble]
      omega
    rw [Nat.succ_add, bitsOfNat, hbit, hrest, ih hhalf, bitsOfNat, List.cons_append]

theorem bitsOfNat_mod (width n : Nat) : bitsOfNat width (n % 2 ^ width) = bitsOfNat width n := by
  have hlow := bitsOfNat_add (Nat.mod_lt n (Nat.two_pow_pos width)) 0 (n / 2 ^ width)
  rw [Nat.mul_comm, Nat.mod_add_div, Nat.add_zero, bitsOfNat, List.append_nil] at hlow
  exact hlow.symm

theorem eq_of_bitsOfNat {width n m : Nat} (hn : n < 2 ^ width) (hm : m < 2 ^ width)
    (h : bitsOfNat width n = bitsOfNat width m) : n = m := by
  induction width generalizing n m with
  | zero => omega
  | succ width ih =>
    rw [Nat.pow_succ] at hn hm
    obtain ⟨hbit, hrest⟩ := List.cons.inj h
    have hhalf := ih (by omega) (by omega) hrest
    rw [Nat.testBit_zero, Nat.testBit_zero, decide_eq_decide] at hbit
    omega

theorem bitsOfNat_eq (width n : Nat) : bitsOfNat width n = (List.range width).map n.testBit := by
  induction width generalizing n with
  | zero => rfl
  | succ width ih =>
    rw [bitsOfNat, ih, List.range_succ_eq_map, List.map_cons, List.map_map]
    congr 1
    apply List.map_congr_left
    intro i _
    exact (Nat.testBit_succ n i).symm

theorem bitsOf_eq (b : UInt8) : BitSource.bitsOf b = bitsOfNat 8 b.toNat :=
  (bitsOfNat_eq 8 b.toNat).symm

theorem length_bitsOf (b : UInt8) : (BitSource.bitsOf b).length = 8 := by
  rw [bitsOf_eq, length_bitsOfNat]

theorem length_flatMap_bitsOf (bytes : Bytes) :
    (bytes.flatMap BitSource.bitsOf).length = 8 * bytes.length := by
  induction bytes with
  | nil => rfl
  | cons b bs ih =>
    rw [List.flatMap_cons, List.length_append, length_bitsOf, ih, List.length_cons]
    omega

end Numbers

namespace BitSink

def bits (sink : BitSink) : List Bool :=
  sink.bytes.toList.flatMap BitSource.bitsOf ++ bitsOfNat sink.count sink.buffer

/-- Less than a byte is held back, and nothing stands above it. -/
structure Tidy (sink : BitSink) : Prop where
  count_lt : sink.count < 8
  buffer_lt : sink.buffer < 2 ^ sink.count

variable {sink : BitSink}

theorem tidy_empty : empty.Tidy := ⟨by decide, by decide⟩

theorem bits_empty : empty.bits = [] := rfl

/-- A byte is filled without a change to the bits. -/
theorem bits_push {buffer count : Nat} (hcount : 8 ≤ count) (bytes : Array UInt8) :
    bits ⟨bytes.push (UInt8.ofNat (buffer % 256)), buffer / 256, count - 8⟩ =
      bits ⟨bytes, buffer, count⟩ := by
  have hlow : buffer % 256 < 2 ^ 8 := Nat.mod_lt _ (by decide)
  have hbits := bitsOfNat_add hlow (count - 8) (buffer / 256)
  have hnumber : buffer % 256 + buffer / 256 * 2 ^ 8 = buffer := by omega
  have hwidth : 8 + (count - 8) = count := by omega
  rw [hnumber, hwidth] at hbits
  simp only [bits, Array.toList_push, List.flatMap_append, List.flatMap_cons, List.flatMap_nil,
    List.append_nil, bitsOf_eq, hbits, List.append_assoc, UInt8.toNat_ofNat']
  rw [Nat.mod_eq_of_lt hlow]

theorem bits_flush {fuel : Nat} (hfuel : sink.count < 8 * (fuel + 1))
    (hbuffer : sink.buffer < 2 ^ sink.count) :
    (sink.flush fuel).bits = sink.bits ∧ (sink.flush fuel).Tidy := by
  induction fuel generalizing sink with
  | zero => exact ⟨rfl, hfuel, hbuffer⟩
  | succ fuel ih =>
    rw [flush]
    split
    · next hlittle => exact ⟨rfl, hlittle, hbuffer⟩
    · next hbyte =>
      have hcount : 8 ≤ sink.count := Nat.le_of_not_lt hbyte
      have hrest : sink.buffer / 256 < 2 ^ (sink.count - 8) := by
        rw [Nat.div_lt_iff_lt_mul (by decide), show 256 = 2 ^ 8 by rfl, ← Nat.pow_add]
        rwa [Nat.sub_add_cancel hcount]
      have hless : sink.count - 8 < 8 * (fuel + 1) := by omega
      obtain ⟨hbits, htidy⟩ := @ih ⟨sink.bytes.push (UInt8.ofNat (sink.buffer % 256)),
        sink.buffer / 256, sink.count - 8⟩ hless hrest
      exact ⟨hbits.trans (bits_push hcount sink.bytes), htidy⟩

/-- Bits that are put in stand at the end. -/
theorem bits_put (htidy : sink.Tidy) {width : Nat} (hwidth : width ≤ 32) (n : Nat) :
    (sink.put width n).bits = sink.bits ++ bitsOfNat width n ∧ (sink.put width n).Tidy := by
  obtain ⟨hcount, hbuffer⟩ := htidy
  have hnumber : n % (1 <<< width) = n % 2 ^ width := by rw [Nat.one_shiftLeft]
  have hlt : n % 2 ^ width < 2 ^ width := Nat.mod_lt _ (Nat.two_pow_pos width)
  have hroom : sink.buffer + n % 2 ^ width * 2 ^ sink.count < 2 ^ (sink.count + width) := by
    rw [Nat.pow_add]
    have hstep : (n % 2 ^ width + 1) * 2 ^ sink.count ≤ 2 ^ width * 2 ^ sink.count :=
      Nat.mul_le_mul_right _ hlt
    rw [Nat.add_mul, Nat.one_mul, Nat.mul_comm (2 ^ width)] at hstep
    omega
  have hfuel : sink.count + width < 8 * (4 + 1) := by omega
  have hflush := @bits_flush ⟨sink.bytes, sink.buffer + n % 2 ^ width * 2 ^ sink.count,
    sink.count + width⟩ 4 hfuel hroom
  rw [put, hnumber, Nat.shiftLeft_eq]
  refine ⟨hflush.1.trans ?_, hflush.2⟩
  rw [bits, bits, bitsOfNat_add hbuffer, bitsOfNat_mod, List.append_assoc]

/-- The bits tell how many of them are in the byte begun. -/
theorem Tidy.length_mod (htidy : sink.Tidy) : sink.bits.length % 8 = sink.count := by
  rw [bits, List.length_append, length_flatMap_bitsOf, length_bitsOfNat, Nat.mul_add_mod,
    Nat.mod_eq_of_lt htidy.count_lt]

/-- A sink is aligned by fewer than eight bits. -/
theorem bits_align (htidy : sink.Tidy) :
    sink.align.Tidy ∧ sink.align.count = 0 ∧
      ∃ pad < 8, sink.align.bits = sink.bits ++ bitsOfNat pad 0 := by
  rw [align]
  split
  · next hnone => exact ⟨htidy, hnone, 0, by decide, by rw [bitsOfNat, List.append_nil]⟩
  · next hsome =>
    have hcount := htidy.count_lt
    obtain ⟨hbits, haligned⟩ := bits_put htidy (show 8 - sink.count ≤ 32 by omega) 0
    refine ⟨haligned, ?_, 8 - sink.count, by omega, hbits⟩
    have hlength := haligned.length_mod
    rw [hbits, List.length_append, length_bitsOfNat, Nat.add_mod, htidy.length_mod] at hlength
    omega

/-- The whole bytes of a sink that is aligned. -/
theorem bits_of_aligned (h : sink.count = 0) :
    sink.bits = sink.bytes.toList.flatMap BitSource.bitsOf := by
  rw [bits, h, bitsOfNat, List.append_nil]

theorem bits_append (h : sink.count = 0) (bytes : Bytes) :
    bits { sink with bytes := sink.bytes ++ bytes.toArray } =
      sink.bits ++ bytes.flatMap BitSource.bitsOf := by
  simp [bits, h, bitsOfNat]

end BitSink

namespace BitSource

/-- A source has these bits before it, fewer than eight of them in the byte begun. -/
structure StandsAt (source : BitSource) (bits : List Bool) : Prop where
  bits_eq : source.pending ++ source.rest.flatMap bitsOf = bits
  pending_lt : source.pending.length < 8

variable {source : BitSource} {bits : List Bool}

theorem standsAt_ofBytes (bytes : Bytes) :
    (BitSource.ofBytes bytes).StandsAt (bytes.flatMap bitsOf) :=
  ⟨rfl, by simp [BitSource.ofBytes]⟩

theorem next?_cons {bit : Bool} (h : source.StandsAt (bit :: bits)) :
    ∃ source', source.next? = some (bit, source') ∧ source'.StandsAt bits := by
  obtain ⟨pending, rest⟩ := source
  obtain ⟨hbits, hpending⟩ := h
  cases pending with
  | cons first pending =>
    obtain ⟨rfl, hrest⟩ := List.cons.inj hbits
    rw [List.length_cons] at hpending
    exact ⟨⟨pending, rest⟩, rfl, hrest, Nat.lt_of_succ_lt hpending⟩
  | nil =>
    cases rest with
    | nil => cases hbits
    | cons b rest =>
      have hbyte := bitsOf_eq b
      rw [bitsOfNat] at hbyte
      simp only [List.nil_append, List.flatMap_cons, hbyte, List.cons_append] at hbits
      obtain ⟨hbit, hbits⟩ := List.cons.inj hbits
      refine ⟨⟨bitsOfNat 7 (b.toNat / 2), rest⟩, ?_, hbits, by simp [length_bitsOfNat]⟩
      simp only [next?, hbyte, hbit]

/-- A number is read as it was put. -/
theorem number?_append {width n : Nat} (h : source.StandsAt (bitsOfNat width n ++ bits)) :
    ∃ source', source.number? width = some (n % 2 ^ width, source') ∧ source'.StandsAt bits := by
  induction width generalizing n source with
  | zero =>
    refine ⟨source, ?_, h⟩
    rw [number?, Nat.pow_zero, Nat.mod_one]
  | succ width ih =>
    rw [bitsOfNat, List.cons_append] at h
    obtain ⟨middle, hnext, hmiddle⟩ := next?_cons h
    obtain ⟨source', hnumber, hsource'⟩ := ih hmiddle
    refine ⟨source', ?_, hsource'⟩
    have hvalue : (n.testBit 0).toNat + 2 * (n / 2 % 2 ^ width) = n % 2 ^ (width + 1) := by
      rw [Nat.testBit_zero, Nat.pow_succ, Nat.mul_comm (2 ^ width) 2, Nat.mod_mul]
      congr 1
      cases Nat.mod_two_eq_zero_or_one n with
      | inl hzero => rw [hzero]; rfl
      | inr hone => rw [hone]; rfl
    simp only [number?, hnext, hnumber, Option.bind_eq_bind, Option.bind_some, hvalue]
    rfl

theorem number?_of_lt {width n : Nat} (hn : n < 2 ^ width)
    (h : source.StandsAt (bitsOfNat width n ++ bits)) :
    ∃ source', source.number? width = some (n, source') ∧ source'.StandsAt bits := by
  have hread := number?_append h
  rwa [Nat.mod_eq_of_lt hn] at hread

/-- A source that is aligned has whole bytes before it. -/
theorem align_standsAt (h : source.StandsAt bits) :
    source.align.rest.flatMap bitsOf = bits.drop (bits.length % 8) := by
  have hlength : bits.length % 8 = source.pending.length := by
    rw [← h.bits_eq, List.length_append, length_flatMap_bitsOf, Nat.add_mul_mod_self_left,
      Nat.mod_eq_of_lt h.pending_lt]
  rw [hlength, ← h.bits_eq, List.drop_left]
  rfl

/-- The same bits are of the same bytes. -/
theorem bytes_of_flatMap_bitsOf {bytes rest : Bytes} {tail : List Bool}
    (h : rest.flatMap bitsOf = bytes.flatMap bitsOf ++ tail) :
    ∃ after, rest = bytes ++ after ∧ after.flatMap bitsOf = tail := by
  induction bytes generalizing rest with
  | nil => exact ⟨rest, rfl, h⟩
  | cons b bytes ih =>
    cases rest with
    | nil =>
      have hlength := congrArg List.length h
      simp only [List.length_append, length_flatMap_bitsOf, List.length_nil,
        List.length_cons] at hlength
      omega
    | cons b' rest =>
      rw [List.flatMap_cons, List.flatMap_cons, List.append_assoc] at h
      obtain ⟨hbyte, hrest⟩ := List.append_inj h (by rw [length_bitsOf, length_bitsOf])
      obtain ⟨after, rfl, htail⟩ := ih hrest
      refine ⟨after, ?_, htail⟩
      rw [bitsOf_eq, bitsOf_eq] at hbyte
      have hsame := eq_of_bitsOfNat b'.toNat_lt b.toNat_lt hbyte
      rw [UInt8.toNat_inj.mp hsame, List.cons_append]

end BitSource

end Retarget.Deflate

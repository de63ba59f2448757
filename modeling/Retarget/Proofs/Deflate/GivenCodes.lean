import Mathlib.Data.List.TakeWhile
import Retarget.Proofs.Deflate.Lengths
import Retarget.Proofs.Deflate.Packing
import Retarget.Proofs.Deflate.Symbols

/-!
The codes that a block is given are those it was written with. Their lengths are packed into symbols
of the code-length code, which must fill the space of words, so at least two different symbols have
to occur: if one would do, all lengths were the same, and no number of literals that a block may
have is a power of two.
-/
namespace Retarget.Deflate

section IdleLengths

/-- Only zeros are left out. -/
theorem exists_append_dropIdleLengths (least : Nat) (lengths : List Nat) :
    ∃ m, lengths = dropIdleLengths least lengths ++ List.replicate m 0 := by
  have hsplit : lengths = (lengths.reverse.dropWhile (· = 0)).reverse ++
      (lengths.reverse.takeWhile (· = 0)).reverse := by
    rw [← List.reverse_append, List.takeWhile_append_dropWhile, List.reverse_reverse]
  refine ⟨(lengths.drop (max least (lengths.reverse.dropWhile (· = 0)).length)).length, ?_⟩
  have hzeros : ∀ n ∈ lengths.drop (max least (lengths.reverse.dropWhile (· = 0)).length),
      n = 0 := by
    intro n hn
    rw [hsplit, List.drop_append, List.drop_eq_nil_of_le (by simp), List.nil_append] at hn
    have hidle := List.mem_reverse.mp (List.mem_of_mem_drop hn)
    simpa using List.mem_takeWhile_imp hidle
  rw [dropIdleLengths, ← List.eq_replicate_of_mem hzeros, List.take_append_drop]

theorem le_length_dropIdleLengths {least : Nat} {lengths : List Nat}
    (h : least ≤ lengths.length) : least ≤ (dropIdleLengths least lengths).length := by
  rw [dropIdleLengths, List.length_take]
  omega

theorem length_dropIdleLengths_le (least : Nat) (lengths : List Nat) :
    (dropIdleLengths least lengths).length ≤ lengths.length :=
  List.length_take_le' _ _

end IdleLengths

section ShortCode

theorem lookup_zip_append_zeros {keys given : List Nat} {m : Nat} {f : Nat → Nat}
    (h : given ++ List.replicate m 0 = keys.map f) {symbol : Nat} (hmem : symbol ∈ keys) :
    ((keys.zip given).lookup symbol).getD 0 = f symbol := by
  induction keys generalizing given with
  | nil => cases hmem
  | cons key keys ih =>
    cases given with
    | nil =>
      rw [List.nil_append] at h
      exact (List.eq_of_mem_replicate (h ▸ List.mem_map_of_mem hmem)).symm
    | cons n given =>
      obtain ⟨rfl, hrest⟩ := List.cons.inj h
      rw [List.zip_cons_cons]
      by_cases hkey : symbol = key
      · rw [hkey, List.lookup_cons_self, Option.getD_some]
      · rw [List.lookup_cons, beq_false_of_ne hkey]
        exact ih hrest (List.mem_of_ne_of_mem hkey hmem)

/-- The lengths of the code-length code are read as they were put in order. -/
theorem shortCode_dropIdleLengths {short : List Nat} (hlength : short.length = 19) :
    shortCode (dropIdleLengths 4 (lengthOrder.map fun symbol => short.getD symbol 0)) = short := by
  obtain ⟨m, hzeros⟩ :=
    exists_append_dropIdleLengths 4 (lengthOrder.map fun symbol => short.getD symbol 0)
  have hall : ∀ symbol ∈ List.range 19, symbol ∈ lengthOrder := by decide
  rw [shortCode, List.map_congr_left fun symbol hmem =>
    lookup_zip_append_zeros hzeros.symm (hall symbol hmem), ← hlength]
  apply List.ext_getElem (by simp)
  intro i hi hi'
  simp [hi']

variable {source : BitSource} {tail : List Bool}

theorem shortLengths?_append {given : List Nat} (hsmall : ∀ n ∈ given, n < 2 ^ 3)
    (h : source.StandsAt (given.flatMap (bitsOfNat 3) ++ tail)) :
    ∃ source', shortLengths? given.length source = some (given, source') ∧
      source'.StandsAt tail := by
  induction given generalizing source with
  | nil => exact ⟨source, rfl, h⟩
  | cons n rest ih =>
    rw [List.flatMap_cons, List.append_assoc] at h
    obtain ⟨hfirst, hrest⟩ := List.forall_mem_cons.mp hsmall
    obtain ⟨source₁, hnumber, hsource₁⟩ := BitSource.number?_of_lt hfirst h
    obtain ⟨source', hread, hsource'⟩ := ih hrest hsource₁
    refine ⟨source', ?_, hsource'⟩
    simp only [List.length_cons, shortLengths?, hnumber, hread, Option.bind_eq_bind,
      Option.bind_some]
    rfl

theorem bits_putShort {sink : BitSink} (htidy : sink.Tidy) (given : List Nat) :
    (given.foldl (fun sink n => sink.put 3 n) sink).bits =
        sink.bits ++ given.flatMap (bitsOfNat 3) ∧
      (given.foldl (fun sink n => sink.put 3 n) sink).Tidy := by
  induction given generalizing sink with
  | nil => exact ⟨by simp, htidy⟩
  | cons n rest ih =>
    obtain ⟨hbits, htidy⟩ := BitSink.bits_put htidy (show 3 ≤ 32 by decide) n
    obtain ⟨hrest, hlast⟩ := ih htidy
    exact ⟨by rw [List.foldl_cons, hrest, hbits, List.flatMap_cons, List.append_assoc], hlast⟩

end ShortCode

section CodeLengths

def entryBits (short : Encoder) (entry : Nat × Nat × Nat) : List Bool :=
  short.wordOf entry.1 ++ bitsOfNat entry.2.1 entry.2.2

theorem bits_putPacked {sink : BitSink} {short : List Nat} (hshort : ∀ n ∈ short, n ≤ 15)
    {before after : List Nat} {packed : List (Nat × Nat × Nat)} (h : Unpacks before packed after)
    (htidy : sink.Tidy) :
    (putPacked (.ofLengths short) packed sink).bits =
        sink.bits ++ packed.flatMap (entryBits (.ofLengths short)) ∧
      (putPacked (.ofLengths short) packed sink).Tidy := by
  induction h generalizing sink with
  | nil => exact ⟨by simp [putPacked], htidy⟩
  | @cons before middle after entry rest hentry _ ih =>
    obtain ⟨symbol, extra, more⟩ := entry
    have hextra : extra ≤ 32 := by cases hentry <;> decide
    obtain ⟨hword, htidy₁⟩ := bits_putSymbol htidy hshort symbol
    obtain ⟨hmore, htidy₂⟩ := BitSink.bits_put htidy₁ hextra more
    obtain ⟨hrest, hlast⟩ := ih htidy₂
    refine ⟨hrest.trans ?_, hlast⟩
    rw [hmore, hword, List.flatMap_cons, entryBits]
    simp only [List.append_assoc]

variable {decoder : Decoder} {short : Encoder} {source : BitSource} {tail : List Bool}

theorem toArray_append_replicate (lengths : List Nat) (m n : Nat) :
    lengths.toArray ++ Array.replicate m n = (lengths ++ List.replicate m n).toArray := by
  rw [← List.toArray_replicate, List.append_toArray]

theorem codeLengths?_entry {before after : List Nat} {entry : Nat × Nat × Nat}
    (h : Adds before entry after) (hinverts : Inverts decoder short entry.1) {count : Nat}
    (hcount : after.length ≤ count)
    (hsource : source.StandsAt (entryBits short entry ++ tail)) (fuel : Nat) :
    ∃ source', codeLengths? decoder (fuel + 1) count source before.toArray =
        codeLengths? decoder fuel count source' after.toArray ∧ source'.StandsAt tail := by
  rw [entryBits, List.append_assoc] at hsource
  obtain ⟨source₁, hread, hsource₁⟩ := hinverts.symbol?_eq hsource
  have hless : before.length ≠ count := by
    have hlonger := h.length_lt
    omega
  cases h with
  | @plain n hn =>
    refine ⟨source₁, ?_, hsource₁⟩
    simp [codeLengths?, hless, hread, hn]
  | @repeats n more hlast hmore =>
    obtain ⟨source', hnumber, hsource'⟩ := BitSource.number?_of_lt hmore hsource₁
    have hroom : ¬count < before.length + 3 + more := by
      simp at hcount
      omega
    refine ⟨source', ?_, hsource'⟩
    simp [codeLengths?, hless, hread, hlast, hnumber, hroom, toArray_append_replicate]
  | @zeros more hmore =>
    obtain ⟨source', hnumber, hsource'⟩ := BitSource.number?_of_lt hmore hsource₁
    have hroom : ¬count < before.length + 3 + more := by
      simp at hcount
      omega
    refine ⟨source', ?_, hsource'⟩
    simp [codeLengths?, hless, hread, hnumber, hroom, toArray_append_replicate]
  | @manyZeros more hmore =>
    obtain ⟨source', hnumber, hsource'⟩ := BitSource.number?_of_lt hmore hsource₁
    have hroom : ¬count < before.length + 11 + more := by
      simp at hcount
      omega
    refine ⟨source', ?_, hsource'⟩
    simp [codeLengths?, hless, hread, hnumber, hroom, toArray_append_replicate]

/-- Packed entries are read as the lengths they unpack to. -/
theorem codeLengths?_unpacks {before after : List Nat} {packed : List (Nat × Nat × Nat)}
    (h : Unpacks before packed after)
    (hinverts : ∀ entry ∈ packed, Inverts decoder short entry.1)
    (hsource : source.StandsAt (packed.flatMap (entryBits short) ++ tail)) {fuel : Nat}
    (hfuel : packed.length < fuel) :
    ∃ source', codeLengths? decoder fuel after.length source before.toArray =
        some (after, source') ∧ source'.StandsAt tail := by
  induction h generalizing source fuel with
  | nil =>
    obtain ⟨fuel, rfl⟩ := Nat.exists_eq_succ_of_ne_zero (Nat.ne_zero_of_lt hfuel)
    exact ⟨source, by simp [codeLengths?], hsource⟩
  | @cons before middle after entry rest hentry hrest ih =>
    obtain ⟨fuel, rfl⟩ := Nat.exists_eq_succ_of_ne_zero (Nat.ne_zero_of_lt hfuel)
    rw [List.flatMap_cons, List.append_assoc] at hsource
    obtain ⟨hfirst, hlater⟩ := List.forall_mem_cons.mp hinverts
    have hlength := hrest.length_le
    obtain ⟨source₁, hstep, hsource₁⟩ :=
      codeLengths?_entry hentry hfirst (show middle.length ≤ after.length by omega) hsource fuel
    obtain ⟨source', hread, hsource'⟩ := ih hlater hsource₁ (Nat.lt_of_succ_lt_succ hfuel)
    exact ⟨source', hstep.trans hread, hsource'⟩

end CodeLengths

section GivenCodes

/-- The lengths of two codes that a block can be given. -/
structure AreGiven (literals distances : List Nat) : Prop where
  literals_ge : 257 ≤ literals.length
  literals_le : literals.length ≤ 286
  distances_ge : 1 ≤ distances.length
  distances_le : distances.length ≤ 30
  literals_short : ∀ n ∈ literals, n ≤ 15
  distances_short : ∀ n ∈ distances, n ≤ 15
  literals_usable : IsComplete literals ∨ IsSmall literals
  distances_usable : IsComplete distances ∨ IsSmall distances
  hasEnd : HasWord literals 256

variable {literals distances : List Nat}

/-- The lengths of the literals are not all the same. -/
theorem AreGiven.not_all_eq (h : AreGiven literals distances) (n : Nat) :
    ¬∀ m ∈ literals, m = n := by
  intro hall
  have hsame := List.eq_replicate_of_mem hall
  have hmany := h.literals_ge
  have hfew := h.literals_le
  obtain ⟨m, hget, hne⟩ := h.hasEnd
  obtain rfl := hall m (List.mem_of_getElem? hget)
  have hshort := h.literals_short m (List.mem_of_getElem? hget)
  have hspace : takenSpace literals = literals.length * 2 ^ (15 - m) := by
    rw [hsame, takenSpace_replicate, List.length_replicate, spaceOf, if_neg hne]
  rcases h.literals_usable with hcomplete | hsmall
  · have hpower : literals.length = 2 ^ m := by
      apply Nat.eq_of_mul_eq_mul_right (Nat.two_pow_pos (15 - m))
      rw [← hspace, ← Nat.pow_add, Nat.add_sub_cancel' hshort]
      exact hcomplete
    rcases Nat.lt_or_ge m 9 with hless | hmore
    · have := Nat.pow_le_pow_right (show 0 < 2 by decide) (Nat.le_of_lt_succ hless)
      omega
    · have := Nat.pow_le_pow_right (show 0 < 2 by decide) hmore
      omega
  · have hone := (isSmall_iff.mp hsmall).1 m (List.mem_of_getElem? hget)
    obtain rfl : m = 1 := by omega
    have := hsmall.takenSpace_le
    omega

theorem AreGiven.lengths_lt (h : AreGiven literals distances) :
    ∀ n ∈ literals ++ distances, n < 16 := by
  intro n hn
  rcases List.mem_append.mp hn with hn | hn
  · exact Nat.lt_succ_of_le (h.literals_short n hn)
  · exact Nat.lt_succ_of_le (h.distances_short n hn)

/-- At least two symbols of the code-length code are used. -/
theorem AreGiven.exists_ne (h : AreGiven literals distances) :
    ∃ a ∈ Packing.pack (literals ++ distances), ∃ b ∈ Packing.pack (literals ++ distances),
      a.1 ≠ b.1 := by
  have hunpacks := Packing.unpacks_pack _ h.lengths_lt
  by_contra hnone
  match hpacked : Packing.pack (literals ++ distances) with
  | [] =>
    rw [hpacked] at hunpacks
    have hall := hunpacks.all_eq (show 0 = if 0 < 16 then 0 else 0 by rfl) (by simp) (by simp)
    exact h.not_all_eq 0 fun m hm => hall m (List.mem_append_left _ hm)
  | first :: rest =>
    have hfirst : first ∈ Packing.pack (literals ++ distances) := by simp [hpacked]
    have hall := hunpacks.all_eq rfl (fun entry hmem => by
      by_contra hne
      exact hnone ⟨entry, hmem, first, hfirst, hne⟩) (by simp)
    exact h.not_all_eq _ fun m hm => hall m (List.mem_append_left _ hm)

theorem isCodeFor_shortFor (packed : List (Nat × Nat × Nat)) :
    IsCodeFor 7 (occurrences 19 (packed.map Prod.fst)) (shortFor packed) :=
  isCodeFor_wordLengths (by decide) (by decide) (by rw [size_occurrences]; decide)

theorem AreGiven.isComplete_shortFor (h : AreGiven literals distances) :
    IsComplete (shortFor (Packing.pack (literals ++ distances))) := by
  obtain ⟨a, ha, b, hb, hne⟩ := h.exists_ne
  have hsymbol := (Packing.unpacks_pack _ h.lengths_lt).symbol_lt
  refine (isCodeFor_shortFor _).complete a.1 b.1 hne ?_ ?_
  · exact occurrences_ne_zero_iff.mpr ⟨hsymbol a ha, List.mem_map_of_mem ha⟩
  · exact occurrences_ne_zero_iff.mpr ⟨hsymbol b hb, List.mem_map_of_mem hb⟩

theorem inverts_shortFor {lengths : List Nat} (hlengths : ∀ n ∈ lengths, n < 16)
    {entry : Nat × Nat × Nat} (hentry : entry ∈ Packing.pack lengths) :
    Inverts (.ofLengths (shortFor (Packing.pack lengths)))
      (.ofLengths (shortFor (Packing.pack lengths))) entry.1 := by
  have hsymbol := (Packing.unpacks_pack _ hlengths).symbol_lt entry hentry
  have hused := occurrences_ne_zero_iff.mpr ⟨hsymbol, List.mem_map_of_mem hentry⟩
  have hcode := isCodeFor_shortFor (Packing.pack lengths)
  exact (hcode.isCode (by decide)).inverts ((hcode.hasWord_iff entry.1).mpr hused)

/-- The lengths of the code-length code in the order they are put. -/
def orderedShort (literals distances : List Nat) : List Nat :=
  dropIdleLengths 4 (lengthOrder.map fun symbol =>
    (shortFor (Packing.pack (literals ++ distances))).getD symbol 0)

theorem length_orderedShort (literals distances : List Nat) :
    4 ≤ (orderedShort literals distances).length ∧
      (orderedShort literals distances).length ≤ 19 := by
  constructor
  · exact le_length_dropIdleLengths (by simp [lengthOrder])
  · refine Nat.le_trans (length_dropIdleLengths_le 4 _) ?_
    rw [List.length_map, show lengthOrder.length = 19 from rfl]

theorem lt_of_mem_orderedShort {n : Nat} (hn : n ∈ orderedShort literals distances) :
    n < 2 ^ 3 := by
  obtain ⟨symbol, -, rfl⟩ := List.mem_map.mp (List.mem_of_mem_take hn)
  rw [List.getD_eq_getElem?_getD]
  cases hget : (shortFor (Packing.pack (literals ++ distances)))[symbol]? with
  | none => decide
  | some n => exact Nat.lt_succ_of_le ((isCodeFor_shortFor _).short n (List.mem_of_getElem? hget))

def codesBits (literals distances : List Nat) : List Bool :=
  bitsOfNat 5 (literals.length - 257) ++ (bitsOfNat 5 (distances.length - 1) ++
    (bitsOfNat 4 ((orderedShort literals distances).length - 4) ++
      ((orderedShort literals distances).flatMap (bitsOfNat 3) ++
        (Packing.pack (literals ++ distances)).flatMap
          (entryBits (.ofLengths (shortFor (Packing.pack (literals ++ distances))))))))

theorem AreGiven.bits_putCodes (h : AreGiven literals distances) {sink : BitSink}
    (htidy : sink.Tidy) :
    (putCodes literals distances sink).bits = sink.bits ++ codesBits literals distances ∧
      (putCodes literals distances sink).Tidy := by
  have hcode := isCodeFor_shortFor (Packing.pack (literals ++ distances))
  have hunpacks := Packing.unpacks_pack _ h.lengths_lt
  obtain ⟨hbits₁, htidy₁⟩ := BitSink.bits_put htidy (show 5 ≤ 32 by decide) (literals.length - 257)
  obtain ⟨hbits₂, htidy₂⟩ := BitSink.bits_put htidy₁ (show 5 ≤ 32 by decide) (distances.length - 1)
  obtain ⟨hbits₃, htidy₃⟩ := BitSink.bits_put htidy₂ (show 4 ≤ 32 by decide)
    ((orderedShort literals distances).length - 4)
  obtain ⟨hbits₄, htidy₄⟩ := bits_putShort htidy₃ (orderedShort literals distances)
  obtain ⟨hbits₅, htidy₅⟩ := bits_putPacked
    (fun n hn => Nat.le_trans (hcode.short n hn) (by decide)) hunpacks htidy₄
  refine ⟨hbits₅.trans ?_, htidy₅⟩
  rw [hbits₄, hbits₃, hbits₂, hbits₁, codesBits]
  simp only [List.append_assoc]

variable {source : BitSource} {tail : List Bool}

/-- What is put for two codes is read as their lengths. -/
theorem AreGiven.givenCodes?_codesBits (h : AreGiven literals distances)
    (hsource : source.StandsAt (codesBits literals distances ++ tail)) :
    ∃ source', givenCodes? source =
      some (.ofLengths literals, .ofLengths distances, source') ∧ source'.StandsAt tail := by
  have hcomplete := h.isComplete_shortFor
  have hinverts := fun entry hentry => @inverts_shortFor _ h.lengths_lt entry hentry
  have hunpacks := Packing.unpacks_pack _ h.lengths_lt
  have hpacked := hunpacks.length_le
  have hshort : shortCode (orderedShort literals distances) =
      shortFor (Packing.pack (literals ++ distances)) :=
    shortCode_dropIdleLengths ((isCodeFor_shortFor _).length_eq.trans (size_occurrences 19 _))
  obtain ⟨hleast, hmost⟩ := length_orderedShort literals distances
  have hliterals := h.literals_ge
  have hliterals' := h.literals_le
  have hdistances := h.distances_ge
  have hdistances' := h.distances_le
  simp only [codesBits, List.append_assoc] at hsource
  obtain ⟨source₁, hread₁, hsource₁⟩ :=
    BitSource.number?_of_lt (show literals.length - 257 < 2 ^ 5 by omega) hsource
  obtain ⟨source₂, hread₂, hsource₂⟩ :=
    BitSource.number?_of_lt (show distances.length - 1 < 2 ^ 5 by omega) hsource₁
  obtain ⟨source₃, hread₃, hsource₃⟩ := BitSource.number?_of_lt
    (show (orderedShort literals distances).length - 4 < 2 ^ 4 by omega) hsource₂
  obtain ⟨source₄, hread₄, hsource₄⟩ := shortLengths?_append
    (fun n hn => lt_of_mem_orderedShort hn) hsource₃
  rw [List.length_nil, Nat.zero_add] at hpacked
  obtain ⟨source₅, hread₅, hsource₅⟩ := codeLengths?_unpacks hunpacks hinverts hsource₄
    (Nat.lt_succ_of_le hpacked)
  refine ⟨source₅, ?_, hsource₅⟩
  rw [List.length_append] at hread₅
  have hlarge : ¬(literals.length > 286 ∨ distances.length > 30) := by omega
  simp only [givenCodes?, hread₁, hread₂, hread₃, Option.bind_eq_bind, Option.bind_some,
    Nat.sub_add_cancel hliterals, Nat.sub_add_cancel hdistances, Nat.sub_add_cancel hleast,
    hlarge, if_false, hread₄, hshort, Decoder.complete?, hcomplete, if_true, hread₅,
    List.take_left, List.drop_left, Decoder.usable?, h.literals_usable, h.distances_usable]
  rfl

end GivenCodes

end Retarget.Deflate

import Retarget.Proofs.Deflate.BlockCodes
import Retarget.Proofs.Deflate.Tokens

/-!
What is compressed inflates to itself. Each block is read as the bytes it stands for, in all of its
three forms. The bits of a stored block depend on where in a byte it starts, so the source must
stand where the sink did: that is so when what was put before the block and all that is left make
whole bytes together.
-/
namespace Retarget.Deflate

variable {data : Array UInt8} {sink : BitSink}

/-- Bits that are read as the bytes of a block, by a source that stands where the sink did after
`before` bits. -/
def ReadsBlock (data : Array UInt8) (start stop before : Nat) (bits : List Bool) : Prop :=
  ∀ {source : BitSource} {tail : List Bool} {fuel : Nat},
    (before + (bits ++ tail).length) % 8 = 0 → source.StandsAt (bits ++ tail) →
    bits.length ≤ fuel →
      ∃ source', inflateBlock fuel source (data.extract 0 start) =
        some (source', data.extract 0 stop) ∧ source'.StandsAt tail

section Coded

variable {start stop : Nat} {tokens : List Token} {literalDecoder distanceDecoder : Decoder}
  {literalEncoder distanceEncoder : Encoder}

/-- There is fuel for the tokens, since each has a bit at least. -/
theorem length_lt_bits
    (htokens : ∀ token ∈ tokens,
      ReadsToken literalDecoder distanceDecoder literalEncoder distanceEncoder token)
    (hlast : Inverts literalDecoder literalEncoder 256) :
    tokens.length < (tokens.flatMap (Token.bits literalEncoder distanceEncoder) ++
      literalEncoder.wordOf 256).length := by
  induction tokens with
  | nil => exact List.length_pos_iff.mpr hlast.word_ne_nil
  | cons token rest ih =>
    obtain ⟨hfirst, hrest⟩ := List.forall_mem_cons.mp htokens
    have hword := List.length_pos_iff.mpr hfirst.literal.word_ne_nil
    have hless := ih hrest
    rw [List.flatMap_cons, List.append_assoc, List.length_append, Token.bits, List.length_append,
      List.length_cons]
    omega

theorem readsBlock_fixedCodes (h : Spells data start tokens stop) (htidy : sink.Tidy) :
    ∃ bits, (putFixedCodes tokens sink).bits = sink.bits ++ bits ∧
      (putFixedCodes tokens sink).Tidy ∧ ReadsBlock data start stop sink.bits.length bits := by
  have htokens := fun token htoken => readsToken_fixedCodes (h.isPlain token htoken)
  obtain ⟨hkind, htidy₁⟩ := BitSink.bits_put htidy (show 2 ≤ 32 by decide) 1
  obtain ⟨hbits, htidy₂⟩ := bits_putTokens htidy₁ isCode_fixedLiteralLengths.short
    isCode_fixedDistanceLengths.short h.isPlain
  refine ⟨_, hbits.trans (by rw [hkind, List.append_assoc]), htidy₂, ?_⟩
  intro source tail fuel _ hsource hfuel
  simp only [List.append_assoc] at hsource
  obtain ⟨source₁, hread, hsource₁⟩ := BitSource.number?_of_lt (show 1 < 2 ^ 2 by decide) hsource
  have hless := length_lt_bits htokens inverts_end_fixedCodes
  rw [List.length_append] at hfuel
  obtain ⟨source', hsymbols, hsource'⟩ := inflateSymbols_tokens htokens inverts_end_fixedCodes
    hsource₁ (Nat.lt_of_lt_of_le hless (Nat.le_trans (Nat.le_add_left _ _) hfuel))
    (data.extract 0 start)
  refine ⟨source', ?_, hsource'⟩
  rw [h.expand] at hsymbols
  simp only [inflateBlock, hread, Option.bind_eq_bind, Option.bind_some]
  exact hsymbols

theorem readsBlock_ownCodes (h : Spells data start tokens stop) (htidy : sink.Tidy) :
    ∃ bits, (putOwnCodes tokens sink).bits = sink.bits ++ bits ∧
      (putOwnCodes tokens sink).Tidy ∧ ReadsBlock data start stop sink.bits.length bits := by
  have htokens := fun token (htoken : token ∈ tokens) => readsToken_ownCodes h.isPlain htoken
  have hlast := inverts_end_ownCodes h.isPlain
  obtain ⟨hkind, htidy₁⟩ := BitSink.bits_put htidy (show 2 ≤ 32 by decide) 2
  have hgiven := areGiven_ownCodes h.isPlain
  obtain ⟨hcodes, htidy₂⟩ := hgiven.bits_putCodes htidy₁
  obtain ⟨hbits, htidy₃⟩ := bits_putTokens htidy₂ (isCodeFor_literalLengths tokens).short
    (isCodeFor_distanceLengths tokens).short h.isPlain
  refine ⟨_, hbits.trans (by rw [hcodes, hkind, List.append_assoc, List.append_assoc]), htidy₃, ?_⟩
  intro source tail fuel _ hsource hfuel
  simp only [List.append_assoc] at hsource
  obtain ⟨source₁, hread, hsource₁⟩ := BitSource.number?_of_lt (show 2 < 2 ^ 2 by decide) hsource
  obtain ⟨source₂, hread₂, hsource₂⟩ := hgiven.givenCodes?_codesBits hsource₁
  have hless := length_lt_bits htokens hlast
  rw [List.length_append, List.length_append] at hfuel
  obtain ⟨source', hsymbols, hsource'⟩ := inflateSymbols_tokens htokens hlast hsource₂
    (show tokens.length < fuel by omega) (data.extract 0 start)
  refine ⟨source', ?_, hsource'⟩
  rw [h.expand] at hsymbols
  simp only [inflateBlock, hread, Option.bind_eq_bind, Option.bind_some, hread₂]
  exact hsymbols

end Coded

section Stored

/-- The bytes of a number below 65536, the lower first. -/
theorem bitsOfNat_sixteen {n : Nat} (hn : n < 65536) :
    bitsOfNat 16 n = [UInt8.ofNat n, UInt8.ofNat (n / 256)].flatMap BitSource.bitsOf := by
  have hlow : n % 256 < 2 ^ 8 := Nat.mod_lt _ (by decide)
  have hbits := bitsOfNat_add hlow 8 (n / 256)
  rw [show n % 256 + n / 256 * 2 ^ 8 = n by omega] at hbits
  rw [hbits]
  simp only [List.flatMap_cons, List.flatMap_nil, List.append_nil, bitsOf_eq, UInt8.toNat_ofNat']
  rw [Nat.mod_eq_of_lt (show n / 256 < 2 ^ 8 by omega)]

def storedBytes (bytes : Bytes) : Bytes :=
  UInt8.ofNat bytes.length :: UInt8.ofNat (bytes.length / 256) ::
    UInt8.ofNat (65535 - bytes.length) :: UInt8.ofNat ((65535 - bytes.length) / 256) :: bytes

theorem flatMap_storedBytes {bytes : Bytes} (hshort : bytes.length < 65536) :
    (storedBytes bytes).flatMap BitSource.bitsOf =
      bitsOfNat 16 bytes.length ++ (bitsOfNat 16 (65535 - bytes.length) ++
        bytes.flatMap BitSource.bitsOf) := by
  rw [bitsOfNat_sixteen hshort, bitsOfNat_sixteen (show 65535 - bytes.length < 65536 by omega),
    ← List.flatMap_append, ← List.flatMap_append]
  rfl

/-- A stored block goes on at a whole byte, and leaves the sink at one. -/
theorem bits_putStored {bytes : Bytes} (hshort : bytes.length < 65536) (htidy : sink.Tidy) :
    (putStored bytes sink).Tidy ∧ ∃ pad < 8, (sink.bits.length + (2 + pad)) % 8 = 0 ∧
      (putStored bytes sink).bits = sink.bits ++ (bitsOfNat 2 0 ++ (bitsOfNat pad 0 ++
        (storedBytes bytes).flatMap BitSource.bitsOf)) := by
  obtain ⟨hkind, htidy₁⟩ := BitSink.bits_put htidy (show 2 ≤ 32 by decide) 0
  obtain ⟨htidy₂, hwhole, pad, hpad, halign⟩ := BitSink.bits_align htidy₁
  have hmod := htidy₂.length_mod
  obtain ⟨hlength, htidy₃⟩ := BitSink.bits_put htidy₂ (show 16 ≤ 32 by decide) bytes.length
  obtain ⟨hcomplement, htidy₄⟩ :=
    BitSink.bits_put htidy₃ (show 16 ≤ 32 by decide) (65535 - bytes.length)
  have hmod₄ := htidy₄.length_mod
  have hhead := hcomplement
  rw [hlength, halign, hkind] at hhead
  rw [hhead] at hmod₄
  rw [halign, hkind] at hmod
  simp only [List.length_append, length_bitsOfNat] at hmod hmod₄
  rw [putStored]
  generalize ((sink.put 2 0).align.put 16 bytes.length).put 16 (65535 - bytes.length) = head at *
  have hcount : head.count = 0 := by omega
  refine ⟨⟨htidy₄.count_lt, htidy₄.buffer_lt⟩, pad, hpad, by omega, ?_⟩
  rw [BitSink.bits_append hcount, hhead, flatMap_storedBytes hshort]
  simp only [List.append_assoc]

/-- A source at a whole byte has the stored bytes before it. -/
theorem inflateStored_eq {bytes : Bytes} (hshort : bytes.length < 65536) {pad : Nat}
    (hpad : pad < 8) {source : BitSource} {tail : List Bool}
    (hsource : source.StandsAt
      (bitsOfNat pad 0 ++ ((storedBytes bytes).flatMap BitSource.bitsOf ++ tail)))
    (hwhole : tail.length % 8 = 0) (out : Array UInt8) :
    ∃ source', inflateStored source out = some (source', out ++ bytes.toArray) ∧
      source'.StandsAt tail := by
  have haligned := BitSource.align_standsAt hsource
  rw [List.length_append, List.length_append, length_flatMap_bitsOf, length_bitsOfNat,
    show (pad + (8 * (storedBytes bytes).length + tail.length)) % 8 = pad by omega,
    List.drop_left' (length_bitsOfNat pad 0)] at haligned
  obtain ⟨after, hrest, htail⟩ := BitSource.bytes_of_flatMap_bitsOf haligned
  have hnumber : ∀ {n : Nat}, n < 65536 →
      (UInt8.ofNat n).toNat + 256 * (UInt8.ofNat (n / 256)).toNat = n := by
    intro n hn
    rw [UInt8.toNat_ofNat', UInt8.toNat_ofNat']
    omega
  have hlength := hnumber hshort
  have hcomplement := hnumber (show 65535 - bytes.length < 65536 by omega)
  refine ⟨⟨[], after⟩, ?_, htail, by simp⟩
  rw [inflateStored, hrest, storedBytes]
  simp only [List.cons_append, hlength, hcomplement]
  rw [if_neg (by omega), if_neg (by simp), List.take_left, List.drop_left]

theorem readsBlock_stored {start size : Nat} (hfits : start + size ≤ data.size)
    (hshort : size < 65536) (htidy : sink.Tidy) :
    ∃ bits, (putStored (data.extract start (start + size)).toList sink).bits = sink.bits ++ bits ∧
      (putStored (data.extract start (start + size)).toList sink).Tidy ∧
      ReadsBlock data start (start + size) sink.bits.length bits := by
  have hlength : (data.extract start (start + size)).toList.length = size := by
    rw [Array.length_toList, Array.size_extract]
    omega
  obtain ⟨htidy', pad, hpad, hmod, hbits⟩ :=
    @bits_putStored sink (data.extract start (start + size)).toList (by omega) htidy
  refine ⟨_, hbits, htidy', ?_⟩
  intro source tail fuel hwhole hsource _
  simp only [List.append_assoc] at hsource
  obtain ⟨source₁, hread, hsource₁⟩ := BitSource.number?_of_lt (show 0 < 2 ^ 2 by decide) hsource
  obtain ⟨source', hstored, hsource'⟩ := inflateStored_eq (by omega) hpad hsource₁ (by
    simp only [List.length_append, length_bitsOfNat, length_flatMap_bitsOf] at hwhole
    omega) (data.extract 0 start)
  refine ⟨source', ?_, hsource'⟩
  have hjoined : data.extract 0 start ++ (data.extract start (start + size)).toList.toArray =
      data.extract 0 (start + size) := by
    rw [Array.toArray_toList, Array.extract_append_extract, Nat.min_eq_left (Nat.zero_le _),
      Nat.max_eq_right (Nat.le_add_right _ _)]
  rw [hjoined] at hstored
  simp only [inflateBlock, hread, Option.bind_eq_bind, Option.bind_some]
  exact hstored

end Stored

section Blocks

theorem readsBlock_putBlock {block : TokenBlock} (h : IsBlock data block)
    (hfits : block.start + block.size ≤ data.size) (htidy : sink.Tidy) :
    ∃ bits, (putBlock data block sink).bits = sink.bits ++ bits ∧
      (putBlock data block sink).Tidy ∧
      ReadsBlock data block.start (block.start + block.size) sink.bits.length bits := by
  rw [putBlock]
  split
  · next hstored =>
    have hwindow := h.size_le hstored.2.2
    exact readsBlock_stored hfits (Nat.lt_of_le_of_lt hwindow (by decide)) htidy
  · rw [putCoded]
    split
    · exact readsBlock_fixedCodes h.spells htidy
    · exact readsBlock_ownCodes h.spells htidy

/-- A block is read with the bit that tells whether it is the last one. -/
theorem inflateBlocks_putBlock {block : TokenBlock} (h : IsBlock data block)
    (hfits : block.start + block.size ≤ data.size) (htidy : sink.Tidy) {n : Nat} (hn : n < 2) :
    ∃ bits, (putBlock data block (sink.put 1 n)).bits = sink.bits ++ bits ∧
      (putBlock data block (sink.put 1 n)).Tidy ∧ bits ≠ [] ∧
      ∀ {source : BitSource} {tail : List Bool} {fuel : Nat},
        (sink.bits.length + (bits ++ tail).length) % 8 = 0 → source.StandsAt (bits ++ tail) →
        (bits ++ tail).length < fuel →
          ∃ source' fuel', source'.StandsAt tail ∧ tail.length < fuel' ∧
            inflateBlocks fuel source (data.extract 0 block.start) =
              if n = 1 then some (data.extract 0 (block.start + block.size))
              else inflateBlocks fuel' source' (data.extract 0 (block.start + block.size)) := by
  obtain ⟨hlast, htidy₁⟩ := BitSink.bits_put htidy (show 1 ≤ 32 by decide) n
  obtain ⟨bits, hbits, htidy₂, hreads⟩ := readsBlock_putBlock h hfits htidy₁
  have hone : bitsOfNat 1 n = [decide (n = 1)] := by
    rw [bitsOfNat, bitsOfNat, Nat.testBit_zero, Nat.mod_eq_of_lt hn]
  rw [hlast, hone] at hbits
  refine ⟨decide (n = 1) :: bits, by rw [hbits, List.append_assoc]; rfl, htidy₂,
    List.cons_ne_nil _ _, ?_⟩
  intro source tail fuel hwhole hsource hfuel
  rw [List.cons_append] at hwhole hsource hfuel
  rw [List.length_cons] at hwhole hfuel
  obtain ⟨fuel, rfl⟩ := Nat.exists_eq_succ_of_ne_zero (Nat.ne_zero_of_lt hfuel)
  obtain ⟨source₁, hnext, hsource₁⟩ := BitSource.next?_cons hsource
  obtain ⟨source', hblock, hsource'⟩ := @hreads source₁ tail fuel (by
    rw [hlast, hone, List.length_append, List.length_singleton]
    omega) hsource₁ (by
    rw [List.length_append] at hfuel
    omega)
  refine ⟨source', fuel, hsource', ?_, ?_⟩
  · rw [List.length_append] at hfuel
    omega
  · simp only [inflateBlocks, hnext, Option.bind_eq_bind, Option.bind_some, hblock,
      decide_eq_true_eq]
    rfl

/-- Blocks that follow one another are read up to the last. -/
theorem inflateBlocks_putBlocks {blocks : List TokenBlock} {start : Nat}
    (h : SpellsAll data start blocks data.size) (hsome : blocks ≠ []) (htidy : sink.Tidy) :
    ∃ bits, (putBlocks data blocks sink).bits = sink.bits ++ bits ∧
      (putBlocks data blocks sink).Tidy ∧ bits ≠ [] ∧
      ∀ {source : BitSource} {tail : List Bool} {fuel : Nat},
        (sink.bits.length + (bits ++ tail).length) % 8 = 0 → source.StandsAt (bits ++ tail) →
        (bits ++ tail).length < fuel →
          inflateBlocks fuel source (data.extract 0 start) = some data := by
  induction blocks generalizing sink start with
  | nil => exact absurd rfl hsome
  | cons block rest ih =>
    cases h with
    | cons hblock hrest =>
      have hfits := hrest.le
      cases rest with
      | nil =>
        obtain ⟨bits, hbits, htidy₁, hne, hreads⟩ :=
          inflateBlocks_putBlock hblock hfits htidy (show 1 < 2 by decide)
        refine ⟨bits, hbits, htidy₁, hne, ?_⟩
        intro source tail fuel hwhole hsource hfuel
        obtain ⟨source', fuel', -, -, hread⟩ := hreads hwhole hsource hfuel
        rw [hread, if_pos rfl, hrest.eq_of_nil, Array.extract_size]
      | cons next rest =>
        obtain ⟨bits, hbits, htidy₁, hne, hreads⟩ :=
          inflateBlocks_putBlock hblock hfits htidy (show 0 < 2 by decide)
        obtain ⟨bits', hbits', htidy', -, hreads'⟩ := ih hrest (List.cons_ne_nil _ _) htidy₁
        refine ⟨bits ++ bits', ?_, htidy', ?_, ?_⟩
        · rw [← List.append_assoc, ← hbits]
          exact hbits'
        · exact List.append_ne_nil_of_left_ne_nil hne bits'
        · intro source tail fuel hwhole hsource hfuel
          rw [List.append_assoc] at hwhole hsource hfuel
          obtain ⟨source', fuel', hsource', hfuel', hread⟩ := hreads hwhole hsource hfuel
          rw [hread, if_neg (by decide)]
          refine hreads' ?_ hsource' hfuel'
          rw [hbits]
          simp only [List.length_append] at hwhole ⊢
          omega

/-- What is compressed inflates to itself. -/
theorem inflate_compress (bytes : Bytes) : inflate (compress bytes) = some bytes := by
  obtain ⟨bits, hbits, htidy, hne, hreads⟩ := inflateBlocks_putBlocks
    (spellsAll_tokenize bytes.toArray) (tokenize_ne_nil bytes.toArray) BitSink.tidy_empty
  obtain ⟨-, hcount, pad, -, halign⟩ := BitSink.bits_align htidy
  have hstream : (compress bytes).flatMap BitSource.bitsOf = bits ++ bitsOfNat pad 0 := by
    have haligned := BitSink.bits_of_aligned hcount
    rw [halign, hbits, BitSink.bits_empty, List.nil_append] at haligned
    exact haligned.symm
  have hlength := length_flatMap_bitsOf (compress bytes)
  have hsource := BitSource.standsAt_ofBytes (compress bytes)
  rw [hstream] at hlength hsource
  have hsome : compress bytes ≠ [] := by
    intro hnone
    rw [hnone, List.flatMap_nil] at hstream
    exact hne (List.append_eq_nil_iff.mp hstream.symm).1
  have hread := @hreads _ _ (8 * (compress bytes).length + 1) (by
    rw [BitSink.bits_empty, List.length_nil, Nat.zero_add, hlength, Nat.mul_mod_right]) hsource
    (by rw [hlength]; exact Nat.lt_succ_self _)
  rw [Array.extract_zero] at hread
  rw [inflate, if_neg hsome, hread]
  rfl

end Blocks

end Retarget.Deflate

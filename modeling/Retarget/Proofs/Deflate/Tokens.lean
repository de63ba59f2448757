import Retarget.Deflate.Tokens
import Retarget.Proofs.Deflate.Symbols

/-!
Tokens stand for the bytes they were cut from. A copy is only taken where the bytes agree, whatever
the chains say, so nothing has to be known of the chains. Going from one place to the next, the
tokens of the block lead up to the place, less one byte where a copy is held back that starts before
it; the reach of a copy never goes beyond the bytes kept, so a block whose bytes are all kept is no
longer than the window.
-/
namespace Retarget.Deflate

variable {data : Array UInt8} {place length distance : Nat}

section Copies

/-- The bytes from a place on are those that stand a distance before. -/
structure IsCopy (data : Array UInt8) (place length distance : Nat) : Prop where
  length_ge : 3 ≤ length
  length_le : length ≤ 258
  distance_pos : 1 ≤ distance
  distance_le : distance ≤ 32768
  reaches : distance ≤ place
  fits : place + length ≤ data.size
  same : ∀ i < length, data.getD (place - distance + i) 0 = data.getD (place + i) 0

theorem extract_succ (h : place < data.size) :
    data.extract 0 (place + 1) = (data.extract 0 place).push (data.getD place 0) := by
  rw [Array.getD_eq_getD_getElem?, Array.getElem?_eq_getElem h, Option.getD_some,
    Array.push_extract_getElem h, Nat.min_eq_left (Nat.zero_le _)]

theorem copyBack_extract (hdistance : distance ≤ place) (hpos : 1 ≤ distance)
    (hfits : place + length ≤ data.size)
    (hsame : ∀ i < length, data.getD (place - distance + i) 0 = data.getD (place + i) 0) :
    copyBack length distance (data.extract 0 place) = data.extract 0 (place + length) := by
  induction length generalizing place with
  | zero => rfl
  | succ length ih =>
    have hsize : (data.extract 0 place).size = place := by
      rw [Array.size_extract]
      omega
    have hbyte : byteBack distance (data.extract 0 place) = data.getD place 0 := by
      have hfirst := hsame 0 (Nat.succ_pos length)
      rw [Nat.add_zero, Nat.add_zero] at hfirst
      rw [byteBack, hsize, if_pos hdistance, ← hfirst, Array.getD_eq_getD_getElem?,
        Array.getD_eq_getD_getElem?, Array.getElem?_extract, if_pos (by omega), Nat.zero_add]
    have hnext : ∀ i < length,
        data.getD (place + 1 - distance + i) 0 = data.getD (place + 1 + i) 0 := by
      intro i hi
      have hlater := hsame (i + 1) (Nat.succ_lt_succ hi)
      rwa [show place - distance + (i + 1) = place + 1 - distance + i by omega,
        show place + (i + 1) = place + 1 + i by omega] at hlater
    rw [copyBack, hbyte, ← extract_succ (by omega), ih (by omega) (by omega) hnext]
    congr 1
    omega

theorem agreement_le (data : Array UInt8) (a b limit : Nat) : agreement data a b limit ≤ limit := by
  induction limit generalizing a b with
  | zero => exact Nat.le_refl _
  | succ limit ih =>
    have hrest := ih (a + 1) (b + 1)
    rw [agreement]
    split <;> omega

theorem getD_of_lt_agreement {a b limit i : Nat} (h : i < agreement data a b limit) :
    data.getD (a + i) 0 = data.getD (b + i) 0 := by
  induction limit generalizing a b i with
  | zero => cases h
  | succ limit ih =>
    rw [agreement] at h
    split at h
    · next hfirst =>
      cases i with
      | zero => exact hfirst
      | succ i =>
        have hrest := @ih (a + 1) (b + 1) i (by omega)
        rwa [show a + 1 + i = a + (i + 1) by omega, show b + 1 + i = b + (i + 1) by omega] at hrest
    · cases h

/-- A candidate is a copy that stays within its reach and limit. -/
structure Candidate.Serves (data : Array UInt8) (place reach limit : Nat) (c : Candidate) :
    Prop where
  length_le : c.length ≤ limit
  distance_pos : c.distance ≠ 0
  distance_le : c.distance ≤ reach
  same : ∀ i < c.length, data.getD (place - c.distance + i) 0 = data.getD (place + i) 0

variable {chains : Chains} {reach limit : Nat}

theorem serves_agreement (hpos : distance ≠ 0) (hreach : distance ≤ reach) :
    Candidate.Serves data place reach limit
      ⟨agreement data (place - distance) place limit, distance⟩ :=
  ⟨agreement_le _ _ _ _, hpos, hreach, fun _ hi => getD_of_lt_agreement hi⟩

/-- A search ends with the best it started with, or with a longer copy. -/
theorem searchChain_cases {groups left probe : Nat} {best found : Candidate}
    (h : searchChain data chains place reach limit groups left probe best = found) :
    found = best ∨ best.length < found.length ∧ found.Serves data place reach limit := by
  induction groups, left, probe, best using
    searchChain.induct data chains place reach limit with
  | case1 probe best =>
    rw [searchChain] at h
    exact .inl h.symm
  | case2 groups probe best ih =>
    rw [searchChain] at h
    exact ih h
  | case3 groups left probe best next distance hend =>
    rw [searchChain] at h
    rw [if_pos hend] at h
    exact .inl h.symm
  | case4 groups left probe best next distance hgoes probe' earlier better hworse ih =>
    rw [searchChain] at h
    rw [if_neg hgoes, if_pos hworse] at h
    exact ih h
  | case5 groups left probe best next distance hgoes earlier better hbetter hzero =>
    rw [searchChain] at h
    rw [if_neg hgoes, if_neg hbetter, if_pos hzero] at h
    exact .inl h.symm
  | case6 groups left probe best next distance hgoes probe' earlier better hbetter hsome length
      hshort ih =>
    rw [searchChain] at h
    rw [if_neg hgoes, if_neg hbetter, if_neg hsome, if_pos hshort] at h
    exact ih h
  | case7 groups left probe best next distance hgoes earlier better hbetter hsome length hlong
      hfull =>
    rw [searchChain] at h
    rw [if_neg hgoes, if_neg hbetter, if_neg hsome, if_neg hlong, if_pos hfull] at h
    obtain ⟨-, hlonger⟩ := not_or.mp hlong
    obtain ⟨-, hnear⟩ := not_or.mp hgoes
    right
    rw [← h]
    exact ⟨Nat.lt_of_not_le hlonger, serves_agreement hsome (Nat.le_of_not_lt hnear)⟩
  | case8 groups left probe best next distance hgoes probe' earlier better hbetter hsome length
      hlong hless ih =>
    rw [searchChain] at h
    rw [if_neg hgoes, if_neg hbetter, if_neg hsome, if_neg hlong, if_neg hless] at h
    obtain ⟨-, hlonger⟩ := not_or.mp hlong
    obtain ⟨-, hnear⟩ := not_or.mp hgoes
    right
    rcases ih h with rfl | ⟨hmore, hserves⟩
    · exact ⟨Nat.lt_of_not_le hlonger, serves_agreement hsome (Nat.le_of_not_lt hnear)⟩
    · exact ⟨Nat.lt_trans (Nat.lt_of_not_le hlonger) hmore, hserves⟩

/-- The length that a copy has to exceed at a place. -/
def lengthHeld (held : Option Held) : Nat :=
  match held with
  | some held => held.candidate.length
  | none => 2

/-- A copy at a place is longer than the one held back, or there is none. -/
theorem copyAt_cases (data : Array UInt8) (chains : Chains) (place reach limit : Nat)
    (held : Option Held) :
    (copyAt data chains place reach limit held).distance = 0 ∧
        (copyAt data chains place reach limit held).length ≤ lengthHeld held ∨
      lengthHeld held < (copyAt data chains place reach limit held).length ∧
        (copyAt data chains place reach limit held).Serves data place reach limit := by
  have hstart : copyAt data chains place reach limit held =
      (let found := findCopy data chains place reach limit ⟨lengthHeld held, 0⟩
      if (found.length = shortestCopy ∧ found.distance ≥ 8192) ∨
        place % windowSize = found.distance then ⟨0, 0⟩ else found) := by
    cases held <;> rfl
  rw [hstart]
  simp only
  split
  · exact .inl ⟨rfl, Nat.zero_le _⟩
  · rw [findCopy]
    split
    · exact .inl ⟨rfl, Nat.le_refl _⟩
    · rcases searchChain_cases rfl with hsame | hfound
      · rw [hsame]
        exact .inl ⟨rfl, Nat.le_refl _⟩
      · exact .inr hfound

end Copies

section Spelling

/-- Tokens that lead from one place to another. -/
inductive Spells (data : Array UInt8) : Nat → List Token → Nat → Prop
  | nil {place : Nat} : Spells data place [] place
  | literal {place stop : Nat} {rest : List Token} (hinside : place < data.size)
    (hrest : Spells data (place + 1) rest stop) :
    Spells data place (.literal (data.getD place 0) :: rest) stop
  | copy {place length distance stop : Nat} {rest : List Token}
    (hcopy : IsCopy data place length distance) (hrest : Spells data (place + length) rest stop) :
    Spells data place (.copy length distance :: rest) stop

variable {start middle stop : Nat} {tokens rest : List Token}

theorem Spells.append (h : Spells data start tokens middle) (hrest : Spells data middle rest stop) :
    Spells data start (tokens ++ rest) stop := by
  induction h with
  | nil => exact hrest
  | literal hinside _ ih => exact .literal hinside (ih hrest)
  | copy hcopy _ ih => exact .copy hcopy (ih hrest)

theorem Spells.isPlain (h : Spells data start tokens stop) : ∀ token ∈ tokens, token.IsPlain := by
  induction h with
  | nil => simp
  | literal _ _ ih => exact List.forall_mem_cons.mpr ⟨trivial, ih⟩
  | copy hcopy _ ih =>
    exact List.forall_mem_cons.mpr ⟨⟨hcopy.length_ge, hcopy.length_le, hcopy.distance_pos,
      hcopy.distance_le⟩, ih⟩

/-- Tokens add the bytes from the place they start at to the one they lead to. -/
theorem Spells.expand (h : Spells data start tokens stop) :
    tokens.foldl Token.expand (data.extract 0 start) = data.extract 0 stop := by
  induction h with
  | nil => rfl
  | literal hinside _ ih => rw [List.foldl_cons, Token.expand, ← extract_succ hinside, ih]
  | copy hcopy _ ih =>
    rw [List.foldl_cons, Token.expand,
      copyBack_extract hcopy.reaches hcopy.distance_pos hcopy.fits hcopy.same, ih]

/-- A block whose tokens lead from its start to its end. If all its bytes are kept, it is no longer
than the window. -/
structure IsBlock (data : Array UInt8) (block : TokenBlock) : Prop where
  spells : Spells data block.start block.tokens (block.start + block.size)
  size_le : block.inWindow → block.size ≤ windowSize

theorem Spells.le (h : Spells data start tokens stop) : start ≤ stop := by
  induction h with
  | nil => exact Nat.le_refl _
  | literal _ _ ih => omega
  | copy _ _ ih => omega

/-- Blocks that follow one another. -/
inductive SpellsAll (data : Array UInt8) : Nat → List TokenBlock → Nat → Prop
  | nil {place : Nat} : SpellsAll data place [] place
  | cons {block : TokenBlock} {rest : List TokenBlock} {stop : Nat} (hblock : IsBlock data block)
    (hrest : SpellsAll data (block.start + block.size) rest stop) :
    SpellsAll data block.start (block :: rest) stop

theorem SpellsAll.eq_of_nil (h : SpellsAll data start [] stop) : start = stop := by
  cases h
  rfl

theorem SpellsAll.le {blocks : List TokenBlock} (h : SpellsAll data start blocks stop) :
    start ≤ stop := by
  induction h with
  | nil => exact Nat.le_refl _
  | cons hblock _ ih => omega

theorem SpellsAll.concat {blocks : List TokenBlock} {block : TokenBlock}
    (h : SpellsAll data start blocks block.start) (hblock : IsBlock data block) :
    SpellsAll data start (blocks ++ [block]) (block.start + block.size) := by
  generalize hend : block.start = last at h
  induction h with
  | nil =>
    subst hend
    exact .cons hblock .nil
  | cons hfirst _ ih => exact .cons hfirst (ih hend)

end Spelling

section Tokenize

/-- A copy held back starts at the byte before the place. -/
structure IsHeld (data : Array UInt8) (place : Nat) (held : Held) : Prop where
  place_pos : place ≠ 0
  byte_eq : held.byte = data.getD (place - 1) 0
  copy : IsCopy data (place - 1) held.candidate.length held.candidate.distance

/-- How many bytes before a place are not yet in a token. -/
def heldBack (held : Option Held) : Nat := held.toList.length

section

variable {found : Candidate} {reach : Nat} {held : Option Held}

/-- The copy found at a place is one of the format. -/
theorem Candidate.Serves.isCopy
    (h : found.Serves data place reach (min longestCopy (data.size - place)))
    (hlong : 3 ≤ found.length) (hinside : place < data.size) (hreach : reach ≤ place)
    (hwindow : reach ≤ windowSize) : IsCopy data place found.length found.distance := by
  obtain ⟨hlength, hpos, hdistance, hsame⟩ := h
  rw [Nat.le_min] at hlength
  exact ⟨hlong, hlength.1, Nat.pos_of_ne_zero hpos, Nat.le_trans hdistance hwindow,
    Nat.le_trans hdistance hreach, by omega, hsame⟩

variable {byte : UInt8}

theorem isHeld_found (hbyte : byte = data.getD place 0)
    (hcopy : IsCopy data place found.length found.distance) :
    ∀ h ∈ some (Held.mk byte found), IsHeld data (place + 1) h := by
  rintro h ⟨⟩
  exact ⟨Nat.succ_ne_zero place, hbyte, hcopy⟩

theorem spells_literal (hbyte : byte = data.getD place 0) (hinside : place < data.size)
    {rest : List Token} {stop : Nat} (hrest : Spells data (place + 1) rest stop) :
    Spells data place (.literal byte :: rest) stop := by
  rw [hbyte]
  exact .literal hinside hrest

variable {tokens : List Token} {moved : Nat} {held' : Option Held}

/-- With nothing held back, the tokens settled start at the place. -/
theorem settle_none_spells (hbyte : byte = data.getD place 0) (hinside : place < data.size)
    (hfound : found.distance ≠ 0 → IsCopy data place found.length found.distance)
    (h : settle none byte found = (tokens, moved, held')) :
    (∀ h ∈ held', IsHeld data (place + moved) h) ∧ 1 ≤ moved ∧ place + moved ≤ data.size ∧
      Spells data place tokens (place + moved - heldBack held') := by
  rw [settle] at h
  split at h
  · cases h
    exact ⟨by simp, Nat.le_refl 1, hinside, spells_literal hbyte hinside .nil⟩
  · next hsome =>
    have hcopy := hfound hsome
    have hlong := hcopy.length_ge
    split at h
    · cases h
      exact ⟨by simp, by omega, hcopy.fits, .copy hcopy .nil⟩
    · cases h
      exact ⟨isHeld_found hbyte hcopy, Nat.le_refl 1, hinside, .nil⟩

/-- With a copy held back, the tokens settled start at its byte. -/
theorem settle_some_spells {last : Held} (hlast : IsHeld data (place + 1) last)
    (hbyte : byte = data.getD (place + 1) 0) (hinside : place + 1 < data.size)
    (hfound : last.candidate.length < found.length →
      IsCopy data (place + 1) found.length found.distance)
    (h : settle (some last) byte found = (tokens, moved, held')) :
    (∀ h ∈ held', IsHeld data (place + 1 + moved) h) ∧ 1 ≤ moved ∧ place + 1 + moved ≤ data.size ∧
      Spells data place tokens (place + 1 + moved - heldBack held') := by
  obtain ⟨-, hlastByte, hheld⟩ := hlast
  rw [Nat.add_sub_cancel] at hlastByte hheld
  have hbefore : place < data.size := Nat.lt_of_succ_lt hinside
  rw [settle] at h
  split at h
  · next hlonger =>
    have hcopy := hfound hlonger
    have hlong := hcopy.length_ge
    split at h
    · cases h
      exact ⟨by simp, by omega, hcopy.fits, spells_literal hlastByte hbefore (.copy hcopy .nil)⟩
    · cases h
      exact ⟨isHeld_found hbyte hcopy, Nat.le_refl 1, hinside,
        spells_literal hlastByte hbefore .nil⟩
  · cases h
    have hlong := hheld.length_ge
    have hfits := hheld.fits
    have hend : place + 1 + (last.candidate.length - 1) = place + last.candidate.length := by omega
    rw [hend]
    exact ⟨by simp, by omega, hfits, .copy hheld .nil⟩

/-- The tokens settled lead from the byte held back to the next place, or to the byte held back
before it. -/
theorem settle_spells (hheld : ∀ h ∈ held, IsHeld data place h)
    (hbyte : byte = data.getD place 0) (hinside : place < data.size) (hreach : reach ≤ place)
    (hwindow : reach ≤ windowSize)
    (hfound : found.distance = 0 ∧ found.length ≤ lengthHeld held ∨
      lengthHeld held < found.length ∧
        found.Serves data place reach (min longestCopy (data.size - place)))
    (h : settle held byte found = (tokens, moved, held')) :
    (∀ h ∈ held', IsHeld data (place + moved) h) ∧ 1 ≤ moved ∧ place + moved ≤ data.size ∧
      Spells data (place - heldBack held) tokens (place + moved - heldBack held') := by
  cases held with
  | none =>
    apply settle_none_spells hbyte hinside _ h
    intro hsome
    obtain ⟨hlong, hserves⟩ := hfound.resolve_left fun hnone => hsome hnone.1
    exact hserves.isCopy hlong hinside hreach hwindow
  | some last =>
    have hlast := hheld last rfl
    obtain ⟨place, rfl⟩ := Nat.exists_eq_succ_of_ne_zero hlast.place_pos
    apply settle_some_spells hlast hbyte hinside _ h
    intro hlonger
    obtain ⟨-, hserves⟩ := hfound.resolve_left fun hshort => Nat.not_lt.mpr hshort.2 hlonger
    have hlong := hlast.copy.length_ge
    exact hserves.isCopy (by omega) hinside hreach hwindow

end

theorem foldl_add_spells {block : OpenBlock} {tokens : List Token} {stop : Nat}
    (h : Spells data (block.start + block.size) tokens stop) :
    (tokens.foldl OpenBlock.add block).start = block.start ∧
      block.start + (tokens.foldl OpenBlock.add block).size = stop ∧
      (tokens.foldl OpenBlock.add block).tokens.reverse = block.tokens.reverse ++ tokens := by
  generalize hplace : block.start + block.size = place at h
  induction h generalizing block with
  | nil => exact ⟨rfl, hplace, by simp⟩
  | literal hinside _ ih =>
    obtain ⟨hstart, hsize, htokens⟩ := @ih (block.add (.literal (data.getD _ 0)))
      (by rw [← hplace]; rfl)
    refine ⟨hstart, hsize, ?_⟩
    rw [List.foldl_cons, htokens]
    simp [OpenBlock.add]
  | @copy place length distance _ _ hcopy _ ih =>
    obtain ⟨hstart, hsize, htokens⟩ := @ih (block.add (.copy length distance))
      (by rw [← hplace, Nat.add_assoc]; rfl)
    refine ⟨hstart, hsize, ?_⟩
    rw [List.foldl_cons, htokens]
    simp [OpenBlock.add]

/-- What is known at a place: the block being filled leads up to it, less the byte held back. -/
structure StandsAtPlace (data : Array UInt8) (place kept : Nat) (held : Option Held)
    (block : OpenBlock) (closed : List TokenBlock) : Prop where
  place_le : place ≤ data.size
  kept_le : kept ≤ place
  kept_le_window : kept ≤ windowSize
  isHeld : ∀ h ∈ held, IsHeld data place h
  place_eq : block.start + block.size + heldBack held = place
  spells : Spells data block.start block.tokens.reverse (block.start + block.size)
  closed_spells : SpellsAll data 0 closed.reverse block.start

variable {kept : Nat} {held : Option Held} {block : OpenBlock} {closed : List TokenBlock}

theorem StandsAtPlace.isBlock (h : StandsAtPlace data place kept held block closed) :
    IsBlock data (block.close place kept) := by
  refine ⟨h.spells, fun hinside => ?_⟩
  have hkept : place - block.start ≤ kept := by simpa [OpenBlock.close] using hinside
  have hplace := h.place_eq
  have hwindow := h.kept_le_window
  simp only [OpenBlock.close]
  omega

theorem StandsAtPlace.closeBlock (h : StandsAtPlace data place kept held block closed) :
    StandsAtPlace data place kept held (.startingAt (block.start + block.size))
      (block.close place kept :: closed) := by
  refine ⟨h.place_le, h.kept_le, h.kept_le_window, h.isHeld, h.place_eq, .nil, ?_⟩
  rw [List.reverse_cons]
  exact h.closed_spells.concat h.isBlock

/-- At the end no byte is held back. -/
theorem StandsAtPlace.end_eq (h : StandsAtPlace data place kept held block closed)
    (hend : data.size ≤ place) : block.start + block.size = data.size := by
  have hplace := h.place_eq
  have hle := h.place_le
  cases held with
  | none =>
    rw [heldBack, Option.toList_none, List.length_nil] at hplace
    omega
  | some last =>
    obtain ⟨-, -, hcopy⟩ := h.isHeld last rfl
    have hfits := hcopy.fits
    have hlong := hcopy.length_ge
    omega

/-- The tokens settled at a place lead on to the next one. -/
theorem StandsAtPlace.step (h : StandsAtPlace data place kept held block closed)
    (hinside : place < data.size) {found : Candidate} {reach : Nat} (hreach : reach ≤ kept)
    (hfound : found.distance = 0 ∧ found.length ≤ lengthHeld held ∨
      lengthHeld held < found.length ∧
        found.Serves data place reach (min longestCopy (data.size - place)))
    {byte : UInt8} (hbyte : byte = data.getD place 0) {tokens : List Token} {moved : Nat}
    {held' : Option Held} (hsettle : settle held byte found = (tokens, moved, held')) :
    1 ≤ moved ∧ StandsAtPlace data (place + moved) (min (reach + moved) windowSize) held'
      (tokens.foldl OpenBlock.add block) closed := by
  have hkept := h.kept_le
  have hwindow := h.kept_le_window
  obtain ⟨hheld, hmoved, hfits, hspells⟩ := settle_spells h.isHeld hbyte hinside
    (Nat.le_trans hreach hkept) (Nat.le_trans hreach hwindow) hfound hsettle
  rw [← h.place_eq, Nat.add_sub_cancel, h.place_eq] at hspells
  obtain ⟨hstart, hsize, htokens⟩ := foldl_add_spells hspells
  have hback : heldBack held' ≤ place + moved := by
    cases held' with
    | none => exact Nat.zero_le _
    | some last => exact Nat.le_trans hmoved (Nat.le_add_left _ _)
  refine ⟨hmoved, hfits, ?_, Nat.min_le_right _ _, hheld, ?_, ?_, ?_⟩
  · omega
  · rw [hstart, hsize, Nat.sub_add_cancel hback]
  · rw [hstart, hsize, htokens]
    exact h.spells.append hspells
  · rw [hstart]
    exact h.closed_spells

/-- The blocks lead to the end of the bytes. -/
theorem spellsAll_tokenizeFrom {fuel inserted : Nat} {chains : Chains}
    (h : StandsAtPlace data place kept held block closed) (hfuel : data.size < place + fuel) :
    SpellsAll data 0 (tokenizeFrom data fuel place inserted kept chains held block closed).reverse
      data.size := by
  induction fuel generalizing place inserted kept chains held block closed with
  | zero =>
    have hplace := h.place_le
    omega
  | succ fuel ih =>
    rw [tokenizeFrom]
    split
    · next hend =>
      rw [List.reverse_cons, ← h.end_eq hend]
      exact h.closed_spells.concat h.isBlock
    · next hgoes =>
      simp only
      generalize chains.insertUpTo data _ _ = chains
      generalize hsettle : settle held _ (copyAt data chains place _ _ held) = settled
      obtain ⟨tokens, moved, held'⟩ := settled
      obtain ⟨hmoved, hnext⟩ := h.step (Nat.lt_of_not_le hgoes) (Nat.min_le_left kept _)
        (copyAt_cases data chains place _ _ held) rfl hsettle
      split
      · exact ih hnext.closeBlock (by omega)
      · exact ih hnext (by omega)

theorem tokenizeFrom_ne_nil (fuel place inserted kept : Nat) (chains : Chains)
    (held : Option Held) (block : OpenBlock) (closed : List TokenBlock) :
    tokenizeFrom data fuel place inserted kept chains held block closed ≠ [] := by
  induction fuel generalizing place inserted kept chains held block closed with
  | zero => exact List.cons_ne_nil _ _
  | succ fuel ih =>
    rw [tokenizeFrom]
    split
    · exact List.cons_ne_nil _ _
    · simp only
      split
      · exact ih _ _ _ _ _ _ _
      · exact ih _ _ _ _ _ _ _

theorem tokenize_ne_nil (data : Array UInt8) : tokenize data ≠ [] :=
  mt List.reverse_eq_nil_iff.mp (tokenizeFrom_ne_nil _ _ _ _ _ _ _ _)

theorem spellsAll_tokenize (data : Array UInt8) : SpellsAll data 0 (tokenize data) data.size :=
  spellsAll_tokenizeFrom ⟨Nat.zero_le _, Nat.le_refl 0, by decide, by simp, rfl, .nil, .nil⟩
    (by omega)

end Tokenize

end Retarget.Deflate

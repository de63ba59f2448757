import Retarget.Proofs.Deflate.GivenCodes
import Retarget.Proofs.Deflate.Tokens

/-!
The codes of a block. Those made for it give a word to each symbol it uses and to its end, and the
decoder that is given fewer lengths has the same words, since only symbols that are not used are
left out. The fixed codes give a word to every symbol.
-/
namespace Retarget.Deflate

section IdleSymbols

variable {lengths : List Nat} {symbol m : Nat}

theorem takenSpace_append_zeros (lengths : List Nat) (m : Nat) :
    takenSpace (lengths ++ List.replicate m 0) = takenSpace lengths := by
  rw [takenSpace_append, takenSpace_replicate, spaceOf, if_pos rfl, Nat.mul_zero, Nat.add_zero]

theorem usable_of_append_zeros
    (h : IsComplete (lengths ++ List.replicate m 0) ∨ IsSmall (lengths ++ List.replicate m 0)) :
    IsComplete lengths ∨ IsSmall lengths := by
  rcases h with hcomplete | hsmall
  · left
    rwa [IsComplete, takenSpace_append_zeros] at hcomplete
  · right
    rw [isSmall_iff, List.countP_append] at hsmall
    exact isSmall_iff.mpr ⟨fun n hn => hsmall.1 n (List.mem_append_left _ hn), by omega⟩

theorem hasWord_of_append_zeros (h : HasWord (lengths ++ List.replicate m 0) symbol) :
    HasWord lengths symbol := by
  obtain ⟨n, hget, hne⟩ := h
  rcases Nat.lt_or_ge symbol lengths.length with hless | hbeyond
  · rw [List.getElem?_append_left hless] at hget
    exact ⟨n, hget, hne⟩
  · rw [List.getElem?_append_right hbeyond] at hget
    exact absurd (List.eq_of_mem_replicate (List.mem_of_getElem? hget)) hne

/-- Lengths from the first symbol on that is never used are zeros. -/
theorem exists_append_take (h : ∀ symbol, HasWord lengths symbol → symbol < m) :
    ∃ k, lengths = lengths.take m ++ List.replicate k 0 := by
  refine ⟨(lengths.drop m).length, ?_⟩
  have hzeros : ∀ n ∈ lengths.drop m, n = 0 := by
    intro n hn
    obtain ⟨i, hget⟩ := List.mem_iff_getElem?.mp hn
    rw [List.getElem?_drop] at hget
    by_contra hne
    have hless := h (m + i) ⟨n, hget, hne⟩
    omega
  rw [← List.eq_replicate_of_mem hzeros, List.take_append_drop]

end IdleSymbols

section OwnCodes

variable {tokens : List Token}

theorem Token.literalSymbol_lt {token : Token} (h : token.IsPlain) : token.literalSymbol < 286 := by
  cases token with
  | literal b => exact Nat.lt_trans b.toNat_lt (by decide)
  | copy length distance =>
    obtain ⟨symbol, more, extra, base, hsymbol, hget, -, -⟩ := exists_lengthSymbol h.1 h.2.1
    obtain ⟨hless, -⟩ := Array.getElem?_eq_some_iff.mp hget
    have hsize : lengthBases.size = 29 := rfl
    rw [Token.literalSymbol, hsymbol]
    simp only
    omega

theorem Token.distanceSymbol_lt {token : Token} (h : token.IsPlain) :
    ∀ symbol ∈ token.distanceSymbol?, symbol < 30 := by
  cases token with
  | literal b => simp [Token.distanceSymbol?]
  | copy length distance =>
    obtain ⟨symbol, more, extra, base, hsymbol, hget, -, -⟩ := exists_distanceSymbol h.2.2.1 h.2.2.2
    obtain ⟨hless, -⟩ := Array.getElem?_eq_some_iff.mp hget
    have hsize : distanceBases.size = 30 := rfl
    rintro symbol' ⟨⟩
    rw [hsymbol]
    simp only
    omega

/-- A code without the symbols at its end that are not used. -/
theorem IsCodeFor.dropIdle {frequencies : Array Nat} {lengths : List Nat} {least m : Nat}
    (h : IsCodeFor 15 frequencies lengths)
    (hidle : ∀ symbol, frequencies.getD symbol 0 ≠ 0 → symbol < m) :
    (IsComplete (dropIdleLengths least (lengths.take m)) ∨
        IsSmall (dropIdleLengths least (lengths.take m))) ∧
      (∀ n ∈ dropIdleLengths least (lengths.take m), n ≤ 15) ∧
      ∀ symbol, frequencies.getD symbol 0 ≠ 0 →
        HasWord (dropIdleLengths least (lengths.take m)) symbol ∧
        Inverts (.ofLengths (dropIdleLengths least (lengths.take m))) (.ofLengths lengths)
          symbol := by
  obtain ⟨j, hbeyond⟩ := exists_append_take fun symbol hword =>
    hidle symbol ((h.hasWord_iff symbol).mp hword)
  obtain ⟨k, hdropped⟩ := exists_append_dropIdleLengths least (lengths.take m)
  have hzeros : lengths =
      dropIdleLengths least (lengths.take m) ++ List.replicate (k + j) 0 := by
    rw [← List.replicate_append_replicate, ← List.append_assoc, ← hdropped]
    exact hbeyond
  have husable := h.usable
  have hhasWord := h.hasWord_iff
  have hcode := h.isCode (Nat.le_refl 15)
  generalize dropIdleLengths least (lengths.take m) = kept at *
  subst hzeros
  have hshort : ∀ n ∈ kept, n ≤ 15 := fun n hn => hcode.short n (List.mem_append_left _ hn)
  have hspace := hcode.space
  rw [takenSpace_append_zeros] at hspace
  refine ⟨usable_of_append_zeros husable, hshort, fun symbol hused => ?_⟩
  have hword := hasWord_of_append_zeros ((hhasWord symbol).mpr hused)
  exact ⟨hword, IsCode.inverts_append_zeros ⟨hshort, hspace⟩ hword (k + j)⟩

theorem isCodeFor_literalLengths (tokens : List Token) :
    IsCodeFor 15 (occurrences 288 (256 :: tokens.map Token.literalSymbol))
      (literalLengths tokens) :=
  isCodeFor_wordLengths (by decide) (Nat.le_refl 15) (by rw [size_occurrences]; decide)

theorem isCodeFor_distanceLengths (tokens : List Token) :
    IsCodeFor 15 (occurrences 32 (tokens.filterMap Token.distanceSymbol?))
      (distanceLengths tokens) :=
  isCodeFor_wordLengths (by decide) (Nat.le_refl 15) (by rw [size_occurrences]; decide)

theorem literal_lt (hplain : ∀ token ∈ tokens, token.IsPlain) (symbol : Nat)
    (h : (occurrences 288 (256 :: tokens.map Token.literalSymbol)).getD symbol 0 ≠ 0) :
    symbol < 286 := by
  obtain ⟨-, hmem⟩ := occurrences_ne_zero_iff.mp h
  rcases List.mem_cons.mp hmem with rfl | hmem
  · decide
  · obtain ⟨token, htoken, rfl⟩ := List.mem_map.mp hmem
    exact Token.literalSymbol_lt (hplain token htoken)

theorem distance_lt (hplain : ∀ token ∈ tokens, token.IsPlain) (symbol : Nat)
    (h : (occurrences 32 (tokens.filterMap Token.distanceSymbol?)).getD symbol 0 ≠ 0) :
    symbol < 30 := by
  obtain ⟨-, hmem⟩ := occurrences_ne_zero_iff.mp h
  obtain ⟨token, htoken, hsymbol⟩ := List.mem_filterMap.mp hmem
  exact Token.distanceSymbol_lt (hplain token htoken) symbol hsymbol

variable (hplain : ∀ token ∈ tokens, token.IsPlain)
include hplain

theorem areGiven_ownCodes :
    AreGiven (dropIdleLengths 257 ((literalLengths tokens).take 286))
      (dropIdleLengths 1 ((distanceLengths tokens).take 30)) := by
  have hliterals := isCodeFor_literalLengths tokens
  have hdistances := isCodeFor_distanceLengths tokens
  obtain ⟨husable, hshort, hwords⟩ := hliterals.dropIdle (literal_lt hplain)
  obtain ⟨husable', hshort', -⟩ := hdistances.dropIdle (distance_lt hplain)
  have hlength := hliterals.length_eq
  have hlength' := hdistances.length_eq
  rw [size_occurrences] at hlength hlength'
  refine ⟨le_length_dropIdleLengths ?_, ?_, le_length_dropIdleLengths ?_, ?_, hshort, hshort',
    husable, husable', (hwords 256 ?_).1⟩
  · rw [List.length_take, hlength]
    decide
  · exact Nat.le_trans (length_dropIdleLengths_le _ _) (List.length_take_le _ _)
  · rw [List.length_take, hlength']
    decide
  · exact Nat.le_trans (length_dropIdleLengths_le _ _) (List.length_take_le _ _)
  · exact occurrences_ne_zero_iff.mpr ⟨by decide, List.mem_cons_self⟩

theorem inverts_end_ownCodes :
    Inverts (.ofLengths (dropIdleLengths 257 ((literalLengths tokens).take 286)))
      (.ofLengths (literalLengths tokens)) 256 := by
  obtain ⟨-, -, hwords⟩ := (isCodeFor_literalLengths tokens).dropIdle (literal_lt hplain)
  exact (hwords 256 (occurrences_ne_zero_iff.mpr ⟨by decide, List.mem_cons_self⟩)).2

theorem readsToken_ownCodes {token : Token} (htoken : token ∈ tokens) :
    ReadsToken (.ofLengths (dropIdleLengths 257 ((literalLengths tokens).take 286)))
      (.ofLengths (dropIdleLengths 1 ((distanceLengths tokens).take 30)))
      (.ofLengths (literalLengths tokens)) (.ofLengths (distanceLengths tokens)) token := by
  obtain ⟨-, -, hwords⟩ := (isCodeFor_literalLengths tokens).dropIdle (literal_lt hplain)
  obtain ⟨-, -, hwords'⟩ := (isCodeFor_distanceLengths tokens).dropIdle (distance_lt hplain)
  have hthis := hplain token htoken
  refine ⟨hthis, (hwords _ ?_).2, fun symbol hsymbol => (hwords' symbol ?_).2⟩
  · have hless := Token.literalSymbol_lt hthis
    exact occurrences_ne_zero_iff.mpr
      ⟨by omega, List.mem_cons_of_mem _ (List.mem_map_of_mem htoken)⟩
  · have hless := Token.distanceSymbol_lt hthis symbol hsymbol
    exact occurrences_ne_zero_iff.mpr ⟨by omega, List.mem_filterMap.mpr ⟨token, htoken, hsymbol⟩⟩

end OwnCodes

section FixedCodes

theorem isCode_fixedLiteralLengths : IsCode fixedLiteralLengths := by
  refine ⟨?_, ?_⟩
  · simp only [fixedLiteralLengths, List.mem_append, List.mem_replicate]
    omega
  · simp only [fixedLiteralLengths, takenSpace_append, takenSpace_replicate, spaceOf]
    decide

theorem isCode_fixedDistanceLengths : IsCode fixedDistanceLengths := by
  refine ⟨?_, ?_⟩
  · simp only [fixedDistanceLengths, List.mem_replicate]
    omega
  · simp only [fixedDistanceLengths, takenSpace_replicate, spaceOf]
    decide

theorem hasWord_of_lt {lengths : List Nat} (hsome : ∀ n ∈ lengths, n ≠ 0) {symbol : Nat}
    (h : symbol < lengths.length) : HasWord lengths symbol :=
  ⟨lengths[symbol], List.getElem?_eq_getElem h, hsome _ (List.getElem_mem h)⟩

theorem hasWord_fixedLiteralLengths {symbol : Nat} (h : symbol < 286) :
    HasWord fixedLiteralLengths symbol := by
  apply hasWord_of_lt
  · simp only [fixedLiteralLengths, List.mem_append, List.mem_replicate]
    omega
  · simp only [fixedLiteralLengths, List.length_append, List.length_replicate]
    omega

theorem hasWord_fixedDistanceLengths {symbol : Nat} (h : symbol < 30) :
    HasWord fixedDistanceLengths symbol := by
  apply hasWord_of_lt
  · simp only [fixedDistanceLengths, List.mem_replicate]
    omega
  · simpa only [fixedDistanceLengths, List.length_replicate] using h

theorem readsToken_fixedCodes {token : Token} (h : token.IsPlain) :
    ReadsToken (.ofLengths fixedLiteralLengths) (.ofLengths fixedDistanceLengths)
      (.ofLengths fixedLiteralLengths) (.ofLengths fixedDistanceLengths) token :=
  ⟨h, isCode_fixedLiteralLengths.inverts (hasWord_fixedLiteralLengths (Token.literalSymbol_lt h)),
    fun symbol hsymbol => isCode_fixedDistanceLengths.inverts
      (hasWord_fixedDistanceLengths (Token.distanceSymbol_lt h symbol hsymbol))⟩

theorem inverts_end_fixedCodes :
    Inverts (.ofLengths fixedLiteralLengths) (.ofLengths fixedLiteralLengths) 256 :=
  isCode_fixedLiteralLengths.inverts (hasWord_fixedLiteralLengths (by decide))

end FixedCodes

end Retarget.Deflate

import Retarget.Proofs.Deflate.Bits

/-!
Canonical codes. Words of one length are consecutive numbers, in the order of their symbols, and the
first of them is twice the number after the last word that is one bit shorter. So the start of a
word is never below the words of its own length, which is how it is told apart from them; and where
the words take no more space than there is, each of them has room in its length.
-/
namespace Retarget.Deflate

/-- The least word of a length. -/
def firstWord (lengths : List Nat) : (length : Nat) → Nat
  | 0 => 0
  | k + 1 => 2 * (firstWord lengths k + if k = 0 then 0 else lengths.count k)

/-- How many words are shorter than a length. -/
def shorterWords (lengths : List Nat) : (length : Nat) → Nat
  | 0 => 0
  | k + 1 => shorterWords lengths k + if k = 0 then 0 else lengths.count k

/-- The bits of a word, highest first. -/
def wordBits : (width : Nat) → Nat → List Bool
  | 0, _ => []
  | width + 1, word => word.testBit width :: wordBits width word

section Counts

theorem getD_modify (counts : Array Nat) {k : Nat} (hk : k < counts.size) (n : Nat)
    (f : Nat → Nat) :
    (counts.modify n f).getD k 0 = if n = k then f (counts.getD k 0) else counts.getD k 0 := by
  simp only [Array.getD_eq_getD_getElem?, Array.getElem?_modify, Array.getElem?_eq_getElem hk]
  split <;> rfl

theorem getD_foldl_modify (lengths : List Nat) (counts : Array Nat) {k : Nat}
    (hk : k < counts.size) :
    (lengths.foldl (fun counts n => counts.modify n (· + 1)) counts).getD k 0 =
      counts.getD k 0 + lengths.count k := by
  induction lengths generalizing counts with
  | nil => rfl
  | cons n rest ih =>
    rw [List.foldl_cons, ih _ (by rwa [Array.size_modify]), getD_modify _ hk, List.count_cons]
    by_cases hsame : n = k
    · simp [hsame]
      omega
    · simp [hsame]

theorem getD_occurrences (numbers : List Nat) {size k : Nat} (hk : k < size) :
    (occurrences size numbers).getD k 0 = numbers.count k := by
  rw [occurrences, getD_foldl_modify _ _ (by simpa using hk)]
  simp [Array.getD_eq_getD_getElem?, hk]

theorem size_occurrences (size : Nat) (numbers : List Nat) :
    (occurrences size numbers).size = size := by
  have hfold : ∀ counts : Array Nat,
      (numbers.foldl (fun counts n => counts.modify n (· + 1)) counts).size = counts.size := by
    induction numbers with
    | nil => exact fun _ => rfl
    | cons n rest ih => exact fun counts => (ih _).trans Array.size_modify
  rw [occurrences, hfold, Array.size_replicate]

theorem occurrences_ne_zero_iff {numbers : List Nat} {size k : Nat} :
    (occurrences size numbers).getD k 0 ≠ 0 ↔ k < size ∧ k ∈ numbers := by
  rcases Nat.lt_or_ge k size with hk | hk
  · rw [getD_occurrences numbers hk, Ne, List.count_eq_zero, Decidable.not_not]
    exact (and_iff_right hk).symm
  · have hsize := size_occurrences size numbers
    rw [Array.getD_eq_getD_getElem?, Array.getElem?_eq_none (by omega)]
    simp [Nat.not_lt.mpr hk]

end Counts

section FirstWord

variable {lengths : List Nat} {k n : Nat}

/-- A word is longer than all that its start could be. -/
theorem firstWord_le (hk : k ≠ 0) (j : Nat) :
    2 ^ (j + 1) * (firstWord lengths k + lengths.count k) ≤ firstWord lengths (k + 1 + j) := by
  induction j with
  | zero =>
    rw [Nat.add_zero, firstWord, if_neg hk]
    omega
  | succ j ih =>
    rw [show k + 1 + (j + 1) = k + 1 + j + 1 by omega, firstWord, Nat.pow_succ]
    rw [Nat.mul_comm (2 ^ (j + 1)) 2, Nat.mul_assoc]
    omega

/-- The space that a word of a length takes. -/
def spaceOf (length : Nat) : Nat :=
  if length = 0 then 0 else 2 ^ (15 - length)

theorem takenSpace_eq (lengths : List Nat) : takenSpace lengths = (lengths.map spaceOf).sum := by
  have hfold : ∀ space, lengths.foldl
      (fun n length => if length = 0 then n else n + 1 <<< (15 - length)) space =
        space + (lengths.map spaceOf).sum := by
    induction lengths with
    | nil => simp
    | cons length rest ih =>
      intro space
      rw [List.foldl_cons, ih, List.map_cons, List.sum_cons, spaceOf, Nat.one_shiftLeft]
      split <;> omega
  rw [takenSpace, hfold, Nat.zero_add]

theorem takenSpace_cons (length : Nat) (rest : List Nat) :
    takenSpace (length :: rest) = spaceOf length + takenSpace rest := by
  rw [takenSpace_eq, takenSpace_eq, List.map_cons, List.sum_cons]

theorem takenSpace_append (before after : List Nat) :
    takenSpace (before ++ after) = takenSpace before + takenSpace after := by
  rw [takenSpace_eq, takenSpace_eq, takenSpace_eq, List.map_append, List.sum_append]

/-- What the words up to a length take of the space. -/
theorem takenSpace_filter_succ (lengths : List Nat) (k : Nat) :
    takenSpace (lengths.filter (· ≤ k + 1)) =
      takenSpace (lengths.filter (· ≤ k)) + lengths.count (k + 1) * 2 ^ (15 - (k + 1)) := by
  induction lengths with
  | nil => simp [takenSpace]
  | cons n rest ih =>
    rcases Nat.lt_trichotomy n (k + 1) with hlt | heq | hgt
    · rw [List.filter_cons_of_pos (by simp; omega), List.filter_cons_of_pos (by simp; omega),
        takenSpace_cons, takenSpace_cons, ih, List.count_cons_of_ne (by omega), Nat.add_assoc]
    · subst heq
      rw [List.filter_cons_of_pos (by simp), List.filter_cons_of_neg (by simp), takenSpace_cons, ih,
        List.count_cons_self, spaceOf, if_neg (Nat.succ_ne_zero k), Nat.succ_mul]
      omega
    · rw [List.filter_cons_of_neg (by simp; omega), List.filter_cons_of_neg (by simp; omega), ih,
        List.count_cons_of_ne (by omega)]

theorem takenSpace_filter_le (lengths : List Nat) (k : Nat) :
    takenSpace (lengths.filter (· ≤ k)) ≤ takenSpace lengths := by
  induction lengths with
  | nil => exact Nat.le_refl _
  | cons n rest ih =>
    by_cases hn : n ≤ k
    · rw [List.filter_cons_of_pos (by simpa using hn), takenSpace_cons, takenSpace_cons]
      omega
    · rw [List.filter_cons_of_neg (by simpa using hn), takenSpace_cons]
      omega

theorem takenSpace_filter_zero (lengths : List Nat) :
    takenSpace (lengths.filter (· ≤ 0)) = 0 := by
  induction lengths with
  | nil => rfl
  | cons n rest ih =>
    by_cases hn : n = 0
    · rw [List.filter_cons_of_pos (by simp [hn]), takenSpace_cons, ih, spaceOf, if_pos hn]
    · rw [List.filter_cons_of_neg (by simpa using hn), ih]

/-- The words of a length end where the space of the words up to it does. -/
theorem firstWord_mul (hk : k ≤ 15) :
    (firstWord lengths k + if k = 0 then 0 else lengths.count k) * 2 ^ (15 - k) =
      takenSpace (lengths.filter (· ≤ k)) := by
  induction k with
  | zero =>
    rw [takenSpace_filter_zero]
    simp [firstWord]
  | succ k ih =>
    have hdouble : 2 ^ (15 - k) = 2 * 2 ^ (15 - (k + 1)) := by
      rw [← Nat.pow_succ']
      congr 1
      omega
    rw [takenSpace_filter_succ, ← ih (by omega), if_neg (Nat.succ_ne_zero k), firstWord, hdouble,
      Nat.add_mul, Nat.mul_comm 2 (_ + _), Nat.mul_assoc]

/-- Where there is space for all words, those of a length have room in it. -/
theorem firstWord_add_count_le (hn : n ≠ 0) (hshort : n ≤ 15)
    (hspace : takenSpace lengths ≤ 2 ^ 15) :
    firstWord lengths n + lengths.count n ≤ 2 ^ n := by
  have hwords := @firstWord_mul lengths n hshort
  have hall := takenSpace_filter_le lengths n
  have hwhole : 2 ^ n * 2 ^ (15 - n) = 2 ^ 15 := by
    rw [← Nat.pow_add, Nat.add_sub_cancel' hshort]
  rw [if_neg hn] at hwords
  refine Nat.le_of_mul_le_mul_right ?_ (Nat.two_pow_pos (15 - n))
  rw [hwords, hwhole]
  exact Nat.le_trans hall hspace

end FirstWord

section Encoder

theorem toList_starts (lengths : List Nat) {m : Nat} (hm : m ≤ 16) :
    (List.range m).foldl
      (fun (starts : Array Nat) i =>
        if i = 0 then starts.push 0
        else starts.push ((starts.getD (i - 1) 0 +
          (if i = 1 then 0 else (occurrences 16 lengths).getD (i - 1) 0)) * 2)) #[] =
      ((List.range m).map (firstWord lengths)).toArray := by
  induction m with
  | zero => rfl
  | succ m ih =>
    rw [List.range_succ, List.foldl_append, ih (by omega), List.map_append, List.foldl_cons,
      List.foldl_nil]
    cases m with
    | zero => rfl
    | succ k =>
      have hbefore : ((List.range (k + 1)).map (firstWord lengths)).toArray.getD k 0 =
          firstWord lengths k := by
        simp [Array.getD_eq_getD_getElem?]
      have hone : k + 1 = 1 ↔ k = 0 := by omega
      simp only [Nat.succ_ne_zero, if_false, Nat.add_sub_cancel, hbefore,
        getD_occurrences lengths (show k < 16 by omega), hone, List.push_toArray, List.map_cons,
        List.map_nil, firstWord, Nat.mul_comm]

/-- The words of the symbols, given the next word of each length. -/
def wordsFrom (next : Array Nat) : List Nat → List Nat
  | [] => []
  | n :: rest =>
    if n = 0 then 0 :: wordsFrom next rest
    else next.getD n 0 :: wordsFrom (next.modify n (· + 1)) rest

theorem toList_foldl_words (lengths : List Nat) (next words : Array Nat) :
    (lengths.foldl
      (fun (state : Array Nat × Array Nat) n =>
        if n = 0 then (state.1, state.2.push 0)
        else (state.1.modify n (· + 1), state.2.push (state.1.getD n 0)))
      (next, words)).2.toList = words.toList ++ wordsFrom next lengths := by
  induction lengths generalizing next words with
  | nil => simp [wordsFrom]
  | cons n rest ih =>
    rw [List.foldl_cons, wordsFrom]
    split
    · rw [ih, Array.toList_push, List.append_assoc, List.singleton_append]
    · rw [ih, Array.toList_push, List.append_assoc, List.singleton_append]

theorem getElem?_wordsFrom {before after : List Nat} {n : Nat} (hn : n ≠ 0) {next : Array Nat}
    (hsize : n < next.size) :
    (wordsFrom next (before ++ n :: after))[before.length]? =
      some (next.getD n 0 + before.count n) := by
  induction before generalizing next with
  | nil => simp [wordsFrom, hn]
  | cons first rest ih =>
    rw [List.cons_append, wordsFrom, List.length_cons, List.count_cons]
    by_cases hfirst : first = 0
    · rw [if_pos hfirst, List.getElem?_cons_succ, ih hsize]
      have hne : ¬first = n := fun hsame => hn (hsame ▸ hfirst)
      simp [hne]
    · rw [if_neg hfirst, List.getElem?_cons_succ, ih (by rwa [Array.size_modify]),
        getD_modify _ hsize]
      by_cases hsame : first = n
      · simp [hsame]
        omega
      · simp [hsame]

/-- The word of a symbol comes after those of its length that earlier symbols have. -/
theorem getElem?_codeWords {before after : List Nat} {n : Nat} (hn : n ≠ 0) (hshort : n ≤ 15) :
    (codeWords (before ++ n :: after)).toList[before.length]? =
      some (firstWord (before ++ n :: after) n + before.count n) := by
  have hstarts := toList_starts (before ++ n :: after) (Nat.le_refl 16)
  rw [codeWords, toList_foldl_words, List.nil_append]
  rw [hstarts, getElem?_wordsFrom hn (by simp; omega)]
  simp [Array.getD_eq_getD_getElem?, show n < 16 by omega]

theorem wordBits_succ (width word : Nat) :
    wordBits (width + 1) word = wordBits width (word / 2) ++ [word.testBit 0] := by
  induction width with
  | zero => rfl
  | succ width ih => rw [wordBits, ih, Nat.testBit_succ, wordBits, List.cons_append]

theorem reverseBits_lt (width word : Nat) : reverseBits width word < 2 ^ width := by
  induction width generalizing word with
  | zero => simp [reverseBits]
  | succ width ih =>
    have hrest := ih (word / 2)
    have hbit : word % 2 ≤ 1 := by omega
    have hfirst := Nat.mul_le_mul_right (2 ^ width) hbit
    rw [reverseBits, Nat.shiftLeft_eq, Nat.pow_succ]
    omega

/-- A word that is put in reversed has its highest bit first. -/
theorem bitsOfNat_reverseBits (width word : Nat) :
    bitsOfNat width (reverseBits width word) = wordBits width word := by
  induction width generalizing word with
  | zero => rfl
  | succ width ih =>
    have hbits := bitsOfNat_add (reverseBits_lt width (word / 2)) 1 (word % 2)
    have hlast : bitsOfNat 1 (word % 2) = [word.testBit 0] := by
      rw [bitsOfNat, bitsOfNat, Nat.testBit_zero, Nat.testBit_zero, Nat.mod_mod]
    rw [reverseBits, Nat.shiftLeft_eq, Nat.add_comm (_ * _), hbits, ih, hlast, wordBits_succ]

/-- The bits of a symbol's word. -/
def Encoder.wordOf (encoder : Encoder) (symbol : Nat) : List Bool :=
  bitsOfNat (encoder.words.getD symbol (0, 0)).1 (encoder.words.getD symbol (0, 0)).2

theorem Encoder.wordOf_ofLengths {before after : List Nat} {n : Nat} (hn : n ≠ 0)
    (hshort : n ≤ 15) :
    (Encoder.ofLengths (before ++ n :: after)).wordOf before.length =
      wordBits n (firstWord (before ++ n :: after) n + before.count n) := by
  have hword := @getElem?_codeWords before after n hn hshort
  have hlength : (before ++ n :: after)[before.length]? = some n := by simp
  have hzip : ((codeWords (before ++ n :: after)).toList.zip (before ++ n :: after))[
      before.length]? = some (firstWord (before ++ n :: after) n + before.count n, n) :=
    List.getElem?_zip_eq_some.mpr ⟨hword, hlength⟩
  rw [wordOf, ofLengths, Array.getD_eq_getD_getElem?, List.getElem?_toArray, List.getElem?_map,
    hzip]
  exact bitsOfNat_reverseBits _ _

end Encoder

section Decoder

theorem count_eq_length_filter_zipIdx (lengths : List Nat) (n start : Nat) :
    ((lengths.zipIdx start).filter fun entry => entry.1 = n).length = lengths.count n := by
  induction lengths generalizing start with
  | nil => rfl
  | cons first rest ih =>
    rw [List.zipIdx_cons, List.filter_cons, List.count_cons]
    by_cases hsame : first = n <;> simp [hsame, ih]

/-- The symbols whose words have a length. -/
def symbolsOf (lengths : List Nat) (i : Nat) : List Nat :=
  if i = 0 then [] else (lengths.zipIdx.filter fun entry => entry.1 = i).map Prod.snd

theorem length_symbolsOf (lengths : List Nat) (i : Nat) :
    (symbolsOf lengths i).length = if i = 0 then 0 else lengths.count i := by
  rw [symbolsOf]
  split
  · rfl
  · rw [List.length_map, count_eq_length_filter_zipIdx]

theorem length_flatMap_symbolsOf (lengths : List Nat) (m : Nat) :
    ((List.range m).flatMap (symbolsOf lengths)).length = shorterWords lengths m := by
  induction m with
  | zero => rfl
  | succ m ih =>
    rw [List.range_succ, List.flatMap_append, List.length_append, ih, List.flatMap_singleton,
      length_symbolsOf, shorterWords]

/-- The symbols of one length follow those of the shorter ones. -/
theorem getElem?_flatMap_symbolsOf {lengths : List Nat} {n m r symbol : Nat} (hnm : n < m)
    (h : (symbolsOf lengths n)[r]? = some symbol) :
    ((List.range m).flatMap (symbolsOf lengths))[shorterWords lengths n + r]? = some symbol := by
  induction m with
  | zero => omega
  | succ m ih =>
    rw [List.range_succ, List.flatMap_append, List.flatMap_singleton]
    rcases Nat.lt_succ_iff_lt_or_eq.mp hnm with hlt | rfl
    · have hhere := ih hlt
      obtain ⟨hinside, -⟩ := List.getElem?_eq_some_iff.mp hhere
      rw [List.getElem?_append_left hinside]
      exact hhere
    · rw [List.getElem?_append_right (by rw [length_flatMap_symbolsOf]; omega),
        length_flatMap_symbolsOf, Nat.add_sub_cancel_left]
      exact h

theorem getElem?_symbolsOf {before after : List Nat} {n : Nat} (hn : n ≠ 0) :
    (symbolsOf (before ++ n :: after) n)[before.count n]? = some before.length := by
  have hlength : ((before.zipIdx.filter fun entry => entry.1 = n).map Prod.snd).length =
      before.count n := by
    rw [List.length_map, count_eq_length_filter_zipIdx]
  rw [symbolsOf, if_neg hn, List.zipIdx_append, List.filter_append, List.map_append,
    List.getElem?_append_right (Nat.le_of_eq hlength), hlength, Nat.sub_self, List.zipIdx_cons,
    List.filter_cons_of_pos (by simp)]
  simp

theorem getElem?_symbols {before after : List Nat} {n : Nat} (hn : n ≠ 0) (hshort : n ≤ 15) :
    (Decoder.ofLengths (before ++ n :: after)).symbols[
      shorterWords (before ++ n :: after) n + before.count n]? = some before.length := by
  rw [Decoder.ofLengths, List.getElem?_toArray]
  exact getElem?_flatMap_symbolsOf (by omega) (getElem?_symbolsOf hn)

/-- One more bit of a word is read. -/
theorem two_mul_div_add_testBit (word m : Nat) :
    2 * (word / 2 ^ (m + 1)) + (word.testBit m).toNat = word / 2 ^ m := by
  have hhalf : word / 2 ^ (m + 1) = word / 2 ^ m / 2 := by
    rw [Nat.pow_succ, Nat.div_div_eq_div_mul]
  have hbit : (word.testBit m).toNat = word / 2 ^ m % 2 := by
    rw [Nat.testBit_eq_decide_div_mod_eq]
    rcases Nat.mod_two_eq_zero_or_one (word / 2 ^ m) with hzero | hone
    · rw [hzero]
      rfl
    · rw [hone]
      rfl
  rw [hhalf, hbit]
  omega

variable {source : BitSource} {tail : List Bool}

section Levels

variable {lengths : List Nat} {k code first index : Nat} {bit : Bool} {next : BitSource}

theorem getD_counts_ofLengths (lengths : List Nat) (hk : k ≤ 15) :
    (Decoder.ofLengths lengths).counts.getD (15 - (15 - k)) 0 = lengths.count k := by
  rw [Nat.sub_sub_self hk]
  exact getD_occurrences _ (by omega)

/-- A word of the length that is reached ends here. -/
theorem symbolFrom?_of_lt (hk : k ≤ 15) (hnext : source.next? = some (bit, next))
    (hlt : code + bit.toNat < first + lengths.count k) :
    (Decoder.ofLengths lengths).symbolFrom? (15 - k + 1) code first index source =
      (Decoder.ofLengths lengths).symbols[index + (code + bit.toNat - first)]?.map (·, next) := by
  simp only [Decoder.symbolFrom?, hnext, Option.bind_eq_bind, Option.bind_some,
    getD_counts_ofLengths lengths hk, hlt, if_true]
  rw [Option.map_eq_bind]
  rfl

/-- A longer word goes on below those of the length that is reached. -/
theorem symbolFrom?_of_ge (hk : k ≤ 15) (hnext : source.next? = some (bit, next))
    (hge : first + lengths.count k ≤ code + bit.toNat) :
    (Decoder.ofLengths lengths).symbolFrom? (15 - k + 1) code first index source =
      (Decoder.ofLengths lengths).symbolFrom? (15 - k) (2 * (code + bit.toNat))
        (2 * (first + lengths.count k)) (index + lengths.count k) next := by
  simp only [Decoder.symbolFrom?, hnext, Option.bind_eq_bind, Option.bind_some,
    getD_counts_ofLengths lengths hk, Nat.not_lt.mpr hge, if_false]

end Levels

/-- A symbol is found from the bits of its word that are left when those above them have been
read. -/
theorem symbolFrom?_wordBits {before after : List Nat} {n : Nat} (hn : n ≠ 0) (hshort : n ≤ 15)
    {k m : Nat} (hk : k ≠ 0) (hlevel : k + m = n)
    (h : source.StandsAt (wordBits (m + 1)
      (firstWord (before ++ n :: after) n + before.count n) ++ tail)) :
    ∃ source', (Decoder.ofLengths (before ++ n :: after)).symbolFrom? (15 - k + 1)
        (2 * ((firstWord (before ++ n :: after) n + before.count n) / 2 ^ (m + 1)))
        (firstWord (before ++ n :: after) k) (shorterWords (before ++ n :: after) k) source =
          some (before.length, source') ∧ source'.StandsAt tail := by
  induction m generalizing k source with
  | zero =>
    have hsame : k = n := by omega
    subst hsame
    rw [wordBits, wordBits, List.cons_append, List.nil_append] at h
    obtain ⟨source', hnext, hsource'⟩ := BitSource.next?_cons h
    refine ⟨source', ?_, hsource'⟩
    have hcode := two_mul_div_add_testBit (firstWord (before ++ k :: after) k + before.count k) 0
    have hbelow : before.count k < (before ++ k :: after).count k := by
      rw [List.count_append, List.count_cons_self]
      omega
    rw [Nat.pow_zero, Nat.div_one] at hcode
    rw [symbolFrom?_of_lt hshort hnext (by omega), hcode, Nat.add_sub_cancel_left,
      getElem?_symbols hn hshort]
    rfl
  | succ m ih =>
    rw [wordBits, List.cons_append] at h
    obtain ⟨middle, hnext, hmiddle⟩ := BitSource.next?_cons h
    obtain ⟨source', hrest, hsource'⟩ := ih (k := k + 1) (Nat.succ_ne_zero k) (by omega) hmiddle
    refine ⟨source', ?_, hsource'⟩
    have hcode := two_mul_div_add_testBit
      (firstWord (before ++ n :: after) n + before.count n) (m + 1)
    -- the words of this length are all below the start of the longer one
    have hlong := @firstWord_le (before ++ n :: after) k hk m
    rw [show k + 1 + m = n by omega] at hlong
    have habove : firstWord (before ++ n :: after) k + (before ++ n :: after).count k ≤
        (firstWord (before ++ n :: after) n + before.count n) / 2 ^ (m + 1) := by
      rw [Nat.le_div_iff_mul_le (Nat.two_pow_pos _), Nat.mul_comm]
      omega
    rw [firstWord, if_neg hk, shorterWords, if_neg hk,
      show 15 - (k + 1) + 1 = 15 - k by omega] at hrest
    rw [symbolFrom?_of_ge (by omega) hnext (by omega), hcode]
    exact hrest

end Decoder

/-- A code that can be written and read: no word is too long, and there is space for all. -/
structure IsCode (lengths : List Nat) : Prop where
  short : ∀ n ∈ lengths, n ≤ 15
  space : takenSpace lengths ≤ 2 ^ 15

/-- A symbol that has a word. -/
def HasWord (lengths : List Nat) (symbol : Nat) : Prop :=
  ∃ n, lengths[symbol]? = some n ∧ n ≠ 0

theorem exists_split_of_hasWord {lengths : List Nat} {symbol : Nat} (h : HasWord lengths symbol) :
    ∃ before n after, lengths = before ++ n :: after ∧ before.length = symbol ∧ n ≠ 0 := by
  obtain ⟨n, hget, hn⟩ := h
  obtain ⟨hlt, rfl⟩ := List.getElem?_eq_some_iff.mp hget
  refine ⟨lengths.take symbol, lengths[symbol], lengths.drop (symbol + 1), ?_, by simp; omega, hn⟩
  rw [← List.drop_eq_getElem_cons hlt, List.take_append_drop]

/-- A symbol is read from its word. -/
theorem IsCode.symbol?_wordOf {lengths : List Nat} (hcode : IsCode lengths) {symbol : Nat}
    (hword : HasWord lengths symbol) {source : BitSource} {tail : List Bool}
    (h : source.StandsAt ((Encoder.ofLengths lengths).wordOf symbol ++ tail)) :
    ∃ source', (Decoder.ofLengths lengths).symbol? source = some (symbol, source') ∧
      source'.StandsAt tail := by
  obtain ⟨before, n, after, rfl, rfl, hn⟩ := exists_split_of_hasWord hword
  have hshort : n ≤ 15 := hcode.short n (by simp)
  have hroom := firstWord_add_count_le hn hshort hcode.space
  have hbelow : before.count n < (before ++ n :: after).count n := by
    rw [List.count_append, List.count_cons_self]
    omega
  rw [Encoder.wordOf_ofLengths hn hshort] at h
  obtain ⟨m, rfl⟩ := Nat.exists_eq_succ_of_ne_zero hn
  obtain ⟨source', hread, hsource'⟩ := symbolFrom?_wordBits hn hshort (k := 1) Nat.one_ne_zero
    (Nat.one_add m) h
  refine ⟨source', ?_, hsource'⟩
  rw [Nat.div_eq_of_lt (by omega)] at hread
  exact hread

/-- A symbol that has a word takes at least one bit. -/
theorem IsCode.wordOf_ne_nil {lengths : List Nat} (hcode : IsCode lengths) {symbol : Nat}
    (hword : HasWord lengths symbol) : (Encoder.ofLengths lengths).wordOf symbol ≠ [] := by
  obtain ⟨before, n, after, rfl, rfl, hn⟩ := exists_split_of_hasWord hword
  rw [Encoder.wordOf_ofLengths hn (hcode.short n (by simp))]
  obtain ⟨m, rfl⟩ := Nat.exists_eq_succ_of_ne_zero hn
  exact List.cons_ne_nil _ _

end Retarget.Deflate

import Retarget.Proofs.Deflate.Words

/-!
The symbols of a block. A token is put as the words of its symbols, each with the bits that tell the
lengths or distances of one symbol apart, and is read as the bytes it stands for. That holds for any
two codes that give words to all the symbols and are read back by the two decoders.
-/
namespace Retarget.Deflate

section Tables

/-- Each entry of a table reaches up to the next one, and the last up to the limit. -/
def Reaches (limit : Nat) : List (Nat × Nat) → Prop
  | [] => False
  | [entry] => limit < entry.1 + 2 ^ entry.2
  | entry :: next :: rest => next.1 ≤ entry.1 + 2 ^ entry.2 ∧ Reaches limit (next :: rest)

theorem exists_of_reaches {limit n : Nat} {entry : Nat × Nat} {rest : List (Nat × Nat)}
    (h : Reaches limit (entry :: rest)) (hleast : entry.1 ≤ n) (hlimit : n ≤ limit) :
    ∃ base extra, (entry :: rest)[((entry :: rest).takeWhile (·.1 ≤ n)).length - 1]? =
      some (base, extra) ∧ base ≤ n ∧ n < base + 2 ^ extra := by
  induction rest generalizing entry with
  | nil =>
    refine ⟨entry.1, entry.2, ?_, hleast, Nat.lt_of_le_of_lt hlimit h⟩
    rw [List.takeWhile_cons_of_pos (by simpa using hleast)]
    rfl
  | cons next rest ih =>
    obtain ⟨hnext, hrest⟩ := h
    rw [List.takeWhile_cons_of_pos (by simpa using hleast)]
    by_cases hmore : next.1 ≤ n
    · obtain ⟨base, extra, hget, hspan⟩ := ih hrest hmore
      refine ⟨base, extra, ?_, hspan⟩
      rw [List.takeWhile_cons_of_pos (by simpa using hmore)] at hget ⊢
      exact hget
    · refine ⟨entry.1, entry.2, ?_, hleast, by omega⟩
      rw [List.takeWhile_cons_of_neg (by simpa using hmore)]
      rfl

/-- A number is the base of its symbol and what its extra bits tell. -/
theorem exists_symbolFor {bases : Array (Nat × Nat)} {limit n : Nat} {entry : Nat × Nat}
    {rest : List (Nat × Nat)} (hbases : bases.toList = entry :: rest)
    (h : Reaches limit bases.toList) (hleast : entry.1 ≤ n) (hlimit : n ≤ limit) :
    ∃ symbol more extra base, symbolFor bases n = (symbol, more, extra) ∧
      bases[symbol]? = some (base, extra) ∧ base + more = n ∧ more < 2 ^ extra := by
  rw [hbases] at h
  obtain ⟨base, extra, hget, hbase, hmore⟩ := exists_of_reaches h hleast hlimit
  rw [← hbases, Array.getElem?_toList] at hget
  refine ⟨_, n - base, extra, base, ?_, hget, by omega, by omega⟩
  simp only [symbolFor, Array.getD_eq_getD_getElem?, hget, Option.getD_some]

theorem extra_lengthBases_le : ∀ entry ∈ lengthBases.toList, entry.2 ≤ 13 := by decide

theorem extra_distanceBases_le : ∀ entry ∈ distanceBases.toList, entry.2 ≤ 13 := by decide

theorem exists_lengthSymbol {length : Nat} (hleast : 3 ≤ length) (hmost : length ≤ 258) :
    ∃ symbol more extra base, symbolFor lengthBases length = (symbol, more, extra) ∧
      lengthBases[symbol]? = some (base, extra) ∧ base + more = length ∧ more < 2 ^ extra :=
  exists_symbolFor rfl (by simp [lengthBases, Reaches]) hleast hmost

theorem exists_distanceSymbol {distance : Nat} (hleast : 1 ≤ distance) (hmost : distance ≤ 32768) :
    ∃ symbol more extra base, symbolFor distanceBases distance = (symbol, more, extra) ∧
      distanceBases[symbol]? = some (base, extra) ∧ base + more = distance ∧ more < 2 ^ extra :=
  exists_symbolFor rfl (by simp [distanceBases, Reaches]) hleast hmost

end Tables

section Codes

/-- A symbol that has a word in one code is read from it by the decoder. -/
structure Inverts (decoder : Decoder) (encoder : Encoder) (symbol : Nat) : Prop where
  word_ne_nil : encoder.wordOf symbol ≠ []
  symbol?_eq : ∀ {source : BitSource} {tail : List Bool},
    source.StandsAt (encoder.wordOf symbol ++ tail) →
      ∃ source', decoder.symbol? source = some (symbol, source') ∧ source'.StandsAt tail

theorem IsCode.inverts {lengths : List Nat} (hcode : IsCode lengths) {symbol : Nat}
    (hword : HasWord lengths symbol) :
    Inverts (.ofLengths lengths) (.ofLengths lengths) symbol :=
  ⟨hcode.wordOf_ne_nil hword, fun h => hcode.symbol?_wordOf hword h⟩

theorem firstWord_append_zeros (lengths : List Nat) (m k : Nat) :
    firstWord (lengths ++ List.replicate m 0) k = firstWord lengths k := by
  induction k with
  | zero => rfl
  | succ k ih =>
    rw [firstWord, firstWord, ih]
    split
    · rfl
    · next hk => rw [List.count_append, List.count_replicate, if_neg (by simpa using Ne.symm hk),
        Nat.add_zero]

/-- Symbols without words at the end of a code change no word. -/
theorem wordOf_append_zeros {lengths : List Nat} (hcode : IsCode lengths) {symbol : Nat}
    (hword : HasWord lengths symbol) (m : Nat) :
    (Encoder.ofLengths (lengths ++ List.replicate m 0)).wordOf symbol =
      (Encoder.ofLengths lengths).wordOf symbol := by
  obtain ⟨before, n, after, rfl, rfl, hn⟩ := exists_split_of_hasWord hword
  have hshort : n ≤ 15 := hcode.short n (by simp)
  rw [Encoder.wordOf_ofLengths hn hshort, List.append_assoc, List.cons_append,
    Encoder.wordOf_ofLengths hn hshort, ← List.cons_append, ← List.append_assoc,
    firstWord_append_zeros]

theorem IsCode.inverts_append_zeros {lengths : List Nat} (hcode : IsCode lengths) {symbol : Nat}
    (hword : HasWord lengths symbol) (m : Nat) :
    Inverts (.ofLengths lengths) (.ofLengths (lengths ++ List.replicate m 0)) symbol := by
  obtain ⟨hne, hread⟩ := hcode.inverts hword
  rw [← wordOf_append_zeros hcode hword m] at hne
  refine ⟨hne, fun h => hread ?_⟩
  rwa [wordOf_append_zeros hcode hword m] at h

variable {sink : BitSink} {lengths : List Nat}

theorem width_le (hshort : ∀ n ∈ lengths, n ≤ 15) (symbol : Nat) :
    ((Encoder.ofLengths lengths).words.getD symbol (0, 0)).1 ≤ 15 := by
  rw [Encoder.ofLengths, Array.getD_eq_getD_getElem?, List.getElem?_toArray, List.getElem?_map]
  cases hget : ((codeWords lengths).toList.zip lengths)[symbol]? with
  | none => exact Nat.zero_le _
  | some pair =>
    exact hshort pair.2 (List.of_mem_zip (List.mem_of_getElem? hget)).2

theorem bits_putSymbol (htidy : sink.Tidy) (hshort : ∀ n ∈ lengths, n ≤ 15) (symbol : Nat) :
    ((Encoder.ofLengths lengths).put symbol sink).bits =
        sink.bits ++ (Encoder.ofLengths lengths).wordOf symbol ∧
      ((Encoder.ofLengths lengths).put symbol sink).Tidy :=
  BitSink.bits_put htidy (Nat.le_trans (width_le hshort symbol) (by decide)) _

end Codes

section Tokens

/-- What follows the word of a token's first symbol. -/
def Token.bitsAfter (distances : Encoder) : Token → List Bool
  | .literal _ => []
  | .copy length distance =>
    let (_, more, extra) := symbolFor lengthBases length
    let (symbol, distanceMore, distanceExtra) := symbolFor distanceBases distance
    bitsOfNat extra more ++ (distances.wordOf symbol ++ bitsOfNat distanceExtra distanceMore)

def Token.bits (literals distances : Encoder) (token : Token) : List Bool :=
  literals.wordOf token.literalSymbol ++ token.bitsAfter distances

/-- A copy that the format has symbols for. -/
def Token.IsPlain : Token → Prop
  | .literal _ => True
  | .copy length distance => 3 ≤ length ∧ length ≤ 258 ∧ 1 ≤ distance ∧ distance ≤ 32768

/-- What a token adds to the bytes written before. -/
def Token.expand (out : Array UInt8) : Token → Array UInt8
  | .literal b => out.push b
  | .copy length distance => copyBack length distance out

variable {sink : BitSink} {literals distances : List Nat}

theorem bits_putToken (htidy : sink.Tidy) (hliterals : ∀ n ∈ literals, n ≤ 15)
    (hdistances : ∀ n ∈ distances, n ≤ 15) {token : Token} (hplain : token.IsPlain) :
    (putToken (.ofLengths literals) (.ofLengths distances) sink token).bits =
        sink.bits ++ token.bits (.ofLengths literals) (.ofLengths distances) ∧
      (putToken (.ofLengths literals) (.ofLengths distances) sink token).Tidy := by
  obtain ⟨hbits, htidy⟩ := bits_putSymbol htidy hliterals token.literalSymbol
  cases token with
  | literal b => exact ⟨by simpa [putToken, Token.bits, Token.bitsAfter] using hbits, htidy⟩
  | copy length distance =>
    obtain ⟨hshortest, hlongest, hnearest, hfarthest⟩ := hplain
    obtain ⟨symbol, more, extra, base, hlength, hget, -, -⟩ :=
      exists_lengthSymbol hshortest hlongest
    obtain ⟨symbol', more', extra', base', hdistance, hget', -, -⟩ :=
      exists_distanceSymbol hnearest hfarthest
    have hextra := extra_lengthBases_le _ (Array.mem_toList_iff.mpr (Array.mem_of_getElem? hget))
    have hextra' :=
      extra_distanceBases_le _ (Array.mem_toList_iff.mpr (Array.mem_of_getElem? hget'))
    obtain ⟨hbits₁, htidy₁⟩ := BitSink.bits_put htidy (show extra ≤ 32 by omega) more
    obtain ⟨hbits₂, htidy₂⟩ := bits_putSymbol htidy₁ hdistances symbol'
    obtain ⟨hbits₃, htidy₃⟩ := BitSink.bits_put htidy₂ (show extra' ≤ 32 by omega) more'
    simp only [putToken, Token.bits, Token.bitsAfter, hlength, hdistance]
    refine ⟨?_, htidy₃⟩
    rw [hbits₃, hbits₂, hbits₁, hbits]
    simp only [List.append_assoc]

theorem bits_putTokens (htidy : sink.Tidy) (hliterals : ∀ n ∈ literals, n ≤ 15)
    (hdistances : ∀ n ∈ distances, n ≤ 15) {tokens : List Token}
    (hplain : ∀ token ∈ tokens, token.IsPlain) :
    (putTokens (.ofLengths literals) (.ofLengths distances) tokens sink).bits =
        sink.bits ++ (tokens.flatMap (Token.bits (.ofLengths literals) (.ofLengths distances)) ++
          (Encoder.ofLengths literals).wordOf 256) ∧
      (putTokens (.ofLengths literals) (.ofLengths distances) tokens sink).Tidy := by
  induction tokens generalizing sink with
  | nil => exact bits_putSymbol htidy hliterals 256
  | cons token rest ih =>
    obtain ⟨hfirst, hrest⟩ := List.forall_mem_cons.mp hplain
    obtain ⟨hbits, hnext⟩ := bits_putToken htidy hliterals hdistances hfirst
    obtain ⟨hbits', hlast⟩ := ih hnext hrest
    refine ⟨hbits'.trans ?_, hlast⟩
    rw [hbits, List.flatMap_cons]
    simp only [List.append_assoc]

variable {literalDecoder distanceDecoder : Decoder} {literalEncoder distanceEncoder : Encoder}

/-- The decoders read all symbols of a token from the words of the encoders. -/
structure ReadsToken (literalDecoder distanceDecoder : Decoder)
    (literalEncoder distanceEncoder : Encoder) (token : Token) : Prop where
  plain : token.IsPlain
  literal : Inverts literalDecoder literalEncoder token.literalSymbol
  distance : ∀ symbol ∈ token.distanceSymbol?, Inverts distanceDecoder distanceEncoder symbol

theorem inflateSymbols_token {token : Token}
    (h : ReadsToken literalDecoder distanceDecoder literalEncoder distanceEncoder token)
    {source : BitSource} {tail : List Bool}
    (hsource : source.StandsAt (token.bits literalEncoder distanceEncoder ++ tail))
    (fuel : Nat) (out : Array UInt8) :
    ∃ source', inflateSymbols literalDecoder distanceDecoder (fuel + 1) source out =
        inflateSymbols literalDecoder distanceDecoder fuel source' (token.expand out) ∧
      source'.StandsAt tail := by
  obtain ⟨hplain, hliteral, hdistances⟩ := h
  rw [Token.bits, List.append_assoc] at hsource
  obtain ⟨source₁, hread, hsource₁⟩ := hliteral.symbol?_eq hsource
  cases token with
  | literal b =>
    refine ⟨source₁, ?_, hsource₁⟩
    have hbyte : b.toNat < 256 := b.toNat_lt
    simp only [Token.literalSymbol] at hread
    simp only [inflateSymbols, hread, Option.bind_eq_bind, Option.bind_some, hbyte, if_true,
      UInt8.ofNat_toNat, Token.expand]
  | copy length distance =>
    obtain ⟨hshortest, hlongest, hnearest, hfarthest⟩ := hplain
    obtain ⟨symbol, more, extra, base, hlength, hget, hsum, hmore⟩ :=
      exists_lengthSymbol hshortest hlongest
    obtain ⟨symbol', more', extra', base', hdistance, hget', hsum', hmore'⟩ :=
      exists_distanceSymbol hnearest hfarthest
    simp only [Token.bitsAfter, hlength, hdistance, List.append_assoc] at hsource₁
    obtain ⟨source₂, hread₂, hsource₂⟩ := BitSource.number?_of_lt hmore hsource₁
    have hinverts := hdistances symbol' (by simp [Token.distanceSymbol?, hdistance])
    obtain ⟨source₃, hread₃, hsource₃⟩ := hinverts.symbol?_eq hsource₂
    obtain ⟨source₄, hread₄, hsource₄⟩ := BitSource.number?_of_lt hmore' hsource₃
    refine ⟨source₄, ?_, hsource₄⟩
    have hlarge : ¬257 + symbol < 256 := by omega
    have hgoes : 257 + symbol ≠ 256 := by omega
    simp only [Token.literalSymbol, hlength] at hread
    simp only [inflateSymbols, hread, Option.bind_eq_bind, Option.bind_some, hlarge, hgoes,
      if_false, Nat.add_sub_cancel_left, hget, hread₂, hread₃, hget', hread₄, hsum, hsum',
      Token.expand]

/-- Tokens are read up to the end of their block, each with its own fuel. -/
theorem inflateSymbols_tokens {tokens : List Token}
    (htokens : ∀ token ∈ tokens,
      ReadsToken literalDecoder distanceDecoder literalEncoder distanceEncoder token)
    (hlast : Inverts literalDecoder literalEncoder 256) {source : BitSource} {tail : List Bool}
    (hsource : source.StandsAt (tokens.flatMap (Token.bits literalEncoder distanceEncoder) ++
      (literalEncoder.wordOf 256 ++ tail))) {fuel : Nat} (hfuel : tokens.length < fuel)
    (out : Array UInt8) :
    ∃ source', inflateSymbols literalDecoder distanceDecoder fuel source out =
        some (source', tokens.foldl Token.expand out) ∧ source'.StandsAt tail := by
  induction tokens generalizing source fuel out with
  | nil =>
    obtain ⟨fuel, rfl⟩ := Nat.exists_eq_succ_of_ne_zero (Nat.ne_zero_of_lt hfuel)
    obtain ⟨source', hread, hsource'⟩ := hlast.symbol?_eq hsource
    refine ⟨source', ?_, hsource'⟩
    simp [inflateSymbols, hread]
  | cons token rest ih =>
    obtain ⟨fuel, rfl⟩ := Nat.exists_eq_succ_of_ne_zero (Nat.ne_zero_of_lt hfuel)
    obtain ⟨hfirst, hrest⟩ := List.forall_mem_cons.mp htokens
    rw [List.flatMap_cons, List.append_assoc] at hsource
    obtain ⟨source₁, hstep, hsource₁⟩ := inflateSymbols_token hfirst hsource fuel out
    obtain ⟨source', hread, hsource'⟩ :=
      ih hrest hsource₁ (Nat.lt_of_succ_lt_succ hfuel) (token.expand out)
    exact ⟨source', hstep.trans hread, hsource'⟩

end Tokens

end Retarget.Deflate

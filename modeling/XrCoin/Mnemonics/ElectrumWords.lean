import Mathlib
import XrCoin.Mnemonics.Language

/-!
Mnemonic seeds: four bytes as three words of a list, and a checksum word behind them.

Three indices stand for a number in a base that is the length of the list, each index written as its
distance from the one before. The sum is taken in 32 bits, and triples that have no room there are
found by the remainder of the sum.
-/

namespace XrCoin.Mnemonics

/-! ### Strings -/

def splitLoop : List UInt8 → Bool → List Word → List Word
  | [], _, fields => fields
  | c :: s, space, fields =>
      if c ≠ 32 then
        let fields := if space then fields ++ [[]] else fields
        splitLoop s false (fields.modifyLast (· ++ [c]))
      else splitLoop s true fields

def split (s : List UInt8) : List Word := splitLoop s true []

/-- Four bytes as they stand in memory, the lowest first. -/
def readWord32 (src : List UInt8) : UInt32 :=
  UInt32.ofNat ((src.getD 0 0).toNat + 2 ^ 8 * (src.getD 1 0).toNat +
    2 ^ 16 * (src.getD 2 0).toNat + 2 ^ 24 * (src.getD 3 0).toNat)

def writeWord32 (w : UInt32) : List UInt8 :=
  [UInt8.ofNat w.toNat, UInt8.ofNat (w.toNat / 2 ^ 8), UInt8.ofNat (w.toNat / 2 ^ 16),
    UInt8.ofNat (w.toNat / 2 ^ 24)]

/-! ### Triples -/

def numberTriple (wordListLength w0 : UInt32) : UInt32 × UInt32 × UInt32 :=
  let w1 := w0 % wordListLength
  let w2 := (w0 / wordListLength + w1) % wordListLength
  let w3 := (w0 / wordListLength / wordListLength + w2) % wordListLength
  (w1, w2, w3)

def tripleNumber (wordListLength w1 w2 w3 : UInt32) : UInt32 :=
  w1 + wordListLength * (((wordListLength - w1) + w2) % wordListLength) +
    wordListLength * wordListLength * (((wordListLength - w2) + w3) % wordListLength)

/-- The four bytes of a triple, unless it is rejected. -/
def decodeTriple (wordListLength w1 w2 w3 : UInt32) : Option UInt32 :=
  let w0 := tripleNumber wordListLength w1 w2 w3
  if w0 % wordListLength = w1 then some w0 else none

/-! ### Checksums -/

def seedLength : ℕ := 24

section Checksums

variable (crc32 : List UInt8 → UInt32)

def createChecksumIndex (wordList : List Word) (uniquePrefixLength : ℕ) : ℕ :=
  (crc32 (wordList.flatMap (trimWord uniquePrefixLength))).toNat % seedLength

/-- `checksum_test`. A place that is not in the seed fails it. -/
def checksumTest (seed : List Word) (uniquePrefixLength : ℕ) : Bool :=
  match seed.getLast? with
  | none => false
  | some lastWord =>
      let seed := seed.dropLast
      match seed[createChecksumIndex crc32 seed uniquePrefixLength]? with
      | none => false
      | some checksum => trimWord uniquePrefixLength checksum = trimWord uniquePrefixLength lastWord

/-! ### Words to bytes -/

def matchSeed (lang : Language) (hasChecksum : Bool) (seed : List Word) : Option (List UInt32) :=
  seed.mapM fun word =>
    if hasChecksum then lang.trimmedWordMap.lookup (utf8Prefix word lang.uniquePrefixLength)
    else lang.wordMap.lookup word

/-- The loop of `find_seed_language` over the languages, with the fallback so far. -/
def findSeedLanguage (seed : List Word) (hasChecksum : Bool) :
    List Language → Option Language → Option (Language × List UInt32)
  | [], fallback => fallback.map fun lang => (lang, [])
  | lang :: languages, fallback =>
      match matchSeed lang hasChecksum seed with
      | none => findSeedLanguage seed hasChecksum languages fallback
      | some matchedIndices =>
          if hasChecksum ∧ ¬checksumTest crc32 seed lang.uniquePrefixLength then
            findSeedLanguage seed hasChecksum languages (some lang)
          else some (lang, matchedIndices)

/-- The loop of `words_to_bytes` over the triples. There are at least as many indices as words. -/
def decodeTriples (wordListLength : UInt32) :
    ℕ → List UInt32 → List UInt8 → Except String (List UInt8)
  | i + 1, w1 :: w2 :: w3 :: matchedIndices, dst =>
      match decodeTriple wordListLength w1 w2 w3 with
      | none => .error "Invalid seed: mumble mumble"
      | some w0 => decodeTriples wordListLength i matchedIndices (dst ++ writeWord32 w0)
  | _, _, dst => .ok dst

def wordsToBytes (languages : List Language) (words dst : List UInt8) (len : ℕ) (duplicate : Bool) :
    Except String (List UInt8 × Word) :=
  let seed := split words
  let expected := len * 8 * 3 / 32
  if len % 4 ≠ 0 then .error "Invalid seed: not a multiple of 4"
  else if len ≠ 0 ∧ seed.length ≠ expected / 2 ∧ seed.length ≠ expected ∧
      seed.length ≠ expected + 1 then
    .error "Invalid seed: unexpected number of words"
  else
    let hasChecksum : Bool := len = 0 ∨ seed.length = expected + 1
    match findSeedLanguage crc32 seed hasChecksum languages none with
    | none => .error "Invalid seed: language not found"
    | some (lang, matchedIndices) =>
        if hasChecksum ∧ ¬checksumTest crc32 seed lang.uniquePrefixLength then
          .error "Invalid seed: invalid checksum"
        else
          let seed := if hasChecksum then seed.dropLast else seed
          match decodeTriples lang.wordList.length.toUInt32 (seed.length / 3) matchedIndices dst with
          | .error e => .error e
          | .ok dst =>
              if 0 < len ∧ duplicate ∧ seed.length = len * 3 / 32 / 2 then
                .ok (dst ++ [32] ++ dst, lang.languageName)
              else .ok (dst, lang.languageName)

/-- `words_to_bytes` for a secret key. -/
def wordsToKey (languages : List Language) (words : List UInt8) :
    Except String (List UInt8 × Word) :=
  match wordsToBytes crc32 languages words [] 32 true with
  | .error _ => .error "Invalid seed: failed to convert words to bytes"
  | .ok (s, languageName) =>
      if s.length ≠ 32 then .error "Invalid seed: wrong output size" else .ok (s, languageName)

/-! ### Bytes to words -/

/-- The loop of `bytes_to_words`, with the words so far and the store of them. -/
def encodeTriples (wordList : List Word) :
    ℕ → List UInt8 → List UInt8 × List Word → List UInt8 × List Word
  | 0, _, out => out
  | i + 1, src, (words, wordsStore) =>
      let w := numberTriple wordList.length.toUInt32 (readWord32 src)
      let word1 := wordList.getD w.1.toNat []
      let word2 := wordList.getD w.2.1.toNat []
      let word3 := wordList.getD w.2.2.toNat []
      encodeTriples wordList i (src.drop 4)
        (words ++ word1 ++ [32] ++ word2 ++ [32] ++ word3 ++ [32],
          wordsStore ++ [word1, word2, word3])

/-- The language of a name: the last one that has it. -/
def languageNamed (languages : List Language) (languageName : Word) : Option Language :=
  languages.reverse.find? fun lang =>
    languageName = lang.languageName ∨ languageName = lang.englishLanguageName

/-- `bytes_to_words`. A checksum that is not in the store fails it. -/
def bytesToWords (languages : List Language) (src words : List UInt8) (languageName : Word) :
    Option (List UInt8) :=
  if src.length % 4 ≠ 0 ∨ src.length = 0 then none
  else
    match languageNamed languages languageName with
    | none => none
    | some lang =>
        let out := encodeTriples lang.wordList (src.length / 4) src (words, [])
        match out.2[createChecksumIndex crc32 out.2 lang.uniquePrefixLength]? with
        | none => none
        | some checksum => some (out.1 ++ checksum)

end Checksums

/-! ### Numbers and triples -/

theorem distance_add {x y : ℕ} (hx : x < 1626) (hy : y < 1626) :
    ((1626 - x + y) % 1626 + x) % 1626 = y := by
  omega

theorem add_distance {x a : ℕ} (hx : x < 1626) (ha : a < 1626) :
    (1626 - x + (a + x) % 1626) % 1626 = a := by
  omega

theorem toNat_distance {w w' : UInt32} (h : w.toNat < 1626) (h' : w'.toNat < 1626) :
    (((1626 : UInt32) - w + w') % 1626).toNat = (1626 - w.toNat + w'.toNat) % 1626 := by
  have hlength : (1626 : UInt32).toNat = 1626 := rfl
  rw [UInt32.toNat_mod, UInt32.toNat_add, UInt32.toNat_sub, hlength]
  omega

theorem toNat_tripleNumber {w1 w2 w3 : UInt32} (h1 : w1.toNat < 1626) (h2 : w2.toNat < 1626)
    (h3 : w3.toNat < 1626) :
    (tripleNumber 1626 w1 w2 w3).toNat =
      (w1.toNat + 1626 * ((1626 - w1.toNat + w2.toNat) % 1626) +
        1626 * 1626 * ((1626 - w2.toNat + w3.toNat) % 1626)) % 2 ^ 32 := by
  have hlength : (1626 : UInt32).toNat = 1626 := rfl
  rw [tripleNumber, UInt32.toNat_add, UInt32.toNat_add, UInt32.toNat_mul, UInt32.toNat_mul,
    UInt32.toNat_mul, toNat_distance h1 h2, toNat_distance h2 h3, hlength]
  omega

theorem toNat_add_mod {v w : UInt32} {m n : ℕ} (hv : v.toNat = m) (hw : w.toNat = n)
    (hfits : m + n < 2 ^ 32) : ((v + w) % 1626).toNat = (m + n) % 1626 := by
  have hlength : (1626 : UInt32).toNat = 1626 := rfl
  rw [UInt32.toNat_mod, UInt32.toNat_add, hv, hw, Nat.mod_eq_of_lt hfits, hlength]

theorem numberTriple_eq {w0 : UInt32} {x a b : ℕ} (hx : x < 1626) (ha : a < 1626)
    (hw0 : w0.toNat = x + 1626 * (a + 1626 * b)) :
    (numberTriple 1626 w0).1.toNat = x ∧ (numberTriple 1626 w0).2.1.toNat = (a + x) % 1626 ∧
      (numberTriple 1626 w0).2.2.toNat = (b + (a + x) % 1626) % 1626 := by
  have hlength : (1626 : UInt32).toNat = 1626 := rfl
  have hlt := w0.toNat_lt
  have hquotient : (w0 / 1626).toNat = a + 1626 * b := by
    rw [UInt32.toNat_div, hlength, hw0]
    omega
  have hlast : (w0 / 1626 / 1626).toNat = b := by
    rw [UInt32.toNat_div, hlength, hquotient]
    omega
  have hfirst : (w0 % 1626).toNat = x := by
    rw [UInt32.toNat_mod, hlength, hw0]
    omega
  have hsecond : ((w0 / 1626 + w0 % 1626) % 1626).toNat = (a + x) % 1626 := by
    rw [toNat_add_mod hquotient hfirst (by omega)]
    omega
  exact ⟨hfirst, hsecond, toNat_add_mod hlast hsecond (by omega)⟩

theorem numberTriple_lt (w0 : UInt32) : (numberTriple 1626 w0).1.toNat < 1626 ∧
    (numberTriple 1626 w0).2.1.toNat < 1626 ∧ (numberTriple 1626 w0).2.2.toNat < 1626 := by
  refine ⟨?_, ?_, ?_⟩
  all_goals
    rw [numberTriple, UInt32.toNat_mod]
    exact Nat.mod_lt _ (by decide)

theorem decodeTriple_numberTriple (w0 : UInt32) :
    decodeTriple 1626 (numberTriple 1626 w0).1 (numberTriple 1626 w0).2.1
      (numberTriple 1626 w0).2.2 = some w0 := by
  have hlt := w0.toNat_lt
  obtain ⟨hfirst, hsecond, hthird⟩ := numberTriple_lt w0
  have hsum := toNat_tripleNumber hfirst hsecond hthird
  have hdigits : w0.toNat = w0.toNat % 1626 +
      1626 * (w0.toNat / 1626 % 1626 + 1626 * (w0.toNat / 1626 / 1626)) := by omega
  obtain ⟨h1, h2, h3⟩ := numberTriple_eq (by omega) (by omega) hdigits
  rw [h1, h2, h3] at hsum
  generalize hx : w0.toNat % 1626 = x at *
  generalize ha : w0.toNat / 1626 % 1626 = a at *
  generalize hb : w0.toNat / 1626 / 1626 = b at *
  have hbLt : b < 1626 := by omega
  rw [add_distance (by omega) (by omega), add_distance (by omega) hbLt] at hsum
  have hsame : tripleNumber 1626 (numberTriple 1626 w0).1 (numberTriple 1626 w0).2.1
      (numberTriple 1626 w0).2.2 = w0 := by
    rw [← UInt32.toNat_inj, hsum]
    omega
  rw [decodeTriple, hsame]
  exact if_pos rfl

theorem sum_of_remainder {w0 x c : ℕ} (hc : c < 1626 * 1626)
    (hsum : w0 = (x + 1626 * c) % 2 ^ 32) (hremainder : w0 % 1626 = x) : w0 = x + 1626 * c := by
  rcases Nat.lt_or_ge (x + 1626 * c) (2 ^ 32) with hroom | hwrap
  · rw [hsum, Nat.mod_eq_of_lt hroom]
  · have hless : w0 + 2 ^ 32 = x + 1626 * c := by omega
    have hdigits := Nat.mod_add_div w0 1626
    omega

/-- A triple that is not rejected is the one of its number: a sum without room in 32 bits leaves
another remainder than the first index. -/
theorem numberTriple_of_decodeTriple {w1 w2 w3 w0 : UInt32} (h1 : w1.toNat < 1626)
    (h2 : w2.toNat < 1626) (h3 : w3.toNat < 1626) (h : decodeTriple 1626 w1 w2 w3 = some w0) :
    numberTriple 1626 w0 = (w1, w2, w3) := by
  rw [decodeTriple] at h
  split at h
  · rename_i hfirst
    have hlength : (1626 : UInt32).toNat = 1626 := rfl
    have hremainder : (tripleNumber 1626 w1 w2 w3).toNat % 1626 = w1.toNat := by
      rw [← congrArg UInt32.toNat hfirst, UInt32.toNat_mod, hlength]
    have hsum := toNat_tripleNumber h1 h2 h3
    rw [Option.some.inj h] at hremainder hsum
    generalize ha : (1626 - w1.toNat + w2.toNat) % 1626 = a at hsum
    generalize hb : (1626 - w2.toNat + w3.toNat) % 1626 = b at hsum
    have haLt : a < 1626 := ha ▸ Nat.mod_lt _ (by decide)
    have hbLt : b < 1626 := hb ▸ Nat.mod_lt _ (by decide)
    have hdigits : w1.toNat + 1626 * a + 1626 * 1626 * b = w1.toNat + 1626 * (a + 1626 * b) := by
      omega
    rw [hdigits] at hsum
    have hroom := sum_of_remainder (by omega) hsum hremainder
    obtain ⟨hone, htwo, hthree⟩ := numberTriple_eq h1 haLt hroom
    rw [← ha, distance_add h1 h2] at htwo hthree
    rw [← hb, distance_add h2 h3] at hthree
    exact Prod.ext (UInt32.toNat_inj.mp hone)
      (Prod.ext (UInt32.toNat_inj.mp htwo) (UInt32.toNat_inj.mp hthree))
  · cases h

theorem writeWord32_readWord32 {src : List UInt8} (h : 4 ≤ src.length) :
    writeWord32 (readWord32 src) = src.take 4 := by
  match src, h with
  | b0 :: b1 :: b2 :: b3 :: rest, _ =>
      have h0 := b0.toNat_lt
      have h1 := b1.toNat_lt
      have h2 := b2.toNat_lt
      have h3 := b3.toNat_lt
      have hvalue : (readWord32 (b0 :: b1 :: b2 :: b3 :: rest)).toNat =
          b0.toNat + 2 ^ 8 * b1.toNat + 2 ^ 16 * b2.toNat + 2 ^ 24 * b3.toNat :=
        UInt32.toNat_ofNat_of_lt' (by
          show b0.toNat + 2 ^ 8 * b1.toNat + 2 ^ 16 * b2.toNat + 2 ^ 24 * b3.toNat < 2 ^ 32
          omega)
      have hbyte {n : ℕ} {b : UInt8} (hn : n % 2 ^ 8 = b.toNat) : UInt8.ofNat n = b := by
        rw [← UInt8.toNat_inj, UInt8.toNat_ofNat', hn]
      rw [writeWord32, hvalue, hbyte (b := b0) (by omega), hbyte (b := b1) (by omega),
        hbyte (b := b2) (by omega), hbyte (b := b3) (by omega)]
      rfl

theorem readWord32_writeWord32 (w : UInt32) (rest : List UInt8) :
    readWord32 (writeWord32 w ++ rest) = w := by
  have hw := w.toNat_lt
  have hsum : readWord32 (writeWord32 w ++ rest) = UInt32.ofNat (w.toNat % 2 ^ 8 +
      2 ^ 8 * (w.toNat / 2 ^ 8 % 2 ^ 8) + 2 ^ 16 * (w.toNat / 2 ^ 16 % 2 ^ 8) +
        2 ^ 24 * (w.toNat / 2 ^ 24 % 2 ^ 8)) := by
    simp [readWord32, writeWord32]
  have hdigits : w.toNat % 2 ^ 8 + 2 ^ 8 * (w.toNat / 2 ^ 8 % 2 ^ 8) +
      2 ^ 16 * (w.toNat / 2 ^ 16 % 2 ^ 8) + 2 ^ 24 * (w.toNat / 2 ^ 24 % 2 ^ 8) = w.toNat := by
    omega
  rw [hsum, hdigits, UInt32.ofNat_toNat]

/-! ### Seeds -/

/-- A word of a list: it is not empty, and no blank divides it. -/
def IsWord (word : Word) : Prop := word ≠ [] ∧ 32 ∉ word

instance (word : Word) : Decidable (IsWord word) := inferInstanceAs (Decidable (_ ∧ _))

theorem splitLoop_append {word rest : List UInt8} (h : 32 ∉ word) (fields : List Word)
    (field : Word) :
    splitLoop (word ++ rest) false (fields ++ [field]) =
      splitLoop rest false (fields ++ [field ++ word]) := by
  induction word generalizing field with
  | nil => simp
  | cons c word ih =>
      have hc : c ≠ 32 := fun hc => h (hc ▸ List.mem_cons_self)
      rw [List.cons_append, splitLoop, if_pos hc]
      simp only [Bool.false_eq_true, if_false, List.modifyLast_concat]
      rw [ih fun hmem => h (List.mem_cons_of_mem _ hmem), List.append_assoc]
      rfl

theorem splitLoop_word {word rest : List UInt8} (h : IsWord word) (fields : List Word) :
    splitLoop (word ++ rest) true fields = splitLoop rest false (fields ++ [word]) := by
  obtain ⟨hne, hblank⟩ := h
  cases word with
  | nil => exact absurd rfl hne
  | cons c word =>
      have hc : c ≠ 32 := fun hc => hblank (hc ▸ List.mem_cons_self)
      rw [List.cons_append, splitLoop, if_pos hc]
      simp only [if_true, List.modifyLast_concat]
      exact splitLoop_append (fun hmem => hblank (List.mem_cons_of_mem _ hmem)) fields [c]

theorem splitLoop_words {words : List Word} (h : ∀ word ∈ words, IsWord word) {last : Word}
    (hlast : IsWord last) (fields : List Word) :
    splitLoop (words.flatMap (· ++ [32]) ++ last) true fields = fields ++ words ++ [last] := by
  induction words generalizing fields with
  | nil =>
      have hword : splitLoop (last ++ []) true fields = splitLoop [] false (fields ++ [last]) :=
        splitLoop_word hlast fields
      rw [List.append_nil] at hword
      simpa [splitLoop] using hword
  | cons word words ih =>
      rw [List.flatMap_cons, List.append_assoc, List.append_assoc,
        splitLoop_word (h word List.mem_cons_self)]
      show splitLoop (words.flatMap (· ++ [32]) ++ last) true _ = _
      rw [ih fun w hw => h w (List.mem_cons_of_mem _ hw)]
      simp

theorem split_words {words : List Word} (h : ∀ word ∈ words, IsWord word) {last : Word}
    (hlast : IsWord last) : split (words.flatMap (· ++ [32]) ++ last) = words ++ [last] :=
  splitLoop_words h hlast []

def indicesOf (wordListLength : UInt32) : ℕ → List UInt8 → List UInt32
  | 0, _ => []
  | i + 1, src =>
      let w := numberTriple wordListLength (readWord32 src)
      w.1 :: w.2.1 :: w.2.2 :: indicesOf wordListLength i (src.drop 4)

theorem encodeTriples_eq (wordList : List Word) (i : ℕ) (src words : List UInt8)
    (wordsStore : List Word) :
    encodeTriples wordList i src (words, wordsStore) =
      (words ++ ((indicesOf wordList.length.toUInt32 i src).map
          fun w => wordList.getD w.toNat []).flatMap (· ++ [32]),
        wordsStore ++ (indicesOf wordList.length.toUInt32 i src).map
          fun w => wordList.getD w.toNat []) := by
  induction i generalizing src words wordsStore with
  | zero => simp [encodeTriples, indicesOf]
  | succ i ih =>
      rw [encodeTriples, indicesOf]
      simp only [ih]
      simp

@[simp] theorem length_indicesOf (wordListLength : UInt32) (i : ℕ) (src : List UInt8) :
    (indicesOf wordListLength i src).length = 3 * i := by
  induction i generalizing src with
  | zero => rfl
  | succ i ih =>
      rw [indicesOf]
      simp only [List.length_cons, ih]
      omega

theorem indicesOf_lt {i : ℕ} {src : List UInt8} : ∀ w ∈ indicesOf 1626 i src, w.toNat < 1626 := by
  induction i generalizing src with
  | zero => exact fun w hw => nomatch hw
  | succ i ih =>
      obtain ⟨hfirst, hsecond, hthird⟩ := numberTriple_lt (readWord32 src)
      rw [indicesOf]
      intro w hw
      rcases List.mem_cons.mp hw with rfl | hw
      · exact hfirst
      rcases List.mem_cons.mp hw with rfl | hw
      · exact hsecond
      rcases List.mem_cons.mp hw with rfl | hw
      · exact hthird
      · exact ih w hw

/-- The indices for some bytes give the bytes back, whatever follows them. -/
theorem decodeTriples_indicesOf {i : ℕ} {src : List UInt8} (h : 4 * i ≤ src.length)
    (more : List UInt32) (dst : List UInt8) :
    decodeTriples 1626 i (indicesOf 1626 i src ++ more) dst = .ok (dst ++ src.take (4 * i)) := by
  induction i generalizing src dst with
  | zero => simp [decodeTriples]
  | succ i ih =>
      have hdrop : 4 * i ≤ (src.drop 4).length := by
        rw [List.length_drop]
        omega
      have htake : src.take (4 * (i + 1)) = src.take 4 ++ (src.drop 4).take (4 * i) := by
        rw [Nat.mul_succ, Nat.add_comm, List.take_add]
      rw [indicesOf]
      simp only [List.cons_append, decodeTriples, decodeTriple_numberTriple]
      rw [ih hdrop, writeWord32_readWord32 (by omega), htake, List.append_assoc]

theorem matchSeed_words {lang : Language}
    (hlookup : ∀ i (hi : i < lang.wordList.length), lang.trimmedWordMap.lookup
      (utf8Prefix lang.wordList[i] lang.uniquePrefixLength) = some i.toUInt32)
    {indices : List UInt32} (h : ∀ w ∈ indices, w.toNat < lang.wordList.length) :
    matchSeed lang true (indices.map fun w => lang.wordList.getD w.toNat []) = some indices := by
  induction indices with
  | nil => rfl
  | cons w indices ih =>
      have hw : w.toNat < lang.wordList.length := h w List.mem_cons_self
      have hword : lang.trimmedWordMap.lookup (utf8Prefix (lang.wordList.getD w.toNat [])
          lang.uniquePrefixLength) = some w := by
        rw [List.getD_eq_getElem _ _ hw, hlookup _ hw]
        exact congrArg some UInt32.ofNat_toNat
      have hrest := ih fun v hv => h v (List.mem_cons_of_mem _ hv)
      rw [matchSeed] at hrest ⊢
      simp only [if_true] at hrest ⊢
      rw [List.map_cons, List.mapM_cons, hword, hrest]
      rfl

section RoundTrip

variable (crc32 : List UInt8 → UInt32)

theorem createChecksumIndex_lt (wordList : List Word) (uniquePrefixLength : ℕ) :
    createChecksumIndex crc32 wordList uniquePrefixLength < 24 :=
  Nat.mod_lt _ (by decide)

theorem checksumTest_concat (seed : List Word) (checksum : Word) (uniquePrefixLength : ℕ)
    (h : seed[createChecksumIndex crc32 seed uniquePrefixLength]? = some checksum) :
    checksumTest crc32 (seed ++ [checksum]) uniquePrefixLength = true := by
  simp [checksumTest, h]

theorem wordsToBytes_seed {lang : Language} (hlength : lang.wordList.length = 1626)
    (hlookup : ∀ i (hi : i < lang.wordList.length), lang.trimmedWordMap.lookup
      (utf8Prefix lang.wordList[i] lang.uniquePrefixLength) = some i.toUInt32)
    {key seed : List UInt8} (hkey : key.length = 32) {checksum : UInt32}
    (hchecksum : (indicesOf 1626 8 key)[createChecksumIndex crc32
      ((indicesOf 1626 8 key).map fun w => lang.wordList.getD w.toNat [])
        lang.uniquePrefixLength]? = some checksum)
    (hseed : split seed = (indicesOf 1626 8 key ++ [checksum]).map
      fun w => lang.wordList.getD w.toNat []) (duplicate : Bool) :
    wordsToBytes crc32 [lang] seed [] 32 duplicate = .ok (key, lang.languageName) := by
  have hlt : ∀ w ∈ indicesOf 1626 8 key ++ [checksum], w.toNat < lang.wordList.length := by
    intro w hw
    rw [hlength]
    rcases List.mem_append.mp hw with hw | hw
    · exact indicesOf_lt w hw
    · rw [List.mem_singleton.mp hw]
      exact indicesOf_lt _ (List.mem_of_getElem? hchecksum)
  have hmatch := matchSeed_words hlookup hlt
  have htest := checksumTest_concat crc32
    ((indicesOf 1626 8 key).map fun w => lang.wordList.getD w.toNat [])
    (lang.wordList.getD checksum.toNat []) lang.uniquePrefixLength
    (by rw [List.getElem?_map, hchecksum]; rfl)
  rw [List.map_append, List.map_singleton] at hseed hmatch
  have hwords : (split seed).length = 25 := by
    rw [hseed, List.length_append, List.length_map, length_indicesOf]
    rfl
  have hfind : findSeedLanguage crc32 (split seed) true [lang] none =
      some (lang, indicesOf 1626 8 key ++ [checksum]) := by
    rw [hseed, findSeedLanguage, hmatch]
    simp only [htest]
    rfl
  have hdropLast : (split seed).dropLast.length = 24 := by
    rw [List.length_dropLast, hwords]
  have hbytes := decodeTriples_indicesOf (show 4 * 8 ≤ key.length by omega) [checksum] []
  have hsize : lang.wordList.length.toUInt32 = 1626 := by
    rw [hlength]
    rfl
  have hwhole : key.take (4 * 8) = key := List.take_of_length_le (by omega)
  have hchecked : checksumTest crc32 (split seed) lang.uniquePrefixLength = true := by
    rw [hseed]
    exact htest
  rw [hwhole] at hbytes
  rw [wordsToBytes]
  simp [hwords, hfind, hdropLast, hchecked, hsize, hbytes]

theorem bytesToWords_eq {lang : Language} (hlength : lang.wordList.length = 1626)
    {key : List UInt8} (hkey : key.length = 32) {name : Word}
    (hname : name = lang.languageName ∨ name = lang.englishLanguageName) :
    ∃ checksum, (indicesOf 1626 8 key)[createChecksumIndex crc32
        ((indicesOf 1626 8 key).map fun w => lang.wordList.getD w.toNat [])
          lang.uniquePrefixLength]? = some checksum ∧
      bytesToWords crc32 [lang] key [] name =
        some (((indicesOf 1626 8 key).map fun w => lang.wordList.getD w.toNat []).flatMap
          (· ++ [32]) ++ lang.wordList.getD checksum.toNat []) := by
  have hsize : lang.wordList.length.toUInt32 = 1626 := by
    rw [hlength]
    rfl
  have hnamed : languageNamed [lang] name = some lang := by
    simp [languageNamed, hname]
  have hencode := encodeTriples_eq lang.wordList 8 key [] []
  rw [hsize, List.nil_append, List.nil_append] at hencode
  have hindex := createChecksumIndex_lt crc32
    ((indicesOf 1626 8 key).map fun w => lang.wordList.getD w.toNat []) lang.uniquePrefixLength
  obtain ⟨checksum, hchecksum⟩ : ∃ checksum, (indicesOf 1626 8 key)[createChecksumIndex crc32
      ((indicesOf 1626 8 key).map fun w => lang.wordList.getD w.toNat [])
        lang.uniquePrefixLength]? = some checksum :=
    ⟨_, List.getElem?_eq_getElem (by rw [length_indicesOf]; exact hindex)⟩
  refine ⟨checksum, hchecksum, ?_⟩
  have hnumber : key.length / 4 = 8 := by omega
  rw [bytesToWords, if_neg (by omega), hnamed]
  simp only [hnumber, hencode, List.getElem?_map, hchecksum, Option.map_some]

theorem isWord_indicesOf {lang : Language} (hlength : lang.wordList.length = 1626)
    (hwords : ∀ word ∈ lang.wordList, IsWord word) {w : UInt32} {key : List UInt8}
    (hw : w ∈ indicesOf 1626 8 key) : IsWord (lang.wordList.getD w.toNat []) := by
  have hlt : w.toNat < lang.wordList.length := hlength ▸ indicesOf_lt w hw
  rw [List.getD_eq_getElem _ _ hlt]
  exact hwords _ (List.getElem_mem hlt)

/-- A key comes back from its seed. A triple of indices that is not rejected comes back from its
four bytes, so that no two triples have the same ones. -/
theorem wordsToBytes_bytesToWords {languageName englishLanguageName : Word} {words : List Word}
    {prefixLength : ℕ} {flags : UInt32} {lang : Language}
    (hmake : makeLanguage languageName englishLanguageName words prefixLength flags = .ok lang)
    (hwords : ∀ word ∈ words, IsWord word)
    (hprefixes : (words.map fun word => utf8Prefix word prefixLength).Nodup) :
    (∀ key name, key.length = 32 → name = languageName ∨ name = englishLanguageName →
      ∃ seed, bytesToWords crc32 [lang] key [] name = some seed ∧ (split seed).length = 25 ∧
        (∀ duplicate, wordsToBytes crc32 [lang] seed [] 32 duplicate = .ok (key, languageName)) ∧
          wordsToKey crc32 [lang] seed = .ok (key, languageName)) ∧
    (∀ w1 w2 w3 : UInt32, w1.toNat < 1626 → w2.toNat < 1626 → w3.toNat < 1626 →
      decodeTriple lang.wordList.length.toUInt32 w1 w2 w3 = none ∨
        ∃ w0, decodeTriple lang.wordList.length.toUInt32 w1 w2 w3 = some w0 ∧
          numberTriple lang.wordList.length.toUInt32 (readWord32 (writeWord32 w0)) = (w1, w2, w3)) ∧
    ∀ w1 w2 w3 w1' w2' w3' w0 : UInt32, w1.toNat < 1626 → w2.toNat < 1626 → w3.toNat < 1626 →
      w1'.toNat < 1626 → w2'.toNat < 1626 → w3'.toNat < 1626 →
        decodeTriple lang.wordList.length.toUInt32 w1 w2 w3 = some w0 →
          decodeTriple lang.wordList.length.toUInt32 w1' w2' w3' = some w0 →
            (w1, w2, w3) = (w1', w2', w3') := by
  obtain ⟨rfl, rfl, rfl, rfl, hlength, hlookup⟩ := makeLanguage_spec hmake hprefixes
  have hsize : lang.wordList.length.toUInt32 = 1626 := by
    rw [hlength]
    rfl
  rw [hsize]
  refine ⟨fun key name hkey hname => ?_, fun w1 w2 w3 h1 h2 h3 => ?_, ?_⟩
  · obtain ⟨checksum, hchecksum, hseed⟩ := bytesToWords_eq crc32 hlength hkey hname
    have hseedWords : ∀ word ∈ (indicesOf 1626 8 key).map fun w => lang.wordList.getD w.toNat [],
        IsWord word := by
      intro word hword
      obtain ⟨w, hw, rfl⟩ := List.mem_map.mp hword
      exact isWord_indicesOf hlength hwords hw
    have hsplit := split_words hseedWords
      (isWord_indicesOf hlength hwords (List.mem_of_getElem? hchecksum))
    have hbytes := wordsToBytes_seed crc32 hlength hlookup hkey hchecksum
      (by rw [hsplit, List.map_append, List.map_singleton])
    refine ⟨_, hseed, ?_, hbytes, ?_⟩
    · rw [hsplit, List.length_append, List.length_map, length_indicesOf]
      rfl
    · rw [wordsToKey, hbytes true]
      exact if_neg (not_not.mpr hkey)
  · cases hdecode : decodeTriple 1626 w1 w2 w3 with
    | none => exact .inl rfl
    | some w0 =>
        have hread := readWord32_writeWord32 w0 []
        rw [List.append_nil] at hread
        refine .inr ⟨w0, rfl, ?_⟩
        rw [hread]
        exact numberTriple_of_decodeTriple h1 h2 h3 hdecode
  · intro w1 w2 w3 w1' w2' w3' w0 h1 h2 h3 h1' h2' h3' hdecode hdecode'
    rw [← numberTriple_of_decodeTriple h1 h2 h3 hdecode,
      numberTriple_of_decodeTriple h1' h2' h3' hdecode']

end RoundTrip

def sampleCrc32 (bytes : List UInt8) : UInt32 :=
  let shift (crc : UInt32) : UInt32 :=
    if crc &&& 1 = 1 then (crc >>> 1) ^^^ 0xEDB88320 else crc >>> 1
  let next (crc : UInt32) (byte : UInt8) : UInt32 :=
    (List.range 8).foldl (fun crc _ => shift crc) (crc ^^^ byte.toUInt32)
  bytes.foldl next 0xFFFFFFFF ^^^ 0xFFFFFFFF

/-- Words of two letters, no two of them alike. -/
def sampleWord (i : ℕ) : Word := [UInt8.ofNat (97 + i / 64), UInt8.ofNat (48 + i % 64)]

def sampleWords : List Word := (List.range nwords).map sampleWord

theorem utf8Prefix_sampleWords :
    (sampleWords.map fun word => utf8Prefix word 2) = sampleWords := by
  rw [sampleWords, List.map_map]
  refine List.map_congr_left fun i _ => ?_
  exact utf8Prefix_of_length_le (Nat.le_refl 2)

theorem toNat_sampleWord {i : ℕ} (h : i < nwords) :
    (UInt8.ofNat (97 + i / 64)).toNat = 97 + i / 64 ∧
      (UInt8.ofNat (48 + i % 64)).toNat = 48 + i % 64 := by
  rw [nwords] at h
  rw [UInt8.toNat_ofNat', UInt8.toNat_ofNat']
  omega

theorem nodup_sampleWords : sampleWords.Nodup := by
  refine List.Nodup.map_on ?_ List.nodup_range
  intro i hi j hj hsame
  obtain ⟨hfirst, hsecond⟩ := toNat_sampleWord (List.mem_range.mp hi)
  obtain ⟨hfirst', hsecond'⟩ := toNat_sampleWord (List.mem_range.mp hj)
  rw [sampleWord, sampleWord, List.cons.injEq, List.cons.injEq, ← UInt8.toNat_inj,
    ← UInt8.toNat_inj, hfirst, hfirst', hsecond, hsecond'] at hsame
  omega

theorem isWord_sampleWords : ∀ word ∈ sampleWords, IsWord word := by
  intro word hword
  obtain ⟨i, hi, rfl⟩ := List.mem_map.mp hword
  obtain ⟨hfirst, hsecond⟩ := toNat_sampleWord (List.mem_range.mp hi)
  have hblank : (32 : UInt8).toNat = 32 := rfl
  refine ⟨by simp [sampleWord], fun hmem => ?_⟩
  rcases List.mem_cons.mp hmem with h | h
  · rw [← UInt8.toNat_inj, hfirst, hblank] at h
    omega
  · rw [List.mem_singleton, ← UInt8.toNat_inj, hsecond, hblank] at h
    omega

theorem makeLanguage_sampleWords :
    ∃ lang, makeLanguage (text "Sample") (text "Sample") sampleWords 2 0 = .ok lang := by
  refine makeLanguage_total _ _ 0 (by simp [sampleWords]) ?_ ?_
  · intro word hword
    obtain ⟨i, -, rfl⟩ := List.mem_map.mp hword
    exact Nat.le_refl 2
  · rw [utf8Prefix_sampleWords]
    exact nodup_sampleWords

theorem wordsToBytes_bytesToWords_sample :
    ∃ lang seed, makeLanguage (text "Sample") (text "Sample") sampleWords 2 0 = .ok lang ∧
      bytesToWords sampleCrc32 [lang] (List.replicate 32 7) [] (text "Sample") = some seed ∧
        wordsToKey sampleCrc32 [lang] seed = .ok (List.replicate 32 7, text "Sample") := by
  obtain ⟨lang, hmake⟩ := makeLanguage_sampleWords
  obtain ⟨seed, hseed, -, -, hkey⟩ := (wordsToBytes_bytesToWords sampleCrc32 hmake
    isWord_sampleWords (utf8Prefix_sampleWords.symm ▸ nodup_sampleWords)).1
      (List.replicate 32 7) (text "Sample") (by decide) (.inl rfl)
  exact ⟨lang, seed, hmake, hseed, hkey⟩

end XrCoin.Mnemonics

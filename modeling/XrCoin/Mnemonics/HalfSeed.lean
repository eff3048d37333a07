import Mathlib
import XrCoin.Mnemonics.ElectrumWords

/-!
Seeds of half the words. They are let in, but the number of words that asks for a duplicate is
worked out in another unit than the number of words that are let in, and the two never meet.
-/

namespace XrCoin.Mnemonics

/-! ### The duplicate -/

/-- The words that are let in, without a checksum word, are always more. -/
theorem ne_duplicated {len n : ℕ} (hunits : len % 4 = 0) (hlen : 0 < len)
    (hn : n = len * 8 * 3 / 32 / 2 ∨ n = len * 8 * 3 / 32) : n ≠ len * 3 / 32 / 2 := by
  omega

variable (crc32 : List UInt8 → UInt32)

theorem wordsToBytes_duplicate (languages : List Language) (words dst : List UInt8) (len : ℕ)
    (duplicate : Bool) :
    wordsToBytes crc32 languages words dst len duplicate =
      wordsToBytes crc32 languages words dst len false := by
  rw [wordsToBytes, wordsToBytes]
  simp only
  by_cases hunits : len % 4 ≠ 0
  · rw [if_pos hunits, if_pos hunits]
  rw [if_neg hunits, if_neg hunits]
  by_cases hcount : len ≠ 0 ∧ (split words).length ≠ len * 8 * 3 / 32 / 2 ∧
      (split words).length ≠ len * 8 * 3 / 32 ∧ (split words).length ≠ len * 8 * 3 / 32 + 1
  · rw [if_pos hcount, if_pos hcount]
  rw [if_neg hcount, if_neg hcount]
  have hused : 0 < len → (if (decide (len = 0 ∨ (split words).length = len * 8 * 3 / 32 + 1)) = true
      then (split words).dropLast else split words).length ≠ len * 3 / 32 / 2 := by
    intro hlen
    apply ne_duplicated (not_not.mp hunits) hlen
    split_ifs with hchecksum
    · right
      have hsize := (of_decide_eq_true hchecksum).resolve_left hlen.ne'
      rw [List.length_dropLast, hsize, Nat.add_sub_cancel]
    · rw [decide_eq_true_iff] at hchecksum
      omega
  have hnever (b : Bool) : ¬(0 < len ∧ b = true ∧
      (if (decide (len = 0 ∨ (split words).length = len * 8 * 3 / 32 + 1)) = true
        then (split words).dropLast else split words).length = len * 3 / 32 / 2) :=
    fun h => hused h.1 h.2.2
  simp only [if_neg (hnever _)]

/-! ### Twelve words -/

structure HalfSeed (languages : List Language) (words : List UInt8) (lang : Language)
    (bytes : List UInt8) : Prop where
  twelve : (split words).length = 12
  language : ∃ earlier later, languages = earlier ++ lang :: later ∧
    ∀ l ∈ earlier, matchSeed l false (split words) = none
  triples : ∃ indices, matchSeed lang false (split words) = some indices ∧
    decodeTriples lang.wordList.length.toUInt32 4 indices [] = .ok bytes

theorem findSeedLanguage_append {languages earlier later : List Language} {lang : Language}
    {seed : List Word} {indices : List UInt32} (h : languages = earlier ++ lang :: later)
    (hearlier : ∀ l ∈ earlier, matchSeed l false seed = none)
    (hlang : matchSeed lang false seed = some indices) (fallback : Option Language) :
    findSeedLanguage crc32 seed false languages fallback = some (lang, indices) := by
  subst h
  induction earlier with
  | nil => simp [findSeedLanguage, hlang]
  | cons l earlier ih =>
      rw [List.forall_mem_cons] at hearlier
      rw [List.cons_append, findSeedLanguage, hearlier.1]
      exact ih hearlier.2

theorem exists_triple {α : Type} {l : List α} {i : ℕ} (h : l.length = 3 * (i + 1)) :
    ∃ a b c rest, l = a :: b :: c :: rest := by
  obtain ⟨a, l, rfl⟩ := List.exists_cons_of_length_pos (show 0 < l.length by omega)
  rw [List.length_cons] at h
  obtain ⟨b, l, rfl⟩ := List.exists_cons_of_length_pos (show 0 < l.length by omega)
  rw [List.length_cons] at h
  obtain ⟨c, l, rfl⟩ := List.exists_cons_of_length_pos (show 0 < l.length by omega)
  exact ⟨a, b, c, l, rfl⟩

theorem decodeTriples_length {wordListLength : UInt32} {i : ℕ} {indices : List UInt32}
    {dst bytes : List UInt8} (hindices : indices.length = 3 * i)
    (h : decodeTriples wordListLength i indices dst = .ok bytes) :
    bytes.length = dst.length + 4 * i := by
  induction i generalizing indices dst with
  | zero =>
      rw [decodeTriples] at h
      · rw [← Except.ok.inj h]
        rfl
      · intro i w1 w2 w3 rest hi
        cases hi
  | succ i ih =>
      obtain ⟨w1, w2, w3, indices, rfl⟩ := exists_triple hindices
      rw [decodeTriples] at h
      split at h
      · cases h
      · have hlength := ih (by simp only [List.length_cons] at hindices; omega) h
        rw [hlength, List.length_append]
        simp only [writeWord32, List.length_cons, List.length_nil]
        omega

theorem matchSeed_length {lang : Language} {hasChecksum : Bool} {seed : List Word}
    {indices : List UInt32} (h : matchSeed lang hasChecksum seed = some indices) :
    indices.length = seed.length := by
  rw [matchSeed] at h
  induction seed generalizing indices with
  | nil =>
      rw [List.mapM_nil] at h
      cases h
      rfl
  | cons word seed ih =>
      rw [List.mapM_cons, Option.bind_eq_bind, Option.bind_eq_some_iff] at h
      obtain ⟨i, -, h⟩ := h
      rw [Option.bind_eq_bind, Option.bind_eq_some_iff] at h
      obtain ⟨rest, hrest, h⟩ := h
      rw [← Option.some.inj h, List.length_cons, ih hrest, List.length_cons]

section

variable {languages : List Language} {words : List UInt8} {lang : Language} {bytes : List UInt8}

theorem HalfSeed.length (h : HalfSeed languages words lang bytes) : bytes.length = 16 := by
  obtain ⟨indices, hindices, hbytes⟩ := h.triples
  have hlength := matchSeed_length hindices
  rw [h.twelve] at hlength
  exact decodeTriples_length hlength hbytes

theorem HalfSeed.wordsToBytes_eq (h : HalfSeed languages words lang bytes) (duplicate : Bool) :
    wordsToBytes crc32 languages words [] 32 duplicate = .ok (bytes, lang.languageName) := by
  obtain ⟨earlier, later, hlanguages, hearlier⟩ := h.language
  obtain ⟨indices, hindices, hbytes⟩ := h.triples
  have hfind := findSeedLanguage_append crc32 hlanguages hearlier hindices none
  rw [wordsToBytes_duplicate, wordsToBytes]
  simp [h.twelve, hfind, hbytes]

theorem HalfSeed.wordsToKey_eq (h : HalfSeed languages words lang bytes) :
    wordsToKey crc32 languages words = .error "Invalid seed: wrong output size" := by
  rw [wordsToKey, h.wordsToBytes_eq]
  simp only [h.length]
  rfl

/-- No half seed is expanded, and none is taken for a key. -/
theorem halfSeed_not_expanded (h : HalfSeed languages words lang bytes) :
    (∀ languageName, wordsToBytes crc32 languages words [] 32 true ≠
      .ok (bytes ++ bytes, languageName)) ∧
      ∀ r, wordsToKey crc32 languages words ≠ .ok r := by
  constructor
  · intro languageName heq
    rw [h.wordsToBytes_eq, Except.ok.injEq, Prod.mk.injEq] at heq
    have hlength := congrArg List.length heq.1
    rw [List.length_append, h.length] at hlength
    omega
  · intro r heq
    rw [h.wordsToKey_eq] at heq
    cases heq

end

/-! ### A half seed -/

def sampleHalfSeed : List UInt8 :=
  (List.replicate 11 (sampleWord 1)).flatMap (· ++ [32]) ++ sampleWord 1

def sampleHalf : List UInt8 := [1, 0, 0, 0, 1, 0, 0, 0, 1, 0, 0, 0, 1, 0, 0, 0]

theorem split_sampleHalfSeed : split sampleHalfSeed = List.replicate 12 (sampleWord 1) := by
  decide +kernel

theorem halfSeed_sample : ∃ lang,
    makeLanguage (text "Sample") (text "Sample") sampleWords 2 0 = .ok lang ∧
      HalfSeed [lang] sampleHalfSeed lang sampleHalf := by
  obtain ⟨lang, hmake⟩ := makeLanguage_sampleWords
  obtain ⟨hwordList, -, -, -, hlength, -⟩ :=
    makeLanguage_spec hmake (utf8Prefix_sampleWords.symm ▸ nodup_sampleWords)
  have hlookup : lang.wordMap.lookup (sampleWord 1) = some 1 := by
    have hword := makeLanguage_wordMap hmake nodup_sampleWords (show 1 < sampleWords.length by
      rw [hlength]
      decide)
    simpa [sampleWords] using hword
  refine ⟨lang, hmake, ?_, ⟨[], [], rfl, List.forall_mem_nil _⟩, List.replicate 12 1, ?_, ?_⟩
  · rw [split_sampleHalfSeed, List.length_replicate]
  · rw [split_sampleHalfSeed, matchSeed]
    simp [List.replicate, hlookup]
  · rw [hwordList, hlength]
    decide +kernel

theorem halfSeed_not_expanded_sample : ∃ lang,
    HalfSeed [lang] sampleHalfSeed lang sampleHalf ∧
      (∀ languageName, wordsToBytes sampleCrc32 [lang] sampleHalfSeed [] 32 true ≠
        .ok (sampleHalf ++ sampleHalf, languageName)) ∧
      ∀ r, wordsToKey sampleCrc32 [lang] sampleHalfSeed ≠ .ok r := by
  obtain ⟨lang, -, h⟩ := halfSeed_sample
  exact ⟨lang, h, halfSeed_not_expanded sampleCrc32 h⟩

/-- A seed of twelve words of a list that gives 16 bytes and no key. -/
theorem sampleHalfSeed_not_expanded : ∃ lang,
    makeLanguage (text "Sample") (text "Sample") sampleWords 2 0 = .ok lang ∧
      HalfSeed [lang] sampleHalfSeed lang sampleHalf ∧
      wordsToBytes sampleCrc32 [lang] sampleHalfSeed [] 32 true =
        .ok (sampleHalf, lang.languageName) ∧
      wordsToKey sampleCrc32 [lang] sampleHalfSeed = .error "Invalid seed: wrong output size" ∧
      ¬((∃ name, wordsToBytes sampleCrc32 [lang] sampleHalfSeed [] 32 true =
        .ok (sampleHalf ++ sampleHalf, name)) ∧
        ∃ r, wordsToKey sampleCrc32 [lang] sampleHalfSeed = .ok r) := by
  obtain ⟨lang, hmake, h⟩ := halfSeed_sample
  refine ⟨lang, hmake, h, h.wordsToBytes_eq sampleCrc32 true, h.wordsToKey_eq sampleCrc32, ?_⟩
  rintro ⟨-, r, hr⟩
  rw [h.wordsToKey_eq] at hr
  cases hr

end XrCoin.Mnemonics

import Mathlib
import XrCoin.Mnemonics.ElectrumWords

/-!
The place of the checksum word of a seed. It is a remainder by the length of the usual seed,
also when the seed is shorter.
-/

namespace XrCoin.Mnemonics

/-! ### `boost::crc_32_type` -/

def crcBit (c : UInt32) : UInt32 :=
  if c &&& 1 = 1 then (c >>> 1) ^^^ 0xedb88320 else c >>> 1

def crcByte (c : UInt32) (b : UInt8) : UInt32 := crcBit^[8] (c ^^^ b.toUInt32)

def crc32 (s : List UInt8) : UInt32 := s.foldl crcByte 0xffffffff ^^^ 0xffffffff

def onValue {α : Type} (f : ℕ → α) : ℕ → α
  | 0 => f 0
  | n + 1 => f (n + 1)

theorem onValue_eq {α : Type} (f : ℕ → α) (n : ℕ) : onValue f n = f n := by
  cases n <;> rfl

/-- The register after some bytes, evaluated byte by byte. -/
def crcLoop : List UInt8 → ℕ → UInt32
  | [], c => UInt32.ofNat c
  | b :: s, c => onValue (crcLoop s) (crcByte (UInt32.ofNat c) b).toNat

theorem crcLoop_eq (s : List UInt8) (c : UInt32) : crcLoop s c.toNat = s.foldl crcByte c := by
  induction s generalizing c with
  | nil => exact UInt32.ofNat_toNat
  | cons b s ih => rw [crcLoop, onValue_eq, ih, UInt32.ofNat_toNat, List.foldl_cons]

theorem crc32_eq (s : List UInt8) : crc32 s = crcLoop s 0xffffffff ^^^ 0xffffffff := by
  rw [crc32, ← crcLoop_eq]
  rfl

example : crc32 [49, 50, 51, 52, 53, 54, 55, 56, 57] = 0xcbf43926 := by decide +kernel

/-! ### Seeds -/

structure ChecksumSound (words : List Word) (uniquePrefixLength : ℕ) : Prop where
  inBounds : createChecksumIndex crc32 words uniquePrefixLength < words.length
  passes : ∀ checksum, words[createChecksumIndex crc32 words uniquePrefixLength]? = some checksum →
    checksumTest crc32 (words ++ [checksum]) uniquePrefixLength = true

def wordsStore (lang : Language) (src words : List UInt8) : List Word :=
  (encodeTriples lang.wordList (src.length / 4) src (words, [])).2

def plainWord (s : String) : Word := s.toList.map fun c => UInt8.ofNat c.toNat

/-- A word of the English list whose checksum is out of bounds when it is repeated. -/
def badWord (n : ℕ) : Word :=
  if n ∈ [16, 20] then plainWord "acidic"
  else if n ∈ [22, 23] then plainWord "across"
  else if n ∈ [9, 10, 13] then plainWord "abducts"
  else if n = 12 then plainWord "absorb"
  else if n ∈ [11, 14, 15, 18, 19, 21] then plainWord "ablaze"
  else plainWord "abbey"

theorem badWord_index : ∀ n < seedLength,
    n ≤ createChecksumIndex crc32 (List.replicate n (badWord n)) 3 := by
  simp only [createChecksumIndex, crc32_eq]
  decide +kernel

theorem checksumSound_iff_lt {words : List Word} {uniquePrefixLength : ℕ} :
    ChecksumSound words uniquePrefixLength ↔
      createChecksumIndex crc32 words uniquePrefixLength < words.length := by
  constructor
  · exact ChecksumSound.inBounds
  · intro h
    exact ⟨h, fun checksum hchecksum => checksumTest_concat crc32 _ checksum _ hchecksum⟩

/-- With as many words as the usual seed has the checksum is always one of the words. With any
smaller number it is not: it is one exactly when the checksum happens to be small enough. -/
theorem checksumSound_iff (words : List Word) (uniquePrefixLength : ℕ) :
    (ChecksumSound words uniquePrefixLength ↔
      seedLength ≤ words.length ∨
        (crc32 (words.flatMap (trimWord uniquePrefixLength))).toNat % seedLength <
          words.length) ∧
    (∀ n, (∀ words : List Word, words.length = n → ∀ uniquePrefixLength,
      ChecksumSound words uniquePrefixLength) ↔ seedLength ≤ n) ∧
    ∀ languages src words languageName,
      (bytesToWords crc32 languages src words languageName).isSome = true ↔
        src.length % 4 = 0 ∧ src.length ≠ 0 ∧
          ∃ lang, languageNamed languages languageName = some lang ∧
            ChecksumSound (wordsStore lang src words) lang.uniquePrefixLength := by
  have hlong : ∀ (words : List Word) uniquePrefixLength, seedLength ≤ words.length →
      ChecksumSound words uniquePrefixLength := by
    intro words uniquePrefixLength h
    exact checksumSound_iff_lt.mpr ((createChecksumIndex_lt crc32 words _).trans_le h)
  refine ⟨?_, ?_, ?_⟩
  · constructor
    · intro h
      exact .inr h.inBounds
    · rintro (h | h)
      · exact hlong words uniquePrefixLength h
      · exact checksumSound_iff_lt.mpr h
  · intro n
    constructor
    · intro hall
      by_contra hshort
      have hbad := badWord_index n (Nat.not_le.mp hshort)
      have hsound := (hall (List.replicate n (badWord n)) (by simp) 3).inBounds
      rw [List.length_replicate] at hsound
      omega
    · rintro hn words rfl uniquePrefixLength
      exact hlong words uniquePrefixLength hn
  · intro languages src words languageName
    rw [bytesToWords]
    by_cases hsize : src.length % 4 ≠ 0 ∨ src.length = 0
    · rw [if_pos hsize]
      simp only [Option.isSome_none, Bool.false_eq_true, false_iff]
      rintro ⟨hmod, hne, -⟩
      rcases hsize with hsize | hsize
      · exact hsize hmod
      · exact hne hsize
    · rw [if_neg hsize]
      have hmod : src.length % 4 = 0 := not_not.mp fun h => hsize (.inl h)
      have hne : src.length ≠ 0 := fun h => hsize (.inr h)
      cases hlang : languageNamed languages languageName with
      | none => simp
      | some lang =>
          simp only [hmod, hne, ne_eq, not_false_eq_true, true_and, Option.some.injEq,
            exists_eq_left', checksumSound_iff_lt]
          rw [← wordsStore]
          by_cases hi : createChecksumIndex crc32 (wordsStore lang src words)
              lang.uniquePrefixLength < (wordsStore lang src words).length
          · simp [hi]
          · simp [hi]

theorem threeWords_not_checksumSound : ¬ChecksumSound (List.replicate 3 (plainWord "abbey")) 3 := by
  intro h
  exact absurd h.inBounds (Nat.not_lt.mpr (badWord_index 3 (by decide)))

end XrCoin.Mnemonics

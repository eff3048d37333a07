import XrCoin.Cryptonote.Difficulty
import XrCoin.Cryptonote.Hashes

/-!
The proof of work of a block: the slow hash that its version asks for, and the check of
a hash against a difficulty.
-/

namespace XrCoin.Cryptonote

/-! ### The slow hash -/

structure PowOps where
  k12 : List UInt8 → Hash
  /-- The data, whether it is the light variant, and the variant. -/
  cnSlowHash : List UInt8 → Bool → ℕ → Hash

/-- `get_block_hash`, the null hash where no hash is calculated. -/
def blockId (ops : CryptoOps) (cfg : Config) (b : Block) : Hash :=
  (getBlockHash ops cfg b).getD nullHash

/-- `get_block_longhash`, or nothing where the hash of the transactions asserts. The
height counts below version 2 only. -/
def getBlockLonghash (ops : CryptoOps) (cfg : Config) (pow : PowOps) (hardfork1Height : ℕ)
    (b : Block) (height : ℕ) : Option Hash :=
  (getBlockHashingBlob ops cfg b).map fun bd =>
    if 8 ≤ b.majorVersion then pow.k12 bd
    else
      let cnVariant := if 7 ≤ b.majorVersion then b.majorVersion.toNat - 6 else 0
      pow.cnSlowHash bd (hardfork1Height ≤ height ∨ 2 ≤ b.majorVersion) cnVariant

/-! ### The check -/

def hashWord (hash : Hash) (i : ℕ) : ℕ :=
  ((hash.val.drop (8 * i)).take 8).foldr (fun byte value => byte.toNat + 256 * value) 0

def hashValue (hash : Hash) : ℕ :=
  hashWord hash 0 + 2 ^ 64 * hashWord hash 1 + 2 ^ 128 * hashWord hash 2 + 2 ^ 192 * hashWord hash 3

def mul (a b : ℕ) : ℕ × ℕ := (a * b % 2 ^ 64, a * b / 2 ^ 64)

def cadd (a b : ℕ) : Bool := (a + b) % 2 ^ 64 < a

def cadc (a b : ℕ) (c : Bool) : Bool :=
  (a + b) % 2 ^ 64 < a ∨ c = true ∧ (a + b) % 2 ^ 64 = 2 ^ 64 - 1

def checkHash64 (hash : Hash) (difficulty : ℕ) : Bool :=
  let top := mul (hashWord hash 3) difficulty
  if top.2 ≠ 0 then false
  else
    let first := mul (hashWord hash 0) difficulty
    let second := mul (hashWord hash 1) difficulty
    let third := mul (hashWord hash 2) difficulty
    let carry := cadd first.2 second.1
    let carry := cadc second.2 third.1 carry
    let carry := cadc third.2 top.1 carry
    !carry

def checkHash128 (hash : Hash) (difficulty : ℕ) : Bool :=
  hashValue hash * difficulty ≤ 2 ^ 256 - 1

def checkHash (hash : Hash) (difficulty : Difficulty) : Bool :=
  if difficulty.toNat ≤ 2 ^ 64 - 1 then checkHash64 hash difficulty.toNat
  else checkHash128 hash difficulty.toNat

theorem foldr_byte_lt (bytes : List UInt8) :
    bytes.foldr (fun byte value => byte.toNat + 256 * value) 0 < 256 ^ bytes.length := by
  induction bytes with
  | nil => exact Nat.one_pos
  | cons byte bytes ih =>
      have hbyte := byte.toNat_lt
      rw [List.foldr_cons, List.length_cons, Nat.pow_succ]
      omega

theorem hashWord_lt (hash : Hash) (i : ℕ) : hashWord hash i < 2 ^ 64 := by
  have hlt := foldr_byte_lt ((hash.val.drop (8 * i)).take 8)
  have hlength : ((hash.val.drop (8 * i)).take 8).length ≤ 8 := List.length_take_le 8 _
  calc hashWord hash i < 256 ^ ((hash.val.drop (8 * i)).take 8).length := hlt
    _ ≤ 256 ^ 8 := Nat.pow_le_pow_right (by decide) hlength
    _ = 2 ^ 64 := by decide

theorem cadd_toNat {a b : ℕ} (ha : a < 2 ^ 64) (hb : b < 2 ^ 64) :
    (cadd a b).toNat = (a + b) / 2 ^ 64 := by
  rw [cadd]
  by_cases hcarry : (a + b) % 2 ^ 64 < a
  · rw [decide_eq_true hcarry, Bool.toNat_true]
    omega
  · rw [decide_eq_false hcarry, Bool.toNat_false]
    omega

theorem cadc_toNat {a b : ℕ} (c : Bool) (ha : a < 2 ^ 64) (hb : b < 2 ^ 64) :
    (cadc a b c).toNat = (c.toNat + (a + b)) / 2 ^ 64 := by
  rw [cadc]
  by_cases hcarry : (a + b) % 2 ^ 64 < a ∨ c = true ∧ (a + b) % 2 ^ 64 = 2 ^ 64 - 1
  · rw [decide_eq_true hcarry, Bool.toNat_true]
    rcases hcarry with hover | ⟨rfl, hfull⟩
    · have hc := c.toNat_lt
      omega
    · rw [Bool.toNat_true]
      omega
  · rw [decide_eq_false hcarry, Bool.toNat_false]
    cases c with
    | false =>
        simp only [Bool.false_eq_true, false_and, or_false] at hcarry
        rw [Bool.toNat_false]
        omega
    | true =>
        simp only [true_and] at hcarry
        rw [Bool.toNat_true]
        omega

theorem add_words_lt_iff (word rest n : ℕ) :
    word + 2 ^ 64 * rest < 2 ^ 64 * n ↔ word / 2 ^ 64 + rest < n := by
  omega

/-- The sum of four products fits when the top word has nothing to carry. -/
theorem products_lt_iff (p₀ p₁ p₂ p₃ : ℕ) (htop : p₃ / 2 ^ 64 = 0) :
    p₀ + 2 ^ 64 * p₁ + 2 ^ 128 * p₂ + 2 ^ 192 * p₃ < 2 ^ 256 ↔
      (((p₀ / 2 ^ 64 + p₁ % 2 ^ 64) / 2 ^ 64 + (p₁ / 2 ^ 64 + p₂ % 2 ^ 64)) / 2 ^ 64 +
        (p₂ / 2 ^ 64 + p₃ % 2 ^ 64)) / 2 ^ 64 = 0 := by
  have hwords : p₀ + 2 ^ 64 * p₁ + 2 ^ 128 * p₂ + 2 ^ 192 * p₃ =
      p₀ % 2 ^ 64 + 2 ^ 64 * (p₀ / 2 ^ 64 + p₁ % 2 ^ 64 + 2 ^ 64 *
        (p₁ / 2 ^ 64 + p₂ % 2 ^ 64 + 2 ^ 64 * (p₂ / 2 ^ 64 + p₃ % 2 ^ 64))) := by
    omega
  rw [hwords, show (2 : ℕ) ^ 256 = 2 ^ 64 * (2 ^ 64 * (2 ^ 64 * 2 ^ 64)) by decide,
    add_words_lt_iff, Nat.mod_div_self, Nat.zero_add, add_words_lt_iff, ← Nat.add_assoc,
    add_words_lt_iff, Nat.div_eq_zero_iff]
  omega

/-- Both ways to check ask that the product fits into 256 bits. -/
theorem checkHash_iff (hash : Hash) (difficulty : Difficulty) :
    checkHash hash difficulty = true ↔ hashValue hash * difficulty.toNat < 2 ^ 256 := by
  rw [checkHash]
  split
  · rename_i hsmall
    generalize difficulty.toNat = d at hsmall
    -- the words of the product, one for each word of the hash
    have hword : ∀ i, hashWord hash i * d / 2 ^ 64 < 2 ^ 64 := by
      intro i
      rw [Nat.div_lt_iff_lt_mul (by decide)]
      exact Nat.mul_lt_mul'' (hashWord_lt hash i) (by omega)
    have hlow : ∀ i, hashWord hash i * d % 2 ^ 64 < 2 ^ 64 := fun i => Nat.mod_lt _ (by decide)
    have hvalue : hashValue hash * d = hashWord hash 0 * d + 2 ^ 64 * (hashWord hash 1 * d) +
        2 ^ 128 * (hashWord hash 2 * d) + 2 ^ 192 * (hashWord hash 3 * d) := by
      rw [hashValue]
      ring
    rw [hvalue]
    show (if hashWord hash 3 * d / 2 ^ 64 ≠ 0 then false
      else !cadc (hashWord hash 2 * d / 2 ^ 64) (hashWord hash 3 * d % 2 ^ 64)
        (cadc (hashWord hash 1 * d / 2 ^ 64) (hashWord hash 2 * d % 2 ^ 64)
          (cadd (hashWord hash 0 * d / 2 ^ 64) (hashWord hash 1 * d % 2 ^ 64)))) = true ↔ _
    by_cases htop : hashWord hash 3 * d / 2 ^ 64 ≠ 0
    · rw [if_pos htop]
      simp only [Bool.false_eq_true, false_iff, not_lt]
      omega
    · rw [if_neg htop, products_lt_iff _ _ _ _ (not_not.mp htop), ← cadd_toNat (hword 0) (hlow 1),
        ← cadc_toNat _ (hword 1) (hlow 2), ← cadc_toNat _ (hword 2) (hlow 3),
        Bool.not_eq_true', Bool.toNat_eq_zero]
  · rw [checkHash128, decide_eq_true_eq]
    omega

end XrCoin.Cryptonote

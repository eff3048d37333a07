import Mathlib
import XrCoin.Cryptonote.ProofOfWork

/-!
The product of two words in two words, by halves, and the check of a hash on top of it.

There are two functions for the product. Both are exact, so that the check on words is the one on
numbers.
-/

namespace XrCoin.Cryptonote

/-! ### The products -/

def loDword (val : UInt64) : UInt64 := val &&& 0xFFFFFFFF

def hiDword (val : UInt64) : UInt64 := val >>> 32

def mul128 (multiplier multiplicand : UInt64) : UInt64 × UInt64 :=
  let a := hiDword multiplier
  let b := loDword multiplier
  let c := hiDword multiplicand
  let d := loDword multiplicand
  let ac := a * c
  let ad := a * d
  let bc := b * c
  let bd := b * d
  let adbc := ad + bc
  let adbcCarry : UInt64 := if adbc < ad then 1 else 0
  let productLo := bd + (adbc <<< 32)
  let productLoCarry : UInt64 := if productLo < bd then 1 else 0
  (productLo, ac + (adbc >>> 32) + (adbcCarry <<< 32) + productLoCarry)

def mulPortable (a b : UInt64) : UInt64 × UInt64 :=
  let aLow := a &&& 0xFFFFFFFF
  let aHigh := a >>> 32
  let bLow := b &&& 0xFFFFFFFF
  let bHigh := b >>> 32
  let res := aLow * bLow
  let lowRes1 := res &&& 0xFFFFFFFF
  let carry := res >>> 32
  let res := aHigh * bLow + carry
  let highResHigh1 := res >>> 32
  let highResLow1 := res &&& 0xFFFFFFFF
  let res := aLow * bHigh
  let lowRes2 := res &&& 0xFFFFFFFF
  let carry := res >>> 32
  let res := aHigh * bHigh + carry
  let highResHigh2 := res >>> 32
  let highResLow2 := res &&& 0xFFFFFFFF
  let r := highResLow1 + lowRes2
  let carry := r >>> 32
  let low := (r <<< 32) ||| lowRes1
  let r := highResHigh1 + highResLow2 + carry
  let d3 := r &&& 0xFFFFFFFF
  let carry := r >>> 32
  let r := highResHigh2 + carry
  (low, d3 ||| (r <<< 32))

def wideValue (words : UInt64 × UInt64) : ℕ := words.1.toNat + 2 ^ 64 * words.2.toNat

@[simp] theorem toNat_loDword (val : UInt64) : (loDword val).toNat = val.toNat % 2 ^ 32 := by
  rw [loDword, UInt64.toNat_and]
  exact Nat.and_two_pow_sub_one_eq_mod val.toNat 32

@[simp] theorem toNat_hiDword (val : UInt64) : (hiDword val).toNat = val.toNat / 2 ^ 32 := by
  rw [hiDword, UInt64.toNat_shiftRight]
  exact Nat.shiftRight_eq_div_pow val.toNat 32

@[simp] theorem toNat_shiftDword (val : UInt64) :
    (val <<< 32).toNat = val.toNat * 2 ^ 32 % 2 ^ 64 := by
  rw [UInt64.toNat_shiftLeft]
  exact congrArg (· % 2 ^ 64) (Nat.shiftLeft_eq val.toNat 32)

/-- A low half beside a high half. -/
theorem toNat_or_shiftDword (high low : UInt64) (h : low.toNat < 2 ^ 32) :
    ((high <<< 32) ||| low).toNat = high.toNat * 2 ^ 32 % 2 ^ 64 + low.toNat := by
  rw [UInt64.toNat_or, toNat_shiftDword]
  have hmod : high.toNat * 2 ^ 32 % 2 ^ 64 = high.toNat % 2 ^ 32 * 2 ^ 32 := by omega
  rw [hmod, ← Nat.shiftLeft_eq, ← Nat.shiftLeft_add_eq_or_of_lt h]

/-- The product of two halves leaves room for two more halves. -/
theorem mul_dwords_le {a b : ℕ} (ha : a < 2 ^ 32) (hb : b < 2 ^ 32) :
    a * b ≤ 2 ^ 64 - 2 ^ 33 + 1 := by
  calc a * b ≤ (2 ^ 32 - 1) * (2 ^ 32 - 1) := Nat.mul_le_mul (by omega) (by omega)
    _ = 2 ^ 64 - 2 ^ 33 + 1 := by decide

theorem mul_eq_dwords (a b : ℕ) :
    a * b = a % 2 ^ 32 * (b % 2 ^ 32) + 2 ^ 32 * (a / 2 ^ 32 * (b % 2 ^ 32)) +
      2 ^ 32 * (a % 2 ^ 32 * (b / 2 ^ 32)) + 2 ^ 64 * (a / 2 ^ 32 * (b / 2 ^ 32)) := by
  conv_lhs => rw [← Nat.mod_add_div a (2 ^ 32), ← Nat.mod_add_div b (2 ^ 32)]
  ring

/-- Products of halves do not wrap around. -/
theorem toNat_mul_dwords {a b : UInt64} (ha : a.toNat < 2 ^ 32) (hb : b.toNat < 2 ^ 32) :
    (a * b).toNat = a.toNat * b.toNat ∧ (a * b).toNat ≤ 2 ^ 64 - 2 ^ 33 + 1 := by
  have hle := mul_dwords_le ha hb
  have hmul : (a * b).toNat = a.toNat * b.toNat := by
    rw [UInt64.toNat_mul]
    exact Nat.mod_eq_of_lt (by omega)
  exact ⟨hmul, hmul ▸ hle⟩

/-- The four products of `mul128` put together, with the two carries. -/
theorem mul128_sum {ac ad bc bd : UInt64} (hac : ac.toNat ≤ 2 ^ 64 - 2 ^ 33 + 1)
    (had : ad.toNat ≤ 2 ^ 64 - 2 ^ 33 + 1) (hbc : bc.toNat ≤ 2 ^ 64 - 2 ^ 33 + 1) :
    wideValue (bd + ((ad + bc) <<< 32),
        ac + hiDword (ad + bc) + ((if ad + bc < ad then 1 else 0 : UInt64) <<< 32 : UInt64) +
          (if bd + ((ad + bc) <<< 32) < bd then 1 else 0 : UInt64)) =
      bd.toNat + 2 ^ 32 * bc.toNat + 2 ^ 32 * ad.toNat + 2 ^ 64 * ac.toNat := by
  have hbd := bd.toNat_lt
  -- the carries are those of the sums of numbers
  have hmiddle : (if ad + bc < ad then (1 : UInt64) else 0).toNat =
      (ad.toNat + bc.toNat) / 2 ^ 64 := by
    split
    all_goals
      rename_i hcarry
      rw [UInt64.lt_iff_toNat_lt, UInt64.toNat_add] at hcarry
      simp only [UInt64.toNat_one, UInt64.toNat_zero]
      omega
  have hsum : (ad + bc).toNat = (ad.toNat + bc.toNat) % 2 ^ 64 := UInt64.toNat_add ad bc
  have hlow : (if bd + ((ad + bc) <<< 32) < bd then (1 : UInt64) else 0).toNat =
      (bd.toNat + (ad + bc).toNat * 2 ^ 32 % 2 ^ 64) / 2 ^ 64 := by
    split
    all_goals
      rename_i hcarry
      rw [UInt64.lt_iff_toNat_lt, UInt64.toNat_add, toNat_shiftDword] at hcarry
      simp only [UInt64.toNat_one, UInt64.toNat_zero]
      omega
  simp only [wideValue, UInt64.toNat_add, toNat_shiftDword, toNat_hiDword, hmiddle, hlow, hsum]
  omega

theorem mul128_exact (a b : UInt64) : wideValue (mul128 a b) = a.toNat * b.toNat := by
  have ha := a.toNat_lt
  have hb := b.toNat_lt
  have haHigh : (hiDword a).toNat < 2 ^ 32 := by rw [toNat_hiDword]; omega
  have hbHigh : (hiDword b).toNat < 2 ^ 32 := by rw [toNat_hiDword]; omega
  have haLow : (loDword a).toNat < 2 ^ 32 := by rw [toNat_loDword]; omega
  have hbLow : (loDword b).toNat < 2 ^ 32 := by rw [toNat_loDword]; omega
  obtain ⟨hac, hacLe⟩ := toNat_mul_dwords haHigh hbHigh
  obtain ⟨had, hadLe⟩ := toNat_mul_dwords haHigh hbLow
  obtain ⟨hbc, hbcLe⟩ := toNat_mul_dwords haLow hbHigh
  obtain ⟨hbd, -⟩ := toNat_mul_dwords haLow hbLow
  calc wideValue (mul128 a b)
      = (loDword a * loDword b).toNat + 2 ^ 32 * (loDword a * hiDword b).toNat +
          2 ^ 32 * (hiDword a * loDword b).toNat + 2 ^ 64 * (hiDword a * hiDword b).toNat :=
        mul128_sum hacLe hadLe hbcLe
    _ = a.toNat * b.toNat := by
        rw [hac, had, hbc, hbd, mul_eq_dwords a.toNat b.toNat]
        simp only [toNat_loDword, toNat_hiDword]
        ring

/-- The four products of the portable function put together, half by half. -/
theorem mulPortable_sum {ll hl lh hh : UInt64} (hll : ll.toNat ≤ 2 ^ 64 - 2 ^ 33 + 1)
    (hhl : hl.toNat ≤ 2 ^ 64 - 2 ^ 33 + 1) (hlh : lh.toNat ≤ 2 ^ 64 - 2 ^ 33 + 1)
    (hhh : hh.toNat ≤ 2 ^ 64 - 2 ^ 33 + 1) :
    let middle := hl + hiDword ll
    let top := hh + hiDword lh
    let r := loDword middle + loDword lh
    let r' := hiDword middle + loDword top + hiDword r
    wideValue ((r <<< 32) ||| loDword ll, loDword r' ||| ((hiDword top + hiDword r') <<< 32)) =
      ll.toNat + 2 ^ 32 * hl.toNat + 2 ^ 32 * lh.toNat + 2 ^ 64 * hh.toNat := by
  intro middle top r r'
  have hmiddle : middle.toNat = hl.toNat + ll.toNat / 2 ^ 32 := by
    rw [UInt64.toNat_add, toNat_hiDword]
    omega
  have htop : top.toNat = hh.toNat + lh.toNat / 2 ^ 32 := by
    rw [UInt64.toNat_add, toNat_hiDword]
    omega
  have hr : r.toNat = middle.toNat % 2 ^ 32 + lh.toNat % 2 ^ 32 := by
    rw [UInt64.toNat_add, toNat_loDword, toNat_loDword]
    omega
  have hr' : r'.toNat = middle.toNat / 2 ^ 32 + top.toNat % 2 ^ 32 + r.toNat / 2 ^ 32 := by
    rw [UInt64.toNat_add, UInt64.toNat_add, toNat_hiDword, toNat_loDword, toNat_hiDword]
    have hlt := middle.toNat_lt
    have hlt' := r.toNat_lt
    omega
  have hlast : (hiDword top + hiDword r').toNat = top.toNat / 2 ^ 32 + r'.toNat / 2 ^ 32 := by
    rw [UInt64.toNat_add, toNat_hiDword, toNat_hiDword]
    have hlt := top.toNat_lt
    have hlt' := r'.toNat_lt
    omega
  have hlow : ((r <<< 32) ||| loDword ll).toNat = r.toNat * 2 ^ 32 % 2 ^ 64 + ll.toNat % 2 ^ 32 := by
    rw [toNat_or_shiftDword _ _ (by rw [toNat_loDword]; omega), toNat_loDword]
  have hhigh : (loDword r' ||| ((hiDword top + hiDword r') <<< 32)).toNat =
      (hiDword top + hiDword r').toNat * 2 ^ 32 % 2 ^ 64 + r'.toNat % 2 ^ 32 := by
    rw [UInt64.or_comm, toNat_or_shiftDword _ _ (by rw [toNat_loDword]; omega), toNat_loDword]
  rw [wideValue, hlow, hhigh, hlast]
  omega

theorem mulPortable_exact (a b : UInt64) : wideValue (mulPortable a b) = a.toNat * b.toNat := by
  have ha := a.toNat_lt
  have hb := b.toNat_lt
  have haHigh : (hiDword a).toNat < 2 ^ 32 := by rw [toNat_hiDword]; omega
  have hbHigh : (hiDword b).toNat < 2 ^ 32 := by rw [toNat_hiDword]; omega
  have haLow : (loDword a).toNat < 2 ^ 32 := by rw [toNat_loDword]; omega
  have hbLow : (loDword b).toNat < 2 ^ 32 := by rw [toNat_loDword]; omega
  obtain ⟨hll, hllLe⟩ := toNat_mul_dwords haLow hbLow
  obtain ⟨hhl, hhlLe⟩ := toNat_mul_dwords haHigh hbLow
  obtain ⟨hlh, hlhLe⟩ := toNat_mul_dwords haLow hbHigh
  obtain ⟨hhh, hhhLe⟩ := toNat_mul_dwords haHigh hbHigh
  have hsum := mulPortable_sum hllLe hhlLe hlhLe hhhLe
  calc wideValue (mulPortable a b)
      = (loDword a * loDword b).toNat +
          2 ^ 32 * (hiDword a * loDword b).toNat +
          2 ^ 32 * (loDword a * hiDword b).toNat +
          2 ^ 64 * (hiDword a * hiDword b).toNat := hsum
    _ = a.toNat * b.toNat := by
        rw [hll, hhl, hlh, hhh, mul_eq_dwords a.toNat b.toNat]
        simp only [toNat_loDword, toNat_hiDword]

/-! ### The check on words -/

def hashLimb (hash : Hash) (i : ℕ) : UInt64 := (hashWord hash i).toUInt64

def caddWords (a b : UInt64) : Bool := a + b < a

def cadcWords (a b : UInt64) (c : Bool) : Bool :=
  a + b < a ∨ c = true ∧ a + b = 0xFFFFFFFFFFFFFFFF

def checkHash64Words (mul : UInt64 → UInt64 → UInt64 × UInt64) (hash : Hash)
    (difficulty : UInt64) : Bool :=
  let top := mul (hashLimb hash 3) difficulty
  if top.2 ≠ 0 then false
  else
    let first := mul (hashLimb hash 0) difficulty
    let second := mul (hashLimb hash 1) difficulty
    let third := mul (hashLimb hash 2) difficulty
    let carry := caddWords first.2 second.1
    let carry := cadcWords second.2 third.1 carry
    let carry := cadcWords third.2 top.1 carry
    !carry

theorem toNat_hashLimb (hash : Hash) (i : ℕ) : (hashLimb hash i).toNat = hashWord hash i := by
  rw [hashLimb, Nat.toUInt64_eq, UInt64.toNat_ofNat']
  exact Nat.mod_eq_of_lt (hashWord_lt hash i)

theorem caddWords_eq (a b : UInt64) : caddWords a b = cadd a.toNat b.toNat := by
  rw [caddWords, cadd, decide_eq_decide, UInt64.lt_iff_toNat_lt, UInt64.toNat_add]

theorem cadcWords_eq (a b : UInt64) (c : Bool) : cadcWords a b c = cadc a.toNat b.toNat c := by
  rw [cadcWords, cadc, decide_eq_decide, UInt64.lt_iff_toNat_lt, UInt64.toNat_add,
    ← UInt64.toNat_inj, UInt64.toNat_add]
  rfl

theorem checkHash64Words_eq {mul : UInt64 → UInt64 → UInt64 × UInt64}
    (hmul : ∀ a b, wideValue (mul a b) = a.toNat * b.toNat) (hash : Hash) (difficulty : UInt64) :
    checkHash64Words mul hash difficulty = checkHash64 hash difficulty.toNat := by
  have hwords : ∀ a b, (mul a b).1.toNat = (Cryptonote.mul a.toNat b.toNat).1 ∧
      (mul a b).2.toNat = (Cryptonote.mul a.toNat b.toNat).2 := by
    intro a b
    have hvalue := hmul a b
    have hlow := (mul a b).1.toNat_lt
    rw [wideValue] at hvalue
    simp only [Cryptonote.mul, ← hvalue]
    constructor <;> omega
  have hzero : ∀ a b, (mul a b).2 ≠ 0 ↔ (Cryptonote.mul a.toNat b.toNat).2 ≠ 0 := by
    intro a b
    rw [← (hwords a b).2, Ne, ← UInt64.toNat_inj]
    rfl
  simp only [checkHash64Words, checkHash64, hzero, caddWords_eq, cadcWords_eq, (hwords _ _).1,
    (hwords _ _).2, toNat_hashLimb]

theorem checkHash_correct (hash : Hash) :
    (∀ difficulty : Difficulty,
      checkHash hash difficulty = true ↔ hashValue hash * difficulty.toNat < 2 ^ 256) ∧
    (∀ difficulty : UInt64,
      checkHash64Words mul128 hash difficulty = checkHash64 hash difficulty.toNat ∧
      checkHash64Words mulPortable hash difficulty = checkHash64 hash difficulty.toNat ∧
      checkHash64 hash difficulty.toNat = checkHash128 hash difficulty.toNat) ∧
    ∀ a b : UInt64, wideValue (mul128 a b) = a.toNat * b.toNat ∧
      wideValue (mulPortable a b) = a.toNat * b.toNat := by
  refine ⟨checkHash_iff hash, ?_, fun a b => ⟨mul128_exact a b, mulPortable_exact a b⟩⟩
  intro difficulty
  refine ⟨checkHash64Words_eq mul128_exact hash difficulty,
    checkHash64Words_eq mulPortable_exact hash difficulty, ?_⟩
  have hlt := difficulty.toNat_lt
  have hwide : (BitVec.ofNat 128 difficulty.toNat).toNat = difficulty.toNat := by
    rw [BitVec.toNat_ofNat]
    exact Nat.mod_eq_of_lt (by omega)
  have hiff := checkHash_iff hash (BitVec.ofNat 128 difficulty.toNat)
  rw [checkHash, hwide, if_pos (by omega)] at hiff
  rw [Bool.eq_iff_iff, hiff, checkHash128, decide_eq_true_eq]
  omega

end XrCoin.Cryptonote

import Mathlib
import XrCoin.Cryptonote.Basic

/-!
`decompose_amount_into_digits`: an amount as its decimal digits, with the low ones together as
dust.

The numbers are natural: no sum of parts of an amount is above the amount. Twenty rounds are
enough for 64 bits.
-/

namespace XrCoin.Cryptonote

variable {β : Type} (dustThreshold : ℕ) (chunkHandler dustHandler : ℕ → β)

def handleDust (dust : ℕ) (isDustHandled : Bool) : List β :=
  if isDustHandled = false ∧ dust ≠ 0 then [dustHandler dust] else []

/-- The loop over the digits, with what the handlers make of the chunks. -/
def decomposeLoop : ℕ → ℕ → ℕ → ℕ → Bool → List β
  | 0, _, dust, _, isDustHandled => handleDust dustHandler dust isDustHandled
  | rounds + 1, amount, dust, order, isDustHandled =>
      if amount = 0 then handleDust dustHandler dust isDustHandled
      else
        let chunk := amount % 10 * order
        if dust + chunk ≤ dustThreshold then
          decomposeLoop rounds (amount / 10) (dust + chunk) (order * 10) isDustHandled
        else
          handleDust dustHandler dust isDustHandled ++
            ((if chunk ≠ 0 then [chunkHandler chunk] else []) ++
              decomposeLoop rounds (amount / 10) dust (order * 10)
                (isDustHandled || decide (dust ≠ 0)))

def decomposeAmountIntoDigits (amount dustThreshold : UInt64)
    (chunkHandler dustHandler : UInt64 → β) : List β :=
  decomposeLoop dustThreshold.toNat (fun chunk => chunkHandler chunk.toUInt64)
    (fun dust => dustHandler dust.toUInt64) 20 amount.toNat 0 1 false

/-! ### Sums -/

theorem decomposeLoop_map {γ : Type} (f : β → γ) (rounds amount dust order : ℕ)
    (isDustHandled : Bool) :
    (decomposeLoop dustThreshold chunkHandler dustHandler rounds amount dust order
      isDustHandled).map f =
    decomposeLoop dustThreshold (f ∘ chunkHandler) (f ∘ dustHandler) rounds amount dust order
      isDustHandled := by
  induction rounds generalizing amount dust order isDustHandled with
  | zero =>
      simp only [decomposeLoop, handleDust]
      split_ifs <;> rfl
  | succ rounds ih =>
      simp only [decomposeLoop, handleDust]
      split_ifs <;> simp [ih]

theorem sum_handleDust (dust : ℕ) (isDustHandled : Bool) :
    (handleDust id dust isDustHandled).sum = if isDustHandled then 0 else dust := by
  rw [handleDust]
  cases isDustHandled with
  | true => simp
  | false =>
      by_cases hdust : dust = 0
      · simp [hdust]
      · simp [hdust]

/-- The chunks add up to the amount. Dust is handled before a chunk above the threshold, and then
every later digit is above it too. -/
theorem sum_decomposeLoop {rounds amount dust order : ℕ} {isDustHandled : Bool}
    (hrounds : amount < 10 ^ rounds) (horder : 0 < order)
    (hhandled : isDustHandled = true → dustThreshold < dust + order) :
    (decomposeLoop dustThreshold id id rounds amount dust order isDustHandled).sum =
      amount * order + if isDustHandled then 0 else dust := by
  induction rounds generalizing amount dust order isDustHandled with
  | zero =>
      obtain rfl : amount = 0 := by simpa using hrounds
      rw [decomposeLoop, sum_handleDust, Nat.zero_mul, Nat.zero_add]
  | succ rounds ih =>
      rw [decomposeLoop]
      by_cases hzero : amount = 0
      · rw [if_pos hzero, hzero, sum_handleDust, Nat.zero_mul, Nat.zero_add]
      rw [if_neg hzero]
      have hnext : amount / 10 < 10 ^ rounds := by
        rw [pow_succ] at hrounds
        omega
      have hparts : amount * order = amount / 10 * (order * 10) + amount % 10 * order := by
        conv_lhs => rw [← Nat.div_add_mod amount 10]
        ring
      set chunk := amount % 10 * order with hchunk
      have hdigit : chunk ≤ 9 * order := Nat.mul_le_mul_right order (by omega)
      by_cases hdust : dust + chunk ≤ dustThreshold
      · rw [if_pos hdust, ih hnext (by omega), hparts]
        · cases hcases : isDustHandled with
          | false => simp only [Bool.false_eq_true, if_false]; omega
          | true =>
              -- only a digit of zero is not above the threshold now
              have habove := hhandled hcases
              rcases Nat.eq_zero_or_pos (amount % 10) with hdigit₀ | hdigit₀
              · simp [hchunk, hdigit₀]
              · have hle : order ≤ chunk := Nat.le_mul_of_pos_left order hdigit₀
                omega
        · intro hcases
          have habove := hhandled hcases
          omega
      · have hsum : (if chunk ≠ 0 then [id chunk] else []).sum = chunk := by
          split_ifs with hne
          · simp
          · simpa using (not_not.mp hne).symm
        rw [if_neg hdust, List.sum_append, List.sum_append, sum_handleDust, hsum,
          ih hnext (by omega), hparts]
        · cases hcases : isDustHandled with
          | true => simp only [Bool.true_or, if_true]; omega
          | false =>
              by_cases hnone : dust = 0
              · simp [hnone]
                omega
              · simp [hnone]
                omega
        · intro _
          omega

/-- The parts of an amount as natural numbers. None of them wraps. -/
theorem toNat_decomposeAmount (amount dustThreshold : UInt64) :
    (decomposeAmountIntoDigits amount dustThreshold id id).map UInt64.toNat =
      decomposeLoop dustThreshold.toNat id id 20 amount.toNat 0 1 false := by
  have hlt := amount.toNat_lt
  have hsum : (decomposeLoop dustThreshold.toNat id id 20 amount.toNat 0 1 false).sum =
      amount.toNat := by
    rw [sum_decomposeLoop _ (by omega) Nat.one_pos (by simp)]
    simp
  have hmap : (decomposeAmountIntoDigits amount dustThreshold id id).map UInt64.toNat =
      (decomposeLoop dustThreshold.toNat id id 20 amount.toNat 0 1 false).map
        fun n => n.toUInt64.toNat := by
    rw [decomposeAmountIntoDigits, decomposeLoop_map, decomposeLoop_map]
    rfl
  rw [hmap]
  conv_rhs => rw [← List.map_id (decomposeLoop _ _ _ _ _ _ _ _)]
  apply List.map_congr_left
  intro n hn
  have hle := List.single_le_sum (fun _ _ => Nat.zero_le _) n hn
  rw [hsum] at hle
  exact UInt64.toNat_ofNat_of_lt (Nat.lt_of_le_of_lt hle hlt)

theorem sum_decomposeAmount (amount dustThreshold : UInt64) :
    ((decomposeAmountIntoDigits amount dustThreshold id id).map UInt64.toNat).sum =
      amount.toNat := by
  have hlt := amount.toNat_lt
  rw [toNat_decomposeAmount, sum_decomposeLoop _ (by omega) Nat.one_pos (by simp)]
  simp

/-! ### Digits -/

/-- Without a threshold, every part is a digit at its place. -/
theorem mem_decomposeLoop {rounds amount k n : ℕ}
    (h : n ∈ decomposeLoop 0 id id rounds amount 0 (10 ^ k) false) :
    ∃ digit j, 1 ≤ digit ∧ digit ≤ 9 ∧ j < k + rounds ∧ n = digit * 10 ^ j := by
  induction rounds generalizing amount k with
  | zero => simp [decomposeLoop, handleDust] at h
  | succ rounds ih =>
      rw [decomposeLoop] at h
      have hrest : ∀ {m}, n ∈ decomposeLoop 0 id id rounds m 0 (10 ^ k * 10) false →
          ∃ digit j, 1 ≤ digit ∧ digit ≤ 9 ∧ j < k + (rounds + 1) ∧ n = digit * 10 ^ j := by
        intro m hm
        rw [← pow_succ] at hm
        obtain ⟨digit, j, hlow, hhigh, hj, rfl⟩ := ih hm
        exact ⟨digit, j, hlow, hhigh, by omega, rfl⟩
      by_cases hzero : amount = 0
      · simp [hzero, handleDust] at h
      rw [if_neg hzero] at h
      by_cases hchunk : amount % 10 * 10 ^ k = 0
      · simp only [hchunk, le_refl, if_true, Nat.add_zero] at h
        exact hrest h
      · simp only [Nat.zero_add, Nat.le_zero, hchunk, if_false, handleDust, ne_eq,
          not_true_eq_false, and_false, not_false_eq_true, if_true, List.nil_append, id_eq,
          List.singleton_append, List.mem_cons, decide_false, Bool.or_false] at h
        rcases h with rfl | h
        · have hpos : 1 ≤ amount % 10 := by
            by_contra hlt
            exact hchunk (by simp [Nat.lt_one_iff.mp (not_le.mp hlt)])
          exact ⟨amount % 10, k, hpos, by omega, by omega, rfl⟩
        · exact hrest h

end XrCoin.Cryptonote

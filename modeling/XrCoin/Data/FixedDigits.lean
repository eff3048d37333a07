import Mathlib

/-!
Numbers written with a fixed number of digits, the highest one first.

The digits of a number below the power of the base give the number back, and the value of some
digits gives back the digits.
-/

namespace XrCoin.Data

def fixedDigits (b : ℕ) : ℕ → ℕ → List ℕ
  | 0, _ => []
  | w + 1, n => fixedDigits b w (n / b) ++ [n % b]

def fixedValue (b : ℕ) (digits : List ℕ) : ℕ := digits.foldl (fun value d => value * b + d) 0

variable {b : ℕ}

@[simp] theorem fixedValue_nil : fixedValue b [] = 0 := rfl

@[simp] theorem fixedValue_concat (digits : List ℕ) (d : ℕ) :
    fixedValue b (digits ++ [d]) = fixedValue b digits * b + d := by
  rw [fixedValue, List.foldl_append]
  rfl

@[simp] theorem length_fixedDigits (w n : ℕ) : (fixedDigits b w n).length = w := by
  induction w generalizing n with
  | zero => rfl
  | succ w ih => rw [fixedDigits, List.length_append, ih, List.length_singleton]

theorem lt_of_mem_fixedDigits (hb : 0 < b) {w n d : ℕ} (h : d ∈ fixedDigits b w n) : d < b := by
  induction w generalizing n with
  | zero => cases h
  | succ w ih =>
      rcases List.mem_append.mp h with h | h
      · exact ih h
      · rw [List.mem_singleton.mp h]
        exact Nat.mod_lt n hb

theorem fixedDigits_zero (w : ℕ) : fixedDigits b w 0 = List.replicate w 0 := by
  induction w with
  | zero => rfl
  | succ w ih => rw [fixedDigits, Nat.zero_div, Nat.zero_mod, ih, List.replicate_succ']

theorem fixedValue_fixedDigits {w n : ℕ} (h : n < b ^ w) : fixedValue b (fixedDigits b w n) = n := by
  induction w generalizing n with
  | zero =>
      rw [Nat.pow_zero] at h
      rw [fixedDigits, fixedValue_nil]
      omega
  | succ w ih =>
      have hn : n / b < b ^ w := by
        apply Nat.div_lt_of_lt_mul
        rwa [Nat.pow_succ'] at h
      rw [fixedDigits, fixedValue_concat, ih hn, Nat.mul_comm]
      exact Nat.div_add_mod n b

theorem fixedDigits_fixedValue {digits : List ℕ} (h : ∀ d ∈ digits, d < b) :
    fixedDigits b digits.length (fixedValue b digits) = digits := by
  induction digits using List.reverseRecOn with
  | nil => rfl
  | append_singleton digits d ih =>
      have hd : d < b := h d (by simp)
      have hb : 0 < b := Nat.zero_lt_of_lt hd
      have hquotient : (fixedValue b digits * b + d) / b = fixedValue b digits := by
        rw [Nat.add_comm, Nat.add_mul_div_right _ _ hb, Nat.div_eq_of_lt hd, Nat.zero_add]
      have hremainder : (fixedValue b digits * b + d) % b = d := by
        rw [Nat.add_comm, Nat.add_mul_mod_self_right, Nat.mod_eq_of_lt hd]
      rw [List.length_append, List.length_singleton, fixedDigits, fixedValue_concat, hquotient,
        hremainder, ih fun e he => h e (by simp [he])]

theorem fixedValue_lt {digits : List ℕ} (h : ∀ d ∈ digits, d < b) :
    fixedValue b digits < b ^ digits.length := by
  induction digits using List.reverseRecOn with
  | nil => exact Nat.one_pos
  | append_singleton digits d ih =>
      have hd : d < b := h d (by simp)
      have hvalue := ih fun e he => h e (by simp [he])
      rw [fixedValue_concat, List.length_append, List.length_singleton, Nat.pow_succ]
      calc fixedValue b digits * b + d < (fixedValue b digits + 1) * b := by
            rw [Nat.add_mul, Nat.one_mul]
            omega
        _ ≤ b ^ digits.length * b := Nat.mul_le_mul_right b hvalue

theorem fixedDigits_add (v w n : ℕ) :
    fixedDigits b (v + w) n = fixedDigits b v (n / b ^ w) ++ fixedDigits b w n := by
  induction w generalizing n with
  | zero => simp [fixedDigits]
  | succ w ih =>
      rw [← Nat.add_assoc, fixedDigits, fixedDigits, ih, Nat.div_div_eq_div_mul, ← Nat.pow_succ',
        List.append_assoc]

end XrCoin.Data

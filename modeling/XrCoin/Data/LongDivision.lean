import Mathlib
import XrCoin.Data.FixedDigits

/-!
Long division by one digit, from the highest digit on.

Each step puts the remainder in front of the next digit. The digits of the quotient fit, since the
remainder stays below the divisor.
-/

namespace XrCoin.Data

variable {b divisor : ℕ}

theorem fixedValue_append (digits digits' : List ℕ) :
    fixedValue b (digits ++ digits') =
      fixedValue b digits * b ^ digits'.length + fixedValue b digits' := by
  induction digits' using List.reverseRecOn with
  | nil => simp
  | append_singleton digits' d ih =>
      rw [← List.append_assoc, fixedValue_concat, ih, fixedValue_concat, List.length_append,
        List.length_singleton, Nat.pow_succ]
      ring

theorem fixedValue_cons (d : ℕ) (digits : List ℕ) :
    fixedValue b (d :: digits) = d * b ^ digits.length + fixedValue b digits := by
  have hsingle : fixedValue b [d] = d := by simp [fixedValue]
  rw [← List.singleton_append, fixedValue_append, hsingle]

/-- The digits of the quotient and the remainder, behind a remainder of the digits before. -/
def longDivide (b divisor : ℕ) : ℕ → List ℕ → List ℕ × ℕ
  | remainder, [] => ([], remainder)
  | remainder, d :: digits =>
      let rest := longDivide b divisor ((remainder * b + d) % divisor) digits
      ((remainder * b + d) / divisor :: rest.1, rest.2)

@[simp] theorem length_longDivide (remainder : ℕ) (digits : List ℕ) :
    (longDivide b divisor remainder digits).1.length = digits.length := by
  induction digits generalizing remainder with
  | nil => rfl
  | cons d digits ih => rw [longDivide, List.length_cons, ih, List.length_cons]

theorem longDivide_eq (remainder : ℕ) (digits : List ℕ) :
    divisor * fixedValue b (longDivide b divisor remainder digits).1 +
        (longDivide b divisor remainder digits).2 =
      remainder * b ^ digits.length + fixedValue b digits := by
  induction digits generalizing remainder with
  | nil => simp [longDivide]
  | cons d digits ih =>
      have hstep := ih ((remainder * b + d) % divisor)
      rw [longDivide, fixedValue_cons, length_longDivide, fixedValue_cons, List.length_cons]
      calc
        divisor * ((remainder * b + d) / divisor * b ^ digits.length +
              fixedValue b (longDivide b divisor ((remainder * b + d) % divisor) digits).1) +
            (longDivide b divisor ((remainder * b + d) % divisor) digits).2
            = divisor * ((remainder * b + d) / divisor) * b ^ digits.length +
                ((remainder * b + d) % divisor * b ^ digits.length + fixedValue b digits) := by
              rw [← hstep]
              ring
        _ = (divisor * ((remainder * b + d) / divisor) + (remainder * b + d) % divisor) *
              b ^ digits.length + fixedValue b digits := by ring
        _ = remainder * b ^ (digits.length + 1) + (d * b ^ digits.length + fixedValue b digits) := by
              rw [Nat.div_add_mod, Nat.pow_succ]
              ring

theorem longDivide_remainder_lt {remainder : ℕ} (h : remainder < divisor) (digits : List ℕ) :
    (longDivide b divisor remainder digits).2 < divisor := by
  induction digits generalizing remainder with
  | nil => exact h
  | cons d digits ih => exact ih (Nat.mod_lt _ (Nat.zero_lt_of_lt h))

/-- A remainder in front of a digit does not reach the divisor times the base. -/
theorem longDivide_digit_lt {remainder d : ℕ} (h : remainder < divisor) (hd : d < b) :
    (remainder * b + d) / divisor < b := by
  apply Nat.div_lt_of_lt_mul
  calc
    remainder * b + d < (remainder + 1) * b := by
      rw [Nat.add_mul, Nat.one_mul]
      omega
    _ ≤ divisor * b := Nat.mul_le_mul_right b h

theorem fixedValue_longDivide (hdivisor : 0 < divisor) (digits : List ℕ) :
    fixedValue b (longDivide b divisor 0 digits).1 = fixedValue b digits / divisor := by
  have hvalue := @longDivide_eq b divisor 0 digits
  have hlt := longDivide_remainder_lt (b := b) hdivisor digits
  rw [Nat.zero_mul, Nat.zero_add] at hvalue
  rw [← hvalue, Nat.mul_add_div hdivisor, Nat.div_eq_of_lt hlt, Nat.add_zero]

end XrCoin.Data

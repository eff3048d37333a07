import Mathlib
import XrCoin.Data.Window

/-!
Sums of the counters of a window over several values.
-/

namespace XrCoin.Data

variable {α : Type} [DecidableEq α]

/-- The items with one of some distinct values, counted value by value. -/
theorem sum_count_eq_countP {values : List α} (hnodup : values.Nodup) (items : List α) :
    (values.map items.count).sum = items.countP fun a => a ∈ values := by
  induction values with
  | nil => simp
  | cons a values ih =>
      rw [List.nodup_cons] at hnodup
      rw [List.map_cons, List.sum_cons, ih hnodup.2]
      clear ih
      induction items with
      | nil => rfl
      | cons b items ih =>
          rw [List.count_cons, List.countP_cons, List.countP_cons, ← ih]
          by_cases hb : b = a
          · -- the first value is counted on its own only
            subst hb
            simp only [beq_self_eq_true, if_true, hnodup.1, decide_false, Bool.false_eq_true,
              if_false, List.mem_cons, true_or, decide_true]
            omega
          · simp only [beq_iff_eq, hb, if_false, List.mem_cons, false_or]
            omega

namespace Window

variable {w : Window α}

theorem Counted.sum_counts (h : w.Counted) {values : List α} (hnodup : values.Nodup) :
    (values.map w.counts).sum = UInt32.ofNat (w.items.countP fun a => a ∈ values) := by
  rw [← sum_count_eq_countP hnodup]
  clear hnodup
  induction values with
  | nil => rfl
  | cons a values ih =>
      rw [List.map_cons, List.sum_cons, ih, h a, List.map_cons, List.sum_cons, UInt32.ofNat_add]

end Window

end XrCoin.Data

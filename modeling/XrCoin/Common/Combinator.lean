import Mathlib
import XrCoin.Data.Throwing

/-!
`Combinator`: the sublists of a list that have a given length, and `combinations_count`, their
number.
-/

namespace XrCoin.Common

open Data

variable {α : Type} (origin : List α)

/-- What `doCombine` adds to the combinations: the places that were chosen are followed by others
from a first one on. The last argument of the source counts the places that are missing. -/
def doCombine : ℕ → ℕ → List ℕ → List (List α)
  | 0, _, _ => []
  | k + 1, start, current =>
      (List.range' start (origin.length - k - start)).flatMap fun i =>
        if 0 < k then doCombine k (i + 1) (current ++ [i])
        else [(current ++ [i]).filterMap (origin[·]?)]

def combine (k : ℕ) : Except String (List (List α)) := do
  throwIf (origin.length < k) "k must be smaller than elements number"
  throwIf (k = 0) "k must be greater than zero"
  return doCombine origin k 0 []

def countLoop : ℕ → UInt64 → UInt32 → UInt64 → UInt64
  | 0, _, _, c => c
  | steps + 1, i, n, c => countLoop steps (i + 1) (n - 1) (c * n.toUInt64 / i)

def combinationsCount (k n : UInt32) : Except String UInt64 := do
  throwIf (n < k) "k must not be greater than n"
  return countLoop k.toNat 1 n 1

def ProductsFit (k n : ℕ) : Prop := ∀ i < k, n.choose i * (n - i) < 2 ^ 64

instance (k n : ℕ) : Decidable (ProductsFit k n) := inferInstanceAs (Decidable (∀ i < k, _))

variable {origin}

/-! ### The combinations -/

/-- What one place adds: all the ways to go on behind it. -/
theorem doCombine_step {k i : ℕ} {current : List ℕ} (hi : i < origin.length)
    (ih : ∀ start current, 0 < k → (doCombine origin k start current).Perm
      ((List.sublistsLen k (origin.drop start)).map
        (current.filterMap (origin[·]?) ++ ·))) :
    (if 0 < k then doCombine origin k (i + 1) (current ++ [i])
      else [(current ++ [i]).filterMap (origin[·]?)]).Perm
        ((List.sublistsLen k (origin.drop (i + 1))).map
          fun rest => current.filterMap (origin[·]?) ++ origin[i] :: rest) := by
  have hcurrent : (current ++ [i]).filterMap (origin[·]?) =
      current.filterMap (origin[·]?) ++ [origin[i]] := by
    rw [List.filterMap_append, List.filterMap_cons, List.getElem?_eq_getElem hi]
    rfl
  split_ifs with hk
  · have hstep := ih (i + 1) (current ++ [i]) hk
    simpa only [hcurrent, List.append_assoc, List.singleton_append] using hstep
  · obtain rfl : k = 0 := by omega
    rw [hcurrent, List.sublistsLen_zero]
    exact List.Perm.refl _

theorem doCombine_perm {k : ℕ} (hk : 0 < k) (start : ℕ) (current : List ℕ) :
    (doCombine origin k start current).Perm
      ((List.sublistsLen k (origin.drop start)).map
        (current.filterMap (origin[·]?) ++ ·)) := by
  induction k generalizing start current with
  | zero => exact absurd hk (lt_irrefl 0)
  | succ k ih =>
      rw [doCombine]
      -- over the places that can be chosen next
      generalize hplaces : origin.length - k - start = places
      induction places generalizing start with
      | zero =>
          have hshort : (origin.drop start).length < k + 1 := by
            rw [List.length_drop]
            omega
          rw [List.sublistsLen_of_length_lt hshort]
          exact List.Perm.refl _
      | succ places ihplaces =>
          have hstart : start < origin.length := by omega
          rw [List.range'_succ, List.flatMap_cons, List.drop_eq_getElem_cons hstart,
            List.sublistsLen_succ_cons, List.map_append, List.map_map]
          refine List.Perm.trans ?_ List.perm_append_comm
          have hfirst := @doCombine_step α origin k start current hstart
            fun start current hk => ih hk start current
          exact hfirst.append (ihplaces (start + 1) (by omega))

theorem combine_eq_ok {k : ℕ} (hpos : 0 < k) (hk : k ≤ origin.length) :
    ∃ combinations, combine origin k = .ok combinations ∧
      combinations.Perm (List.sublistsLen k origin) := by
  refine ⟨doCombine origin k 0 [], ?_, ?_⟩
  · refine bind_eq_ok.mpr ⟨(), throwIf_eq_ok.mpr (Nat.not_lt.mpr hk), ?_⟩
    exact bind_eq_ok.mpr ⟨(), throwIf_eq_ok.mpr hpos.ne', rfl⟩
  · simpa using @doCombine_perm α origin k hpos 0 []

/-! ### Their number -/

/-- The next binomial coefficient, in the order of the operations of the loop. -/
theorem choose_mul_div (n i : ℕ) : n.choose i * (n - i) / (i + 1) = n.choose (i + 1) := by
  rw [← Nat.choose_succ_right_eq]
  exact Nat.mul_div_cancel _ (Nat.succ_pos i)

theorem countLoop_eq {k n : ℕ} (hfit : ProductsFit k n) (hn : n < 2 ^ 32) (hk : k ≤ n) :
    ∀ steps i, i + steps = k → ∀ m : UInt32, m.toNat = n - i → ∀ c : UInt64,
      c.toNat = n.choose i →
        (countLoop steps (UInt64.ofNat (i + 1)) m c).toNat = n.choose k := by
  intro steps
  induction steps with
  | zero =>
      rintro i rfl m - c hc
      exact hc
  | succ steps ih =>
      intro i hi m hm c hc
      have hprod := hfit i (by omega)
      have hmul : (c * m.toUInt64).toNat = n.choose i * (n - i) := by
        rw [UInt64.toNat_mul, hc, UInt32.toNat_toUInt64, hm, Nat.mod_eq_of_lt hprod]
      have hplace : (UInt64.ofNat (i + 1)).toNat = i + 1 := by
        rw [UInt64.toNat_ofNat']
        exact Nat.mod_eq_of_lt (by omega)
      have hnext : UInt64.ofNat (i + 1) + 1 = UInt64.ofNat (i + 1 + 1) := by
        rw [UInt64.ofNat_add (i + 1) 1]
        rfl
      rw [countLoop, hnext]
      refine ih (i + 1) (by omega) (m - 1) ?_ _ ?_
      · have hone : (1 : UInt32) ≤ m := by
          rw [UInt32.le_iff_toNat_le, hm]
          show 1 ≤ n - i
          omega
        rw [UInt32.toNat_sub_of_le _ _ hone, hm]
        rfl
      · rw [UInt64.toNat_div, hmul, hplace, choose_mul_div]

/-- The loop computes the binomial coefficient as long as no product is too large. -/
theorem combinationsCount_eq {k n : UInt32} (hk : k ≤ n) (hfit : ProductsFit k.toNat n.toNat) :
    ∃ c, combinationsCount k n = .ok c ∧ c.toNat = n.toNat.choose k.toNat := by
  refine ⟨countLoop k.toNat 1 n 1, ?_, ?_⟩
  · exact bind_eq_ok.mpr ⟨(), throwIf_eq_ok.mpr (UInt32.not_lt.mpr hk), rfl⟩
  · exact countLoop_eq hfit n.toNat_lt (UInt32.le_iff_toNat_le.mp hk) k.toNat 0 (Nat.zero_add _) n
      (Nat.sub_zero _).symm 1 (by simp)

end XrCoin.Common

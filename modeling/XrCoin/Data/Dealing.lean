import Mathlib

/-!
Dealing a list out in equal shares, with what is left over put behind the first
shares, one item each.
-/

namespace XrCoin.Data

variable {α : Type}

/-- The given number of shares of equal size, off the front of the list. -/
def shares (size : ℕ) : ℕ → List α → List (List α)
  | 0, _ => []
  | n + 1, l => l.take size :: shares size n (l.drop size)

def appendEach : List α → List (List α) → List (List α)
  | a :: items, l :: ls => (l ++ [a]) :: appendEach items ls
  | _, ls => ls

def dealtOut (size n : ℕ) (l items : List α) : List α := (appendEach items (shares size n l)).flatten

theorem dealtOut_succ_cons (size n : ℕ) (l : List α) (a : α) (items : List α) :
    dealtOut size (n + 1) l (a :: items) =
      (l.take size ++ [a]) ++ dealtOut size n (l.drop size) items := rfl

theorem dealtOut_succ_nil (size n : ℕ) (l : List α) :
    dealtOut size (n + 1) l [] = l.take size ++ dealtOut size n (l.drop size) [] := by
  have hnil : ∀ ls : List (List α), appendEach [] ls = ls := fun ls => by cases ls <;> rfl
  rw [dealtOut, dealtOut, hnil, hnil]
  rfl

theorem dealtOut_perm {size n : ℕ} {l items : List α} (hitems : items.length ≤ n) :
    (dealtOut size n l items).Perm (l.take (n * size) ++ items) := by
  induction n generalizing l items with
  | zero =>
      obtain rfl : items = [] := List.length_eq_zero_iff.mp (by omega)
      rw [Nat.zero_mul, List.take_zero]
      exact List.Perm.refl _
  | succ n ih =>
      have htake : l.take ((n + 1) * size) = l.take size ++ (l.drop size).take (n * size) := by
        rw [Nat.succ_mul, Nat.add_comm (n * size), List.take_add]
      cases items with
      | nil =>
          have hrest : (dealtOut size n (l.drop size) []).Perm
              ((l.drop size).take (n * size) ++ []) := ih (Nat.zero_le n)
          rw [dealtOut_succ_nil, htake, List.append_assoc]
          exact hrest.append_left _
      | cons a items =>
          rw [dealtOut_succ_cons, htake, List.append_assoc, List.append_assoc]
          apply List.Perm.append_left
          have hrest : (dealtOut size n (l.drop size) items).Perm
              ((l.drop size).take (n * size) ++ items) := ih (Nat.le_of_succ_le_succ hitems)
          exact (hrest.cons a).trans List.perm_middle.symm

/-- Where an item of a share ends up: behind the items that the shares before it got. -/
theorem dealtOut_share {size n : ℕ} {l : List α} (items : List α) (hl : n * size ≤ l.length) {i j : ℕ}
    (hi : i < n) (hj : j < size) :
    (dealtOut size n l items)[i * size + min i items.length + j]? = l[i * size + j]? := by
  induction n generalizing l items i with
  | zero => exact absurd hi (by omega)
  | succ n ih =>
      rw [Nat.succ_mul] at hl
      have hshare : (l.take size).length = size := by
        rw [List.length_take]
        omega
      have hrest : n * size ≤ (l.drop size).length := by
        rw [List.length_drop]
        omega
      cases i with
      | zero =>
          rw [Nat.zero_mul, Nat.zero_min, Nat.zero_add]
          cases items with
          | nil =>
              rw [dealtOut_succ_nil, List.getElem?_append_left (by omega),
                List.getElem?_take_of_lt hj]
          | cons a items =>
              rw [dealtOut_succ_cons, List.append_assoc, List.getElem?_append_left (by omega),
                List.getElem?_take_of_lt hj]
      | succ i =>
          have hget : (l.drop size)[i * size + j]? = l[(i + 1) * size + j]? := by
            rw [List.getElem?_drop, Nat.succ_mul]
            congr 1
            omega
          rw [← hget]
          cases items with
          | nil =>
              rw [dealtOut_succ_nil, ← ih [] hrest (Nat.lt_of_succ_lt_succ hi),
                List.getElem?_append_right (by rw [hshare, Nat.succ_mul]; omega), hshare]
              congr 1
              rw [Nat.succ_mul, List.length_nil]
              omega
          | cons a items =>
              rw [dealtOut_succ_cons, ← ih items hrest (Nat.lt_of_succ_lt_succ hi),
                List.getElem?_append_right, List.length_append, hshare]
              · congr 1
                rw [Nat.succ_mul, List.length_cons, List.length_singleton]
                omega
              · rw [List.length_append, hshare, Nat.succ_mul, List.length_singleton, List.length_cons]
                omega

theorem dealtOut_item {size n : ℕ} {l items : List α} (hl : n * size ≤ l.length) {i : ℕ}
    (hi : i < items.length) (hitems : items.length ≤ n) :
    (dealtOut size n l items)[(i + 1) * size + i]? = items[i]? := by
  induction n generalizing l items i with
  | zero => exact absurd hi (by omega)
  | succ n ih =>
      rw [Nat.succ_mul] at hl
      have hshare : (l.take size).length = size := by
        rw [List.length_take]
        omega
      have hrest : n * size ≤ (l.drop size).length := by
        rw [List.length_drop]
        omega
      cases items with
      | nil => exact absurd hi (by simp)
      | cons a items =>
          rw [dealtOut_succ_cons]
          cases i with
          | zero =>
              rw [Nat.zero_add, Nat.one_mul, Nat.add_zero, List.append_assoc,
                List.getElem?_append_right (by omega), hshare, Nat.sub_self]
              rfl
          | succ i =>
              rw [List.getElem?_cons_succ,
                ← ih hrest (Nat.lt_of_succ_lt_succ hi) (Nat.le_of_succ_le_succ hitems),
                List.getElem?_append_right, List.length_append, hshare]
              · congr 1
                rw [Nat.succ_mul (i + 1), List.length_singleton]
                omega
              · rw [List.length_append, hshare, Nat.succ_mul, List.length_singleton]
                omega

end XrCoin.Data

import Mathlib

/-!
Heaps over positions `0, 1, …, ct`, where the parent of a position is its half. Position `0`
has the one child `1`.

The order is a total and transitive relation, so that the same lemmas serve a heap with the
least element on top and one with the greatest. A heap with one wrong position is mended by
exchanges down or up; the lemmas say what one exchange leaves and when the heap is in order
again.
-/

namespace XrCoin.Data

variable {α : Type} (r : α → α → Prop) {ct i c : ℕ} {y : ℕ → α} {v : α}

def HeapOrdered (ct : ℕ) (y : ℕ → α) : Prop := ∀ j, 1 ≤ j → j ≤ ct → r (y (j / 2)) (y j)

structure DownOrdered (ct i : ℕ) (y : ℕ → α) : Prop where
  except : ∀ j, 1 ≤ j → j ≤ ct → j / 2 ≠ i → r (y (j / 2)) (y j)
  grand : 1 ≤ i → ∀ j, 1 ≤ j → j ≤ ct → j / 2 = i → r (y (i / 2)) (y j)

structure UpOrdered (ct i : ℕ) (y : ℕ → α) : Prop where
  except : ∀ j, 1 ≤ j → j ≤ ct → j ≠ i → r (y (j / 2)) (y j)
  grand : 1 ≤ i → ∀ j, 1 ≤ j → j ≤ ct → j / 2 = i → r (y (i / 2)) (y j)

variable {r}

theorem DownOrdered.done (h : DownOrdered r ct i y)
    (hbelow : ∀ j, 1 ≤ j → j ≤ ct → j / 2 = i → r (y i) (y j)) : HeapOrdered r ct y := by
  intro j hj hct
  by_cases hparent : j / 2 = i
  · rw [hparent]
    exact hbelow j hj hct hparent
  · exact h.except j hj hct hparent

theorem UpOrdered.done (h : UpOrdered r ct i y) (habove : 1 ≤ i → r (y (i / 2)) (y i)) :
    HeapOrdered r ct y := by
  intro j hj hct
  by_cases heq : j = i
  · subst heq
    exact habove hj
  · exact h.except j hj hct heq

theorem DownOrdered.exchange (h : DownOrdered r ct i y) (hi : 1 ≤ i) (hc : c ≤ ct)
    (hparent : c / 2 = i) (hfirst : ∀ j, 1 ≤ j → j ≤ ct → j / 2 = i → r (y c) (y j))
    (hwrong : r (y c) (y i)) : DownOrdered r ct c (y ∘ Equiv.swap c i) := by
  have hother : ∀ j, j ≠ c → j ≠ i → (y ∘ Equiv.swap c i) j = y j := by
    intro j hjc hji
    rw [Function.comp_apply, Equiv.swap_apply_of_ne_of_ne hjc hji]
  have hatc : (y ∘ Equiv.swap c i) c = y i := by rw [Function.comp_apply, Equiv.swap_apply_left]
  have hati : (y ∘ Equiv.swap c i) i = y c := by rw [Function.comp_apply, Equiv.swap_apply_right]
  constructor
  · intro j hj hct hnot
    by_cases hjc : j = c
    · rw [hjc, hparent, hatc, hati]
      exact hwrong
    by_cases hji : j = i
    · rw [hji, hati, hother _ (by omega) (by omega)]
      exact h.grand hi c (by omega) hc hparent
    rw [hother j hjc hji]
    by_cases hhalf : j / 2 = i
    · rw [hhalf, hati]
      exact hfirst j hj hct hhalf
    · rw [hother _ hnot hhalf]
      exact h.except j hj hct hhalf
  · intro _ j hj hct hhalf
    rw [hparent, hati, hother j (by omega) (by omega), ← hhalf]
    exact h.except j hj hct (by omega)

theorem UpOrdered.exchange [IsTrans α r] (h : UpOrdered r ct i y) (hi : 1 ≤ i) (hct : i ≤ ct)
    (hwrong : r (y i) (y (i / 2))) : UpOrdered r ct (i / 2) (y ∘ Equiv.swap i (i / 2)) := by
  have hother : ∀ j, j ≠ i → j ≠ i / 2 → (y ∘ Equiv.swap i (i / 2)) j = y j := by
    intro j hji hjp
    rw [Function.comp_apply, Equiv.swap_apply_of_ne_of_ne hji hjp]
  have hati : (y ∘ Equiv.swap i (i / 2)) i = y (i / 2) := by
    rw [Function.comp_apply, Equiv.swap_apply_left]
  have hatp : (y ∘ Equiv.swap i (i / 2)) (i / 2) = y i := by
    rw [Function.comp_apply, Equiv.swap_apply_right]
  -- the other child of the parent was below the parent
  have hsibling : ∀ j, 1 ≤ j → j ≤ ct → j ≠ i → j / 2 = i / 2 → r (y (i / 2)) (y j) := by
    intro j hj hjct hne hhalf
    rw [← hhalf]
    exact h.except j hj hjct hne
  constructor
  · intro j hj hjct hnot
    by_cases hji : j = i
    · rw [hji, hati, hatp]
      exact hwrong
    rw [hother j hji hnot]
    by_cases hhalf : j / 2 = i / 2
    · rw [hhalf, hatp]
      exact IsTrans.trans _ _ _ hwrong (hsibling j hj hjct hji hhalf)
    by_cases hchild : j / 2 = i
    · rw [hchild, hati]
      exact h.grand hi j hj hjct hchild
    · rw [hother _ hchild hhalf]
      exact h.except j hj hjct hji
  · intro hp j hj hjct hhalf
    have hup : r (y (i / 2 / 2)) (y (i / 2)) := h.except (i / 2) hp (by omega) (by omega)
    rw [hother (i / 2 / 2) (by omega) (by omega)]
    by_cases hji : j = i
    · rw [hji, hati]
      exact hup
    · rw [hother j hji (by omega)]
      exact IsTrans.trans _ _ _ hup (hsibling j hj hjct hji hhalf)

/-! ### A new element -/

theorem HeapOrdered.grand [IsTrans α r] (h : HeapOrdered r ct y) (hi : 1 ≤ i) {j : ℕ} (hj : 1 ≤ j)
    (hct : j ≤ ct) (hhalf : j / 2 = i) : r (y (i / 2)) (y j) := by
  have hparent := h j hj hct
  rw [hhalf] at hparent
  exact IsTrans.trans _ _ _ (h i hi (by omega)) hparent

theorem HeapOrdered.sink [IsTrans α r] (h : HeapOrdered r ct y) (hi : 1 ≤ i)
    (hv : r (y i) v) : DownOrdered r ct i (Function.update y i v) := by
  constructor
  · intro j hj hct hnot
    rw [Function.update_of_ne hnot]
    by_cases hji : j = i
    · rw [hji, Function.update_self]
      rw [hji] at hj hct
      exact IsTrans.trans _ _ _ (h i hj hct) hv
    · rw [Function.update_of_ne hji]
      exact h j hj hct
  · intro _ j hj hct hhalf
    rw [Function.update_of_ne (by omega), Function.update_of_ne (by omega)]
    exact h.grand hi hj hct hhalf

theorem HeapOrdered.rise [IsTrans α r] (h : HeapOrdered r ct y) (hi : 1 ≤ i)
    (hv : r v (y i)) : UpOrdered r ct i (Function.update y i v) := by
  constructor
  · intro j hj hct hne
    rw [Function.update_of_ne hne]
    by_cases hhalf : j / 2 = i
    · rw [hhalf, Function.update_self]
      have hparent := h j hj hct
      rw [hhalf] at hparent
      exact IsTrans.trans _ _ _ hv hparent
    · rw [Function.update_of_ne hhalf]
      exact h j hj hct
  · intro _ j hj hct hhalf
    rw [Function.update_of_ne (by omega), Function.update_of_ne (by omega)]
    exact h.grand hi hj hct hhalf

theorem HeapOrdered.push (h : HeapOrdered r ct y) :
    UpOrdered r (ct + 1) (ct + 1) (Function.update y (ct + 1) v) := by
  constructor
  · intro j hj hct hne
    rw [Function.update_of_ne hne, Function.update_of_ne (by omega)]
    exact h j hj (by omega)
  · intro _ j _ hct hhalf
    omega

/-! ### The top -/

theorem HeapOrdered.top [IsTrans α r] (h : HeapOrdered r ct y) {j : ℕ} (hj : 1 ≤ j)
    (hct : j ≤ ct) : r (y 0) (y j) := by
  induction j using Nat.strongRecOn with
  | ind j ih =>
      have hparent := h j hj hct
      by_cases hhalf : j / 2 = 0
      · rw [hhalf] at hparent
        exact hparent
      · exact IsTrans.trans _ _ _ (ih (j / 2) (by omega) (by omega) (by omega)) hparent

/-- The one child of position `0` is above all others. -/
theorem HeapOrdered.one [IsTrans α r] (h : HeapOrdered r ct y) {j : ℕ} (hj : 2 ≤ j)
    (hct : j ≤ ct) : r (y 1) (y j) := by
  induction j using Nat.strongRecOn with
  | ind j ih =>
      have hparent := h j (by omega) hct
      by_cases hhalf : j / 2 = 1
      · rw [hhalf] at hparent
        exact hparent
      · exact IsTrans.trans _ _ _ (ih (j / 2) (by omega) (by omega) (by omega)) hparent

/-! ### Below the top -/

def LowerOrdered (r : α → α → Prop) (ct : ℕ) (y : ℕ → α) : Prop :=
  ∀ j, 2 ≤ j → j ≤ ct → r (y (j / 2)) (y j)

theorem HeapOrdered.lower (h : HeapOrdered r ct y) : LowerOrdered r ct y := by
  intro j hj hct
  exact h j (by omega) hct

theorem LowerOrdered.heapOrdered (h : LowerOrdered r ct y) (htop : 1 ≤ ct → r (y 0) (y 1)) :
    HeapOrdered r ct y := by
  intro j hj hct
  by_cases hone : j = 1
  · rw [hone]
    exact htop (by omega)
  · exact h j (by omega) hct

theorem LowerOrdered.congr {z : ℕ → α} (h : LowerOrdered r ct y) (hsame : ∀ j, 1 ≤ j → z j = y j) :
    LowerOrdered r ct z := by
  intro j hj hct
  rw [hsame j (by omega), hsame (j / 2) (by omega)]
  exact h j hj hct

theorem LowerOrdered.exchange (h : LowerOrdered r ct y) (hwrong : r (y 1) (y 0)) :
    DownOrdered r ct 1 (y ∘ Equiv.swap 1 0) := by
  have hother : ∀ j, 2 ≤ j → (y ∘ Equiv.swap 1 0) j = y j := by
    intro j hj
    rw [Function.comp_apply, Equiv.swap_apply_of_ne_of_ne (by omega) (by omega)]
  have hone : (y ∘ Equiv.swap 1 0) 1 = y 0 := by rw [Function.comp_apply, Equiv.swap_apply_left]
  have hzero : (y ∘ Equiv.swap 1 0) 0 = y 1 := by rw [Function.comp_apply, Equiv.swap_apply_right]
  constructor
  · intro j hj hct hnot
    by_cases hj1 : j = 1
    · rw [hj1, hone, hzero]
      exact hwrong
    · rw [hother j (by omega), hother (j / 2) (by omega)]
      exact h j (by omega) hct
  · intro _ j hj hct hhalf
    rw [hzero, hother j (by omega), ← hhalf]
    exact h j (by omega) hct

end XrCoin.Data

import XrCoin.Epee.RollingMedian

/-!
The two heaps of a `rolling_median_t` stay in order: the smaller half of the items is below
the median, the greater half above it, and the positions and the items name each other.
-/

namespace XrCoin.Epee

open Data

variable {α : Type}

namespace Side

@[simp] theorem other_other (s : Side) : s.other.other = s := by cases s <;> rfl

theorem forall_sides {p : Side → Prop} (s : Side) (hs : p s) (ho : p s.other) : ∀ t, p t := by
  intro t
  cases s <;> cases t <;> first | exact hs | exact ho

theorem at_injective (s : Side) : Function.Injective s.at := by
  intro j k h
  cases s <;> simp only [Side.at] at h <;> omega

@[simp] theorem at_zero (s : Side) : s.at 0 = 0 := by cases s <;> rfl

theorem at_ne_at_other {s : Side} {j k : ℕ} (hj : 1 ≤ j) : s.at j ≠ s.other.at k := by
  cases s <;> simp only [Side.at, Side.other] <;> omega

end Side

namespace RollingMedian

def items (m : RollingMedian α) (s : Side) (j : ℕ) : α := m.value (s.at j)

theorem items_zero (m : RollingMedian α) (s : Side) : m.items s 0 = m.value 0 := by
  rw [items, Side.at_zero]

/-! ### Exchanges -/

theorem heap_mmexchange (m : RollingMedian α) (i j : ℤ) :
    (m.mmexchange i j).heap = m.heap ∘ Equiv.swap i j := by
  funext k
  simp only [mmexchange, Function.comp_apply]
  by_cases hj : k = j
  · rw [hj, Function.update_self, Equiv.swap_apply_right]
  by_cases hi : k = i
  · rw [Function.update_of_ne hj, hi, Function.update_self, Equiv.swap_apply_left]
  · rw [Function.update_of_ne hj, Function.update_of_ne hi, Equiv.swap_apply_of_ne_of_ne hi hj]

theorem value_mmexchange (m : RollingMedian α) (i j : ℤ) :
    (m.mmexchange i j).value = m.value ∘ Equiv.swap i j := by
  funext k
  rw [value, heap_mmexchange]
  rfl

theorem items_mmexchange (m : RollingMedian α) (s : Side) (j k : ℕ) :
    (m.mmexchange (s.at j) (s.at k)).items s = m.items s ∘ Equiv.swap j k := by
  funext l
  rw [items, value_mmexchange, Function.comp_apply, Function.comp_apply, items,
    s.at_injective.swap_apply]

/-- The other heap does not see an exchange below the top. -/
theorem items_other_mmexchange (m : RollingMedian α) (s : Side) {j k l : ℕ} (hj : 1 ≤ j)
    (hl : 1 ≤ l ∨ 1 ≤ k) :
    (m.mmexchange (s.at j) (s.at k)).items s.other l = m.items s.other l := by
  have hne : s.other.at l ≠ s.at k := by
    rcases hl with hl | hk
    · have h := Side.at_ne_at_other (s := s.other) (k := k) hl
      rwa [Side.other_other] at h
    · exact (Side.at_ne_at_other hk).symm
  rw [items, value_mmexchange, Function.comp_apply, items,
    Equiv.swap_apply_of_ne_of_ne (Side.at_ne_at_other hj).symm hne]

def Active (m : RollingMedian α) (i : ℤ) : Prop :=
  0 < m.sz ∧ -(m.maxCt : ℤ) ≤ i ∧ i ≤ m.minCt

/-- The positions and the items name each other, the items in the queue are at the positions
in use, and the places that are not filled yet are as `clear` left them. -/
structure Placed (m : RollingMedian α) : Prop where
  heap_pos : ∀ k, m.heap (m.pos k) = k
  pos_heap : ∀ i, m.pos (m.heap i) = i
  active : ∀ k, k < m.sz ↔ m.Active (m.pos k)
  fresh : ∀ k, m.sz ≤ k → m.pos k = clearPos k
  counted : ∀ s, 1 ≤ m.count s → 0 < m.sz

theorem Placed.active_at {m : RollingMedian α} (h : m.Placed) {s : Side} {j : ℕ}
    (hct : 1 ≤ m.count s) (hj : j ≤ m.count s) : m.Active (s.at j) := by
  refine ⟨h.counted s hct, ?_⟩
  cases s <;> simp only [count] at hj <;> simp only [Side.at] <;> omega

structure SameQueue (m m' : RollingMedian α) : Prop where
  capacity : m'.capacity = m.capacity
  data : m'.data = m.data
  idx : m'.idx = m.idx
  minCt : m'.minCt = m.minCt
  maxCt : m'.maxCt = m.maxCt
  sz : m'.sz = m.sz

theorem SameQueue.rfl {m : RollingMedian α} : SameQueue m m :=
  ⟨Eq.refl _, Eq.refl _, Eq.refl _, Eq.refl _, Eq.refl _, Eq.refl _⟩

theorem SameQueue.trans {m m' m'' : RollingMedian α} (h : SameQueue m m') (h' : SameQueue m' m'') :
    SameQueue m m'' :=
  ⟨h'.capacity.trans h.capacity, h'.data.trans h.data, h'.idx.trans h.idx,
    h'.minCt.trans h.minCt, h'.maxCt.trans h.maxCt, h'.sz.trans h.sz⟩

theorem SameQueue.count {m m' : RollingMedian α} (h : SameQueue m m') (s : Side) :
    m'.count s = m.count s := by
  cases s
  · exact h.minCt
  · exact h.maxCt

theorem sameQueue_mmexchange (m : RollingMedian α) (i j : ℤ) : SameQueue m (m.mmexchange i j) :=
  ⟨rfl, rfl, rfl, rfl, rfl, rfl⟩

theorem Placed.pos_mmexchange {m : RollingMedian α} (h : m.Placed) (i j : ℤ) (k : ℕ) :
    (m.mmexchange i j).pos k = Equiv.swap i j (m.pos k) := by
  simp only [RollingMedian.mmexchange]
  by_cases hi : k = m.heap i
  · rw [hi, Function.update_self, h.pos_heap, Equiv.swap_apply_left]
  by_cases hj : k = m.heap j
  · rw [Function.update_of_ne hi, hj, Function.update_self, h.pos_heap, Equiv.swap_apply_right]
  · have hpos : ∀ l, k ≠ m.heap l → m.pos k ≠ l := by
      intro l hne hl
      exact hne (by rw [← hl, h.heap_pos])
    rw [Function.update_of_ne hi, Function.update_of_ne hj,
      Equiv.swap_apply_of_ne_of_ne (hpos i hi) (hpos j hj)]

theorem Placed.mmexchange_comm {m : RollingMedian α} (h : m.Placed) (i j : ℤ) :
    m.mmexchange i j = m.mmexchange j i := by
  apply RollingMedian.ext
  · rfl
  · rfl
  · funext k
    rw [h.pos_mmexchange, h.pos_mmexchange, Equiv.swap_comm]
  · rw [heap_mmexchange, heap_mmexchange, Equiv.swap_comm]
  all_goals rfl

theorem Placed.mmexchange {m : RollingMedian α} (h : m.Placed) {i j : ℤ} (hi : m.Active i)
    (hj : m.Active j) : (m.mmexchange i j).Placed where
  heap_pos k := by
    rw [h.pos_mmexchange, heap_mmexchange, Function.comp_apply, Equiv.swap_apply_self, h.heap_pos]
  pos_heap k := by
    rw [h.pos_mmexchange, heap_mmexchange, Function.comp_apply, h.pos_heap, Equiv.swap_apply_self]
  active k := by
    have hsame : m.Active (Equiv.swap i j (m.pos k)) ↔ m.Active (m.pos k) := by
      by_cases hki : m.pos k = i
      · rw [hki, Equiv.swap_apply_left]
        exact iff_of_true hj hi
      by_cases hkj : m.pos k = j
      · rw [hkj, Equiv.swap_apply_right]
        exact iff_of_true hi hj
      · rw [Equiv.swap_apply_of_ne_of_ne hki hkj]
    rw [h.pos_mmexchange]
    exact (h.active k).trans hsame.symm
  fresh k hk := by
    have hnot : ¬m.Active (m.pos k) := by
      rw [← h.active]
      exact Nat.not_lt.mpr hk
    rw [h.pos_mmexchange, Equiv.swap_apply_of_ne_of_ne, h.fresh k hk]
    · intro heq
      exact hnot (heq ▸ hi)
    · intro heq
      exact hnot (heq ▸ hj)
  counted := h.counted

end RollingMedian

/-! ### The order of the heaps -/

variable [LinearOrder α]

def Side.le (s : Side) (a b : α) : Prop :=
  match s with
  | .min => a ≤ b
  | .max => b ≤ a

instance (s : Side) : IsTrans α (s.le (α := α)) where
  trans a b c hab hbc := by
    cases s with
    | min => exact le_trans hab hbc
    | max => exact le_trans hbc hab

theorem Side.le_other {s : Side} {a b : α} : s.other.le a b ↔ s.le b a := by
  cases s <;> rfl

namespace RollingMedian

theorem above_iff {m : RollingMedian α} {s : Side} {j k : ℕ} :
    m.above s j k = true ↔ ¬s.le (m.items s k) (m.items s j) := by
  cases s with
  | min =>
      rw [above, mmless, decide_eq_true_eq]
      exact not_le.symm
  | max =>
      rw [above, mmless, decide_eq_true_eq]
      exact not_le.symm

theorem le_of_above {m : RollingMedian α} {s : Side} {j k : ℕ} (h : m.above s j k = true) :
    s.le (m.items s j) (m.items s k) := by
  have hnot := above_iff.mp h
  cases s with
  | min => exact le_of_lt (not_le.mp hnot)
  | max => exact le_of_lt (not_le.mp hnot)

theorem le_of_not_above {m : RollingMedian α} {s : Side} {j k : ℕ} (h : ¬m.above s j k = true) :
    s.le (m.items s k) (m.items s j) :=
  not_not.mp (mt above_iff.mpr h)

structure Mended (s : Side) (m m' : RollingMedian α) : Prop where
  placed : m'.Placed
  same : SameQueue m m'
  ordered : HeapOrdered s.le (m.count s) (m'.items s)

theorem first_child {m : RollingMedian α} {s : Side} {i child : ℕ} (hct : 2 * i ≤ m.count s)
    (hchild : child =
      if 2 * i < m.count s ∧ m.above s (2 * i + 1) (2 * i) then 2 * i + 1 else 2 * i) :
    child ≤ m.count s ∧ child / 2 = i ∧
      ∀ j, j ≤ m.count s → j / 2 = i → s.le (m.items s child) (m.items s j) := by
  have hrefl : ∀ a : α, s.le a a := by
    intro a
    cases s <;> exact le_refl a
  by_cases hsecond : 2 * i < m.count s ∧ m.above s (2 * i + 1) (2 * i) = true
  · rw [if_pos hsecond] at hchild
    subst hchild
    refine ⟨by omega, by omega, ?_⟩
    intro j _ hhalf
    obtain rfl | rfl : j = 2 * i ∨ j = 2 * i + 1 := by omega
    · exact le_of_above hsecond.2
    · exact hrefl _
  · rw [if_neg hsecond] at hchild
    subst hchild
    refine ⟨hct, by omega, ?_⟩
    intro j hj hhalf
    obtain rfl | rfl : j = 2 * i ∨ j = 2 * i + 1 := by omega
    · exact hrefl _
    · exact le_of_not_above (fun habove => hsecond ⟨by omega, habove⟩)

theorem sortDownLoop_mended (s : Side) (rounds i : ℕ) (m : RollingMedian α) (h : m.Placed)
    (hi : 1 ≤ i) (hrounds : m.count s ≤ rounds + i)
    (hdown : DownOrdered s.le (m.count s) i (m.items s)) :
    Mended s m (sortDownLoop s rounds i m) ∧
      (sortDownLoop s rounds i m).items s.other = m.items s.other := by
  induction rounds generalizing i m with
  | zero =>
      refine ⟨⟨h, .rfl, hdown.done ?_⟩, rfl⟩
      intro j _ hct hhalf
      omega
  | succ rounds ih =>
      rw [sortDownLoop]
      by_cases hleaf : m.count s < 2 * i
      · rw [if_pos hleaf]
        refine ⟨⟨h, .rfl, hdown.done ?_⟩, rfl⟩
        intro j _ hct hhalf
        omega
      rw [if_neg hleaf]
      generalize hchild :
        (if 2 * i < m.count s ∧ m.above s (2 * i + 1) (2 * i) then 2 * i + 1 else 2 * i) = child
      obtain ⟨hct, hhalf, hfirst⟩ := first_child (by omega) hchild.symm
      simp only [hhalf]
      by_cases hwrong : m.above s child i = true
      · rw [if_pos hwrong]
        have hplaced := h.mmexchange (h.active_at (s := s) (by omega) hct)
          (h.active_at (s := s) (j := i) (by omega) (by omega))
        have hdown' : DownOrdered s.le (m.count s) child
            ((m.mmexchange (s.at child) (s.at i)).items s) := by
          rw [items_mmexchange]
          exact hdown.exchange hi hct hhalf (fun j _ => hfirst j) (le_of_above hwrong)
        obtain ⟨hmended, hother⟩ := ih child (m.mmexchange (s.at child) (s.at i)) hplaced
          (by omega) (by change m.count s ≤ _; omega) hdown'
        refine ⟨⟨hmended.placed, (sameQueue_mmexchange m _ _).trans hmended.same,
          hmended.ordered⟩, ?_⟩
        rw [hother]
        funext l
        exact items_other_mmexchange m s (by omega) (.inr hi)
      · rw [if_neg hwrong]
        refine ⟨⟨h, .rfl, hdown.done ?_⟩, rfl⟩
        intro j _ hj hjhalf
        exact IsTrans.trans _ _ _ (le_of_not_above hwrong) (hfirst j hj hjhalf)

theorem sortUpLoop_zero (s : Side) (rounds : ℕ) (m : RollingMedian α) :
    sortUpLoop s rounds 0 m = (true, m) := by
  cases rounds <;> simp [sortUpLoop]

/-- The item moves up to the position where it belongs. If it becomes the median, the old
median is the first item of the heap. -/
theorem sortUpLoop_mended (s : Side) (rounds i : ℕ) (m : RollingMedian α) (h : m.Placed)
    (hct : i ≤ m.count s) (hrounds : i ≤ rounds)
    (hup : UpOrdered s.le (m.count s) i (m.items s)) :
    Mended s m (sortUpLoop s rounds i m).2 ∧
      (∀ l, 1 ≤ l → (sortUpLoop s rounds i m).2.items s.other l = m.items s.other l) ∧
      ((sortUpLoop s rounds i m).1 = false →
        (sortUpLoop s rounds i m).2.value 0 = m.value 0) ∧
      ((sortUpLoop s rounds i m).1 = true → 1 ≤ i →
        (sortUpLoop s rounds i m).2.items s 1 = m.value 0) := by
  induction rounds generalizing i m with
  | zero =>
      obtain rfl : i = 0 := by omega
      refine ⟨⟨h, .rfl, hup.done (by omega)⟩, fun _ _ => rfl, fun _ => rfl, ?_⟩
      intro _ hpos
      omega
  | succ rounds ih =>
      by_cases hwrong : 0 < i ∧ m.above s i (i / 2) = true
      · obtain ⟨hpos, habove⟩ := hwrong
        rw [sortUpLoop, if_pos ⟨hpos, habove⟩]
        have hplaced := h.mmexchange (h.active_at (s := s) (by omega) hct)
          (h.active_at (s := s) (j := i / 2) (by omega) (by omega))
        have hup' : UpOrdered s.le (m.count s) (i / 2)
            ((m.mmexchange (s.at i) (s.at (i / 2))).items s) := by
          rw [items_mmexchange]
          exact hup.exchange hpos hct (le_of_above habove)
        obtain ⟨hmended, hother, hkept, hchanged⟩ :=
          ih (i / 2) (m.mmexchange (s.at i) (s.at (i / 2))) hplaced
            (by change _ ≤ m.count s; omega) (by omega) hup'
        have hzero : 1 ≤ i / 2 → (m.mmexchange (s.at i) (s.at (i / 2))).value 0 = m.value 0 := by
          intro hhalf
          have hsame := items_other_mmexchange m s (l := 0) hpos (.inr hhalf)
          rwa [items_zero, items_zero] at hsame
        refine ⟨⟨hmended.placed, (sameQueue_mmexchange m _ _).trans hmended.same,
          hmended.ordered⟩, ?_, ?_, ?_⟩
        · intro l hl
          rw [hother l hl]
          exact items_other_mmexchange m s hpos (.inl hl)
        · intro hfalse
          rw [hkept hfalse]
          apply hzero
          -- from position zero the loop answers that the median changed
          by_contra hnot
          rw [show i / 2 = 0 by omega, sortUpLoop_zero] at hfalse
          exact absurd hfalse (by simp)
        · intro htrue _
          by_cases hhalf : 1 ≤ i / 2
          · rw [hchanged htrue hhalf]
            exact hzero hhalf
          · obtain rfl : i = 1 := by omega
            rw [show 1 / 2 = 0 by rfl, sortUpLoop_zero, items_mmexchange, Function.comp_apply,
              Equiv.swap_apply_left, items_zero]
      · rw [sortUpLoop, if_neg hwrong]
        have habove : 1 ≤ i → s.le (m.items s (i / 2)) (m.items s i) :=
          fun hpos => le_of_not_above (fun habove => hwrong ⟨hpos, habove⟩)
        refine ⟨⟨h, .rfl, hup.done habove⟩, fun _ _ => rfl, fun _ => rfl, ?_⟩
        intro htrue hpos
        simp only [decide_eq_true_eq] at htrue
        omega

/-! ### The median against one heap -/

/-- The median and the first item of a heap are exchanged if they are in the wrong order. -/
def settle (m : RollingMedian α) (s : Side) : RollingMedian α :=
  if 0 < m.count s ∧ m.above s 1 0 then (m.mmexchange (s.at 1) (s.at 0)).sortDown s 1 else m

theorem settle_mended {m : RollingMedian α} {s : Side} (h : m.Placed)
    (hlower : LowerOrdered s.le (m.count s) (m.items s)) :
    Mended s m (m.settle s) ∧ (∀ l, 1 ≤ l → (m.settle s).items s.other l = m.items s.other l) ∧
      (m.settle s = m ∨ 1 ≤ m.count s ∧ (m.settle s).value 0 = m.items s 1) := by
  rw [settle]
  by_cases hwrong : 0 < m.count s ∧ m.above s 1 0 = true
  · rw [if_pos hwrong]
    have hplaced := h.mmexchange (h.active_at (s := s) (j := 1) hwrong.1 hwrong.1)
      (h.active_at (s := s) (j := 0) hwrong.1 (by omega))
    have hdown : DownOrdered s.le (m.count s) 1 ((m.mmexchange (s.at 1) (s.at 0)).items s) := by
      rw [items_mmexchange]
      exact hlower.exchange (le_of_above hwrong.2)
    obtain ⟨hmended, hother⟩ := sortDownLoop_mended s (m.count s) 1
      (m.mmexchange (s.at 1) (s.at 0)) hplaced (Nat.le_refl 1) (by change m.count s ≤ _; omega) hdown
    rw [sortDown]
    refine ⟨⟨hmended.placed, (sameQueue_mmexchange m _ _).trans hmended.same,
      hmended.ordered⟩, ?_, .inr ⟨hwrong.1, ?_⟩⟩
    · intro l hl
      change (sortDownLoop s (m.count s) 1 _).items s.other l = _
      rw [hother]
      exact items_other_mmexchange m s (Nat.le_refl 1) (.inl hl)
    · have hroot := congrFun hother 0
      rw [items_zero, items_zero] at hroot
      change (sortDownLoop s (m.count s) 1 _).value 0 = _
      rw [hroot, ← items_zero _ s, items_mmexchange, Function.comp_apply, Equiv.swap_apply_right]
  · rw [if_neg hwrong]
    refine ⟨⟨h, .rfl, hlower.heapOrdered ?_⟩, fun _ _ => rfl, .inl rfl⟩
    intro hct
    exact le_of_not_above (fun habove => hwrong ⟨hct, habove⟩)

/-- Both heaps are in order below the median, and the smaller half is below the greater. -/
structure Loose (m : RollingMedian α) : Prop where
  placed : m.Placed
  lower : ∀ s, LowerOrdered s.le (m.count s) (m.items s)
  between : 1 ≤ m.minCt → 1 ≤ m.maxCt → m.items .max 1 ≤ m.items .min 1

structure Sorted (m : RollingMedian α) : Prop where
  placed : m.Placed
  ordered : ∀ s, HeapOrdered s.le (m.count s) (m.items s)

theorem Loose.side {m : RollingMedian α} (h : m.Loose) (s : Side) (hs : 1 ≤ m.count s)
    (ho : 1 ≤ m.count s.other) : s.le (m.items s.other 1) (m.items s 1) := by
  cases s with
  | min => exact h.between hs ho
  | max => exact h.between ho hs

theorem Loose.of_side {m : RollingMedian α} (s : Side) (hplaced : m.Placed)
    (hlower : ∀ s, LowerOrdered s.le (m.count s) (m.items s))
    (hbetween : 1 ≤ m.count s → 1 ≤ m.count s.other → s.le (m.items s.other 1) (m.items s 1)) :
    m.Loose := by
  refine ⟨hplaced, hlower, ?_⟩
  intro hmin hmax
  cases s with
  | min => exact hbetween hmin hmax
  | max => exact hbetween hmax hmin

/-- The other heap is in order with the median, and stays so. -/
theorem settle_sorted {m : RollingMedian α} {s : Side} (h : m.Loose)
    (hother : HeapOrdered s.other.le (m.count s.other) (m.items s.other)) :
    SameQueue m (m.settle s) ∧ (m.settle s).Sorted := by
  obtain ⟨hmended, hsame, hroot⟩ := settle_mended h.placed (h.lower s)
  have hlower := (h.lower s.other).congr hsame
  have hordered : HeapOrdered s.other.le (m.count s.other) ((m.settle s).items s.other) := by
    apply hlower.heapOrdered
    intro ho
    rw [hsame 1 (Nat.le_refl 1), items_zero]
    rcases hroot with hroot | ⟨hs, hroot⟩
    · rw [hroot, ← items_zero m s.other]
      exact hother 1 (Nat.le_refl 1) ho
    · rw [hroot, Side.le_other]
      exact h.side s hs ho
  refine ⟨hmended.same, hmended.placed, s.forall_sides ?_ ?_⟩
  · rw [hmended.same.count]
    exact hmended.ordered
  · rw [hmended.same.count]
    exact hordered

/-- The median is put in order with one heap, then with the other one. -/
theorem settle_settle_sorted {m : RollingMedian α} (h : m.Loose) (s : Side) :
    SameQueue m ((m.settle s).settle s.other) ∧ ((m.settle s).settle s.other).Sorted := by
  obtain ⟨hmended, hsame, hroot⟩ := settle_mended h.placed (h.lower s)
  have hordered : HeapOrdered s.le ((m.settle s).count s) ((m.settle s).items s) := by
    rw [hmended.same.count]
    exact hmended.ordered
  have hloose : (m.settle s).Loose := by
    apply Loose.of_side s hmended.placed
    · refine s.forall_sides ?_ ?_
      · exact hordered.lower
      · rw [hmended.same.count]
        exact (h.lower s.other).congr hsame
    · intro hs ho
      rcases hroot with hroot | ⟨_, hroot⟩
      · rw [hroot] at hs ho ⊢
        exact h.side s hs ho
      · -- the old first item is the median now, and the new one is below it
        have hfirst := hordered 1 (Nat.le_refl 1) hs
        rw [show 1 / 2 = 0 by rfl, items_zero, hroot] at hfirst
        rw [hmended.same.count] at hs ho
        rw [hsame 1 (Nat.le_refl 1)]
        exact IsTrans.trans _ _ _ (h.side s hs ho) hfirst
  obtain ⟨hqueue, hsorted⟩ := settle_sorted (s := s.other) hloose (by
    rw [Side.other_other]
    exact hordered)
  exact ⟨hmended.same.trans hqueue, hsorted⟩

/-- An item that may belong higher up rises in its heap. If it becomes the median, the other
heap is put in order with it. -/
def rise (m : RollingMedian α) (s : Side) (j : ℕ) : RollingMedian α :=
  if (m.sortUp s j).1 then (m.sortUp s j).2.settle s.other else (m.sortUp s j).2

theorem rise_sorted {m : RollingMedian α} {s : Side} {j : ℕ} (h : m.Placed) (hj : 1 ≤ j)
    (hct : j ≤ m.count s) (hup : UpOrdered s.le (m.count s) j (m.items s))
    (hother : HeapOrdered s.other.le (m.count s.other) (m.items s.other)) :
    SameQueue m (m.rise s j) ∧ (m.rise s j).Sorted := by
  obtain ⟨hmended, hsame, hkept, hchanged⟩ :=
    sortUpLoop_mended s j j m h hct (Nat.le_refl j) hup
  rw [rise, sortUp]
  generalize hloop : sortUpLoop s j j m = up at hmended hsame hkept hchanged ⊢
  have hordered : HeapOrdered s.le (up.2.count s) (up.2.items s) := by
    rw [hmended.same.count]
    exact hmended.ordered
  have hlower : LowerOrdered s.other.le (up.2.count s.other) (up.2.items s.other) := by
    rw [hmended.same.count]
    exact hother.lower.congr hsame
  by_cases hmedian : up.1 = true
  · rw [if_pos hmedian]
    have hloose : up.2.Loose := by
      apply Loose.of_side s hmended.placed (s.forall_sides hordered.lower hlower)
      intro _ ho
      rw [hmended.same.count] at ho
      rw [hchanged hmedian hj, hsame 1 (Nat.le_refl 1), ← Side.le_other, ← items_zero m s.other]
      exact hother 1 (Nat.le_refl 1) ho
    obtain ⟨hqueue, hsorted⟩ := settle_sorted (s := s.other) hloose (by
      rw [Side.other_other]
      exact hordered)
    exact ⟨hmended.same.trans hqueue, hsorted⟩
  · rw [if_neg hmedian]
    refine ⟨hmended.same, hmended.placed, s.forall_sides hordered ?_⟩
    apply hlower.heapOrdered
    intro ho
    rw [hmended.same.count] at ho
    rw [hsame 1 (Nat.le_refl 1), items_zero, hkept (by simpa using hmedian),
      ← items_zero m s.other]
    exact hother 1 (Nat.le_refl 1) ho

end RollingMedian

end XrCoin.Epee

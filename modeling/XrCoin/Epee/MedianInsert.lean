import XrCoin.Epee.MedianHeaps

/-!
`rolling_median_t::insert` keeps the two heaps in order, whether the queue still grows or the
new item takes the place of the oldest one.
-/

namespace XrCoin.Epee.RollingMedian

open Data

variable {α : Type}

/-! ### The places of a new queue -/

theorem clearPos_eq_zero {k : ℕ} : clearPos k = 0 ↔ k = 0 := by
  rw [clearPos]
  split <;> omega

theorem clearPos_eq_min {k j : ℕ} (hj : 1 ≤ j) : clearPos k = Side.min.at j ↔ k = 2 * j := by
  rw [clearPos, Side.at]
  split <;> omega

theorem clearPos_eq_max {k j : ℕ} (hj : 1 ≤ j) : clearPos k = Side.max.at j ↔ k + 1 = 2 * j := by
  rw [clearPos, Side.at]
  split <;> omega

theorem clearHeap_clearPos (k : ℕ) : clearHeap (clearPos k) = k := by
  rw [clearHeap, clearPos]
  split <;> split <;> omega

theorem clearPos_clearHeap (i : ℤ) : clearPos (clearHeap i) = i := by
  rw [clearHeap, clearPos]
  split <;> split <;> omega

structure Counted (m : RollingMedian α) : Prop where
  minCt : m.minCt = (m.sz - 1) / 2
  maxCt : m.maxCt = m.sz / 2

theorem Counted.active_clearPos {m : RollingMedian α} (h : m.Counted) (k : ℕ) :
    m.Active (clearPos k) ↔ k < m.sz := by
  have hmin := h.minCt
  have hmax := h.maxCt
  rw [Active, clearPos]
  split <;> omega

theorem Counted.pos {m : RollingMedian α} (h : m.Counted) (s : Side) (hct : 1 ≤ m.count s) :
    0 < m.sz := by
  have hmin := h.minCt
  have hmax := h.maxCt
  cases s <;> simp only [count] at hct <;> omega

theorem counted_clear {m : RollingMedian α} : m.clear.Counted := by
  constructor <;> simp [clear]

theorem placed_clear {m : RollingMedian α} : m.clear.Placed where
  heap_pos := clearHeap_clearPos
  pos_heap := clearPos_clearHeap
  active k := (counted_clear.active_clearPos k).symm
  fresh _ _ := rfl
  counted := counted_clear.pos

/-- The item in the queue, with the counters for the new number of items. -/
def queued (m : RollingMedian α) (v : α) : RollingMedian α :=
  { m.enqueue v with
    minCt := (Nat.min (m.sz + 1) m.capacity - 1) / 2
    maxCt := Nat.min (m.sz + 1) m.capacity / 2 }

theorem queued_counted (m : RollingMedian α) (v : α) : (m.queued v).Counted := ⟨rfl, rfl⟩

theorem queued_sz_of_full {m : RollingMedian α} {v : α} (h : m.sz = m.capacity) :
    (m.queued v).sz = m.sz := by
  change min (m.sz + 1) m.capacity = m.sz
  omega

theorem queued_sz_of_lt {m : RollingMedian α} {v : α} (h : m.sz < m.capacity) :
    (m.queued v).sz = m.sz + 1 :=
  Nat.min_eq_left h

theorem enqueue_eq_queued {m : RollingMedian α} {v : α} {lower upper : ℕ}
    (hmin : (m.queued v).minCt = upper) (hmax : (m.queued v).maxCt = lower) :
    { m.enqueue v with minCt := upper, maxCt := lower } = m.queued v := by
  rw [← hmin, ← hmax]
  rfl

variable [LinearOrder α]

structure WellFormed (m : RollingMedian α) : Prop where
  capacity_pos : 0 < m.capacity
  sz_le : m.sz ≤ m.capacity
  idx_lt : m.idx < m.capacity
  /-- While the queue grows the next item goes to its end. -/
  idx_eq : m.sz < m.capacity → m.idx = m.sz
  counted : m.Counted
  sorted : m.Sorted

theorem wellFormed_clear {m : RollingMedian α} (h : 0 < m.capacity) : m.clear.WellFormed where
  capacity_pos := h
  sz_le := Nat.zero_le _
  idx_lt := h
  idx_eq _ := rfl
  counted := counted_clear
  sorted := by
    refine ⟨placed_clear, ?_⟩
    intro s j hj hct
    cases s <;> simp only [count, clear] at hct <;> omega

/-! ### The new item before it moves -/

theorem WellFormed.sz_le_queued {m : RollingMedian α} (h : m.WellFormed) (v : α) :
    m.sz ≤ (m.queued v).sz := by
  have hle := h.sz_le
  change m.sz ≤ Nat.min (m.sz + 1) m.capacity
  exact Nat.le_min.mpr ⟨by omega, hle⟩

theorem queued_placed {m : RollingMedian α} (h : m.WellFormed) (v : α) :
    (m.queued v).Placed := by
  have hcounted := queued_counted m v
  have hsz := h.sz_le_queued v
  refine ⟨h.sorted.placed.heap_pos, h.sorted.placed.pos_heap, ?_, ?_, hcounted.pos⟩
  · intro k
    change _ ↔ (m.queued v).Active (m.pos k)
    by_cases hk : k < m.sz
    · have hactive := (h.sorted.placed.active k).mp hk
      have hmin := h.counted.minCt
      have hmax := h.counted.maxCt
      have hmin' := hcounted.minCt
      have hmax' := hcounted.maxCt
      rw [Active] at hactive ⊢
      omega
    · rw [h.sorted.placed.fresh k (by omega)]
      exact (hcounted.active_clearPos k).symm
  · intro k hk
    exact h.sorted.placed.fresh k (by omega)

theorem WellFormed.idx_lt_queued {m : RollingMedian α} (h : m.WellFormed) (v : α) :
    m.idx < (m.queued v).sz := by
  have hidx := h.idx_lt
  by_cases hfull : m.sz < m.capacity
  · rw [queued_sz_of_lt hfull, h.idx_eq hfull]
    omega
  · have hle := h.sz_le
    rw [queued_sz_of_full (by omega)]
    omega

theorem value_queued {m : RollingMedian α} (h : m.WellFormed) (v : α) :
    (m.queued v).value = Function.update m.value (m.pos m.idx) v := by
  funext i
  change Function.update m.data m.idx v (m.heap i) = _
  by_cases hi : i = m.pos m.idx
  · rw [hi, Function.update_self, h.sorted.placed.heap_pos, Function.update_self]
  · rw [Function.update_of_ne hi, Function.update_of_ne]
    · rfl
    · intro heq
      rw [← heq, h.sorted.placed.pos_heap] at hi
      exact hi rfl

/-- An item of one heap is new; the rest is in order. -/
structure Replaced (m q : RollingMedian α) (s : Side) (j : ℕ) (v : α) : Prop where
  placed : q.Placed
  one_le : 1 ≤ j
  le_count : j ≤ q.count s
  items : q.items s = Function.update (m.items s) j v
  other : HeapOrdered s.other.le (q.count s.other) (q.items s.other)

theorem Replaced.grown {m q : RollingMedian α} {s : Side} {j : ℕ} {v : α}
    (h : Replaced m q s j v) (hm : m.Sorted) (hj : j = m.count s + 1)
    (hct : q.count s = m.count s + 1) : UpOrdered s.le (q.count s) j (q.items s) := by
  rw [h.items, hct, hj]
  exact (hm.ordered s).push

theorem Replaced.risen {m q : RollingMedian α} {s : Side} {j : ℕ} {v : α}
    (h : Replaced m q s j v) (hm : m.Sorted) (hct : q.count s = m.count s)
    (hv : s.le v (m.items s j)) : UpOrdered s.le (q.count s) j (q.items s) := by
  rw [h.items, hct]
  exact (hm.ordered s).rise h.one_le hv

theorem Replaced.sunk {m q : RollingMedian α} {s : Side} {j : ℕ} {v : α}
    (h : Replaced m q s j v) (hm : m.Sorted) (hct : q.count s = m.count s)
    (hv : s.le (m.items s j) v) : SameQueue q (q.sortDown s j) ∧ (q.sortDown s j).Sorted := by
  have hdown : DownOrdered s.le (q.count s) j (q.items s) := by
    rw [h.items, hct]
    exact (hm.ordered s).sink h.one_le hv
  obtain ⟨hmended, hother⟩ := sortDownLoop_mended s (q.count s) j q h.placed h.one_le
    (by omega) hdown
  rw [sortDown]
  refine ⟨hmended.same, hmended.placed, s.forall_sides ?_ ?_⟩
  · rw [hmended.same.count]
    exact hmended.ordered
  · rw [hmended.same.count, hother]
    exact h.other

theorem items_queued {m : RollingMedian α} (h : m.WellFormed) {s : Side} {j : ℕ} (v : α)
    (hp : m.pos m.idx = s.at j) : (m.queued v).items s = Function.update (m.items s) j v := by
  funext l
  rw [RollingMedian.items, value_queued h, hp]
  by_cases hl : l = j
  · rw [hl, Function.update_self, Function.update_self]
  · rw [Function.update_of_ne hl, Function.update_of_ne (s.at_injective.ne hl)]
    rfl

theorem items_other_queued {m : RollingMedian α} (h : m.WellFormed) {s : Side} {j : ℕ} (v : α)
    (hp : m.pos m.idx = s.at j) (hj : 1 ≤ j) : (m.queued v).items s.other = m.items s.other := by
  funext l
  rw [RollingMedian.items, value_queued h, hp, Function.update_of_ne (Side.at_ne_at_other hj).symm]
  rfl

/-- While the queue grows, the new item is the last one of its heap. -/
theorem WellFormed.growing {m : RollingMedian α} (h : m.WellFormed) {s : Side} {j : ℕ} (v : α)
    (hsz : m.sz < m.capacity) (hp : m.pos m.idx = s.at j) (hj : 1 ≤ j) :
    j = m.count s + 1 ∧ (m.queued v).count s = m.count s + 1 ∧
      (m.queued v).count s.other = m.count s.other := by
  have hmin := h.counted.minCt
  have hmax := h.counted.maxCt
  have hmin' := (queued_counted m v).minCt
  have hmax' := (queued_counted m v).maxCt
  rw [queued_sz_of_lt hsz] at hmin' hmax'
  rw [h.idx_eq hsz, h.sorted.placed.fresh m.sz (Nat.le_refl _)] at hp
  cases s with
  | min =>
      have hk := (clearPos_eq_min hj).mp hp
      simp only [count, Side.other]
      omega
  | max =>
      have hk := (clearPos_eq_max hj).mp hp
      simp only [count, Side.other]
      omega

theorem WellFormed.full {m : RollingMedian α} (h : m.WellFormed) (v : α)
    (hsz : ¬m.sz < m.capacity) (s : Side) : (m.queued v).count s = m.count s := by
  have hle := h.sz_le
  have hsz' := queued_sz_of_full (v := v) (show m.sz = m.capacity by omega)
  have hmin := h.counted.minCt
  have hmax := h.counted.maxCt
  have hmin' := (queued_counted m v).minCt
  have hmax' := (queued_counted m v).maxCt
  rw [hsz'] at hmin' hmax'
  cases s <;> simp only [count] <;> omega

theorem WellFormed.replaced {m : RollingMedian α} (h : m.WellFormed) {s : Side} {j : ℕ} (v : α)
    (hp : m.pos m.idx = s.at j) (hj : 1 ≤ j) : Replaced m (m.queued v) s j v := by
  have hactive : (m.queued v).Active (s.at j) := by
    rw [← hp]
    exact ((queued_placed h v).active m.idx).mp (h.idx_lt_queued v)
  refine ⟨queued_placed h v, hj, ?_, items_queued h v hp, ?_⟩
  · obtain ⟨_, hlow, hhigh⟩ := hactive
    cases s <;> simp only [Side.at] at hlow hhigh <;> simp only [count] <;> omega
  · have hcount : (m.queued v).count s.other = m.count s.other := by
      by_cases hsz : m.sz < m.capacity
      · exact (h.growing v hsz hp hj).2.2
      · exact h.full v hsz s.other
    rw [hcount, items_other_queued h v hp hj]
    exact h.sorted.ordered s.other

/-! ### The two directions -/

theorem riseMin_eq {m : RollingMedian α} {j : ℕ} (h : m.Placed) (hmax : 0 < m.maxCt)
    (hct : j ≤ m.count .min) (hup : UpOrdered Side.min.le (m.count .min) j (m.items .min)) :
    m.riseMin j = m.rise .min j := by
  have hmended := (sortUpLoop_mended .min j j m h hct (Nat.le_refl j) hup).1
  rw [riseMin, minSortUp, rise, sortUp]
  generalize sortUpLoop .min j j m = up at hmended ⊢
  have hplaced := hmended.placed
  rw [← hmended.same.maxCt] at hmax
  have habove : up.2.above Side.min.other 1 0 = up.2.mmless 0 (-1) := rfl
  have hexchange : up.2.mmexchange 0 (-1) =
      up.2.mmexchange (Side.min.other.at 1) (Side.min.other.at 0) := hplaced.mmexchange_comm 0 (-1)
  rw [settle, habove, ← hexchange]
  by_cases hmedian : up.1 = true
  · by_cases hless : up.2.mmless 0 (-1) = true
    · rw [if_pos ⟨hmedian, hless⟩, if_pos hmedian, if_pos ⟨hmax, hless⟩]
      rfl
    · rw [if_neg (fun h => hless h.2), if_pos hmedian, if_neg (fun h => hless h.2)]
  · rw [if_neg (fun h => hmedian h.1), if_neg hmedian]

theorem riseMax_eq (m : RollingMedian α) (j : ℕ) : m.riseMax j = m.rise .max j := by
  rw [riseMax, maxSortUp, rise]
  generalize m.sortUp .max j = up
  by_cases hmedian : up.1 = true
  · simp only [hmedian, true_and, if_true]
    rfl
  · rw [if_neg (fun h => hmedian h.1), if_neg hmedian]

theorem settle_eq (m : RollingMedian α) (s : Side) :
    m.settle s =
      if 0 < m.count s then
        if (m.sortUp s 1).1 then (m.sortUp s 1).2.sortDown s 1 else (m.sortUp s 1).2
      else m := by
  rw [settle]
  by_cases hct : 0 < m.count s
  · simp only [hct, true_and, if_true, sortUp, sortUpLoop]
    by_cases habove : m.above s 1 0 = true
    · simp [habove]
    · simp [habove]
  · rw [if_neg (fun h => hct h.1), if_neg hct]

theorem settleMedian_eq (m : RollingMedian α) :
    m.settleMedian = (m.settle .max).settle .min := by
  rw [settle_eq (m.settle .max), settle_eq m .max]
  rfl

/-! ### Insertion -/

theorem WellFormed.insert_min {m : RollingMedian α} (h : m.WellFormed) (v : α)
    (hp : 0 < m.pos m.idx) : SameQueue (m.queued v) (m.insert v) ∧ (m.insert v).Sorted := by
  have hat : m.pos m.idx = Side.min.at (m.pos m.idx).natAbs := by
    simp only [Side.at]
    omega
  have hj : 1 ≤ (m.pos m.idx).natAbs := by omega
  have hreplaced := h.replaced v hat hj
  have hmax : 0 < (m.queued v).maxCt := by
    have hct := hreplaced.le_count
    have hmin' := (queued_counted m v).minCt
    have hmax' := (queued_counted m v).maxCt
    simp only [count] at hct
    omega
  have hrise : UpOrdered Side.min.le ((m.queued v).count .min) (m.pos m.idx).natAbs
        ((m.queued v).items .min) →
      SameQueue (m.queued v) ((m.queued v).riseMin (m.pos m.idx).natAbs) ∧
        ((m.queued v).riseMin (m.pos m.idx).natAbs).Sorted := by
    intro hup
    rw [riseMin_eq hreplaced.placed hmax hreplaced.le_count hup]
    exact rise_sorted hreplaced.placed hj hreplaced.le_count hup hreplaced.other
  by_cases hsz : m.sz < m.capacity
  · obtain ⟨hlast, hct, hcto⟩ := h.growing v hsz hat hj
    have hgrow : m.minCt < (m.capacity - 1) / 2 := by
      have hmin' := (queued_counted m v).minCt
      rw [queued_sz_of_lt hsz] at hmin'
      simp only [count] at hct
      omega
    have hinsert : m.insert v = (m.queued v).riseMin (m.pos m.idx).natAbs := by
      rw [← enqueue_eq_queued hct hcto]
      simp only [insert, if_pos hp, if_pos hgrow]
      rfl
    rw [hinsert]
    exact hrise (hreplaced.grown h.sorted hlast hct)
  · have hct := h.full v hsz
    have hgrow : ¬m.minCt < (m.capacity - 1) / 2 := by
      have hle := h.sz_le
      have hmin := h.counted.minCt
      omega
    have hqueued : m.enqueue v = m.queued v := enqueue_eq_queued (hct .min) (hct .max)
    have hold : m.items .min (m.pos m.idx).natAbs = m.data m.idx := by
      rw [items, ← hat, value, h.sorted.placed.heap_pos]
    simp only [insert, if_pos hp, if_neg hgrow, hqueued]
    by_cases hv : m.data m.idx < v
    · rw [if_pos hv]
      apply hreplaced.sunk h.sorted (hct .min)
      rw [hold]
      exact le_of_lt hv
    · rw [if_neg hv]
      apply hrise
      apply hreplaced.risen h.sorted (hct .min)
      rw [hold]
      exact not_lt.mp hv

theorem WellFormed.insert_max {m : RollingMedian α} (h : m.WellFormed) (v : α)
    (hp : m.pos m.idx < 0) : SameQueue (m.queued v) (m.insert v) ∧ (m.insert v).Sorted := by
  have hat : m.pos m.idx = Side.max.at (m.pos m.idx).natAbs := by
    simp only [Side.at]
    omega
  have hj : 1 ≤ (m.pos m.idx).natAbs := by omega
  have hreplaced := h.replaced v hat hj
  have hrise : UpOrdered Side.max.le ((m.queued v).count .max) (m.pos m.idx).natAbs
        ((m.queued v).items .max) →
      SameQueue (m.queued v) ((m.queued v).riseMax (m.pos m.idx).natAbs) ∧
        ((m.queued v).riseMax (m.pos m.idx).natAbs).Sorted := by
    intro hup
    rw [riseMax_eq]
    exact rise_sorted hreplaced.placed hj hreplaced.le_count hup hreplaced.other
  have hnot : ¬0 < m.pos m.idx := by omega
  by_cases hsz : m.sz < m.capacity
  · obtain ⟨hlast, hct, hcto⟩ := h.growing v hsz hat hj
    have hgrow : m.maxCt < m.capacity / 2 := by
      have hmax' := (queued_counted m v).maxCt
      rw [queued_sz_of_lt hsz] at hmax'
      simp only [count] at hct
      omega
    have hinsert : m.insert v = (m.queued v).riseMax (m.pos m.idx).natAbs := by
      rw [← enqueue_eq_queued hcto hct]
      simp only [insert, if_neg hnot, if_pos hp, if_pos hgrow]
      rfl
    rw [hinsert]
    exact hrise (hreplaced.grown h.sorted hlast hct)
  · have hct := h.full v hsz
    have hgrow : ¬m.maxCt < m.capacity / 2 := by
      have hle := h.sz_le
      have hmax := h.counted.maxCt
      omega
    have hqueued : m.enqueue v = m.queued v := enqueue_eq_queued (hct .min) (hct .max)
    have hold : m.items .max (m.pos m.idx).natAbs = m.data m.idx := by
      rw [items, ← hat, value, h.sorted.placed.heap_pos]
    simp only [insert, if_neg hnot, if_pos hp, if_neg hgrow, hqueued]
    by_cases hv : v < m.data m.idx
    · rw [if_pos hv]
      apply hreplaced.sunk h.sorted (hct .max)
      rw [hold]
      exact le_of_lt hv
    · rw [if_neg hv]
      apply hrise
      apply hreplaced.risen h.sorted (hct .max)
      rw [hold]
      exact not_lt.mp hv

/-- The new item takes the place of the median, or is the first one. -/
theorem WellFormed.insert_median {m : RollingMedian α} (h : m.WellFormed) (v : α)
    (hp : m.pos m.idx = 0) : SameQueue (m.queued v) (m.insert v) ∧ (m.insert v).Sorted := by
  have hct : ∀ s, (m.queued v).count s = m.count s := by
    by_cases hsz : m.sz < m.capacity
    · have hmin := h.counted.minCt
      have hmax := h.counted.maxCt
      have hmin' := (queued_counted m v).minCt
      have hmax' := (queued_counted m v).maxCt
      rw [h.idx_eq hsz, h.sorted.placed.fresh m.sz (Nat.le_refl _), clearPos_eq_zero] at hp
      rw [queued_sz_of_lt hsz] at hmin' hmax'
      intro s
      cases s <;> simp only [count] <;> omega
    · exact h.full v hsz
  have hqueued : m.enqueue v = m.queued v := enqueue_eq_queued (hct .min) (hct .max)
  have hitems : ∀ s l, 1 ≤ l → (m.queued v).items s l = m.items s l := by
    intro s l hl
    rw [items_queued h v (s := s) (j := 0) (by rw [hp, Side.at_zero]),
      Function.update_of_ne (by omega)]
  have hloose : (m.queued v).Loose := by
    refine ⟨queued_placed h v, ?_, ?_⟩
    · intro s
      rw [hct]
      exact (h.sorted.ordered s).lower.congr (hitems s)
    · intro hmin hmax
      have hupper := h.sorted.ordered .min 1 (Nat.le_refl 1) (by rw [← hct]; exact hmin)
      have hlower := h.sorted.ordered .max 1 (Nat.le_refl 1) (by rw [← hct]; exact hmax)
      rw [show 1 / 2 = 0 by rfl, items_zero] at hupper hlower
      rw [hitems _ 1 (Nat.le_refl 1), hitems _ 1 (Nat.le_refl 1)]
      exact le_trans hlower hupper
  have hinsert : m.insert v = (m.queued v).settleMedian := by
    simp [RollingMedian.insert, hp, hqueued]
  rw [hinsert, settleMedian_eq]
  exact settle_settle_sorted hloose .max

theorem WellFormed.insert {m : RollingMedian α} (h : m.WellFormed) (v : α) :
    (m.insert v).WellFormed ∧ SameQueue (m.queued v) (m.insert v) := by
  obtain ⟨hsame, hsorted⟩ : SameQueue (m.queued v) (m.insert v) ∧ (m.insert v).Sorted := by
    rcases Int.lt_trichotomy (m.pos m.idx) 0 with hp | hp | hp
    · exact h.insert_max v hp
    · exact h.insert_median v hp
    · exact h.insert_min v hp
  have hcapacity : (m.insert v).capacity = m.capacity := hsame.capacity
  have hidx : (m.insert v).idx = (m.idx + 1) % m.capacity := hsame.idx
  have hsz : (m.insert v).sz = min (m.sz + 1) m.capacity := hsame.sz
  have hpos := h.capacity_pos
  refine ⟨⟨?_, ?_, ?_, ?_, ?_, hsorted⟩, hsame⟩
  · rw [hcapacity]
    exact hpos
  · rw [hcapacity, hsz]
    exact Nat.min_le_right _ _
  · rw [hcapacity, hidx]
    exact Nat.mod_lt _ hpos
  · intro hlt
    rw [hcapacity, hsz] at hlt
    rw [hidx, hsz, h.idx_eq (by omega), Nat.mod_eq_of_lt (by omega)]
    omega
  · constructor
    · rw [hsame.minCt, hsame.sz]
      rfl
    · rw [hsame.maxCt, hsame.sz]
      rfl

end XrCoin.Epee.RollingMedian

import Mathlib
import XrCoin.Epee.MedianInsert

/-!
A `rolling_median_t` in memory: the calls read and write only the places that are allocated.
What else there is does not matter to them, and stays.
-/

namespace XrCoin.Epee.RollingMedian

variable {α : Type}

def Allocated (m : RollingMedian α) (i : ℤ) : Prop :=
  -((m.capacity / 2 : ℕ) : ℤ) ≤ i ∧ i ≤ ((m.capacity - 1) / 2 : ℕ)

instance (m : RollingMedian α) (i : ℤ) : Decidable (m.Allocated i) :=
  inferInstanceAs (Decidable (_ ∧ _))

def within (m o : RollingMedian α) : RollingMedian α :=
  { m with
    data := fun k => if k < m.capacity then m.data k else o.data k
    pos := fun k => if k < m.capacity then m.pos k else o.pos k
    heap := fun i => if m.Allocated i then m.heap i else o.heap i }

@[simp] theorem within_self (m : RollingMedian α) : m.within m = m := by
  apply RollingMedian.ext <;> simp [within]

@[simp] theorem within_within (m o o' : RollingMedian α) : (m.within o).within o' = m.within o' := by
  apply RollingMedian.ext
  · rfl
  · funext k
    by_cases hk : k < m.capacity <;> simp [within, hk]
  · funext k
    by_cases hk : k < m.capacity <;> simp [within, hk]
  · funext i
    change (if m.Allocated i then (m.within o).heap i else o'.heap i) =
      if m.Allocated i then m.heap i else o'.heap i
    by_cases hi : m.Allocated i
    · rw [if_pos hi, if_pos hi]
      exact if_pos hi
    · rw [if_neg hi, if_neg hi]
  all_goals rfl

theorem count_within (m o : RollingMedian α) (s : Side) : (m.within o).count s = m.count s := by
  cases s <;> rfl

theorem update_within {ι β : Type} [DecidableEq ι] {p : ι → Prop} [DecidablePred p]
    {f g : ι → β} {a : ι} {b : β} (ha : p a) :
    Function.update (fun k => if p k then f k else g k) a b =
      fun k => if p k then Function.update f a b k else g k := by
  funext k
  by_cases hk : k = a
  · subst hk
    rw [Function.update_self, if_pos ha, Function.update_self]
  · rw [Function.update_of_ne hk, Function.update_of_ne hk]

/-! ### The bytes of the arrays -/

inductive Place
  | data (k : ℕ)
  | pos (k : ℕ)
  | heap (i : ℤ)

namespace Place

/-- The first byte of a place: `pos` follows the items, `heap` points to the middle of
what follows `pos`. -/
def offset (capacity : ℕ) : Place → ℤ
  | .data k => 8 * k
  | .pos k => 8 * capacity + 4 * k
  | .heap i => 8 * capacity + 4 * (capacity + capacity / 2 + i)

def width : Place → ℤ
  | .data _ => 8
  | .pos _ => 4
  | .heap _ => 4

/-- The place lies in the bytes that the constructor got. -/
def Inside (capacity : ℕ) (p : Place) : Prop :=
  0 ≤ p.offset capacity ∧ p.offset capacity + p.width ≤ allocBytes capacity

instance (capacity : ℕ) (p : Place) : Decidable (p.Inside capacity) :=
  inferInstanceAs (Decidable (_ ∧ _))

end Place

/-- The places of the arrays. `clear` writes all of `pos` and `heap`. -/
def Used (m : RollingMedian α) : Place → Prop
  | .data k => k < m.capacity
  | .pos k => k < m.capacity
  | .heap i => m.Allocated i

theorem allocBytes_lt (capacity : ℕ) : allocBytes capacity < 2 ^ 31 := by
  have hlt := (allocSize capacity).toInt_lt
  rw [allocBytes]
  omega

theorem allocBytes_eq {capacity : ℕ} (h : 16 * capacity < 2 ^ 31) :
    allocBytes capacity = 16 * capacity := by
  rw [allocBytes, allocSize, Int32.toInt_ofNat_of_lt (by omega)]
  omega

/-- The arrays end with the bytes only when the size does not wrap. -/
theorem inside_iff {m : RollingMedian α} (h : 0 < m.capacity) :
    (∀ p, m.Used p → p.Inside m.capacity) ↔ 16 * m.capacity < 2 ^ 31 := by
  constructor
  · intro hinside
    -- the last place of `heap` ends at byte `16 * capacity`
    have hlast : m.Used (.heap ((m.capacity - 1) / 2 : ℕ)) := by
      rw [Used, Allocated]
      omega
    have hend := (hinside _ hlast).2
    have hlt := allocBytes_lt m.capacity
    simp only [Place.offset, Place.width] at hend
    omega
  · intro hfits p hused
    rw [Place.Inside, allocBytes_eq hfits]
    cases p with
    | data k =>
        rw [Used] at hused
        simp only [Place.offset, Place.width]
        omega
    | pos k =>
        rw [Used] at hused
        simp only [Place.offset, Place.width]
        omega
    | heap i =>
        rw [Used, Allocated] at hused
        simp only [Place.offset, Place.width]
        omega

/-! ### The loop of `clear` -/

def clearLoop : ℕ → RollingMedian α → RollingMedian α
  | 0, m => m
  | nItems + 1, m =>
      clearLoop nItems { m with
        pos := Function.update m.pos nItems (clearPos nItems)
        heap := Function.update m.heap (clearPos nItems) nItems }

/-- `clear`, as it writes to the memory. -/
def clearInPlace (m : RollingMedian α) : RollingMedian α :=
  clearLoop m.capacity { m with idx := 0, minCt := 0, maxCt := 0, sz := 0 }

theorem clearLoop_eq (n : ℕ) (m : RollingMedian α) :
    clearLoop n m = { m with
      pos := fun k => if k < n then clearPos k else m.pos k
      heap := fun i => if clearHeap i < n then clearHeap i else m.heap i } := by
  induction n generalizing m with
  | zero => simp [clearLoop]
  | succ n ih =>
      rw [clearLoop, ih]
      apply RollingMedian.ext
      · rfl
      · rfl
      · funext k
        by_cases hk : k = n
        · simp [hk]
        · simp [hk, show k < n + 1 ↔ k < n by omega]
      · funext i
        by_cases hi : i = clearPos n
        · simp [hi, clearHeap_clearPos]
        · have hne : clearHeap i ≠ n := by
            intro heq
            exact hi (by rw [← heq, clearPos_clearHeap])
          simp [hi, show clearHeap i < n + 1 ↔ clearHeap i < n by omega]
      all_goals rfl

theorem allocated_iff {m : RollingMedian α} (h : 0 < m.capacity) (i : ℤ) :
    m.Allocated i ↔ clearHeap i < m.capacity := by
  rw [Allocated, clearHeap]
  split <;> omega

theorem clearInPlace_within {m : RollingMedian α} (h : 0 < m.capacity) (o : RollingMedian α) :
    (m.within o).clearInPlace = m.clear.within o := by
  have hallocated : ∀ i, m.clear.Allocated i ↔ clearHeap i < m.capacity := allocated_iff h
  rw [clearInPlace, clearLoop_eq]
  apply RollingMedian.ext
  · rfl
  · rfl
  · funext k
    by_cases hk : k < m.capacity <;> simp [within, clear, hk]
  · funext i
    change (if clearHeap i < m.capacity then clearHeap i else (m.within o).heap i) =
      if m.clear.Allocated i then clearHeap i else o.heap i
    by_cases hi : clearHeap i < m.capacity
    · rw [if_pos hi, if_pos ((hallocated i).mpr hi)]
    · rw [if_neg hi, if_neg (mt (hallocated i).mp hi)]
      exact if_neg (mt (allocated_iff h i).mp hi)
  all_goals rfl

/-! ### The places that a call uses -/

structure Cells (m : RollingMedian α) : Prop where
  heap_lt : ∀ i, m.Allocated i → m.heap i < m.capacity
  minCt_le : m.minCt ≤ (m.capacity - 1) / 2
  maxCt_le : m.maxCt ≤ m.capacity / 2

theorem Cells.allocated {m : RollingMedian α} (h : m.Cells) {s : Side} {j : ℕ}
    (hj : j ≤ m.count s) : m.Allocated (s.at j) := by
  have hmin := h.minCt_le
  have hmax := h.maxCt_le
  rw [Allocated]
  cases s <;> simp only [count] at hj <;> simp only [Side.at] <;> omega

theorem SameQueue.allocated {m m' : RollingMedian α} (h : SameQueue m m') {i : ℤ} :
    m'.Allocated i ↔ m.Allocated i := by
  rw [Allocated, Allocated, h.capacity]

theorem heap_within {m : RollingMedian α} {i : ℤ} (hi : m.Allocated i) (o : RollingMedian α) :
    (m.within o).heap i = m.heap i :=
  if_pos hi

theorem Cells.value_within {m : RollingMedian α} (h : m.Cells) {i : ℤ} (hi : m.Allocated i)
    (o : RollingMedian α) : (m.within o).value i = m.value i := by
  rw [value, heap_within hi]
  exact if_pos (h.heap_lt i hi)

theorem Cells.mmexchange {m : RollingMedian α} (h : m.Cells) {i j : ℤ} (hi : m.Allocated i)
    (hj : m.Allocated j) : (m.mmexchange i j).Cells where
  heap_lt k hk := by
    rw [heap_mmexchange, Function.comp_apply]
    apply h.heap_lt
    rw [Equiv.swap_apply_def]
    split
    · exact hj
    · split
      · exact hi
      · exact hk
  minCt_le := h.minCt_le
  maxCt_le := h.maxCt_le

theorem Cells.mmexchange_within {m : RollingMedian α} (h : m.Cells) {i j : ℤ}
    (hi : m.Allocated i) (hj : m.Allocated j) (o : RollingMedian α) :
    (m.within o).mmexchange i j = (m.mmexchange i j).within o := by
  rw [RollingMedian.mmexchange, heap_within hi, heap_within hj]
  apply RollingMedian.ext
  · rfl
  · rfl
  · change Function.update (Function.update (fun k => if k < m.capacity then _ else _) _ _) _ _ = _
    rw [update_within (p := fun k => k < m.capacity) (h.heap_lt j hj),
      update_within (p := fun k => k < m.capacity) (h.heap_lt i hi)]
    rfl
  · change Function.update (Function.update (fun k => if m.Allocated k then _ else _) _ _) _ _ = _
    rw [update_within hi, update_within hj]
    rfl
  all_goals rfl

/-- A call that keeps to the memory: it does the same in any memory, and the queue and the
counters stay. -/
structure Confined (o m m' w : RollingMedian α) : Prop where
  same : SameQueue m m'
  cells : m'.Cells
  within : w = m'.within o

theorem Cells.confined {m : RollingMedian α} (h : m.Cells) (o : RollingMedian α) :
    Confined o m m (m.within o) :=
  ⟨.rfl, h, rfl⟩

theorem Confined.trans {o m m' m'' w w' : RollingMedian α} (h : Confined o m m' w)
    (h' : Confined o m' m'' w') : Confined o m m'' w' :=
  ⟨h.same.trans h'.same, h'.cells, h'.within⟩

theorem Cells.confined_mmexchange {m : RollingMedian α} (h : m.Cells) {s : Side} {j k : ℕ}
    (o : RollingMedian α) (hj : j ≤ m.count s) (hk : k ≤ m.count s) :
    Confined o m (m.mmexchange (s.at j) (s.at k)) ((m.within o).mmexchange (s.at j) (s.at k)) :=
  ⟨sameQueue_mmexchange m _ _, h.mmexchange (h.allocated hj) (h.allocated hk),
    h.mmexchange_within (h.allocated hj) (h.allocated hk) o⟩

variable [LinearOrder α]

theorem Cells.above_within {m : RollingMedian α} (h : m.Cells) {s : Side} {j k : ℕ}
    (hj : j ≤ m.count s) (hk : k ≤ m.count s) (o : RollingMedian α) :
    (m.within o).above s j k = m.above s j k := by
  cases s with
  | min =>
      rw [above, above, mmless, mmless, h.value_within (h.allocated hj),
        h.value_within (h.allocated hk)]
  | max =>
      rw [above, above, mmless, mmless, h.value_within (h.allocated hj),
        h.value_within (h.allocated hk)]

theorem sortDownLoop_confined (s : Side) (rounds i : ℕ) (m o : RollingMedian α) (h : m.Cells) :
    Confined o m (sortDownLoop s rounds i m) (sortDownLoop s rounds i (m.within o)) := by
  induction rounds generalizing i m with
  | zero => exact h.confined o
  | succ rounds ih =>
      simp only [sortDownLoop, count_within]
      by_cases hend : m.count s < 2 * i
      · rw [if_pos hend, if_pos hend]
        exact h.confined o
      have hchild : (2 * i < m.count s ∧ (m.within o).above s (2 * i + 1) (2 * i) = true) ↔
          2 * i < m.count s ∧ m.above s (2 * i + 1) (2 * i) = true := by
        apply and_congr_right
        intro hlt
        rw [h.above_within (by omega) (by omega)]
      simp only [hchild]
      rw [if_neg hend, if_neg hend]
      generalize hc : (if 2 * i < m.count s ∧ m.above s (2 * i + 1) (2 * i) = true then 2 * i + 1
        else 2 * i) = child
      have hle : child ≤ m.count s := by
        rw [← hc]
        split <;> omega
      rw [h.above_within hle (show child / 2 ≤ m.count s by omega)]
      by_cases hwrong : m.above s child (child / 2) = true
      · rw [if_pos hwrong, if_pos hwrong]
        have hexchange := h.confined_mmexchange o hle (show child / 2 ≤ m.count s by omega)
        rw [hexchange.within]
        exact hexchange.trans (ih child _ hexchange.cells)
      · rw [if_neg hwrong, if_neg hwrong]
        exact h.confined o

theorem sortDown_confined {m : RollingMedian α} (h : m.Cells) (s : Side) (i : ℕ)
    (o : RollingMedian α) : Confined o m (m.sortDown s i) ((m.within o).sortDown s i) := by
  rw [sortDown, sortDown, count_within]
  exact sortDownLoop_confined s (m.count s) i m o h

theorem sortUpLoop_confined (s : Side) (rounds i : ℕ) (m o : RollingMedian α) (h : m.Cells)
    (hi : i ≤ m.count s) :
    (sortUpLoop s rounds i (m.within o)).1 = (sortUpLoop s rounds i m).1 ∧
      Confined o m (sortUpLoop s rounds i m).2 (sortUpLoop s rounds i (m.within o)).2 := by
  induction rounds generalizing i m with
  | zero => exact ⟨rfl, h.confined o⟩
  | succ rounds ih =>
      simp only [sortUpLoop, h.above_within hi (show i / 2 ≤ m.count s by omega)]
      by_cases hwrong : 0 < i ∧ m.above s i (i / 2) = true
      · rw [if_pos hwrong, if_pos hwrong]
        have hexchange := h.confined_mmexchange o hi (show i / 2 ≤ m.count s by omega)
        rw [hexchange.within]
        obtain ⟨hanswer, hrest⟩ := ih (i / 2) _ hexchange.cells (by
          rw [hexchange.same.count]
          omega)
        exact ⟨hanswer, hexchange.trans hrest⟩
      · rw [if_neg hwrong, if_neg hwrong]
        exact ⟨rfl, h.confined o⟩

/-- After an item has risen to the top, the first items of the two heaps may be exchanged. -/
theorem Cells.confined_exchange {m : RollingMedian α} (h : m.Cells) (s : Side) (i j : ℤ)
    (hi : m.Allocated i) (hj : m.Allocated j) (o : RollingMedian α) :
    (m.within o).mmless i j = m.mmless i j ∧
      Confined o m ((m.mmexchange i j).sortDown s 1)
        (((m.within o).mmexchange i j).sortDown s 1) := by
  rw [mmless, mmless, h.value_within hi, h.value_within hj, h.mmexchange_within hi hj]
  refine ⟨rfl, ?_⟩
  have hdown := sortDown_confined (h.mmexchange hi hj) s 1 o
  exact ⟨(sameQueue_mmexchange m i j).trans hdown.same, hdown.cells, hdown.within⟩

/-! ### Insertion -/

theorem riseMin_confined {m : RollingMedian α} (h : m.Cells) {j : ℕ} (hj : j ≤ m.minCt)
    (htwo : 2 ≤ m.capacity) (o : RollingMedian α) :
    Confined o m (m.riseMin j) ((m.within o).riseMin j) := by
  obtain ⟨hanswer, hup⟩ := sortUpLoop_confined .min j j m o h hj
  have hwithin : (m.within o).minSortUp j = ((m.minSortUp j).1, (m.minSortUp j).2.within o) :=
    Prod.ext hanswer hup.within
  rw [riseMin, riseMin, hwithin]
  change Confined o m (m.minSortUp j).2 _ at hup
  generalize m.minSortUp j = up at hup
  have htop : up.2.Allocated 0 ∧ up.2.Allocated (-1) := by
    rw [hup.same.allocated, hup.same.allocated, Allocated, Allocated]
    omega
  obtain ⟨hless, hdown⟩ := hup.cells.confined_exchange .max 0 (-1) htop.1 htop.2 o
  simp only [hless]
  by_cases hmedian : up.1 = true ∧ up.2.mmless 0 (-1) = true
  · rw [if_pos hmedian, if_pos hmedian]
    exact hup.trans hdown
  · rw [if_neg hmedian, if_neg hmedian]
    exact ⟨hup.same, hup.cells, rfl⟩

theorem riseMax_confined {m : RollingMedian α} (h : m.Cells) {j : ℕ} (hj : j ≤ m.maxCt)
    (o : RollingMedian α) : Confined o m (m.riseMax j) ((m.within o).riseMax j) := by
  obtain ⟨hanswer, hup⟩ := sortUpLoop_confined .max j j m o h hj
  have hwithin : (m.within o).maxSortUp j = ((m.maxSortUp j).1, (m.maxSortUp j).2.within o) :=
    Prod.ext hanswer hup.within
  rw [riseMax, riseMax, hwithin]
  change Confined o m (m.maxSortUp j).2 _ at hup
  generalize m.maxSortUp j = up at hup
  by_cases hmin : 0 < up.2.minCt
  · obtain ⟨hless, hdown⟩ := hup.cells.confined_exchange .min 1 0
      (hup.cells.allocated (s := .min) (j := 1) hmin)
      (hup.cells.allocated (s := .min) (j := 0) (by omega)) o
    have hct : (up.2.within o).minCt = up.2.minCt := rfl
    simp only [hct, hless]
    by_cases hmedian : up.1 = true ∧ 0 < up.2.minCt ∧ up.2.mmless 1 0 = true
    · rw [if_pos hmedian, if_pos hmedian]
      exact hup.trans hdown
    · rw [if_neg hmedian, if_neg hmedian]
      exact ⟨hup.same, hup.cells, rfl⟩
  · rw [if_neg (fun hand => hmin hand.2.1), if_neg (fun hand => hmin hand.2.1)]
    exact ⟨hup.same, hup.cells, rfl⟩

/-- The median is put in order with one heap. -/
theorem settle_confined {m : RollingMedian α} (h : m.Cells) (s : Side) (o : RollingMedian α) :
    Confined o m (m.settle s) ((m.within o).settle s) := by
  rw [settle, settle, count_within]
  by_cases hct : 0 < m.count s
  · have hone : m.Allocated (s.at 1) := h.allocated hct
    have hzero : m.Allocated (s.at 0) := h.allocated (Nat.zero_le _)
    rw [h.above_within (show 1 ≤ m.count s from hct) (Nat.zero_le _)]
    by_cases hwrong : 0 < m.count s ∧ m.above s 1 0 = true
    · rw [if_pos hwrong, if_pos hwrong]
      exact (h.confined_exchange s _ _ hone hzero o).2
    · rw [if_neg hwrong, if_neg hwrong]
      exact h.confined o
  · rw [if_neg (fun hand => hct hand.1), if_neg (fun hand => hct hand.1)]
    exact h.confined o

theorem settleMedian_confined {m : RollingMedian α} (h : m.Cells) (o : RollingMedian α) :
    Confined o m m.settleMedian (m.within o).settleMedian := by
  rw [settleMedian_eq, settleMedian_eq]
  have hlower := settle_confined h .max o
  rw [hlower.within]
  exact hlower.trans (settle_confined hlower.cells .min o)

omit [LinearOrder α] in
theorem enqueue_within {m : RollingMedian α} (hidx : m.idx < m.capacity) (v : α)
    (o : RollingMedian α) : (m.within o).enqueue v = (m.enqueue v).within o := by
  apply RollingMedian.ext
  · rfl
  · exact update_within (p := fun k => k < m.capacity) hidx
  all_goals rfl

theorem WellFormed.cells {m : RollingMedian α} (h : m.WellFormed) : m.Cells where
  heap_lt i hi := by
    have hle := h.sz_le
    by_cases hactive : m.heap i < m.sz
    · omega
    · -- a place that is not in use is as `clear` left it
      have hfresh := h.sorted.placed.fresh (m.heap i) (by omega)
      rw [h.sorted.placed.pos_heap] at hfresh
      rwa [allocated_iff h.capacity_pos, hfresh, clearHeap_clearPos] at hi
  minCt_le := by
    have hle := h.sz_le
    have hmin := h.counted.minCt
    omega
  maxCt_le := by
    have hle := h.sz_le
    have hmax := h.counted.maxCt
    omega

theorem WellFormed.pos_allocated {m : RollingMedian α} (h : m.WellFormed) {k : ℕ}
    (hk : k < m.capacity) : m.Allocated (m.pos k) := by
  have hcells := h.cells
  by_cases hsz : k < m.sz
  · obtain ⟨-, hlower, hupper⟩ := (h.sorted.placed.active k).mp hsz
    have hmin := hcells.minCt_le
    have hmax := hcells.maxCt_le
    rw [Allocated]
    omega
  · rw [h.sorted.placed.fresh k (by omega), allocated_iff h.capacity_pos, clearHeap_clearPos]
    exact hk

theorem WellFormed.insert_within {m : RollingMedian α} (h : m.WellFormed) (v : α)
    (o : RollingMedian α) : (m.within o).insert v = (m.insert v).within o := by
  have hcells : (m.enqueue v).Cells := ⟨h.cells.heap_lt, h.cells.minCt_le, h.cells.maxCt_le⟩
  have hpos : (m.within o).pos (m.within o).idx = m.pos m.idx := if_pos h.idx_lt
  have hold : (m.within o).data (m.within o).idx = m.data m.idx := if_pos h.idx_lt
  have hmin : m.minCt = (m.sz - 1) / 2 := h.counted.minCt
  have hmax : m.maxCt = m.sz / 2 := h.counted.maxCt
  have hmin' : (m.within o).minCt = m.minCt := rfl
  have hmax' : (m.within o).maxCt = m.maxCt := rfl
  have hcapacity : (m.within o).capacity = m.capacity := rfl
  simp only [RollingMedian.insert, hpos, hold, hmin', hmax', hcapacity,
    enqueue_within h.idx_lt v o]
  by_cases hupper : 0 < m.pos m.idx
  · have hle : (m.pos m.idx).natAbs ≤ (min (m.sz + 1) m.capacity - 1) / 2 :=
      (h.replaced v (s := .min) (j := (m.pos m.idx).natAbs)
        (by simp only [Side.at]; omega) (by omega)).le_count
    rw [if_pos hupper, if_pos hupper]
    by_cases hgrow : m.minCt < (m.capacity - 1) / 2
    · rw [if_pos hgrow, if_pos hgrow]
      have hgrown : ({ m.enqueue v with minCt := m.minCt + 1 } : RollingMedian α).Cells :=
        ⟨hcells.heap_lt, hgrow, hcells.maxCt_le⟩
      exact (riseMin_confined hgrown (show _ ≤ m.minCt + 1 by omega)
        (show 2 ≤ m.capacity by omega) o).within
    · rw [if_neg hgrow, if_neg hgrow]
      by_cases hv : m.data m.idx < v
      · rw [if_pos hv, if_pos hv]
        exact (sortDown_confined hcells .min _ o).within
      · rw [if_neg hv, if_neg hv]
        exact (riseMin_confined hcells (show _ ≤ m.minCt by omega)
          (show 2 ≤ m.capacity by omega) o).within
  rw [if_neg hupper, if_neg hupper]
  by_cases hlower : m.pos m.idx < 0
  · have hle : (m.pos m.idx).natAbs ≤ min (m.sz + 1) m.capacity / 2 :=
      (h.replaced v (s := .max) (j := (m.pos m.idx).natAbs)
        (by simp only [Side.at]; omega) (by omega)).le_count
    rw [if_pos hlower, if_pos hlower]
    by_cases hgrow : m.maxCt < m.capacity / 2
    · rw [if_pos hgrow, if_pos hgrow]
      have hgrown : ({ m.enqueue v with maxCt := m.maxCt + 1 } : RollingMedian α).Cells :=
        ⟨hcells.heap_lt, hcells.minCt_le, hgrow⟩
      exact (riseMax_confined hgrown (show _ ≤ m.maxCt + 1 by omega) o).within
    · rw [if_neg hgrow, if_neg hgrow]
      by_cases hv : v < m.data m.idx
      · rw [if_pos hv, if_pos hv]
        exact (sortDown_confined hcells .max _ o).within
      · rw [if_neg hv, if_neg hv]
        exact (riseMax_confined hcells (show _ ≤ m.maxCt by omega) o).within
  · rw [if_neg hlower, if_neg hlower]
    exact (settleMedian_confined hcells o).within

end XrCoin.Epee.RollingMedian

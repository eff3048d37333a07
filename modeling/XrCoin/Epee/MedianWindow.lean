import Mathlib
import XrCoin.Epee.MedianInsert

/-!
The queue of a `rolling_median_t` holds the last items that were inserted, and the two heaps
are the items below and above the median in a sorted list of them.
-/

namespace XrCoin.Epee.RollingMedian

open Data

variable {α : Type}

def queueItem (m : RollingMedian α) (k : ℕ) : α :=
  m.data ((m.idx + m.capacity - m.sz + k) % m.capacity)

def window (m : RollingMedian α) : List α := (List.range m.sz).map m.queueItem

theorem window_length (m : RollingMedian α) : m.window.length = m.sz := by
  rw [window, List.length_map, List.length_range]

theorem window_clear (m : RollingMedian α) : m.clear.window = [] := rfl

/-! ### The positions in use -/

def positions (m : RollingMedian α) (s : Side) : List ℤ :=
  (List.range (m.count s)).map fun j => s.at (j + 1)

theorem mem_positions {m : RollingMedian α} {s : Side} {i : ℤ} :
    i ∈ m.positions s ↔ ∃ j, 1 ≤ j ∧ j ≤ m.count s ∧ i = s.at j := by
  rw [positions, List.mem_map]
  constructor
  · rintro ⟨j, hj, rfl⟩
    exact ⟨j + 1, by omega, List.mem_range.mp hj, rfl⟩
  · rintro ⟨j, hj, hct, rfl⟩
    exact ⟨j - 1, List.mem_range.mpr (by omega), by rw [Nat.sub_add_cancel hj]⟩

theorem nodup_positions (m : RollingMedian α) (s : Side) : (m.positions s).Nodup := by
  apply List.Nodup.map _ List.nodup_range
  intro j k hjk
  have heq := s.at_injective hjk
  omega

def allPositions (m : RollingMedian α) : List ℤ := m.positions .max ++ 0 :: m.positions .min

theorem nodup_allPositions (m : RollingMedian α) : m.allPositions.Nodup := by
  have hne : ∀ s, ∀ i ∈ m.positions s, i ≠ 0 := by
    intro s i hi
    obtain ⟨j, hj, -, rfl⟩ := mem_positions.mp hi
    rw [← s.other.at_zero]
    exact Side.at_ne_at_other hj
  apply List.Nodup.append (m.nodup_positions .max)
  · apply (m.nodup_positions .min).cons
    intro hzero
    exact hne .min 0 hzero rfl
  · intro i hmax hrest
    rcases List.mem_cons.mp hrest with hzero | hmin
    · exact hne .max i hmax hzero
    · obtain ⟨j, hj, -, rfl⟩ := mem_positions.mp hmax
      obtain ⟨k, -, -, heq⟩ := mem_positions.mp hmin
      exact Side.at_ne_at_other (s := .max) hj heq

theorem active_of_mem {m : RollingMedian α} (hsz : 0 < m.sz) {i : ℤ}
    (hi : i ∈ m.allPositions) : m.Active i := by
  refine ⟨hsz, ?_⟩
  rcases List.mem_append.mp hi with hmax | hrest
  · obtain ⟨j, -, hct, rfl⟩ := mem_positions.mp hmax
    simp only [count] at hct
    simp only [Side.at]
    omega
  rcases List.mem_cons.mp hrest with rfl | hmin
  · omega
  · obtain ⟨j, -, hct, rfl⟩ := mem_positions.mp hmin
    simp only [count] at hct
    simp only [Side.at]
    omega

/-- Distinct numbers below `n`, and as many. -/
theorem perm_range_of_injOn {β : Type} {l : List β} {f : β → ℕ} {n : ℕ} (hnodup : l.Nodup)
    (hinj : ∀ x ∈ l, ∀ y ∈ l, f x = f y → x = y) (hlt : ∀ x ∈ l, f x < n) (hlen : n ≤ l.length) :
    (l.map f).Perm (List.range n) := by
  apply List.Subperm.perm_of_length_le
  · apply List.Nodup.subperm (hnodup.map_on hinj)
    intro i hi
    obtain ⟨x, hx, rfl⟩ := List.mem_map.mp hi
    exact List.mem_range.mpr (hlt x hx)
  · rw [List.length_range, List.length_map]
    exact hlen

variable [LinearOrder α]

/-! ### The queue -/

theorem WellFormed.queueItem_growing {m : RollingMedian α} (h : m.WellFormed)
    (hsz : m.sz < m.capacity) {k : ℕ} (hk : k < m.capacity) : m.queueItem k = m.data k := by
  rw [queueItem, h.idx_eq hsz,
    show m.sz + m.capacity - m.sz + k = k + m.capacity by omega, Nat.add_mod_right,
    Nat.mod_eq_of_lt hk]

theorem WellFormed.window_insert_growing {m : RollingMedian α} (h : m.WellFormed) (v : α)
    (hsz : m.sz < m.capacity) : (m.insert v).window = m.window ++ [v] := by
  obtain ⟨-, hsame⟩ := h.insert v
  have hsz' : (m.insert v).sz = m.sz + 1 := by
    rw [hsame.sz, queued_sz_of_lt hsz]
  -- the queue is still at the beginning of the memory
  have hitem : ∀ k, k ≤ m.sz → (m.insert v).queueItem k = Function.update m.data m.sz v k := by
    intro k hk
    have hindex : ((m.sz + 1) % m.capacity + m.capacity - (m.sz + 1) + k) % m.capacity = k := by
      by_cases hlast : m.sz + 1 = m.capacity
      · rw [hlast, Nat.mod_self, Nat.zero_add, Nat.sub_self, Nat.zero_add,
          Nat.mod_eq_of_lt (by omega)]
      · rw [Nat.mod_eq_of_lt (show m.sz + 1 < m.capacity by omega),
          show m.sz + 1 + m.capacity - (m.sz + 1) + k = k + m.capacity by omega,
          Nat.add_mod_right, Nat.mod_eq_of_lt (by omega)]
    rw [queueItem, hsame.capacity, hsame.idx, hsz', hsame.data]
    change Function.update m.data m.idx v
      (((m.idx + 1) % m.capacity + m.capacity - (m.sz + 1) + k) % m.capacity) = _
    rw [h.idx_eq hsz, hindex]
  rw [window, hsz', List.range_succ, List.map_append, List.map_singleton,
    hitem m.sz (Nat.le_refl _), Function.update_self, window]
  congr 1
  apply List.map_congr_left
  intro k hk
  have hlt := List.mem_range.mp hk
  rw [hitem k (by omega), Function.update_of_ne (by omega),
    h.queueItem_growing hsz (by omega)]

theorem WellFormed.window_insert_full {m : RollingMedian α} (h : m.WellFormed) (v : α)
    (hsz : m.sz = m.capacity) : (m.insert v).window = m.window.tail ++ [v] := by
  obtain ⟨-, hsame⟩ := h.insert v
  have hidx := h.idx_lt
  have hitem : ∀ k, (m.insert v).queueItem k =
      Function.update m.data m.idx v ((m.idx + (k + 1)) % m.capacity) := by
    intro k
    rw [queueItem, hsame.capacity, hsame.idx, hsame.sz, queued_sz_of_full hsz, hsame.data]
    change Function.update m.data m.idx v
      (((m.idx + 1) % m.capacity + m.capacity - m.sz + k) % m.capacity) = _
    rw [hsz, Nat.add_sub_cancel, Nat.mod_add_mod, Nat.add_assoc, Nat.add_comm 1 k]
  obtain ⟨n, hn⟩ : ∃ n, m.capacity = n + 1 := ⟨m.capacity - 1, by omega⟩
  have htail : m.window.tail = (List.range n).map fun k => m.queueItem (k + 1) := by
    rw [window, hsz, hn, List.range_succ_eq_map, List.map_cons, List.tail_cons, List.map_map]
    rfl
  rw [htail, window, hsame.sz, queued_sz_of_full hsz, hsz, hn, List.range_succ, List.map_append,
    List.map_singleton]
  congr 1
  · apply List.map_congr_left
    intro k hk
    have hlt := List.mem_range.mp hk
    have hne : (m.idx + (k + 1)) % m.capacity ≠ m.idx := by
      by_cases hwrap : m.idx + (k + 1) < m.capacity
      · rw [Nat.mod_eq_of_lt hwrap]
        omega
      · rw [Nat.mod_eq_sub_mod (by omega), Nat.mod_eq_of_lt (by omega)]
        omega
    rw [hitem, Function.update_of_ne hne, queueItem, hsz, Nat.add_sub_cancel]
  · rw [hitem, ← hn, Nat.add_mod_right, Nat.mod_eq_of_lt hidx, Function.update_self]

/-- The queue is the last items of a sequence, and goes on with it. -/
theorem WellFormed.window_insert {m : RollingMedian α} (h : m.WellFormed) (v : α)
    {l : List α} (hl : m.window = l.rtake m.capacity) :
    (m.insert v).window = (l ++ [v]).rtake m.capacity := by
  have hlength := congrArg List.length hl
  rw [window_length, List.rtake, List.length_drop] at hlength
  obtain ⟨n, hn⟩ : ∃ n, m.capacity = n + 1 := ⟨m.capacity - 1, by have := h.capacity_pos; omega⟩
  by_cases hsz : m.sz < m.capacity
  · have hshort : l.length - m.capacity = 0 := by omega
    rw [h.window_insert_growing v hsz, hl, List.rtake, List.rtake, hshort, List.drop_zero,
      List.length_append, List.length_singleton,
      show l.length + 1 - m.capacity = 0 by omega, List.drop_zero]
  · have hle := h.sz_le
    rw [h.window_insert_full v (by omega), hl, hn, List.rtake_concat_succ, List.rtake, List.rtake,
      List.tail_drop]
    congr 2
    omega

theorem WellFormed.capacity_insert {m : RollingMedian α} (h : m.WellFormed) (v : α) :
    (m.insert v).capacity = m.capacity := (h.insert v).2.capacity

theorem WellFormed.foldl_insert {m : RollingMedian α} (h : m.WellFormed) (items : List α)
    {l : List α} (hl : m.window = l.rtake m.capacity) :
    (items.foldl RollingMedian.insert m).WellFormed ∧
      (items.foldl RollingMedian.insert m).capacity = m.capacity ∧
      (items.foldl RollingMedian.insert m).window = (l ++ items).rtake m.capacity := by
  induction items generalizing m l with
  | nil =>
      rw [List.append_nil]
      exact ⟨h, rfl, hl⟩
  | cons v items ih =>
      have hcapacity := h.capacity_insert v
      have hwindow := h.window_insert v hl
      rw [← hcapacity] at hwindow
      obtain ⟨hwf, hcap, hitems⟩ := ih (h.insert v).1 hwindow
      rw [List.append_assoc, List.singleton_append, hcapacity] at hitems
      exact ⟨hwf, hcap.trans hcapacity, hitems⟩

/-! ### The sorted items -/

theorem WellFormed.window_perm_data {m : RollingMedian α} (h : m.WellFormed) :
    m.window.Perm ((List.range m.sz).map m.data) := by
  have hle := h.sz_le
  have hpos := h.capacity_pos
  have hindex : ((List.range m.sz).map fun k =>
      (m.idx + m.capacity - m.sz + k) % m.capacity).Perm (List.range m.sz) := by
    apply perm_range_of_injOn List.nodup_range
    · intro k hk l hl heq
      rw [List.mem_range] at hk hl
      have hmod : k ≡ l [MOD m.capacity] := Nat.ModEq.add_left_cancel' _ heq
      rw [Nat.ModEq, Nat.mod_eq_of_lt (by omega), Nat.mod_eq_of_lt (by omega)] at hmod
      exact hmod
    · intro k hk
      rw [List.mem_range] at hk
      by_cases hsz : m.sz < m.capacity
      · rw [h.idx_eq hsz, show m.sz + m.capacity - m.sz + k = k + m.capacity by omega,
          Nat.add_mod_right, Nat.mod_eq_of_lt (by omega)]
        exact hk
      · rw [show m.sz = m.capacity by omega]
        exact Nat.mod_lt _ hpos
    · rw [List.length_range]
  have hmap := hindex.map m.data
  rw [List.map_map] at hmap
  exact hmap

/-- The items of the queue are those at the positions in use. -/
theorem WellFormed.window_perm {m : RollingMedian α} (h : m.WellFormed) (hsz : 0 < m.sz) :
    m.window.Perm (m.allPositions.map m.value) := by
  have hheap : (m.allPositions.map m.heap).Perm (List.range m.sz) := by
    apply perm_range_of_injOn m.nodup_allPositions
    · intro i _ j _ heq
      rw [← h.sorted.placed.pos_heap i, heq, h.sorted.placed.pos_heap]
    · intro i hi
      rw [h.sorted.placed.active, h.sorted.placed.pos_heap]
      exact active_of_mem hsz hi
    · have hmin := h.counted.minCt
      have hmax := h.counted.maxCt
      simp only [allPositions, positions, count, List.length_append, List.length_cons,
        List.length_map, List.length_range]
      omega
  have hmap := hheap.map m.data
  rw [List.map_map] at hmap
  exact h.window_perm_data.trans hmap.symm

theorem WellFormed.le_median {m : RollingMedian α} (h : m.WellFormed) {a : α}
    (ha : a ∈ (m.positions .max).map m.value) : a ≤ m.value 0 := by
  obtain ⟨i, hi, rfl⟩ := List.mem_map.mp ha
  obtain ⟨j, hj, hct, rfl⟩ := mem_positions.mp hi
  have htop := (h.sorted.ordered .max).top hj hct
  rw [items_zero] at htop
  exact htop

theorem WellFormed.median_le {m : RollingMedian α} (h : m.WellFormed) {a : α}
    (ha : a ∈ (m.positions .min).map m.value) : m.value 0 ≤ a := by
  obtain ⟨i, hi, rfl⟩ := List.mem_map.mp ha
  obtain ⟨j, hj, hct, rfl⟩ := mem_positions.mp hi
  have htop := (h.sorted.ordered .min).top hj hct
  rw [items_zero] at htop
  exact htop

/-- A list with an element that no other one before it exceeds, and that exceeds no later
one, is sorted in two parts. -/
theorem insertionSort_append_cons {l : List α} {a : α} {below above : List α}
    (hl : l.Perm (below ++ a :: above)) (hbelow : ∀ b ∈ below, b ≤ a)
    (habove : ∀ b ∈ above, a ≤ b) :
    l.insertionSort (· ≤ ·) =
      below.insertionSort (· ≤ ·) ++ a :: above.insertionSort (· ≤ ·) := by
  apply List.Perm.eq_of_pairwise' (List.pairwise_insertionSort (· ≤ ·) l)
  · rw [List.pairwise_append, List.pairwise_cons]
    refine ⟨List.pairwise_insertionSort _ _, ⟨?_, List.pairwise_insertionSort _ _⟩, ?_⟩
    · intro b hb
      exact habove b ((List.mem_insertionSort _).mp hb)
    · intro b hb c hc
      have hba := hbelow b ((List.mem_insertionSort _).mp hb)
      rcases List.mem_cons.mp hc with rfl | hc
      · exact hba
      · exact le_trans hba (habove c ((List.mem_insertionSort _).mp hc))
  · apply ((List.perm_insertionSort _ l).trans hl).trans
    exact (List.perm_insertionSort _ below).symm.append
      ((List.perm_insertionSort _ above).symm.cons a)

/-- The first item of the heap of the smaller ones is the last one when they are sorted. -/
theorem WellFormed.sorted_lower {m : RollingMedian α} (h : m.WellFormed) (hct : 1 ≤ m.maxCt) :
    ∃ rest, ((m.positions .max).map m.value).insertionSort (· ≤ ·) = rest ++ [m.value (-1)] := by
  obtain ⟨n, hn⟩ : ∃ n, m.maxCt = n + 1 := ⟨m.maxCt - 1, by omega⟩
  have hpositions : (m.positions .max).map m.value =
      m.value (-1) :: (List.range n).map fun j => m.items .max (j + 2) := by
    rw [positions, count, hn, List.range_succ_eq_map, List.map_cons, List.map_cons, List.map_map,
      List.map_map]
    rfl
  rw [hpositions]
  have hperm : (m.value (-1) :: (List.range n).map fun j => m.items .max (j + 2)).Perm
      (((List.range n).map fun j => m.items .max (j + 2)) ++ m.value (-1) :: []) :=
    (List.perm_append_singleton _ _).symm
  refine ⟨_, insertionSort_append_cons hperm ?_ (by simp)⟩
  intro b hb
  obtain ⟨j, hj, rfl⟩ := List.mem_map.mp hb
  have hlt := List.mem_range.mp hj
  exact (h.sorted.ordered .max).one (by omega) (by rw [count]; omega)

/-- The median is in the middle of the sorted items, and the first item of the heap of the
smaller ones is just before it. -/
theorem WellFormed.sorted_window {m : RollingMedian α} (h : m.WellFormed) (hsz : 0 < m.sz) :
    ∃ below above, m.window.insertionSort (· ≤ ·) = below ++ m.value 0 :: above ∧
      below.length = m.sz / 2 ∧ (1 ≤ m.maxCt → ∃ rest, below = rest ++ [m.value (-1)]) := by
  have hperm := h.window_perm hsz
  rw [allPositions, List.map_append, List.map_cons] at hperm
  refine ⟨_, _, insertionSort_append_cons hperm (fun _ => h.le_median) (fun _ => h.median_le),
    ?_, ?_⟩
  · rw [List.length_insertionSort, List.length_map, positions, List.length_map, List.length_range]
    exact h.counted.maxCt
  · exact h.sorted_lower

end XrCoin.Epee.RollingMedian

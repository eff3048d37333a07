import Mathlib
import XrCoin.Data.Runs
import XrCoin.Blockchain.LongTermWeights
import XrCoin.Epee.MedianMemory

/-!
A `rolling_median_t` over all calls of `insert` and `clear`, in memory that holds anything at
first: it has the last items, their median, and arrays that name each other.
-/

namespace XrCoin.Epee.RollingMedian

open Data

attribute [local instance] Blockchain.weightOrder

inductive MedianCall
  | insert (v : UInt64)
  | clear
  deriving DecidableEq

def call (m : RollingMedian UInt64) : MedianCall → RollingMedian UInt64
  | .insert v => m.insert v
  | .clear => m.clearInPlace

def plainCall (m : RollingMedian UInt64) : MedianCall → RollingMedian UInt64
  | .insert v => m.insert v
  | .clear => m.clear

def insertedItems (calls : List MedianCall) : List UInt64 :=
  run (fun items c =>
    match c with
    | .insert v => items ++ [v]
    | .clear => []) [] calls

/-- The middle one of some numbers, or the mean of the middle two, rounded down. -/
def middle (items : List UInt64) : ℕ :=
  let sorted := items.insertionSort (· ≤ ·)
  if items.length % 2 = 1 then (sorted.getD (items.length / 2) 0).toNat
  else
    ((sorted.getD (items.length / 2 - 1) 0).toNat + (sorted.getD (items.length / 2) 0).toNat) / 2

structure Consistent (m : RollingMedian UInt64) : Prop where
  idx_lt : m.idx < m.capacity
  sz_le : m.sz ≤ m.capacity
  counted : m.Counted
  pos_allocated : ∀ k, k < m.capacity → m.Allocated (m.pos k)
  heap_lt : ∀ i, m.Allocated i → m.heap i < m.capacity
  heap_pos : ∀ k, k < m.capacity → m.heap (m.pos k) = k
  pos_heap : ∀ i, m.Allocated i → m.pos (m.heap i) = i
  active : ∀ k, k < m.capacity → (k < m.sz ↔ m.Active (m.pos k))
  ordered : ∀ s, HeapOrdered s.le (m.count s) (m.items s)

theorem WellFormed.consistent_within {m : RollingMedian UInt64} (h : m.WellFormed)
    (o : RollingMedian UInt64) : (m.within o).Consistent where
  idx_lt := h.idx_lt
  sz_le := h.sz_le
  counted := ⟨h.counted.minCt, h.counted.maxCt⟩
  pos_allocated k hk := by
    have hpos : (m.within o).pos k = m.pos k := if_pos hk
    rw [hpos]
    exact h.pos_allocated hk
  heap_lt i hi := by
    have hallocated : m.Allocated i := hi
    rw [heap_within hallocated]
    exact h.cells.heap_lt i hallocated
  heap_pos k hk := by
    have hpos : (m.within o).pos k = m.pos k := if_pos hk
    rw [hpos, heap_within (h.pos_allocated hk), h.sorted.placed.heap_pos]
  pos_heap i hi := by
    have hallocated : m.Allocated i := hi
    have hpos : (m.within o).pos (m.heap i) = m.pos (m.heap i) :=
      if_pos (h.cells.heap_lt i hallocated)
    rw [heap_within hallocated, hpos, h.sorted.placed.pos_heap]
  active k hk := by
    have hpos : (m.within o).pos k = m.pos k := if_pos hk
    rw [hpos]
    exact h.sorted.placed.active k
  ordered s := by
    intro j hj hct
    rw [count_within] at hct
    have hitem : ∀ l, l ≤ m.count s → (m.within o).items s l = m.items s l := by
      intro l hl
      exact h.cells.value_within (h.cells.allocated hl) o
    rw [hitem j hct, hitem (j / 2) (by omega)]
    exact h.sorted.ordered s j hj hct

/-! ### Runs -/

theorem plainCall_spec {m : RollingMedian UInt64} (h : m.WellFormed) (c : MedianCall)
    (o : RollingMedian UInt64) :
    (plainCall m c).WellFormed ∧ (plainCall m c).capacity = m.capacity ∧
      call (m.within o) c = (plainCall m c).within o := by
  cases c with
  | insert v => exact ⟨(h.insert v).1, h.capacity_insert v, h.insert_within v o⟩
  | clear => exact ⟨wellFormed_clear h.capacity_pos, rfl, clearInPlace_within h.capacity_pos o⟩

/-- The arrays without end follow the calls, and the memory follows them. -/
theorem run_plainCall (memory o : RollingMedian UInt64) (hcapacity : 0 < memory.capacity)
    (calls : List MedianCall) :
    (run plainCall memory.clear calls).WellFormed ∧
      (run plainCall memory.clear calls).capacity = memory.capacity ∧
      (run plainCall memory.clear calls).window =
        (insertedItems calls).rtake memory.capacity ∧
      run call (memory.within o).clearInPlace calls =
        (run plainCall memory.clear calls).within o := by
  induction calls using List.reverseRecOn with
  | nil =>
      refine ⟨wellFormed_clear hcapacity, rfl, ?_, clearInPlace_within hcapacity o⟩
      simp [insertedItems, List.rtake, window_clear]
  | append_singleton calls c ih =>
      obtain ⟨hwf, hcap, hwindow, hrun⟩ := ih
      obtain ⟨hwf', hcap', hcall⟩ := plainCall_spec hwf c o
      rw [run_concat, run_concat, hrun]
      refine ⟨hwf', hcap'.trans hcap, ?_, hcall⟩
      cases c with
      | insert v =>
          have hitems : insertedItems (calls ++ [.insert v]) = insertedItems calls ++ [v] :=
            run_concat _ _ _ _
          rw [hitems]
          rw [← hcap] at hwindow ⊢
          exact hwf.window_insert v hwindow
      | clear =>
          have hitems : insertedItems (calls ++ [.clear]) = [] := run_concat _ _ _ _
          rw [hitems]
          simp [plainCall, window_clear, List.rtake]

/-! ### The median -/

theorem WellFormed.median_within {m : RollingMedian UInt64} (h : m.WellFormed)
    (o : RollingMedian UInt64) : (m.within o).median = m.median := by
  have hzero : (m.within o).value 0 = m.value 0 :=
    h.cells.value_within (h.cells.allocated (s := .min) (j := 0) (Nat.zero_le _)) o
  rw [median, median, hzero]
  change (if m.minCt < m.maxCt then _ else _) = _
  by_cases hct : m.minCt < m.maxCt
  · have hone : (m.within o).value (-1) = m.value (-1) :=
      h.cells.value_within
        (h.cells.allocated (s := .max) (j := 1) (show 1 ≤ m.maxCt by omega)) o
    rw [if_pos hct, if_pos hct, hone]
  · rw [if_neg hct, if_neg hct]

/-- Two items whose sum does not wrap. -/
def Addable (a b : UInt64) : Prop := a.toNat + b.toNat < 2 ^ 64

instance : DecidableRel Addable := fun _ _ => inferInstanceAs (Decidable (_ < _))

theorem WellFormed.median_eq_middle {m : RollingMedian UInt64} (h : m.WellFormed) (hsz : 0 < m.sz)
    (hadd : m.window.Pairwise Addable) : m.median.toNat = middle m.window := by
  obtain ⟨below, above, hsorted, hlength, hlast⟩ := h.sorted_window hsz
  have hmin := h.counted.minCt
  have hmax := h.counted.maxCt
  have hmiddle : (m.window.insertionSort (· ≤ ·)).getD (m.sz / 2) 0 = m.value 0 := by
    rw [hsorted, List.getD_append_right _ _ _ _ (by omega), hlength, Nat.sub_self]
    rfl
  rw [median, middle, m.window_length, hmiddle]
  by_cases hodd : m.sz % 2 = 1
  · rw [if_neg (show ¬m.minCt < m.maxCt by omega), if_pos hodd]
  · obtain ⟨rest, hrest⟩ := hlast (by omega)
    have hbefore : (m.window.insertionSort (· ≤ ·)).getD (m.sz / 2 - 1) 0 = m.value (-1) := by
      have hrestLength : rest.length + 1 = m.sz / 2 := by
        rw [← hlength, hrest, List.length_append, List.length_singleton]
      rw [hsorted, hrest, List.append_assoc, List.getD_append_right _ _ _ _ (by omega),
        ← hrestLength, Nat.add_sub_cancel, Nat.sub_self]
      rfl
    have hsum : Addable (m.value (-1)) (m.value 0) := by
      have hpairs := (List.perm_insertionSort (· ≤ ·) m.window).symm.pairwise hadd
        (fun {a b} hab => by rw [Addable, Nat.add_comm]; exact hab)
      rw [hsorted, hrest, List.append_assoc, List.pairwise_append] at hpairs
      exact List.rel_of_pairwise_cons hpairs.2.1 List.mem_cons_self
    rw [if_pos (show m.minCt < m.maxCt by omega), if_neg hodd, hbefore, UInt64.toNat_div,
      UInt64.toNat_add, Nat.add_comm (m.value 0).toNat, Nat.mod_eq_of_lt hsum]
    rfl

/-- After any calls a `rolling_median_t` has as many items as were inserted since the last
`clear`, or as it has room for, and their median; its arrays stay consistent; and the calls do
the same in any memory and leave alone what is not theirs. -/
theorem rollingMedian_run (memory : RollingMedian UInt64) (hcapacity : 0 < memory.capacity)
    (calls : List MedianCall) :
    (run call memory.clearInPlace calls).size =
        min (insertedItems calls).length memory.capacity ∧
      (0 < (run call memory.clearInPlace calls).size →
        ((insertedItems calls).rtake memory.capacity).Pairwise Addable →
        (run call memory.clearInPlace calls).median.toNat =
          middle ((insertedItems calls).rtake memory.capacity)) ∧
      (run call memory.clearInPlace calls).capacity = memory.capacity ∧
      (run call memory.clearInPlace calls).Consistent ∧
      ∀ o, run call (memory.within o).clearInPlace calls =
        (run call memory.clearInPlace calls).within o := by
  obtain ⟨hwf, hcap, hwindow, hrun⟩ := run_plainCall memory memory hcapacity calls
  have hsz := congrArg List.length hwindow
  rw [window_length, List.rtake, List.length_drop] at hsz
  rw [within_self] at hrun
  rw [hrun]
  refine ⟨?_, ?_, hcap, hwf.consistent_within memory, ?_⟩
  · change (run plainCall memory.clear calls).sz = _
    omega
  · intro hpos hadd
    rw [hwf.median_within, ← hwindow]
    apply hwf.median_eq_middle hpos
    rw [hwindow]
    exact hadd
  · intro o
    rw [within_within]
    exact (run_plainCall memory o hcapacity calls).2.2.2

/-- What is promised of a `rolling_median_t` in the memory that its constructor got. -/
structure Sound (memory : RollingMedian UInt64) : Prop where
  inside : ∀ p, memory.Used p → p.Inside memory.capacity
  size : ∀ calls, (run call memory.clearInPlace calls).size =
    min (insertedItems calls).length memory.capacity
  median : ∀ calls, 0 < (run call memory.clearInPlace calls).size →
    ((insertedItems calls).rtake memory.capacity).Pairwise Addable →
      (run call memory.clearInPlace calls).median.toNat =
        middle ((insertedItems calls).rtake memory.capacity)
  capacity : ∀ calls, (run call memory.clearInPlace calls).capacity = memory.capacity
  consistent : ∀ calls, (run call memory.clearInPlace calls).Consistent
  /-- No call reads or writes a place that is not of the arrays. -/
  confined : ∀ calls o, run call (memory.within o).clearInPlace calls =
    (run call memory.clearInPlace calls).within o

/-- A `rolling_median_t` keeps its promises exactly when the size of its memory does not
wrap. -/
theorem rollingMedian_sound_iff (memory : RollingMedian UInt64) (hcapacity : 0 < memory.capacity) :
    memory.Sound ↔ 16 * memory.capacity < 2 ^ 31 := by
  rw [← inside_iff hcapacity]
  have hrun := rollingMedian_run memory hcapacity
  exact ⟨fun h => h.inside, fun h => ⟨h, fun calls => (hrun calls).1, fun calls => (hrun calls).2.1,
    fun calls => (hrun calls).2.2.1, fun calls => (hrun calls).2.2.2.1,
    fun calls => (hrun calls).2.2.2.2⟩⟩

def threePlaces : RollingMedian UInt64 := ⟨3, fun _ => 9, fun _ => 0, fun _ => 0, 1, 2, 3, 4⟩

/-- Room is asked for so many items that the size is zero. -/
def wrappedPlaces : RollingMedian UInt64 := { threePlaces with capacity := 2 ^ 28 }

/-- `clear`, as the constructor calls it, writes into memory that it never got. -/
theorem wrappedPlaces_not_sound :
    allocBytes (2 ^ 28) = 0 ∧ wrappedPlaces.Used (.pos 0) ∧ ¬(Place.pos 0).Inside (2 ^ 28) ∧
      ¬wrappedPlaces.Sound := by
  have hused : wrappedPlaces.Used (.pos 0) := Nat.two_pow_pos 28
  have hinside : ¬(Place.pos 0).Inside (2 ^ 28) := by decide
  exact ⟨by decide, hused, hinside, fun h => hinside (h.inside _ hused)⟩

theorem rollingMedian_sound_iff_threePlaces :
    (run call threePlaces.clearInPlace
        [.insert 7, .clear, .insert 8, .insert 5, .insert 9, .insert 2]).median.toNat = 5 ∧
      ¬wrappedPlaces.Sound := by
  have hsound := (rollingMedian_sound_iff threePlaces (by decide)).mpr (by decide)
  refine ⟨?_, ?_⟩
  · rw [hsound.median]
    · decide
    · rw [hsound.size]
      decide
    · decide
  · rw [rollingMedian_sound_iff wrappedPlaces (by decide)]
    decide

end XrCoin.Epee.RollingMedian

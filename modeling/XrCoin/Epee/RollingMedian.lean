import Mathlib
import XrCoin.Data.HeapOrder

/-!
`rolling_median_t`: the median of the last items that were inserted.

The items are in a circular queue. Two heaps of positions in the queue share the median as
their top, position `0`: the greater items hang at the positive positions, the smaller ones
at the negative positions. The arrays are total functions here; which of their places lie
in the bytes that the constructor gets is said apart.
-/

namespace XrCoin.Epee

open Data

@[ext]
structure RollingMedian (α : Type) where
  /-- `N`, the allocated size. -/
  capacity : ℕ
  data : ℕ → α
  pos : ℕ → ℤ
  heap : ℤ → ℕ
  idx : ℕ
  minCt : ℕ
  maxCt : ℕ
  sz : ℕ

inductive Side
  | min
  | max
  deriving DecidableEq

namespace Side

def «at» : Side → ℕ → ℤ
  | .min, j => j
  | .max, j => -j

def other : Side → Side
  | .min => .max
  | .max => .min

end Side

namespace RollingMedian

variable {α : Type} [LinearOrder α]

def value (m : RollingMedian α) (i : ℤ) : α := m.data (m.heap i)

def mmless (m : RollingMedian α) (i j : ℤ) : Bool := m.value i < m.value j

def mmexchange (m : RollingMedian α) (i j : ℤ) : RollingMedian α :=
  { m with
    heap := Function.update (Function.update m.heap i (m.heap j)) j (m.heap i)
    pos := Function.update (Function.update m.pos (m.heap j) i) (m.heap i) j }

def count (m : RollingMedian α) : Side → ℕ
  | .min => m.minCt
  | .max => m.maxCt

/-- Whether the item at one position of a heap belongs above that at another one. -/
def above (m : RollingMedian α) (s : Side) (j k : ℕ) : Bool :=
  match s with
  | .min => m.mmless (s.at j) (s.at k)
  | .max => m.mmless (s.at k) (s.at j)

def sortDownLoop (s : Side) : ℕ → ℕ → RollingMedian α → RollingMedian α
  | 0, _, m => m
  | rounds + 1, i, m =>
      if m.count s < 2 * i then m
      else
        let child := if 2 * i < m.count s ∧ m.above s (2 * i + 1) (2 * i) then 2 * i + 1 else 2 * i
        if m.above s child (child / 2) then
          sortDownLoop s rounds child (m.mmexchange (s.at child) (s.at (child / 2)))
        else m

def sortDown (m : RollingMedian α) (s : Side) (i : ℕ) : RollingMedian α :=
  sortDownLoop s (m.count s) i m

def minSortDown (m : RollingMedian α) (i : ℕ) : RollingMedian α := m.sortDown .min i

def maxSortDown (m : RollingMedian α) (i : ℕ) : RollingMedian α := m.sortDown .max i

/-- `minSortUp` and `maxSortUp`, for a number of rounds: whether the median changed. -/
def sortUpLoop (s : Side) : ℕ → ℕ → RollingMedian α → Bool × RollingMedian α
  | 0, i, m => (i = 0, m)
  | rounds + 1, i, m =>
      if 0 < i ∧ m.above s i (i / 2) then
        sortUpLoop s rounds (i / 2) (m.mmexchange (s.at i) (s.at (i / 2)))
      else (i = 0, m)

def sortUp (m : RollingMedian α) (s : Side) (i : ℕ) : Bool × RollingMedian α :=
  sortUpLoop s i i m

def minSortUp (m : RollingMedian α) (i : ℕ) : Bool × RollingMedian α := m.sortUp .min i

def maxSortUp (m : RollingMedian α) (i : ℕ) : Bool × RollingMedian α := m.sortUp .max i

/-- The position of an item in the heaps that `clear` begins with: the median, then a smaller
and a greater one in turn. -/
def clearPos (k : ℕ) : ℤ := if k % 2 = 1 then -((k + 1) / 2 : ℕ) else ((k + 1) / 2 : ℕ)

def clearHeap (i : ℤ) : ℕ := if i < 0 then 2 * i.natAbs - 1 else 2 * i.natAbs

def clear (m : RollingMedian α) : RollingMedian α :=
  { m with pos := clearPos, heap := clearHeap, idx := 0, minCt := 0, maxCt := 0, sz := 0 }

/-- `int size` of the constructor, for items of eight bytes: the product is put in 32 bits. -/
def allocSize (capacity : ℕ) : Int32 := Int32.ofNat (capacity * (8 + 4 * 2))

/-- The bytes of `malloc(size)`. A size below zero is a `size_t` that it refuses. -/
def allocBytes (capacity : ℕ) : ℕ := (allocSize capacity).toInt.toNat

/-- A new `rolling_median_t`. What the memory holds is arbitrary. -/
def new (capacity : ℕ) (data : ℕ → α) : RollingMedian α :=
  clear ⟨capacity, data, clearPos, clearHeap, 0, 0, 0, 0⟩

def riseMin (m : RollingMedian α) (i : ℕ) : RollingMedian α :=
  let up := m.minSortUp i
  if up.1 ∧ up.2.mmless 0 (-1) then (up.2.mmexchange 0 (-1)).maxSortDown 1 else up.2

def riseMax (m : RollingMedian α) (i : ℕ) : RollingMedian α :=
  let up := m.maxSortUp i
  if up.1 ∧ 0 < up.2.minCt ∧ up.2.mmless 1 0 then (up.2.mmexchange 1 0).minSortDown 1 else up.2

def settleMedian (m : RollingMedian α) : RollingMedian α :=
  let lower :=
    if 0 < m.maxCt then
      let up := m.maxSortUp 1
      if up.1 then up.2.maxSortDown 1 else up.2
    else m
  if 0 < lower.minCt then
    let up := lower.minSortUp 1
    if up.1 then up.2.minSortDown 1 else up.2
  else lower

def enqueue (m : RollingMedian α) (v : α) : RollingMedian α :=
  { m with
    data := Function.update m.data m.idx v
    idx := (m.idx + 1) % m.capacity
    sz := Nat.min (m.sz + 1) m.capacity }

def insert (m : RollingMedian α) (v : α) : RollingMedian α :=
  let p := m.pos m.idx
  let old := m.data m.idx
  let queued := m.enqueue v
  if 0 < p then
    if m.minCt < (m.capacity - 1) / 2 then { queued with minCt := m.minCt + 1 }.riseMin p.natAbs
    else if old < v then queued.minSortDown p.natAbs
    else queued.riseMin p.natAbs
  else if p < 0 then
    if m.maxCt < m.capacity / 2 then { queued with maxCt := m.maxCt + 1 }.riseMax p.natAbs
    else if v < old then queued.maxSortDown p.natAbs
    else queued.riseMax p.natAbs
  else queued.settleMedian

def size (m : RollingMedian α) : ℕ := m.sz

/-- The median, or the mean of the middle two, which may wrap. -/
def median (m : RollingMedian UInt64) : UInt64 :=
  if m.minCt < m.maxCt then (m.value 0 + m.value (-1)) / 2 else m.value 0

end RollingMedian

end XrCoin.Epee

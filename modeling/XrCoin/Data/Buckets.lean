import Mathlib

/-!
Sorting into buckets: one after the other the elements of each rank, in the order they had.
-/

namespace XrCoin.Data

variable {α β : Type} (rank : α → ℕ)

def inBuckets (n : ℕ) (l : List α) : List α :=
  (List.range n).flatMap fun r => l.filter fun a => rank a = r

variable {rank} {n r : ℕ} {l : List α} {a : α}

theorem inBuckets_succ (n : ℕ) (l : List α) :
    inBuckets rank (n + 1) l = inBuckets rank n l ++ l.filter fun a => rank a = n := by
  rw [inBuckets, List.range_succ, List.flatMap_append, List.flatMap_singleton, inBuckets]

theorem mem_inBuckets : a ∈ inBuckets rank n l ↔ a ∈ l ∧ rank a < n := by
  simp only [inBuckets, List.mem_flatMap, List.mem_range, List.mem_filter, decide_eq_true_eq]
  constructor
  · rintro ⟨r, hr, hmem, rfl⟩
    exact ⟨hmem, hr⟩
  · rintro ⟨hmem, hr⟩
    exact ⟨rank a, hr, hmem, rfl⟩

/-- Within one rank nothing moves. -/
theorem filter_inBuckets (hr : r < n) :
    (inBuckets rank n l).filter (fun a => rank a = r) = l.filter fun a => rank a = r := by
  induction n with
  | zero => exact absurd hr (by simp)
  | succ n ih =>
      rw [inBuckets_succ, List.filter_append, List.filter_filter]
      by_cases heq : r = n
      · have hlow : (inBuckets rank n l).filter (fun a => rank a = r) = [] := by
          rw [List.filter_eq_nil_iff]
          intro a ha
          have hlt := (mem_inBuckets.mp ha).2
          simp only [decide_eq_true_eq]
          omega
        rw [hlow, List.nil_append]
        refine List.filter_congr fun a _ => ?_
        simp [heq]
      · have hhigh : l.filter (fun a => decide (rank a = r) && decide (rank a = n)) = [] := by
          rw [List.filter_eq_nil_iff]
          intro a _
          simp only [Bool.and_eq_true, decide_eq_true_eq]
          omega
        rw [hhigh, List.append_nil, ih (by omega)]

theorem inBuckets_inBuckets (n : ℕ) (l : List α) :
    inBuckets rank n (inBuckets rank n l) = inBuckets rank n l :=
  List.flatMap_congr fun _ hr => filter_inBuckets (List.mem_range.mp hr)

theorem inBuckets_perm_filter (n : ℕ) (l : List α) :
    (inBuckets rank n l).Perm (l.filter fun a => rank a < n) := by
  induction n with
  | zero => simp [inBuckets]
  | succ n ih =>
      rw [inBuckets_succ]
      have hparts := List.filter_append_perm (fun a => decide (rank a < n))
        (l.filter fun a => rank a < n + 1)
      have hlow : (l.filter fun a => rank a < n + 1).filter (fun a => decide (rank a < n)) =
          l.filter fun a => rank a < n := by
        rw [List.filter_filter]
        refine List.filter_congr fun a _ => ?_
        grind
      have hhigh : (l.filter fun a => rank a < n + 1).filter (fun a => !decide (rank a < n)) =
          l.filter fun a => rank a = n := by
        rw [List.filter_filter]
        refine List.filter_congr fun a _ => ?_
        grind
      rw [hlow, hhigh] at hparts
      exact (ih.append_right _).trans hparts

theorem inBuckets_perm (h : ∀ a ∈ l, rank a < n) : (inBuckets rank n l).Perm l := by
  have hall : (l.filter fun a => rank a < n) = l :=
    List.filter_eq_self.mpr fun a ha => decide_eq_true (h a ha)
  have hperm : (inBuckets rank n l).Perm (l.filter fun a => rank a < n) :=
    inBuckets_perm_filter n l
  rwa [hall] at hperm

theorem map_inBuckets (f : β → α) (n : ℕ) (l : List β) :
    (inBuckets (fun b => rank (f b)) n l).map f = inBuckets rank n (l.map f) := by
  simp only [inBuckets, List.map_flatMap, List.filter_map]
  rfl

end XrCoin.Data

import Mathlib

/-!
Lists that are filled up: elements are added at the end unless they are there already, as long as
there is room.
-/

namespace XrCoin.Data

variable {α : Type} [DecidableEq α]

/-- An element added at the end, unless it is there. -/
def addNew (xs : List α) (a : α) : List α := if a ∈ xs then xs else xs ++ [a]

/-- Elements added one by one as long as there are fewer than so many. -/
def fillUp (cap : ℕ) : List α → List α → List α
  | [], xs => xs
  | a :: as, xs => if xs.length < cap then fillUp cap as (addNew xs a) else xs

theorem mem_addNew {xs : List α} {a b : α} : b ∈ addNew xs a ↔ b ∈ xs ∨ b = a := by
  unfold addNew
  split
  · next hmem => exact ⟨Or.inl, fun h => h.elim id fun heq => heq ▸ hmem⟩
  · rw [List.mem_append, List.mem_singleton]

theorem toFinset_addNew (xs : List α) (a : α) : (addNew xs a).toFinset = insert a xs.toFinset := by
  ext b
  simp [mem_addNew, or_comm]

theorem addNew_nodup {xs : List α} (h : xs.Nodup) (a : α) : (addNew xs a).Nodup := by
  unfold addNew
  split
  · exact h
  · next hnew =>
      refine h.append (List.nodup_singleton a) ?_
      rintro b hb hba
      exact hnew (List.mem_singleton.mp hba ▸ hb)

theorem prefix_addNew (xs : List α) (a : α) : xs <+: addNew xs a := by
  unfold addNew
  split
  · exact List.prefix_rfl
  · exact List.prefix_append xs [a]

theorem length_addNew_le (xs : List α) (a : α) : (addNew xs a).length ≤ xs.length + 1 := by
  unfold addNew
  split <;> simp

section All

variable (as xs : List α)

theorem toFinset_foldl_addNew : (as.foldl addNew xs).toFinset = xs.toFinset ∪ as.toFinset := by
  induction as generalizing xs with
  | nil => simp
  | cons a as ih =>
      rw [List.foldl_cons, ih, toFinset_addNew]
      ext b
      simp [or_comm]

variable {xs} in
theorem foldl_addNew_nodup (h : xs.Nodup) : (as.foldl addNew xs).Nodup := by
  induction as generalizing xs with
  | nil => exact h
  | cons a as ih =>
      rw [List.foldl_cons]
      exact ih (addNew_nodup h a)

end All

section FillUp

variable {cap : ℕ}

theorem fillUp_of_full {xs : List α} (h : cap ≤ xs.length) (as : List α) :
    fillUp cap as xs = xs := by
  cases as with
  | nil => rfl
  | cons a as => rw [fillUp, if_neg (Nat.not_lt.mpr h)]

theorem prefix_fillUp (as xs : List α) : xs <+: fillUp cap as xs := by
  induction as generalizing xs with
  | nil => exact List.prefix_rfl
  | cons a as ih =>
      rw [fillUp]
      split
      · exact (prefix_addNew xs a).trans (ih _)
      · exact List.prefix_rfl

theorem fillUp_nodup {xs : List α} (h : xs.Nodup) (as : List α) : (fillUp cap as xs).Nodup := by
  induction as generalizing xs with
  | nil => exact h
  | cons a as ih =>
      rw [fillUp]
      split
      · exact ih (addNew_nodup h a)
      · exact h

theorem mem_of_mem_fillUp {as xs : List α} {b : α} (h : b ∈ fillUp cap as xs) :
    b ∈ xs ∨ b ∈ as := by
  induction as generalizing xs with
  | nil => exact Or.inl h
  | cons a as ih =>
      rw [fillUp] at h
      split at h
      · rcases ih h with hmem | hmem
        · rcases mem_addNew.mp hmem with hxs | rfl
          · exact Or.inl hxs
          · exact Or.inr List.mem_cons_self
        · exact Or.inr (List.mem_cons_of_mem a hmem)
      · exact Or.inl h

/-- The list ends full, or with all there is. -/
theorem length_fillUp {xs : List α} (hnodup : xs.Nodup) (hlen : xs.length ≤ cap) (as : List α) :
    (fillUp cap as xs).length = min cap (xs.toFinset ∪ as.toFinset).card := by
  induction as generalizing xs with
  | nil =>
      rw [fillUp, List.toFinset_nil, Finset.union_empty, List.toFinset_card_of_nodup hnodup]
      omega
  | cons a as ih =>
      rw [fillUp]
      split
      · next hlt =>
          have hle := length_addNew_le xs a
          rw [ih (addNew_nodup hnodup a) (by omega), toFinset_addNew]
          congr 2
          ext b
          simp [or_comm]
      · next hfull =>
          have hcard : xs.length ≤ (xs.toFinset ∪ (a :: as).toFinset).card := by
            rw [← List.toFinset_card_of_nodup hnodup]
            exact Finset.card_le_card Finset.subset_union_left
          omega

/-- What comes first is there, with room for it. -/
theorem mem_fillUp_cons {xs : List α} {a : α} (hroom : xs.length < cap) (as : List α) :
    a ∈ fillUp cap (a :: as) xs := by
  rw [fillUp, if_pos hroom]
  exact (prefix_fillUp as _).subset (mem_addNew.mpr (Or.inr rfl))

theorem mem_fillUp_cons_cons {xs : List α} {a b : α} (hroom : xs.length + 1 < cap) (as : List α) :
    a ∈ fillUp cap (a :: b :: as) xs ∧ b ∈ fillUp cap (a :: b :: as) xs := by
  have hle := length_addNew_le xs a
  refine ⟨mem_fillUp_cons (by omega) _, ?_⟩
  rw [fillUp, if_pos (by omega)]
  exact mem_fillUp_cons (by omega) as

end FillUp

end XrCoin.Data

import Mathlib

/-!
Lists in which the marked elements may have a limited share, in percent and rounded up.

A list is marked first when the marked elements stand in front of the others. Such a list
can take a marked element at its front, or in exchange for the element at its back. Once the
share is exceeded neither of the two brings it back under the limit.
-/

namespace XrCoin.Data

/-- A quotient, rounded up. -/
def rationalCeil (numerator denominator : ℕ) : ℕ :=
  numerator / denominator + if numerator % denominator = 0 then 0 else 1

theorem le_rationalCeil_iff {numerator limit : ℕ} :
    limit ≤ rationalCeil numerator 100 ↔ 100 * limit < numerator + 100 := by
  rw [rationalCeil]
  split <;> omega

variable {α : Type} (percent : ℕ) (p : α → Bool) {l : List α} {x : α}

def WithinShare (l : List α) : Prop := l.countP p ≤ rationalCeil (l.length * percent) 100

instance (l : List α) : Decidable (WithinShare percent p l) := Nat.decLe _ _

def MarkedFirst (l : List α) : Prop := l.Pairwise fun a b => p b = true → p a = true

variable {percent p}

theorem markedFirst_of_unmarked (h : ∀ x ∈ l, p x = false) : MarkedFirst p l := by
  rw [MarkedFirst, List.pairwise_iff_forall_sublist]
  intro a b hsub hb
  have hmem : b ∈ l := hsub.subset (by simp)
  rw [h b hmem] at hb
  exact absurd hb (by simp)

theorem MarkedFirst.cons (h : MarkedFirst p l) (hx : p x = true) : MarkedFirst p (x :: l) :=
  List.pairwise_cons.mpr ⟨fun _ _ _ => hx, h⟩

theorem withinShare_cons (hx : p x = true) :
    WithinShare percent p (x :: l) ↔
      l.countP p + 1 ≤ rationalCeil ((l.length + 1) * percent) 100 := by
  rw [WithinShare, List.countP_cons_of_pos hx, List.length_cons]

theorem not_withinShare_cons (hx : p x = true) (h : ¬WithinShare percent p l) :
    ¬WithinShare percent p (x :: l) := by
  have hcount : l.countP p ≤ l.length := List.countP_le_length
  rw [withinShare_cons hx, le_rationalCeil_iff]
  rw [WithinShare, le_rationalCeil_iff] at h
  -- with a hundred percent or more every list is within its share
  have hpercent : percent < 100 := by
    by_contra hlarge
    have hmul : l.length * 100 ≤ l.length * percent :=
      Nat.mul_le_mul_left _ (Nat.le_of_not_lt hlarge)
    omega
  rw [Nat.add_mul]
  omega

/-- The exchange in a list that is marked first: an unmarked element is lost if there is
one. -/
theorem exchange_counts (hl : MarkedFirst p l) (hne : l ≠ []) (hx : p x = true) :
    (x :: l).dropLast.length = l.length ∧
      (x :: l).dropLast.countP p = min (l.countP p + 1) l.length := by
  obtain ⟨front, back, rfl⟩ := (List.eq_nil_or_concat' l).resolve_left hne
  have hlast : (x :: (front ++ [back])).dropLast = x :: front := by
    rw [← List.cons_append, List.dropLast_concat]
  have hfront : front.countP p ≤ front.length := List.countP_le_length
  have hlength : (front ++ [back]).length = front.length + 1 := by
    rw [List.length_append, List.length_singleton]
  rw [hlast, List.countP_cons_of_pos hx, List.countP_append, List.countP_singleton, hlength,
    List.length_cons]
  refine ⟨rfl, ?_⟩
  by_cases hback : p back = true
  · -- nothing but marked elements
    have hall : front.countP p = front.length := by
      rw [List.countP_eq_length]
      intro a ha
      exact (List.pairwise_append.mp hl).2.2 a ha back (by simp) hback
    rw [if_pos hback]
    omega
  · rw [if_neg hback]
    omega

theorem MarkedFirst.exchange (h : MarkedFirst p l) (hx : p x = true) :
    MarkedFirst p (x :: l).dropLast :=
  List.Pairwise.sublist (List.dropLast_sublist _) (h.cons hx)

theorem withinShare_exchange (hl : MarkedFirst p l) (hne : l ≠ []) (hx : p x = true)
    (h : WithinShare percent p l) :
    WithinShare percent p (x :: l).dropLast ↔
      (l.countP p < l.length → l.countP p + 1 ≤ rationalCeil (l.length * percent) 100) := by
  obtain ⟨hlength, hcount⟩ := exchange_counts hl hne hx
  have hle : l.countP p ≤ l.length := List.countP_le_length
  rw [WithinShare] at h
  rw [WithinShare, hlength, hcount]
  rcases Nat.lt_or_ge (l.countP p) l.length with hlt | hge
  · rw [min_eq_left hlt]
    exact ⟨fun hshare _ => hshare, fun hshare => hshare hlt⟩
  · have hall : l.countP p = l.length := le_antisymm hle hge
    rw [min_eq_right (hge.trans (Nat.le_succ _)), ← hall]
    rw [← hall] at h
    exact iff_of_true h fun hlt => absurd hlt (lt_irrefl _)

theorem not_withinShare_exchange (hl : MarkedFirst p l) (hne : l ≠ []) (hx : p x = true)
    (h : ¬WithinShare percent p l) : ¬WithinShare percent p (x :: l).dropLast := by
  obtain ⟨hlength, hcount⟩ := exchange_counts hl hne hx
  have hle : l.countP p ≤ l.length := List.countP_le_length
  rw [WithinShare] at h ⊢
  rw [hlength, hcount]
  omega

end XrCoin.Data

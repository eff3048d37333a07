import Mathlib

/-!
The last index behind a start that has a property, as a search from the top down finds it.

Where there is none the search ends at the start itself.
-/

namespace XrCoin.Data

/-- The start, and the indices behind it up to `top` that have the property. -/
def candidates (start top : ℕ) (p : ℕ → Prop) : Set ℕ := {k | k = start ∨ start < k ∧ k ≤ top ∧ p k}

variable {start top found : ℕ} {p q : ℕ → Prop}

theorem isGreatest_candidates_start (h : top ≤ start) :
    IsGreatest (candidates start top p) start := by
  refine ⟨.inl rfl, ?_⟩
  rintro k (rfl | ⟨hk, htop, -⟩)
  · exact le_rfl
  · omega

theorem isGreatest_candidates_hit (h : start < top) (hp : p top) :
    IsGreatest (candidates start top p) top := by
  refine ⟨.inr ⟨h, le_rfl, hp⟩, ?_⟩
  rintro k (rfl | ⟨-, htop, -⟩)
  · exact h.le
  · exact htop

theorem candidates_pass (hp : ¬p (top + 1)) :
    candidates start (top + 1) p = candidates start top p := by
  ext k
  apply or_congr_right
  apply and_congr_right
  intro hk
  constructor
  · rintro ⟨htop, hpk⟩
    refine ⟨?_, hpk⟩
    rcases Nat.lt_or_eq_of_le htop with hlt | rfl
    · exact Nat.le_of_lt_succ hlt
    · exact absurd hpk hp
  · rintro ⟨htop, hpk⟩
    exact ⟨htop.trans (Nat.le_succ top), hpk⟩

/-- Two properties have the same last index exactly when they agree on every index that no later
one with both properties hides. -/
theorem isGreatest_candidates_iff (h : IsGreatest (candidates start top p) found) :
    IsGreatest (candidates start top q) found ↔
      ∀ k, start < k → k ≤ top → (p k ↔ q k) ∨ ∃ l, k < l ∧ l ≤ top ∧ p l ∧ q l := by
  constructor
  · intro hq k hk htop
    rcases Nat.lt_trichotomy k found with hlt | rfl | hlt
    · -- what was found hides the index
      rcases h.1 with heq | ⟨-, hfound, hp⟩
      · omega
      · rcases hq.1 with heq | ⟨-, -, hqFound⟩
        · omega
        · exact .inr ⟨found, hlt, hfound, hp, hqFound⟩
    · rcases h.1 with heq | ⟨-, -, hp⟩
      · omega
      · rcases hq.1 with heq | ⟨-, -, hqFound⟩
        · omega
        · exact .inl (iff_of_true hp hqFound)
    · refine .inl (iff_of_false (fun hp => ?_) fun hqk => ?_)
      · exact absurd (h.2 (.inr ⟨hk, htop, hp⟩)) (not_le.mpr hlt)
      · exact absurd (hq.2 (.inr ⟨hk, htop, hqk⟩)) (not_le.mpr hlt)
  · intro hagree
    have hlate (k : ℕ) (hk : start < k) (hlt : found < k) (htop : k ≤ top) : ¬p k :=
      fun hp => absurd (h.2 (.inr ⟨hk, htop, hp⟩)) (not_le.mpr hlt)
    have hstart : start ≤ found := h.2 (.inl rfl)
    constructor
    · rcases h.1 with heq | ⟨hbehind, htop, hp⟩
      · exact .inl heq
      · rcases hagree found hbehind htop with hiff | ⟨l, hl, hltop, hpl, -⟩
        · exact .inr ⟨hbehind, htop, hiff.mp hp⟩
        · exact absurd hpl (hlate l (hbehind.trans hl) hl hltop)
    · rintro k (rfl | ⟨hk, htop, hqk⟩)
      · exact hstart
      · by_contra hlt
        rw [not_le] at hlt
        rcases hagree k hk htop with hiff | ⟨l, hl, hltop, hpl, -⟩
        · exact hlate k hk hlt htop (hiff.mpr hqk)
        · exact hlate l (hk.trans hl) (hlt.trans hl) hltop hpl

end XrCoin.Data

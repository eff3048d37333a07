import Mathlib

/-!
Strict weak orders that compare one thing after another.
-/

namespace XrCoin.Data

variable {α : Type} {r s : α → α → Prop}

/-- Compares by the first relation, and by the second where the first has nothing to say. -/
def ThenBy (r s : α → α → Prop) (a b : α) : Prop := r a b ∨ ¬r b a ∧ s a b

/-- What lies between two elements is on the far side of one of them. -/
theorem lt_or_lt_of_lt (hr : IsStrictWeakOrder α r) {a c : α} (h : r a c) (b : α) :
    r a b ∨ r b c := by
  by_contra hnot
  rw [not_or] at hnot
  have hba : ¬r b a := fun hba => hnot.2 (hr.trans b a c hba h)
  have hcb : ¬r c b := fun hcb => hnot.1 (hr.trans a c b h hcb)
  exact (hr.incomp_trans a b c ⟨hnot.1, hba⟩ ⟨hnot.2, hcb⟩).1 h

theorem isStrictWeakOrder_thenBy (hr : IsStrictWeakOrder α r) (hs : IsStrictWeakOrder α s) :
    IsStrictWeakOrder α (ThenBy r s) where
  irrefl a h := by
    rcases h with h | ⟨-, h⟩
    · exact hr.irrefl a h
    · exact hs.irrefl a h
  trans a b c hab hbc := by
    by_cases hac : r a c
    · exact .inl hac
    -- then the first relation says nothing about any two of the three
    have hrab : ¬r a b := by
      intro hrab
      rcases lt_or_lt_of_lt hr hrab c with h | h
      · exact hac h
      · rcases hbc with hbc | hbc
        · exact hr.irrefl b (hr.trans b c b hbc h)
        · exact hbc.1 h
    have hrbc : ¬r b c := by
      intro hrbc
      rcases lt_or_lt_of_lt hr hrbc a with h | h
      · exact (hab.resolve_left hrab).1 h
      · exact hac h
    obtain ⟨hrba, hsab⟩ := hab.resolve_left hrab
    obtain ⟨hrcb, hsbc⟩ := hbc.resolve_left hrbc
    refine .inr ⟨fun hca => ?_, hs.trans a b c hsab hsbc⟩
    rcases lt_or_lt_of_lt hr hca b with h | h
    · exact hrcb h
    · exact hrba h
  incomp_trans a b c hab hbc := by
    have hsplit (x y : α) (h : ¬ThenBy r s x y ∧ ¬ThenBy r s y x) :
        (¬r x y ∧ ¬r y x) ∧ ¬s x y ∧ ¬s y x := by
      rw [ThenBy, ThenBy, not_or, not_or] at h
      obtain ⟨⟨hxy, hsxy⟩, hyx, hsyx⟩ := h
      exact ⟨⟨hxy, hyx⟩, fun hs => hsxy ⟨hyx, hs⟩, fun hs => hsyx ⟨hxy, hs⟩⟩
    obtain ⟨hrab, hsab⟩ := hsplit a b hab
    obtain ⟨hrbc, hsbc⟩ := hsplit b c hbc
    have hrac := hr.incomp_trans a b c hrab hrbc
    have hsac := hs.incomp_trans a b c hsab hsbc
    constructor
    · rintro (h | ⟨-, h⟩)
      · exact hrac.1 h
      · exact hsac.1 h
    · rintro (h | ⟨-, h⟩)
      · exact hrac.2 h
      · exact hsac.2 h

end XrCoin.Data

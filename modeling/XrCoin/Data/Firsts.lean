import Mathlib

/-!
The first element of every key in a list, in the order of the list.
-/

namespace XrCoin.Data

variable {α κ : Type} [DecidableEq κ] (key : α → κ)

/-- The elements whose key did not occur in front of them, nor among those seen. -/
def firstsBy : List κ → List α → List α
  | _, [] => []
  | seen, a :: as =>
      if key a ∈ seen then firstsBy seen as else a :: firstsBy (key a :: seen) as

variable {key}

theorem firstsBy_sublist (seen : List κ) (as : List α) : (firstsBy key seen as).Sublist as := by
  induction as generalizing seen with
  | nil => exact List.Sublist.refl _
  | cons a as ih =>
      rw [firstsBy]
      split_ifs
      · exact (ih seen).cons a
      · exact (ih _).cons_cons a

theorem mem_map_firstsBy {seen : List κ} {as : List α} {k : κ} :
    k ∈ (firstsBy key seen as).map key ↔ k ∈ as.map key ∧ k ∉ seen := by
  induction as generalizing seen with
  | nil => simp [firstsBy]
  | cons a as ih =>
      rw [firstsBy]
      split_ifs with hseen
      · rw [ih, List.map_cons, List.mem_cons]
        constructor
        · exact fun h => ⟨.inr h.1, h.2⟩
        · rintro ⟨rfl | hk, hnot⟩
          · exact absurd hseen hnot
          · exact ⟨hk, hnot⟩
      · rw [List.map_cons, List.mem_cons, ih, List.map_cons, List.mem_cons, List.mem_cons, not_or]
        by_cases hk : k = key a
        · simp [hk, hseen]
        · simp [hk]

theorem nodup_map_firstsBy (seen : List κ) (as : List α) :
    ((firstsBy key seen as).map key).Nodup := by
  induction as generalizing seen with
  | nil => exact List.nodup_nil
  | cons a as ih =>
      rw [firstsBy]
      split_ifs
      · exact ih seen
      · rw [List.map_cons, List.nodup_cons]
        exact ⟨fun hmem => (mem_map_firstsBy.mp hmem).2 List.mem_cons_self, ih _⟩

/-- The keys are the same in every order of the list. -/
theorem map_firstsBy_perm {as bs : List α} (h : as.Perm bs) :
    ((firstsBy key [] as).map key).Perm ((firstsBy key [] bs).map key) := by
  rw [List.perm_ext_iff_of_nodup (nodup_map_firstsBy _ _) (nodup_map_firstsBy _ _)]
  intro k
  rw [mem_map_firstsBy, mem_map_firstsBy, (h.map key).mem_iff]

theorem length_firstsBy_perm {as bs : List α} (h : as.Perm bs) :
    (firstsBy key [] as).length = (firstsBy key [] bs).length := by
  have hlength := (@map_firstsBy_perm α κ _ key as bs h).length_eq
  rwa [List.length_map, List.length_map] at hlength

/-- Elements whose keys have occurred add nothing. -/
theorem firstsBy_append {seen : List κ} {as bs : List α}
    (h : ∀ b ∈ bs, key b ∈ seen ∨ key b ∈ as.map key) :
    firstsBy key seen (as ++ bs) = firstsBy key seen as := by
  induction as generalizing seen with
  | nil =>
      rw [List.nil_append]
      induction bs with
      | nil => rfl
      | cons b bs ih =>
          have hb : key b ∈ seen := (h b List.mem_cons_self).resolve_right (by simp)
          have hstep : firstsBy key seen (b :: bs) = firstsBy key seen bs := if_pos hb
          rw [hstep]
          exact ih fun b' hb' => h b' (List.mem_cons_of_mem _ hb')
  | cons a as ih =>
      rw [List.cons_append, firstsBy, firstsBy]
      split_ifs with hseen
      · refine ih fun b hb => ?_
        rcases h b hb with hb | hb
        · exact .inl hb
        · rcases List.mem_cons.mp hb with heq | hb
          · exact .inl (heq ▸ hseen)
          · exact .inr hb
      · congr 1
        refine ih fun b hb => ?_
        rcases h b hb with hb | hb
        · exact .inl (List.mem_cons_of_mem _ hb)
        · rcases List.mem_cons.mp hb with heq | hb
          · exact .inl (heq ▸ List.mem_cons_self)
          · exact .inr hb

end XrCoin.Data

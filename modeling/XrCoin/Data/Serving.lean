import Mathlib

/-!
Taking one unused item out of each of several bins. A bin without an unused item gives nothing.

Bins that share no items do not get into each other's way: as long as a bin has been asked fewer
times than it has items, it gives one.
-/

namespace XrCoin.Data

variable {β κ : Type} [DecidableEq κ] (item : β → κ)

/-- The first unused element of each bin. What is taken is used. -/
def serve : List κ → List (List β) → List β
  | _, [] => []
  | used, bin :: bins =>
      match bin.find? fun b => decide (item b ∉ used) with
      | none => serve used bins
      | some b => b :: serve (used ++ [item b]) bins

def unused (used : List κ) (bin : List β) : ℕ := bin.countP fun b => decide (item b ∉ used)

/-- Two bins without a common item. -/
def Apart (bin bin' : List β) : Prop := (bin.map item).Disjoint (bin'.map item)

variable {item} {used : List κ} {bin : List β} {bins : List (List β)}

theorem serve_cons_of_none (h : bin.find? (fun b => decide (item b ∉ used)) = none) :
    serve item used (bin :: bins) = serve item used bins := by
  rw [serve, h]

theorem serve_cons_of_some {b : β}
    (h : bin.find? (fun b => decide (item b ∉ used)) = some b) :
    serve item used (bin :: bins) = b :: serve item (used ++ [item b]) bins := by
  rw [serve, h]

theorem of_find?_unused {b : β} (h : bin.find? (fun b => decide (item b ∉ used)) = some b) :
    b ∈ bin ∧ item b ∉ used := by
  have hunused := List.find?_some h
  exact ⟨List.mem_of_find?_eq_some h, of_decide_eq_true hunused⟩

theorem nodup_serve (h : used.Nodup) : (used ++ (serve item used bins).map item).Nodup := by
  induction bins generalizing used with
  | nil => simpa [serve] using h
  | cons bin bins ih =>
      cases hfind : bin.find? fun b => decide (item b ∉ used) with
      | none =>
          rw [serve_cons_of_none hfind]
          exact ih h
      | some b =>
          have hnew : (used ++ [item b]).Nodup :=
            h.append (List.nodup_singleton _) (by simpa using (of_find?_unused hfind).2)
          rw [serve_cons_of_some hfind, List.map_cons, ← List.singleton_append,
            ← List.append_assoc]
          exact ih hnew

/-! ### What is left of a bin -/

theorem unused_append_of_apart {item' : κ} (h : item' ∉ bin.map item) :
    unused item (used ++ [item']) bin = unused item used bin := by
  apply List.countP_congr
  intro b hb
  have hne : item b ≠ item' := fun heq => h (heq ▸ List.mem_map_of_mem hb)
  simp [hne]

/-- One item that is taken is one of a bin without repetition. -/
theorem unused_le_append (hnodup : (bin.map item).Nodup) (item' : κ) :
    unused item used bin ≤ unused item (used ++ [item']) bin + 1 := by
  induction bin with
  | nil => exact Nat.zero_le _
  | cons b bin ih =>
      rw [List.map_cons, List.nodup_cons] at hnodup
      rw [unused, unused, List.countP_cons, List.countP_cons, ← unused, ← unused]
      by_cases heq : item b = item'
      · -- then no other is
        have hrest := @unused_append_of_apart β κ _ item used bin item' (heq ▸ hnodup.1)
        rw [hrest]
        split_ifs <;> omega
      · have hsame : decide (item b ∉ used ++ [item']) = decide (item b ∉ used) := by
          simp [heq]
        rw [hsame]
        have hle := ih hnodup.2
        omega

theorem unused_serve_of_apart (h : ∀ bin' ∈ bins, Apart item bin' bin) :
    unused item (used ++ (serve item used bins).map item) bin = unused item used bin := by
  induction bins generalizing used with
  | nil => simp [serve]
  | cons bin' bins ih =>
      rw [List.forall_mem_cons] at h
      cases hfind : bin'.find? fun b => decide (item b ∉ used) with
      | none =>
          rw [serve_cons_of_none hfind]
          exact ih h.2
      | some b =>
          rw [serve_cons_of_some hfind, List.map_cons, ← List.singleton_append,
            ← List.append_assoc, ih h.2]
          exact unused_append_of_apart
            fun hmem => h.1 (List.mem_map_of_mem (of_find?_unused hfind).1) hmem

/-- Of each of several bins one item is taken at most. -/
theorem unused_le_serve (hapart : bins.Pairwise (Apart item)) (hbin : bin ∈ bins)
    (hnodup : (bin.map item).Nodup) :
    unused item used bin ≤ unused item (used ++ (serve item used bins).map item) bin + 1 := by
  induction bins generalizing used with
  | nil => cases hbin
  | cons bin' bins ih =>
      rw [List.pairwise_cons] at hapart
      cases hfind : bin'.find? fun b => decide (item b ∉ used) with
      | none =>
          rw [serve_cons_of_none hfind]
          rcases List.mem_cons.mp hbin with rfl | hmem
          · rw [unused_serve_of_apart fun bin' hbin' => (hapart.1 bin' hbin').symm]
            exact Nat.le_succ _
          · exact ih hapart.2 hmem
      | some b =>
          rw [serve_cons_of_some hfind, List.map_cons, ← List.singleton_append,
            ← List.append_assoc]
          rcases List.mem_cons.mp hbin with rfl | hmem
          · rw [unused_serve_of_apart fun bin' hbin' => (hapart.1 bin' hbin').symm]
            exact unused_le_append hnodup _
          · have hother : item b ∉ bin.map item := fun hmem' =>
              hapart.1 bin hmem (List.mem_map_of_mem (of_find?_unused hfind).1) hmem'
            rw [← @unused_append_of_apart β κ _ item used bin (item b) hother]
            exact ih hapart.2 hmem

/-- Every bin that is not used up gives an item. -/
theorem countP_le_length_serve (hapart : bins.Pairwise (Apart item)) :
    bins.countP (fun bin => decide (0 < unused item used bin)) ≤
      (serve item used bins).length := by
  induction bins generalizing used with
  | nil => exact Nat.le_refl _
  | cons bin bins ih =>
      rw [List.pairwise_cons] at hapart
      rw [List.countP_cons]
      cases hfind : bin.find? fun b => decide (item b ∉ used) with
      | none =>
          have hnone : ¬0 < unused item used bin := by
            rw [unused, List.countP_pos_iff]
            rintro ⟨b, hb, hunused⟩
            exact absurd hunused (List.find?_eq_none.mp hfind b hb)
          rw [serve_cons_of_none hfind, decide_eq_false hnone]
          exact ih hapart.2
      | some b =>
          have hsame : bins.countP (fun bin => decide (0 < unused item used bin)) =
              bins.countP fun bin => decide (0 < unused item (used ++ [item b]) bin) := by
            apply List.countP_congr
            intro bin' hbin'
            rw [unused_append_of_apart fun hmem =>
              hapart.1 bin' hbin' (List.mem_map_of_mem (of_find?_unused hfind).1) hmem]
          rw [serve_cons_of_some hfind, List.length_cons, hsame]
          have hrest := @ih (used ++ [item b]) hapart.2
          split_ifs <;> omega

end XrCoin.Data

import Mathlib

/-!
Elements taken out of a vector: at an index, where the last element goes into the gap, at the end,
or where an element is found.

Up to the order, what is left is the list without the element.
-/

namespace XrCoin.Data

variable {α : Type}

/-- The element at an index, and what is left. The last element fills the gap. -/
def popIndex (l : List α) (i : ℕ) : Option (α × List α) :=
  match l[i]?, l.getLast? with
  | some a, some last =>
      some (a, (if i + 1 ≠ l.length then l.set i last else l).dropLast)
  | _, _ => none

def popBack (l : List α) : Option (α × List α) := l.getLast?.map fun a => (a, l.dropLast)

def popIfPresent [DecidableEq α] (l : List α) (e : α) : List α :=
  ((l.idxOf? e).bind fun i => (popIndex l i).map Prod.snd).getD l

theorem popIndex_perm {l : List α} {i : ℕ} {a : α} {rest : List α}
    (h : popIndex l i = some (a, rest)) : l.Perm (a :: rest) := by
  rw [popIndex] at h
  rcases hget : l[i]? with _ | b
  · rw [hget] at h
    cases h
  rcases hlast : l.getLast? with _ | last
  · rw [hget, hlast] at h
    cases h
  rw [hget, hlast] at h
  obtain ⟨rfl, rfl⟩ := Prod.mk.inj (Option.some.inj h)
  obtain ⟨front, rfl⟩ := List.getLast?_eq_some_iff.mp hlast
  rw [List.length_append, List.length_singleton]
  by_cases hi : i = front.length
  · -- the last one itself
    rw [if_neg (by omega), List.dropLast_concat]
    rw [hi, List.getElem?_concat_length] at hget
    obtain rfl := Option.some.inj hget
    exact List.perm_append_comm
  · have hlt : i < front.length := by
      obtain ⟨hlt, -⟩ := List.getElem?_eq_some_iff.mp hget
      rw [List.length_append, List.length_singleton] at hlt
      omega
    rw [List.getElem?_append_left hlt] at hget
    rw [if_pos (by omega), List.set_append_left _ _ hlt, List.dropLast_concat]
    obtain ⟨_, rfl⟩ := List.getElem?_eq_some_iff.mp hget
    calc
      (front ++ [last]).Perm (last :: front) := List.perm_append_comm
      _ = last :: (front.take i ++ front[i] :: front.drop (i + 1)) := by
        rw [List.getElem_cons_drop, List.take_append_drop]
      List.Perm _ (last :: front[i] :: (front.take i ++ front.drop (i + 1))) :=
        List.perm_middle.cons last
      List.Perm _ (front[i] :: last :: (front.take i ++ front.drop (i + 1))) :=
        List.Perm.swap ..
      List.Perm _ (front[i] :: (front.take i ++ last :: front.drop (i + 1))) :=
        List.perm_middle.symm.cons _
      _ = front[i] :: front.set i last := by rw [List.set_eq_take_append_cons_drop, if_pos hlt]

theorem popBack_eq {l : List α} {a : α} {rest : List α} (h : popBack l = some (a, rest)) :
    l = rest ++ [a] := by
  obtain ⟨b, hlast, hrest⟩ := Option.map_eq_some_iff.mp h
  obtain ⟨rfl, rfl⟩ := Prod.mk.inj hrest
  obtain ⟨front, rfl⟩ := List.getLast?_eq_some_iff.mp hlast
  rw [List.dropLast_concat]

theorem popIndex_of_get {l : List α} {i : ℕ} {a : α} (h : l[i]? = some a) :
    ∃ rest, popIndex l i = some (a, rest) := by
  obtain ⟨hi, -⟩ := List.getElem?_eq_some_iff.mp h
  have hne : l ≠ [] := List.ne_nil_of_length_pos (by omega)
  rw [popIndex, h, List.getLast?_eq_some_getLast hne]
  exact ⟨_, rfl⟩

/-- Up to the order the first occurrence is erased. -/
theorem popIfPresent_perm [DecidableEq α] (l : List α) (e : α) :
    (popIfPresent l e).Perm (l.erase e) := by
  rw [popIfPresent]
  rcases hidx : l.idxOf? e with _ | i
  · rw [List.idxOf?_eq_none_iff] at hidx
    rw [List.erase_of_not_mem hidx]
    exact List.Perm.refl l
  obtain ⟨hi, hget, -⟩ := List.idxOf?_eq_some_iff.mp hidx
  have hget' : l[i]? = some e := List.getElem?_eq_some_iff.mpr ⟨hi, hget⟩
  obtain ⟨rest, hpop⟩ := popIndex_of_get hget'
  rw [Option.bind_some, hpop]
  have hmem : e ∈ l := List.mem_of_getElem? hget'
  exact ((List.perm_cons_erase hmem).symm.trans (popIndex_perm hpop)).cons_inv.symm

end XrCoin.Data

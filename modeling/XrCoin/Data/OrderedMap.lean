import Mathlib
import XrCoin.Data.OrderedSet

/-!
Maps as sets of pairs in the order of their keys.

The keys are ordered through an injective function. An assignment replaces what a key had.
-/

namespace XrCoin.Data

variable {α κ ι β : Type} [LinearOrder κ]

theorem OrderedSet.ext_mem {key : α → κ} {s t : OrderedSet key} (h : ∀ a, a ∈ s ↔ a ∈ t) : s = t := by
  have hnodup : ∀ u : OrderedSet key, u.elems.Nodup := fun u =>
    u.sorted.imp fun hlt heq => hlt.ne (congrArg key heq)
  have hperm : s.elems.Perm t.elems := (List.perm_ext_iff_of_nodup (hnodup s) (hnodup t)).mpr h
  apply OrderedSet.ext
  refine hperm.eq_of_pairwise (fun a b _ _ hab hba => ?_) s.sorted t.sorted
  exact absurd (hab.trans hba) (lt_irrefl _)

abbrev OrderedMap (order : ι → κ) (β : Type) : Type := OrderedSet fun p : ι × β => order p.1

namespace OrderedMap

variable {order : ι → κ} [DecidableEq ι]

def find (m : OrderedMap order β) (i : ι) : Option β := m.elems.lookup i

def assign (m : OrderedMap order β) (i : ι) (b : β) : OrderedMap order β :=
  OrderedSet.insert (OrderedSet.erase m (i, b)) (i, b)

theorem lookup_eq_some_iff {l : List (ι × β)} (hl : l.Pairwise fun p q => p.1 ≠ q.1) {i : ι} {b : β} :
    l.lookup i = some b ↔ (i, b) ∈ l := by
  induction l with
  | nil => simp
  | cons p l ih =>
      rw [List.pairwise_cons] at hl
      obtain ⟨j, c⟩ := p
      rw [List.lookup_cons, List.mem_cons]
      by_cases hij : i = j
      · subst hij
        simp only [beq_self_eq_true, Option.some.injEq, Prod.mk.injEq, true_and]
        constructor
        · exact fun hcb => .inl hcb.symm
        · -- the key is not taken a second time
          rintro (hbc | hb)
          · exact hbc.symm
          · exact absurd rfl (hl.1 (i, b) hb)
      · simp only [beq_false_of_ne hij, Prod.mk.injEq, hij, false_and, false_or]
        exact ih hl.2

theorem find_eq_some_iff {m : OrderedMap order β} {i : ι} {b : β} :
    find m i = some b ↔ (i, b) ∈ m := by
  apply lookup_eq_some_iff
  exact m.sorted.imp fun hlt heq => hlt.ne (congrArg order heq)

omit [DecidableEq ι] in
theorem mem_assign (horder : Function.Injective order) {m : OrderedMap order β} {i : ι} {b : β}
    {p : ι × β} : p ∈ assign m i b ↔ p ∈ m ∧ p.1 ≠ i ∨ p = (i, b) := by
  rw [assign, OrderedSet.mem_insert_erase rfl, horder.ne_iff]

theorem find_assign (horder : Function.Injective order) (m : OrderedMap order β) (i j : ι) (b : β) :
    find (assign m i b) j = if j = i then some b else find m j := by
  ext c
  rw [find_eq_some_iff, mem_assign horder]
  by_cases hji : j = i
  · rw [if_pos hji, hji]
    simp [eq_comm]
  · rw [if_neg hji, find_eq_some_iff]
    simp [hji]

theorem assign_of_find (horder : Function.Injective order) {m : OrderedMap order β} {i : ι} {b : β}
    (h : find m i = some b) : assign m i b = m := by
  rw [find_eq_some_iff] at h
  apply OrderedSet.ext_mem
  intro p
  rw [mem_assign horder]
  constructor
  · rintro (⟨hp, -⟩ | rfl)
    · exact hp
    · exact h
  · intro hp
    by_cases hkey : p.1 = i
    · exact .inr (OrderedSet.eq_of_key_eq hp h (congrArg order hkey))
    · exact .inl ⟨hp, hkey⟩

end OrderedMap

end XrCoin.Data

import Mathlib
import XrCoin.Data.OrderedMap

/-!
Values that are collected by a key, and then put into numbered bins.

Whatever a value is measured by, the measures of all bins add up to those of the values, as long as
each one finds its bin.
-/

namespace XrCoin.Data

variable {M N : Type} [Add M] [AddCommMonoid N]

def addAt (i : ℕ) (m : M) (bins : List M) : Option (List M) :=
  if i < bins.length then some (bins.modify i (· + m)) else none

def addAll : List (ℕ × M) → List M → Option (List M)
  | [], bins => some bins
  | e :: entries, bins => (addAt e.1 e.2 bins).bind (addAll entries)

theorem addAll_isSome_iff {entries : List (ℕ × M)} {bins : List M} :
    (addAll entries bins).isSome = true ↔ ∀ e ∈ entries, e.1 < bins.length := by
  induction entries generalizing bins with
  | nil => simp [addAll]
  | cons e entries ih =>
      rw [addAll, addAt, List.forall_mem_cons]
      split
      · rename_i hlt
        rw [Option.bind_some, ih, List.length_modify, and_iff_right hlt]
      · rename_i hge
        simp [hge]

section Measure

variable {μ : M → N} (hμ : ∀ a b, μ (a + b) = μ a + μ b)

include hμ

theorem sum_modify {i : ℕ} {bins : List M} (h : i < bins.length) (m : M) :
    ((bins.modify i (· + m)).map μ).sum = (bins.map μ).sum + μ m := by
  induction bins generalizing i with
  | nil => exact absurd h (Nat.not_lt_zero i)
  | cons b bins ih =>
      cases i with
      | zero => rw [List.modify_zero_cons, List.map_cons, List.sum_cons, hμ, List.map_cons,
          List.sum_cons, add_right_comm]
      | succ i => rw [List.modify_succ_cons, List.map_cons, List.sum_cons,
          ih (Nat.lt_of_succ_lt_succ h), List.map_cons, List.sum_cons, add_assoc]

theorem sum_addAll {entries : List (ℕ × M)} {bins bins' : List M}
    (h : addAll entries bins = some bins') :
    (bins'.map μ).sum = (bins.map μ).sum + (entries.map fun e => μ e.2).sum := by
  induction entries generalizing bins with
  | nil =>
      obtain rfl := Option.some.inj h
      simp
  | cons e entries ih =>
      rw [addAll, addAt] at h
      split at h
      · rename_i hlt
        rw [ih h, sum_modify hμ hlt, List.map_cons, List.sum_cons, add_assoc]
      · cases h

end Measure

/-! ### Collecting by a key -/

namespace OrderedMap

variable {κ ι : Type} [LinearOrder κ] {order : ι → κ} [DecidableEq ι]

omit [Add M] in
theorem elems_perm_of_find {t : OrderedMap order M} {i : ι}
    {m : M} (h : find t i = some m) (b : M) :
    t.elems.Perm ((i, m) :: (OrderedSet.erase t (i, b)).elems) := by
  rw [find_eq_some_iff] at h
  have hnodup : ∀ u : OrderedMap order M, u.elems.Nodup := fun u =>
    u.sorted.imp fun hlt heq => hlt.ne (congrArg (fun p : ι × M => order p.1) heq)
  refine (List.perm_ext_iff_of_nodup (hnodup t) (List.nodup_cons.mpr ⟨?_, hnodup _⟩)).mpr ?_
  · exact fun hmem => (OrderedSet.mem_erase.mp hmem).2 rfl
  · intro p
    rw [List.mem_cons]
    constructor
    · intro hp
      by_cases hkey : order p.1 = order i
      · exact .inl (OrderedSet.eq_of_key_eq hp h hkey)
      · exact .inr (OrderedSet.mem_erase.mpr ⟨hp, hkey⟩)
    · rintro (rfl | hp)
      · exact h
      · exact (OrderedSet.mem_erase.mp hp).1

omit [Add M] in
theorem erase_of_find_none (horder : Function.Injective order) {t : OrderedMap order M} {i : ι}
    (h : find t i = none) (b : M) : OrderedSet.erase t (i, b) = t := by
  apply OrderedSet.ext_mem
  rintro ⟨j, c⟩
  rw [OrderedSet.mem_erase, and_iff_left_iff_imp]
  intro hmem heq
  obtain rfl := horder heq
  rw [find_eq_some_iff.mpr hmem] at h
  cases h

variable [Zero M]

/-- `t[i] += m`, where a new key starts from zero. -/
def tally (t : OrderedMap order M) (i : ι) (m : M) : OrderedMap order M :=
  assign t i ((find t i).getD 0 + m)

theorem mem_keys_tally (horder : Function.Injective order) {t : OrderedMap order M} {i j : ι} {m : M} :
    j ∈ (tally t i m).elems.map Prod.fst ↔ j = i ∨ j ∈ t.elems.map Prod.fst := by
  have hkeys (u : OrderedMap order M) : j ∈ u.elems.map Prod.fst ↔ ∃ c, find u j = some c := by
    constructor
    · intro hmem
      obtain ⟨⟨_, c⟩, hc, rfl⟩ := List.mem_map.mp hmem
      exact ⟨c, find_eq_some_iff.mpr hc⟩
    · rintro ⟨c, hc⟩
      exact List.mem_map_of_mem (f := Prod.fst) (find_eq_some_iff.mp hc)
  rw [hkeys, hkeys, tally, find_assign horder]
  by_cases hij : j = i <;> simp [hij]

theorem sum_tally (horder : Function.Injective order) {μ : M → N}
    (hμ : ∀ a b, μ (a + b) = μ a + μ b) (hzero : μ 0 = 0) (t : OrderedMap order M) (i : ι) (m : M) :
    ((tally t i m).elems.map fun p => μ p.2).sum = (t.elems.map fun p => μ p.2).sum + μ m := by
  have hnew := elems_perm_of_find (m := (find t i).getD 0 + m) (t := tally t i m)
    (by rw [tally, find_assign horder, if_pos rfl]) 0
  have herase : OrderedSet.erase (tally t i m) (i, 0) = OrderedSet.erase t (i, 0) := by
    apply OrderedSet.ext_mem
    intro p
    rw [OrderedSet.mem_erase, OrderedSet.mem_erase, tally, mem_assign horder]
    constructor
    · rintro ⟨⟨hp, -⟩ | rfl, hne⟩
      · exact ⟨hp, hne⟩
      · exact absurd rfl hne
    · rintro ⟨hp, hne⟩
      exact ⟨.inl ⟨hp, fun heq => hne (congrArg order heq)⟩, hne⟩
  rw [(hnew.map _).sum_eq, herase, List.map_cons, List.sum_cons, hμ]
  cases hfind : find t i with
  | none =>
      rw [erase_of_find_none horder hfind, Option.getD_none, hzero, zero_add, add_comm]
  | some c =>
      rw [((elems_perm_of_find hfind 0).map fun p : ι × M => μ p.2).sum_eq, Option.getD_some,
        List.map_cons, List.sum_cons, add_right_comm]

end OrderedMap

end XrCoin.Data

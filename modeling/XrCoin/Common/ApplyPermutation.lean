import Mathlib

/-!
`apply_permutation`: the cycles of a permutation are followed and resolved by swaps.

The permutation is overwritten while it is followed. What is left to do is at every moment a
permutation again: the one read from the list, with the last step of the cycle that is being
followed, which leads back to its first place, led to the current place instead.
-/

namespace XrCoin.Common

/-! ### The code -/

section

variable {σ : Type} (swap : ℕ → ℕ → σ → σ)

/-- The `while` loop: the last place of the cycle, the permutation and what was swapped. -/
def followCycle (i : ℕ) : ℕ → ℕ → List ℕ → σ → Option (ℕ × List ℕ × σ)
  | 0, _, _, _ => none
  | fuel + 1, current, permutation, s => do
      let next ← permutation[current]?
      if i ≠ next then
        followCycle i fuel next (permutation.set current current) (swap current next s)
      else some (current, permutation, s)

def resolveCycle (fuel : ℕ) (q : List ℕ × σ) (i : ℕ) : Option (List ℕ × σ) := do
  let r ← followCycle swap i fuel i q.1 q.2
  some (r.2.1.set r.1 r.1, r.2.2)

/-- What is thrown, if anything, and the state after it. -/
def applyPermutation (fuel : ℕ) (permutation : List ℕ) (s : σ) :
    Option (Except String Unit × σ) :=
  if ∃ n ∈ List.range permutation.length, n ∉ permutation then some (.error "Bad permutation", s)
  else do
    let r ← (List.range permutation.length).foldlM (resolveCycle swap fuel) (permutation, s)
    some (.ok (), r.2)

end

def swapElements {α : Type} (i₀ i₁ : ℕ) (v : List α) : List α :=
  match v[i₀]?, v[i₁]? with
  | some a₀, some a₁ => (v.set i₀ a₁).set i₁ a₀
  | _, _ => v

def applyPermutationTo {α : Type} (fuel : ℕ) (permutation : List ℕ) (v : List α) :
    Option (Except String Unit × List α) :=
  if permutation.length ≠ v.length then some (.error "Mismatched vector sizes", v)
  else applyPermutation swapElements fuel permutation v

def swapInAll {κ : Type} {α : κ → Type} (i₀ i₁ : ℕ) (vs : ∀ k, List (α k)) : ∀ k, List (α k) :=
  fun k => swapElements i₀ i₁ (vs k)

/-! ### The list as a permutation -/

variable {n : ℕ}

def Lists (p : List ℕ) (π : Equiv.Perm (Fin n)) : Prop :=
  p.length = n ∧ ∀ j : Fin n, p[(j : ℕ)]? = some (π j : ℕ)

theorem perm_range_iff {p : List ℕ} :
    p.Perm (List.range p.length) ↔ ¬∃ n ∈ List.range p.length, n ∉ p := by
  constructor
  · rintro h ⟨n, hn, hnot⟩
    exact hnot (h.mem_iff.mpr hn)
  · intro hgood
    have hall : List.range p.length ⊆ p := by
      intro n hn
      by_contra hnot
      exact hgood ⟨n, hn, hnot⟩
    -- as many places as there are, and all of them
    have hsub : (List.range p.length).Subperm p := List.nodup_range.subperm hall
    exact (hsub.perm_of_length_le (by rw [List.length_range])).symm

theorem exists_lists {p : List ℕ} (h : p.Perm (List.range p.length)) :
    ∃ π : Equiv.Perm (Fin p.length), Lists p π := by
  have hlt : ∀ j : Fin p.length, p[j] < p.length := fun j =>
    List.mem_range.mp (h.mem_iff.mp (List.getElem_mem j.isLt))
  have hnodup : p.Nodup := h.nodup_iff.mpr List.nodup_range
  have hinj : Function.Injective fun j : Fin p.length => (⟨p[j], hlt j⟩ : Fin p.length) := by
    intro j j' heq
    have hval : p[j] = p[j'] := congrArg Fin.val heq
    exact Fin.ext (hnodup.getElem_inj_iff.mp hval)
  refine ⟨Equiv.ofBijective _ (Finite.injective_iff_bijective.mp hinj), rfl, fun j => ?_⟩
  rw [List.getElem?_eq_getElem j.isLt]
  rfl

/-! ### One cycle -/

/-- The list while a cycle is followed: who ought to read the current place still points to the
first one. -/
structure Following (π : Equiv.Perm (Fin n)) (i current : Fin n) (p : List ℕ) : Prop where
  length : p.length = n
  get : ∀ j : Fin n, p[(j : ℕ)]? = some ((if π j = current then i else π j : Fin n) : ℕ)
  first : current ≠ i → π i = i

theorem Following.start {π : Equiv.Perm (Fin n)} {p : List ℕ} (h : Lists p π) (i : Fin n) :
    Following π i i p := by
  refine ⟨h.1, fun j => ?_, fun hne => absurd rfl hne⟩
  rw [h.2]
  split_ifs with hj
  · rw [hj]
  · rfl

/-- The loop ends at a place that is left where it is. -/
theorem Following.next_eq {π : Equiv.Perm (Fin n)} {i current : Fin n} {p : List ℕ}
    (h : Following π i current p) : p[(current : ℕ)]? = some (i : ℕ) ↔ π current = current := by
  rw [h.get, Option.some_inj, Fin.val_inj]
  split_ifs with hfix
  · exact iff_of_true rfl hfix
  · refine iff_of_false (fun heq => ?_) hfix
    -- the first place is only read by itself
    by_cases hi : current = i
    · exact hfix (heq.trans hi.symm)
    · exact hi (π.injective (heq.trans (h.first hi).symm))

theorem Following.next {π : Equiv.Perm (Fin n)} {i current : Fin n} {p : List ℕ}
    (h : Following π i current p) (hnext : π current ≠ current) :
    Following (Equiv.swap current (π current) * π) i (π current) (p.set current current) := by
  have hi : π current ≠ i := by
    intro heq
    by_cases hcurrent : current = i
    · exact hnext (heq.trans hcurrent.symm)
    · exact hcurrent (π.injective (heq.trans (h.first hcurrent).symm))
  refine ⟨by rw [List.length_set, h.length], fun j => ?_, fun _ => ?_⟩
  · rw [Equiv.Perm.mul_apply, List.getElem?_set]
    by_cases hj : current = j
    · -- the place is done
      subst hj
      rw [Equiv.swap_apply_right, if_pos rfl, if_pos (by rw [h.length]; exact current.isLt),
        if_neg (Ne.symm hnext)]
    · rw [if_neg (fun heq => hj (Fin.ext heq)), h.get]
      have hne : π j ≠ π current := fun heq => hj (π.injective heq).symm
      by_cases hread : π j = current
      · rw [if_pos hread, hread, Equiv.swap_apply_left, if_pos rfl]
      · rw [if_neg hread, Equiv.swap_apply_of_ne_of_ne hread hne, if_neg hne]
  · rw [Equiv.Perm.mul_apply]
    by_cases hcurrent : current = i
    · rw [hcurrent, Equiv.swap_apply_right]
    · rw [h.first hcurrent, Equiv.swap_apply_of_ne_of_ne (Ne.symm hcurrent) (Ne.symm hi)]

theorem Following.finish {π : Equiv.Perm (Fin n)} {i current : Fin n} {p : List ℕ}
    (h : Following π i current p) (hend : π current = current) :
    Lists (p.set current current) π ∧ π i = i := by
  refine ⟨⟨by rw [List.length_set, h.length], fun j => ?_⟩, ?_⟩
  · rw [List.getElem?_set]
    by_cases hj : current = j
    · subst hj
      rw [if_pos rfl, if_pos (by rw [h.length]; exact current.isLt), hend]
    · have hne : π j ≠ current := fun heq => hj (π.injective (heq.trans hend.symm)).symm
      rw [if_neg (fun heq => hj (Fin.ext heq)), h.get, if_neg hne]
  · by_cases hcurrent : current = i
    · rw [← hcurrent, hend]
    · exact h.first hcurrent

/-- A place that is left where it is stays so. -/
theorem swap_mul_apply_of_fixed {π : Equiv.Perm (Fin n)} {current j : Fin n}
    (hnext : π current ≠ current) (hj : π j = j) :
    (Equiv.swap current (π current) * π) j = j := by
  have hne : j ≠ current := fun heq => hnext (heq ▸ hj)
  have hne' : j ≠ π current := fun heq => hne (π.injective (hj.trans heq))
  rw [Equiv.Perm.mul_apply, hj, Equiv.swap_apply_of_ne_of_ne hne hne']

/-! ### All cycles -/

section

variable {σ : Type} {swap : ℕ → ℕ → σ → σ} {P : Equiv.Perm (Fin n) → σ → Prop}

/-- A swap of what is there makes up for the same swap of what is left to do. -/
def Compensates (swap : ℕ → ℕ → σ → σ) (P : Equiv.Perm (Fin n) → σ → Prop) : Prop :=
  ∀ π s, ∀ a b : Fin n, P π s → P (Equiv.swap a b * π) (swap a b s)

theorem followCycle_spec (hswap : Compensates swap P) {π : Equiv.Perm (Fin n)} {i current : Fin n}
    {p : List ℕ} {s : σ} {fuel : ℕ} (h : Following π i current p) (hs : P π s)
    (hfuel : π.support.card < fuel) :
    ∃ r π', followCycle swap i fuel current p s = some r ∧ Lists (r.2.1.set r.1 r.1) π' ∧
      P π' r.2.2 ∧ π' i = i ∧ ∀ j, π j = j → π' j = j := by
  induction fuel generalizing π current p s with
  | zero => exact absurd hfuel (Nat.not_lt_zero _)
  | succ fuel ih =>
      by_cases hend : π current = current
      · have hget := h.next_eq.mpr hend
        refine ⟨(current, p, s), π, ?_, (h.finish hend).1, hs, (h.finish hend).2, fun _ hj => hj⟩
        simp [followCycle, hget]
      · have hget : p[(current : ℕ)]? = some (π current : ℕ) := by
          rw [h.get, if_neg hend]
        have hne : (i : ℕ) ≠ π current := by
          intro heq
          exact hend (h.next_eq.mp (heq ▸ hget))
        -- each step leaves one place more where it is
        have hless := Equiv.Perm.card_support_swap_mul hend
        obtain ⟨r, π', hr, hlists, hr', hi, hfixed⟩ :=
          ih (h.next hend) (hswap π s current (π current) hs) (by omega)
        refine ⟨r, π', ?_, hlists, hr', hi, fun j hj => ?_⟩
        · rw [← hr]
          simp [followCycle, hget, hne]
        · exact hfixed j (swap_mul_apply_of_fixed hend hj)

theorem resolveCycle_spec (hswap : Compensates swap P) {π : Equiv.Perm (Fin n)} {i : Fin n}
    {q : List ℕ × σ} {fuel : ℕ} (hq : Lists q.1 π) (hs : P π q.2) (hfuel : n < fuel) :
    ∃ r π', resolveCycle swap fuel q i = some r ∧ Lists r.1 π' ∧ P π' r.2 ∧ π' i = i ∧
      ∀ j, π j = j → π' j = j := by
  have hcard : π.support.card < fuel := by
    have hle := π.support.card_le_univ
    rw [Fintype.card_fin] at hle
    omega
  obtain ⟨r, π', hr, hlists, hr', hi, hfixed⟩ :=
    followCycle_spec hswap (Following.start hq i) hs hcard
  refine ⟨(r.2.1.set r.1 r.1, r.2.2), π', ?_, hlists, hr', hi, hfixed⟩
  rw [resolveCycle, hr]
  rfl

/-- After as many places the first ones are where they belong. -/
theorem resolveCycles_spec (hswap : Compensates swap P) {π : Equiv.Perm (Fin n)}
    {p : List ℕ} {s : σ} {fuel : ℕ} (hp : Lists p π) (hs : P π s) (hfuel : n < fuel) :
    ∀ m ≤ n, ∃ r π', (List.range m).foldlM (resolveCycle swap fuel) (p, s) = some r ∧
      Lists r.1 π' ∧ P π' r.2 ∧ ∀ j : Fin n, (j : ℕ) < m → π' j = j := by
  intro m
  induction m with
  | zero =>
      intro _
      exact ⟨(p, s), π, rfl, hp, hs, fun j hj => absurd hj (Nat.not_lt_zero _)⟩
  | succ m ih =>
      intro hm
      obtain ⟨r, π', hr, hlists, hr', hdone⟩ := ih (Nat.le_of_succ_le hm)
      obtain ⟨r₂, π₂, hr₂, hlists₂, hs₂, hi, hfixed⟩ :=
        @resolveCycle_spec n σ swap P hswap π' ⟨m, hm⟩ r fuel hlists hr' hfuel
      refine ⟨r₂, π₂, ?_, hlists₂, hs₂, fun j hj => ?_⟩
      · rw [List.range_succ, List.foldlM_append, hr]
        simpa using hr₂
      · rcases Nat.lt_succ_iff_lt_or_eq.mp hj with hlt | heq
        · exact hfixed j (hdone j hlt)
        · rwa [show j = ⟨m, hm⟩ from Fin.ext heq]

/-- In the end there is nothing left to do. -/
theorem applyPermutation_spec (hswap : Compensates swap P) {π : Equiv.Perm (Fin n)} {p : List ℕ}
    {s : σ} {fuel : ℕ} (hperm : p.Perm (List.range p.length)) (hp : Lists p π) (hs : P π s)
    (hfuel : n < fuel) : ∃ s', applyPermutation swap fuel p s = some (.ok (), s') ∧ P 1 s' := by
  obtain ⟨r, π', hr, -, hs', hdone⟩ := resolveCycles_spec hswap hp hs hfuel n (Nat.le_refl n)
  have hone : π' = 1 := by
    ext j
    rw [hdone j j.isLt, Equiv.Perm.one_apply]
  refine ⟨r.2, ?_, hone ▸ hs'⟩
  rw [applyPermutation, if_neg (perm_range_iff.mp hperm), hp.1, hr]
  rfl

theorem applyPermutation_of_not_perm {p : List ℕ} (h : ¬p.Perm (List.range p.length)) (fuel : ℕ)
    (s : σ) : applyPermutation swap fuel p s = some (.error "Bad permutation", s) := by
  rw [perm_range_iff, not_not] at h
  rw [applyPermutation, if_pos h]

end

/-! ### Vectors -/

/-- Read through what is left to do, the vector is the permuted one. -/
def Leads {α : Type} (π₀ : Equiv.Perm (Fin n)) (v₀ : List α) (π : Equiv.Perm (Fin n))
    (v : List α) : Prop :=
  v.length = n ∧ ∀ j : Fin n, v[(π j : ℕ)]? = v₀[(π₀ j : ℕ)]?

theorem swapElements_getElem? {α : Type} {v : List α} (hv : v.length = n) (a b j : Fin n) :
    (swapElements a b v)[(Equiv.swap a b j : ℕ)]? = v[(j : ℕ)]? := by
  subst hv
  rw [swapElements, List.getElem?_eq_getElem a.isLt, List.getElem?_eq_getElem b.isLt]
  simp only [List.getElem?_set, List.length_set]
  rw [Equiv.swap_apply_def]
  split_ifs <;> simp_all [Fin.ext_iff]

theorem length_swapElements {α : Type} (a b : ℕ) (v : List α) :
    (swapElements a b v).length = v.length := by
  rw [swapElements]
  split
  · rw [List.length_set, List.length_set]
  · rfl

theorem Leads.swap {α : Type} {π₀ π : Equiv.Perm (Fin n)} {v₀ v : List α} (h : Leads π₀ v₀ π v)
    (a b : Fin n) : Leads π₀ v₀ (Equiv.swap a b * π) (swapElements a b v) := by
  refine ⟨by rw [length_swapElements, h.1], fun j => ?_⟩
  rw [Equiv.Perm.mul_apply, swapElements_getElem? h.1, h.2]

/-- `v` is what `v₀` is when its elements are taken in the order of the list. -/
def PermutedBy {α : Type} (p : List ℕ) (v₀ v : List α) : Prop :=
  v.length = p.length ∧ ∀ i, (hi : i < p.length) → v[i]? = v₀[p[i]]?

theorem Leads.permutedBy {α : Type} {π : Equiv.Perm (Fin n)} {p : List ℕ} {v₀ v : List α}
    (hp : Lists p π) (h : Leads π v₀ 1 v) : PermutedBy p v₀ v := by
  refine ⟨h.1.trans hp.1.symm, fun i hi => ?_⟩
  have hget := hp.2 ⟨i, hp.1 ▸ hi⟩
  rw [List.getElem?_eq_getElem hi, Option.some_inj] at hget
  rw [hget]
  exact h.2 ⟨i, hp.1 ▸ hi⟩

theorem applyPermutationTo_spec {α : Type} {p : List ℕ} {v : List α} {fuel : ℕ}
    (hperm : p.Perm (List.range p.length)) (hlength : v.length = p.length)
    (hfuel : p.length < fuel) :
    ∃ v', applyPermutationTo fuel p v = some (.ok (), v') ∧ PermutedBy p v v' := by
  obtain ⟨π, hp⟩ := exists_lists hperm
  have hswap : Compensates swapElements (Leads π v) := fun _ _ a b h => h.swap a b
  obtain ⟨v', hv', hleads⟩ :=
    applyPermutation_spec hswap hperm hp ⟨hlength, fun _ => rfl⟩ hfuel
  refine ⟨v', ?_, hleads.permutedBy hp⟩
  rw [applyPermutationTo, if_neg (not_not.mpr hlength.symm), hv']

theorem applyPermutation_swapInAll {κ : Type} {α : κ → Type} {p : List ℕ}
    {vs : ∀ k, List (α k)} {fuel : ℕ} (hperm : p.Perm (List.range p.length))
    (hlength : ∀ k, (vs k).length = p.length) (hfuel : p.length < fuel) :
    ∃ vs' : ∀ k, List (α k), applyPermutation swapInAll fuel p vs = some (.ok (), vs') ∧
      ∀ k, PermutedBy p (vs k) (vs' k) := by
  obtain ⟨π, hp⟩ := exists_lists hperm
  have hswap : Compensates swapInAll
      fun π' (vs' : ∀ k, List (α k)) => ∀ k, Leads π (vs k) π' (vs' k) :=
    fun _ _ a b h k => (h k).swap a b
  obtain ⟨vs', hvs', hleads⟩ :=
    applyPermutation_spec hswap hperm hp (fun k => ⟨hlength k, fun _ => rfl⟩) hfuel
  exact ⟨vs', hvs', fun k => (hleads k).permutedBy hp⟩

/-- A permutation is applied to a vector, and to several vectors alike. For any other list
nothing is swapped. -/
theorem applyPermutation_exact (p : List ℕ) :
    (p.Perm (List.range p.length) → ∀ fuel, p.length < fuel →
      (∀ (α : Type) (v : List α), v.length = p.length →
        ∃ v', applyPermutationTo fuel p v = some (.ok (), v') ∧ PermutedBy p v v') ∧
      ∀ (κ : Type) (α : κ → Type) (vs : ∀ k, List (α k)), (∀ k, (vs k).length = p.length) →
        ∃ vs' : ∀ k, List (α k), applyPermutation swapInAll fuel p vs = some (.ok (), vs') ∧
          ∀ k, PermutedBy p (vs k) (vs' k)) ∧
    (¬p.Perm (List.range p.length) → ∀ fuel,
      (∀ (α : Type) (v : List α), v.length = p.length →
        applyPermutationTo fuel p v = some (.error "Bad permutation", v)) ∧
      ∀ (κ : Type) (α : κ → Type) (vs : ∀ k, List (α k)),
        applyPermutation swapInAll fuel p vs = some (.error "Bad permutation", vs)) := by
  constructor
  · intro hperm fuel hfuel
    constructor
    · intro α v hlength
      exact applyPermutationTo_spec hperm hlength hfuel
    · intro κ α vs hlength
      exact applyPermutation_swapInAll hperm hlength hfuel
  · intro hnot fuel
    constructor
    · intro α v hlength
      rw [applyPermutationTo, if_neg (not_not.mpr hlength.symm)]
      exact applyPermutation_of_not_perm hnot fuel v
    · intro κ α vs
      exact applyPermutation_of_not_perm hnot fuel vs

theorem applyPermutation_exact_two :
    [1, 0].Perm (List.range [1, 0].length) ∧
      ∃ v', applyPermutationTo 3 [1, 0] [true, false] = some (.ok (), v') ∧
        PermutedBy [1, 0] [true, false] v' :=
  ⟨by decide, ((applyPermutation_exact [1, 0]).1 (by decide) 3 (by decide)).1 Bool
    [true, false] rfl⟩

example : applyPermutationTo 8 [3, 5, 6, 1, 2, 4, 0] [8, 4, 6, 1, 7, 2, 4] =
    some (.ok (), [1, 2, 4, 4, 6, 7, 8]) := by
  rfl

end XrCoin.Common

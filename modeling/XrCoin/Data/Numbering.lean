import Mathlib

/-!
A map from keys to the numbers of the elements that have them.

The elements are put in one after the other, over what the map held. Of two with one key the later
stays.
-/

namespace XrCoin.Data

variable {α κ : Type}

/-- The last element with a key. -/
def IsLast (key : α → κ) (as : List α) (k : κ) (i : ℕ) : Prop :=
  (as[i]?).map key = some k ∧ ∀ j > i, (as[j]?).map key ≠ some k

variable {key : α → κ} {as : List α}

theorem isLast_cons_succ {a : α} {k : κ} {i : ℕ} :
    IsLast key (a :: as) k (i + 1) ↔ IsLast key as k i := by
  constructor
  · rintro ⟨hk, hlast⟩
    exact ⟨hk, fun j hj => hlast (j + 1) (by omega)⟩
  · rintro ⟨hk, hlast⟩
    refine ⟨hk, fun j hj => ?_⟩
    cases j with
    | zero => omega
    | succ j => exact hlast j (by omega)

theorem isLast_cons_zero {a : α} {k : κ} :
    IsLast key (a :: as) k 0 ↔ key a = k ∧ k ∉ as.map key := by
  constructor
  · rintro ⟨hk, hlast⟩
    refine ⟨Option.some.inj hk, fun hmem => ?_⟩
    obtain ⟨j, hj⟩ := List.mem_iff_getElem?.mp hmem
    rw [List.getElem?_map] at hj
    exact hlast (j + 1) (by omega) hj
  · rintro ⟨rfl, hmem⟩
    refine ⟨rfl, fun j hj hk => hmem ?_⟩
    cases j with
    | zero => omega
    | succ j =>
        obtain ⟨b, hb, hkey⟩ := Option.map_eq_some_iff.mp hk
        exact List.mem_map.mpr ⟨b, List.mem_of_getElem? hb, hkey⟩

theorem exists_isLast {k : κ} (h : k ∈ as.map key) : ∃ i, IsLast key as k i := by
  induction as with
  | nil => cases h
  | cons a as ih =>
      by_cases hmem : k ∈ as.map key
      · obtain ⟨i, hi⟩ := ih hmem
        exact ⟨i + 1, isLast_cons_succ.mpr hi⟩
      · have hk : k = key a := (List.mem_cons.mp h).resolve_right hmem
        exact ⟨0, isLast_cons_zero.mpr ⟨hk.symm, hmem⟩⟩

theorem isLast_of_nodup {k : κ} {i : ℕ} (hnodup : (as.map key).Nodup)
    (hk : (as[i]?).map key = some k) : IsLast key as k i := by
  refine ⟨hk, fun j hj hkj => ?_⟩
  rw [← List.getElem?_map] at hk hkj
  have heq :=
    (List.getElem?_inj (List.getElem?_eq_some_iff.mp hk).1 hnodup).mp (hk.trans hkj.symm)
  omega

variable [DecidableEq κ]

def numberFrom (key : α → κ) : ℕ → List α → (κ → Option ℕ) → κ → Option ℕ
  | _, [], m => m
  | n, a :: as, m => numberFrom key (n + 1) as (Function.update m (key a) (some n))

/-- A key without an element keeps what it had. -/
theorem numberFrom_of_notMem {n : ℕ} {m : κ → Option ℕ} {k : κ} (h : k ∉ as.map key) :
    numberFrom key n as m k = m k := by
  induction as generalizing n m with
  | nil => rfl
  | cons a as ih =>
      rw [List.map_cons, List.mem_cons, not_or] at h
      rw [numberFrom, ih h.2, Function.update_of_ne h.1]

theorem numberFrom_of_isLast {n : ℕ} {m : κ → Option ℕ} {k : κ} {i : ℕ}
    (h : IsLast key as k i) : numberFrom key n as m k = some (n + i) := by
  induction as generalizing n m i with
  | nil => cases h.1
  | cons a as ih =>
      rw [numberFrom]
      cases i with
      | zero =>
          obtain ⟨rfl, hmem⟩ := isLast_cons_zero.mp h
          rw [numberFrom_of_notMem hmem, Function.update_self, Nat.add_zero]
      | succ i => rw [ih (isLast_cons_succ.mp h), Nat.add_right_comm, Nat.add_assoc]

/-- The map is as before exactly if every key had the number of its last element. -/
theorem numberFrom_eq_self_iff {m : κ → Option ℕ} :
    numberFrom key 0 as m = m ↔ ∀ k i, IsLast key as k i → m k = some i := by
  constructor
  · intro h k i hlast
    rw [← congrFun h k, numberFrom_of_isLast hlast, Nat.zero_add]
  · intro h
    ext1 k
    by_cases hmem : k ∈ as.map key
    · obtain ⟨i, hi⟩ := exists_isLast hmem
      rw [numberFrom_of_isLast hi, Nat.zero_add, h k i hi]
    · exact numberFrom_of_notMem hmem

/-- The map has exactly the elements, each with its own number. -/
def Numbers (key : α → κ) (as : List α) (m : κ → Option ℕ) : Prop :=
  ∀ k i, m k = some i ↔ (as[i]?).map key = some k

/-- The map has exactly the elements if no two have one key, and it had no other key before. -/
theorem numbers_numberFrom_iff {m : κ → Option ℕ} :
    Numbers key as (numberFrom key 0 as m) ↔
      (as.map key).Nodup ∧ ∀ k, m k ≠ none → k ∈ as.map key := by
  constructor
  · intro h
    constructor
    · rw [List.nodup_iff_getElem?_ne_getElem?]
      intro i j hij hj heq
      rw [List.length_map] at hj
      have hkj : ((as[j]?).map key) = some (key as[j]) := by rw [List.getElem?_eq_getElem hj]; rfl
      rw [List.getElem?_map, List.getElem?_map, hkj] at heq
      -- both numbers are in the map for one key
      have hi := (h _ i).mpr heq
      rw [(h _ j).mpr hkj] at hi
      exact hij.ne' (Option.some.inj hi)
    · intro k hk
      by_contra hmem
      obtain ⟨i, hi⟩ := Option.ne_none_iff_exists'.mp hk
      have hstays := (h k i).mp ((numberFrom_of_notMem hmem).trans hi)
      obtain ⟨a, ha, hkey⟩ := Option.map_eq_some_iff.mp hstays
      exact hmem (List.mem_map.mpr ⟨a, List.mem_of_getElem? ha, hkey⟩)
  · rintro ⟨hnodup, hold⟩ k i
    constructor
    · intro hki
      have hmem : k ∈ as.map key := by
        by_contra hmem
        rw [numberFrom_of_notMem hmem] at hki
        exact hmem (hold k (by rw [hki]; exact Option.some_ne_none i))
      obtain ⟨j, hj⟩ := exists_isLast hmem
      rw [numberFrom_of_isLast hj, Nat.zero_add] at hki
      exact Option.some.inj hki ▸ hj.1
    · intro hki
      rw [numberFrom_of_isLast (isLast_of_nodup hnodup hki), Nat.zero_add]

end XrCoin.Data

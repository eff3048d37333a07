import Mathlib

/-!
The tree hash over an arbitrary type of nodes and an arbitrary hash of two nodes.

The number of leaves need not be a power of two: the first round keeps a front
part of the leaves and pairs only the others, and from then on every round
halves the row. The pairs that are hashed on the way are collected, so that the
root of a list of known length determines the list as soon as the node hash is
injective on those pairs.
-/

namespace XrCoin.Crypto

def treeHashCntLoop : ℕ → ℕ → ℕ → ℕ
  | 0, pow, _ => pow
  | fuel + 1, pow, count => if pow < count then treeHashCntLoop fuel (2 * pow) count else pow

def treeHashCnt (count : ℕ) : ℕ := treeHashCntLoop count 2 count / 2

section

variable {α : Type}

def pairsOf : List α → List (α × α)
  | [] => []
  | [_] => []
  | a :: b :: rest => (a, b) :: pairsOf rest

variable (h : α × α → α)

def treeReduce : ℕ → List α → Option α
  | _, [a, b] => some (h (a, b))
  | 0, _ => none
  | fuel + 1, ints => treeReduce fuel ((pairsOf ints).map h)

/-- The row after the first round: `2 * cnt - count` leaves are kept. -/
def treeFirstRow (hashes : List α) : List α :=
  let keep := 2 * treeHashCnt hashes.length - hashes.length
  hashes.take keep ++ (pairsOf (hashes.drop keep)).map h

def treeHash : List α → Option α
  | [] => none
  | [a] => some a
  | [a, b] => some (h (a, b))
  | hashes => treeReduce h (treeHashCnt hashes.length) (treeFirstRow h hashes)

def reducePairs : ℕ → List α → List (α × α)
  | _, [a, b] => [(a, b)]
  | 0, _ => []
  | fuel + 1, ints => pairsOf ints ++ reducePairs fuel ((pairsOf ints).map h)

def treePairs : List α → List (α × α)
  | [] => []
  | [_] => []
  | [a, b] => [(a, b)]
  | hashes =>
      pairsOf (hashes.drop (2 * treeHashCnt hashes.length - hashes.length)) ++
        reducePairs h (treeHashCnt hashes.length) (treeFirstRow h hashes)

end

/-! ### The count -/

theorem treeHashCntLoop_spec {fuel pow count : ℕ} (hpow : 0 < pow) (hfuel : count ≤ fuel + pow)
    (htwo : ∃ k, pow = 2 ^ (k + 1)) (hlow : pow < 2 * count) :
    count ≤ treeHashCntLoop fuel pow count ∧ treeHashCntLoop fuel pow count < 2 * count ∧
      ∃ k, treeHashCntLoop fuel pow count = 2 ^ (k + 1) := by
  induction fuel generalizing pow with
  | zero => exact ⟨by rw [treeHashCntLoop]; omega, hlow, htwo⟩
  | succ fuel ih =>
      rw [treeHashCntLoop]
      split
      · obtain ⟨k, rfl⟩ := htwo
        refine ih (by omega) (by omega) ⟨k + 1, by ring⟩ (by omega)
      · exact ⟨by omega, hlow, htwo⟩

/-- For three leaves and more, the count is a power of two, less than the number
of leaves and at least half of it. -/
theorem treeHashCnt_spec {count : ℕ} (hcount : 3 ≤ count) :
    count ≤ 2 * treeHashCnt count ∧ treeHashCnt count < count ∧
      ∃ k, treeHashCnt count = 2 ^ k := by
  obtain ⟨hle, hlt, k, hk⟩ : count ≤ treeHashCntLoop count 2 count ∧
      treeHashCntLoop count 2 count < 2 * count ∧
      ∃ k, treeHashCntLoop count 2 count = 2 ^ (k + 1) :=
    treeHashCntLoop_spec (by omega) (by omega) ⟨0, rfl⟩ (by omega)
  have hcnt : treeHashCnt count = 2 ^ k := by
    rw [treeHashCnt, hk, Nat.pow_succ]
    omega
  have hdouble : treeHashCntLoop count 2 count = 2 * treeHashCnt count := by
    rw [hcnt, hk, Nat.pow_succ]
    omega
  exact ⟨by omega, by omega, k, hcnt⟩

/-! ### Rows -/

section

variable {α : Type}

theorem pairsOf_length (l : List α) : (pairsOf l).length = l.length / 2 := by
  induction l using pairsOf.induct with
  | case1 => simp [pairsOf]
  | case2 a => simp [pairsOf]
  | case3 a b rest ih =>
      rw [pairsOf, List.length_cons, ih, List.length_cons, List.length_cons]
      omega

theorem pairsOf_inj {l l' : List α} (heven : l.length % 2 = 0) (hlen : l.length = l'.length)
    (h : pairsOf l = pairsOf l') : l = l' := by
  induction l using pairsOf.induct generalizing l' with
  | case1 => exact (List.length_eq_zero_iff.mp hlen.symm).symm
  | case2 a => exact absurd heven (by simp)
  | case3 a b rest ih =>
      match l', hlen, h with
      | c :: d :: rest', hlen, h =>
          rw [pairsOf, pairsOf, List.cons.injEq, Prod.mk.injEq] at h
          obtain ⟨⟨rfl, rfl⟩, htail⟩ := h
          simp only [List.length_cons] at heven hlen
          rw [ih (by omega) (by omega) htail]

variable {h : α × α → α}

/-- Rows that are hashed to the same row are the same. -/
theorem map_pairsOf_inj {S : Set (α × α)} (hinj : Set.InjOn h S) {l l' : List α}
    (heven : l.length % 2 = 0) (hlen : l.length = l'.length)
    (hmem : ∀ p ∈ pairsOf l, p ∈ S) (hmem' : ∀ p ∈ pairsOf l', p ∈ S)
    (heq : (pairsOf l).map h = (pairsOf l').map h) : l = l' := by
  apply pairsOf_inj heven hlen
  revert hmem hmem' heq
  generalize pairsOf l = ps
  generalize pairsOf l' = qs
  intro hmem hmem' heq
  induction ps generalizing qs with
  | nil =>
      cases qs with
      | nil => rfl
      | cons q qs => exact absurd heq (by simp)
  | cons p ps ih =>
      cases qs with
      | nil => exact absurd heq (by simp)
      | cons q qs =>
          rw [List.map_cons, List.map_cons, List.cons.injEq] at heq
          have hpq : p = q := hinj (hmem p (by simp)) (hmem' q (by simp)) heq.1
          have htail := ih qs (fun r hr => hmem r (by simp [hr]))
            (fun r hr => hmem' r (by simp [hr])) heq.2
          rw [hpq, htail]

/-- The halving rounds give a root, and rows of the same power of two that have
the same root are the same. -/
theorem treeReduce_inj {S : Set (α × α)} (hinj : Set.InjOn h S) (k : ℕ) :
    ∀ {fuel : ℕ} {l l' : List α} {root : α}, l.length = 2 ^ (k + 1) → l'.length = 2 ^ (k + 1) →
      (∀ p ∈ reducePairs h fuel l, p ∈ S) → (∀ p ∈ reducePairs h fuel l', p ∈ S) →
      treeReduce h fuel l = some root → treeReduce h fuel l' = some root → l = l' := by
  induction k with
  | zero =>
      intro fuel l l' root hlen hlen' hmem hmem' hroot hroot'
      match l, l', hlen, hlen' with
      | [a, b], [c, d], _, _ =>
          have hfuel : ∀ x y : α, treeReduce h fuel [x, y] = some (h (x, y)) := by
            intro x y
            cases fuel <;> rfl
          have hpair : ∀ x y : α, reducePairs h fuel [x, y] = [(x, y)] := by
            intro x y
            cases fuel <;> rfl
          rw [hfuel, Option.some.injEq] at hroot hroot'
          rw [hpair] at hmem hmem'
          have heq : (a, b) = (c, d) :=
            hinj (hmem _ (by simp)) (hmem' _ (by simp)) (hroot.trans hroot'.symm)
          obtain ⟨rfl, rfl⟩ := Prod.mk.inj heq
          rfl
  | succ k ih =>
      intro fuel l l' root hlen hlen' hmem hmem' hroot hroot'
      have hfour : 4 ≤ 2 ^ (k + 1 + 1) := by
        have := Nat.one_le_two_pow (n := k)
        rw [Nat.pow_succ, Nat.pow_succ]
        omega
      have hstep : ∀ {l : List α}, 4 ≤ l.length → ∀ {r : α}, treeReduce h fuel l = some r →
          ∃ fuel', fuel = fuel' + 1 ∧ treeReduce h fuel' ((pairsOf l).map h) = some r ∧
            reducePairs h fuel l = pairsOf l ++ reducePairs h fuel' ((pairsOf l).map h) := by
        intro l hl r hr
        match l, hl, fuel, hr with
        | a :: b :: c :: rest, _, fuel + 1, hr => exact ⟨fuel, rfl, hr, rfl⟩
      obtain ⟨fuel', rfl, hred, hpairs⟩ := hstep (by omega) hroot
      obtain ⟨fuel'', hfuel, hred', hpairs'⟩ := hstep (by omega) hroot'
      obtain rfl : fuel' = fuel'' := by omega
      rw [hpairs] at hmem
      rw [hpairs'] at hmem'
      have hhalf : ∀ {l : List α}, l.length = 2 ^ (k + 1 + 1) →
          ((pairsOf l).map h).length = 2 ^ (k + 1) := by
        intro l hl
        rw [List.length_map, pairsOf_length, hl, Nat.pow_succ]
        omega
      have hrow := ih (hhalf hlen) (hhalf hlen')
        (fun p hp => hmem p (List.mem_append_right _ hp))
        (fun p hp => hmem' p (List.mem_append_right _ hp)) hred hred'
      refine map_pairsOf_inj hinj ?_ (hlen.trans hlen'.symm)
        (fun p hp => hmem p (List.mem_append_left _ hp))
        (fun p hp => hmem' p (List.mem_append_left _ hp)) hrow
      rw [hlen, Nat.pow_succ]
      omega

theorem treeFirstRow_length {l : List α} (hl : 3 ≤ l.length) :
    (treeFirstRow h l).length = treeHashCnt l.length := by
  obtain ⟨hle, hlt, -⟩ := treeHashCnt_spec hl
  rw [treeFirstRow, List.length_append, List.length_take, List.length_map, pairsOf_length,
    List.length_drop]
  omega

/-- **Binding.** The root of a list of known length determines the list, as far
as the node hash is injective on the pairs that were hashed. -/
theorem treeHash_inj {S : Set (α × α)} (hinj : Set.InjOn h S) {l l' : List α} {root : α}
    (hlen : l.length = l'.length) (hmem : ∀ p ∈ treePairs h l, p ∈ S)
    (hmem' : ∀ p ∈ treePairs h l', p ∈ S) (hroot : treeHash h l = some root)
    (hroot' : treeHash h l' = some root) : l = l' := by
  match l, l', hlen with
  | [], [], _ => rfl
  | [a], [b], _ =>
      rw [treeHash, Option.some.injEq] at hroot hroot'
      rw [hroot, hroot']
  | [a, b], [c, d], _ =>
      rw [treeHash, Option.some.injEq] at hroot hroot'
      have heq : (a, b) = (c, d) :=
        hinj (hmem _ (by simp [treePairs])) (hmem' _ (by simp [treePairs]))
          (hroot.trans hroot'.symm)
      obtain ⟨rfl, rfl⟩ := Prod.mk.inj heq
      rfl
  | a :: b :: c :: rest, a' :: b' :: c' :: rest', hlen =>
      generalize hl : a :: b :: c :: rest = l at *
      generalize hl' : a' :: b' :: c' :: rest' = l' at *
      have hthree : 3 ≤ l.length := by rw [← hl]; simp
      have hthree' : 3 ≤ l'.length := by rw [← hl']; simp
      have htree : treeReduce h (treeHashCnt l.length) (treeFirstRow h l) = some root := by
        rw [← hroot, ← hl]
        rfl
      have htree' : treeReduce h (treeHashCnt l'.length) (treeFirstRow h l') = some root := by
        rw [← hroot', ← hl']
        rfl
      have hpairs : treePairs h l =
          pairsOf (l.drop (2 * treeHashCnt l.length - l.length)) ++
            reducePairs h (treeHashCnt l.length) (treeFirstRow h l) := by
        rw [← hl]
        rfl
      have hpairs' : treePairs h l' =
          pairsOf (l'.drop (2 * treeHashCnt l'.length - l'.length)) ++
            reducePairs h (treeHashCnt l'.length) (treeFirstRow h l') := by
        rw [← hl']
        rfl
      rw [hpairs] at hmem
      rw [hpairs', ← hlen] at hmem'
      rw [← hlen] at htree'
      obtain ⟨hle, hlt, k, hk⟩ := treeHashCnt_spec hthree
      have hrow := treeFirstRow_length (h := h) hthree
      have hrow' := treeFirstRow_length (h := h) hthree'
      rw [← hlen] at hrow'
      obtain ⟨j, rfl⟩ : ∃ j, k = j + 1 := by
        cases k with
        | zero =>
            rw [Nat.pow_zero] at hk
            omega
        | succ j => exact ⟨j, rfl⟩
      have hfirst := treeReduce_inj hinj j (hrow.trans hk) (hrow'.trans hk)
        (fun p hp => hmem p (List.mem_append_right _ hp))
        (fun p hp => hmem' p (List.mem_append_right _ hp)) htree htree'
      rw [treeFirstRow, treeFirstRow, ← hlen] at hfirst
      have hkeep : (l.take (2 * treeHashCnt l.length - l.length)).length =
          (l'.take (2 * treeHashCnt l.length - l.length)).length := by
        rw [List.length_take, List.length_take, hlen]
      obtain ⟨htake, hmap⟩ := List.append_inj hfirst hkeep
      have hdrop := map_pairsOf_inj hinj
        (by rw [List.length_drop]; omega)
        (by rw [List.length_drop, List.length_drop, hlen])
        (fun p hp => hmem p (List.mem_append_left _ hp))
        (fun p hp => hmem' p (List.mem_append_left _ hp)) hmap
      rw [← List.take_append_drop (2 * treeHashCnt l.length - l.length) l, htake, hdrop,
        List.take_append_drop]

end

end XrCoin.Crypto

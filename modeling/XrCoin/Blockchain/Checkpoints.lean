import XrCoin.Blockchain.Store
import XrCoin.Blockchain.SwitchForks
import XrCoin.Data.OrderedSet

/-!
The check of a stored chain against checkpoints: `check_against_checkpoints`.

A block that contradicts a checkpoint is to be popped with two blocks below it. The height
to roll back to is an unsigned difference: for a checkpoint at height 0 or 1 it is far above
the chain, and then nothing is popped. For one at height 2 the first block of all is popped,
which throws out of the check.
-/

namespace XrCoin.Blockchain

open Cryptonote Data Forks TxPool

variable {ρ : Type} [DecidableEq ρ] (env : ChainEnv ρ)

/-- `m_points`, a map from heights to hashes. -/
abbrev Checkpoints : Type := OrderedSet fun point : UInt64 × Hash => point.1.toNat

def Checkpoints.checkBlock (points : Checkpoints) (height : UInt64) (h : Hash) : Bool :=
  match points.elems.lookup height with
  | none => true
  | some expected => decide (expected = h)

/-- What the loop does for one checkpoint, and whether it goes on. A rollback without an
answer has thrown. -/
def checkAgainstPoint (points : Checkpoints) (enforce : Bool) (s : ChainState ρ)
    (point : UInt64 × Hash) : Bool × ChainState ρ :=
  match s.chain[point.1.toNat]? with
  | none => (true, s)
  | some e =>
      if points.checkBlock point.1 (env.id e.block) then (true, s)
      else if enforce then
        let rolledBack := rollbackBlockchainSwitching env [] (point.1 - 2).toNat s
        (rolledBack.1.isSome, rolledBack.2)
      else (true, s)

def checkPoints (points : Checkpoints) (enforce : Bool) :
    List (UInt64 × Hash) → ChainState ρ → Bool × ChainState ρ
  | [], s => (true, s)
  | point :: left, s =>
      match checkAgainstPoint env points enforce s point with
      | (true, s) => checkPoints points enforce left s
      | (false, s) => (false, s)

/-- `check_against_checkpoints`: whether it returns. -/
def checkAgainstCheckpoints (points : Checkpoints) (enforce : Bool) (s : ChainState ρ) :
    Bool × ChainState ρ :=
  checkPoints env points enforce points.elems s

/-- The chain has a block at the height of the checkpoint, and not the one it names. -/
def Contradicts (chain : List MainBlock) (point : UInt64 × Hash) : Prop :=
  ∃ e, chain[point.1.toNat]? = some e ∧ env.id e.block ≠ point.2

instance (chain : List MainBlock) (point : UInt64 × Hash) :
    Decidable (Contradicts env chain point) :=
  match h : chain[point.1.toNat]? with
  | none => isFalse (by rintro ⟨e, he, -⟩; rw [h] at he; cases he)
  | some e =>
      decidable_of_iff (env.id e.block ≠ point.2) ⟨fun hne => ⟨e, h, hne⟩, by
        rintro ⟨e', he', hne⟩
        rw [h, Option.some.injEq] at he'
        rw [he']
        exact hne⟩

/-! ### One checkpoint -/

variable {env}

theorem Checkpoints.checkBlock_of_mem {points : Checkpoints} {point : UInt64 × Hash}
    (hpoint : point ∈ points) (h : Hash) : points.checkBlock point.1 h = decide (point.2 = h) := by
  rw [checkBlock]
  cases hlookup : points.elems.lookup point.1 with
  | none =>
      rw [List.lookup_eq_none_iff] at hlookup
      exact absurd (hlookup point hpoint) (by simp)
  | some expected =>
      obtain ⟨before, after, helems, -⟩ := List.lookup_eq_some_iff.mp hlookup
      have hmem : (point.1, expected) ∈ points := by
        rw [OrderedSet.mem_def, helems]
        simp
      rw [← OrderedSet.eq_of_key_eq hmem hpoint rfl]

theorem rollback_nil_chain (env : ChainEnv ρ) (height : ℕ) {s : ChainState ρ}
    (hne : s.chain ≠ []) :
    (rollbackBlockchainSwitching env [] height s).1.isSome = decide (0 < height) ∧
      (rollbackBlockchainSwitching env [] height s).2.chain = s.chain.take height := by
  by_cases hle : height ≤ s.chain.length
  · rcases Nat.eq_zero_or_pos height with rfl | hpos
    · obtain ⟨n, hn⟩ := Nat.exists_eq_succ_of_ne_zero (mt List.length_eq_zero_iff.mp hne)
      rw [rollbackBlockchainSwitching, if_neg (Nat.not_lt_zero _),
        popToHeight_zero hn (Nat.le_of_eq hn.symm)]
      refine ⟨rfl, ?_⟩
      show (popTimes env (n + 1) s).chain = _
      rw [(popTimes_spec env (n + 1) s).2, hn, Nat.sub_self]
    · obtain ⟨again, hchain, hfront⟩ := rollback_chain env [] hpos hle
      obtain ⟨⟨added, hadded⟩, -⟩ := rollbackBlockchainSwitching_eq env [] hpos hle
      rw [List.prefix_nil, List.map_eq_nil_iff] at hfront
      rw [hchain, hfront, List.append_nil, hadded]
      exact ⟨(decide_eq_true hpos).symm, rfl⟩
  · rw [rollbackBlockchainSwitching, if_pos (not_le.mp hle), List.take_of_length_le (by omega)]
    exact ⟨(decide_eq_true (by omega)).symm, rfl⟩

theorem checkAgainstPoint_chain {points : Checkpoints} {point : UInt64 × Hash}
    (hpoint : point ∈ points) (s : ChainState ρ) :
    (checkAgainstPoint env points true s point).1 =
        decide (Contradicts env s.chain point → point.1 ≠ 2) ∧
      (checkAgainstPoint env points true s point).2.chain =
        if Contradicts env s.chain point then s.chain.take (point.1 - 2).toNat else s.chain := by
  have hzero : 0 < (point.1 - 2).toNat ↔ point.1 ≠ 2 := by
    rw [Nat.pos_iff_ne_zero, ne_eq, ne_eq, not_iff_not, ← UInt64.toNat_inj]
    have htwo : (2 : UInt64).toNat = 2 := rfl
    have hlt := point.1.toNat_lt
    rw [UInt64.toNat_sub, htwo]
    omega
  rw [checkAgainstPoint]
  cases hblock : s.chain[point.1.toNat]? with
  | none =>
      have hnot : ¬Contradicts env s.chain point := by
        rintro ⟨e, he, -⟩
        rw [hblock] at he
        cases he
      rw [if_neg hnot]
      exact ⟨(decide_eq_true fun h => absurd h hnot).symm, rfl⟩
  | some e =>
      have hiff : Contradicts env s.chain point ↔ env.id e.block ≠ point.2 := by
        constructor
        · rintro ⟨e', he', hne⟩
          rw [hblock, Option.some.injEq] at he'
          rw [he']
          exact hne
        · exact fun hne => ⟨e, hblock, hne⟩
      simp only [Checkpoints.checkBlock_of_mem hpoint, decide_eq_true_iff, hiff, if_true]
      by_cases heq : point.2 = env.id e.block
      · rw [if_pos heq, if_neg (not_not.mpr heq.symm)]
        exact ⟨(decide_eq_true fun h => absurd heq.symm h).symm, rfl⟩
      · have hne : s.chain ≠ [] := by
          intro hnil
          rw [hnil] at hblock
          exact absurd hblock (by simp)
        obtain ⟨hgoes, hcut⟩ := rollback_nil_chain env (point.1 - 2).toNat hne
        rw [if_neg heq, if_pos (Ne.symm heq)]
        refine ⟨hgoes.trans ?_, hcut⟩
        rw [decide_eq_decide, hzero]
        exact ⟨fun h _ => h, fun h => h (Ne.symm heq)⟩

def cutAtPoints (env : ChainEnv ρ) (points : List (UInt64 × Hash)) (chain : List MainBlock) :
    List MainBlock :=
  points.foldl (fun chain point =>
    if Contradicts env chain point then chain.take (point.1 - 2).toNat else chain) chain

/-! ### All checkpoints -/

omit [DecidableEq ρ] in
/-- Cutting the chain above a checkpoint does not touch it. -/
theorem contradicts_take_iff {chain : List MainBlock} {n : ℕ} {point : UInt64 × Hash} :
    Contradicts env (chain.take n) point ↔ point.1.toNat < n ∧ Contradicts env chain point := by
  simp only [Contradicts, List.getElem?_take]
  split_ifs with hlt
  · simp only [hlt, true_and]
  · simp [hlt]

omit [DecidableEq ρ] in
/-- Checkpoints at height 0 and 1 cut nothing off below heights that no chain has. -/
theorem cutAtPoints_low (env : ChainEnv ρ) {points : List (UInt64 × Hash)}
    (hlow : ∀ point ∈ points, point.1.toNat < 2) (chain : List MainBlock) :
    ∃ n, 2 ^ 64 - 2 ≤ n ∧ cutAtPoints env points chain = chain.take n := by
  induction points generalizing chain with
  | nil => exact ⟨max (2 ^ 64 - 2) chain.length, le_max_left _ _,
      (List.take_of_length_le (le_max_right _ _)).symm⟩
  | cons point points ih =>
      rw [List.forall_mem_cons] at hlow
      rw [cutAtPoints, List.foldl_cons, ← cutAtPoints]
      split_ifs
      · obtain ⟨n, hn, hcut⟩ := ih hlow.2 (chain.take (point.1 - 2).toNat)
        refine ⟨min n (point.1 - 2).toNat, le_min hn ?_, ?_⟩
        · have htwo : (2 : UInt64).toNat = 2 := rfl
          rw [UInt64.toNat_sub, htwo]
          omega
        · rw [hcut, List.take_take]
      · exact ih hlow.2 chain

omit [DecidableEq ρ] in
/-- The first contradicted checkpoint from height 2 on cuts the chain below itself, and the
later ones find no block. -/
theorem cutAtPoints_high (env : ChainEnv ρ) {points : List (UInt64 × Hash)}
    (hsorted : points.Pairwise fun a b => a.1.toNat < b.1.toNat)
    (hhigh : ∀ point ∈ points, 2 ≤ point.1.toNat) (chain : List MainBlock) :
    (cutAtPoints env points chain = chain ∧ ∀ point ∈ points, ¬Contradicts env chain point) ∨
    ∃ first ∈ points, Contradicts env chain first ∧
      (∀ point ∈ points, Contradicts env chain point → first.1.toNat ≤ point.1.toNat) ∧
      cutAtPoints env points chain = chain.take (first.1.toNat - 2) := by
  induction points generalizing chain with
  | nil => exact Or.inl ⟨rfl, fun _ h => absurd h List.not_mem_nil⟩
  | cons point points ih =>
      rw [List.pairwise_cons] at hsorted
      rw [List.forall_mem_cons] at hhigh
      rw [cutAtPoints, List.foldl_cons, ← cutAtPoints]
      split_ifs with hpoint
      · have htarget : (point.1 - 2).toNat = point.1.toNat - 2 := by
          have htwo : (2 : UInt64).toNat = 2 := rfl
          have hlt := point.1.toNat_lt
          rw [UInt64.toNat_sub, htwo]
          omega
        rw [htarget]
        refine Or.inr ⟨point, List.mem_cons_self, hpoint, ?_, ?_⟩
        · intro other hother _
          rcases List.mem_cons.mp hother with rfl | hother
          · exact le_rfl
          · exact (hsorted.1 other hother).le
        · rcases ih hsorted.2 hhigh.2 (chain.take (point.1.toNat - 2)) with
            ⟨hcut, -⟩ | ⟨first, hfirst, hbad, -, -⟩
          · exact hcut
          · have hlt := (contradicts_take_iff.mp hbad).1
            have habove := hsorted.1 first hfirst
            omega
      · rcases ih hsorted.2 hhigh.2 chain with ⟨hcut, hnone⟩ | ⟨first, hfirst, hbad, hleast, hcut⟩
        · exact Or.inl ⟨hcut, List.forall_mem_cons.mpr ⟨hpoint, hnone⟩⟩
        · refine Or.inr ⟨first, List.mem_cons_of_mem _ hfirst, hbad, ?_, hcut⟩
          intro other hother hother'
          rcases List.mem_cons.mp hother with rfl | hother
          · exact absurd hother' hpoint
          · exact hleast other hother hother'

omit [DecidableEq ρ] in
theorem cutAtPoints_append (low high : List (UInt64 × Hash)) (chain : List MainBlock) :
    cutAtPoints env (low ++ high) chain = cutAtPoints env high (cutAtPoints env low chain) := by
  rw [cutAtPoints, List.foldl_append]
  rfl

theorem Checkpoints.split (points : Checkpoints) :
    ∃ low high, points.elems = low ++ high ∧ (∀ point ∈ low, point.1.toNat < 2) ∧
      (∀ point ∈ high, 2 ≤ point.1.toNat) ∧
      high.Pairwise fun a b => a.1.toNat < b.1.toNat := by
  have hsorted := points.sorted
  generalize points.elems = l at hsorted
  induction l with
  | nil => exact ⟨[], [], rfl, by simp, by simp, List.Pairwise.nil⟩
  | cons point l ih =>
      have hcons := List.pairwise_cons.mp hsorted
      by_cases hlow : point.1.toNat < 2
      · obtain ⟨low, high, rfl, hlows, hhighs, hhigh⟩ := ih hcons.2
        exact ⟨point :: low, high, rfl, List.forall_mem_cons.mpr ⟨hlow, hlows⟩, hhighs, hhigh⟩
      · refine ⟨[], point :: l, rfl, by simp, List.forall_mem_cons.mpr ⟨by omega, ?_⟩, hsorted⟩
        intro other hother
        have hlt := hcons.1 other hother
        omega

omit [DecidableEq ρ] in
/-- The cut chain meets all checkpoints exactly when every contradicted one at height 0 or 1
comes with a contradicted one, from height 2 on, at most two above it. -/
theorem cutAtPoints_enforced_iff (env : ChainEnv ρ) (points : Checkpoints)
    (chain : List MainBlock) :
    (∀ point ∈ points, ¬Contradicts env (cutAtPoints env points.elems chain) point) ↔
    ∀ low ∈ points, low.1.toNat < 2 → Contradicts env chain low →
      ∃ point ∈ points, 2 ≤ point.1.toNat ∧ point.1.toNat ≤ low.1.toNat + 2 ∧
        Contradicts env chain point := by
  obtain ⟨low, high, helems, hlows, hhighs, hsorted⟩ := points.split
  have hmem : ∀ point, point ∈ points ↔ point ∈ low ∨ point ∈ high := by
    intro point
    rw [OrderedSet.mem_def, helems, List.mem_append]
  obtain ⟨n, hn, hcut⟩ := cutAtPoints_low env hlows chain
  rw [helems, cutAtPoints_append, hcut]
  -- what the condition gives for a checkpoint at 0 or 1 is one the second part of the loop sees
  have hseen : ∀ point ∈ low, (∃ other ∈ points, 2 ≤ other.1.toNat ∧
      other.1.toNat ≤ point.1.toNat + 2 ∧ Contradicts env chain other) →
      ∃ other ∈ high, other.1.toNat ≤ point.1.toNat + 2 ∧
        Contradicts env (chain.take n) other := by
    rintro point hpoint ⟨other, hother, hge, hle, hcontra⟩
    have hlt := hlows point hpoint
    refine ⟨other, ((hmem other).mp hother).resolve_left fun hlow => ?_, hle,
      contradicts_take_iff.mpr ⟨by omega, hcontra⟩⟩
    have hlt' := hlows other hlow
    omega
  rcases cutAtPoints_high env hsorted hhighs (chain.take n) with
    ⟨hcut', hnone⟩ | ⟨first, hfirst, hbad, hleast, hcut'⟩
  · -- nothing is cut off, and the checkpoints at 0 and 1 stay as they were
    rw [hcut']
    constructor
    · intro hall point hpoint hlow hcontra
      exact absurd (contradicts_take_iff.mpr ⟨by omega, hcontra⟩) (hall point hpoint)
    · intro hall point hpoint hcontra
      rcases (hmem point).mp hpoint with hlow | hhigh
      · obtain ⟨other, hother, -, hcontra'⟩ := hseen point hlow
          (hall point hpoint (hlows point hlow) (contradicts_take_iff.mp hcontra).2)
        exact hnone other hother hcontra'
      · exact hnone point hhigh hcontra
  · -- the chain ends two blocks below the first contradicted checkpoint from height 2 on
    rw [hcut']
    constructor
    · intro hall point hpoint hlow hcontra
      by_cases hle : first.1.toNat ≤ point.1.toNat + 2
      · exact ⟨first, (hmem first).mpr (Or.inr hfirst), hhighs first hfirst, hle,
          (contradicts_take_iff.mp hbad).2⟩
      · have hstays : Contradicts env ((chain.take n).take (first.1.toNat - 2)) point :=
          contradicts_take_iff.mpr ⟨by omega, contradicts_take_iff.mpr ⟨by omega, hcontra⟩⟩
        exact absurd hstays (hall point hpoint)
    · intro hall point hpoint hcontra
      obtain ⟨hbelow, hcontra⟩ := contradicts_take_iff.mp hcontra
      rcases (hmem point).mp hpoint with hlow | hhigh
      · obtain ⟨other, hother, hle, hcontra'⟩ := hseen point hlow
          (hall point hpoint (hlows point hlow) (contradicts_take_iff.mp hcontra).2)
        have hfirst := hleast other hother hcontra'
        omega
      · have hfirst := hleast point hhigh hcontra
        omega

/-! ### The loop -/

omit [DecidableEq ρ] in
/-- A checkpoint below height 2 does not cut off the block at height 2. -/
theorem contradicts_cut_low {chain : List MainBlock} {point other : UInt64 × Hash}
    (hlow : point.1.toNat < 2) (hother : other.1.toNat = 2) :
    Contradicts env (if Contradicts env chain point then chain.take (point.1 - 2).toNat else chain)
      other ↔ Contradicts env chain other := by
  split_ifs
  · have htwo : (2 : UInt64).toNat = 2 := rfl
    rw [contradicts_take_iff, UInt64.toNat_sub, htwo]
    exact and_iff_right (by omega)
  · exact Iff.rfl

/-- The loop returns when the checkpoint at height 2 is met, and then it has cut the chain. -/
theorem checkPoints_spec (env : ChainEnv ρ) (points : Checkpoints) {left : List (UInt64 × Hash)}
    (hleft : ∀ point ∈ left, point ∈ points)
    (hsorted : left.Pairwise fun a b => a.1.toNat < b.1.toNat) (s : ChainState ρ) :
    ((checkPoints env points true left s).1 = true ↔
      ∀ point ∈ left, Contradicts env s.chain point → point.1 ≠ 2) ∧
    ((checkPoints env points true left s).1 = true →
      (checkPoints env points true left s).2.chain = cutAtPoints env left s.chain) := by
  induction left generalizing s with
  | nil => exact ⟨iff_of_true rfl (List.forall_mem_nil _), fun _ => rfl⟩
  | cons point left ih =>
      rw [List.forall_mem_cons] at hleft
      rw [List.pairwise_cons] at hsorted
      obtain ⟨hgoes, hcut⟩ := checkAgainstPoint_chain hleft.1 s
      rw [checkPoints, List.forall_mem_cons]
      obtain ⟨⟨goes, s'⟩, hrun⟩ : ∃ r, checkAgainstPoint env points true s point = r := ⟨_, rfl⟩
      rw [hrun] at hgoes hcut ⊢
      cases goes with
      | false =>
          have hbad : ¬(Contradicts env s.chain point → point.1 ≠ 2) :=
            of_decide_eq_false hgoes.symm
          exact ⟨iff_of_false (by simp) fun h => hbad h.1, fun h => absurd h (by simp)⟩
      | true =>
          obtain ⟨hreturns, hchain⟩ := ih hleft.2 hsorted.2 s'
          refine ⟨hreturns.trans ?_, fun h => (hchain h).trans ?_⟩
          · rw [and_iff_right (of_decide_eq_true hgoes.symm)]
            refine forall₂_congr fun other hother => ?_
            by_cases htwo : other.1 = 2
            · have hheight : other.1.toNat = 2 := by rw [htwo]; rfl
              have hlow : point.1.toNat < 2 := hheight ▸ hsorted.1 other hother
              rw [show s'.chain = _ from hcut, contradicts_cut_low hlow hheight]
            · exact iff_of_true (fun _ => htwo) fun _ => htwo
          · rw [show s'.chain = _ from hcut]
            rfl

theorem checkAgainstCheckpoints_spec (env : ChainEnv ρ) (points : Checkpoints)
    (s : ChainState ρ) :
    ((checkAgainstCheckpoints env points true s).1 = true ↔
      ∀ point ∈ points, Contradicts env s.chain point → point.1 ≠ 2) ∧
    ((checkAgainstCheckpoints env points true s).1 = true →
      (checkAgainstCheckpoints env points true s).2.chain =
        cutAtPoints env points.elems s.chain) :=
  checkPoints_spec env points (fun _ hpoint => hpoint) points.sorted s

/-- The check returns, and each block at the height of a checkpoint is the one it names,
exactly when the checkpoints at height 0 and 2 are met and the one at height 1 is met or
comes with a contradicted one at height 3. -/
theorem checkpoints_enforced_iff (env : ChainEnv ρ) (points : Checkpoints) (s : ChainState ρ) :
    ((checkAgainstCheckpoints env points true s).1 = true ∧ ∀ point ∈ points,
      ¬Contradicts env (checkAgainstCheckpoints env points true s).2.chain point) ↔
    ∀ point ∈ points, Contradicts env s.chain point → point.1.toNat ≠ 0 ∧ point.1.toNat ≠ 2 ∧
      (point.1.toNat = 1 → ∃ other ∈ points, other.1.toNat = 3 ∧
        Contradicts env s.chain other) := by
  obtain ⟨hreturns, hchain⟩ := checkAgainstCheckpoints_spec env points s
  have htwo : ∀ point : UInt64 × Hash, point.1 = 2 ↔ point.1.toNat = 2 := fun point => by
    rw [← UInt64.toNat_inj]
    rfl
  constructor
  · rintro ⟨hdone, hmet⟩ point hpoint hcontra
    rw [hchain hdone, cutAtPoints_enforced_iff] at hmet
    have hsecond : ∀ other ∈ points, Contradicts env s.chain other → other.1.toNat ≠ 2 :=
      fun other hother h => mt (htwo other).mpr (hreturns.mp hdone other hother h)
    refine ⟨fun hzero => ?_, hsecond point hpoint hcontra, fun hone => ?_⟩
    · obtain ⟨other, hother, hge, hle, hcontra'⟩ := hmet point hpoint (by omega) hcontra
      exact hsecond other hother hcontra' (by omega)
    · obtain ⟨other, hother, hge, hle, hcontra'⟩ := hmet point hpoint (by omega) hcontra
      have hne := hsecond other hother hcontra'
      exact ⟨other, hother, by omega, hcontra'⟩
  · intro hall
    have hdone := hreturns.mpr fun point hpoint hcontra =>
      mt (htwo point).mp (hall point hpoint hcontra).2.1
    refine ⟨hdone, ?_⟩
    rw [hchain hdone, cutAtPoints_enforced_iff]
    intro low hlow hlt hcontra
    obtain ⟨hzero, -, hone⟩ := hall low hlow hcontra
    obtain ⟨other, hother, hthree, hcontra'⟩ := hone (by omega)
    exact ⟨other, hother, by omega, by omega, hcontra'⟩

def firstBlockPoint : Checkpoints :=
  ⟨[(1, altFirst.id)], List.pairwise_singleton _ _⟩

/-- The chain fails the checkpoint at height 1 and is kept as it is. -/
theorem firstBlockPoint_not_enforced :
    (checkAgainstCheckpoints forkEnv firstBlockPoint true (plainState twoForks forkChain)).1 =
        true ∧
      ¬∀ point ∈ firstBlockPoint, ¬Contradicts forkEnv
        (checkAgainstCheckpoints forkEnv firstBlockPoint true
          (plainState twoForks forkChain)).2.chain point := by
  obtain ⟨hreturns, hchain⟩ := checkAgainstCheckpoints_spec forkEnv firstBlockPoint
    (plainState twoForks forkChain)
  have hdone := hreturns.mpr (by decide)
  refine ⟨hdone, fun hall => ?_⟩
  refine hall (1, altFirst.id) List.mem_cons_self ⟨plainMain mainFirst 2, ?_, ?_⟩
  · rw [hchain hdone]
    decide
  · decide

end XrCoin.Blockchain

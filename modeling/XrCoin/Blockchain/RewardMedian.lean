import Mathlib
import XrCoin.Blockchain.LongTermWeights

/-!
The reward of a block against the median that its weight is held against.

A template takes the median from the cached weight limit, the validation takes the one of the last
blocks, or the cached one from a later version on. A greater median never makes the reward smaller,
so the two sides agree as far as the medians are ordered.
-/

namespace XrCoin.Blockchain

open Cryptonote

/-! ### The penalty -/

/-- The share of the reward that is left grows with the median. -/
theorem penalty_mul_le {smaller larger weight : ℕ} (hle : smaller ≤ larger)
    (hweight : larger ≤ weight) (hfits : weight ≤ 2 * smaller) :
    (2 * smaller - weight) * (larger * larger) ≤ (2 * larger - weight) * (smaller * smaller) := by
  obtain ⟨left, rfl⟩ := Nat.exists_eq_add_of_le hle
  obtain ⟨excess, rfl⟩ := Nat.exists_eq_add_of_le hweight
  obtain ⟨rest, hrest⟩ := Nat.exists_eq_add_of_le hfits
  have hsmaller : 2 * smaller - (smaller + left + excess) = rest := by omega
  have hlarger : 2 * (smaller + left) - (smaller + left + excess) = rest + 2 * left := by omega
  rw [hsmaller, hlarger]
  -- the median is what is left over both
  obtain rfl : smaller = left + excess + rest := by omega
  nlinarith [Nat.zero_le (left * left * excess), Nat.zero_le (left * excess * excess),
    Nat.zero_le (left * excess * rest), Nat.zero_le (left * left * left),
    Nat.zero_le (left * left * rest), Nat.zero_le (left * rest * rest)]

theorem div_le_div_of_mul_le {a b c d : ℕ} (hc : 0 < c) (hd : 0 < d) (h : a * d ≤ b * c) :
    a / c ≤ b / d := by
  rw [Nat.le_div_iff_mul_le hd]
  apply Nat.le_of_mul_le_mul_right _ hc
  calc
    a / c * d * c = a / c * c * d := by ring
    _ ≤ a * d := Nat.mul_le_mul_right d (Nat.div_mul_le_self a c)
    _ ≤ b * c := h

def penalized (base median weight : ℕ) : ℕ :=
  base * ((2 * median - weight) * weight) / (median * median)

theorem penalized_le_penalized {base smaller larger weight : ℕ} (hpos : 0 < smaller)
    (hle : smaller ≤ larger) (hweight : larger ≤ weight) (hfits : weight ≤ 2 * smaller) :
    penalized base smaller weight ≤ penalized base larger weight := by
  apply div_le_div_of_mul_le (Nat.mul_pos hpos hpos) (Nat.mul_pos (by omega) (by omega))
  calc
    base * ((2 * smaller - weight) * weight) * (larger * larger)
        = base * weight * ((2 * smaller - weight) * (larger * larger)) := by ring
    _ ≤ base * weight * ((2 * larger - weight) * (smaller * smaller)) :=
      Nat.mul_le_mul_left _ (penalty_mul_le hle hweight hfits)
    _ = base * ((2 * larger - weight) * weight) * (smaller * smaller) := by ring

theorem multiplicand_le {median weight : ℕ} (hfits : weight ≤ 2 * median) :
    (2 * median - weight) * weight ≤ median * median := by
  obtain ⟨rest, hrest⟩ := Nat.exists_eq_add_of_le hfits
  rw [hrest, Nat.add_sub_cancel_left]
  rcases Nat.le_total weight median with hle | hle
  · obtain ⟨under, rfl⟩ := Nat.exists_eq_add_of_le hle
    obtain rfl : rest = weight + 2 * under := by omega
    nlinarith [Nat.zero_le (under * under)]
  · obtain ⟨excess, rfl⟩ := Nat.exists_eq_add_of_le hle
    obtain rfl : median = excess + rest := by omega
    nlinarith [Nat.zero_le (excess * excess)]

theorem penalized_le {base median weight : ℕ} (hfits : weight ≤ 2 * median) :
    penalized base median weight ≤ base := by
  apply Nat.div_le_of_le_mul
  calc
    base * ((2 * median - weight) * weight) ≤ base * (median * median) :=
      Nat.mul_le_mul_left base (multiplicand_le hfits)
    _ = median * median * base := Nat.mul_comm _ _

theorem toNat_double {median : UInt64} (hmedian : median.toNat < 2 ^ 32) :
    (2 * median).toNat = 2 * median.toNat := by
  rw [UInt64.toNat_mul]
  exact Nat.mod_eq_of_lt (by simp only [UInt64.reduceToNat]; omega)

/-- The product with the weight is not cut off. -/
theorem toNat_multiplicand {median weight : UInt64} (hmedian : median.toNat < 2 ^ 32)
    (hfits : weight.toNat ≤ 2 * median.toNat) :
    ((2 * median - weight) * weight).toNat = (2 * median.toNat - weight.toNat) * weight.toNat := by
  have htwice := toNat_double hmedian
  rw [UInt64.toNat_mul, UInt64.toNat_sub_of_le _ _ (UInt64.le_iff_toNat_le.mpr (by omega)), htwice]
  apply Nat.mod_eq_of_lt
  calc
    (2 * median.toNat - weight.toNat) * weight.toNat ≤ median.toNat * median.toNat :=
      multiplicand_le hfits
    _ < 2 ^ 32 * 2 ^ 32 := Nat.mul_lt_mul'' hmedian hmedian
    _ = 2 ^ 64 := by norm_num

/-- Under the bound that `get_block_reward` asserts nothing is cut off. -/
theorem penalizedReward_eq {base median weight : UInt64} (hpos : 0 < median.toNat)
    (hmedian : median.toNat < 2 ^ 32) (hfits : weight.toNat ≤ 2 * median.toNat) :
    penalizedReward base median weight =
      some (penalized base.toNat median.toNat weight.toNat).toUInt64 := by
  have hdivisor : median.toUInt32.toNat = median.toNat := by
    rw [UInt64.toNat_toUInt32]
    exact Nat.mod_eq_of_lt hmedian
  simp only [penalizedReward, hdivisor, toNat_multiplicand hmedian hfits, if_neg hpos.ne', penalized,
    Nat.div_div_eq_div_mul]

/-! ### The median -/

variable (rc : RewardConfig)

def softMedian (version : UInt8) (median : UInt64) : UInt64 :=
  if median < getMinBlockWeight rc version then getMinBlockWeight rc version else median

def rewardAt (base median weight : UInt64) : Option UInt64 :=
  if weight ≤ median then some base
  else if 2 * median < weight then none
  else penalizedReward base median weight

theorem toNat_softMedian (version : UInt8) (median : UInt64) :
    (softMedian rc version median).toNat =
      max (getMinBlockWeight rc version).toNat median.toNat := by
  rw [softMedian]
  split <;> rename_i h <;> rw [UInt64.lt_iff_toNat_lt] at h <;> omega

/-- A block that is not too heavy for a median is not too heavy for a greater one, and its reward
there is not smaller. -/
theorem rewardAt_mono {base smaller larger weight reward : UInt64} (hle : smaller ≤ larger)
    (hlarger : larger.toNat < 2 ^ 32) (h : rewardAt base smaller weight = some reward) :
    ∃ reward', rewardAt base larger weight = some reward' ∧ reward ≤ reward' := by
  rw [UInt64.le_iff_toNat_le] at hle
  have hdoubleSmaller : (2 * smaller).toNat = 2 * smaller.toNat := toNat_double (by omega)
  have hdoubleLarger := toNat_double hlarger
  simp only [rewardAt, UInt64.le_iff_toNat_le, UInt64.lt_iff_toNat_lt, hdoubleSmaller,
    hdoubleLarger] at h ⊢
  by_cases hsmall : weight.toNat ≤ smaller.toNat
  · -- below both there is no penalty
    rw [if_pos hsmall] at h
    rw [if_pos (by omega)]
    exact ⟨base, rfl, (congrArg UInt64.toNat (Option.some.inj h)).ge⟩
  rw [if_neg hsmall] at h
  by_cases hheavy : 2 * smaller.toNat < weight.toNat
  · rw [if_pos hheavy] at h
    cases h
  rw [if_neg hheavy, penalizedReward_eq (by omega) (by omega) (by omega)] at h
  have hreward : reward.toNat = penalized base.toNat smaller.toNat weight.toNat := by
    rw [← Option.some.inj h, Nat.toUInt64, UInt64.toNat_ofNat']
    have hbase := base.toNat_lt
    have hpenalized : penalized base.toNat smaller.toNat weight.toNat ≤ base.toNat :=
      penalized_le (not_lt.mp hheavy)
    exact Nat.mod_eq_of_lt (by omega)
  by_cases hlarge : weight.toNat ≤ larger.toNat
  · rw [if_pos hlarge]
    exact ⟨base, rfl, hreward.trans_le (penalized_le (not_lt.mp hheavy))⟩
  rw [if_neg hlarge, if_neg (by omega), penalizedReward_eq (by omega) hlarger (by omega)]
  refine ⟨_, rfl, ?_⟩
  have hbase := base.toNat_lt
  have hpenalized : penalized base.toNat larger.toNat weight.toNat ≤ base.toNat :=
    penalized_le (by omega)
  rw [hreward, Nat.toUInt64, UInt64.toNat_ofNat', Nat.mod_eq_of_lt (by omega)]
  exact penalized_le_penalized (by omega) hle (by omega) (not_lt.mp hheavy)

/-! ### The cached median -/

variable {rc} {wc : WeightConfig}

theorem setCumulWeight_median (s : WeightState) (median : UInt64) :
    (s.setCumulWeight wc median).currentBlockCumulWeightMedian =
      softMedian wc.toRewardConfig s.version median := by
  simp only [WeightState.setCumulWeight, softMedian, UInt64.le_iff_toNat_le, UInt64.lt_iff_toNat_lt]
  rcases Nat.lt_trichotomy median.toNat (getMinBlockWeight wc.toRewardConfig s.version).toNat
    with hlt | heq | hgt
  · rw [if_pos hlt.le, if_pos hlt]
  · rw [if_pos heq.le, if_neg heq.not_lt, UInt64.toNat.inj heq]
  · rw [if_neg (by omega), if_neg (by omega)]

def WeightState.shortTermMedian (wc : WeightConfig) (s : WeightState) : UInt64 :=
  median (s.lastNBlocksWeights wc.rewardBlocksWindow)

/-- What `update_next_cumulative_weight_limit` leaves of the median. Before the long-term weights it
is that of the last blocks, and with them it is not above it. -/
structure CumulWeight (wc : WeightConfig) (s : WeightState) (median : UInt64) : Prop where
  median_eq : s.currentBlockCumulWeightMedian = softMedian wc.toRewardConfig s.version median
  limit_eq : s.currentBlockCumulWeightLimit = s.currentBlockCumulWeightMedian * 2
  shortTerm : s.version < wc.hfVersionLongTermBlockWeight → median = s.shortTermMedian wc
  le : median.toNat ≤ max wc.blockGrantedFullRewardZoneV1.toNat (s.shortTermMedian wc).toNat

theorem toNat_min_le_left (a b : UInt64) : (min a b).toNat ≤ a.toNat := by
  rw [show min a b = if a ≤ b then a else b from rfl]
  split
  · exact le_rfl
  · rename_i h
    rw [UInt64.le_iff_toNat_le] at h
    omega

theorem toNat_max_eq (a b : UInt64) : (max a b).toNat = max a.toNat b.toNat := by
  rw [show max a b = if a ≤ b then b else a from rfl]
  split <;> rename_i h <;> rw [UInt64.le_iff_toNat_le] at h <;> omega

theorem version_callMedian {s : WeightState} {startHeight count : ℕ} {r : UInt64 × WeightState}
    (h : callMedian s startHeight count = some r) : r.2.version = s.version := by
  obtain ⟨r', hr', rfl⟩ := Option.map_eq_some_iff.mp h
  simp only [getLongTermBlockWeightMedian] at hr'
  split_ifs at hr' <;> (obtain rfl := Option.some.inj hr'; rfl)

theorem setLongTermMedian_cumulWeight (s : WeightState) (longTermMedian : UInt64)
    (hversion : ¬ s.version < wc.hfVersionLongTermBlockWeight) :
    ∃ median, CumulWeight wc (s.setLongTermMedian wc longTermMedian) median := by
  refine ⟨_, setCumulWeight_median _ _, rfl, fun h => absurd h hversion, ?_⟩
  -- the surge factor can only lower the median
  refine (toNat_min_le_left _ _).trans (toNat_max_eq _ _).le

theorem updateNextCumulativeWeightLimit_cumulWeight {s s' : WeightState}
    (h : updateNextCumulativeWeightLimit wc s = some s') : ∃ median, CumulWeight wc s' median := by
  rw [updateNextCumulativeWeightLimit] at h
  by_cases hversion : s.version < wc.hfVersionLongTermBlockWeight
  · rw [if_pos hversion] at h
    obtain rfl := Option.some.inj h
    exact ⟨_, setCumulWeight_median _ _, rfl, fun _ => rfl, le_max_right _ _⟩
  rw [if_neg hversion] at h
  by_cases hempty : s.height = 0
  · rw [if_pos hempty] at h
    cases h
  rw [if_neg hempty] at h
  simp only at h
  by_cases hone : s.height = 1
  · rw [if_pos hone] at h
    obtain rfl := Option.some.inj h
    exact setLongTermMedian_cumulWeight s _ hversion
  rw [if_neg hone] at h
  obtain ⟨r, hr, rfl⟩ := Option.map_eq_some_iff.mp h
  apply setLongTermMedian_cumulWeight
  rwa [← version_callMedian hr] at hversion

/-! ### The two sides -/

/-- The cached median and limit are those of the chain and the version: the version was not changed
after the last update. The constants are as the currency has them, and the median of the last blocks
is below what `get_block_reward` asserts. -/
structure Settled (wc : WeightConfig) (chain : List MainBlock) (version : UInt8)
    (cumulWeightMedian cumulWeightLimit : UInt64) : Prop where
  updated : ∃ before after, updateNextCumulativeWeightLimit wc before = some after ∧
    after.version = version ∧
    (after.rows.map fun r => r.block.weight) = chain.map MainBlock.blockWeight ∧
    after.currentBlockCumulWeightMedian = cumulWeightMedian ∧
    after.currentBlockCumulWeightLimit = cumulWeightLimit
  longTerm : 2 ≤ wc.hfVersionLongTermBlockWeight
  zone : wc.blockGrantedFullRewardZoneV1 ≤ 60000
  bounded : (median (getLastNBlocksWeights chain wc.rewardBlocksWindow)).toNat < 2 ^ 32 - 1

theorem zone_le_minBlockWeight (hzone : rc.blockGrantedFullRewardZoneV1 ≤ 60000) (version : UInt8) :
    rc.blockGrantedFullRewardZoneV1.toNat ≤ (getMinBlockWeight rc version).toNat ∧
      (getMinBlockWeight rc version).toNat ≤ 60000 := by
  have h := UInt64.le_iff_toNat_le.mp hzone
  rw [getMinBlockWeight]
  split
  · exact ⟨h, le_rfl⟩
  · exact ⟨le_rfl, h⟩

theorem shortTermMedian_eq {s : WeightState} {chain : List MainBlock}
    (h : (s.rows.map fun r => r.block.weight) = chain.map MainBlock.blockWeight) :
    s.shortTermMedian wc = median (getLastNBlocksWeights chain wc.rewardBlocksWindow) := by
  have hlength : s.rows.length = chain.length := by
    simpa using congrArg List.length h
  rw [WeightState.shortTermMedian, WeightState.lastNBlocksWeights, WeightState.height,
    getLastNBlocksWeights, List.map_drop, List.map_drop, h, hlength]

/-- The median of a template is not above that of the validation. Before the long-term weights they
are the same. -/
theorem Settled.softMedian_le {chain : List MainBlock} {version : UInt8}
    {cumulWeightMedian cumulWeightLimit : UInt64}
    (h : Settled wc chain version cumulWeightMedian cumulWeightLimit) :
    softMedian wc.toRewardConfig version (cumulWeightLimit / 2) ≤ softMedian wc.toRewardConfig version
        (rewardMedian wc.toRewardConfig chain version cumulWeightMedian) ∧
      (version < 2 → softMedian wc.toRewardConfig version (cumulWeightLimit / 2) =
        softMedian wc.toRewardConfig version
          (rewardMedian wc.toRewardConfig chain version cumulWeightMedian)) ∧
      (softMedian wc.toRewardConfig version
        (rewardMedian wc.toRewardConfig chain version cumulWeightMedian)).toNat < 2 ^ 32 := by
  obtain ⟨before, after, hupdate, rfl, hweights, rfl, rfl⟩ := h.updated
  obtain ⟨median, hcumul⟩ := updateNextCumulativeWeightLimit_cumulWeight hupdate
  have hzone := zone_le_minBlockWeight h.zone after.version
  have hbounded := h.bounded
  have hle := hcumul.le
  rw [← shortTermMedian_eq hweights] at hbounded
  have hmedian := toNat_softMedian wc.toRewardConfig after.version median
  rw [← hcumul.median_eq] at hmedian
  -- half of the limit is the median that is cached
  have hhalf : (after.currentBlockCumulWeightLimit / 2).toNat =
      after.currentBlockCumulWeightMedian.toNat := by
    rw [hcumul.limit_eq, UInt64.toNat_div, UInt64.toNat_mul]
    simp only [UInt64.reduceToNat]
    omega
  have hreward : rewardMedian wc.toRewardConfig chain after.version
      after.currentBlockCumulWeightMedian = after.currentBlockCumulWeightMedian ∨
      rewardMedian wc.toRewardConfig chain after.version after.currentBlockCumulWeightMedian =
        after.shortTermMedian wc := by
    rw [rewardMedian, ← shortTermMedian_eq hweights]
    exact ite_eq_or_eq _ _ _
  have hshort : after.version < 2 → median = after.shortTermMedian wc := fun hversion =>
    hcumul.shortTerm (UInt8.lt_of_lt_of_le hversion h.longTerm)
  simp only [UInt64.le_iff_toNat_le, ← UInt64.toNat_inj, toNat_softMedian, hhalf]
  rcases hreward with hreward | hreward <;> rw [hreward]
  · exact ⟨le_rfl, fun _ => rfl, by omega⟩
  · refine ⟨by omega, fun hversion => ?_, by omega⟩
    rw [hmedian, hshort hversion]
    omega

end XrCoin.Blockchain

import XrCoin.Blockchain.CreateTemplate
import XrCoin.Blockchain.RewardMedian
import XrCoin.Blockchain.SwitchForks
import XrCoin.Cryptonote.Canonical

/-!
Whether a block that `create_block_template` returns passes `prevalidate_miner_transaction` and
`validate_miner_transaction`.

The weight that the reward was taken for is always the weight of the block. What the validation makes
of the claimed amount depends on the two medians and, between version 2 and the confidential amounts,
on the low digits that the miner leaves: they are taken off the reward and the fees together, and
must not be more than the reward.
-/

namespace XrCoin.Blockchain

open Archive Cryptonote Forks TxPool

/-! ### The loop -/

theorem ConstructedFor.withExtra {mc : MinerConfig} {c : MinerTxCall} {weight : UInt64}
    {tx tx' : Transaction} {reward blockReward : UInt64} {outAmounts : List UInt64}
    (h : ConstructedFor mc c weight tx reward blockReward outAmounts)
    (hvin : tx'.vin = tx.vin) (hvout : tx'.vout = tx.vout)
    (hunlock : tx'.unlockTime = tx.unlockTime) :
    ConstructedFor mc c weight tx' reward blockReward outAmounts where
  reward_eq := h.reward_eq
  claimed := h.claimed
  outs := h.outs
  sum := h.sum
  amounts := by rw [hvout, h.amounts]
  vin := by rw [hvin, h.vin]
  unlockTime := by rw [hunlock, h.unlockTime]

def PaysFor (mc : MinerConfig) (c : MinerTxCall) (weight : UInt64) (tx : Transaction) : Prop :=
  ∃ reward blockReward outAmounts, ConstructedFor mc c weight tx reward blockReward outAmounts

variable {cfg : Config} {mc : MinerConfig} {c : MinerTxCall}

theorem PaysFor.padExtra {weight delta : UInt64} {tx tx' : Transaction} (h : PaysFor mc c weight tx)
    (hpad : padExtra tx delta = some tx') : PaysFor mc c weight tx' := by
  obtain ⟨reward, blockReward, outAmounts, h⟩ := h
  obtain ⟨extra, -, rfl⟩ := Option.map_eq_some_iff.mp hpad
  exact ⟨reward, blockReward, outAmounts, h.withExtra rfl rfl rfl⟩

theorem PaysFor.shrinkExtra {weight : UInt64} {tx : Transaction} (h : PaysFor mc c weight tx) :
    PaysFor mc c weight (shrinkExtra tx) := by
  obtain ⟨reward, blockReward, outAmounts, h⟩ := h
  exact ⟨reward, blockReward, outAmounts, h.withExtra rfl rfl rfl⟩

theorem PaysFor.fillUp {txsWeight cumulativeWeight delta : UInt64} {tx tx' : Transaction}
    (h : PaysFor mc c cumulativeWeight tx)
    (hfill : fillUp cfg txsWeight cumulativeWeight delta tx = some (.good tx')) :
    PaysFor mc c cumulativeWeight tx' := by
  obtain ⟨padded, hpad, hfill⟩ := Option.bind_eq_some_iff.mp hfill
  obtain ⟨weight, -, hfill⟩ := Option.bind_eq_some_iff.mp hfill
  have hpadded := h.padExtra hpad
  split_ifs at hfill
  · obtain rfl := Round.good.inj (Option.some.inj hfill)
    exact hpadded
  · obtain ⟨shrunk, -, hfill⟩ := Option.bind_eq_some_iff.mp hfill
    split_ifs at hfill
    · obtain rfl := Round.good.inj (Option.some.inj hfill)
      exact hpadded.shrinkExtra
    · cases Option.some.inj hfill

theorem templateRound_good {txsWeight cumulativeWeight : UInt64} {keys : MinerKeys}
    {tx tx' : Transaction}
    (h : templateRound cfg mc c txsWeight cumulativeWeight keys tx = some (.good tx')) :
    PaysFor mc c cumulativeWeight tx' := by
  obtain ⟨built, hbuilt, h⟩ := Option.bind_eq_some_iff.mp h
  obtain ⟨weight, -, h⟩ := Option.bind_eq_some_iff.mp h
  have hpays : PaysFor mc c cumulativeWeight built := constructMinerTx_spec hbuilt
  split_ifs at h
  · cases Option.some.inj h
  · exact hpays.fillUp h
  · obtain rfl := Round.good.inj (Option.some.inj h)
    exact hpays

structure Coinbase.Fixed (cfg : Config) (mc : MinerConfig) (c : MinerTxCall) (txsWeight : UInt64)
    (r : Coinbase) : Prop where
  weight : ∃ weight, transactionWeight cfg r.tx = some weight ∧
    r.cumulativeWeight = txsWeight + weight
  pays : PaysFor mc c r.cumulativeWeight r.tx

/-- Whatever the rounds before were, the last one was for the weight that is returned. -/
theorem templateLoop_fixed {keys : ℕ → MinerKeys} {txsWeight cumulativeWeight : UInt64}
    {tries round : ℕ} {tx : Transaction} {r : Coinbase}
    (h : templateLoop cfg mc c keys txsWeight tries round cumulativeWeight tx = some r) :
    r.Fixed cfg mc c txsWeight := by
  induction tries generalizing round cumulativeWeight tx with
  | zero => cases h
  | succ tries ih =>
      obtain ⟨result, hround, h⟩ := Option.bind_eq_some_iff.mp h
      cases result with
      | again tx' cumulativeWeight' => exact ih h
      | good tx' =>
          obtain ⟨weight, hweight, h⟩ := Option.bind_eq_some_iff.mp h
          split_ifs at h with heq
          obtain rfl := Option.some.inj h
          exact ⟨⟨weight, hweight, heq⟩, templateRound_good hround⟩

theorem createCoinbase_fixed {keys : ℕ → MinerKeys} {txsWeight : UInt64} {tx : Transaction}
    {r : Coinbase} (h : createCoinbase cfg mc c keys txsWeight tx = some r) :
    r.Fixed cfg mc c txsWeight := by
  obtain ⟨first, -, h⟩ := Option.bind_eq_some_iff.mp h
  obtain ⟨weight, -, h⟩ := Option.bind_eq_some_iff.mp h
  exact templateLoop_fixed h

/-! ### The validation -/

/-- What the validation asks of the reward that the miner transaction was built with and of the one
that it takes itself. -/
def RewardCovered (mc : MinerConfig) (version : UInt8) (fee paid judged : UInt64) : Prop :=
  if version < 2 then paid = judged
  else if version < mc.hfVersionAllowRct then
    (paid + fee) % mc.baseRewardClampThreshold ≤ paid ∧
      paid - (paid + fee) % mc.baseRewardClampThreshold ≤ judged
  else paid ≤ judged

def leftDigits (mc : MinerConfig) (version : UInt8) (fee paid : UInt64) : ℕ :=
  if 2 ≤ version ∧ version < mc.hfVersionAllowRct then
    (paid.toNat + fee.toNat) % mc.baseRewardClampThreshold.toNat
  else 0

theorem toNat_claimedReward {paid blockReward : UInt64}
    (h : claimedReward mc c paid = some blockReward) (hfits : paid.toNat + c.fee.toNat < 2 ^ 64) :
    blockReward.toNat + leftDigits mc c.version c.fee paid = paid.toNat + c.fee.toNat := by
  have hsum : (paid + c.fee).toNat = paid.toNat + c.fee.toNat := by
    rw [UInt64.toNat_add, Nat.mod_eq_of_lt hfits]
  simp only [claimedReward] at h
  rw [leftDigits]
  split_ifs at h ⊢
  · obtain rfl := Option.some.inj h
    have hle := Nat.mod_le (paid.toNat + c.fee.toNat) mc.baseRewardClampThreshold.toNat
    rw [UInt64.toNat_sub_of_le _ _ (by rw [UInt64.le_iff_toNat_le, UInt64.toNat_mod, hsum]; exact hle),
      UInt64.toNat_mod, hsum, Nat.sub_add_cancel hle]
  · obtain rfl := Option.some.inj h
    rw [hsum, Nat.add_zero]

theorem rewardCovered_iff {version : UInt8} {fee paid judged : UInt64}
    (hfits : paid.toNat + fee.toNat < 2 ^ 64) :
    RewardCovered mc version fee paid judged ↔
      if version < 2 then paid.toNat = judged.toNat
      else leftDigits mc version fee paid ≤ paid.toNat ∧
        paid.toNat - leftDigits mc version fee paid ≤ judged.toNat := by
  have hmod : ((paid + fee) % mc.baseRewardClampThreshold).toNat =
      (paid.toNat + fee.toNat) % mc.baseRewardClampThreshold.toNat := by
    rw [UInt64.toNat_mod, UInt64.toNat_add, Nat.mod_eq_of_lt hfits]
  rw [RewardCovered, leftDigits]
  by_cases hversion : version < 2
  · rw [if_pos hversion, if_pos hversion, UInt64.toNat_inj]
  rw [if_neg hversion, if_neg hversion]
  by_cases hrct : version < mc.hfVersionAllowRct
  · rw [if_pos hrct, if_pos ⟨UInt8.not_lt.mp hversion, hrct⟩, UInt64.le_iff_toNat_le, hmod]
    constructor
    · rintro ⟨hleft, hle⟩
      rw [UInt64.le_iff_toNat_le, UInt64.toNat_sub_of_le _ _
        (by rw [UInt64.le_iff_toNat_le, hmod]; exact hleft), hmod] at hle
      exact ⟨hleft, hle⟩
    · rintro ⟨hleft, hle⟩
      rw [UInt64.le_iff_toNat_le, UInt64.toNat_sub_of_le _ _
        (by rw [UInt64.le_iff_toNat_le, hmod]; exact hleft), hmod]
      exact ⟨hleft, hle⟩
  · rw [if_neg hrct, if_neg (fun h => hrct h.2), UInt64.le_iff_toNat_le]
    simp

theorem validateMinerTransaction_isSome_iff {chain : List MainBlock} {b : Block}
    {weight paid blockReward : UInt64} {outAmounts : List UInt64} (cumulWeightMedian : UInt64)
    (h : ConstructedFor mc c weight b.minerTx paid blockReward outAmounts)
    (hheight : c.height = chain.length) (hchain : chain ≠ [])
    (hmax : c.maxOuts = if mc.hfVersionAllowRct ≤ c.version then 1 else 11)
    (hfits : paid.toNat + c.fee.toNat < 2 ^ 64)
    (hjudged : ∀ judged ∈ getBlockReward mc.toRewardConfig
      (rewardMedian mc.toRewardConfig chain c.version cumulWeightMedian) weight
      c.alreadyGeneratedCoins c.version chain.length, judged.toNat + c.fee.toNat < 2 ^ 64) :
    (validateMinerTransaction mc.toRewardConfig chain b weight c.fee c.alreadyGeneratedCoins
        c.version cumulWeightMedian).isSome ↔
      ∃ judged ∈ getBlockReward mc.toRewardConfig
        (rewardMedian mc.toRewardConfig chain c.version cumulWeightMedian) weight
        c.alreadyGeneratedCoins c.version chain.length,
      RewardCovered mc c.version c.fee paid judged := by
  have hheight' : c.height ≠ 0 := by
    rw [hheight]
    exact fun hzero => hchain (List.length_eq_zero_iff.mp hzero)
  have hmoney : moneyInUse b = blockReward := by
    rw [moneyInUse, coinbaseAmounts, h.amounts, h.sum]
  have hvalid : ¬ (3 ≤ c.version ∧ c.version < mc.hfVersionAllowRct ∧
      (coinbaseAmounts b).all isValidDecomposedAmount = false) := by
    rintro ⟨hversion, hrct, hinvalid⟩
    rw [coinbaseAmounts, h.amounts, isValid_minerOuts h.outs hheight' hmax
      (UInt8.le_trans (by decide) hversion) hrct] at hinvalid
    cases hinvalid
  rw [validateMinerTransaction, if_neg hvalid]
  rcases hreward : getBlockReward mc.toRewardConfig
      (rewardMedian mc.toRewardConfig chain c.version cumulWeightMedian) weight
      c.alreadyGeneratedCoins c.version chain.length with _ | judged
  · simp
  have hfits' := hjudged judged hreward
  have hclaimed := toNat_claimedReward h.claimed hfits
  have hsum : (judged + c.fee).toNat = judged.toNat + c.fee.toNat := by
    rw [UInt64.toNat_add, Nat.mod_eq_of_lt hfits']
  simp only [Option.bind_some, Option.mem_def, Option.some.injEq, exists_eq_left',
    rewardCovered_iff hfits, hmoney]
  simp only [ne_eq, UInt64.lt_iff_toNat_lt, ← UInt64.toNat_inj, hsum, UInt64.toNat_sub]
  have hbound := blockReward.toNat_lt
  by_cases hversion : c.version < 2
  · have hleft : leftDigits mc c.version c.fee paid = 0 :=
      if_neg fun h => UInt8.not_lt.mpr h.1 hversion
    rw [if_pos hversion, if_pos hversion]
    split_ifs <;> simp <;> omega
  · rw [if_neg hversion, if_neg hversion]
    split_ifs <;> simp <;> omega

/-! ### The template -/

variable {ρ : Type} [DecidableEq ρ] {env : ChainEnv ρ}

omit [DecidableEq ρ] in
theorem prevalidateMinerTransaction_constructed {b : Block}
    {weight paid blockReward : UInt64} {outAmounts : List UInt64}
    (h : ConstructedFor mc c weight b.minerTx paid blockReward outAmounts)
    (hunlock : c.minedMoneyUnlockWindow = env.minedMoneyUnlockWindow) (hheight : c.height ≠ 0)
    (hlength : c.height < 2 ^ 64)
    (hmax : c.maxOuts = if mc.hfVersionAllowRct ≤ c.version then 1 else 11) :
    prevalidateMinerTransaction env b c.height = true := by
  simp only [prevalidateMinerTransaction, h.vin]
  refine decide_eq_true ⟨?_, ?_, ?_⟩
  · rw [Nat.toUInt64, UInt64.toNat_ofNat', Nat.mod_eq_of_lt hlength]
  · rw [h.unlockTime, hunlock]
  · rw [h.amounts]
    exact checkOverflow_minerOuts h.outs hheight hmax

def chainReward (mc : MinerConfig) (s : ChainState ρ) (median weight : UInt64) : Option UInt64 :=
  getBlockReward mc.toRewardConfig median weight (topCoins s.chain) (currentVersion s)
    s.chain.length

def judgedMedian (mc : MinerConfig) (s : ChainState ρ) : UInt64 :=
  rewardMedian mc.toRewardConfig s.chain (currentVersion s) s.currentBlockCumulWeightMedian

/-- The weight of the block is the one that its reward was taken for, and both checks of the miner
transaction pass at this weight and these fees. -/
structure Template.Accepted (mc : MinerConfig) (env : ChainEnv ρ) (cumulWeightLimit : UInt64)
    (extraNonce : List UInt8) (s : ChainState ρ) (t : Template) : Prop where
  weight : ∃ weight, transactionWeight env.cfg t.block.minerTx = some weight ∧
    t.cumulativeWeight = t.txsWeight + weight
  reward : ∃ paid ∈ chainReward mc s (cumulWeightLimit / 2) t.cumulativeWeight,
    claimedReward mc (minerTxCall mc env cumulWeightLimit t.fee extraNonce s) paid =
      some (moneyInUse t.block)
  prevalidated : prevalidateMinerTransaction env t.block s.chain.length = true
  validated : (validateMinerTransaction mc.toRewardConfig s.chain t.block t.cumulativeWeight t.fee
    (topCoins s.chain) (currentVersion s) s.currentBlockCumulWeightMedian).isSome

/-- The reward at the cached limit against the one that the validation takes. -/
def ClaimCovered (mc : MinerConfig) (cumulWeightLimit : UInt64) (s : ChainState ρ)
    (weight fee : UInt64) : Prop :=
  ∃ paid ∈ chainReward mc s (cumulWeightLimit / 2) weight,
    ∃ judged ∈ chainReward mc s (judgedMedian mc s) weight,
      RewardCovered mc (currentVersion s) fee paid judged

/-- The digits that the miner leaves are not more than the reward, where he leaves any. -/
def DigitsCovered (mc : MinerConfig) (cumulWeightLimit : UInt64) (s : ChainState ρ)
    (weight fee : UInt64) : Prop :=
  currentVersion s < 2 ∨ mc.hfVersionAllowRct ≤ currentVersion s ∨
    ∀ paid ∈ chainReward mc s (cumulWeightLimit / 2) weight,
      (paid + fee) % mc.baseRewardClampThreshold ≤ paid

omit [DecidableEq ρ] in
/-- Once the cached limit is that of the chain, the medians do not matter. -/
theorem claimCovered_iff {cumulWeightLimit weight fee paid : UInt64} {s : ChainState ρ}
    (hs : Settled mc.toWeightConfig s.chain (currentVersion s) s.currentBlockCumulWeightMedian
      cumulWeightLimit)
    (hpaid : chainReward mc s (cumulWeightLimit / 2) weight = some paid) :
    ClaimCovered mc cumulWeightLimit s weight fee ↔
      DigitsCovered mc cumulWeightLimit s weight fee := by
  obtain ⟨hle, heq, hbound⟩ := hs.softMedian_le
  obtain ⟨judged, hjudged, hpaidLe⟩ := rewardAt_mono hle hbound hpaid
  have hjudged' : chainReward mc s (judgedMedian mc s) weight = some judged := hjudged
  rw [ClaimCovered, DigitsCovered, hpaid, hjudged']
  simp only [Option.mem_def, Option.some.injEq, exists_eq_left', forall_eq']
  rw [RewardCovered]
  rw [UInt64.le_iff_toNat_le] at hpaidLe
  by_cases hversion : currentVersion s < 2
  · -- at the same median the rewards are the same
    have hsame : some paid = some judged := by
      rw [← hpaid, ← hjudged]
      exact congrArg (fun median => rewardAt _ median weight) (heq hversion)
    rw [if_pos hversion]
    exact iff_of_true (Option.some.inj hsame) (Or.inl hversion)
  rw [if_neg hversion]
  by_cases hrct : currentVersion s < mc.hfVersionAllowRct
  · rw [if_pos hrct]
    constructor
    · exact fun h => Or.inr (Or.inr h.1)
    · rintro (h | h | h)
      · exact absurd h hversion
      · exact absurd hrct (UInt8.not_lt.mpr h)
      · refine ⟨h, UInt64.le_iff_toNat_le.mpr ?_⟩
        rw [UInt64.toNat_sub_of_le _ _ h]
        omega
  · rw [if_neg hrct]
    exact iff_of_true (UInt64.le_iff_toNat_le.mpr hpaidLe)
      (Or.inr (Or.inl (UInt8.not_lt.mp hrct)))

omit [DecidableEq ρ] in
/-- What is returned, with the miner transaction that was built. -/
theorem createBlockTemplate_spec {call : TemplateCall} {cumulWeightLimit now : UInt64}
    {keys : ℕ → MinerKeys} {extraNonce : List UInt8} {s : ChainState ρ} {b : Block} {t : Template}
    (h : createBlockTemplate mc env call cumulWeightLimit now keys extraNonce s b = some t) :
    s.chain ≠ [] ∧ Coinbase.Fixed env.cfg mc
      (minerTxCall mc env cumulWeightLimit t.fee extraNonce s) t.txsWeight
      ⟨t.block.minerTx, t.cumulativeWeight⟩ := by
  rw [createBlockTemplate] at h
  split_ifs at h with hnone
  obtain ⟨filled, -, h⟩ := Option.bind_eq_some_iff.mp h
  obtain ⟨txHashes, -, h⟩ := Option.bind_eq_some_iff.mp h
  obtain ⟨coinbase, hcoinbase, h⟩ := Option.bind_eq_some_iff.mp h
  obtain rfl := Option.some.inj h
  exact ⟨fun hchain => hnone (Or.inr hchain), createCoinbase_fixed hcoinbase⟩

omit [DecidableEq ρ] in
/-- A template is accepted exactly when its reward is covered, which depends on the left digits
alone while the cached limit is that of the chain. -/
theorem createBlockTemplate_accepted_iff {call : TemplateCall} {cumulWeightLimit now : UInt64}
    {keys : ℕ → MinerKeys} {extraNonce : List UInt8} {s : ChainState ρ} {b : Block} {t : Template}
    (h : createBlockTemplate mc env call cumulWeightLimit now keys extraNonce s b = some t)
    (hlength : s.chain.length < 2 ^ 64)
    (hfits : ∀ median ∈ [cumulWeightLimit / 2, judgedMedian mc s],
      ∀ reward ∈ chainReward mc s median t.cumulativeWeight,
        reward.toNat + t.fee.toNat < 2 ^ 64) :
    (t.Accepted mc env cumulWeightLimit extraNonce s ↔
        ClaimCovered mc cumulWeightLimit s t.cumulativeWeight t.fee) ∧
      (Settled mc.toWeightConfig s.chain (currentVersion s) s.currentBlockCumulWeightMedian
          cumulWeightLimit →
        (t.Accepted mc env cumulWeightLimit extraNonce s ↔
          DigitsCovered mc cumulWeightLimit s t.cumulativeWeight t.fee)) := by
  obtain ⟨hchain, hfixed⟩ := createBlockTemplate_spec h
  obtain ⟨paid, blockReward, outAmounts, hbuilt⟩ := hfixed.pays
  have hpaid : chainReward mc s (cumulWeightLimit / 2) t.cumulativeWeight = some paid :=
    hbuilt.reward_eq
  have hpaidFits := hfits _ (List.mem_cons_self ..) paid hpaid
  have hmoney : moneyInUse t.block = blockReward := by
    rw [moneyInUse, coinbaseAmounts, hbuilt.amounts, hbuilt.sum]
  have hvalidated := validateMinerTransaction_isSome_iff s.currentBlockCumulWeightMedian hbuilt rfl
    hchain rfl hpaidFits (hfits _ (List.mem_cons_of_mem _ (List.mem_cons_self ..)))
  have haccepted : t.Accepted mc env cumulWeightLimit extraNonce s ↔
      ClaimCovered mc cumulWeightLimit s t.cumulativeWeight t.fee := by
    constructor
    · exact fun ha => ⟨paid, hpaid, hvalidated.mp ha.validated⟩
    · rintro ⟨paid', hpaid', hcovered⟩
      obtain rfl := Option.some.inj (hpaid'.symm.trans hpaid)
      refine ⟨hfixed.weight, ⟨paid', hpaid, ?_⟩, ?_, hvalidated.mpr hcovered⟩
      · rw [hmoney]
        exact hbuilt.claimed
      · exact prevalidateMinerTransaction_constructed hbuilt rfl
          (fun hzero => hchain (List.length_eq_zero_iff.mp hzero)) hlength rfl
  exact ⟨haccepted, fun hs => haccepted.trans (claimCovered_iff hs hpaid)⟩

/-! ### A block with hardly any reward -/

/-- Upstream constants, with the zone of the full reward that the currency has. -/
def clampConfig : MinerConfig where
  moneySupply := 18446744073709551615
  emissionSpeedFactorPerMinute := 20
  finalSubsidyPerMinute := 300000000000
  difficultyTargetV1 := 60
  difficultyTargetV2 := 120
  hardfork1Height := 1
  blockGrantedFullRewardZoneV1 := 30000
  rewardBlocksWindow := 100
  hfVersionAllowRct := 255
  hfVersionEffectiveShortTermMedianInPenalty := 12
  longTermBlockWeightsWindow := 100000
  shortTermBlockWeightSurgeFactor := 20
  hfVersionLongTermBlockWeight := 10
  baseRewardClampThreshold := 100000000
  defaultDustThreshold := 2000000000

/-- What the heavy transaction spends. All but one coin is its fee. -/
def heavyAmounts : List UInt64 :=
  [1000000000000, 1000000000000000, 200000000000000, 30000000000000, 4000000000000, 500000000000,
    60000000000, 7000000000, 800000000, 50000000]

def heavyInputs : StdVector Txin :=
  ⟨heavyAmounts.mapIdx fun i amount =>
    .toKey amount ⟨[1, 1, 1], by simp⟩ (List.Vector.replicate 32 i.toUInt8), by simp [heavyAmounts]⟩

def heavyOutputs : StdVector TxOut :=
  ⟨[⟨1000000000000, .toKey (List.Vector.replicate 32 9)⟩], by simp⟩

def heavySignatures : StdVector (StdVector Signature) :=
  ⟨heavyAmounts.map fun _ => ⟨List.replicate 3 (List.Vector.replicate 64 0), by simp⟩,
    by simp [heavyAmounts]⟩

def heavyBytes : List UInt8 := List.replicate 57004 0

theorem length_heavyBytes : heavyBytes.length = 57004 := List.length_replicate

def heavyExtra : StdVector UInt8 := ⟨heavyBytes, by rw [length_heavyBytes]; decide⟩

/-- A transaction that fills its pool to what a block of the zone can take. -/
def heavyTx : Transaction :=
  ⟨⟨1, 0, 0, heavyInputs, heavyOutputs, heavyExtra⟩, heavySignatures, default, default⟩

theorem saveAll_saveUint8 (bytes : List UInt8) : Out.saveAll saveUint8 bytes = .emit bytes := by
  induction bytes with
  | nil => rfl
  | cons byte bytes ih =>
      have hbyte : UInt8.ofNat (byte.toNat % 256) = byte := by
        rw [Nat.mod_eq_of_lt byte.toNat_lt, UInt8.ofNat_toNat]
      rw [Out.saveAll_cons, ih, saveUint8, saveUint, leBytes, leBytes, hbyte,
        Out.emit_append_emit, List.singleton_append]

def heavyFront : Out :=
  saveVarint64 (versionWord 1 0) ++ .require (VersionKnown currentConfig 1) ++ saveVarint64 0 ++
    saveContainer saveTxin heavyInputs ++ saveContainer saveTxOut heavyOutputs ++ saveVarint64 57004

def heavyBack : Out :=
  .require (heavySignatures.toList = [] ∨ (default : BorromeanSignature).r.toList = []) ++
    saveSignatures heavyInputs heavySignatures

theorem saveTransaction_heavyTx : saveTransaction currentConfig heavyTx =
    heavyFront ++ .emit heavyBytes ++ heavyBack := by
  have hsize : heavyExtra.size = 57004 := by
    rw [StdVector.size, heavyExtra, length_heavyBytes]
    rfl
  have hextra : saveContainer saveUint8 heavyExtra =
      saveVarint64 57004 ++ .emit heavyBytes := by
    rw [saveContainer, saveAll_saveUint8, hsize, heavyExtra]
  rw [saveTransaction, if_pos (show heavyTx.version = 1 from rfl),
    if_pos (show heavyTx.minorVersion = 0 from rfl), saveTransactionPrefix, heavyFront, heavyBack]
  simp only [heavyTx, hextra, Out.append_assoc]
  rfl

theorem heavyFront_ok : heavyFront.ok = true ∧ heavyFront.bytes.length = 476 := by
  decide +kernel

theorem heavyBack_ok : heavyBack.ok = true ∧ heavyBack.bytes.length = 1920 := by
  decide +kernel

theorem transactionWeight_heavyTx : transactionWeight currentConfig heavyTx = some 59400 := by
  have hlength : (txToBlob currentConfig heavyTx).length = 59400 := by
    rw [txToBlob, saveTransaction_heavyTx, Out.append_bytes ((Out.append_ok _ _).mpr ⟨heavyFront_ok.1, rfl⟩),
      Out.append_bytes heavyFront_ok.1, List.length_append, List.length_append, heavyFront_ok.2,
      heavyBack_ok.2, Out.emit_bytes, length_heavyBytes]
  rw [transactionWeight, hlength]
  rfl

theorem parse_heavyTx (ops : CryptoOps) : ∃ tx, tx.vin = heavyInputs ∧
    parseAndValidateTxFromBlob ops currentConfig (txToBlob currentConfig heavyTx) = some tx := by
  have hok : (saveTransaction currentConfig heavyTx).ok = true := by
    rw [saveTransaction_heavyTx, Out.append_ok, Out.append_ok]
    exact ⟨⟨heavyFront_ok.1, rfl⟩, heavyBack_ok.1⟩
  refine ⟨heavyTx.kept.serialised, rfl, ?_⟩
  rw [parseAndValidateTxFromBlob, txToBlob,
    deserialize_of_readsBack (readsBack_transaction currentConfig heavyTx) hok]
  rfl

def heavyId : Hash := hashOfNat 0x1835071de89f4b061471a82c544e62c583a9aadb335e584f02cf383d7a9c2a00

def heavyInfo : TxpoolMeta :=
  ⟨nullHash, nullHash, 59400, 1234567850000000, 0, 0, 1540000000, 1540000000, false, true, false,
    false⟩

def heavyPool : Pool (ℕ × ℕ) :=
  { Pool.empty (ℕ × ℕ) 648000000 with
    txpool := ⟨[⟨heavyId, heavyInfo, txToBlob currentConfig heavyTx⟩], by simp⟩
    sorted := [⟨(1234567850000000, 59400), 1540000000, heavyId⟩]
    txpoolWeight := 59400 }

/-- A node at version 9, with one block and a pool. The reward is that of the tail. -/
def clampState (p : Pool (ℕ × ℕ)) : ChainState (ℕ × ℕ) :=
  { plainState [⟨9, 0, 0, 1, 0⟩]
      [{ plainMain genesisBlock 1 with coinsGenerated := 18400000000000000000 }] with
    txPool := p
    currentBlockCumulWeightMedian := 30000 }

def clampCall : TemplateCall where
  ops := hashedOps [genesisBlock]
  cfg := currentConfig
  rewards := clampConfig.toRewardConfig
  hfVersionFixedRingSize := 11
  nofakeTxsPercent := 10
  coinbaseBlobReservedSize := 600
  acceptThreshold := id
  view := ⟨1, fun _ => nullHash, fun _ _ used => (some true, used), fun _ => false, fun _ => 10,
    fun _ _ _ => []⟩
  medianWeight := 0
  alreadyGeneratedCoins := 0
  version := 0
  height := 0

def clampKeys : MinerKeys :=
  ⟨List.Vector.replicate 32 1, fun no => some (List.Vector.replicate 32 no.toUInt8)⟩

def clampEnv : ChainEnv (ℕ × ℕ) := plainEnv [genesisBlock] []

def clampTemplate (p : Pool (ℕ × ℕ)) (nonceLength : ℕ) : Option Template :=
  createBlockTemplate clampConfig clampEnv clampCall 60000 1540000000 (fun _ => clampKeys)
    (List.replicate nonceLength 0) (clampState p)
    ⟨⟨0, 0, 0, nullHash, 0⟩, emptyTransaction, .nil⟩

theorem settled_clampState (p : Pool (ℕ × ℕ)) :
    Settled clampConfig.toWeightConfig (clampState p).chain (currentVersion (clampState p))
      (clampState p).currentBlockCumulWeightMedian 60000 where
  updated := ⟨{ WeightState.initial clampConfig.toWeightConfig 9 (fun _ => 0) with
      rows := [⟨⟨genesisBlock.id, nullHash, 9, 85⟩, 85⟩] }, _, rfl, rfl, rfl, rfl, rfl⟩
  longTerm := by decide
  zone := by decide
  bounded := by
    show (median [85]).toNat < 2 ^ 32 - 1
    decide

/-- The call of `fill_block_template` on the state, whatever the pool is. -/
def heavyCall : TemplateCall :=
  templateCall clampConfig clampCall 60000 (clampState (.empty (ℕ × ℕ) 648000000))

theorem ready_heavyInfo {blob : List UInt8} {tx : Transaction}
    (hparse : parseAndValidateTxFromBlob heavyCall.ops heavyCall.cfg blob = some tx) :
    isTransactionReadyToGo heavyCall heavyInfo heavyId blob = (some tx, heavyInfo) := by
  have hchecked : heavyCall.view.checkTxInputs heavyId blob
      (heavyInfo.maxUsedBlockHeight, heavyInfo.maxUsedBlockId) = (some true, (0, nullHash)) := rfl
  rw [isTransactionReadyToGo, if_pos (show heavyInfo.maxUsedBlockId = nullHash from rfl),
    if_neg (fun h => h.1 rfl), checkReadyInputs, hchecked]
  simp only [hparse]
  rfl

theorem checkFront_heavyInfo (txpool : Txpool) :
    checkFront heavyCall false heavyInfo (startFilling heavyCall txpool) =
      .ok { startFilling heavyCall txpool with coinbase := 1234591610000000 } := by
  have hweight : (startFilling heavyCall txpool).totalWeight + heavyInfo.weight = 59400 := by
    show (0 : UInt64) + 59400 = 59400
    decide
  have hreward : rewardFor heavyCall 59400 = some 23760000000 := by decide
  have hbest : heavyCall.acceptThreshold (startFilling heavyCall txpool).bestCoinbase =
      600000000000 := by
    show (rewardFor heavyCall 0).getD 0 = _
    decide
  have hsum : (23760000000 : UInt64) + (startFilling heavyCall txpool).fee + heavyInfo.fee =
      1234591610000000 := by
    show (23760000000 : UInt64) + 0 + 1234567850000000 = _
    decide
  have hmax : maxTotalWeight heavyCall = 59400 := by decide
  rw [checkFront, hweight, hmax, if_neg (by decide), if_pos (by decide), if_neg (by simp),
    hreward]
  simp only [hsum, hbest]
  rw [if_neg (by decide)]

theorem checkRings_heavyInputs (st : Filling) :
    checkRings heavyCall false heavyInfo heavyInputs.toList st = .ok (.pushed, st) := by
  have hmixing : mixingOf heavyCall.view.numOutputs heavyInputs.toList = ⟨0, 10, 2⟩ := by
    decide
  have hversion : 2 ≤ heavyCall.version := by decide
  obtain ⟨first, rest, hinputs⟩ : ∃ first rest, heavyInputs.toList = first :: rest := ⟨_, _, rfl⟩
  rw [hinputs] at hmixing ⊢
  rw [checkRings.eq_def]
  simp only [hmixing, if_pos hversion]
  rfl

theorem fill_heavyInfo {p : Pool (ℕ × ℕ)} {blob : List UInt8} {tx : Transaction}
    (hsorted : sortedIds p = [heavyId]) (hfind : p.txpool.find heavyId = some ⟨heavyId, heavyInfo, blob⟩)
    (hparse : parseAndValidateTxFromBlob heavyCall.ops heavyCall.cfg blob = some tx)
    (hvin : tx.vin = heavyInputs) :
    ∃ filled, fillBlockTemplate heavyCall p = some filled ∧
      filled.txHashes = [heavyId] ∧ filled.totalWeight = 59400 ∧
      filled.fee = 1234567850000000 := by
  have hfind' : (startFilling heavyCall p.txpool).txpool.find heavyId =
      some ⟨heavyId, heavyInfo, blob⟩ := hfind
  have hdecide : decideTx heavyCall false heavyId (startFilling heavyCall p.txpool) =
      .takes .pushed heavyInputs.toList heavyInfo
        ({ startFilling heavyCall p.txpool with coinbase := 1234591610000000 }.update
          heavyId heavyInfo) := by
    simp only [decideTx, hfind', checkFront_heavyInfo, ready_heavyInfo hparse, Option.map_some,
      Option.getD_some, hvin, checkRings_heavyInputs]
    rfl
  rw [fillBlockTemplate, hsorted, fillPass, fillStep, hdecide]
  refine ⟨_, rfl, rfl, ?_, ?_⟩
  · show (0 : UInt64) + 59400 = 59400
    decide
  · show (0 : UInt64) + 1234567850000000 = 1234567850000000
    decide

theorem fill_heavyPool : ∃ filled, fillBlockTemplate heavyCall heavyPool = some filled ∧
    filled.txHashes = [heavyId] ∧ filled.totalWeight = 59400 ∧
    filled.fee = 1234567850000000 := by
  obtain ⟨tx, hvin, hparse⟩ := parse_heavyTx heavyCall.ops
  apply fill_heavyInfo rfl _ hparse hvin
  exact List.find?_cons_of_pos (by simp)

def heavyCoinbase (nonceLength : ℕ) : Option (UInt64 × List UInt64) :=
  (createCoinbase currentConfig clampConfig (minerTxCall clampConfig clampEnv 60000
      1234567850000000 (List.replicate nonceLength 0) (clampState (.empty (ℕ × ℕ) 648000000)))
      (fun _ => clampKeys) 59400 emptyTransaction).map
    fun r => (r.cumulativeWeight, r.tx.vout.toList.map TxOut.amount)

theorem heavyCoinbase_longNonce : heavyCoinbase 243 =
    some (59999, [800000000, 7000000000, 60000000000, 500000000000, 4000000000000, 30000000000000,
      200000000000000, 1000000000000000]) := by
  decide +kernel

theorem heavyCoinbase_shortNonce : heavyCoinbase 10 =
    some (59766, [100000000, 7000000000, 70000000000, 500000000000, 4000000000000, 30000000000000,
      200000000000000, 1000000000000000]) := by
  decide +kernel

/-- A template with the heavy transaction, whatever else the pool holds. -/
theorem clampTemplate_of_fill {p : Pool (ℕ × ℕ)} {filled : Filling} {nonceLength : ℕ}
    {weight : UInt64} {amounts : List UInt64}
    (hfill : fillBlockTemplate heavyCall p = some filled) (hhashes : filled.txHashes = [heavyId])
    (hweight : filled.totalWeight = 59400) (hfee : filled.fee = 1234567850000000)
    (hcoinbase : heavyCoinbase nonceLength = some (weight, amounts)) :
    ∃ t, clampTemplate p nonceLength = some t ∧ t.fee = 1234567850000000 ∧
      t.cumulativeWeight = weight ∧ coinbaseAmounts t.block = amounts := by
  obtain ⟨coinbase, hcoinbase, hresult⟩ := Option.map_eq_some_iff.mp hcoinbase
  obtain ⟨hcumulative, hamounts⟩ := Prod.mk.inj hresult
  have hdiffic : ¬ (currentDiffic clampEnv (clampState (.empty (ℕ × ℕ) 648000000)) = 0 ∨
      (clampState (.empty (ℕ × ℕ) 648000000)).chain = []) := by
    decide
  have hdiffic' : ¬ (currentDiffic clampEnv (clampState p) = 0 ∨ (clampState p).chain = []) :=
    hdiffic
  have hfill' : fillBlockTemplate (templateCall clampConfig clampCall 60000 (clampState p))
      (clampState p).txPool = some filled := hfill
  have hcoinbase' : createCoinbase clampEnv.cfg clampConfig (minerTxCall clampConfig clampEnv 60000
      1234567850000000 (List.replicate nonceLength 0) (clampState p)) (fun _ => clampKeys) 59400
      emptyTransaction = some coinbase := hcoinbase
  have hlist : StdVector.ofList? [heavyId] = some ⟨[heavyId], by simp⟩ := rfl
  rw [clampTemplate, createBlockTemplate, if_neg hdiffic', hfill']
  simp only [Option.bind_eq_bind, Option.bind_some, hhashes, hlist, hweight, hfee, hcoinbase']
  exact ⟨_, rfl, rfl, hcumulative, hamounts⟩

theorem chainReward_clampState (p : Pool (ℕ × ℕ)) {weight reward : UInt64}
    (h : weight = 59999 ∧ reward = 39999333 ∨ weight = 59766 ∧ reward = 9323496000) :
    ∀ median ∈ [30000, judgedMedian clampConfig (clampState p)],
      chainReward clampConfig (clampState p) median weight = some reward := by
  have hreward : ∀ median ∈ [30000, judgedMedian clampConfig
      (clampState (.empty (ℕ × ℕ) 648000000))], chainReward clampConfig
        (clampState (.empty (ℕ × ℕ) 648000000)) median weight = some reward := by
    rw [List.forall_mem_cons, List.forall_mem_singleton]
    rcases h with ⟨rfl, rfl⟩ | ⟨rfl, rfl⟩
    · decide
    · decide
  exact hreward

/-- Of the fees and a reward of 39999333 the miner leaves the low 89999333, more than the reward.
Then the validation does not accept the claim. -/
theorem heavyTemplate_not_accepted :
    transactionWeight currentConfig heavyTx = some heavyInfo.weight ∧
      ∃ t, clampTemplate heavyPool 243 = some t ∧
        Settled clampConfig.toWeightConfig (clampState heavyPool).chain
          (currentVersion (clampState heavyPool))
          (clampState heavyPool).currentBlockCumulWeightMedian 60000 ∧
        (∀ median ∈ [30000, judgedMedian clampConfig (clampState heavyPool)],
          ∀ reward ∈ chainReward clampConfig (clampState heavyPool) median t.cumulativeWeight,
            reward.toNat + t.fee.toNat < 2 ^ 64) ∧
        ¬ t.Accepted clampConfig clampEnv 60000 (List.replicate 243 0) (clampState heavyPool) := by
  obtain ⟨filled, hfill, hhashes, hweight, hfee⟩ := fill_heavyPool
  obtain ⟨t, ht, hfee', hcumulative, hamounts⟩ :=
    clampTemplate_of_fill hfill hhashes hweight hfee heavyCoinbase_longNonce
  have hreward := @chainReward_clampState heavyPool _ _ (.inl ⟨rfl, rfl⟩)
  refine ⟨transactionWeight_heavyTx, t, ht, settled_clampState heavyPool, ?_, fun haccepted => ?_⟩
  · intro median hmedian reward hpaid
    rw [hcumulative, hreward median hmedian] at hpaid
    rw [← Option.some.inj hpaid, hfee']
    decide
  · -- the base reward would be below nothing
    obtain ⟨base, hbase⟩ := Option.isSome_iff_exists.mp haccepted.validated
    obtain ⟨reward, hpaid, hspec⟩ := validateMinerTransaction_spec _ hbase
    have hjudged := hreward _ (List.mem_cons_of_mem _ (List.mem_cons_self ..))
    rw [hcumulative] at hpaid
    obtain rfl := Option.some.inj (hpaid.symm.trans hjudged)
    have hmoney : (moneyInUse t.block).toNat = 1234567800000000 := by
      rw [moneyInUse, hamounts]
      decide
    rw [hfee', hmoney] at hspec
    have hsum := (hspec (by decide)).1
    rw [show (1234567850000000 : UInt64).toNat = 1234567850000000 from rfl] at hsum
    omega

/-- With a nonce of 10 bytes the reward is 9323496000, and 73496000 are left. -/
theorem createBlockTemplate_accepted_iff_heavy :
    ∃ t, clampTemplate heavyPool 10 = some t ∧ t.fee = 1234567850000000 ∧
      t.Accepted clampConfig clampEnv 60000 (List.replicate 10 0) (clampState heavyPool) := by
  obtain ⟨filled, hfill, hhashes, hweight, hfee⟩ := fill_heavyPool
  obtain ⟨t, ht, hfee', hcumulative, -⟩ :=
    clampTemplate_of_fill hfill hhashes hweight hfee heavyCoinbase_shortNonce
  have hreward := @chainReward_clampState heavyPool _ _ (.inr ⟨rfl, rfl⟩)
  have hiff := createBlockTemplate_accepted_iff ht (by decide) (fun median hmedian reward h => by
    rw [hcumulative, hreward median hmedian] at h
    rw [← Option.some.inj h, hfee']
    decide)
  refine ⟨t, ht, hfee', (hiff.2 (settled_clampState _)).mpr (Or.inr (Or.inr ?_))⟩
  intro paid hpaid
  rw [hcumulative] at hpaid
  obtain rfl := Option.some.inj (hpaid.symm.trans (hreward 30000 (List.mem_cons_self ..)))
  rw [hfee']
  decide

end XrCoin.Blockchain

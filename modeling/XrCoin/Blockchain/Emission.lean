import XrCoin.Blockchain.SwitchForks

/-!
The coins that a chain has made: `get_block_reward`, `validate_miner_transaction`, and the
account of the coins that `handle_block_to_main_chain` keeps under the cap.

The assertions of `get_block_reward` are not compiled in. The constants of the currency are
parameters.
-/

namespace XrCoin.Blockchain

open Archive Cryptonote Forks TxPool

structure RewardConfig where
  moneySupply : UInt64
  emissionSpeedFactorPerMinute : ℕ
  finalSubsidyPerMinute : UInt64
  difficultyTargetV1 : ℕ
  difficultyTargetV2 : ℕ
  hardfork1Height : ℕ
  /-- `CRYPTONOTE_BLOCK_GRANTED_FULL_REWARD_ZONE_V1`. -/
  blockGrantedFullRewardZoneV1 : UInt64
  /-- `CRYPTONOTE_REWARD_BLOCKS_WINDOW`. -/
  rewardBlocksWindow : ℕ
  hfVersionAllowRct : UInt8
  hfVersionEffectiveShortTermMedianInPenalty : UInt8

variable (rc : RewardConfig)

/-! ### The reward -/

def getMinBlockWeight (version : UInt8) : UInt64 :=
  if version = 255 then 60000 else rc.blockGrantedFullRewardZoneV1

def targetMinutes (version : UInt8) (height : ℕ) : ℕ :=
  (if version < 2 ∧ height < rc.hardfork1Height then rc.difficultyTargetV1
    else rc.difficultyTargetV2) / 60

/-- The reward of a block that is not too heavy. -/
def baseReward (alreadyGeneratedCoins : UInt64) (version : UInt8) (height : ℕ) : UInt64 :=
  let minutes := targetMinutes rc version height
  let emissionSpeedFactor := rc.emissionSpeedFactorPerMinute - Nat.log2 minutes
  let base := (rc.moneySupply - alreadyGeneratedCoins) >>> emissionSpeedFactor.toUInt64
  let finalSubsidy := rc.finalSubsidyPerMinute * minutes.toUInt64
  if base < finalSubsidy then finalSubsidy else base

/-- The reward of a block above the median: the product has 128 bits, it is divided twice by
the low 32 bits of the median, and the low 64 bits are left. A division by zero traps. -/
def penalizedReward (base medianWeight currentBlockWeight : UInt64) : Option UInt64 :=
  let multiplicand := (2 * medianWeight - currentBlockWeight) * currentBlockWeight
  let divisor := medianWeight.toUInt32.toNat
  if divisor = 0 then none
  else some (base.toNat * multiplicand.toNat / divisor / divisor).toUInt64

def getBlockReward (medianWeight currentBlockWeight alreadyGeneratedCoins : UInt64)
    (version : UInt8) (height : ℕ) : Option UInt64 :=
  let base := baseReward rc alreadyGeneratedCoins version height
  let fullRewardZone := getMinBlockWeight rc version
  let medianWeight := if medianWeight < fullRewardZone then fullRewardZone else medianWeight
  if currentBlockWeight ≤ medianWeight then some base
  else if 2 * medianWeight < currentBlockWeight then none
  else penalizedReward base medianWeight currentBlockWeight

/-! ### The miner transaction -/

def validDecomposedOutputs : List UInt64 :=
  ((List.range 19).flatMap fun digits =>
    (List.range' 1 9).map fun digit => (digit * 10 ^ digits).toUInt64) ++ [10000000000000000000]

def isValidDecomposedAmount (amount : UInt64) : Bool := amount ∈ validDecomposedOutputs

def getLastNBlocksWeights (chain : List MainBlock) (count : ℕ) : List UInt64 :=
  (chain.drop (chain.length - min chain.length count)).map MainBlock.blockWeight

def rewardMedian (chain : List MainBlock) (version : UInt8) (cumulWeightMedian : UInt64) :
    UInt64 :=
  if rc.hfVersionEffectiveShortTermMedianInPenalty ≤ version then cumulWeightMedian
  else median (getLastNBlocksWeights chain rc.rewardBlocksWindow)

def coinbaseAmounts (b : Block) : List UInt64 := b.minerTx.vout.toList.map TxOut.amount

def moneyInUse (b : Block) : UInt64 := (coinbaseAmounts b).foldl (· + ·) 0

/-- `validate_miner_transaction`, with the base reward that it leaves. From version 2 on that
is what the miner has claimed. -/
def validateMinerTransaction (chain : List MainBlock) (b : Block)
    (cumulativeBlockWeight fee alreadyGeneratedCoins : UInt64) (version : UInt8)
    (cumulWeightMedian : UInt64) : Option UInt64 :=
  if 3 ≤ version ∧ version < rc.hfVersionAllowRct ∧
      (coinbaseAmounts b).all isValidDecomposedAmount = false then none
  else
    (getBlockReward rc (rewardMedian rc chain version cumulWeightMedian) cumulativeBlockWeight
        alreadyGeneratedCoins version chain.length).bind fun base =>
      if base + fee < moneyInUse b then none
      else if version < 2 then
        if base + fee ≠ moneyInUse b then none else some base
      else if base < moneyInUse b - fee then none
      else some (moneyInUse b - fee)

variable {ρ : Type} [DecidableEq ρ] (env : ChainEnv ρ)

def ChainEnv.withRewards : ChainEnv ρ :=
  { env with
    moneySupply := rc.moneySupply
    validateMinerTransaction := Blockchain.validateMinerTransaction rc }

/-! ### The account -/

def takenFees (ops : CryptoOps) (cfg : Config) : List Hash → Pool ρ → ℕ
  | [], _ => 0
  | txId :: txIds, p =>
      match takeTx ops cfg txId p with
      | (none, _) => 0
      | (some taken, p) => taken.fee.toNat + takenFees ops cfg txIds p

def topCoins (chain : List MainBlock) : UInt64 :=
  (chain.getLast?.map MainBlock.coinsGenerated).getD 0

structure AcceptedBlock where
  main : MainBlock
  version : UInt8
  fees : ℕ
  reward : ℕ

def AcceptedBlock.coinbase (a : AcceptedBlock) : ℕ :=
  ((coinbaseAmounts a.main.block).map UInt64.toNat).sum

def AcceptedBlock.generated (a : AcceptedBlock) : ℤ := a.coinbase - a.fees

/-- The block that was put on the chain of a state, with the fees that its transactions had
in the pool and the reward that `get_block_reward` gave. -/
def acceptedOn (s : ChainState ρ) (e : MainBlock) : AcceptedBlock where
  main := e
  version := currentVersion s
  fees := takenFees env.ops env.cfg e.block.txHashes.toList s.txPool
  reward := ((getBlockReward rc
    (rewardMedian rc s.chain (currentVersion s) s.currentBlockCumulWeightMedian) e.blockWeight
    (topCoins s.chain) (currentVersion s) s.chain.length).map UInt64.toNat).getD 0

/-- The chains of blocks that `handle_block_to_main_chain` accepted, one on the other. Next
to the chain the states are arbitrary. The fees and the reward of a block fit into 64
bits. -/
inductive Accepted : List AcceptedBlock → Prop
  | nil : Accepted []
  | block {accepted : List AcceptedBlock} {s s' : ChainState ρ} {b : Block} {e : MainBlock}
      (before : Accepted accepted) (on : s.chain = accepted.map AcceptedBlock.main)
      (added : handleBlockToMainChain (env.withRewards rc) b s = (true, s'))
      (top : s'.chain = s.chain ++ [e])
      (fits : (acceptedOn rc env s e).fees + (acceptedOn rc env s e).reward < 2 ^ 64) :
      Accepted (accepted ++ [acceptedOn rc env s e])

/-! ### One block -/

theorem foldl_amounts_of_checkOverflow {amounts : List UInt64} {money : UInt64}
    (h : Core.checkOverflow money amounts = true) :
    (amounts.foldl (· + ·) money).toNat = money.toNat + (amounts.map UInt64.toNat).sum := by
  induction amounts generalizing money with
  | nil => rfl
  | cons amount amounts ih =>
      rw [Core.checkOverflow] at h
      split at h
      · exact absurd h (by simp)
      · rename_i hwraps
        -- the sum did not get smaller, so nothing was carried out
        have hsum : (money + amount).toNat = money.toNat + amount.toNat := by
          rw [UInt64.lt_iff_toNat_lt, UInt64.toNat_add] at hwraps
          rw [UInt64.toNat_add]
          have hmoney := money.toNat_lt
          have hamount := amount.toNat_lt
          omega
        rw [List.foldl_cons, ih h, hsum, List.map_cons, List.sum_cons, Nat.add_assoc]

omit [DecidableEq ρ] in
/-- The outputs of a miner transaction that is prevalidated do not wrap. -/
theorem toNat_moneyInUse {b : Block} {height : ℕ}
    (h : prevalidateMinerTransaction env b height = true) :
    (moneyInUse b).toNat = ((coinbaseAmounts b).map UInt64.toNat).sum := by
  rw [prevalidateMinerTransaction] at h
  split at h
  · have hoverflow := (of_decide_eq_true h).2.2
    rw [moneyInUse, coinbaseAmounts, foldl_amounts_of_checkOverflow hoverflow]
    exact Nat.zero_add _
  · exact absurd h (by simp)

theorem validateMinerTransaction_spec {chain : List MainBlock} {b : Block}
    {weight fee coins cumulWeightMedian base : UInt64} {version : UInt8}
    (h : validateMinerTransaction rc chain b weight fee coins version cumulWeightMedian = some base) :
    ∃ reward, getBlockReward rc (rewardMedian rc chain version cumulWeightMedian) weight coins
        version chain.length = some reward ∧
      (fee.toNat + reward.toNat < 2 ^ 64 →
        base.toNat + fee.toNat = (moneyInUse b).toNat ∧ base.toNat ≤ reward.toNat) := by
  rw [validateMinerTransaction] at h
  split at h
  · exact absurd h (by simp)
  obtain ⟨reward, hreward, h⟩ := Option.bind_eq_some_iff.mp h
  refine ⟨reward, hreward, fun hfits => ?_⟩
  have hsum : (reward + fee).toNat = reward.toNat + fee.toNat := by
    rw [UInt64.toNat_add]
    omega
  split at h
  · exact absurd h (by simp)
  rename_i hclaimed
  rw [UInt64.lt_iff_toNat_lt, hsum] at hclaimed
  split at h
  · -- the whole reward is claimed
    split at h
    · exact absurd h (by simp)
    · rename_i hall
      obtain rfl := Option.some.inj h
      rw [← not_not.mp hall, hsum]
      exact ⟨rfl, le_rfl⟩
  · split at h
    · exact absurd h (by simp)
    · -- a claim below the fees wraps far above the reward
      rename_i hbase
      obtain rfl := Option.some.inj h
      rw [UInt64.lt_iff_toNat_lt] at hbase
      have hmoney := (moneyInUse b).toNat_lt
      rw [UInt64.toNat_sub] at hbase ⊢
      omega

omit [DecidableEq ρ] in
theorem feeSummary_collectTxs {s : ChainState ρ} {fast : Bool} (txIds : List Hash) (txIndex : ℕ)
    {acc acc' : Collected} {p p' : Pool ρ}
    (h : collectTxs env s fast txIds txIndex acc p = (none, acc', p')) :
    acc'.feeSummary.toNat = (acc.feeSummary.toNat + takenFees env.ops env.cfg txIds p) % 2 ^ 64 := by
  induction txIds generalizing txIndex acc p with
  | nil =>
      rw [collectTxs] at h
      obtain rfl : acc = acc' := congrArg (fun r => r.2.1) h
      exact (Nat.mod_eq_of_lt acc.feeSummary.toNat_lt).symm
  | cons txId txIds ih =>
      rw [collectTxs] at h
      split at h
      · exact absurd (congrArg Prod.fst h) (by simp)
      rw [takenFees]
      rcases htake : takeTx env.ops env.cfg txId p with ⟨_ | taken, taking⟩
      · rw [htake] at h
        exact absurd (congrArg Prod.fst h) (by simp)
      · rw [htake] at h
        simp only at h ⊢
        split at h
        · exact absurd (congrArg Prod.fst h) (by simp)
        · rw [ih _ h, UInt64.toNat_add]
          omega

omit [DecidableEq ρ] in
theorem toNat_addCoins {coins base : UInt64} (h : coins ≤ env.moneySupply) :
    (addCoins env coins base).toNat = min env.moneySupply.toNat (coins.toNat + base.toNat) := by
  rw [UInt64.le_iff_toNat_le] at h
  have hsupply := env.moneySupply.toNat_lt
  have hleft : (env.moneySupply - coins).toNat = env.moneySupply.toNat - coins.toNat :=
    UInt64.toNat_sub_of_le _ _ h
  rw [addCoins]
  split
  · rename_i hbelow
    rw [UInt64.lt_iff_toNat_lt, hleft] at hbelow
    rw [UInt64.toNat_add]
    omega
  · rename_i hbelow
    rw [UInt64.lt_iff_toNat_lt, hleft] at hbelow
    omega

omit [DecidableEq ρ] in
theorem completeBlock_coins {s : ChainState ρ} {b : Block} {acc : Collected} {e : MainBlock}
    (h : completeBlock env s b acc = some e) :
    e.blockWeight = acc.cumulativeBlockWeight ∧ ∃ base,
      env.validateMinerTransaction s.chain b acc.cumulativeBlockWeight acc.feeSummary
        (topCoins s.chain) (currentVersion s) s.currentBlockCumulWeightMedian = some base ∧
      e.coinsGenerated = addCoins env (topCoins s.chain) base := by
  obtain ⟨base, hbase, h⟩ := Option.bind_eq_some_iff.mp h
  split at h
  · exact absurd h (by simp)
  · split at h
    · exact absurd h (by simp)
    · obtain rfl := Option.some.inj h
      exact ⟨rfl, base, hbase, rfl⟩

/-- A block is paid at least its fees and at most the reward on top of them, and the
difference goes to the coins up to the cap. -/
theorem acceptedOn_spec {s s' : ChainState ρ} {b : Block} {e : MainBlock}
    (hadded : handleBlockToMainChain (env.withRewards rc) b s = (true, s'))
    (htop : s'.chain = s.chain ++ [e])
    (hfits : (acceptedOn rc env s e).fees + (acceptedOn rc env s e).reward < 2 ^ 64)
    (hcoins : topCoins s.chain ≤ rc.moneySupply) :
    (acceptedOn rc env s e).fees ≤ (acceptedOn rc env s e).coinbase ∧
      (acceptedOn rc env s e).coinbase ≤
        (acceptedOn rc env s e).reward + (acceptedOn rc env s e).fees ∧
      (e.coinsGenerated.toNat : ℤ) = min (rc.moneySupply.toNat : ℤ)
        ((topCoins s.chain).toNat + (acceptedOn rc env s e).generated) := by
  rcases handleBlockToMainChain_cases (env.withRewards rc) b s with
    ⟨p, l, t, i, hrefused, -⟩ | ⟨fast, acc, p, e', hheader, hcollected, hcomplete, hstored⟩
  · rw [hrefused] at hadded
    exact absurd (congrArg Prod.fst hadded) (by simp)
  rw [hstored] at hadded
  obtain rfl : e' = e := by
    rw [← (Prod.mk.inj hadded).2, storeBlock] at htop
    exact List.singleton_inj.mp (List.append_cancel_left htop)
  obtain ⟨hweight, base, hbase, hgenerated⟩ := completeBlock_coins _ hcomplete
  obtain ⟨reward, hreward, hclaimed⟩ := validateMinerTransaction_spec rc hbase
  have hblock := (completeBlock_eq _ hcomplete).1
  have hmoney := toNat_moneyInUse _ ((checkHeader_eq_some _).mp hheader).2.2.2.2.2.2
  have hfees : acc.feeSummary.toNat =
      (0 + takenFees env.ops env.cfg b.txHashes.toList s.txPool) % 2 ^ 64 :=
    feeSummary_collectTxs _ _ _ hcollected
  rw [← hweight] at hreward
  have hrewards : (acceptedOn rc env s e').reward = reward.toNat := by
    rw [acceptedOn]
    exact congrArg (fun r => (r.map UInt64.toNat).getD 0) hreward
  have htaken : (acceptedOn rc env s e').fees = acc.feeSummary.toNat := by
    have hown : (acceptedOn rc env s e').fees =
        takenFees env.ops env.cfg b.txHashes.toList s.txPool := by
      rw [acceptedOn, hblock]
    omega
  have hcoinbase : (acceptedOn rc env s e').coinbase = (moneyInUse b).toNat := by
    rw [hmoney, AcceptedBlock.coinbase, acceptedOn, hblock]
  rw [hrewards, htaken] at hfits
  obtain ⟨hsum, hle⟩ := hclaimed hfits
  have hcap : (addCoins (env.withRewards rc) (topCoins s.chain) base).toNat =
      min rc.moneySupply.toNat ((topCoins s.chain).toNat + base.toNat) :=
    toNat_addCoins (env.withRewards rc) hcoins
  rw [AcceptedBlock.generated, hrewards, htaken, hcoinbase, hgenerated]
  refine ⟨by omega, by omega, ?_⟩
  have hsame : topCoins ({ s with txPool := p, blocksTxsCheck := [] } : ChainState ρ).chain =
    topCoins s.chain := rfl
  rw [hsame]
  omega

/-! ### A whole chain -/

variable {rc env}

@[simp] theorem topCoins_concat (chain : List MainBlock) (e : MainBlock) :
    topCoins (chain ++ [e]) = e.coinsGenerated := by
  rw [topCoins, List.getLast?_concat]
  rfl

theorem Accepted.of_prefix {accepted done : List AcceptedBlock} (h : Accepted rc env accepted)
    (hdone : done <+: accepted) : Accepted rc env done := by
  induction h with
  | nil =>
      rw [List.prefix_nil.mp hdone]
      exact .nil
  | block before on added top fits ih =>
      rcases List.prefix_concat_iff.mp hdone with rfl | hdone
      · exact .block before on added top fits
      · exact ih hdone

/-- The coins of the top block, and what each block was paid. -/
theorem Accepted.account {accepted : List AcceptedBlock} (h : Accepted rc env accepted) :
    ((topCoins (accepted.map AcceptedBlock.main)).toNat : ℤ) =
        min (rc.moneySupply.toNat : ℤ) (accepted.map AcceptedBlock.generated).sum ∧
      ∀ a ∈ accepted, a.fees ≤ a.coinbase ∧ a.coinbase ≤ a.reward + a.fees := by
  induction h with
  | nil =>
      constructor
      · exact (min_eq_right (Int.natCast_nonneg _)).symm
      · intro a ha
        exact absurd ha (by simp)
  | @block accepted s s' b e before on added top fits ih =>
      obtain ⟨hcoins, hpaid⟩ := ih
      have hcap : topCoins s.chain ≤ rc.moneySupply := by
        rw [UInt64.le_iff_toNat_le, on]
        omega
      obtain ⟨hfees, hreward, hadded⟩ := acceptedOn_spec rc env added top fits hcap
      constructor
      · -- the cap below the block does not matter under the cap above it
        have hmain : (acceptedOn rc env s e).main = e := rfl
        have hgenerated : 0 ≤ (acceptedOn rc env s e).generated := by
          rw [AcceptedBlock.generated]
          omega
        rw [on] at hadded
        rw [List.map_append, List.map_singleton, topCoins_concat, hmain, List.map_append,
          List.map_singleton, List.sum_append, List.sum_singleton]
        omega
      · rw [List.forall_mem_append, List.forall_mem_singleton]
        exact ⟨hpaid, hfees, hreward⟩

theorem Accepted.coins_eq {accepted : List AcceptedBlock} (h : Accepted rc env accepted) {n : ℕ}
    (hn : n < accepted.length) :
    (accepted[n].main.coinsGenerated.toNat : ℤ) = min (rc.moneySupply.toNat : ℤ)
      ((accepted.take (n + 1)).map AcceptedBlock.generated).sum := by
  have hcoins := (h.of_prefix (List.take_prefix (n + 1) accepted)).account.1
  rw [← hcoins, ← List.take_concat_get' accepted n hn, List.map_append, List.map_singleton,
    topCoins_concat]

/-- The stored coins of an accepted chain do not decrease, stay within the money supply and
are what the miners have claimed above the fees, up to the money supply. -/
theorem emission_accounted {accepted : List AcceptedBlock} (h : Accepted rc env accepted) :
    (∀ n, (hn : n + 1 < accepted.length) →
        accepted[n].main.coinsGenerated ≤ accepted[n + 1].main.coinsGenerated) ∧
      (∀ n, (hn : n < accepted.length) → accepted[n].main.coinsGenerated ≤ rc.moneySupply ∧
        (accepted[n].main.coinsGenerated.toNat : ℤ) = min (rc.moneySupply.toNat : ℤ)
          ((accepted.take (n + 1)).map AcceptedBlock.generated).sum) ∧
      ∀ a ∈ accepted, (2 ≤ a.version → a.fees ≤ a.coinbase) ∧
        a.coinbase ≤ a.reward + a.fees := by
  have hpaid := h.account.2
  refine ⟨fun n hn => ?_, fun n hn => ⟨?_, h.coins_eq hn⟩, fun a ha => ?_⟩
  · have hlower := h.coins_eq (Nat.lt_of_succ_lt hn)
    have hupper := h.coins_eq hn
    have hfees := (hpaid accepted[n + 1] (List.getElem_mem hn)).1
    rw [← List.take_concat_get' accepted (n + 1) hn, List.map_append, List.map_singleton,
      List.sum_append, List.sum_singleton, AcceptedBlock.generated] at hupper
    rw [UInt64.le_iff_toNat_le]
    omega
  · have hcoins := h.coins_eq hn
    rw [UInt64.le_iff_toNat_le]
    omega
  · exact ⟨fun _ => (hpaid a ha).1, (hpaid a ha).2⟩

/-! ### Three blocks, the last with a payment -/

def paidBlock (height timestamp amount : UInt64) (prevId : Hash) : Block :=
  { plainBlock 2 height timestamp prevId with
    minerTx := { minerTxAt height with
      vout := ⟨[⟨amount, .toKey (List.Vector.replicate 32 0x61)⟩], by simp⟩ } }

def paidGenesis : HashedBlock where
  block := paidBlock 0 0 15 nullHash
  miner := hashOfNat 0x4a48060ece1e0bfb1af198e52a86204876bc2c95297afa8bf0fc0b95ece72042
  id := hashOfNat 0xc6c90afb632e59e6d5a5f4e0dffbc47a362fbb8c80f1557a0d1b1c04dd5ee61f
  blob := hashOfNat 0x6888db4e8bc35e2c2b128152debd9ec48dce9a0b10e1d205935d3c472d0742f2

def paidFirst : HashedBlock where
  block := paidBlock 1 240 4 paidGenesis.id
  miner := hashOfNat 0xdaf95f3fbc314265a1cb90381f48dc3fb4074cdfee174063cf614c53c919f48f
  id := hashOfNat 0x6205528ed2b844b8bd984db753dacca8ce359d36e959a168e703248c9f97a802
  blob := hashOfNat 0x81144b3fe51c1ebdc333dfeba595961f2bf8f945f0fc7e83b1e6e1a66f3971aa

def paidPaymentId : Hash :=
  hashOfNat 0xb3f49c0e237f85238915245c40286b531c3d35c0571d632d4cc9aa602165c794

def paidSecond : Block :=
  { paidBlock 2 480 5 paidFirst.id with txHashes := ⟨[paidPaymentId], single_fits _⟩ }

def paidSecondMiner : Hash :=
  hashOfNat 0x55a931942b03f07dd8d9e295f0fff5190a1bfd1ddfd9bef3dc117b81c4924d71

def paidSecondRoot : Hash :=
  hashOfNat 0x41427ad94840c871d4f5849ad7ca5c91220c294b81a013db08d910306ce680dd

def paidHash (m : List UInt8) : Hash :=
  if m = txToBlob currentConfig (paymentTx 0x51) then paidPaymentId
  else if m = txToBlob currentConfig paidSecond.minerTx then paidSecondMiner
  else if m = paidSecondMiner.val ++ paidPaymentId.val then paidSecondRoot
  else if m = stringMessage ((saveBlockHeader paidSecond.toBlockHeader).bytes ++
      (paidSecondRoot.val ++ writeVarint 2)) then
    hashOfNat 0x23378183341cc225a7dd226467af5c318f221c8a33ad1b68b496dbabb0db3535
  else if m = blockToBlob currentConfig paidSecond then
    hashOfNat 0x8fd2da9c6251ffbdd44c188299bfc0a83fd7ea077fff3a93e468700b7b220375
  else (hashedOps [paidGenesis, paidFirst]).cnFastHash m

/-- A thousand coins, of which a block takes one part in 64. -/
def smallRewards : RewardConfig := ⟨1000, 8, 1, 240, 240, 0, 300000, 100, 4, 10⟩

def paidEnv : ChainEnv (ℕ × ℕ) :=
  { plainEnv [] [] with ops := ⟨paidHash, fun _ => none, fun _ => default⟩ }

/-- The state has a payment with a fee of 1 in its pool. -/
def paidState (chain : List MainBlock) : ChainState (ℕ × ℕ) :=
  { plainState (singleFork 2) chain with
    txPool := (addPayment 0x51).apply fractionRate paidEnv.ops currentConfig paymentConf
      paymentView (.empty (ℕ × ℕ) 648000000) }

def paidGenesisMain : MainBlock := ⟨paidGenesis.block, [], 41, 41, 1, 15⟩

def paidFirstMain : MainBlock := ⟨paidFirst.block, [], 41, 41, 2, 19⟩

def paidSecondMain : MainBlock := ⟨paidSecond, [paymentTx 0x51], 180, 180, 3, 23⟩

def paidAccepted : List AcceptedBlock :=
  [acceptedOn smallRewards paidEnv (paidState []) paidGenesisMain,
    acceptedOn smallRewards paidEnv (paidState [paidGenesisMain]) paidFirstMain,
    acceptedOn smallRewards paidEnv (paidState [paidGenesisMain, paidFirstMain]) paidSecondMain]

theorem accepted_paidAccepted : Accepted smallRewards paidEnv paidAccepted := by
  have hgenesis : Accepted smallRewards paidEnv
      ([] ++ [acceptedOn smallRewards paidEnv (paidState []) paidGenesisMain]) := by
    apply Accepted.block (b := paidGenesis.block) .nil rfl (Prod.ext_iff.mpr ⟨?_, rfl⟩)
    · decide +kernel
    · decide +kernel
    · decide +kernel
  have hfirst : Accepted smallRewards paidEnv
      (paidAccepted.take 1 ++
        [acceptedOn smallRewards paidEnv (paidState [paidGenesisMain]) paidFirstMain]) := by
    apply Accepted.block (b := paidFirst.block) hgenesis rfl (Prod.ext_iff.mpr ⟨?_, rfl⟩)
    · decide +kernel
    · decide +kernel
    · decide +kernel
  apply Accepted.block (b := paidSecond) hfirst rfl (Prod.ext_iff.mpr ⟨?_, rfl⟩)
  · decide +kernel
  · decide +kernel
  · decide +kernel

/-- The blocks have made 15, 4 and 4 coins, and the last miner has a fee of 1 too. -/
theorem emission_accounted_paid :
    (paidAccepted.map fun a => (a.main.coinsGenerated, a.coinbase, a.fees, a.reward)) =
        [(15, 15, 0, 15), (19, 4, 0, 15), (23, 5, 1, 15)] ∧
      (∀ n, (hn : n + 1 < paidAccepted.length) →
        paidAccepted[n].main.coinsGenerated ≤ paidAccepted[n + 1].main.coinsGenerated) ∧
      (∀ n, (hn : n < paidAccepted.length) → paidAccepted[n].main.coinsGenerated ≤ 1000 ∧
        (paidAccepted[n].main.coinsGenerated.toNat : ℤ) = min (1000 : ℤ)
          ((paidAccepted.take (n + 1)).map AcceptedBlock.generated).sum) ∧
      ∀ a ∈ paidAccepted, (2 ≤ a.version → a.fees ≤ a.coinbase) ∧
        a.coinbase ≤ a.reward + a.fees := by
  exact ⟨by decide +kernel, emission_accounted accepted_paidAccepted⟩

end XrCoin.Blockchain

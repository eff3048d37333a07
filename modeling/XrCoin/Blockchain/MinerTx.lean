import XrCoin.Blockchain.LongTermWeights
import XrCoin.Cryptonote.DecomposeAmount
import XrCoin.Cryptonote.TxExtra

/-!
`construct_miner_tx`: the transaction that pays a block to its miner.

The key of the transaction is drawn at random, and the keys of the outputs are derived from it and
the address of the miner. Both come with the call.
-/

namespace XrCoin.Blockchain

open Archive Cryptonote

structure MinerConfig extends WeightConfig where
  /-- `BASE_REWARD_CLAMP_THRESHOLD`. -/
  baseRewardClampThreshold : UInt64
  /-- `DEFAULT_DUST_THRESHOLD`. -/
  defaultDustThreshold : UInt64

/-- The keys of one call. The derivation of the key of an output may fail. -/
structure MinerKeys where
  txPubKey : PublicKey
  outKey : ℕ → Option PublicKey

structure MinerTxCall where
  /-- `CRYPTONOTE_MINED_MONEY_UNLOCK_WINDOW`. -/
  minedMoneyUnlockWindow : UInt64
  height : ℕ
  medianWeight : UInt64
  alreadyGeneratedCoins : UInt64
  fee : UInt64
  extraNonce : List UInt8
  maxOuts : ℕ
  version : UInt8

variable (mc : MinerConfig) (c : MinerTxCall)

def minerExtra (keys : MinerKeys) : Option (List UInt8) :=
  let extra := addTxPubKeyToExtra [] keys.txPubKey
  (if c.extraNonce = [] then some extra else addExtraNonceToTxExtra extra c.extraNonce).bind
    sortTxExtra

/-- What the miner claims of the reward and the fees. From version 2 on, up to the confidential
amounts, the low digits are left. A division by zero traps. -/
def claimedReward (reward : UInt64) : Option UInt64 :=
  let blockReward := reward + c.fee
  if 2 ≤ c.version ∧ c.version < mc.hfVersionAllowRct then
    if mc.baseRewardClampThreshold = 0 then none
    else some (blockReward - blockReward % mc.baseRewardClampThreshold)
  else some blockReward

/-- The first amounts are put together until there are few enough. -/
def mergeOuts (maxOuts : ℕ) : UInt64 → List UInt64 → List UInt64
  | first, [] => [first]
  | first, second :: outAmounts =>
      if maxOuts < outAmounts.length + 2 then mergeOuts maxOuts (first + second) outAmounts
      else first :: second :: outAmounts

def mergeAll (maxOuts : ℕ) : List UInt64 → List UInt64
  | [] => []
  | first :: outAmounts => mergeOuts maxOuts first outAmounts

def limitOuts (outAmounts : List UInt64) : Option (List UInt64) :=
  if c.maxOuts < 1 then none
  else if c.height = 0 ∨ mc.hfVersionAllowRct ≤ c.version then
    some (mergeAll c.maxOuts outAmounts)
  else if c.maxOuts < outAmounts.length then none
  else some outAmounts

def minerOuts (blockReward : UInt64) : Option (List UInt64) :=
  limitOuts mc c (decomposeAmountIntoDigits blockReward
    (if 2 ≤ c.version then 0 else mc.defaultDustThreshold) id id)

def buildOuts (keys : MinerKeys) : ℕ → List UInt64 → Option (List TxOut)
  | _, [] => some []
  | no, amount :: outAmounts => do
      let key ← keys.outKey no
      let outs ← buildOuts keys (no + 1) outAmounts
      some (⟨amount, .toKey key⟩ :: outs)

def constructMinerTx (currentBlockWeight : UInt64) (keys : MinerKeys) (tx : Transaction) :
    Option Transaction := do
  let extra ← minerExtra c keys
  let reward ← getBlockReward mc.toRewardConfig c.medianWeight currentBlockWeight
    c.alreadyGeneratedCoins c.version c.height
  let blockReward ← claimedReward mc c reward
  let outAmounts ← minerOuts mc c blockReward
  let outs ← buildOuts keys 0 outAmounts
  let vout ← StdVector.ofList? outs
  let extra ← StdVector.ofList? extra
  if outAmounts.foldl (· + ·) 0 = blockReward then
    some { tx with
      version := if mc.hfVersionAllowRct ≤ c.version then 2 else 1
      unlockTime := c.height.toUInt64 + c.minedMoneyUnlockWindow
      vin := ⟨[.gen c.height.toUInt64], by simp⟩
      vout := vout
      extra := extra }
  else none

/-! ### The outputs -/

theorem amounts_buildOuts {keys : MinerKeys} {no : ℕ} {outAmounts : List UInt64}
    {outs : List TxOut} (h : buildOuts keys no outAmounts = some outs) :
    outs.map TxOut.amount = outAmounts := by
  induction outAmounts generalizing no outs with
  | nil =>
      obtain rfl := Option.some.inj h
      rfl
  | cons amount outAmounts ih =>
      obtain ⟨key, -, h⟩ := Option.bind_eq_some_iff.mp h
      obtain ⟨rest, hrest, h⟩ := Option.bind_eq_some_iff.mp h
      obtain rfl := Option.some.inj h
      rw [List.map_cons, ih hrest]

/-- With the confidential amounts there is one output. -/
theorem length_mergeOuts_one (first : UInt64) (outAmounts : List UInt64) :
    (mergeOuts 1 first outAmounts).length = 1 := by
  induction outAmounts generalizing first with
  | nil => rfl
  | cons second outAmounts ih =>
      rw [mergeOuts, if_pos (by omega)]
      exact ih (first + second)

theorem length_mergeAll_one (outAmounts : List UInt64) : (mergeAll 1 outAmounts).length ≤ 1 := by
  cases outAmounts with
  | nil => exact Nat.zero_le 1
  | cons first outAmounts => exact (length_mergeOuts_one first outAmounts).le

variable {mc c}

theorem minerOuts_cases {blockReward : UInt64} {outAmounts : List UInt64}
    (h : minerOuts mc c blockReward = some outAmounts) (hheight : c.height ≠ 0)
    (hmax : c.maxOuts = if mc.hfVersionAllowRct ≤ c.version then 1 else 11) :
    (mc.hfVersionAllowRct ≤ c.version ∧ outAmounts.length ≤ 1) ∨
      (c.version < mc.hfVersionAllowRct ∧ outAmounts = decomposeAmountIntoDigits blockReward
        (if 2 ≤ c.version then 0 else mc.defaultDustThreshold) id id) := by
  rw [minerOuts, limitOuts] at h
  generalize (if 2 ≤ c.version then 0 else mc.defaultDustThreshold) = dustThreshold at h ⊢
  by_cases hrct : mc.hfVersionAllowRct ≤ c.version
  · refine Or.inl ⟨hrct, ?_⟩
    rw [if_pos hrct] at hmax
    rw [hmax, if_neg (by omega), if_pos (Or.inr hrct)] at h
    rw [← Option.some.inj h]
    exact length_mergeAll_one _
  · refine Or.inr ⟨UInt8.not_le.mp hrct, ?_⟩
    rw [if_neg hrct] at hmax
    rw [hmax, if_neg (by omega), if_neg (by simp [hheight, hrct])] at h
    split_ifs at h
    exact (Option.some.inj h).symm

theorem checkOverflow_of_sum {amounts : List UInt64} {money : UInt64}
    (h : money.toNat + (amounts.map UInt64.toNat).sum < 2 ^ 64) :
    Core.checkOverflow money amounts = true := by
  induction amounts generalizing money with
  | nil => rfl
  | cons amount amounts ih =>
      rw [List.map_cons, List.sum_cons] at h
      have hsum : (money + amount).toNat = money.toNat + amount.toNat := by
        rw [UInt64.toNat_add]
        exact Nat.mod_eq_of_lt (by omega)
      rw [Core.checkOverflow, if_neg]
      · apply ih
        omega
      · rw [UInt64.add_comm, UInt64.lt_iff_toNat_lt]
        omega

theorem checkOverflow_minerOuts {blockReward : UInt64} {outAmounts : List UInt64}
    (h : minerOuts mc c blockReward = some outAmounts) (hheight : c.height ≠ 0)
    (hmax : c.maxOuts = if mc.hfVersionAllowRct ≤ c.version then 1 else 11) :
    Core.checkOverflow 0 outAmounts = true := by
  rcases minerOuts_cases h hheight hmax with ⟨-, hone⟩ | ⟨-, rfl⟩
  · match outAmounts, hone with
    | [], _ => rfl
    | [amount], _ => simp [Core.checkOverflow]
  · apply checkOverflow_of_sum
    rw [sum_decomposeAmount, UInt64.toNat_zero, Nat.zero_add]
    exact blockReward.toNat_lt

theorem isValidDecomposedAmount_digit {digit j : ℕ} (hlow : 1 ≤ digit) (hhigh : digit ≤ 9)
    (hlt : digit * 10 ^ j < 2 ^ 64) :
    isValidDecomposedAmount (digit * 10 ^ j).toUInt64 = true := by
  rw [isValidDecomposedAmount, decide_eq_true_iff, validDecomposedOutputs, List.mem_append]
  rcases Nat.lt_or_ge j 19 with hj | hj
  · refine Or.inl (List.mem_flatMap.mpr ⟨j, List.mem_range.mpr hj, List.mem_map.mpr ⟨digit, ?_, rfl⟩⟩)
    rw [List.mem_range'_1]
    omega
  · -- only one amount of twenty digits fits
    have hpow : 10 ^ 19 ≤ 10 ^ j := Nat.pow_le_pow_right (by omega) hj
    have hj' : j = 19 := by
      by_contra hne
      have hlarge : 10 ^ 20 ≤ 10 ^ j := Nat.pow_le_pow_right (by omega) (by omega)
      have hle : 10 ^ j ≤ digit * 10 ^ j := Nat.le_mul_of_pos_left _ (by omega)
      omega
    subst hj'
    obtain rfl : digit = 1 := by omega
    exact Or.inr (List.mem_singleton.mpr (by decide))

theorem isValid_minerOuts {blockReward : UInt64} {outAmounts : List UInt64}
    (h : minerOuts mc c blockReward = some outAmounts) (hheight : c.height ≠ 0)
    (hmax : c.maxOuts = if mc.hfVersionAllowRct ≤ c.version then 1 else 11)
    (hversion : 2 ≤ c.version) (hrct : c.version < mc.hfVersionAllowRct) :
    outAmounts.all isValidDecomposedAmount = true := by
  rcases minerOuts_cases h hheight hmax with ⟨hrct', -⟩ | ⟨-, rfl⟩
  · exact absurd hrct (UInt8.not_lt.mpr hrct')
  rw [List.all_eq_true]
  intro amount hamount
  rw [if_pos hversion] at hamount
  have hmem := List.mem_map_of_mem (f := UInt64.toNat) hamount
  rw [toNat_decomposeAmount] at hmem
  obtain ⟨digit, j, hlow, hhigh, hj, hdigit⟩ := mem_decomposeLoop (k := 0) hmem
  have hlt : digit * 10 ^ j < 2 ^ 64 := by
    rw [← hdigit]
    exact amount.toNat_lt
  have hvalid := isValidDecomposedAmount_digit hlow hhigh hlt
  rwa [← hdigit, Nat.toUInt64, UInt64.ofNat_toNat] at hvalid

structure ConstructedFor (mc : MinerConfig) (c : MinerTxCall) (weight : UInt64) (tx : Transaction)
    (reward blockReward : UInt64) (outAmounts : List UInt64) : Prop where
  reward_eq : getBlockReward mc.toRewardConfig c.medianWeight weight c.alreadyGeneratedCoins c.version
    c.height = some reward
  claimed : claimedReward mc c reward = some blockReward
  outs : minerOuts mc c blockReward = some outAmounts
  sum : outAmounts.foldl (· + ·) 0 = blockReward
  amounts : tx.vout.toList.map TxOut.amount = outAmounts
  vin : tx.vin.toList = [.gen c.height.toUInt64]
  unlockTime : tx.unlockTime = c.height.toUInt64 + c.minedMoneyUnlockWindow

theorem constructMinerTx_spec {weight : UInt64} {keys : MinerKeys} {tx tx' : Transaction}
    (h : constructMinerTx mc c weight keys tx = some tx') :
    ∃ reward blockReward outAmounts, ConstructedFor mc c weight tx' reward blockReward outAmounts := by
  obtain ⟨extra, -, h⟩ := Option.bind_eq_some_iff.mp h
  obtain ⟨reward, hreward, h⟩ := Option.bind_eq_some_iff.mp h
  obtain ⟨blockReward, hclaimed, h⟩ := Option.bind_eq_some_iff.mp h
  obtain ⟨outAmounts, houts, h⟩ := Option.bind_eq_some_iff.mp h
  obtain ⟨outs, hbuild, h⟩ := Option.bind_eq_some_iff.mp h
  obtain ⟨vout, hvout, h⟩ := Option.bind_eq_some_iff.mp h
  obtain ⟨extra', -, h⟩ := Option.bind_eq_some_iff.mp h
  by_cases hsum : outAmounts.foldl (· + ·) 0 = blockReward
  swap
  · rw [if_neg hsum] at h
    cases h
  rw [if_pos hsum] at h
  obtain rfl := Option.some.inj h
  refine ⟨reward, blockReward, outAmounts, hreward, hclaimed, houts, hsum, ?_, rfl, rfl⟩
  rw [StdVector.ofList?_eq_some hvout, amounts_buildOuts hbuild]

end XrCoin.Blockchain

import XrCoin.Blockchain.MinerTx
import XrCoin.TxPool.BlockTemplate

/-!
`create_block_template`: a block on top of the chain for the miner to work on.

The reward depends on the weight of the block, and the weight on the amounts of the miner
transaction. So the transaction is built again until the weight is the one that the reward was
taken for, or filled up with zero bytes. A template that is cached is not built: only the path that
builds one is here.
-/

namespace XrCoin.Blockchain

open Archive Cryptonote Forks TxPool

/-! ### The loop -/

def transactionWeight (cfg : Config) (tx : Transaction) : Option UInt64 :=
  (getTransactionWeight tx (txToBlob cfg tx).length).map Nat.toUInt64

def padExtra (tx : Transaction) (delta : UInt64) : Option Transaction :=
  (StdVector.ofList? (tx.extra.toList ++ List.replicate delta.toNat 0)).map fun extra =>
    { tx with extra }

def shrinkExtra (tx : Transaction) : Transaction :=
  { tx with
    extra := ⟨tx.extra.toList.dropLast, by
      have h := tx.extra.size_lt
      rw [List.length_dropLast]
      omega⟩ }

inductive Round
  | again (tx : Transaction) (cumulativeWeight : UInt64)
  | good (tx : Transaction)

variable (cfg : Config) (mc : MinerConfig) (c : MinerTxCall)

/-- A transaction that is too light is filled up. The counter of the bytes may then take one more
byte, and one byte less may be one too few. -/
def fillUp (txsWeight cumulativeWeight delta : UInt64) (tx : Transaction) : Option Round := do
  let padded ← padExtra tx delta
  let weight ← transactionWeight cfg padded
  if cumulativeWeight = txsWeight + weight then some (.good padded)
  else if cumulativeWeight + 1 ≠ txsWeight + weight then none
  else do
    let shrunk ← transactionWeight cfg (shrinkExtra padded)
    if cumulativeWeight = txsWeight + shrunk then some (.good (shrinkExtra padded))
    else some (.again (shrinkExtra padded) (cumulativeWeight + (delta - 1)))

def templateRound (txsWeight cumulativeWeight : UInt64) (keys : MinerKeys) (tx : Transaction) :
    Option Round := do
  let tx ← constructMinerTx mc c cumulativeWeight keys tx
  let coinbaseWeight ← transactionWeight cfg tx
  if cumulativeWeight - txsWeight < coinbaseWeight then
    some (.again tx (txsWeight + coinbaseWeight))
  else if coinbaseWeight < cumulativeWeight - txsWeight then
    fillUp cfg txsWeight cumulativeWeight (cumulativeWeight - txsWeight - coinbaseWeight) tx
  else some (.good tx)

structure Coinbase where
  tx : Transaction
  cumulativeWeight : UInt64

def templateLoop (keys : ℕ → MinerKeys) (txsWeight : UInt64) :
    ℕ → ℕ → UInt64 → Transaction → Option Coinbase
  | 0, _, _, _ => none
  | tries + 1, round, cumulativeWeight, tx => do
      match ← templateRound cfg mc c txsWeight cumulativeWeight (keys round) tx with
      | .again tx cumulativeWeight =>
          templateLoop keys txsWeight tries (round + 1) cumulativeWeight tx
      | .good tx => do
          let weight ← transactionWeight cfg tx
          if cumulativeWeight = txsWeight + weight then some ⟨tx, cumulativeWeight⟩ else none

/-- The two phases: the weight is not known before there is a transaction. -/
def createCoinbase (keys : ℕ → MinerKeys) (txsWeight : UInt64) (tx : Transaction) :
    Option Coinbase := do
  let tx ← constructMinerTx mc c txsWeight (keys 0) tx
  let weight ← transactionWeight cfg tx
  templateLoop cfg mc c keys txsWeight 10 1 (txsWeight + weight) tx

/-! ### The template -/

structure Template where
  block : Block
  diffic : Difficulty
  height : ℕ
  expectedReward : UInt64
  txsWeight : UInt64
  fee : UInt64
  cumulativeWeight : UInt64

variable {ρ : Type} [DecidableEq ρ] (env : ChainEnv ρ)

/-- The local time, or the median of the last blocks where that is later. -/
def templateTimestamp (now : UInt64) (header : BlockHeader) (s : ChainState ρ) : UInt64 :=
  if checkBlockTimestamp env.timestampCheckWindow s.futureLimit (infos s.chain)
      { header with timestamp := now } then now
  else median (((infos s.chain).drop (s.chain.length - env.timestampCheckWindow)).map
    BlockInfo.timestamp)

def templateHeader (now : UInt64) (s : ChainState ρ) (header : BlockHeader) : BlockHeader :=
  let header := { header with
    majorVersion := currentVersion s
    minorVersion := (s.hardfork.heights.getLast?.map Params.version).getD 0
    prevId := getTailId env s.chain }
  { header with timestamp := templateTimestamp env now header s }

def minerTxCall (cumulWeightLimit fee : UInt64) (extraNonce : List UInt8) (s : ChainState ρ) :
    MinerTxCall where
  minedMoneyUnlockWindow := env.minedMoneyUnlockWindow
  height := s.chain.length
  medianWeight := cumulWeightLimit / 2
  alreadyGeneratedCoins := topCoins s.chain
  fee := fee
  extraNonce := extraNonce
  maxOuts := if mc.hfVersionAllowRct ≤ currentVersion s then 1 else 11
  version := currentVersion s

def templateCall (call : TemplateCall) (cumulWeightLimit : UInt64) (s : ChainState ρ) :
    TemplateCall :=
  { call with
    rewards := mc.toRewardConfig
    medianWeight := cumulWeightLimit / 2
    alreadyGeneratedCoins := topCoins s.chain
    version := currentVersion s
    height := s.chain.length }

/-- `create_block_template` where no template is cached. Without blocks the database throws. -/
def createBlockTemplate (call : TemplateCall) (cumulWeightLimit now : UInt64)
    (keys : ℕ → MinerKeys) (extraNonce : List UInt8) (s : ChainState ρ) (b : Block) :
    Option Template :=
  if currentDiffic env s = 0 ∨ s.chain = [] then none
  else do
    let filled ← fillBlockTemplate (templateCall mc call cumulWeightLimit s) s.txPool
    let txHashes ← StdVector.ofList? filled.txHashes
    let coinbase ← createCoinbase env.cfg mc
      (minerTxCall mc env cumulWeightLimit filled.fee extraNonce s) keys filled.totalWeight b.minerTx
    some {
      block := ⟨templateHeader env now s b.toBlockHeader, coinbase.tx, txHashes⟩
      diffic := currentDiffic env s
      height := s.chain.length
      expectedReward := filled.bestCoinbase
      txsWeight := filled.totalWeight
      fee := filled.fee
      cumulativeWeight := coinbase.cumulativeWeight }

end XrCoin.Blockchain

import XrCoin.Blockchain.Grown
import XrCoin.Blockchain.Timestamps
import XrCoin.Blockchain.LonghashTable
import XrCoin.Blockchain.ScanTable
import XrCoin.Core.IncomingTxs

/-!
How the main chain grows and shrinks: `handle_block_to_main_chain`, which checks a
block, takes its transactions from the pool and stores it, and
`pop_block_from_blockchain`, which gives the transactions back.

The rules for the inputs of transactions, for the reward and for the weights of blocks
are parameters, as functions of what they read. The clock stands still during a call.
What `check_tx_inputs` remembers of single inputs is left out.
-/

namespace XrCoin.Blockchain

open Archive Cryptonote Forks TxPool

/-! ### State -/

structure MainBlock where
  block : Block
  txs : List Transaction
  blockWeight : UInt64
  longTermBlockWeight : UInt64
  cumulativeDifficulty : Difficulty
  coinsGenerated : UInt64
  deriving DecidableEq

def MainBlock.info (e : MainBlock) : BlockInfo := ⟨e.block.toBlockHeader, e.cumulativeDifficulty⟩

structure ChainState (ρ : Type) where
  /-- The blocks of `m_db`. -/
  chain : List MainBlock
  /-- Its table `hf_versions`. -/
  hfVersions : ℕ → Option UInt8
  hardfork : HardFork
  txPool : Pool ρ
  alternativeChains : List (Hash × BlockExtendedInfo)
  invalidBlocks : List (Hash × BlockExtendedInfo)
  blocksHashCheck : List Hash
  blocksTxsCheck : List Hash
  blocksLonghashTable : List (Hash × Hash)
  scanTable : ScanTable
  currentBlockCumulWeightMedian : UInt64
  /-- The local time with `CRYPTONOTE_BLOCK_FUTURE_TIME_LIMIT` added. -/
  futureLimit : UInt64
  /-- The transactions that the log reports as not returned to the pool. -/
  notReturned : List Hash

structure ChainEnv (ρ : Type) where
  ops : CryptoOps
  cfg : Config
  pow : PowOps
  feeRate : FeeRate ρ
  difficulty : DifficultyConfig
  fork : HardForkConfig
  fixedDifficulty : Difficulty
  /-- `BLOCKCHAIN_TIMESTAMP_CHECK_WINDOW`. -/
  timestampCheckWindow : ℕ
  /-- `CRYPTONOTE_MINED_MONEY_UNLOCK_WINDOW`. -/
  minedMoneyUnlockWindow : UInt64
  /-- `NOFAKE_TXS_TO_TOTAL_TXS_PERCENT`. -/
  nofakeTxsPercent : ℕ
  moneySupply : UInt64
  /-- `m_points` of the checkpoints. -/
  points : List (ℕ × Hash)
  /-- `check_tx_inputs` for a transaction of a block, at a version. It tells what to add
  to the number of transactions and to that of those without a ring. -/
  checkTxInputs : List MainBlock → UInt8 → ScanTable → Transaction → Option (ℕ × ℕ)
  /-- `validate_miner_transaction`, from the weight, the fees, the coins, the version and
  the median. It gives the base reward. -/
  validateMinerTransaction : List MainBlock → Block → UInt64 → UInt64 → UInt64 → UInt8 → UInt64 →
    Option UInt64
  /-- `get_next_long_term_block_weight`. -/
  nextLongTermBlockWeight : List MainBlock → UInt8 → UInt64 → UInt64
  /-- The median that `update_next_cumulative_weight_limit` sets. -/
  blockCumulWeightMedian : List MainBlock → UInt8 → UInt64
  /-- Whether `add_block` of the database throws nothing. -/
  dbAccepts : List MainBlock → Block → List Transaction → Bool
  /-- What the pool asks for. -/
  poolView : ChainState ρ → ChainView

variable {ρ : Type} [DecidableEq ρ] (env : ChainEnv ρ)

def ChainEnv.id (b : Block) : Hash := blockId env.ops env.cfg b

def blockIds (chain : List MainBlock) : List Hash := chain.map fun e => env.id e.block

def getTailId (chain : List MainBlock) : Hash :=
  (chain.getLast?.map fun e => env.id e.block).getD nullHash

def infos (chain : List MainBlock) : List BlockInfo := chain.map MainBlock.info

def currentVersion (s : ChainState ρ) : UInt8 := getCurrentVersion s.hardfork

def txExists (chain : List MainBlock) (txId : Hash) : Bool :=
  chain.any fun e => txId ∈ txsIds env.ops env.cfg e.block

/-- `check_block` of the checkpoints. -/
def checkpointAccepts (height : ℕ) (id : Hash) : Bool :=
  match env.points.lookup height with
  | none => true
  | some expected => expected = id

/-! ### Giving transactions to the pool -/

/-- `add_tx` for a transaction of a block, and the report when it fails. A weight that
throws counts as a failure: the transaction had one when it came in. -/
def returnTx (s : ChainState ρ) (tx : Transaction) : ChainState ρ :=
  let blobSize := (txToBlob env.cfg tx).length
  let hash := getTransactionHash env.ops env.cfg tx
  match getTransactionWeight tx blobSize with
  | none => { s with notReturned := hash :: s.notReturned }
  | some weight =>
      let added := addTx env.feeRate env.ops env.cfg (env.poolView s)
        ⟨tx, hash, weight.toUInt64, true, true, false, currentVersion s⟩ default s.txPool
      if added.1 then { s with txPool := added.2.2 }
      else { s with txPool := added.2.2, notReturned := hash :: s.notReturned }

def returnTxToPool (txs : List Transaction) (s : ChainState ρ) : ChainState ρ :=
  txs.foldl (returnTx env) s

/-- `add_block_as_invalid`. A block that is there stays as it is. -/
def addBlockAsInvalid (bei : BlockExtendedInfo) (id : Hash) (s : ChainState ρ) : ChainState ρ :=
  if (s.invalidBlocks.lookup id).isSome then s
  else { s with invalidBlocks := s.invalidBlocks ++ [(id, bei)] }

/-! ### Popping -/

/-- `pop_block_from_blockchain`, with the popped block. The fork object stays where it is,
and its version goes into the median. There is no block when it throws: the database has
none, or the first block was popped and the weights of an empty chain are asked for. -/
def popBlockFromBlockchain (s : ChainState ρ) : Option Block × ChainState ρ :=
  match s.chain.getLast? with
  | none => (none, s)
  | some top =>
      let popped := { s with chain := s.chain.dropLast }
      let returned := returnTxToPool env (top.txs.reverse.filter fun tx => isCoinbase tx = false)
        popped
      let cleared := { returned with
        blocksLonghashTable := []
        scanTable := []
        blocksTxsCheck := [] }
      if returned.chain.isEmpty then (none, cleared)
      else
        (some top.block, { cleared with
          currentBlockCumulWeightMedian :=
            env.blockCumulWeightMedian returned.chain (currentVersion returned) })

/-! ### Adding -/

def minerHeight (b : Block) : UInt64 :=
  match b.minerTx.vin.toList with
  | [.gen height] => height
  | _ => 0

def prevalidateMinerTransaction (b : Block) (height : ℕ) : Bool :=
  match b.minerTx.vin.toList with
  | [.gen minerHeight] =>
      minerHeight.toNat = height ∧
        b.minerTx.unlockTime = height.toUInt64 + env.minedMoneyUnlockWindow ∧
        Core.checkOverflow 0 (b.minerTx.vout.toList.map TxOut.amount) = true
  | _ => false

def currentDiffic (s : ChainState ρ) : Difficulty :=
  getDifficultyForNextBlock env.difficulty env.fixedDifficulty s.hardfork (infos s.chain)

/-- The hash of a block against the expected one, or its proof of work. It tells whether
the block takes the fast path, and nothing when it is refused. A null hash among the
expected ones asks for nothing. -/
def checkExpectedOrWork (s : ChainState ρ) (b : Block) : Option Bool :=
  match s.blocksHashCheck[s.chain.length]? with
  | some expectedHash =>
      if expectedHash = nullHash then some false
      else if env.id b = expectedHash then some true
      else none
  | none =>
      if checkProofOfWork env.ops env.cfg env.pow env.difficulty.hardfork1Height
          s.blocksLonghashTable b s.chain.length (currentDiffic env s) = some true then some false
      else none

/-- The checks in front of the transactions. They tell whether the block takes the fast
path, and nothing when it is refused. -/
def checkHeader (s : ChainState ρ) (b : Block) : Option Bool :=
  if b.prevId ≠ getTailId env s.chain then none
  else if check s.hardfork b.toBlockHeader = false then none
  else if checkBlockTimestamp env.timestampCheckWindow s.futureLimit (infos s.chain)
      b.toBlockHeader = false then none
  else if currentDiffic env s = 0 then none
  else
    (checkExpectedOrWork env s b).bind fun fast =>
      if checkpointAccepts env s.chain.length (env.id b) = false then none
      else if prevalidateMinerTransaction env b s.chain.length = false then none
      else some fast

structure Collected where
  txs : List Transaction
  feeSummary : UInt64
  cumulativeBlockWeight : UInt64
  totalTxs : ℕ
  nofakeTxs : ℕ
  deriving DecidableEq

/-- The check of one transaction of a block: on the fast path its id against those that
the intake listed, else its inputs. -/
def checkBlockTx (s : ChainState ρ) (fast : Bool) (txIndex : ℕ) (txId : Hash) (tx : Transaction) :
    Option (ℕ × ℕ) :=
  if fast then if s.blocksTxsCheck[txIndex]? = some txId then some (0, 0) else none
  else env.checkTxInputs s.chain (currentVersion s) s.scanTable tx

/-- The loop over the ids of a block, on the state at its start. -/
def collectTxs (s : ChainState ρ) (fast : Bool) :
    List Hash → ℕ → Collected → Pool ρ → Option Core.BlockTxsError × Collected × Pool ρ
  | [], _, acc, p => (none, acc, p)
  | txId :: txIds, txIndex, acc, p =>
      if txExists env s.chain txId then (some (.alreadyInBlockchain txId), acc, p)
      else
        match takeTx env.ops env.cfg txId p with
        | (none, p) => (some (.unknownTransaction txId), acc, p)
        | (some taken, p) =>
            match checkBlockTx env s fast txIndex txId taken.tx with
            | none => (some (.wrongInputs txId), { acc with txs := acc.txs ++ [taken.tx] }, p)
            | some counted =>
                collectTxs s fast txIds (txIndex + 1)
                  ⟨acc.txs ++ [taken.tx], acc.feeSummary + taken.fee,
                    acc.cumulativeBlockWeight + taken.txWeight, acc.totalTxs + counted.1,
                    acc.nofakeTxs + counted.2⟩ p

def startCollecting (b : Block) : Collected :=
  ⟨[], 0, ((getTransactionWeight b.minerTx (txToBlob env.cfg b.minerTx).length).getD 0).toUInt64,
    0, 0⟩

def addCoins (alreadyGeneratedCoins baseReward : UInt64) : UInt64 :=
  if baseReward < env.moneySupply - alreadyGeneratedCoins then alreadyGeneratedCoins + baseReward
  else env.moneySupply

/-- The checks behind the transactions, and what is stored when they pass. -/
def completeBlock (s : ChainState ρ) (b : Block) (acc : Collected) : Option MainBlock :=
  let coins := (s.chain.getLast?.map MainBlock.coinsGenerated).getD 0
  let version := currentVersion s
  (env.validateMinerTransaction s.chain b acc.cumulativeBlockWeight acc.feeSummary coins version
      s.currentBlockCumulWeightMedian).bind fun baseReward =>
    if 7 ≤ version ∧ (acc.totalTxs * env.nofakeTxsPercent + 99) / 100 < acc.nofakeTxs then none
    else if env.dbAccepts s.chain b acc.txs = false then none
    else some ⟨b, acc.txs, acc.cumulativeBlockWeight,
      env.nextLongTermBlockWeight s.chain version acc.cumulativeBlockWeight,
      currentDiffic env s + topCumulativeDifficulty (infos s.chain), addCoins env coins baseReward⟩

def forkDb (s : ChainState ρ) : ForkDb :=
  ⟨s.chain.map fun e => e.block.toBlockHeader, s.hfVersions⟩

/-- The storing of a block: `add_block` of the database, which moves the fork object on,
and `update_next_cumulative_weight_limit`. -/
def storeBlock (s : ChainState ρ) (e : MainBlock) : ChainState ρ :=
  let chain := s.chain ++ [e]
  let added := add env.fork e.block.toBlockHeader s.chain.length s.hardfork (forkDb s)
  { s with
    chain := chain
    hardfork := added.2.1
    hfVersions := added.2.2.hfVersions
    currentBlockCumulWeightMedian :=
      env.blockCumulWeightMedian chain (getCurrentVersion added.2.1) }

/-- `handle_block_to_main_chain`: whether the block was added. -/
def handleBlockToMainChain (b : Block) (s : ChainState ρ) : Bool × ChainState ρ :=
  match checkHeader env s b with
  | none => (false, s)
  | some fast =>
      let collected := collectTxs env s fast b.txHashes.toList 0 (startCollecting env b) s.txPool
      let acc := collected.2.1
      let taken := { s with txPool := collected.2.2 }
      match collected.1 with
      | some (.wrongInputs _) =>
          (false, returnTxToPool env acc.txs (addBlockAsInvalid ⟨b, 0, 0⟩ (env.id b) taken))
      | some _ => (false, returnTxToPool env acc.txs taken)
      | none =>
          let cleared := { taken with blocksTxsCheck := [] }
          match completeBlock env cleared b acc with
          | none => (false, returnTxToPool env acc.txs cleared)
          | some e => (true, storeBlock env cleared e)

/-! ### What the functions change -/

theorem returnTx_eq (s : ChainState ρ) (tx : Transaction) :
    ∃ p l, returnTx env s tx = { s with txPool := p, notReturned := l } ∧ s.notReturned ⊆ l := by
  rw [returnTx]
  simp only
  split
  · exact ⟨_, _, rfl, List.subset_cons_self _ _⟩
  · split
    · exact ⟨_, _, rfl, List.Subset.refl _⟩
    · exact ⟨_, _, rfl, List.subset_cons_self _ _⟩

/-- Giving transactions back changes the pool and adds to the log. -/
theorem returnTxToPool_eq (txs : List Transaction) (s : ChainState ρ) :
    ∃ p l, returnTxToPool env txs s = { s with txPool := p, notReturned := l } ∧
      s.notReturned ⊆ l := by
  induction txs generalizing s with
  | nil => exact ⟨_, _, rfl, List.Subset.refl _⟩
  | cons tx txs ih =>
      obtain ⟨p, l, hreturn, hlog⟩ := returnTx_eq env s tx
      rw [returnTxToPool, List.foldl_cons, hreturn, ← returnTxToPool]
      obtain ⟨p', l', hreturn', hlog'⟩ := ih { s with txPool := p, notReturned := l }
      exact ⟨p', l', hreturn', List.Subset.trans hlog hlog'⟩

omit [DecidableEq ρ] in
theorem completeBlock_eq {s : ChainState ρ} {b : Block} {acc : Collected} {e : MainBlock}
    (h : completeBlock env s b acc = some e) :
    e.block = b ∧ e.txs = acc.txs ∧ e.cumulativeDifficulty =
      currentDiffic env s + topCumulativeDifficulty (infos s.chain) := by
  obtain ⟨baseReward, -, h⟩ := Option.bind_eq_some_iff.mp h
  split at h
  · exact absurd h (by simp)
  · split at h
    · exact absurd h (by simp)
    · obtain rfl := Option.some.inj h
      exact ⟨rfl, rfl, rfl⟩

omit [DecidableEq ρ] in
theorem checkHeader_eq_some {s : ChainState ρ} {b : Block} {fast : Bool} :
    checkHeader env s b = some fast ↔
      b.prevId = getTailId env s.chain ∧ check s.hardfork b.toBlockHeader = true ∧
        checkBlockTimestamp env.timestampCheckWindow s.futureLimit (infos s.chain)
          b.toBlockHeader = true ∧
        currentDiffic env s ≠ 0 ∧ checkExpectedOrWork env s b = some fast ∧
        checkpointAccepts env s.chain.length (env.id b) = true ∧
        prevalidateMinerTransaction env b s.chain.length = true := by
  rw [checkHeader]
  by_cases hprev : b.prevId = getTailId env s.chain
  · by_cases hcheck : check s.hardfork b.toBlockHeader = true
    · by_cases htime : checkBlockTimestamp env.timestampCheckWindow s.futureLimit (infos s.chain)
          b.toBlockHeader = true
      · by_cases hdiffic : currentDiffic env s = 0
        · simp [hprev, hcheck, htime, hdiffic]
        · simp only [hprev, hcheck, htime, hdiffic, ne_eq, not_true_eq_false, if_false,
            Bool.true_eq_false, not_false_eq_true, true_and]
          cases checkExpectedOrWork env s b with
          | none => simp
          | some fast' =>
              simp only [Option.bind_some, Option.some.injEq]
              cases checkpointAccepts env s.chain.length (env.id b) with
              | false => simp
              | true => cases prevalidateMinerTransaction env b s.chain.length <;> simp
      · simp [hprev, hcheck, htime]
    · simp [hprev, hcheck]
  · simp [hprev]

theorem handleBlockToMainChain_cases (b : Block) (s : ChainState ρ) :
    (∃ p l t i, handleBlockToMainChain env b s =
        (false, { s with txPool := p, notReturned := l, blocksTxsCheck := t, invalidBlocks := i }) ∧
        s.invalidBlocks <+: i ∧ (t = s.blocksTxsCheck ∨ t = []) ∧ s.notReturned ⊆ l) ∨
      ∃ fast acc p e, checkHeader env s b = some fast ∧
        collectTxs env s fast b.txHashes.toList 0 (startCollecting env b) s.txPool =
          (none, acc, p) ∧
        completeBlock env { s with txPool := p, blocksTxsCheck := [] } b acc = some e ∧
        handleBlockToMainChain env b s =
          (true, storeBlock env { s with txPool := p, blocksTxsCheck := [] } e) := by
  rw [handleBlockToMainChain]
  cases hheader : checkHeader env s b with
  | none => exact .inl ⟨_, _, _, _, rfl, List.prefix_rfl, .inl rfl, List.Subset.refl _⟩
  | some fast =>
      simp only
      obtain ⟨⟨stop, acc, p⟩, hcollected⟩ : ∃ collected,
        collectTxs env s fast b.txHashes.toList 0 (startCollecting env b) s.txPool = collected :=
          ⟨_, rfl⟩
      rw [hcollected]
      simp only
      split
      · -- wrong inputs
        left
        obtain ⟨p', l, hreturned, hlog⟩ := returnTxToPool_eq env acc.txs
          (addBlockAsInvalid ⟨b, 0, 0⟩ (env.id b) { s with txPool := p })
        rw [addBlockAsInvalid] at hlog
        rw [hreturned, addBlockAsInvalid]
        split
        · rename_i hthere
          rw [if_pos hthere] at hlog
          exact ⟨_, _, _, _, rfl, List.prefix_rfl, .inl rfl, hlog⟩
        · rename_i hthere
          rw [if_neg hthere] at hlog
          exact ⟨_, _, _, _, rfl, List.prefix_append _ _, .inl rfl, hlog⟩
      · left
        obtain ⟨p', l, hreturned, hlog⟩ := returnTxToPool_eq env acc.txs { s with txPool := p }
        rw [hreturned]
        exact ⟨_, _, _, _, rfl, List.prefix_rfl, .inl rfl, hlog⟩
      · cases hcomplete : completeBlock env { s with txPool := p, blocksTxsCheck := [] } b acc with
        | none =>
            left
            obtain ⟨p', l, hreturned, hlog⟩ := returnTxToPool_eq env acc.txs
              { s with txPool := p, blocksTxsCheck := [] }
            simp only [hreturned]
            exact ⟨_, _, _, _, rfl, List.prefix_rfl, .inr rfl, hlog⟩
        | some e => exact .inr ⟨fast, acc, p, e, rfl, hcollected, hcomplete, rfl⟩

/-- Popping takes the top block off, clears the tables and leaves the fork object and the
alternative chains as they are. -/
theorem popBlockFromBlockchain_eq {s : ChainState ρ} {chain : List MainBlock} {top : MainBlock}
    (h : s.chain = chain ++ [top]) :
    ∃ p l m, popBlockFromBlockchain env s =
        (if chain.isEmpty then none else some top.block, { s with
          chain := chain, txPool := p, notReturned := l, blocksLonghashTable := [],
          scanTable := [], blocksTxsCheck := [], currentBlockCumulWeightMedian := m }) ∧
      s.notReturned ⊆ l ∧
      (chain ≠ [] → m = env.blockCumulWeightMedian chain (currentVersion s)) := by
  have htop : s.chain.getLast? = some top := by rw [h, List.getLast?_concat]
  have hrest : s.chain.dropLast = chain := by rw [h, List.dropLast_concat]
  rw [popBlockFromBlockchain, htop]
  simp only [hrest]
  obtain ⟨p, l, hreturned, hlog⟩ := returnTxToPool_eq env
    (top.txs.reverse.filter fun tx => isCoinbase tx = false) { s with chain := chain }
  rw [hreturned]
  by_cases hnil : chain.isEmpty
  · rw [if_pos hnil, if_pos hnil]
    exact ⟨p, l, _, rfl, hlog, fun hne => absurd (List.isEmpty_iff.mp hnil) hne⟩
  · rw [if_neg hnil, if_neg hnil]
    exact ⟨p, l, _, rfl, hlog, fun _ => rfl⟩

end XrCoin.Blockchain

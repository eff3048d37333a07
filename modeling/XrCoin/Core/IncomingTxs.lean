import Mathlib
import XrCoin.TxPool.Pool

/-!
The intake of transactions, `handle_incoming_txs`, and the loop over the
transactions of a block in `handle_block_to_main_chain`.

The chain does not change during these calls, so what they ask it for is a
parameter (`CoreView`). The checks that run on other threads are independent of
each other and are gone through in order here.
-/

namespace XrCoin.Core

open Archive Cryptonote TxPool

/-! ### Parameters and state -/

structure CoreConfig where
  /-- `CRYPTONOTE_MAX_TX_SIZE`. -/
  maxTxSize : ℕ
  maxTxSize_lt : maxTxSize < 2 ^ 63
  /-- `HF_VERSION_ALLOW_RCT`. -/
  hfVersionAllowRct : UInt8
  /-- `CRYPTONOTE_COINBASE_BLOB_RESERVED_SIZE`. -/
  coinbaseBlobReservedSize : UInt64
  bulletproofMaxOutputs : ℕ

def badSemanticsTxesMaxSize : ℕ := 100

structure CoreCrypto where
  checkKey : PublicKey → Bool
  /-- `scalarmultKey(ki, curveOrder()) == identity()`. -/
  keyImageInDomain : KeyImage → Bool
  verRctSemanticsSimple : RctSig → Bool
  verRct : RctSig → Bool

structure CoreView extends ChainView where
  height : ℕ
  currentHardForkVersion : UInt8
  currentCumulativeBlockWeightLimit : UInt64
  /-- `check_tx_inputs` for a transaction of a block. -/
  checkBlockTxInputs : Transaction → Bool
  /-- `m_blocks_hash_of_hashes.size() * HASH_OF_HASHES_STEP`. -/
  hashArea : ℕ
  /-- `m_blocks_hash_check`, of this size or cleared. -/
  blocksHashCheck : List Hash
  blocksHashCheck_le : blocksHashCheck.length ≤ hashArea

def CoreView.isWithinCompiledBlockHashArea (view : CoreView) : Bool := view.height < view.hashArea

abbrev BadSemanticsTxes : Type := Finset Hash × Finset Hash

structure CoreState (ρ : Type) where
  mempool : Pool ρ
  badSemanticsTxes : BadSemanticsTxes
  /-- `m_blocks_txs_check` of the chain. -/
  blocksTxsCheck : List Hash

/-- A node that has not seen any transaction. -/
def CoreState.fresh (ρ : Type) (maxWeight : UInt64) : CoreState ρ :=
  ⟨.empty ρ maxWeight, (∅, ∅), []⟩

structure TxFlags where
  keepedByBlock : Bool
  relayed : Bool
  doNotRelay : Bool

def haveTxInPool {ρ : Type} (p : Pool ρ) (id : Hash) : Bool := (p.txpool.find id).isSome

section

variable (conf : CoreConfig) (crypto : CoreCrypto) (ops : CryptoOps) (cfg : Config)
  (view : CoreView)

/-! ### Semantics -/

def checkOutsValid (tx : Transaction) : Bool :=
  tx.vout.toList.all fun out =>
    match out.target with
    | .toKey key => (tx.version ≠ 1 || 0 < out.amount) && crypto.checkKey key
    | _ => false

def checkOverflow : UInt64 → List UInt64 → Bool
  | _, [] => true
  | money, amount :: amounts =>
      if amount + money < money then false else checkOverflow (money + amount) amounts

def inputAmounts : List Txin → Option (List UInt64)
  | [] => some []
  | .toKey amount _ _ :: vin => (inputAmounts vin).map (amount :: ·)
  | _ :: _ => none

def checkMoneyOverflow (tx : Transaction) : Bool :=
  match inputAmounts tx.vin.toList with
  | none => false
  | some amounts => checkOverflow 0 amounts && checkOverflow 0 (tx.vout.toList.map TxOut.amount)

def checkTxInputsKeyimagesDiff (tx : Transaction) : Bool :=
  checkInputsTypesSupported tx && decide (keyImages tx.vin.toList).Nodup

def checkTxInputsRingMembersDiff (tx : Transaction) : Bool :=
  view.currentHardForkVersion < 6 ||
    tx.vin.toList.all fun txin =>
      match txin with
      | .toKey _ keyOffsets _ => keyOffsets.toList.tail.all fun offset => offset ≠ 0
      | _ => false

def checkTxInputsKeyimagesDomain (tx : Transaction) : Bool :=
  tx.vin.toList.all fun txin =>
    match txin with
    | .toKey _ _ kImage => crypto.keyImageInDomain kImage
    | _ => false

/-- The weight that `check_tx_semantic` compares with the limit, which can throw. -/
def tooLarge (tx : Transaction) : Option Bool :=
  (getTransactionWeight tx (txToBlob cfg tx).length).map fun weight =>
    decide (view.currentCumulativeBlockWeightLimit - conf.coinbaseBlobReservedSize ≤
      weight.toUInt64)

/-- `check_tx_semantic`, or nothing when it throws. -/
def checkTxSemantic (tx : Transaction) (keepedByBlock : Bool) : Option Bool :=
  if tx.vin.toList = [] then some false
  else if checkInputsTypesSupported tx = false then some false
  else if checkOutsValid crypto tx = false then some false
  else if 1 < tx.version ∧ tx.rctSignatures.outPk.size ≠ tx.vout.size then some false
  else if checkMoneyOverflow tx = false then some false
  else if tx.version = 1 ∧ (getInputsMoneyAmount tx.vin.toList 0).getD 0 ≤
      getOutsMoneyAmount tx.vout.toList then some false
  else
    match (if keepedByBlock then some false else tooLarge conf cfg view tx) with
    | none => none
    | some true => some false
    | some false => some (checkTxInputsKeyimagesDiff tx && checkTxInputsRingMembersDiff view tx &&
        checkTxInputsKeyimagesDomain crypto tx)

def isCanonicalBulletproofLayout (proofs : List Bulletproof) : Bool :=
  match proofs with
  | [proof] => 0 < proof.v.toList.length && proof.v.toList.length ≤ conf.bulletproofMaxOutputs
  | _ => false

/-- The part of the first loop of the batch behind `check_tx_semantic`. A bulletproof
is only looked at, its verification is delayed. -/
def checkRctSemantic (tx : Transaction) : Bool :=
  if tx.version < 2 then true
  else if tx.rctSignatures.type = rctTypeNull then false
  else if tx.rctSignatures.type = rctTypeSimple then crypto.verRctSemanticsSimple tx.rctSignatures
  else if tx.rctSignatures.type = rctTypeFull then crypto.verRct tx.rctSignatures
  else if tx.rctSignatures.type = rctTypeBulletproof then
    isCanonicalBulletproofLayout conf tx.rctSignatures.p.bulletproofs.toList
  else false

def setSemanticsFailed (txHash : Hash) (bad : BadSemanticsTxes) : BadSemanticsTxes :=
  let first := insert txHash bad.1
  if badSemanticsTxesMaxSize ≤ first.card then (∅, first) else (first, bad.2)

/-! ### The batch -/

/-- One blob in `handle_incoming_txs`. There is a transaction with its hash as long as
its result is not `false`. -/
structure Incoming where
  blob : List UInt8
  tvc : TxVerificationContext
  parsed : Option (Transaction × Hash)
  alreadyHave : Bool

def Incoming.fail (e : Incoming) : Incoming :=
  ⟨e.blob, { e.tvc with verifivationFailed := true }, none, e.alreadyHave⟩

def Incoming.pending (e : Incoming) : Option (Transaction × Hash) :=
  if e.alreadyHave then none else e.parsed

/-- The first loop of `handle_incoming_tx_accumulated_batch`. The flag tells whether
it came to its end. -/
def checkEach (keepedByBlock : Bool) :
    List Incoming → BadSemanticsTxes → Bool × BadSemanticsTxes × List Incoming
  | [], bad => (true, bad, [])
  | e :: es, bad =>
      match e.pending with
      | none =>
          let rest := checkEach keepedByBlock es bad
          (rest.1, rest.2.1, e :: rest.2.2)
      | some (tx, hash) =>
          match checkTxSemantic conf crypto cfg view tx keepedByBlock with
          | none => (false, bad, e :: es)
          | some semantic =>
              if semantic && checkRctSemantic conf crypto tx then
                let rest := checkEach keepedByBlock es bad
                (rest.1, rest.2.1, e :: rest.2.2)
              else
                let rest := checkEach keepedByBlock es (setSemanticsFailed hash bad)
                (rest.1, rest.2.1, e.fail :: rest.2.2)

def delayed (es : List Incoming) : List RctSig :=
  es.filterMap fun e =>
    match e.pending with
    | some (tx, _) =>
        if 2 ≤ tx.version ∧ tx.rctSignatures.type = rctTypeBulletproof then
          some tx.rctSignatures
        else none
    | none => none

/-- The second loop of the batch, entered when the delayed verification failed. -/
def verifyEach (assumedBad : Bool) :
    List Incoming → BadSemanticsTxes → BadSemanticsTxes × List Incoming
  | [], bad => (bad, [])
  | e :: es, bad =>
      match e.pending with
      | none =>
          let rest := verifyEach assumedBad es bad
          (rest.1, e :: rest.2)
      | some (tx, hash) =>
          if tx.rctSignatures.type = rctTypeBulletproof ∧
              (assumedBad = true ∨ crypto.verRctSemanticsSimple tx.rctSignatures = false) then
            let rest := verifyEach assumedBad es (setSemanticsFailed hash bad)
            (rest.1, e.fail :: rest.2)
          else
            let rest := verifyEach assumedBad es bad
            (rest.1, e :: rest.2)

def handleIncomingTxAccumulatedBatch (keepedByBlock : Bool) (es : List Incoming)
    (bad : BadSemanticsTxes) : Bool × BadSemanticsTxes × List Incoming :=
  if keepedByBlock = true ∧ view.isWithinCompiledBlockHashArea = true then (true, bad, es)
  else
    let checked := checkEach conf crypto cfg view keepedByBlock es bad
    if checked.1 = true ∧
        (delayed checked.2.2).all crypto.verRctSemanticsSimple = false then
      let verified := verifyEach crypto ((delayed checked.2.2).length = 1) checked.2.2 checked.2.1
      (true, verified.1, verified.2)
    else checked

/-! ### The intake -/

variable {ρ : Type} [DecidableEq ρ] (fr : FeeRate ρ)

def maxTxVersion : UInt64 := if view.currentHardForkVersion < conf.hfVersionAllowRct then 1 else 2

def handleIncomingTxPre (c : CoreState ρ) (blob : List UInt8) :
    TxVerificationContext × Option (Transaction × Hash) :=
  if conf.maxTxSize < blob.length then
    ({ (default : TxVerificationContext) with verifivationFailed := true, tooBig := true }, none)
  else
    match parseAndValidateTxFromBlob ops cfg blob with
    | none => ({ (default : TxVerificationContext) with verifivationFailed := true }, none)
    | some tx =>
        let hash := getTransactionHash ops cfg tx
        if hash ∈ c.badSemanticsTxes.1 ∨ hash ∈ c.badSemanticsTxes.2 ∨ tx.version = 0 ∨
            maxTxVersion conf view < tx.version then
          ({ (default : TxVerificationContext) with verifivationFailed := true }, none)
        else (default, some (tx, hash))

/-- The first two loops of `handle_incoming_txs` at one blob. -/
def incoming (c : CoreState ρ) (blob : List UInt8) : Incoming :=
  let pre := handleIncomingTxPre conf ops cfg view c blob
  ⟨blob, pre.1, pre.2,
    match pre.2 with
    | none => false
    | some (_, hash) => haveTxInPool c.mempool hash || view.haveTx hash⟩

def onNewTxFromBlock (tx : Transaction) (blocksTxsCheck : List Hash) : List Hash :=
  if view.height < view.blocksHashCheck.length then
    blocksTxsCheck ++ [getTransactionHash ops cfg tx]
  else blocksTxsCheck

def addNewTx (tx : Transaction) (txHash : Hash) (txWeight : UInt64)
    (tvc : TxVerificationContext) (flags : TxFlags) (c : CoreState ρ) :
    Bool × TxVerificationContext × CoreState ρ :=
  let blocksTxsCheck :=
    if flags.keepedByBlock then onNewTxFromBlock ops cfg view tx c.blocksTxsCheck
    else c.blocksTxsCheck
  if haveTxInPool c.mempool txHash || view.haveTx txHash then
    (true, tvc, ⟨c.mempool, c.badSemanticsTxes, blocksTxsCheck⟩)
  else
    let added := addTx fr ops cfg view.toChainView
      ⟨tx, txHash, txWeight, flags.keepedByBlock, flags.relayed, flags.doNotRelay,
        view.currentHardForkVersion⟩ tvc c.mempool
    (added.1, added.2.1, ⟨added.2.2, c.badSemanticsTxes, blocksTxsCheck⟩)

/-- The last loop of `handle_incoming_txs`. When a weight throws, it ends there and
`false` is returned. -/
def addEach (flags : TxFlags) :
    List Incoming → CoreState ρ → Bool × List TxVerificationContext × CoreState ρ
  | [], c => (true, [], c)
  | e :: es, c =>
      if e.alreadyHave then
        let rest := addEach flags es c
        (rest.1, e.tvc :: rest.2.1, rest.2.2)
      else
        match e.parsed with
        | none =>
            let rest := addEach flags es c
            (false, e.tvc :: rest.2.1, rest.2.2)
        | some (tx, hash) =>
            match getTransactionWeight tx e.blob.length with
            | none => (false, (e :: es).map Incoming.tvc, c)
            | some weight =>
                let added := addNewTx ops cfg view fr tx hash weight.toUInt64 e.tvc flags c
                let rest := addEach flags es added.2.2
                (added.1 && rest.1, added.2.1 :: rest.2.1, rest.2.2)

def handleIncomingTxs (flags : TxFlags) (txBlobs : List (List UInt8)) (c : CoreState ρ) :
    Bool × List TxVerificationContext × CoreState ρ :=
  let batch := handleIncomingTxAccumulatedBatch conf crypto cfg view flags.keepedByBlock
    (txBlobs.map (incoming conf ops cfg view c)) c.badSemanticsTxes
  let checked : CoreState ρ := ⟨c.mempool, batch.2.1, c.blocksTxsCheck⟩
  if batch.1 then addEach ops cfg view fr flags batch.2.2 checked
  else (false, batch.2.2.map Incoming.tvc, checked)

/-! ### The transactions of a block -/

/-- Whether `handle_block_to_main_chain` takes the fast path, or nothing when the
block is not the expected one. -/
def fastCheck (b : Block) : Option Bool :=
  match view.blocksHashCheck[view.height]? with
  | none => some false
  | some expectedHash =>
      if expectedHash = nullHash then some false
      else if getBlockHash ops cfg b = some expectedHash then some true
      else none

def fastCheckAccepts (blocksTxsCheck : List Hash) (txIndex : ℕ) (txId : Hash) : Bool :=
  blocksTxsCheck[txIndex]? = some txId

inductive BlockTxsError
  | alreadyInBlockchain (txId : Hash)
  | unknownTransaction (txId : Hash)
  | wrongInputs (txId : Hash)
  deriving DecidableEq

structure BlockTxs where
  txs : List Transaction
  feeSummary : UInt64
  cumulativeBlockWeight : UInt64
  deriving DecidableEq

/-- The loop of `handle_block_to_main_chain` over the ids of a block, from index
`txIndex` on. What goes back to the pool when it stops early is left out. -/
def takeBlockTxs (fast : Bool) (blocksTxsCheck : List Hash) :
    List Hash → ℕ → BlockTxs → Pool ρ → Except BlockTxsError (BlockTxs × Pool ρ)
  | [], _, acc, p => .ok (acc, p)
  | txId :: txIds, txIndex, acc, p =>
      if view.haveTx txId then .error (.alreadyInBlockchain txId)
      else
        match takeTx ops cfg txId p with
        | (none, _) => .error (.unknownTransaction txId)
        | (some taken, p) =>
            let accepted :=
              if fast then fastCheckAccepts blocksTxsCheck txIndex txId
              else view.checkBlockTxInputs taken.tx
            if accepted then
              takeBlockTxs fast blocksTxsCheck txIds (txIndex + 1)
                ⟨acc.txs ++ [taken.tx], acc.feeSummary + taken.fee,
                  acc.cumulativeBlockWeight + taken.txWeight⟩ p
            else .error (.wrongInputs txId)

end

end XrCoin.Core

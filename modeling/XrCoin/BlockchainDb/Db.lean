import Mathlib
import XrCoin.Cryptonote.Hashes
import XrCoin.Lmdb.Table

/-!
The tables of the blockchain database, and how blocks are added and popped.

A program works on the content of the write transaction. An exception leaves the
content as it is at that point: giving it up is the business of the transaction
around it. Failures of the storage itself are left out, as are the table of hard
fork versions, which no other table depends on, and the running size statistics.
-/

namespace XrCoin.BlockchainDb

open Archive Cryptonote Lmdb

/-! ### Data -/

inductive DbError
  | keyImageExists (what : String)
  | txExists (what : String)
  | txDne (what : String)
  | blockExists (what : String)
  | blockParentDne (what : String)
  | blockDne (what : String)
  | outputDne (what : String)
  | dbError (what : String)
  | dbErrorTxnStart (what : String)
  | runtimeError (what : String)
  deriving DecidableEq

structure BlockInfo where
  timestamp : UInt64
  coins : UInt64
  weight : UInt64
  diffHi : UInt64
  diffLo : UInt64
  hash : Hash
  cumRct : UInt64
  longTermBlockWeight : UInt64
  deriving DecidableEq

structure TxIndex where
  txId : ℕ
  unlockTime : UInt64
  blockId : ℕ
  deriving DecidableEq

structure OutTx where
  txHash : Hash
  localIndex : ℕ
  deriving DecidableEq

/-- `outkey`; the amount index is the key. Only outputs of amount 0 have a
commitment. -/
structure OutKey where
  outputId : ℕ
  pubkey : PublicKey
  unlockTime : UInt64
  height : ℕ
  commitment : Option Key
  deriving DecidableEq

@[ext]
structure Db where
  blocks : Table (List UInt8)
  blockInfo : Table BlockInfo
  blockHeights : Hash → Option ℕ
  txIndices : Hash → Option TxIndex
  txsPruned : Table (List UInt8)
  txsPrunable : Table (List UInt8)
  txsPrunableHash : Table Hash
  txOutputs : Table (List ℕ)
  outputTxs : Table OutTx
  outputAmounts : UInt64 → Table OutKey
  spentKeys : Finset KeyImage

def Db.empty : Db where
  blocks := .empty
  blockInfo := .empty
  blockHeights := fun _ => none
  txIndices := fun _ => none
  txsPruned := .empty
  txsPrunable := .empty
  txsPrunableHash := .empty
  txOutputs := .empty
  outputTxs := .empty
  outputAmounts := fun _ => .empty
  spentKeys := ∅

def Db.height (db : Db) : ℕ := db.blocks.count

def Db.getTxCount (db : Db) : ℕ := db.txsPruned.count

def Db.numOutputs (db : Db) : ℕ := db.outputTxs.count

abbrev DbM (α : Type) : Type := EStateM DbError Db α

/-! ### Messages -/

def mdbKeyexist : String := "MDB_KEYEXIST: Key/data pair already exists"

def mdbNotfound : String := "MDB_NOTFOUND: No matching key/data pair found"

def hexDigit (n : UInt8) : Char :=
  if n < 10 then Char.ofNat (48 + n.toNat) else Char.ofNat (87 + n.toNat)

def podToHex (h : Hash) : String :=
  String.ofList (h.toList.flatMap fun (b : UInt8) => [hexDigit (b >>> 4), hexDigit (b &&& 0xf)])

/-- Throws `e` when there is no value. -/
def orThrow {α : Type} (e : DbError) : Option α → DbM α
  | some a => pure a
  | none => throw e

/-! ### Spent keys -/

def addSpentKey (kImage : KeyImage) : DbM Unit := fun db =>
  if kImage ∈ db.spentKeys then
    .error (.keyImageExists "Attempting to add spent key image that's already in the db") db
  else .ok () { db with spentKeys := insert kImage db.spentKeys }

def removeSpentKey (kImage : KeyImage) : DbM Unit := fun db =>
  .ok () { db with spentKeys := db.spentKeys.erase kImage }

def removeSpentKeys : List Txin → DbM Unit
  | [] => pure ()
  | .toKey _ _ kImage :: vin => do
      removeSpentKey kImage
      removeSpentKeys vin
  | _ :: vin => removeSpentKeys vin

/-- The loop over the inputs of a transaction that is added, `vin` being all of
them. The result is `miner_tx`, or nothing when an input of another type made
the loop take all keys back. -/
def addInputs (vin : List Txin) : List Txin → Bool → DbM (Option Bool)
  | [], minerTx => pure (some minerTx)
  | .toKey _ _ kImage :: rest, minerTx => do
      addSpentKey kImage
      addInputs vin rest minerTx
  | .gen _ :: rest, _ => addInputs vin rest true
  | .toScript _ _ _ :: _, _ | .toScriptHash _ _ _ _ :: _, _ => do
      removeSpentKeys vin
      pure none

/-! ### Outputs -/

def putOutput (txHash : Hash) (amount : UInt64) (localIndex : ℕ) (outkey : OutKey) : DbM ℕ :=
  fun db =>
    match db.outputTxs.append db.numOutputs ⟨txHash, localIndex⟩ with
    | none => .error (.dbError ("Failed to add output tx hash to db transaction: " ++ mdbKeyexist)) db
    | some outputTxs =>
        let amountIndex := (db.outputAmounts amount).count
        match (db.outputAmounts amount).append amountIndex outkey with
        | none => .error (.dbError ("Failed to add output pubkey to db transaction: " ++ mdbKeyexist))
            { db with outputTxs }
        | some outkeys => .ok amountIndex
            { db with outputTxs, outputAmounts := Function.update db.outputAmounts amount outkeys }

def addOutput (txHash : Hash) (txOutput : TxOut) (localIndex : ℕ) (unlockTime : UInt64)
    (commitment : Option Key) : DbM ℕ :=
  match txOutput.target with
  | .toKey key =>
      if txOutput.amount = 0 ∧ commitment = none then
        throw (.dbError "RCT output without commitment")
      else do
        let db ← get
        putOutput txHash txOutput.amount localIndex
          ⟨db.numOutputs, key, unlockTime, db.height,
            if txOutput.amount = 0 then commitment else none⟩
  | _ => throw (.dbError "Wrong output type: expected txout_to_key")

def removeOutput (amount : UInt64) (outIndex : ℕ) : DbM Unit := fun db =>
  match (db.outputAmounts amount).get outIndex with
  | none => .error (.outputDne
      "Attempting to get an output index by amount and amount index, but amount not found") db
  | some ok =>
      match db.outputTxs.get ok.outputId with
      | none => .error (.dbError "Unexpected: global output index not found in m_output_txs") db
      | some _ => .ok ()
          { db with
            outputTxs := db.outputTxs.erase ok.outputId
            outputAmounts := Function.update db.outputAmounts amount
              ((db.outputAmounts amount).erase outIndex) }

section

variable (ops : CryptoOps) (cfg : Config)

def hasPrunableHash (tx : TransactionPrefix) : Bool :=
  2 ≤ tx.version ∨ tx.version = 1 ∧ 0 < tx.minorVersion

/-- The output as it is added, and its commitment. The outputs of a version 2
miner transaction are stored as outputs of amount 0. Reading past the end of
`outPk`, which is undefined in the source, gives no commitment. -/
def addedOutput (tx : Transaction) (minerTx : Bool) (i : ℕ) (out : TxOut) :
    TxOut × Option Key :=
  if minerTx ∧ tx.version = 2 then (⟨0, out.target⟩, some (ops.zeroCommit out.amount))
  else if 1 < tx.version then (out, tx.rctSignatures.outPk.toList[i]?.map CtKey.mask)
  else (out, none)

def addOutputs (tx : Transaction) (txHash : Hash) (minerTx : Bool) :
    ℕ → List TxOut → DbM (List ℕ)
  | _, [] => pure []
  | i, out :: outs => do
      let index ← addOutput txHash (addedOutput ops tx minerTx i out).1 i tx.unlockTime
        (addedOutput ops tx minerTx i out).2
      let indices ← addOutputs tx txHash minerTx (i + 1) outs
      pure (index :: indices)

def addTxAmountOutputIndices (txId : ℕ) (indices : List ℕ) : DbM Unit := fun db =>
  match db.txOutputs.append txId indices with
  | none => .error (.dbError ("Failed to add <tx hash, amount output index array> to db " ++
      "transaction: " ++ mdbKeyexist)) db
  | some txOutputs => .ok () { db with txOutputs }

/-- `get_tx_amount_output_indices`: a missing entry is only logged. -/
def Db.getTxAmountOutputIndices (db : Db) (txId : ℕ) : List ℕ :=
  (db.txOutputs.get txId).getD []

/-- The amount under which `remove_tx_outputs` looks for an output. -/
def removedAmount (tx : TransactionPrefix) (out : TxOut) : UInt64 :=
  match tx.vin.toList with
  | [.gen _] => if 2 ≤ tx.version then 0 else out.amount
  | _ => out.amount

def removeOutputs (tx : TransactionPrefix) : List (TxOut × ℕ) → DbM Unit
  | [] => pure ()
  | (out, index) :: outs => do
      removeOutputs tx outs
      removeOutput (removedAmount tx out) index

/-- `remove_tx_outputs`. There are as many indices as outputs for a transaction
that was added. -/
def removeTxOutputs (txId : ℕ) (tx : TransactionPrefix) : DbM Unit := do
  let db ← get
  if db.getTxAmountOutputIndices txId = [] ∧ tx.vout.toList ≠ [] then
    throw (.dbError "tx has outputs, but no output indices found")
  else removeOutputs tx (tx.vout.toList.zip (db.getTxAmountOutputIndices txId))

/-! ### Transactions -/

def serializeBase (tx : Transaction) : Out :=
  saveTransactionPrefix cfg tx.toTransactionPrefix ++
    if tx.version = 1 then .emit []
    else .saveIf (tx.vin.toList ≠ [])
      (saveRctSigBase tx.vin.size tx.vout.size tx.rctSignatures.toRctSigBase)

def putTransaction (tx : Transaction) (txPrunableHash : Hash) : DbM ℕ := fun db =>
  let pruned := serializeBase cfg tx
  let blob := txToBlob cfg tx
  if pruned.ok = false then .error (.dbError "Failed to serialize pruned tx") db
  else match db.txsPruned.append db.getTxCount pruned.bytes with
  | none => .error (.dbError ("Failed to add pruned tx blob to db transaction: " ++ mdbKeyexist)) db
  | some txsPruned =>
    if blob.length < pruned.bytes.length then
      .error (.dbError "pruned tx size is larger than tx size") { db with txsPruned }
    else match db.txsPrunable.append db.getTxCount (blob.drop pruned.bytes.length) with
    | none => .error (.dbError ("Failed to add prunable tx blob to db transaction: " ++ mdbKeyexist))
        { db with txsPruned }
    | some txsPrunable =>
      if hasPrunableHash tx.toTransactionPrefix then
        match db.txsPrunableHash.append db.getTxCount txPrunableHash with
        | none => .error (.dbError ("Failed to add prunable tx prunable hash to db transaction: " ++
            mdbKeyexist)) { db with txsPruned, txsPrunable }
        | some txsPrunableHash =>
            .ok db.getTxCount { db with txsPruned, txsPrunable, txsPrunableHash }
      else .ok db.getTxCount { db with txsPruned, txsPrunable }

/-- The entry `add_transaction_data` makes before the data. -/
def putTxIndex (txHash : Hash) (unlockTime : UInt64) : DbM Unit := fun db =>
  match db.txIndices txHash with
  | some tip => .error (.txExists ("Attempting to add transaction that's already in the db (tx id " ++
      toString tip.txId ++ ")")) db
  | none => .ok () { db with
      txIndices := Function.update db.txIndices txHash (some ⟨db.getTxCount, unlockTime, db.height⟩) }

/-- `add_transaction_data`. The hash of the block is not used by the source. -/
def addTransactionData (tx : Transaction) (txHash txPrunableHash : Hash) : DbM ℕ := do
  putTxIndex txHash tx.unlockTime
  putTransaction cfg tx txPrunableHash

/-- The prunable hash of `add_transaction`. It is not initialised, and not used,
for a transaction without one. -/
def prunableHashToAdd (tx : Transaction) : DbM Hash :=
  if hasPrunableHash tx.toTransactionPrefix then
    orThrow (.runtimeError "Failed to calculate tx prunable hash")
      (calculateTransactionPrunableHash ops tx)
  else pure nullHash

/-- `add_transaction` with the hash that is given or calculated. After an input
of an unsupported type it returns as if the transaction were there. -/
def addTransaction (tx : Transaction) (txHash : Hash) : DbM Unit := do
  let txPrunableHash ← prunableHashToAdd ops tx
  match ← addInputs tx.vin.toList tx.vin.toList false with
  | none => pure ()
  | some minerTx => do
      let txId ← addTransactionData cfg tx txHash txPrunableHash
      let indices ← addOutputs ops tx txHash minerTx 0 tx.vout.toList
      addTxAmountOutputIndices txId indices

def Db.getTxBlob (db : Db) (h : Hash) : Option (List UInt8) := do
  let tip ← db.txIndices h
  let pruned ← db.txsPruned.get tip.txId
  let prunable ← db.txsPrunable.get tip.txId
  some (pruned ++ prunable)

def getTx (h : Hash) : DbM Transaction := do
  let db ← get
  let blob ← orThrow (.txDne ("tx with hash " ++ podToHex h ++ " not found in db")) (db.getTxBlob h)
  orThrow (.dbError "Failed to parse transaction from blob retrieved from the db")
    (parseAndValidateTxFromBlob ops cfg blob)

def deleteTransaction (tx : TransactionPrefix) (txId : ℕ) : DbM Unit := fun db =>
  if db.txsPruned.get txId = none then
    .error (.dbError ("Failed to locate pruned tx for removal: " ++ mdbNotfound)) db
  else
    let db := { db with txsPruned := db.txsPruned.erase txId }
    if db.txsPrunable.get txId = none then
      .error (.dbError ("Failed to locate prunable tx for removal: " ++ mdbNotfound)) db
    else
      let db := { db with txsPrunable := db.txsPrunable.erase txId }
      if hasPrunableHash tx = false then .ok () db
      else if db.txsPrunableHash.get txId = none then
        .error (.dbError ("Failed to locate prunable hash tx for removal: " ++ mdbNotfound)) db
      else .ok () { db with txsPrunableHash := db.txsPrunableHash.erase txId }

/-- The entry of the output indices and that of the hash, which go last. -/
def deleteTxIndex (txHash : Hash) (txId : ℕ) : DbM Unit := fun db =>
  .ok () { db with
    txOutputs := db.txOutputs.erase txId
    txIndices := Function.update db.txIndices txHash none }

def removeTransactionData (txHash : Hash) (tx : TransactionPrefix) : DbM Unit := do
  let db ← get
  let tip ← orThrow (.txDne "Attempting to remove transaction that isn't in the db")
    (db.txIndices txHash)
  deleteTransaction tx tip.txId
  removeTxOutputs tip.txId tx
  deleteTxIndex txHash tip.txId

def removeTransaction (txHash : Hash) : DbM Unit := do
  let tx ← getTx ops cfg txHash
  removeSpentKeys tx.vin.toList
  removeTransactionData txHash tx.toTransactionPrefix

/-! ### Blocks -/

structure BlockMeta where
  blockWeight : UInt64
  longTermBlockWeight : UInt64
  cumulativeDifficulty : ℕ
  coinsGenerated : UInt64
  deriving DecidableEq

/-- `get_block_hash`: the null hash when there is none. -/
def blockHashOrNull (b : Block) : Hash := (getBlockHash ops cfg b).getD nullHash

def Db.checkBlock (db : Db) (b : Block) (blkHash : Hash) : Except DbError Unit :=
  if (db.blockHeights blkHash).isSome then
    .error (.blockExists "Attempting to add block that's already in the db")
  else if db.height = 0 then .ok ()
  else match db.blockHeights b.prevId with
  | none => .error (.dbError
      ("Failed to get top block hash to check for new block's parent: " ++ mdbNotfound))
  | some prevHeight =>
      if prevHeight = db.height - 1 then .ok ()
      else .error (.blockParentDne "Top block is not new block's parent")

/-- The count of RCT outputs up to this block. Before major version 4 the count
of the previous block is not added. -/
def Db.cumRct (db : Db) (b : Block) (numRctOuts : UInt64) : Option UInt64 :=
  if 4 ≤ b.majorVersion then do
    if db.height = 0 then none
    else
      let prev ← db.blockInfo.get (db.height - 1)
      some (numRctOuts + prev.cumRct)
  else some numRctOuts

def blockInfoOf (b : Block) (m : BlockMeta) (blkHash : Hash) (cumRct : UInt64) : BlockInfo where
  timestamp := b.timestamp
  coins := m.coinsGenerated
  weight := m.blockWeight
  diffHi := UInt64.ofNat (m.cumulativeDifficulty >>> 64)
  diffLo := UInt64.ofNat m.cumulativeDifficulty
  hash := blkHash
  cumRct := cumRct
  longTermBlockWeight := m.longTermBlockWeight

/-- `BlockchainLMDB::add_block` with a block hash, the part that writes the block
itself. -/
def putBlock (b : Block) (m : BlockMeta) (numRctOuts : UInt64) (blkHash : Hash) : DbM Unit :=
  fun db =>
    match db.checkBlock b blkHash with
    | .error e => .error e db
    | .ok () =>
      match db.blocks.append db.height (blockToBlob cfg b) with
      | none => .error (.dbError ("Failed to add block blob to db transaction: " ++ mdbKeyexist)) db
      | some blocks =>
        match db.cumRct b numRctOuts with
        | none => .error (.blockDne ("Failed to get block info: " ++ mdbNotfound)) { db with blocks }
        | some cumRct =>
          match db.blockInfo.append db.height (blockInfoOf b m blkHash cumRct) with
          | none => .error (.dbError ("Failed to add block info to db transaction: " ++ mdbKeyexist))
              { db with blocks }
          | some blockInfo => .ok ()
              { db with
                blocks, blockInfo
                blockHeights := Function.update db.blockHeights blkHash (some db.height) }

/-- The loop over the transactions of a block. The result is the number of their
outputs of amount 0. -/
def addTransactions : List (Hash × Transaction) → DbM UInt64
  | [] => pure 0
  | (txHash, tx) :: txs => do
      addTransaction ops cfg tx txHash
      let numRctOuts ← addTransactions txs
      pure (UInt64.ofNat (tx.vout.toList.countP fun out => out.amount = 0) + numRctOuts)

def minerRctOuts (b : Block) : UInt64 := if b.minerTx.version = 2 then b.minerTx.vout.size else 0

/-- What `BlockchainDB::add_block` writes between the start and the end of its
transaction. -/
def writeBlock (b : Block) (m : BlockMeta) (txs : List Transaction) : DbM ℕ := do
  let db ← get
  addTransaction ops cfg b.minerTx (getTransactionHash ops cfg b.minerTx)
  let numRctOuts ← addTransactions ops cfg (b.txHashes.toList.zip txs)
  putBlock cfg b m (minerRctOuts b + numRctOuts) (blockHashOrNull ops cfg b)
  pure db.height

/-- `BlockchainDB::add_block`. -/
def addBlock (b : Block) (m : BlockMeta) (txs : List Transaction) : DbM ℕ :=
  if b.txHashes.toList.length = txs.length then writeBlock ops cfg b m txs
  else throw (.runtimeError "Inconsistent tx/hashes sizes")

def getBlockFromHeight (height : ℕ) : DbM Block := do
  let db ← get
  let blob ← orThrow (.blockDne ("Attempt to get block from height " ++ toString height ++
    " failed -- block not in db")) (db.blocks.get height)
  orThrow (.dbError "Failed to parse block from blob retrieved from the db")
    (parseAndValidateBlockFromBlob cfg blob)

def emptyBlock : Block :=
  ⟨⟨0, 0, 0, nullHash, 0⟩, ⟨⟨1, 0, 0, .nil, .nil, .nil⟩, .nil, default, default⟩, .nil⟩

def getTopBlock : DbM Block := do
  let db ← get
  if db.height ≠ 0 then getBlockFromHeight cfg (db.height - 1) else pure emptyBlock

/-- `remove_block`. The entry of `blocks` it deletes is the one the cursor stands
on since `get_top_block`. -/
def removeBlock : DbM Unit := fun db =>
  if db.height = 0 then
    .error (.blockDne "Attempting to remove block from an empty blockchain") db
  else match db.blockInfo.get (db.height - 1) with
  | none => .error (.blockDne ("Attempting to remove block that's not in the db: " ++ mdbNotfound)) db
  | some bi =>
    if db.blockHeights bi.hash = none then
      .error (.dbError ("Failed to locate block height by hash for removal: " ++ mdbNotfound)) db
    else .ok ()
      { db with
        blocks := db.blocks.erase (db.height - 1)
        blockInfo := db.blockInfo.erase (db.height - 1)
        blockHeights := Function.update db.blockHeights bi.hash none }

/-- The loop of `pop_block` over the hashes, from the last to the first. -/
def popTransactions : List Hash → DbM (List Transaction)
  | [] => pure []
  | h :: hashes => do
      let txs ← popTransactions hashes
      let tx ← getTx ops cfg h
      removeTransaction ops cfg h
      pure (txs ++ [tx])

def popBlock : DbM (Block × List Transaction) := do
  let b ← getTopBlock cfg
  removeBlock
  let txs ← popTransactions ops cfg b.txHashes.toList
  removeTransaction ops cfg (getTransactionHash ops cfg b.minerTx)
  pure (b, txs)

end

end XrCoin.BlockchainDb

import Mathlib
import XrCoin.Cryptonote.Hashes
import XrCoin.Cryptonote.Reparse

/-!
The transaction pool: what it stores, and the operations that change it.

What the pool asks the chain for, the clock included, is a parameter of each
operation (`ChainView`). The fee per byte, a floating point number, is only ever
compared, so its type and its order are parameters too. The cookie that counts
changes and the flags that the chain sets in a verification context are left out,
and so is the cache of input checks: its answers are answers of the view.
-/

namespace XrCoin.TxPool

open Archive Cryptonote

/-! ### The stored transactions -/

structure TxpoolMeta where
  maxUsedBlockId : Hash
  lastFailedId : Hash
  weight : UInt64
  fee : UInt64
  maxUsedBlockHeight : UInt64
  lastFailedHeight : UInt64
  receiveTime : UInt64
  lastRelayedTime : UInt64
  keptByBlock : Bool
  relayed : Bool
  doNotRelay : Bool
  doubleSpendSeen : Bool
  deriving DecidableEq

structure PoolRow where
  txid : Hash
  info : TxpoolMeta
  blob : List UInt8
  deriving DecidableEq

/-- The two tables. The order of the rows is not that of the keys; nothing
depends on it. -/
@[ext]
structure Txpool where
  rows : List PoolRow
  ids_nodup : (rows.map PoolRow.txid).Nodup

namespace Txpool

def empty : Txpool := ⟨[], by simp⟩

def find (t : Txpool) (id : Hash) : Option PoolRow := t.rows.find? fun row => row.txid = id

/-- `remove_txpool_tx`: a missing row is no failure. -/
def remove (t : Txpool) (id : Hash) : Txpool :=
  ⟨t.rows.filter fun row => row.txid ≠ id, by
    exact (List.filter_sublist.map PoolRow.txid).nodup t.ids_nodup⟩

theorem txid_remove {t : Txpool} {id : Hash} : id ∉ (t.remove id).rows.map PoolRow.txid := by
  intro hmem
  obtain ⟨row, hrow, rfl⟩ := List.mem_map.mp hmem
  have hne := List.of_mem_filter hrow
  simp at hne

/-- `add_txpool_tx`. The tables have no duplicates, so a row with the same id is
overwritten. -/
def put (t : Txpool) (row : PoolRow) : Txpool :=
  ⟨(t.remove row.txid).rows ++ [row], by
    rw [List.map_append, List.map_singleton, List.nodup_append]
    refine ⟨(t.remove row.txid).ids_nodup, List.nodup_singleton _, ?_⟩
    intro a ha b hb
    rw [List.mem_singleton.mp hb]
    rintro rfl
    exact txid_remove ha⟩

/-- `update_txpool_tx` for the rows whose ids `p` holds. -/
def updateInfo (t : Txpool) (p : Hash → Bool) (f : TxpoolMeta → TxpoolMeta) : Txpool :=
  ⟨t.rows.map fun row => if p row.txid then ⟨row.txid, f row.info, row.blob⟩ else row, by
    have hids : (t.rows.map fun row =>
        if p row.txid then ⟨row.txid, f row.info, row.blob⟩ else row).map PoolRow.txid =
          t.rows.map PoolRow.txid := by
      rw [List.map_map]
      refine List.map_congr_left fun row _ => ?_
      simp only [Function.comp]
      split <;> rfl
    rw [hids]
    exact t.ids_nodup⟩

end Txpool

/-! ### The sorted container -/

structure FeeRate (ρ : Type) where
  rate : UInt64 → UInt64 → ρ
  lt : ρ → ρ → Bool

structure SortedEntry (ρ : Type) where
  rate : ρ
  receiveTime : UInt64
  id : Hash
  deriving DecidableEq

section Sorted

variable {ρ : Type} (fr : FeeRate ρ)

def txCompare (a b : SortedEntry ρ) : Bool :=
  if fr.lt b.rate a.rate then true
  else if fr.lt a.rate b.rate then false
  else if a.receiveTime < b.receiveTime then true
  else if b.receiveTime < a.receiveTime then false
  else a.id ≠ b.id

/-- `emplace` on the ordered set: an equivalent entry is not inserted again. -/
def emplace (e : SortedEntry ρ) : List (SortedEntry ρ) → List (SortedEntry ρ)
  | [] => [e]
  | x :: xs =>
      if txCompare fr e x then e :: x :: xs
      else if txCompare fr x e then x :: emplace e xs
      else x :: xs

/-- `find_tx_in_sorted_container` and the erasing of what it found. -/
def eraseId (id : Hash) (sorted : List (SortedEntry ρ)) : List (SortedEntry ρ) :=
  sorted.eraseP fun e => e.id = id

end Sorted

/-! ### Spent key images -/

/-- `key_images_container`: no entry, or an entry with a set of ids. -/
abbrev KeyImagesContainer : Type := KeyImage → Option (Finset Hash)

/-- `insert_key_images`. Indexing the container makes an empty entry where there
is none, and a failure leaves what was inserted before. -/
def insertKeyImages (id : Hash) (keptByBlock : Bool) :
    List Txin → KeyImagesContainer → Bool × KeyImagesContainer
  | [], images => (true, images)
  | .toKey _ _ kImage :: vin, images =>
      let set := (images kImage).getD ∅
      if keptByBlock = false ∧ set ≠ ∅ ∨ id ∈ set then
        (false, Function.update images kImage (some set))
      else insertKeyImages id keptByBlock vin
        (Function.update images kImage (some (insert id set)))
  | _ :: _, images => (false, images)

/-- `remove_transaction_keyimages`. It returns early at the first input it does
not find. -/
def removeTransactionKeyimages (actualHash : Hash) :
    List Txin → KeyImagesContainer → Bool × KeyImagesContainer
  | [], images => (true, images)
  | .toKey _ _ kImage :: vin, images =>
      match images kImage with
      | none => (false, images)
      | some set =>
          if actualHash ∈ set then
            removeTransactionKeyimages actualHash vin (Function.update images kImage
              (if set.erase actualHash = ∅ then none else some (set.erase actualHash)))
          else (false, images)
  | _ :: _, images => (false, images)

/-! ### The pool -/

structure Pool (ρ : Type) where
  txpool : Txpool
  spentKeyImages : KeyImagesContainer
  sorted : List (SortedEntry ρ)
  timedOutTransactions : Finset Hash
  txpoolWeight : UInt64
  txpoolMaxWeight : UInt64

def Pool.empty (ρ : Type) (maxWeight : UInt64) : Pool ρ :=
  ⟨.empty, fun _ => none, [], ∅, 0, maxWeight⟩

structure ChainView where
  checkFee : UInt64 → UInt64 → Bool
  checkTxOutputs : Transaction → Bool
  /-- `check_tx_inputs`, with the highest block used when it succeeds. -/
  checkTxInputs : Transaction → Bool → Option (UInt64 × Hash)
  haveTx : Hash → Bool
  /-- `get_transaction_weight_limit`. -/
  transactionWeightLimit : UInt8 → UInt64
  now : UInt64

structure PoolConfig where
  defaultTxpoolMaxWeight : UInt64
  mempoolTxLivetime : UInt64
  mempoolTxFromAltBlockLivetime : UInt64

structure TxVerificationContext where
  shouldBeRelayed : Bool
  verifivationFailed : Bool
  verifivationImpossible : Bool
  addedToPool : Bool
  doubleSpend : Bool
  invalidInput : Bool
  invalidOutput : Bool
  tooBig : Bool
  overspend : Bool
  feeTooLow : Bool
  deriving DecidableEq, Inhabited

section Operations

variable {ρ : Type} [DecidableEq ρ] (fr : FeeRate ρ) (ops : CryptoOps) (cfg : Config)

/-- Takes a transaction out of the tables, the weight and the key images. The
failure of `remove_transaction_keyimages` is not looked at. -/
def Pool.drop (id : Hash) (vin : List Txin) (weight : UInt64) (p : Pool ρ) : Pool ρ :=
  ⟨p.txpool.remove id, (removeTransactionKeyimages id vin p.spentKeyImages).2, p.sorted,
    p.timedOutTransactions, p.txpoolWeight - weight, p.txpoolMaxWeight⟩

def Pool.withSorted (sorted : List (SortedEntry ρ)) (p : Pool ρ) : Pool ρ :=
  ⟨p.txpool, p.spentKeyImages, sorted, p.timedOutTransactions, p.txpoolWeight, p.txpoolMaxWeight⟩

/-- The loop of `prune`, over the entries from the last to the second. What is
subtracted from the weight is the receive time of the entry. -/
def pruneLoop (bytes : UInt64) : List (SortedEntry ρ) → Pool ρ → Pool ρ
  | [], p => p
  | s :: rest, p =>
      if p.txpoolWeight ≤ bytes then p
      else
        match p.txpool.find s.id with
        | none => p
        | some row =>
            if row.info.keptByBlock then pruneLoop bytes rest p
            else
              match parseAndValidateTxPrefixFromBlob cfg row.blob with
              | none => p
              | some tx => pruneLoop bytes rest
                  ((p.drop s.id tx.vin.toList s.receiveTime).withSorted (p.sorted.erase s))

def prune (bytes : UInt64) (p : Pool ρ) : Pool ρ :=
  pruneLoop cfg (if bytes = 0 then p.txpoolMaxWeight else bytes) p.sorted.tail.reverse p

/-! ### Adding -/

def checkInputsTypesSupported (tx : Transaction) : Bool :=
  tx.vin.toList.all fun txin => txin.keyImage.isSome

def getInputsMoneyAmount : List Txin → UInt64 → Option UInt64
  | [], money => some money
  | .toKey amount _ _ :: vin, money => getInputsMoneyAmount vin (money + amount)
  | _ :: _, _ => none

def getOutsMoneyAmount (vout : List TxOut) : UInt64 := vout.foldl (fun money o => money + o.amount) 0

/-- The fee that `add_tx` computes, or the flags of its failure. -/
def transactionFee (tx : Transaction) (tvc : TxVerificationContext) :
    Except TxVerificationContext UInt64 :=
  if tx.version = 1 then
    match getInputsMoneyAmount tx.vin.toList 0 with
    | none => .error { tvc with verifivationFailed := true }
    | some inputsAmount =>
        let outputsAmount := getOutsMoneyAmount tx.vout.toList
        if inputsAmount < outputsAmount then
          .error { tvc with verifivationFailed := true, overspend := true }
        else if outputsAmount = inputsAmount then
          .error { tvc with verifivationFailed := true, feeTooLow := true }
        else .ok (inputsAmount - outputsAmount)
  else .ok tx.rctSignatures.txnFee

def Pool.haveTxKeyimgesAsSpent (p : Pool ρ) (vin : List Txin) : Bool :=
  vin.any fun txin =>
    match txin.keyImage with
    | some kImage => (p.spentKeyImages kImage).isSome
    | none => true

def doubleSpends (images : KeyImagesContainer) (id : Hash) : List Txin → Bool
  | .toKey _ _ kImage :: vin => id ∈ (images kImage).getD ∅ || doubleSpends images id vin
  | _ => false

def Pool.markDoubleSpend (p : Pool ρ) (vin : List Txin) : Pool ρ :=
  ⟨p.txpool.updateInfo (fun id => doubleSpends p.spentKeyImages id vin)
      (fun info => { info with doubleSpendSeen := true }),
    p.spentKeyImages, p.sorted, p.timedOutTransactions, p.txpoolWeight, p.txpoolMaxWeight⟩

/-- The part of `add_tx` that stores: the tables, whose key is computed from the
transaction, the key images and the sorted container. The batch is committed
also when the key images are refused. -/
def Pool.store (tx : Transaction) (imagesId id : Hash) (info : TxpoolMeta) (p : Pool ρ) :
    Bool × Pool ρ :=
  let txpool := p.txpool.put ⟨getTransactionHash ops cfg tx, info, txToBlob cfg tx⟩
  let inserted := insertKeyImages imagesId info.keptByBlock tx.vin.toList p.spentKeyImages
  if inserted.1 then
    (true, ⟨txpool, inserted.2,
      emplace fr ⟨fr.rate info.fee info.weight, info.receiveTime, id⟩ p.sorted,
      p.timedOutTransactions, p.txpoolWeight, p.txpoolMaxWeight⟩)
  else
    (false, ⟨txpool, inserted.2, p.sorted, p.timedOutTransactions, p.txpoolWeight,
      p.txpoolMaxWeight⟩)

structure AddTxArgs where
  tx : Transaction
  id : Hash
  txWeight : UInt64
  keptByBlock : Bool
  relayed : Bool
  doNotRelay : Bool
  version : UInt8

/-- The metadata of a new transaction. `used` is what the check of the inputs
gave, nothing when it failed. -/
def AddTxArgs.info (args : AddTxArgs) (fee now : UInt64) (used : Option (UInt64 × Hash))
    (doubleSpendSeen : Bool) : TxpoolMeta where
  maxUsedBlockId := (used.map Prod.snd).getD nullHash
  lastFailedId := nullHash
  weight := args.txWeight
  fee := fee
  maxUsedBlockHeight := (used.map Prod.fst).getD 0
  lastFailedHeight := 0
  receiveTime := now
  lastRelayedTime := now
  keptByBlock := args.keptByBlock
  relayed := args.relayed
  doNotRelay := args.doNotRelay
  doubleSpendSeen := doubleSpendSeen

def Pool.addWeight (weight : UInt64) (p : Pool ρ) : Pool ρ :=
  ⟨p.txpool, p.spentKeyImages, p.sorted, p.timedOutTransactions, p.txpoolWeight + weight,
    p.txpoolMaxWeight⟩

/-- The end of `add_tx`, behind a successful or a failed storing. -/
def finishAdd (args : AddTxArgs) (tvc : TxVerificationContext) (stored : Bool × Pool ρ) :
    Bool × TxVerificationContext × Pool ρ :=
  if stored.1 then
    (true, { tvc with verifivationFailed := false, addedToPool := true },
      prune cfg stored.2.txpoolMaxWeight (stored.2.addWeight args.txWeight))
  else (false, { tvc with verifivationFailed := true }, stored.2)

def addFailedInputs (view : ChainView) (args : AddTxArgs) (fee : UInt64)
    (tvc : TxVerificationContext) (p : Pool ρ) : Bool × TxVerificationContext × Pool ρ :=
  if args.keptByBlock then
    let stored := p.store fr ops cfg args.tx args.id args.id
      (args.info fee view.now none (p.haveTxKeyimgesAsSpent args.tx.vin.toList))
    finishAdd cfg args
      { tvc with verifivationImpossible := tvc.verifivationImpossible || stored.1 } stored
  else (false, { tvc with verifivationFailed := true, invalidInput := true }, p)

def addCheckedInputs (view : ChainView) (args : AddTxArgs) (fee : UInt64)
    (used : UInt64 × Hash) (tvc : TxVerificationContext) (p : Pool ρ) :
    Bool × TxVerificationContext × Pool ρ :=
  let txid := getTransactionHash ops cfg args.tx
  let stored := Pool.store fr ops cfg args.tx txid args.id (args.info fee view.now (some used) false)
    ⟨p.txpool.remove txid, p.spentKeyImages, p.sorted, p.timedOutTransactions, p.txpoolWeight,
      p.txpoolMaxWeight⟩
  finishAdd cfg args
    { tvc with shouldBeRelayed := tvc.shouldBeRelayed ||
        (stored.1 && decide (0 < fee) && !args.doNotRelay) } stored

def addTx (view : ChainView) (args : AddTxArgs) (tvc : TxVerificationContext) (p : Pool ρ) :
    Bool × TxVerificationContext × Pool ρ :=
  if args.tx.version = 0 then (false, { tvc with verifivationFailed := true }, p)
  else if args.keptByBlock = false ∧ args.id ∈ p.timedOutTransactions then
    (false, { tvc with verifivationFailed := true }, p)
  else if checkInputsTypesSupported args.tx = false then
    (false, { tvc with verifivationFailed := true, invalidInput := true }, p)
  else
    match transactionFee args.tx tvc with
    | .error tvc => (false, tvc, p)
    | .ok fee =>
        if args.keptByBlock = false ∧ view.checkFee args.txWeight fee = false then
          (false, { tvc with verifivationFailed := true, feeTooLow := true }, p)
        else if args.keptByBlock = false ∧
            view.transactionWeightLimit args.version < args.txWeight then
          (false, { tvc with verifivationFailed := true, tooBig := true }, p)
        else if args.keptByBlock = false ∧ p.haveTxKeyimgesAsSpent args.tx.vin.toList = true then
          (false, { tvc with verifivationFailed := true, doubleSpend := true },
            p.markDoubleSpend args.tx.vin.toList)
        else if view.checkTxOutputs args.tx = false then
          (false, { tvc with verifivationFailed := true, invalidOutput := true }, p)
        else
          match view.checkTxInputs args.tx args.keptByBlock with
          | none => addFailedInputs fr ops cfg view args fee tvc p
          | some used => addCheckedInputs fr ops cfg view args fee used tvc p

/-! ### Taking, timing out, validating -/

structure TakenTx where
  tx : Transaction
  txWeight : UInt64
  fee : UInt64
  relayed : Bool
  doNotRelay : Bool
  doubleSpendSeen : Bool

def takeTx (id : Hash) (p : Pool ρ) : Option TakenTx × Pool ρ :=
  if p.sorted.any fun e => e.id = id then
    match p.txpool.find id with
    | none => (none, p)
    | some row =>
        match parseAndValidateTxFromBlob ops cfg row.blob with
        | none => (none, p)
        | some tx =>
            (some ⟨tx, row.info.weight, row.info.fee, row.info.relayed, row.info.doNotRelay,
                row.info.doubleSpendSeen⟩,
              (p.drop id tx.vin.toList row.info.weight).withSorted (eraseId id p.sorted))
  else (none, p)

def isStuck (conf : PoolConfig) (view : ChainView) (info : TxpoolMeta) : Bool :=
  let txAge := view.now - info.receiveTime
  (decide (conf.mempoolTxLivetime < txAge) && !info.keptByBlock) ||
    (decide (conf.mempoolTxFromAltBlockLivetime < txAge) && info.keptByBlock)

/-- The first pass of `remove_stuck_transactions` at one transaction. -/
def Pool.timeOut (p : Pool ρ) (row : PoolRow) : Pool ρ :=
  ⟨p.txpool, p.spentKeyImages, eraseId row.txid p.sorted,
    insert row.txid p.timedOutTransactions, p.txpoolWeight, p.txpoolMaxWeight⟩

def Pool.dropStuck (p : Pool ρ) (row : PoolRow) : Pool ρ :=
  match p.txpool.find row.txid with
  | none => p
  | some stored =>
      match parseAndValidateTxPrefixFromBlob cfg stored.blob with
      | none => p
      | some tx => p.drop row.txid tx.vin.toList row.info.weight

def removeStuckTransactions (conf : PoolConfig) (view : ChainView) (p : Pool ρ) : Pool ρ :=
  let remove := p.txpool.rows.filter fun row => isStuck conf view row.info
  remove.foldl (Pool.dropStuck cfg) (remove.foldl Pool.timeOut p)

def totalWeight (rows : List PoolRow) : UInt64 := (rows.map fun row => row.info.weight).sum

def isInvalid (view : ChainView) (version : UInt8) (row : PoolRow) : Bool :=
  decide (view.transactionWeightLimit version < row.info.weight) || view.haveTx row.txid

/-- The loop of `validate` at one id, with the number of removed transactions. When
the weight of the stored blob throws, the transaction has left the tables and
nothing else. -/
def removeInvalid (removed : ℕ × Pool ρ) (id : Hash) : ℕ × Pool ρ :=
  match removed.2.txpool.find id with
  | none => removed
  | some row =>
      match parseAndValidateTxFromBlob ops cfg row.blob with
      | none => removed
      | some tx =>
          match getTransactionWeight tx row.blob.length with
          | none => (removed.1, ⟨removed.2.txpool.remove id, removed.2.spentKeyImages,
              removed.2.sorted, removed.2.timedOutTransactions, removed.2.txpoolWeight,
              removed.2.txpoolMaxWeight⟩)
          | some weight => (removed.1 + 1,
              (removed.2.drop id tx.vin.toList weight.toUInt64).withSorted
                (eraseId id removed.2.sorted))

/-- `validate`. The order in which an unordered set is gone through is `order`. -/
def validate (view : ChainView) (version : UInt8) (order : List Hash → List Hash) (p : Pool ρ) :
    ℕ × Pool ρ :=
  let remove := (p.txpool.rows.filter (isInvalid view version)).map PoolRow.txid
  (order remove).foldl (removeInvalid ops cfg)
    (0, ⟨p.txpool, p.spentKeyImages, p.sorted, p.timedOutTransactions,
      totalWeight p.txpool.rows, p.txpoolMaxWeight⟩)

/-! ### Starting -/

/-- One pass of `init` over the stored transactions, with the ids to remove. -/
def initPass (kept : Bool) : List PoolRow → List Hash × Pool ρ → Bool × List Hash × Pool ρ
  | [], s => (true, s)
  | row :: rows, (remove, p) =>
      if row.info.keptByBlock ≠ kept then initPass kept rows (remove, p)
      else
        match parseAndValidateTxPrefixFromBlob cfg row.blob with
        | none => initPass kept rows (remove ++ [row.txid], p)
        | some tx =>
            let inserted :=
              insertKeyImages row.txid row.info.keptByBlock tx.vin.toList p.spentKeyImages
            if inserted.1 then
              initPass kept rows (remove, ⟨p.txpool, inserted.2,
                emplace fr ⟨fr.rate row.info.fee row.info.weight, row.info.receiveTime, row.txid⟩
                  p.sorted,
                p.timedOutTransactions, p.txpoolWeight + row.info.weight, p.txpoolMaxWeight⟩)
            else (false, remove, ⟨p.txpool, inserted.2, p.sorted, p.timedOutTransactions,
              p.txpoolWeight, p.txpoolMaxWeight⟩)

/-- The tables without the transactions that could not be parsed. -/
def removeCorrupt (remove : List Hash) (p : Pool ρ) : Pool ρ :=
  ⟨remove.foldl Txpool.remove p.txpool, p.spentKeyImages, p.sorted, p.timedOutTransactions,
    p.txpoolWeight, p.txpoolMaxWeight⟩

def init (conf : PoolConfig) (maxTxpoolWeight : UInt64) (p : Pool ρ) : Bool × Pool ρ :=
  let cleared : Pool ρ := ⟨p.txpool, fun _ => none, [], p.timedOutTransactions, 0,
    if maxTxpoolWeight = 0 then conf.defaultTxpoolMaxWeight else maxTxpoolWeight⟩
  match initPass fr cfg false p.txpool.rows ([], cleared) with
  | (false, _, p) => (false, p)
  | (true, s) =>
      match initPass fr cfg true p.txpool.rows s with
      | (false, _, p) => (false, p)
      | (true, remove, p) => (true, removeCorrupt remove p)

/-! ### Runs -/

inductive PoolOp
  | addTx (args : AddTxArgs) (tvc : TxVerificationContext)
  | takeTx (id : Hash)
  | prune (bytes : UInt64)
  | removeStuckTransactions
  | validate (version : UInt8) (order : List Hash → List Hash)
  | init (maxTxpoolWeight : UInt64)

def PoolOp.apply (conf : PoolConfig) (view : ChainView) : PoolOp → Pool ρ → Pool ρ
  | .addTx args tvc, p => (TxPool.addTx fr ops cfg view args tvc p).2.2
  | .takeTx id, p => (TxPool.takeTx ops cfg id p).2
  | .prune bytes, p => TxPool.prune cfg bytes p
  | .removeStuckTransactions, p => TxPool.removeStuckTransactions cfg conf view p
  | .validate version order, p => (TxPool.validate ops cfg view version order p).2
  | .init maxTxpoolWeight, p => (TxPool.init fr cfg conf maxTxpoolWeight p).2

/-- The pools that operations reach from an empty one, each step of which satisfies
`ok`. The chain and the clock may be others at every step. -/
inductive Run (conf : PoolConfig) (ok : ChainView → PoolOp → Pool ρ → Prop) : Pool ρ → Prop
  | empty (maxWeight : UInt64) : Run conf ok (.empty ρ maxWeight)
  | step {p : Pool ρ} (view : ChainView) (op : PoolOp) (hrun : Run conf ok p)
      (hok : ok view op p) : Run conf ok (op.apply fr ops cfg conf view p)

end Operations

end XrCoin.TxPool

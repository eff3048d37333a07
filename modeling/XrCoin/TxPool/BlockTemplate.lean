import XrCoin.Blockchain.Emission
import XrCoin.Data.Share

/-!
`fill_block_template`: how the pool chooses the transactions of a new block.

The loop goes over the sorted transactions once, and a second time when it has met
non-private ones. What `is_transaction_ready_to_go` asks the chain for is a parameter, and
so is `template_accept_threshold`, which goes through a floating point number. The log and
failures of the database are left out. The counters are natural numbers: they stay below
twice the number of transactions in the pool.
-/

namespace XrCoin.TxPool

open Archive Cryptonote Blockchain Data

/-! ### Rings -/

structure Mixing where
  nUnmixable : ℕ
  nMixable : ℕ
  mixin : UInt64
  deriving DecidableEq

/-- The loop over the inputs at one of them. An input without offsets has the greatest
number of decoys. -/
def countMixing (numOutputs : UInt64 → UInt64) (m : Mixing) : Txin → Mixing
  | .toKey amount keyOffsets _ =>
      let mixin := keyOffsets.toList.length.toUInt64 - 1
      let least := if mixin < m.mixin then mixin else m.mixin
      if amount = 0 then ⟨m.nUnmixable, m.nMixable + 1, least⟩
      else if numOutputs amount ≤ 2 then ⟨m.nUnmixable + 1, m.nMixable, least⟩
      else ⟨m.nUnmixable, m.nMixable + 1, least⟩
  | _ => m

def mixingOf (numOutputs : UInt64 → UInt64) (vin : List Txin) : Mixing :=
  vin.foldl (countMixing numOutputs) ⟨0, 0, 18446744073709551615⟩

/-- What `check_tx_inputs` makes of the rings: nothing when it refuses them, else whether
the transaction counts as non-private. -/
def checkRingSizes (hfVersionFixedRingSize hfVersion : UInt8) (numOutputs : UInt64 → UInt64)
    (vin : List Txin) : Option Bool :=
  if 2 ≤ hfVersion then
    let m := mixingOf numOutputs vin
    if m.mixin = 1 then none
    else if hfVersionFixedRingSize ≤ hfVersion ∧ 2 < m.mixin then none
    else if m.mixin < 2 then
      if hfVersion < hfVersionFixedRingSize then some (!(1 ≤ m.nUnmixable ∧ m.nMixable ≤ 1))
      else if m.nUnmixable = 0 then none
      else if 1 < m.nMixable then none
      else some false
    else some false
  else some false

/-! ### Readiness -/

structure TemplateView where
  /-- `get_current_blockchain_height`. -/
  height : UInt64
  /-- `get_block_id_by_height`. -/
  blockIdByHeight : UInt64 → Hash
  /-- `check_tx_inputs` of the pool: its answer, nothing when it throws, and the height and
  the id that it leaves. -/
  checkTxInputs : Hash → List UInt8 → UInt64 × Hash → Option Bool × UInt64 × Hash
  /-- `have_tx_keyimges_as_spent`. -/
  haveTxKeyimgesAsSpent : Transaction → Bool
  /-- `get_num_outputs`. -/
  numOutputs : UInt64 → UInt64
  /-- The inputs of `tx` when a transaction is not ready in a pass. The blob need not be
  parsed, and parsing may have failed halfway. -/
  unreadyInputs : Bool → Hash → TxpoolMeta → List Txin

structure TemplateCall where
  ops : CryptoOps
  cfg : Config
  rewards : RewardConfig
  hfVersionFixedRingSize : UInt8
  /-- `NOFAKE_TXS_TO_TOTAL_TXS_PERCENT`. -/
  nofakeTxsPercent : ℕ
  /-- `CRYPTONOTE_COINBASE_BLOB_RESERVED_SIZE`. -/
  coinbaseBlobReservedSize : UInt64
  /-- `template_accept_threshold`. -/
  acceptThreshold : UInt64 → UInt64
  view : TemplateView
  medianWeight : UInt64
  alreadyGeneratedCoins : UInt64
  version : UInt8
  height : ℕ

variable (c : TemplateCall)

def failedMeta (txd : TxpoolMeta) : TxpoolMeta :=
  { txd with
    lastFailedHeight := c.view.height - 1
    lastFailedId := c.view.blockIdByHeight (c.view.height - 1) }

/-- The check of the inputs in `is_transaction_ready_to_go`: the transaction when it passed,
and the metadata. -/
def checkReadyInputs (txd : TxpoolMeta) (txid : Hash) (txblob : List UInt8) :
    Option Transaction × TxpoolMeta :=
  let checked := c.view.checkTxInputs txid txblob (txd.maxUsedBlockHeight, txd.maxUsedBlockId)
  let txd := { txd with maxUsedBlockHeight := checked.2.1, maxUsedBlockId := checked.2.2 }
  match checked.1 with
  | none => (none, txd)
  | some false => (none, failedMeta c txd)
  | some true =>
      match parseAndValidateTxFromBlob c.ops c.cfg txblob with
      | none => (none, txd)
      | some tx =>
          if c.view.haveTxKeyimgesAsSpent tx then (none, { txd with doubleSpendSeen := true })
          else (some tx, txd)

/-- `is_transaction_ready_to_go`: the transaction when it is ready, and the metadata. -/
def isTransactionReadyToGo (txd : TxpoolMeta) (txid : Hash) (txblob : List UInt8) :
    Option Transaction × TxpoolMeta :=
  if txd.maxUsedBlockId = nullHash then
    if txd.lastFailedId ≠ nullHash ∧ txd.lastFailedHeight < c.view.height ∧
        txd.lastFailedId = c.view.blockIdByHeight txd.lastFailedHeight then (none, txd)
    else checkReadyInputs c txd txid txblob
  else if c.view.height ≤ txd.maxUsedBlockHeight then (none, txd)
  else if txd.lastFailedId = c.view.blockIdByHeight txd.lastFailedHeight then (none, txd)
  else checkReadyInputs c txd txid txblob

def haveKeyImages (kImages : List KeyImage) : List Txin → Bool
  | [] => false
  | .toKey _ _ kImage :: vin => if kImage ∈ kImages then true else haveKeyImages kImages vin
  | _ :: _ => false

/-- `append_key_images`, which stops at an image that is there. -/
def appendKeyImages (kImages : List KeyImage) : List Txin → List KeyImage
  | [] => kImages
  | .toKey _ _ kImage :: vin =>
      if kImage ∈ kImages then kImages else appendKeyImages (kImage :: kImages) vin
  | _ :: _ => kImages

/-! ### The loop -/

structure Filling where
  txHashes : List Hash
  txWeights : List UInt64
  txFees : List UInt64
  totalWeight : UInt64
  fee : UInt64
  bestCoinbase : UInt64
  coinbase : UInt64
  n : ℕ
  nofakeTxsInPool : ℕ
  nofakeTxsTaken : ℕ
  kImages : List KeyImage
  txpool : Txpool

/-- How an iteration ends: with the next transaction, with `break`, or with `return false`. -/
inductive Outcome
  | next (st : Filling)
  | stop (st : Filling)
  | failed

inductive Choice
  | pushed
  | added
  | replacing
  deriving DecidableEq

inductive Decision
  | ends (outcome : Outcome)
  | takes (choice : Choice) (vin : List Txin) (info : TxpoolMeta) (st : Filling)

def maxTotalWeight : UInt64 :=
  if 5 ≤ c.version then 2 * c.medianWeight - c.coinbaseBlobReservedSize
  else 130 * c.medianWeight / 100 - c.coinbaseBlobReservedSize

def rewardFor (weight : UInt64) : Option UInt64 :=
  getBlockReward c.rewards c.medianWeight weight c.alreadyGeneratedCoins c.version c.height

def checkFront (secondPass : Bool) (info : TxpoolMeta) (st : Filling) : Except Outcome Filling :=
  if maxTotalWeight c < st.totalWeight + info.weight then .error (.next st)
  else if 5 ≤ c.version then
    if secondPass then .ok st
    else
      match rewardFor c (st.totalWeight + info.weight) with
      | none => .error (.next st)
      | some blockReward =>
          let coinbase := blockReward + st.fee + info.fee
          if coinbase < c.acceptThreshold st.bestCoinbase then
            .error (.next { st with coinbase := coinbase })
          else .ok { st with coinbase := coinbase }
  else if c.medianWeight < st.totalWeight then .error (.stop st)
  else .ok st

def canBeSimplyAdded (info : TxpoolMeta) (st : Filling) : Bool × Filling :=
  if st.nofakeTxsTaken + 1 ≤ rationalCeil ((st.n + 1) * c.nofakeTxsPercent) 100 then
    match rewardFor c (st.totalWeight + info.weight) with
    | none => (false, st)
    | some blockReward =>
        let coinbase := blockReward + st.fee + info.fee
        (c.acceptThreshold st.bestCoinbase ≤ coinbase, { st with coinbase := coinbase })
  else (false, st)

def canReplaceExisting (info : TxpoolMeta) (st : Filling) : Bool × Filling :=
  if st.nofakeTxsTaken < st.n ∧
      st.nofakeTxsTaken + 1 ≤ rationalCeil (st.n * c.nofakeTxsPercent) 100 then
    match rewardFor c (st.totalWeight + info.weight - st.txWeights.getLastD 0) with
    | none => (false, st)
    | some blockReward =>
        let coinbase := blockReward + st.fee + info.fee - st.txFees.getLastD 0
        (c.acceptThreshold st.bestCoinbase ≤ coinbase, { st with coinbase := coinbase })
  else (false, st)

def chooseNofake (info : TxpoolMeta) (st : Filling) : Except Outcome (Choice × Filling) :=
  let adding := canBeSimplyAdded c info st
  if adding.1 then .ok (.added, adding.2)
  else
    let replacing := canReplaceExisting c info adding.2
    if replacing.1 then .ok (.replacing, replacing.2) else .error (.next replacing.2)

def checkRings (secondPass : Bool) (info : TxpoolMeta) (vin : List Txin) (st : Filling) :
    Except Outcome (Choice × Filling) :=
  match vin with
  | [] => .ok (.pushed, st)
  | first :: _ =>
      if 2 ≤ c.version then
        let m := mixingOf c.view.numOutputs vin
        if m.mixin = 1 then .error (.next st)
        else if m.mixin < 2 ∧ (m.nUnmixable = 0 ∨ 0 < m.nUnmixable ∧ 1 < m.nMixable) then
          if secondPass then chooseNofake c info st
          else .error (.next { st with nofakeTxsInPool := st.nofakeTxsInPool + 1 })
        else .ok (.pushed, st)
      else
        match first with
        | .toKey _ keyOffsets _ =>
            if 0 < st.n ∧ keyOffsets.toList.length < 3 then .error (.next st)
            else .ok (.pushed, st)
        | _ => .error .failed

def Filling.update (txid : Hash) (info : TxpoolMeta) (st : Filling) : Filling :=
  { st with txpool := st.txpool.updateInfo (fun id => id = txid) fun _ => info }

def decideTx (secondPass : Bool) (txid : Hash) (st : Filling) : Decision :=
  match st.txpool.find txid with
  | none => .ends (.next st)
  | some row =>
      match checkFront c secondPass row.info st with
      | .error outcome => .ends outcome
      | .ok st =>
          let checked := isTransactionReadyToGo c row.info txid row.blob
          let vin := (checked.1.map fun tx => tx.vin.toList).getD
            (c.view.unreadyInputs secondPass txid row.info)
          match checkRings c secondPass row.info vin st with
          | .error outcome => .ends outcome
          | .ok (choice, st) =>
              let st := st.update txid checked.2
              if checked.1 = none then .ends (.next st)
              else if haveKeyImages st.kImages vin then .ends (.next st)
              else if secondPass ∧ choice = .pushed then .ends (.next st)
              else .takes choice vin row.info st

def Filling.take (txid : Hash) (choice : Choice) (vin : List Txin) (info : TxpoolMeta)
    (st : Filling) : Filling :=
  let rest : Filling :=
    { st with
      bestCoinbase := st.coinbase
      kImages := appendKeyImages st.kImages vin
      n := st.n + 1 }
  match choice with
  | .pushed =>
      { rest with
        txHashes := st.txHashes ++ [txid]
        txWeights := st.txWeights ++ [info.weight]
        txFees := st.txFees ++ [info.fee]
        totalWeight := st.totalWeight + info.weight
        fee := st.fee + info.fee }
  | .added =>
      { rest with
        txHashes := txid :: st.txHashes
        txWeights := info.weight :: st.txWeights
        txFees := info.fee :: st.txFees
        totalWeight := st.totalWeight + info.weight
        fee := st.fee + info.fee
        nofakeTxsTaken := st.nofakeTxsTaken + 1 }
  | .replacing =>
      let txWeights := info.weight :: st.txWeights
      let txFees := info.fee :: st.txFees
      { rest with
        txHashes := (txid :: st.txHashes).dropLast
        txWeights := txWeights.dropLast
        txFees := txFees.dropLast
        totalWeight := st.totalWeight - txWeights.getLastD 0 + info.weight
        fee := st.fee - txFees.getLastD 0 + info.fee
        nofakeTxsTaken := st.nofakeTxsTaken + 1 }

def fillStep (secondPass : Bool) (txid : Hash) (st : Filling) : Outcome :=
  match decideTx c secondPass txid st with
  | .ends outcome => outcome
  | .takes choice vin info st => .next (st.take txid choice vin info)

def fillPass (secondPass : Bool) : List Hash → Filling → Outcome
  | [], st => .next st
  | txid :: txids, st =>
      match fillStep c secondPass txid st with
      | .next st => fillPass secondPass txids st
      | outcome => outcome

def startFilling (txpool : Txpool) : Filling :=
  ⟨[], [], [], 0, 0, (rewardFor c 0).getD 0, 0, 0, 0, 0, [], txpool⟩

def Outcome.result : Outcome → Option Filling
  | .next st => some st
  | .stop st => some st
  | .failed => none

variable {ρ : Type}

def sortedIds (p : Pool ρ) : List Hash := p.sorted.map SortedEntry.id

/-- `fill_block_template` for an empty list, and nothing when it returns `false`. The second
pass begins where the first one has come to the end. -/
def fillBlockTemplate (p : Pool ρ) : Option Filling :=
  match fillPass c false (sortedIds p) (startFilling c p.txpool) with
  | .next st =>
      if st.nofakeTxsInPool = 0 then some st else (fillPass c true (sortedIds p) st).result
  | outcome => outcome.result

end XrCoin.TxPool

import Mathlib
import XrCoin.Cryptonote.Hashes
import XrCoin.Cryptonote.TxExtra
import XrCoin.Data.Throwing
import XrCoin.TxPool.Pool

/-!
The scanning of transactions and blocks by `wallet2`, and its undoing when the chain
reorganises.

The arithmetic of keys is a parameter, and so is the table of subaddresses. Maps are functions and
unordered multimaps are multisets. The chain of hashes begins at the genesis block: none of it was
trimmed. Not modelled are callbacks and notifications, the question for a password, the database
of rings, the destinations of outgoing transactions and the state of a multisig rescan.
-/

namespace XrCoin.Wallet

open Archive Cryptonote Data

structure SubaddressIndex where
  major : UInt32
  minor : UInt32
  deriving DecidableEq

structure TransferDetails where
  blockHeight : UInt64
  tx : TransactionPrefix
  txid : Hash
  internalOutputIndex : ℕ
  globalOutputIndex : UInt64
  spent : Bool
  spentHeight : UInt64
  keyImage : KeyImage
  mask : Key
  amount : UInt64
  rct : Bool
  keyImageKnown : Bool
  pkIndex : ℕ
  subaddrIndex : SubaddressIndex
  keyImagePartial : Bool
  deriving DecidableEq

/-- `get_public_key`, which throws for an output of another kind. -/
def TransferDetails.publicKey? (td : TransferDetails) : Option PublicKey :=
  td.tx.vout.toList[td.internalOutputIndex]?.bind TxOut.key?

structure PaymentDetails where
  txHash : Hash
  amount : UInt64
  fee : UInt64
  blockHeight : UInt64
  unlockTime : UInt64
  timestamp : UInt64
  coinbase : Bool
  subaddrIndex : SubaddressIndex
  deriving DecidableEq

structure PoolPaymentDetails where
  pd : PaymentDetails
  doubleSpendSeen : Bool
  deriving DecidableEq

structure UnconfirmedTransferDetails where
  amountIn : UInt64
  amountOut : UInt64
  change : UInt64
  paymentId : Hash
  timestamp : UInt64
  unlockTime : UInt64
  subaddrAccount : UInt32
  subaddrIndices : Finset UInt32
  rings : List (KeyImage × List UInt64)
  deriving DecidableEq

structure ConfirmedTransferDetails where
  amountIn : UInt64
  amountOut : UInt64
  change : UInt64
  blockHeight : UInt64
  paymentId : Hash
  timestamp : UInt64
  unlockTime : UInt64
  subaddrAccount : UInt32
  subaddrIndices : Finset UInt32
  rings : List (KeyImage × List UInt64)
  deriving DecidableEq

/-- A transfer that was replaced in its place: the height of the new output, and the heights of
the transfers behind it. -/
structure Replacement where
  height : UInt64
  behind : List UInt64
  deriving DecidableEq

structure ScanWallet (σ : Type) where
  subaddresses : σ
  blockchain : List Hash
  transfers : List TransferDetails
  keyImages : KeyImage → Option ℕ
  pubKeys : PublicKey → Option ℕ
  payments : Multiset (Hash × PaymentDetails)
  unconfirmedPayments : List (Hash × PoolPaymentDetails)
  confirmedTxs : Hash → Option ConfirmedTransferDetails
  unconfirmedTxs : Hash → Option UnconfirmedTransferDetails
  lastBlockReward : UInt64
  replaced : List Replacement

def ScanWallet.empty {σ : Type} (subaddresses : σ) : ScanWallet σ :=
  ⟨subaddresses, [], [], fun _ => none, fun _ => none, ∅, [], fun _ => none, fun _ => none, 0, []⟩

inductive RefreshType
  | full
  | optimizeCoinbase
  | noCoinbase
  deriving DecidableEq

structure WalletSettings where
  watchOnly : Bool
  multisig : Bool
  storeTxInfo : Bool
  refreshType : RefreshType
  createtime : UInt64
  refreshFromBlockHeight : UInt64

/-- Neither watch-only nor multisig. -/
def WalletSettings.Full (acc : WalletSettings) : Prop := acc.watchOnly = false ∧ acc.multisig = false

structure ScanOps (σ : Type) extends CryptoOps where
  /-- The identity where there is no derivation. -/
  generateKeyDerivation : PublicKey → KeyDerivation
  deriveSubaddressPublicKey : PublicKey → KeyDerivation → ℕ → PublicKey
  findSubaddress : σ → PublicKey → Option SubaddressIndex
  expandSubaddresses : σ → SubaddressIndex → σ
  /-- `generate_key_image_helper_precomp`: the ephemeral key and its image. -/
  generateKeyImageHelper : PublicKey → KeyDerivation → ℕ → SubaddressIndex →
    Option (PublicKey × KeyImage)
  /-- The amount and its mask. -/
  decodeRct : RctSig → KeyDerivation → ℕ → UInt64 × Key
  decryptPaymentId : List UInt8 → PublicKey → Option (Pod 8)

/-- The arguments of `process_new_transaction`. `cached` tells whether the keys of the transaction
were derived before. -/
structure TxCall where
  txid : Hash
  tx : Transaction
  oIndices : List UInt64
  height : UInt64
  ts : UInt64
  minerTx : Bool
  pool : Bool
  doubleSpendSeen : Bool
  cached : Bool

variable {σ : Type} (ops : ScanOps σ) (cfg : Config) (acc : WalletSettings)

/-! ### The outputs of a transaction -/

abbrev Money : Type := List (SubaddressIndex × UInt64)

def Money.at (money : Money) (index : SubaddressIndex) : UInt64 := (money.lookup index).getD 0

def Money.set (money : Money) (index : SubaddressIndex) (amount : UInt64) : Money :=
  if index ∈ money.map Prod.fst then
    money.map fun p => if p.1 = index then (index, amount) else p
  else money ++ [(index, amount)]

structure ScanInfo where
  o : ℕ
  pub : PublicKey
  ki : KeyImage
  received : SubaddressIndex
  amount : UInt64
  mask : Key

def isOutToAccPrecomp (subaddresses : σ) (outKey : PublicKey) (derivation : KeyDerivation)
    (additional : List KeyDerivation) (i : ℕ) : Option (SubaddressIndex × KeyDerivation) :=
  match ops.findSubaddress subaddresses (ops.deriveSubaddressPublicKey outKey derivation i) with
  | some index => some (index, derivation)
  | none => do
      let derivation ← additional[i]?
      let index ← ops.findSubaddress subaddresses (ops.deriveSubaddressPublicKey outKey derivation i)
      some (index, derivation)

def checkAccOutPrecompOnce (subaddresses : σ) (derivation : KeyDerivation)
    (additional : List KeyDerivation) (found : List ℕ) (i : ℕ) (out : TxOut) :
    Except String (Option (SubaddressIndex × KeyDerivation)) :=
  if i ∈ found then .ok none
  else
    match out.key? with
    | some key => .ok (isOutToAccPrecomp ops subaddresses key derivation additional i)
    | none => .error "acc_outs_lookup_error"

def outputKeys (key : PublicKey) (derivation : KeyDerivation) (i : ℕ) (index : SubaddressIndex) :
    Except String (PublicKey × KeyImage) :=
  if acc.multisig then .ok (key, List.Vector.replicate 32 0)
  else
    match ops.generateKeyImageHelper key derivation i index with
    | none => .error "Failed to generate key image"
    | some (pub, ki) =>
        if pub ≠ key then
          .error "key_image generated ephemeral public key not matched with output_key"
        else .ok (pub, ki)

/-- The amount of an output and its mask, decoded where it is not in the clear. -/
def outputAmount (tx : Transaction) (minerTx : Bool) (i : ℕ) (out : TxOut)
    (derivation : KeyDerivation) : UInt64 × Key :=
  if out.amount = 0 ∧ minerTx = false then ops.decodeRct tx.rctSignatures derivation i
  else (out.amount, default)

def scanOutput (tx : Transaction) (minerTx : Bool) (i : ℕ) (out : TxOut) (index : SubaddressIndex)
    (derivation : KeyDerivation) (money : Money) : Except String (ScanInfo × Money) := do
  let key ← orThrow out.key? "bad_get"
  let (pub, ki) ← outputKeys ops acc key derivation i index
  let decoded := outputAmount ops tx minerTx i out derivation
  throwIf (18446744073709551615 - decoded.1 ≤ money.at index) "Overflow in received amounts"
  return (⟨i, pub, ki, index, decoded.1, decoded.2⟩, money.set index (money.at index + decoded.1))

/-- The outputs in order: those for the wallet, all that were found so far, and the money. -/
def scanOutputs (tx : Transaction) (minerTx : Bool) (subaddresses : σ) (derivation : KeyDerivation)
    (additional : List KeyDerivation) :
    List (TxOut × ℕ) → List ℕ → Money → Except String (List ScanInfo × List ℕ × Money)
  | [], found, money => .ok ([], found, money)
  | (out, i) :: outs, found, money => do
      match ← checkAccOutPrecompOnce ops subaddresses derivation additional found i out with
      | none => scanOutputs tx minerTx subaddresses derivation additional outs found money
      | some (index, receivedBy) => do
          let (info, money) ← scanOutput ops acc tx minerTx i out index receivedBy money
          let (infos, found, money) ←
            scanOutputs tx minerTx subaddresses derivation additional outs (i :: found) money
          .ok (info :: infos, found, money)

/-- The outputs that are looked at for one key. Of a miner transaction it may be the first only,
and the others where that one is for the wallet. -/
def scanKey (tx : Transaction) (minerTx : Bool) (subaddresses : σ) (derivation : KeyDerivation)
    (additional : List KeyDerivation) (found : List ℕ) (money : Money) :
    Except String (List ScanInfo × List ℕ × Money) := do
  let outs := tx.vout.toList.zipIdx
  if minerTx = false ∨ acc.refreshType = .full then
    scanOutputs ops acc tx minerTx subaddresses derivation additional outs found money
  else if acc.refreshType = .noCoinbase then .ok ([], found, money)
  else
    match outs with
    | [] => .ok ([], found, money)
    | (out, i) :: _ => do
        match ← checkAccOutPrecompOnce ops subaddresses derivation additional found i out with
        | none => .ok ([], found, money)
        | some _ => scanOutputs ops acc tx minerTx subaddresses derivation additional outs found money

/-! ### Receiving -/

structure Receipts where
  money : Money
  total : UInt64

inductive Outcome
  | added
  | ignored
  | replaces (i : ℕ) (td : TransferDetails)

def receiveOutcome (w : ScanWallet σ) (info : ScanInfo) : Except String Outcome :=
  match w.pubKeys info.pub with
  | none => .ok .added
  | some i =>
      match w.transfers[i]? with
      | none => .error "Unexpected transfer index from public key"
      | some td =>
          if td.spent ∨ info.amount ≤ td.amount then .ok .ignored else .ok (.replaces i td)

/-- The amount in the clear, or the decoded one. -/
def receivedAmount (call : TxCall) (info : ScanInfo) : UInt64 :=
  match call.tx.vout.toList[info.o]? with
  | some out => if out.amount ≠ 0 then out.amount else info.amount
  | none => info.amount

def setReceived (call : TxCall) (pkIndex : ℕ) (info : ScanInfo) (td : TransferDetails) :
    TransferDetails :=
  let clear := ((call.tx.vout.toList[info.o]?).map TxOut.amount).getD 0
  { td with
    blockHeight := call.height
    internalOutputIndex := info.o
    globalOutputIndex := call.oIndices.getD info.o 0
    tx := call.tx.toTransactionPrefix
    txid := call.txid
    amount := receivedAmount call info
    pkIndex := pkIndex
    subaddrIndex := info.received
    mask := if clear = 0 then info.mask else ⟨1 :: List.replicate 31 0, rfl⟩
    rct := decide (clear = 0 ∨ (call.minerTx = true ∧ call.tx.version = 2)) }

def blankTransfer (acc : WalletSettings) (info : ScanInfo) (tx : TransactionPrefix) :
    TransferDetails where
  blockHeight := 0
  tx := tx
  txid := nullHash
  internalOutputIndex := 0
  globalOutputIndex := 0
  spent := false
  spentHeight := 0
  keyImage := info.ki
  mask := default
  amount := 0
  rct := false
  keyImageKnown := !acc.watchOnly && !acc.multisig
  pkIndex := 0
  subaddrIndex := ⟨0, 0⟩
  keyImagePartial := acc.multisig

def addTransfer (call : TxCall) (pkIndex : ℕ) (info : ScanInfo) (w : ScanWallet σ) :
    ScanWallet σ :=
  let n := w.transfers.length
  { w with
    transfers := w.transfers ++
      [setReceived call pkIndex info (blankTransfer acc info call.tx.toTransactionPrefix)]
    subaddresses := ops.expandSubaddresses w.subaddresses info.received
    keyImages :=
      if acc.multisig = false ∧ acc.watchOnly = false then
        Function.update w.keyImages info.ki (some n)
      else w.keyImages
    pubKeys := Function.update w.pubKeys info.pub (some n) }

def replaceTransfer (call : TxCall) (pkIndex : ℕ) (info : ScanInfo) (i : ℕ) (w : ScanWallet σ) :
    ScanWallet σ :=
  { w with
    transfers := w.transfers.modify i (setReceived call pkIndex info)
    subaddresses := ops.expandSubaddresses w.subaddresses info.received
    replaced := w.replaced ++
      [⟨call.height, (w.transfers.drop (i + 1)).map TransferDetails.blockHeight⟩] }

def receiveAdded (call : TxCall) (pkIndex : ℕ) (r : Receipts) (info : ScanInfo) :
    Throwing (ScanWallet σ) Receipts := do
  Throwing.when (call.pool = false) (Throwing.modify (addTransfer ops acc call pkIndex info))
  pure ⟨r.money, r.total + receivedAmount call info⟩

/-- The output of a key with a spent transfer, or with one that is not smaller. -/
def receiveIgnored (r : Receipts) (info : ScanInfo) : Throwing (ScanWallet σ) Receipts := do
  Throwing.throwIf (r.money.at info.received < info.amount)
    "Unexpected values of new and old outputs"
  pure ⟨r.money.set info.received (r.money.at info.received - info.amount), r.total⟩

def receiveReplacing (call : TxCall) (pkIndex : ℕ) (r : Receipts) (info : ScanInfo) (i : ℕ)
    (td : TransferDetails) : Throwing (ScanWallet σ) Receipts := do
  Throwing.throwIf (r.money.at info.received < info.amount)
    "Unexpected values of new and old outputs"
  Throwing.when (call.pool = false) do
    Throwing.modify (replaceTransfer ops call pkIndex info i)
    Throwing.throwIf ((setReceived call pkIndex info td).publicKey? ≠ some info.pub)
      "Inconsistent public keys"
    Throwing.throwIf (td.spent = true) "Inconsistent spent status"
  pure ⟨r.money.set info.received (r.money.at info.received - td.amount),
    r.total + (receivedAmount call info - td.amount)⟩

def receiveOutput (call : TxCall) (pkIndex : ℕ) (r : Receipts) (info : ScanInfo) :
    Throwing (ScanWallet σ) Receipts := do
  let w ← Throwing.get
  match ← Throwing.lift (receiveOutcome w info) with
  | .added => receiveAdded ops acc call pkIndex r info
  | .ignored => receiveIgnored r info
  | .replaces i td => receiveReplacing ops call pkIndex r info i td

/-- The derivations of the additional keys. Without a cache they go with the first key only. -/
def additionalDerivations (call : TxCall) (pkIndex : ℕ) : List KeyDerivation :=
  if call.cached ∨ pkIndex = 0 then
    (getAdditionalTxPubKeysFromExtra call.tx.extra.toList).map ops.generateKeyDerivation
  else []

structure KeyLoop where
  found : List ℕ
  receipts : Receipts

def receiveKey (call : TxCall) (l : KeyLoop) (key : PublicKey × ℕ) :
    Throwing (ScanWallet σ) KeyLoop := do
  let w ← Throwing.get
  let (infos, found, money) ← Throwing.lift (scanKey ops acc call.tx call.minerTx w.subaddresses
    (ops.generateKeyDerivation key.1) (additionalDerivations ops call key.2) l.found
    l.receipts.money)
  if infos = [] then pure ⟨found, ⟨money, l.receipts.total⟩⟩
  else do
    Throwing.throwIf (call.pool = false ∧ call.tx.vout.toList.length ≠ call.oIndices.length)
      "transactions outputs size not match with daemon response size"
    let receipts ← Throwing.loop (receiveOutput ops acc call key.2) infos ⟨money, l.receipts.total⟩
    pure ⟨found, receipts⟩

def txPubKeys (tx : Transaction) : List PublicKey :=
  (parseTxExtra tx.extra.toList).1.filterMap TxExtraField.pubKey?

def receiveOutputs (call : TxCall) : Throwing (ScanWallet σ) Receipts :=
  if call.tx.vout.toList = [] then pure ⟨[], 0⟩
  else do
    let l ← Throwing.loop (receiveKey ops acc call) (txPubKeys call.tx).zipIdx ⟨[], ⟨[], 0⟩⟩
    pure l.receipts

/-! ### Spending -/

structure Spends where
  sum : UInt64
  account : Option UInt32
  indices : Finset UInt32

def setSpentBy (call : TxCall) (amount : UInt64) (td : TransferDetails) : TransferDetails :=
  let td := if 0 < amount then { td with amount } else td
  if call.pool then td else { td with spent := true, spentHeight := call.height }

/-- The body of the loop over the inputs. An index beyond the transfers is undefined behaviour. -/
def spendInput (call : TxCall) (s : Spends) (txin : Txin) : Throwing (ScanWallet σ) Spends := do
  let w ← Throwing.get
  match txin with
  | .toKey amount _ kImage =>
      match w.keyImages kImage with
      | none => pure s
      | some i =>
          match w.transfers[i]? with
          | none => Throwing.lift (.error "undefined")
          | some td => do
              Throwing.modify fun w =>
                { w with transfers := w.transfers.modify i (setSpentBy call amount) }
              pure ⟨s.sum + (if 0 < amount then amount else td.amount), some td.subaddrIndex.major,
                insert td.subaddrIndex.minor s.indices⟩
  | _ => pure s

def outsMoney (tx : Transaction) : UInt64 := TxPool.getOutsMoneyAmount tx.vout.toList

/-- The fee, which wraps for inputs that are not all of the wallet. -/
def txFee (call : TxCall) (spends : Spends) : UInt64 :=
  if call.minerTx then 0
  else if call.tx.version = 1 then spends.sum - outsMoney call.tx
  else call.tx.rctSignatures.txnFee

def TxExtraField.nonce? : TxExtraField → Option (List UInt8)
  | .nonce nonce => some nonce
  | _ => none

def findExtraNonce (tx : Transaction) : Option (List UInt8) :=
  (parseTxExtra tx.extra.toList).1.findSome? TxExtraField.nonce?

def getPaymentIdFromTxExtraNonce (nonce : List UInt8) : Option Hash :=
  match nonce with
  | 0 :: bytes => if h : bytes.length = 32 then some ⟨bytes, h⟩ else none
  | _ => none

def getEncryptedPaymentIdFromTxExtraNonce (nonce : List UInt8) : Option (List UInt8) :=
  match nonce with
  | 1 :: bytes => if bytes.length = 8 then some bytes else none
  | _ => none

def txRings (tx : Transaction) : List (KeyImage × List UInt64) :=
  tx.vin.toList.filterMap fun txin =>
    match txin with
    | .toKey _ keyOffsets kImage => some (kImage, keyOffsets.toList)
    | _ => none

/-- The entry of an outgoing transaction that was sent by another wallet. -/
def newConfirmed (call : TxCall) (spends : Spends) (account : UInt32) (received : UInt64) :
    ConfirmedTransferDetails where
  amountIn := spends.sum
  amountOut :=
    if call.tx.version = 1 then outsMoney call.tx else spends.sum - call.tx.rctSignatures.txnFee
  change := received
  blockHeight := 0
  paymentId := ((findExtraNonce call.tx).bind getPaymentIdFromTxExtraNonce).getD nullHash
  timestamp := 0
  unlockTime := 0
  subaddrAccount := account
  subaddrIndices := spends.indices
  rings := []

def processOutgoing (call : TxCall) (spends : Spends) (account : UInt32) (received : UInt64)
    (w : ScanWallet σ) : ScanWallet σ :=
  let entry := (w.confirmedTxs call.txid).getD (newConfirmed call spends account received)
  { w with
    confirmedTxs := Function.update w.confirmedTxs call.txid (some
      { entry with
        rings := entry.rings ++ txRings call.tx
        blockHeight := call.height
        timestamp := call.ts
        unlockTime := call.tx.unlockTime }) }

/-- The outgoing transaction is recorded. Sent to the same account as a whole, it has all of it as
change. -/
def recordOutgoing (call : TxCall) (spends : Spends) (money : Money) (w : ScanWallet σ) :
    ScanWallet σ :=
  match spends.account with
  | none => w
  | some account =>
      let selfReceived :=
        ((money.filter fun p => decide (p.1.major = account)).map Prod.snd).sum
      let w := processOutgoing call spends account selfReceived w
      if spends.sum = selfReceived + txFee call spends then
        { w with
          confirmedTxs := Function.update w.confirmedTxs call.txid
            ((w.confirmedTxs call.txid).map fun entry => { entry with change := selfReceived }) }
      else w

/-! ### Payments -/

def txPaymentId (tx : Transaction) : Hash :=
  match findExtraNonce tx with
  | none => nullHash
  | some nonce =>
      match getEncryptedPaymentIdFromTxExtraNonce nonce with
      | some encrypted =>
          let key := (txPubKeys tx).getLast?.getD nullPkey
          if tx.vout.toList = [] ∨ key = nullPkey then nullHash
          else
            match ops.decryptPaymentId encrypted key with
            | some id => ⟨id.val ++ List.replicate 24 0, by simp⟩
            | none => nullHash
      | none => (getPaymentIdFromTxExtraNonce nonce).getD nullHash

def emplaceOrReplace (container : List (Hash × PoolPaymentDetails)) (key : Hash)
    (pd : PoolPaymentDetails) : List (Hash × PoolPaymentDetails) :=
  match container.findIdx? fun p =>
      decide (p.1 = key ∧ p.2.pd.txHash = pd.pd.txHash ∧
        p.2.pd.subaddrIndex = pd.pd.subaddrIndex) with
  | some i => container.set i (key, pd)
  | none => container ++ [(key, pd)]

def newPayment (call : TxCall) (spends : Spends) (p : SubaddressIndex × UInt64) :
    PaymentDetails where
  txHash := call.txid
  amount := p.2
  fee := txFee call spends
  blockHeight := call.height
  unlockTime := call.tx.unlockTime
  timestamp := call.ts
  coinbase := call.minerTx
  subaddrIndex := p.1

def recordPayments (call : TxCall) (spends : Spends) (payments : Money) (w : ScanWallet σ) :
    ScanWallet σ :=
  let paymentId := txPaymentId ops call.tx
  if call.pool then
    { w with
      unconfirmedPayments := payments.foldl (fun container p =>
        emplaceOrReplace container paymentId ⟨newPayment call spends p, call.doubleSpendSeen⟩)
        w.unconfirmedPayments }
  else
    { w with
      payments := w.payments + payments.map fun p => (paymentId, newPayment call spends p) }

/-- The money without what comes back to the account that spends. -/
def incoming (spends : Spends) (money : Money) : Money :=
  money.filter fun p => decide (spends.account ≠ some p.1.major)

/-! ### A transaction -/

def processUnconfirmed (call : TxCall) (w : ScanWallet σ) : ScanWallet σ :=
  match w.unconfirmedTxs call.txid with
  | none => w
  | some u =>
      { w with
        confirmedTxs :=
          if acc.storeTxInfo ∧ w.confirmedTxs call.txid = none then
            Function.update w.confirmedTxs call.txid (some
              ⟨u.amountIn, u.amountOut, u.change, call.height, u.paymentId, u.timestamp,
                u.unlockTime, u.subaddrAccount, u.subaddrIndices, u.rings⟩)
          else w.confirmedTxs
        unconfirmedTxs := Function.update w.unconfirmedTxs call.txid none }

/-- `process_new_transaction`. Where the amounts do not add up the wallet exits. -/
def processNewTransaction (call : TxCall) : Throwing (ScanWallet σ) Unit := do
  Throwing.when (call.minerTx = false ∧ call.pool = false)
    (Throwing.modify (processUnconfirmed acc call))
  let receipts ← receiveOutputs ops acc call
  let spends ← Throwing.loop (spendInput call) call.tx.vin.toList ⟨0, none, ∅⟩
  Throwing.when (0 < spends.sum ∧ call.pool = false)
    (Throwing.modify (recordOutgoing call spends receipts.money))
  let payments := incoming spends receipts.money
  Throwing.when (payments ≠ []) do
    Throwing.throwIf (receipts.total ≠ (receipts.money.map Prod.snd).sum)
      "Consistency failure in amounts received"
    Throwing.modify (recordPayments ops call spends payments)

/-! ### Blocks -/

/-- A block with what the daemon sent beside it: the number of transactions of the entry, the
parsed ones and the indices of the outputs. -/
structure BlockCall where
  block : Block
  txsSize : ℕ
  txes : List Transaction
  oIndices : List (List UInt64)
  blId : Hash
  /-- Whether the keys of a transaction were derived before. -/
  cached : ℕ → Bool

def minerCall (b : BlockCall) (height : UInt64) : TxCall where
  txid := getTransactionHash ops.toCryptoOps cfg b.block.minerTx
  tx := b.block.minerTx
  oIndices := b.oIndices.headD []
  height := height
  ts := b.block.timestamp
  minerTx := true
  pool := false
  doubleSpendSeen := false
  cached := b.cached 0

/-- The calls for the transactions of a block behind the miner transaction. -/
def txCalls (b : BlockCall) (height : UInt64) : List TxCall :=
  ((b.block.txHashes.toList.zip b.txes).zip b.oIndices.tail).zipIdx.map fun p =>
    { txid := p.1.1.1
      tx := p.1.1.2
      oIndices := p.1.2
      height := height
      ts := b.block.timestamp
      minerTx := false
      pool := false
      doubleSpendSeen := false
      cached := b.cached (p.2 + 1) }

def scansBlock (b : BlockCall) (height : UInt64) : Bool :=
  decide (acc.createtime < b.block.timestamp + 60 * 60 * 24 ∧ acc.refreshFromBlockHeight ≤ height)

def scanBlock (b : BlockCall) (height : UInt64) : Throwing (ScanWallet σ) Unit := do
  Throwing.when (acc.refreshType ≠ .noCoinbase)
    (processNewTransaction ops acc (minerCall ops cfg b height))
  Throwing.throwIf (b.txsSize ≠ b.block.txHashes.toList.length)
    "Wrong amount of transactions for block"
  Throwing.throwIf (b.txsSize ≠ b.txes.length) "Wrong amount of transactions for block"
  Throwing.loop (fun _ call => processNewTransaction ops acc call) (txCalls b height) ()
  Throwing.modify fun w => { w with lastBlockReward := outsMoney b.block.minerTx }

def processNewBlockchainEntry (b : BlockCall) (height : UInt64) : Throwing (ScanWallet σ) Unit := do
  Throwing.throwIf (b.txsSize + 1 ≠ b.oIndices.length)
    "block transactions not match with daemon response size"
  Throwing.when (scansBlock acc b height = true) (scanBlock ops cfg acc b height)
  Throwing.modify fun w => { w with blockchain := w.blockchain ++ [b.blId] }

/-! ### Detaching -/

def resetSpent (height : UInt64) (td : TransferDetails) : TransferDetails :=
  if td.spent ∧ height ≤ td.spentHeight then { td with spent := false, spentHeight := 0 } else td

def eraseKeyImage (_ : Unit) (td : TransferDetails) : Throwing (ScanWallet σ) Unit :=
  Throwing.when (td.keyImageKnown = true ∧ td.keyImagePartial = false) do
    let w ← Throwing.get
    Throwing.throwIf (w.keyImages td.keyImage = none) "key image not found"
    Throwing.modify fun w =>
      { w with keyImages := Function.update w.keyImages td.keyImage none }

def erasePubKey (_ : Unit) (td : TransferDetails) : Throwing (ScanWallet σ) Unit := do
  let w ← Throwing.get
  match td.publicKey? with
  | none => Throwing.lift (.error "bad_get")
  | some key => do
      Throwing.throwIf (w.pubKeys key = none) "public key not found"
      Throwing.modify fun w => { w with pubKeys := Function.update w.pubKeys key none }

/-- The number of transfers in front of the first one at or above a height. -/
def detachStart (height : UInt64) (transfers : List TransferDetails) : ℕ :=
  transfers.findIdx fun td => decide (height ≤ td.blockHeight)

/-- The chain is cut, or filled up with null hashes. -/
def crop (blockchain : List Hash) (height : ℕ) : List Hash :=
  blockchain.take height ++ List.replicate (height - blockchain.length) nullHash

def detachBlockchain (height : UInt64) : Throwing (ScanWallet σ) Unit := do
  Throwing.modify fun w => { w with transfers := w.transfers.map (resetSpent height) }
  let w ← Throwing.get
  let start := detachStart height w.transfers
  Throwing.loop eraseKeyImage (w.transfers.drop start) ()
  Throwing.loop erasePubKey (w.transfers.drop start) ()
  Throwing.modify fun w =>
    { w with
      transfers := w.transfers.take start
      blockchain := crop w.blockchain height.toNat
      payments := w.payments.filter fun p => p.2.blockHeight < height
      confirmedTxs := fun txid =>
        (w.confirmedTxs txid).filter fun entry => decide (entry.blockHeight < height) }

end XrCoin.Wallet

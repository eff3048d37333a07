import Mathlib
import XrCoin.Blockchain.Emission
import XrCoin.Data.Popping
import XrCoin.Wallet.TransferSelected

/-!
`create_transactions_2`: the transactions that pay some destinations out of the outputs of a wallet.

A loop selects one output after the other, pays with it, and tries to build a transaction when
everything is paid or the transaction gets too heavy. Random numbers are asked for by the number of
the call. The answers of the daemon, the balances and the constants come with the wallet. Not
modelled are light wallets, the modes of the device and the totals that only the log reads. A loop
that has not ended within its rounds counts as a throw.
-/

namespace XrCoin.Wallet

open Archive Cryptonote Data Blockchain

/-! ### The wallet -/

structure BuildWallet extends BuildOps where
  transfers : List TransferDetails
  ignoreFractionalOutputs : Bool
  ignoreOutputsAbove : UInt64
  ignoreOutputsBelow : UInt64
  minOutputValue : UInt64
  minOutputCount : ℕ
  mergeDestinations : Bool
  isTransferUnlocked : TransferDetails → Bool
  /-- The balances of an account by the minor index. -/
  balancePerSubaddress : UInt32 → List (UInt32 × UInt64)
  unlockedBalancePerSubaddress : UInt32 → UInt32 → UInt64
  useRct : Bool
  useV1Borromean : Bool
  bulletproof : Bool
  /-- `use_fork_rules(2)`. -/
  useForkTwo : Bool
  feePerKb : UInt64
  feeMultiplier : UInt64
  /-- `DEFAULT_FEE_V1`. -/
  defaultFeeV1 : UInt64
  /-- `DEFAULT_RING_SIZE`. -/
  defaultRingSize : ℕ
  /-- `BASE_REWARD_CLAMP_THRESHOLD`. -/
  baseRewardClampThreshold : UInt64
  /-- `DEFAULT_DUST_THRESHOLD`. -/
  defaultDustThreshold : UInt64
  /-- `rand_idx`, before it is brought into the range. -/
  rand : ℕ → ℕ

structure BuildArgs where
  fakeOutsCount : ℕ
  extraSize : ℕ

variable (w : BuildWallet) (args : BuildArgs)

/-! ### Sizes and fees -/

def estimateRctTxSize (nInputs mixin nOutputs extraSize : ℕ) (bulletproof : Bool) : ℕ :=
  let rangeSigs :=
    if bulletproof then (2 * (6 + Nat.clog 2 nOutputs) + 4 + 5) * 32 + 3
    else (2 * 64 * 32 + 32 + 64 * 32) * nOutputs
  1 + 6 + nInputs * (1 + 6 + (mixin + 1) * 2 + 32) + nOutputs * (6 + 32) + extraSize + 1 + rangeSigs +
    nInputs * (64 * (mixin + 1) + 32) + 32 * nInputs + 2 * 32 * nOutputs + 32 * nOutputs + 4

def estimateTxSize (nInputs nOutputs extraSize : ℕ) : ℕ :=
  if w.useRct then estimateRctTxSize nInputs args.fakeOutsCount nOutputs extraSize w.bulletproof
  else if w.useV1Borromean then nInputs * (args.fakeOutsCount + 1) * (80 - 32) + 32 + extraSize
  else nInputs * (args.fakeOutsCount + 1) * 80 + extraSize

def estimateTxWeight (nInputs nOutputs extraSize : ℕ) : ℕ :=
  let size := estimateTxSize w args nInputs nOutputs extraSize
  if w.useRct ∧ w.bulletproof ∧ 2 < nOutputs then
    let logPaddedOutputs := max 2 (Nat.clog 2 nOutputs)
    let bpSize := 32 * (9 + 2 * (6 + logPaddedOutputs))
    size + (368 * 2 ^ logPaddedOutputs - bpSize) * 4 / 5
  else size

def calculateFee (bytes : ℕ) : UInt64 :=
  let fee := ((bytes + 1023) / 1024).toUInt64 * w.feePerKb
  (if w.useForkTwo then fee else max w.defaultFeeV1 fee) * w.feeMultiplier

def txWeightTarget : ℕ := (w.upperTransactionWeightLimit * 2 / 3).toNat

/-! ### Picking -/

def getOutputRelatedness (td₀ td₁ : TransferDetails) : ℕ :=
  if td₀.txid = td₁.txid then 10
  else
    let difference :=
      if td₁.blockHeight < td₀.blockHeight then td₀.blockHeight - td₁.blockHeight
      else td₁.blockHeight - td₀.blockHeight
    let dh := difference.toUInt32.toBitVec.toInt
    if dh = 0 then 9 else if dh = 1 then 8 else if dh < 10 then 2 else 0

def leastRelated (selected : List TransferDetails) :
    List (TransferDetails × ℕ) → ℕ → List (TransferDetails × ℕ) → List (TransferDetails × ℕ)
  | [], _, candidates => candidates
  | (td, n) :: rest, best, candidates =>
      let relatedness := (selected.map (getOutputRelatedness td)).foldl max 0
      if relatedness < best then leastRelated selected rest relatedness [(td, n)]
      else if relatedness = best then leastRelated selected rest best (candidates ++ [(td, n)])
      else leastRelated selected rest best candidates

def smallestValue : List (TransferDetails × ℕ) → Option ℕ
  | [] => none
  | first :: rest =>
      some (rest.foldl (fun least c => if c.1.amount < least.1.amount then c else least) first).2

def popBestValue (unusedIndices selectedTransfers : List ℕ) (smallest : Bool) (call : ℕ) :
    Except String (ℕ × List ℕ) := do
  let tds ← selectedDetails w.transfers unusedIndices
  let selected ← selectedDetails w.transfers selectedTransfers
  let candidates := leastRelated selected tds.zipIdx 10 []
  let place ← orThrow (if smallest then smallestValue candidates
    else (candidates[w.rand call % candidates.length]?).map Prod.snd) "vector::_M_range_check"
  orThrow (popIndex unusedIndices place) "idx out of bounds"

def rctInput (subaddrAccount : UInt32) (subaddrIndices : List UInt32) (td : TransferDetails) : Bool :=
  !td.spent && td.rct && w.isTransferUnlocked td && td.subaddrIndex.major = subaddrAccount &&
    td.subaddrIndex.minor ∈ subaddrIndices

/-- The second of two inputs. The key image that is asked about is that of the first. -/
def secondInput (neededMoney : UInt64) (td td₂ : TransferDetails) : Bool :=
  !td₂.spent && !td.keyImagePartial && td₂.rct && neededMoney ≤ td.amount + td₂.amount &&
    w.isTransferUnlocked td₂ && td₂.subaddrIndex = td.subaddrIndex

def preferredPair (neededMoney : UInt64) (subaddrAccount : UInt32) (subaddrIndices : List UInt32) :
    ℕ × List ℕ :=
  let tds := w.transfers.zipIdx
  let pairs := tds.flatMap fun first =>
    if rctInput w subaddrAccount subaddrIndices first.1 && !first.1.keyImagePartial then
      (tds.drop (first.2 + 1)).filterMap fun second =>
        if secondInput w neededMoney first.1 second.1 then
          some (first.2, second.2, getOutputRelatedness first.1 second.1)
        else none
    else []
  pairs.foldl (fun best pair =>
    if pair.2.2 < best.1 then (pair.2.2, [pair.1, pair.2.1]) else best) (10, [])

def pickPreferredRctInputs (neededMoney : UInt64) (subaddrAccount : UInt32)
    (subaddrIndices : List UInt32) : List ℕ :=
  match w.transfers.zipIdx.find? fun p =>
      rctInput w subaddrAccount subaddrIndices p.1 && neededMoney ≤ p.1.amount with
  | some p => [p.2]
  | none => (preferredPair w neededMoney subaddrAccount subaddrIndices).2

def isRct (idx : ℕ) : Bool := (w.transfers[idx]?.map TransferDetails.rct).getD false

def amountOf (idx : ℕ) : UInt64 := (w.transfers[idx]?.map TransferDetails.amount).getD 0

def shouldPickASecondOutput (nTransfers : ℕ) (unusedTransfersIndices unusedDustIndices : List ℕ) :
    Bool :=
  w.useRct && decide (nTransfers ≤ 1) &&
    (unusedDustIndices.any (isRct w) || unusedTransfersIndices.any (isRct w))

def getOnlyRct (unusedDustIndices unusedTransfersIndices : List ℕ) : List ℕ :=
  unusedDustIndices.filter (isRct w) ++ unusedTransfersIndices.filter (isRct w)

def getCountAbove (indices : List ℕ) (threshold : UInt64) : ℕ :=
  indices.countP fun idx => threshold ≤ amountOf w idx

/-! ### The transactions -/

structure TxDraft where
  selectedTransfers : List ℕ
  dsts : List TxDestinationEntry
  neededFee : UInt64
  deriving DecidableEq

def TxDraft.empty : TxDraft := ⟨[], [], 0⟩

def raiseAt (dsts : List TxDestinationEntry) (i : ℕ) (amount : UInt64) : List TxDestinationEntry :=
  dsts.modify i fun d => { d with amount := d.amount + amount }

def addDestination (dsts : List TxDestinationEntry) (d : TxDestinationEntry) (amount : UInt64)
    (originalOutputIndex : ℕ) (mergeDestinations : Bool) :
    Except String (List TxDestinationEntry) :=
  let entry : TxDestinationEntry := { d with amount := 0 }
  if mergeDestinations then
    match dsts.findIdx? fun e => e.addr = d.addr with
    | some i => .ok (raiseAt dsts i amount)
    | none => .ok (raiseAt (dsts ++ [entry]) dsts.length amount)
  else do
    throwIf (dsts.length < originalOutputIndex) "original_output_index too large"
    let dsts := if originalOutputIndex = dsts.length then dsts ++ [entry] else dsts
    throwIf ((dsts[originalOutputIndex]?.map TxDestinationEntry.addr) ≠ some d.addr)
      "Mismatched destination address"
    .ok (raiseAt dsts originalOutputIndex amount)

structure Building where
  done : List TxDraft
  tx : TxDraft
  dsts : List TxDestinationEntry
  unusedTransfersIndices : List ℕ
  unusedDustIndices : List ℕ
  preferredInputs : List ℕ
  addingFee : Bool
  neededFee : UInt64
  availableForFee : UInt64
  originalOutputIndex : ℕ
  calls : ℕ

/-- Whether nothing is left to be paid to the first destination. -/
def Building.paid (st : Building) : Bool :=
  match st.dsts.head? with
  | some d => d.amount = 0
  | none => true

def continues (st : Building) : Bool :=
  !st.paid || st.addingFee || st.preferredInputs ≠ [] ||
    shouldPickASecondOutput w st.tx.selectedTransfers.length st.unusedTransfersIndices
      st.unusedDustIndices

/-- An index that is not unused any more. -/
def Building.use (st : Building) (idx : ℕ) : Building :=
  { st with
    unusedTransfersIndices := popIfPresent st.unusedTransfersIndices idx
    unusedDustIndices := popIfPresent st.unusedDustIndices idx }

/-- A second input that is not needed. Nothing ends the loop. -/
def pickSecond (st : Building) : Except String (Option (ℕ × Building)) := do
  let (idx, _) ← popBestValue w (getOnlyRct w st.unusedDustIndices st.unusedTransfersIndices)
    st.tx.selectedTransfers true st.calls
  let td ← orThrow w.transfers[idx]? "vector::_M_range_check"
  if w.minOutputValue ≤ td.amount ∧
      getCountAbove w st.unusedTransfersIndices w.minOutputValue < w.minOutputCount then .ok none
  else do
    let front ← orThrow (st.tx.selectedTransfers.head?.bind fun i => w.transfers[i]?)
      "vector::_M_range_check"
    if 0 < getOutputRelatedness td front then .ok none else .ok (some (idx, st.use idx))

def pickBest (st : Building) : Except String (ℕ × Building) :=
  if st.unusedTransfersIndices = [] then do
    let (idx, rest) ← popBestValue w st.unusedDustIndices st.tx.selectedTransfers false st.calls
    .ok (idx, { st with unusedDustIndices := rest, calls := st.calls + 1 })
  else do
    let (idx, rest) ← popBestValue w st.unusedTransfersIndices st.tx.selectedTransfers false st.calls
    .ok (idx, { st with unusedTransfersIndices := rest, calls := st.calls + 1 })

def pickInput (st : Building) : Except String (Option (ℕ × Building)) :=
  if st.unusedDustIndices = [] ∧ st.unusedTransfersIndices = [] then .error "tx_not_possible"
  else
    match popBack st.preferredInputs with
    | some (idx, preferredInputs) =>
        .ok (some (idx, { st.use idx with preferredInputs := preferredInputs }))
    | none =>
        if st.paid ∧ st.addingFee = false then pickSecond w st
        else (pickBest w st).map some

def Building.select (st : Building) (idx : ℕ) : Building :=
  { st with tx := { st.tx with selectedTransfers := st.tx.selectedTransfers ++ [idx] } }

/-! ### Paying -/

def hasRoom (st : Building) : Bool :=
  estimateTxWeight w args st.tx.selectedTransfers.length (st.tx.dsts.length + 1) args.extraSize <
    txWeightTarget w

def Building.addFirst (st : Building) (d : TxDestinationEntry) (amount : UInt64) :
    Except String Building := do
  let dsts ← addDestination st.tx.dsts d amount st.originalOutputIndex w.mergeDestinations
  .ok { st with tx := { st.tx with dsts := dsts } }

/-- The destinations that can be paid in full. There are not more rounds than destinations. -/
def payFully : ℕ → Building → UInt64 → Except String (Building × UInt64)
  | 0, st, availableAmount => .ok (st, availableAmount)
  | rounds + 1, st, availableAmount =>
      match popIndex st.dsts 0 with
      | none => .ok (st, availableAmount)
      | some (d, rest) =>
          if d.amount ≤ availableAmount ∧ hasRoom w args st then do
            let st ← st.addFirst w d d.amount
            payFully rounds
              { st with dsts := rest, originalOutputIndex := st.originalOutputIndex + 1 }
              (availableAmount - d.amount)
          else .ok (st, availableAmount)

def payPartially (st : Building) (availableAmount : UInt64) : Except String Building :=
  match st.dsts with
  | [] => .ok st
  | d :: rest =>
      if 0 < availableAmount ∧ hasRoom w args st then do
        let st ← st.addFirst w d availableAmount
        .ok { st with dsts := { d with amount := d.amount - availableAmount } :: rest }
      else .ok st

def payWith (st : Building) (availableAmount : UInt64) : Except String Building :=
  if st.addingFee then .ok { st with availableForFee := st.availableForFee + availableAmount }
  else do
    let (st, availableAmount) ← payFully w args st.dsts.length st availableAmount
    payPartially w args st availableAmount

def triesTx (st : Building) : Except String Bool :=
  if st.preferredInputs ≠ [] then .ok false
  else if st.addingFee then .ok (st.neededFee ≤ st.availableForFee)
  else do
    let tryTx := st.dsts = [] ∨ hasRoom w args st = false
    throwIf (tryTx ∧ st.tx.dsts = []) "tx_too_big"
    .ok (decide tryTx)

def advance (st : Building) : Except String (Option (Bool × Building)) := do
  match ← pickInput w st with
  | none => .ok none
  | some (idx, st) => do
      let td ← orThrow w.transfers[idx]? "vector::_M_range_check"
      let st ← payWith w args (st.select idx) td.amount
      let tryTx ← triesTx w args st
      .ok (some (tryTx, st))

/-! ### Trying -/

/-- A split payment is rounded: what is taken off goes back to the first destination. -/
def roundSplit (st : Building) : Except String Building :=
  match st.dsts with
  | [] => .ok st
  | d :: rest =>
      if w.useRct then .ok st
      else do
        let back ← orThrow st.tx.dsts.getLast? "vector::_M_range_check"
        if w.baseRewardClampThreshold < back.amount then do
          throwIf (w.baseRewardClampThreshold = 0) "division by zero"
          let subtractedAmount := back.amount % w.baseRewardClampThreshold
          .ok { st with
            tx := { st.tx with
              dsts := st.tx.dsts.dropLast ++
                [{ back with amount := back.amount - subtractedAmount }] }
            dsts := { d with amount := d.amount + subtractedAmount } :: rest }
        else .ok st

def transfer (call : ℕ) (tx : TxDraft) (fee : UInt64) : Except String PendingTx :=
  if w.useRct then
    transferSelectedRct w.toBuildOps w.transfers call tx.dsts tx.selectedTransfers fee
  else
    transferSelected w.toBuildOps w.transfers call tx.dsts tx.selectedTransfers fee
      ⟨w.defaultDustThreshold, true, nullAddress⟩

def PendingTx.available (ptx : PendingTx) : UInt64 :=
  ptx.fee + ptx.changeDts.amount + if ptx.dustAddedToFee then 0 else ptx.dust

structure Trial where
  st : Building
  fee : UInt64

/-- The fee is taken from what was paid to the first destination that is left. -/
def takeFee (t : Trial) : Except String Trial :=
  match t.st.dsts with
  | [] => .ok t
  | d :: rest =>
      if t.st.availableForFee < t.st.neededFee ∧ 0 < d.amount then do
        let i ← orThrow (t.st.tx.dsts.findIdx? fun e => e.addr = d.addr)
          "paid address not found in outputs"
        let paid ← orThrow t.st.tx.dsts[i]? "vector::_M_range_check"
        if t.st.neededFee < paid.amount then
          let newPaidAmount := paid.amount - t.st.neededFee
          .ok {
            st := { t.st with
              tx := { t.st.tx with dsts := t.st.tx.dsts.set i { paid with amount := newPaidAmount } }
              dsts := { d with amount := d.amount + (paid.amount - newPaidAmount) } :: rest
              availableForFee := t.st.neededFee }
            fee := t.st.neededFee }
        else .ok t
      else .ok t

def raiseFee : ℕ → Trial → Except String Trial
  | 0, _ => .error "the fee was not reached"
  | rounds + 1, t =>
      if t.fee < t.st.neededFee then do
        let ptx ← transfer w t.st.calls t.st.tx t.st.neededFee
        raiseFee rounds
          ⟨{ t.st with neededFee := calculateFee w ptx.blobSize, calls := t.st.calls + 1 }, ptx.fee⟩
      else .ok t

/-- A transaction that has its fee. What is left to pay goes into another one. -/
def Building.commit (st : Building) : Building :=
  let tx := { st.tx with neededFee := st.neededFee }
  if st.dsts = [] then { st with tx := tx, addingFee := false }
  else
    { st with
      done := st.done ++ [tx]
      tx := .empty
      addingFee := false
      originalOutputIndex := 0 }

/-- The inputs and the outputs of a draft. -/
def draftInputs (tx : TxDraft) : UInt64 := (tx.selectedTransfers.map (amountOf w)).sum

def draftOutputs (tx : TxDraft) (neededFee : UInt64) : UInt64 :=
  neededFee + (tx.dsts.map TxDestinationEntry.amount).sum

def buildDraft (rounds : ℕ) (st : Building) : Except String Building := do
  let ptx ← transfer w st.calls st.tx st.neededFee
  let st := { st with
    neededFee := calculateFee w ptx.blobSize
    availableForFee := ptx.available
    calls := st.calls + 1 }
  let t ← takeFee ⟨st, ptx.fee⟩
  if t.st.availableForFee < t.st.neededFee then .ok { t.st with addingFee := true }
  else do
    let t ← raiseFee w rounds t
    .ok t.st.commit

def tryTx (rounds : ℕ) (st : Building) : Except String Building := do
  let st ← roundSplit w st
  let neededFee := calculateFee w
    (estimateTxSize w args st.tx.selectedTransfers.length st.tx.dsts.length args.extraSize)
  let st := { st with neededFee := neededFee }
  if draftInputs w st.tx < draftOutputs st.tx neededFee then .ok { st with addingFee := true }
  else buildDraft w rounds st

/-- One iteration, and nothing where the loop is left. -/
def iterate (rounds : ℕ) (st : Building) : Except String (Option Building) := do
  match ← advance w args st with
  | none => .ok none
  | some (true, st) => (tryTx w args rounds st).map some
  | some (false, st) => .ok (some st)

def selectLoop (rounds : ℕ) : ℕ → Building → Except String Building
  | 0, _ => .error "the selection did not end"
  | n + 1, st =>
      if continues w st then do
        match ← iterate w args rounds st with
        | none => .ok st
        | some st => selectLoop rounds n st
      else .ok st

def constructAll (calls : ℕ) : List TxDraft → Except String (List PendingTx)
  | [] => .ok []
  | tx :: txes => do
      let ptx ← transfer w calls tx tx.neededFee
      let ptxs ← constructAll (calls + 1) txes
      .ok (ptx :: ptxs)

/-! ### The whole -/

structure TransferRequest where
  dsts : List TxDestinationEntry
  ringSize : ℕ
  extraSize : ℕ
  subaddrAccount : UInt32
  subaddrIndices : List UInt32

variable (req : TransferRequest)

def TransferRequest.buildArgs : BuildArgs :=
  ⟨(if req.ringSize = 0 then w.defaultRingSize else req.ringSize) - 1, req.extraSize⟩

def TransferRequest.indices : List UInt32 :=
  if req.subaddrIndices = [] then (w.balancePerSubaddress req.subaddrAccount).map Prod.fst
  else req.subaddrIndices

def checkBalances (neededMoney : UInt64) : Except String Unit := do
  let minFee := w.feeMultiplier * w.feePerKb *
    (estimateTxSize w (req.buildArgs w) 1 2 req.extraSize).toUInt64 / 1024
  let balances := w.balancePerSubaddress req.subaddrAccount
  let indices := req.indices w
  throwIf ((indices.map fun i => (balances.lookup i).getD 0).sum < neededMoney + minFee)
    "not_enough_money"
  throwIf ((indices.map (w.unlockedBalancePerSubaddress req.subaddrAccount)).sum <
    neededMoney + minFee) "not_enough_unlocked_money"

/-- The amount below which an output costs more than it is worth. -/
def fractionalThreshold (args : BuildArgs) : Except String UInt64 := do
  let oneRing := estimateTxWeight w args 1 2 0
  let twoRings := estimateTxWeight w args 2 2 0
  throwIf (twoRings < oneRing) "Estimated tx weight with 1 input is larger than with 2 inputs!"
  .ok (w.feeMultiplier * w.feePerKb * (twoRings - oneRing).toUInt64 / 1024)

def spendable (threshold : UInt64) (td : TransferDetails) : Bool :=
  !(w.ignoreFractionalOutputs && td.amount < threshold) &&
    td.amount ≤ w.ignoreOutputsAbove && w.ignoreOutputsBelow ≤ td.amount && !td.spent &&
    !td.keyImagePartial && (w.useRct || !td.rct) && w.isTransferUnlocked td &&
    td.subaddrIndex.major = req.subaddrAccount && td.subaddrIndex.minor ∈ req.indices w

def isNondust (td : TransferDetails) : Bool := td.rct || isValidDecomposedAmount td.amount

def indicesOf (p : TransferDetails → Bool) : List ℕ :=
  (w.transfers.zipIdx.filter fun q => p q.1).map Prod.snd

def preferredInputs (neededMoney : UInt64) : List ℕ :=
  if w.useRct then
    pickPreferredRctInputs w (neededMoney + calculateFee w (estimateRctTxSize 2
      (req.buildArgs w).fakeOutsCount 2 req.extraSize w.bulletproof)) req.subaddrAccount (req.indices w)
  else []

def startBuilding (neededMoney threshold : UInt64) : Building where
  done := []
  tx := .empty
  dsts := req.dsts
  unusedTransfersIndices := indicesOf w fun td => spendable w req threshold td && isNondust td
  unusedDustIndices := indicesOf w fun td => spendable w req threshold td && !isNondust td
  preferredInputs := preferredInputs w req neededMoney
  addingFee := false
  neededFee := 0
  availableForFee := 0
  originalOutputIndex := 0
  calls := 0

def prepareBuilding : Except String Building := do
  throwIf (req.dsts = []) "zero_destination"
  let neededMoney ← addAmounts 0 req.dsts
  throwIf (neededMoney = 0) "zero_destination"
  checkBalances w req neededMoney
  let threshold ← fractionalThreshold w (req.buildArgs w)
  .ok (startBuilding w req neededMoney threshold)

def createTransactions2 (rounds inputs : ℕ) : Except String (List PendingTx) := do
  let st ← prepareBuilding w req
  let st ← selectLoop w (req.buildArgs w) rounds inputs st
  throwIf (st.addingFee = true) "tx_not_possible"
  constructAll w st.calls (st.done ++ [st.tx])

/-! ### What the steps do -/

section Steps

variable {w args}

theorem popBestValue_perm {unusedIndices selectedTransfers rest : List ℕ} {smallest : Bool}
    {call idx : ℕ}
    (h : popBestValue w unusedIndices selectedTransfers smallest call = .ok (idx, rest)) :
    unusedIndices.Perm (idx :: rest) := by
  obtain ⟨tds, -, h⟩ := bind_eq_ok.mp h
  obtain ⟨selected, -, h⟩ := bind_eq_ok.mp h
  obtain ⟨place, -, h⟩ := bind_eq_ok.mp h
  exact popIndex_perm (orThrow_eq_ok.mp h)

theorem pickSecond_some {st st' : Building} {idx : ℕ}
    (h : pickSecond w st = .ok (some (idx, st'))) :
    idx ∈ st.unusedDustIndices ++ st.unusedTransfersIndices ∧ st' = st.use idx := by
  obtain ⟨⟨i, rest⟩, hpop, h⟩ := bind_eq_ok.mp h
  obtain ⟨td, -, h⟩ := bind_eq_ok.mp h
  have hmem : i ∈ getOnlyRct w st.unusedDustIndices st.unusedTransfersIndices :=
    (popBestValue_perm hpop).mem_iff.mpr List.mem_cons_self
  rw [getOnlyRct, ← List.filter_append] at hmem
  split at h
  · cases h
  · obtain ⟨front, -, h⟩ := bind_eq_ok.mp h
    split at h
    · cases h
    · cases h
      exact ⟨List.mem_of_mem_filter hmem, rfl⟩

/-- Where the next input comes from: it is preferred, a second one, the best of the dust or the best
of the other ones. -/
theorem pickInput_some {st st' : Building} {idx : ℕ}
    (h : pickInput w st = .ok (some (idx, st'))) :
    (∃ rest, st.preferredInputs = rest ++ [idx] ∧
      st' = { st.use idx with preferredInputs := rest }) ∨
    st.preferredInputs = [] ∧
      (idx ∈ st.unusedDustIndices ++ st.unusedTransfersIndices ∧ st' = st.use idx ∨
        (∃ rest, st.unusedDustIndices.Perm (idx :: rest) ∧
          st' = { st with unusedDustIndices := rest, calls := st.calls + 1 }) ∨
        ∃ rest, st.unusedTransfersIndices.Perm (idx :: rest) ∧
          st' = { st with unusedTransfersIndices := rest, calls := st.calls + 1 }) := by
  rw [pickInput] at h
  split at h
  · cases h
  rcases hback : popBack st.preferredInputs with _ | ⟨i, rest⟩
  · simp only [hback] at h
    refine Or.inr ⟨?_, ?_⟩
    · rw [popBack, Option.map_eq_none_iff] at hback
      exact List.getLast?_eq_none_iff.mp hback
    split at h
    · exact Or.inl (pickSecond_some h)
    · rcases hbest : pickBest w st with e | picked
      · rw [hbest] at h
        cases h
      · rw [hbest] at h
        cases h
        rw [pickBest] at hbest
        split at hbest
        · obtain ⟨⟨i, rest⟩, hpop, hbest⟩ := bind_eq_ok.mp hbest
          cases hbest
          exact Or.inr (Or.inl ⟨rest, popBestValue_perm hpop, rfl⟩)
        · obtain ⟨⟨i, rest⟩, hpop, hbest⟩ := bind_eq_ok.mp hbest
          cases hbest
          exact Or.inr (Or.inr ⟨rest, popBestValue_perm hpop, rfl⟩)
  · simp only [hback] at h
    cases h
    exact Or.inl ⟨rest, popBack_eq hback, rfl⟩

/-- The loop is only left where everything is paid. -/
theorem pickInput_none {st : Building} (h : pickInput w st = .ok none) : st.paid := by
  rw [pickInput] at h
  split at h
  · cases h
  rcases hback : popBack st.preferredInputs with _ | ⟨i, rest⟩
  · simp only [hback] at h
    split at h
    · rename_i hpaid
      exact hpaid.1
    · rcases hbest : pickBest w st with e | picked <;> rw [hbest] at h <;> cases h
  · simp only [hback] at h
    cases h

theorem advance_some {st st' : Building} {b : Bool} (h : advance w args st = .ok (some (b, st'))) :
    ∃ idx st₁ td, pickInput w st = .ok (some (idx, st₁)) ∧ w.transfers[idx]? = some td ∧
      payWith w args (st₁.select idx) td.amount = .ok st' ∧ triesTx w args st' = .ok b := by
  obtain ⟨picked, hpick, h⟩ := bind_eq_ok.mp h
  cases picked with
  | none => cases h
  | some picked =>
      obtain ⟨td, htd, h⟩ := bind_eq_ok.mp h
      obtain ⟨st₂, hpay, h⟩ := bind_eq_ok.mp h
      obtain ⟨tries, htries, h⟩ := bind_eq_ok.mp h
      cases h
      exact ⟨picked.1, picked.2, td, hpick, orThrow_eq_ok.mp htd, hpay, htries⟩

theorem advance_none {st : Building} (h : advance w args st = .ok none) : st.paid := by
  obtain ⟨picked, hpick, h⟩ := bind_eq_ok.mp h
  cases picked with
  | none => exact pickInput_none hpick
  | some picked =>
      obtain ⟨td, -, h⟩ := bind_eq_ok.mp h
      obtain ⟨st₂, -, h⟩ := bind_eq_ok.mp h
      obtain ⟨tries, -, h⟩ := bind_eq_ok.mp h
      cases h

theorem iterate_some {rounds : ℕ} {st st' : Building}
    (h : iterate w args rounds st = .ok (some st')) :
    (∃ st₁, advance w args st = .ok (some (true, st₁)) ∧ tryTx w args rounds st₁ = .ok st') ∨
      advance w args st = .ok (some (false, st')) := by
  obtain ⟨advanced, hadvance, h⟩ := bind_eq_ok.mp h
  rcases advanced with _ | ⟨_ | _, st₁⟩
  · cases h
  · cases h
    exact Or.inr hadvance
  · refine Or.inl ⟨st₁, hadvance, ?_⟩
    rcases htry : tryTx w args rounds st₁ with e | st₂
    · simp only [htry] at h
      cases h
    · simp only [htry] at h
      cases h
      rfl

theorem iterate_none {rounds : ℕ} {st : Building} (h : iterate w args rounds st = .ok none) :
    st.paid := by
  obtain ⟨advanced, hadvance, h⟩ := bind_eq_ok.mp h
  rcases advanced with _ | ⟨_ | _, st₁⟩
  · exact advance_none hadvance
  · cases h
  · rcases htry : tryTx w args rounds st₁ with e | st₂ <;> simp only [htry] at h <;> cases h

variable (w args) in
def LoopStep (rounds : ℕ) (st st' : Building) : Prop :=
  continues w st = true ∧ iterate w args rounds st = .ok (some st')

/-- The loop ends after some of its iterations, with everything paid. -/
theorem selectLoop_reaches {rounds n : ℕ} {st st' : Building}
    (h : selectLoop w args rounds n st = .ok st') :
    Relation.ReflTransGen (LoopStep w args rounds) st st' ∧ st'.paid := by
  induction n generalizing st with
  | zero => cases h
  | succ n ih =>
      rw [selectLoop] at h
      split at h
      · rename_i hcontinues
        obtain ⟨next, hnext, h⟩ := bind_eq_ok.mp h
        cases next with
        | none =>
            cases h
            exact ⟨.refl, iterate_none hnext⟩
        | some st₁ =>
            obtain ⟨hrest, hpaid⟩ := ih h
            exact ⟨.head ⟨hcontinues, hnext⟩ hrest, hpaid⟩
      · rename_i hcontinues
        cases h
        simp only [continues, Bool.or_eq_true, not_or, Bool.not_eq_true', Bool.not_eq_false] at hcontinues
        exact ⟨.refl, hcontinues.1.1.1⟩

theorem transfer_spec {call : ℕ} {tx : TxDraft} {fee : UInt64} {ptx : PendingTx}
    (h : transfer w call tx fee = .ok ptx) :
    ptx.For w.transfers tx.dsts tx.selectedTransfers := by
  rw [transfer] at h
  split at h
  · exact transferSelectedRct_spec w.toBuildOps h
  · exact transferSelected_spec w.toBuildOps h

theorem raiseFee_eq_ok {rounds : ℕ} {t t' : Trial} (h : raiseFee w rounds t = .ok t') :
    ∃ fee calls, t'.st = { t.st with neededFee := fee, calls := calls } := by
  induction rounds generalizing t with
  | zero => cases h
  | succ rounds ih =>
      rw [raiseFee] at h
      split at h
      · obtain ⟨ptx, -, h⟩ := bind_eq_ok.mp h
        obtain ⟨fee, calls, hst⟩ := ih h
        exact ⟨fee, calls, hst⟩
      · cases h
        exact ⟨_, _, rfl⟩

theorem constructAll_spec {calls : ℕ} {txes : List TxDraft} {ptxs : List PendingTx}
    (h : constructAll w calls txes = .ok ptxs) :
    List.Forall₂ (fun tx (ptx : PendingTx) => ptx.For w.transfers tx.dsts tx.selectedTransfers)
      txes ptxs := by
  induction txes generalizing calls ptxs with
  | nil =>
      cases h
      exact .nil
  | cons tx txes ih =>
      obtain ⟨ptx, hptx, h⟩ := bind_eq_ok.mp h
      obtain ⟨rest, hrest, h⟩ := bind_eq_ok.mp h
      cases h
      exact .cons (transfer_spec hptx) (ih hrest)

variable {req}

theorem prepareBuilding_eq_ok {st : Building} (h : prepareBuilding w req = .ok st) :
    ∃ neededMoney threshold, addAmounts 0 req.dsts = .ok neededMoney ∧
      st = startBuilding w req neededMoney threshold := by
  obtain ⟨_, -, h⟩ := bind_eq_ok.mp h
  obtain ⟨neededMoney, hneeded, h⟩ := bind_eq_ok.mp h
  obtain ⟨_, -, h⟩ := bind_eq_ok.mp h
  obtain ⟨_, -, h⟩ := bind_eq_ok.mp h
  obtain ⟨threshold, -, h⟩ := bind_eq_ok.mp h
  exact ⟨neededMoney, threshold, hneeded, (Except.ok.inj h).symm⟩

theorem createTransactions2_eq_ok {rounds inputs : ℕ} {ptxs : List PendingTx}
    (h : createTransactions2 w req rounds inputs = .ok ptxs) :
    ∃ st st', prepareBuilding w req = .ok st ∧
      Relation.ReflTransGen (LoopStep w (req.buildArgs w) rounds) st st' ∧ st'.paid ∧
      List.Forall₂ (fun tx (ptx : PendingTx) => ptx.For w.transfers tx.dsts tx.selectedTransfers)
        (st'.done ++ [st'.tx]) ptxs := by
  obtain ⟨st, hprepare, h⟩ := bind_eq_ok.mp h
  obtain ⟨st', hloop, h⟩ := bind_eq_ok.mp h
  obtain ⟨_, -, h⟩ := bind_eq_ok.mp h
  obtain ⟨hreaches, hpaid⟩ := selectLoop_reaches hloop
  exact ⟨st, st', hprepare, hreaches, hpaid, constructAll_spec h⟩

end Steps

end XrCoin.Wallet

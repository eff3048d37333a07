import XrCoin.Wallet.CreateTransactions

/-!
`create_transactions_from`: given outputs of a wallet are all sent to one address.

An iteration takes one of the outputs, and a transaction is built when there are no more or when it
gets too heavy. What is selected and what is unused are together what was given.
-/

namespace XrCoin.Wallet

open Archive Cryptonote Data

structure SweepArgs extends BuildArgs where
  address : AccountPublicAddress
  isSubaddress : Bool

structure Sweeping where
  done : List TxDraft
  tx : TxDraft
  unusedTransfersIndices : List ℕ
  unusedDustIndices : List ℕ
  accumulatedOutputs : UInt64
  calls : ℕ

variable (w : BuildWallet) (args : SweepArgs)

/-- Without decoys there are no confidential amounts. -/
def sweepWallet : BuildWallet :=
  { w with useRct := decide (0 < args.fakeOutsCount) && w.useRct }

/-- Dust and other outputs in turns, until the other ones can pay for a transaction. -/
def takesDust (st : Sweeping) : Bool :=
  st.unusedTransfersIndices = [] || st.unusedDustIndices ≠ [] &&
    (st.tx.selectedTransfers.length % 2 = 1 ||
      w.feePerKb * w.feeMultiplier * (w.upperTransactionWeightLimit + 1023) / 1024 <
        st.accumulatedOutputs)

def pickToSweep (st : Sweeping) : Except String (ℕ × Sweeping) :=
  if takesDust w st then do
    let (idx, rest) ← popBestValue w st.unusedDustIndices st.tx.selectedTransfers false st.calls
    .ok (idx, { st with unusedDustIndices := rest, calls := st.calls + 1 })
  else do
    let (idx, rest) ← popBestValue w st.unusedTransfersIndices st.tx.selectedTransfers false st.calls
    .ok (idx, { st with unusedTransfersIndices := rest, calls := st.calls + 1 })

/-- The fee is taken from the destination, until the transaction that is built has enough of it. -/
def sweepFee (available : UInt64) : ℕ → ℕ → TxDraft → Except String (ℕ × TxDraft)
  | 0, _, _ => .error "the fee was not reached"
  | rounds + 1, call, tx => do
      let tx := { tx with dsts := tx.dsts.modify 0 fun d =>
        { d with amount := available - tx.neededFee } }
      let ptx ← transfer w call tx tx.neededFee
      let tx := { tx with neededFee := calculateFee w ptx.blobSize }
      if ptx.fee < tx.neededFee then sweepFee available rounds (call + 1) tx
      else .ok (call + 1, tx)

def sweepTx (rounds : ℕ) (st : Sweeping) : Except String Sweeping := do
  let neededFee := calculateFee w (estimateTxSize w args.toBuildArgs st.tx.selectedTransfers.length
    st.tx.dsts.length args.extraSize)
  let tx := { st.tx with dsts := st.tx.dsts ++ [⟨1, args.address, args.isSubaddress⟩] }
  let ptx ← transfer w st.calls tx neededFee
  let neededFee := calculateFee w ptx.blobSize
  let dest ← orThrow ptx.dests.head? "vector::_M_range_check"
  let available := ptx.fee + dest.amount + ptx.changeDts.amount
  throwIf (available < neededFee) "Transaction cannot pay for itself"
  let (calls, tx) ← sweepFee w available rounds (st.calls + 1) { tx with neededFee := neededFee }
  if st.unusedTransfersIndices = [] ∧ st.unusedDustIndices = [] then
    .ok { st with tx := tx, calls := calls }
  else .ok { st with done := st.done ++ [tx], tx := .empty, calls := calls }

def sweepNext (rounds : ℕ) (st : Sweeping) : Except String Sweeping := do
  let (idx, st) ← pickToSweep w st
  let td ← orThrow w.transfers[idx]? "vector::_M_range_check"
  let st := { st with
    tx := { st.tx with selectedTransfers := st.tx.selectedTransfers ++ [idx] }
    accumulatedOutputs := st.accumulatedOutputs + td.amount }
  let weight := estimateTxWeight w args.toBuildArgs st.tx.selectedTransfers.length
    (st.tx.dsts.length + 2) args.extraSize
  if (st.unusedDustIndices = [] ∧ st.unusedTransfersIndices = []) ∨ txWeightTarget w ≤ weight then
    sweepTx w args rounds st
  else .ok st

/-- The loop. There are not more iterations than indices. -/
def sweepLoop (rounds : ℕ) : ℕ → Sweeping → Except String Sweeping
  | 0, st => .ok st
  | n + 1, st =>
      if st.unusedDustIndices = [] ∧ st.unusedTransfersIndices = [] then .ok st
      else do
        let st ← sweepNext w args rounds st
        sweepLoop rounds n st

/-- `create_transactions_from`, with a bound on the rounds for a fee. -/
def createTransactionsFrom (unusedTransfersIndices unusedDustIndices : List ℕ) (rounds : ℕ) :
    Except String (List PendingTx) :=
  if unusedDustIndices = [] ∧ unusedTransfersIndices = [] then .ok []
  else do
    let w := sweepWallet w args
    let st ← sweepLoop w args rounds (unusedTransfersIndices.length + unusedDustIndices.length)
      ⟨[], .empty, unusedTransfersIndices, unusedDustIndices, 0, 0⟩
    constructAll w st.calls (st.done ++ [st.tx])

/-! ### What is selected -/

section Selected

variable {w args}

def Sweeping.selected (st : Sweeping) : List ℕ :=
  st.done.flatMap TxDraft.selectedTransfers ++ st.tx.selectedTransfers

def Sweeping.indices (st : Sweeping) : List ℕ :=
  st.selected ++ (st.unusedTransfersIndices ++ st.unusedDustIndices)

theorem pickToSweep_spec {st st' : Sweeping} {idx : ℕ} (h : pickToSweep w st = .ok (idx, st')) :
    (st.unusedTransfersIndices ++ st.unusedDustIndices).Perm
        (idx :: (st'.unusedTransfersIndices ++ st'.unusedDustIndices)) ∧
      st'.done = st.done ∧ st'.tx = st.tx := by
  rw [pickToSweep] at h
  split at h
  · obtain ⟨⟨i, rest⟩, hpop, h⟩ := bind_eq_ok.mp h
    cases h
    refine ⟨?_, rfl, rfl⟩
    exact ((popBestValue_perm hpop).append_left _).trans List.perm_middle
  · obtain ⟨⟨i, rest⟩, hpop, h⟩ := bind_eq_ok.mp h
    cases h
    refine ⟨?_, rfl, rfl⟩
    exact (popBestValue_perm hpop).append_right _

theorem sweepFee_selected {available : UInt64} {rounds call call' : ℕ} {tx tx' : TxDraft}
    (h : sweepFee w available rounds call tx = .ok (call', tx')) :
    tx'.selectedTransfers = tx.selectedTransfers := by
  induction rounds generalizing call tx with
  | zero => cases h
  | succ rounds ih =>
      obtain ⟨ptx, -, h⟩ := bind_eq_ok.mp h
      simp only at h
      split at h
      · have hselected := ih h
        exact hselected
      · cases h
        rfl

theorem sweepTx_selected {rounds : ℕ} {st st' : Sweeping} (h : sweepTx w args rounds st = .ok st') :
    st'.selected = st.selected ∧ st'.unusedTransfersIndices = st.unusedTransfersIndices ∧
      st'.unusedDustIndices = st.unusedDustIndices := by
  obtain ⟨ptx, -, h⟩ := bind_eq_ok.mp h
  obtain ⟨dest, -, h⟩ := bind_eq_ok.mp h
  obtain ⟨_, -, h⟩ := bind_eq_ok.mp h
  obtain ⟨⟨calls, tx⟩, hfee, h⟩ := bind_eq_ok.mp h
  have hselected := sweepFee_selected hfee
  simp only at hselected h
  split at h
  · cases h
    exact ⟨by rw [Sweeping.selected, Sweeping.selected, hselected], rfl, rfl⟩
  · cases h
    refine ⟨?_, rfl, rfl⟩
    simp [Sweeping.selected, TxDraft.empty, hselected]

theorem sweepNext_indices {rounds : ℕ} {st st' : Sweeping}
    (h : sweepNext w args rounds st = .ok st') :
    st'.indices.Perm st.indices ∧
      (st'.unusedTransfersIndices ++ st'.unusedDustIndices).length + 1 =
        (st.unusedTransfersIndices ++ st.unusedDustIndices).length := by
  obtain ⟨⟨idx, st₁⟩, hpick, h⟩ := bind_eq_ok.mp h
  obtain ⟨td, -, h⟩ := bind_eq_ok.mp h
  obtain ⟨hperm, hdone, htx⟩ := pickToSweep_spec hpick
  have hkept : st'.selected = st.selected ++ [idx] ∧
      st'.unusedTransfersIndices = st₁.unusedTransfersIndices ∧
      st'.unusedDustIndices = st₁.unusedDustIndices := by
    have hselected : ∀ outputs, (Sweeping.mk st₁.done
        { st₁.tx with selectedTransfers := st₁.tx.selectedTransfers ++ [idx] }
        st₁.unusedTransfersIndices st₁.unusedDustIndices outputs st₁.calls).selected =
        st.selected ++ [idx] := by
      intro outputs
      simp [Sweeping.selected, hdone, htx]
    simp only at h
    split at h
    · obtain ⟨hsame, htransfers, hdust⟩ := sweepTx_selected h
      exact ⟨hsame.trans (hselected _), htransfers, hdust⟩
    · cases h
      exact ⟨hselected _, rfl, rfl⟩
  obtain ⟨hselected, htransfers, hdust⟩ := hkept
  constructor
  · rw [Sweeping.indices, Sweeping.indices, hselected, htransfers, hdust, List.append_assoc,
      List.singleton_append]
    exact hperm.symm.append_left _
  · rw [htransfers, hdust, hperm.length_eq, List.length_cons]

theorem sweepLoop_selected {rounds n : ℕ} {st st' : Sweeping}
    (h : sweepLoop w args rounds n st = .ok st')
    (hn : (st.unusedTransfersIndices ++ st.unusedDustIndices).length ≤ n) :
    st'.selected.Perm st.indices := by
  induction n generalizing st with
  | zero =>
      cases h
      rw [Sweeping.indices, List.eq_nil_of_length_eq_zero (Nat.le_zero.mp hn), List.append_nil]
  | succ n ih =>
      rw [sweepLoop] at h
      split at h
      · rename_i hempty
        cases h
        rw [Sweeping.indices, hempty.1, hempty.2, List.append_nil, List.append_nil]
      · obtain ⟨st₁, hnext, h⟩ := bind_eq_ok.mp h
        obtain ⟨hperm, hlength⟩ := sweepNext_indices hnext
        exact (ih h (by omega)).trans hperm

end Selected

end XrCoin.Wallet

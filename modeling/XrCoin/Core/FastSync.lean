import XrCoin.Core.Relays

/-!
The fast path for blocks with a precomputed hash. It compares the ids of a block
with those that the intake has listed, and the intake lists only the transactions
that it adds: one that is known already is missing from the list, unless an earlier
intake of the block has left its id there.
-/

namespace XrCoin.Core

open Archive Cryptonote TxPool

section

variable {ρ : Type} {conf : CoreConfig} {crypto : CoreCrypto} {ops : CryptoOps} {cfg : Config}
  {view : CoreView} {flags : TxFlags}

/-! ### The listed ids -/

def listed (ops : CryptoOps) (cfg : Config) : List Incoming → List Hash
  | [] => []
  | e :: es =>
      match e.pending with
      | none => listed ops cfg es
      | some (tx, _) =>
          if (getTransactionWeight tx e.blob.length).isSome then
            getTransactionHash ops cfg tx :: listed ops cfg es
          else []

theorem length_listed_le (ops : CryptoOps) (cfg : Config) (es : List Incoming) :
    (listed ops cfg es).length ≤ es.length := by
  induction es with
  | nil => exact Nat.le_refl 0
  | cons e es ih =>
      rw [listed, List.length_cons]
      split
      · omega
      · split
        · rw [List.length_cons]
          omega
        · exact Nat.zero_le _

variable [DecidableEq ρ] {fr : FeeRate ρ}

theorem addNewTx_blocksTxsCheck (hkept : flags.keepedByBlock = true)
    (hheight : view.height < view.blocksHashCheck.length) (tx : Transaction) (hash : Hash)
    (weight : UInt64) (tvc : TxVerificationContext) (c : CoreState ρ) :
    (addNewTx ops cfg view fr tx hash weight tvc flags c).2.2.blocksTxsCheck =
      c.blocksTxsCheck ++ [getTransactionHash ops cfg tx] := by
  rw [addNewTx]
  simp only [hkept, if_true, onNewTxFromBlock, if_pos hheight]
  split <;> rfl

theorem addEach_blocksTxsCheck (hkept : flags.keepedByBlock = true)
    (hheight : view.height < view.blocksHashCheck.length) (es : List Incoming) (c : CoreState ρ) :
    (addEach ops cfg view fr flags es c).2.2.blocksTxsCheck =
      c.blocksTxsCheck ++ listed ops cfg es := by
  induction es generalizing c with
  | nil => rw [addEach, listed, List.append_nil]
  | cons e es ih =>
      rw [addEach, listed, Incoming.pending]
      split
      · exact ih c
      · cases hparsed : e.parsed with
        | none => exact ih c
        | some parsed =>
            obtain ⟨tx, hash⟩ := parsed
            cases hweight : getTransactionWeight tx e.blob.length with
            | none => simp only [hweight, Option.isSome_none, Bool.false_eq_true, if_false,
                List.append_nil]
            | some weight =>
                simp only [hweight, Option.isSome_some, if_true]
                rw [ih, addNewTx_blocksTxsCheck hkept hheight, List.append_assoc]
                rfl

/-! ### The fast path -/

/-- The intake goes on with the blob: it passes `handle_incoming_tx_pre`, and neither the
pool nor the chain has its transaction. -/
def IsNew (conf : CoreConfig) (ops : CryptoOps) (cfg : Config) (view : CoreView)
    (c : CoreState ρ) (blob : List UInt8) (tx : Transaction) : Prop :=
  ∃ hash, (handleIncomingTxPre conf ops cfg view c blob).2 = some (tx, hash) ∧
    haveTxInPool c.mempool hash = false ∧ view.haveTx hash = false

/-- The intake adds the blob: it is new and its weight can be computed. -/
def TakenOn (conf : CoreConfig) (ops : CryptoOps) (cfg : Config) (view : CoreView)
    (c : CoreState ρ) (blob : List UInt8) : Prop :=
  ∃ tx, IsNew conf ops cfg view c blob tx ∧ (getTransactionWeight tx blob.length).isSome = true

/-- Of these blobs the intake adds the transactions with these ids. A weight that
cannot be computed throws and ends the loop. -/
inductive Adds (conf : CoreConfig) (ops : CryptoOps) (cfg : Config) (view : CoreView)
    (c : CoreState ρ) : List (List UInt8) → List Hash → Prop
  | nil : Adds conf ops cfg view c [] []
  | known {blob : List UInt8} {txBlobs : List (List UInt8)} {ids : List Hash} :
      (∀ tx, ¬ IsNew conf ops cfg view c blob tx) → Adds conf ops cfg view c txBlobs ids →
        Adds conf ops cfg view c (blob :: txBlobs) ids
  | added {blob : List UInt8} {txBlobs : List (List UInt8)} {ids : List Hash} {tx : Transaction} :
      IsNew conf ops cfg view c blob tx → (getTransactionWeight tx blob.length).isSome = true →
        Adds conf ops cfg view c txBlobs ids →
          Adds conf ops cfg view c (blob :: txBlobs) (getTransactionHash ops cfg tx :: ids)
  | thrown {blob : List UInt8} {txBlobs : List (List UInt8)} {tx : Transaction} :
      IsNew conf ops cfg view c blob tx → getTransactionWeight tx blob.length = none →
        Adds conf ops cfg view c (blob :: txBlobs) []

omit [DecidableEq ρ] in
theorem isNew_iff {c : CoreState ρ} {blob : List UInt8} {tx : Transaction} :
    IsNew conf ops cfg view c blob tx ↔
      ∃ hash, (incoming conf ops cfg view c blob).pending = some (tx, hash) := by
  constructor
  · rintro ⟨hash, hpre, hpool, hchain⟩
    refine ⟨hash, ?_⟩
    simp only [Incoming.pending, incoming, hpre, hpool, hchain, Bool.or_self, Bool.false_eq_true,
      if_false]
  · rintro ⟨hash, hpending⟩
    exact ⟨hash, pending_incoming hpending⟩

omit [DecidableEq ρ] in
theorem adds_listed (c : CoreState ρ) (txBlobs : List (List UInt8)) :
    Adds conf ops cfg view c txBlobs
      (listed ops cfg (txBlobs.map (incoming conf ops cfg view c))) := by
  induction txBlobs with
  | nil => exact .nil
  | cons blob txBlobs ih =>
      rw [List.map_cons, listed]
      cases hpending : (incoming conf ops cfg view c blob).pending with
      | none =>
          refine .known (fun tx hnew => ?_) ih
          obtain ⟨hash, hsome⟩ := isNew_iff.mp hnew
          exact absurd (hpending.symm.trans hsome) (by simp)
      | some parsed =>
          obtain ⟨tx, hash⟩ := parsed
          have hnew := isNew_iff.mpr ⟨hash, hpending⟩
          cases hweight : getTransactionWeight tx blob.length with
          | none => simpa only [incoming, hweight, Option.isSome_none, Bool.false_eq_true, if_false]
              using Adds.thrown hnew hweight
          | some weight =>
              simpa only [incoming, hweight, Option.isSome_some, if_true] using
                Adds.added hnew (by rw [hweight, Option.isSome_some]) ih

omit [DecidableEq ρ] in
theorem IsNew.unique {c : CoreState ρ} {blob : List UInt8} {tx tx' : Transaction}
    (h : IsNew conf ops cfg view c blob tx) (h' : IsNew conf ops cfg view c blob tx') :
    tx = tx' := by
  obtain ⟨hash, hpre, -⟩ := h
  obtain ⟨hash', hpre', -⟩ := h'
  exact congrArg Prod.fst (Option.some.inj (hpre.symm.trans hpre'))

omit [DecidableEq ρ] in
theorem Adds.unique {c : CoreState ρ} {txBlobs : List (List UInt8)} {ids ids' : List Hash}
    (h : Adds conf ops cfg view c txBlobs ids) (h' : Adds conf ops cfg view c txBlobs ids') :
    ids = ids' := by
  induction h generalizing ids' with
  | nil =>
      cases h'
      rfl
  | known hknown _ ih =>
      cases h' with
      | known _ h' => exact ih h'
      | added hnew _ _ => exact absurd hnew (hknown _)
      | thrown hnew _ => exact absurd hnew (hknown _)
  | added hnew hweight _ ih =>
      cases h' with
      | known hknown _ => exact absurd hnew (hknown _)
      | added hnew' _ h' => rw [hnew.unique hnew', ih h']
      | thrown hnew' hnone =>
          rw [← hnew.unique hnew'] at hnone
          rw [hnone] at hweight
          exact absurd hweight (by simp)
  | thrown hnew hnone =>
      cases h' with
      | known hknown _ => exact absurd hnew (hknown _)
      | added hnew' hweight _ =>
          rw [← hnew.unique hnew', hnone] at hweight
          exact absurd hweight (by simp)
      | thrown _ _ => rfl

omit [DecidableEq ρ] in
theorem adds_all_iff {c : CoreState ρ} {txBlobs : List (List UInt8)} {ids : List Hash}
    (h : txBlobs.map (fun blob => (parseAndValidateTxFromBlob ops cfg blob).map
      (getTransactionHash ops cfg)) = ids.map some) :
    Adds conf ops cfg view c txBlobs ids ↔ ∀ blob ∈ txBlobs, TakenOn conf ops cfg view c blob := by
  induction txBlobs generalizing ids with
  | nil =>
      rw [List.map_nil, eq_comm, List.map_eq_nil_iff] at h
      rw [h]
      exact iff_of_true .nil (List.forall_mem_nil _)
  | cons blob txBlobs ih =>
      cases ids with
      | nil => exact absurd h (by simp)
      | cons id ids =>
          rw [List.map_cons, List.map_cons, List.cons.injEq] at h
          rw [List.forall_mem_cons, ← ih h.2]
          constructor
          · intro hadds
            have hlen : ids.length = txBlobs.length := by
              rw [← List.length_map some, ← h.2, List.length_map]
            cases hadds with
            | known _ hrest =>
                -- one blob less cannot give as many ids
                have hle := length_listed_le ops cfg (txBlobs.map (incoming conf ops cfg view c))
                rw [← hrest.unique (adds_listed c txBlobs), List.length_map,
                  List.length_cons] at hle
                omega
            | added hnew hweight hrest => exact ⟨⟨_, hnew, hweight⟩, hrest⟩
          · rintro ⟨⟨tx, hnew, hweight⟩, hrest⟩
            obtain ⟨hash, hpending⟩ := isNew_iff.mp hnew
            obtain ⟨hparse, -⟩ := handleIncomingTxPre_eq_some (pending_incoming hpending).1
            have hid := h.1
            rw [hparse, Option.map_some] at hid
            rw [← Option.some.inj hid]
            exact .added hnew hweight hrest

omit [DecidableEq ρ] in
/-- The loop over a block does not stop at the check of the fast path when the ids
from its index on are the listed ones. -/
theorem takeBlockTxs_fast {check txIds : List Hash} {txIndex : ℕ} {acc : BlockTxs} {p : Pool ρ}
    {err : BlockTxsError} (hcheck : check.drop txIndex = txIds)
    (h : takeBlockTxs ops cfg view true check txIds txIndex acc p = .error err) (txId : Hash) :
    err ≠ .wrongInputs txId := by
  induction txIds generalizing txIndex acc p with
  | nil => exact absurd h (by simp [takeBlockTxs])
  | cons id txIds ih =>
      have hget : check[txIndex]? = some id := by
        rw [← List.head?_drop, hcheck, List.head?_cons]
      have hdrop : check.drop (txIndex + 1) = txIds := by
        rw [← List.tail_drop, hcheck, List.tail_cons]
      have hpass : fastCheckAccepts check txIndex id = true := by
        rw [fastCheckAccepts, hget, decide_eq_true_eq]
      rw [takeBlockTxs] at h
      split at h
      · rw [← Except.error.inj h]
        exact BlockTxsError.noConfusion
      · split at h
        · rw [← Except.error.inj h]
          exact BlockTxsError.noConfusion
        · simp only [if_true, hpass] at h
          exact ih hdrop h

/-- A block with its precomputed hash takes the fast path. After its transactions were
handed in, the list has the ids of the block and they are accepted there exactly when
the ids left over in the list and those of the transactions added give the ids of the
block. From an empty list this says that every transaction was added. -/
theorem fastSync_iff {c : CoreState ρ} {b : Block} {txBlobs : List (List UInt8)}
    {expectedHash : Hash} (hkept : flags.keepedByBlock = true)
    (hexpected : view.blocksHashCheck[view.height]? = some expectedHash)
    (hne : expectedHash ≠ nullHash) (hhash : getBlockHash ops cfg b = some expectedHash)
    (htxs : txBlobs.map (fun blob => (parseAndValidateTxFromBlob ops cfg blob).map
      (getTransactionHash ops cfg)) = b.txHashes.toList.map some) :
    fastCheck ops cfg view b = some true ∧
      (((handleIncomingTxs conf crypto ops cfg view fr flags txBlobs c).2.2.blocksTxsCheck =
          b.txHashes.toList ∧
        ∀ acc (p : Pool ρ) err, takeBlockTxs ops cfg view true
            (handleIncomingTxs conf crypto ops cfg view fr flags txBlobs c).2.2.blocksTxsCheck
            b.txHashes.toList 0 acc p = .error err →
          ∀ txId, err ≠ .wrongInputs txId) ↔
        ∃ ids, b.txHashes.toList = c.blocksTxsCheck ++ ids ∧
          Adds conf ops cfg view c txBlobs ids) ∧
      (c.blocksTxsCheck = [] →
        ((∃ ids, b.txHashes.toList = c.blocksTxsCheck ++ ids ∧
            Adds conf ops cfg view c txBlobs ids) ↔
          ∀ blob ∈ txBlobs, TakenOn conf ops cfg view c blob)) := by
  have hheight : view.height < view.blocksHashCheck.length :=
    (List.getElem?_eq_some_iff.mp hexpected).1
  have harea : flags.keepedByBlock = true ∧ view.isWithinCompiledBlockHashArea = true :=
    ⟨hkept, decide_eq_true (hheight.trans_le view.blocksHashCheck_le)⟩
  have hcheck : (handleIncomingTxs conf crypto ops cfg view fr flags txBlobs c).2.2.blocksTxsCheck =
      c.blocksTxsCheck ++ listed ops cfg (txBlobs.map (incoming conf ops cfg view c)) := by
    simp only [handleIncomingTxs, handleIncomingTxAccumulatedBatch, if_pos harea, if_true]
    exact addEach_blocksTxsCheck hkept hheight _ _
  refine ⟨?_, ?_, ?_⟩
  · rw [fastCheck, hexpected]
    simp only [if_neg hne, if_pos hhash]
  · rw [hcheck]
    constructor
    · exact fun h => ⟨_, h.1.symm, adds_listed c txBlobs⟩
    · rintro ⟨ids, hids, hadds⟩
      rw [← hadds.unique (adds_listed c txBlobs), ← hids]
      refine ⟨rfl, fun acc p err herr txId => ?_⟩
      exact takeBlockTxs_fast List.drop_zero herr txId
  · intro hempty
    rw [← adds_all_iff htxs, hempty]
    constructor
    · rintro ⟨ids, hids, hadds⟩
      rwa [hids, List.nil_append]
    · exact fun hadds => ⟨_, (List.nil_append _).symm, hadds⟩

end

/-! ### A block with one payment -/

def paymentId : Hash :=
  hashOfNat 0xb3f49c0e237f85238915245c40286b531c3d35c0571d632d4cc9aa602165c794

def syncBlock : Block :=
  ⟨⟨1, 0, 0, nullHash, 0⟩, sampleMinerTx, ⟨[paymentId], by decide⟩⟩

def syncRoot : Hash :=
  hashOfNat 0x61e32112e322111adbf628b40ddf675fbfdd1e5b7f67992f384d5fac69c6470f

def syncId : Hash :=
  hashOfNat 0xf1536bf7e9c7548cd405d5e3c9e7a7480181a78c3bfe714ca8eea3184a417905

def syncHash (m : List UInt8) : Hash :=
  if m = paymentBlob then paymentId
  else if m = txToBlob currentConfig sampleMinerTx then sampleMinerHash
  else if m = sampleMinerHash.val ++ paymentId.val then syncRoot
  else if m = stringMessage ((saveBlockHeader syncBlock.toBlockHeader).bytes ++
      (syncRoot.val ++ writeVarint 2)) then syncId
  else if m = blockToBlob currentConfig syncBlock then
    hashOfNat 0xf1072e5afb605b443f90dd444ff5f9811d5fb06a2194944f373676af5e11009e
  else nullHash

def syncOps : CryptoOps := ⟨syncHash, fun _ => none, fun _ => default⟩

def syncView : CoreView :=
  ⟨paymentView, 0, 1, 300000, fun _ => true, 256, [syncId], by decide⟩

def syncIntake (flags : TxFlags) (c : CoreState (ℕ × ℕ)) : CoreState (ℕ × ℕ) :=
  (handleIncomingTxs paymentCoreConf paymentCrypto syncOps currentConfig syncView fractionRate
    flags [paymentBlob] c).2.2

def syncedFresh : CoreState (ℕ × ℕ) := syncIntake ⟨true, true, false⟩ (.fresh (ℕ × ℕ) 648000000)

def syncedRelayed : CoreState (ℕ × ℕ) :=
  syncIntake ⟨true, true, false⟩ (syncIntake ⟨false, true, false⟩ (.fresh (ℕ × ℕ) 648000000))

def syncTake (c : CoreState (ℕ × ℕ)) : Except BlockTxsError BlockTxs :=
  (takeBlockTxs syncOps currentConfig syncView true c.blocksTxsCheck syncBlock.txHashes.toList 0
    ⟨[], 0, 0⟩ c.mempool).map Prod.fst

/-- The node that had the payment lists nothing and refuses the block at the check of
the fast path; the other one takes it. -/
theorem sync_refused_with_pool :
    fastCheck syncOps currentConfig syncView syncBlock = some true ∧
      (parseAndValidateTxFromBlob syncOps currentConfig paymentBlob).map
        (getTransactionHash syncOps currentConfig) = some paymentId ∧
      syncedRelayed.blocksTxsCheck = [] ∧
      syncTake syncedRelayed = .error (.wrongInputs paymentId) ∧
      syncTake syncedFresh = .ok ⟨[paymentTx 0x51], 1, 139⟩ := by
  decide +kernel

def syncedTwice : CoreState (ℕ × ℕ) := syncIntake ⟨true, true, false⟩ syncedFresh

theorem fastSync_iff_fresh :
    syncedFresh.blocksTxsCheck = syncBlock.txHashes.toList ∧
      syncedTwice.blocksTxsCheck = syncBlock.txHashes.toList ∧
      syncedRelayed.blocksTxsCheck ≠ syncBlock.txHashes.toList := by
  have hhash : getBlockHash syncOps currentConfig syncBlock = some syncId := by decide
  have hne : syncId ≠ nullHash := by decide
  have htxs : [paymentBlob].map (fun blob =>
      (parseAndValidateTxFromBlob syncOps currentConfig blob).map
        (getTransactionHash syncOps currentConfig)) = syncBlock.txHashes.toList.map some := by
    decide +kernel
  have htaken : ∀ blob ∈ [paymentBlob], TakenOn paymentCoreConf syncOps currentConfig syncView
      (CoreState.fresh (ℕ × ℕ) 648000000) blob := by
    intro blob hblob
    rw [List.mem_singleton.mp hblob]
    exact ⟨paymentTx 0x51, ⟨paymentId, by decide +kernel, rfl, rfl⟩, by decide +kernel⟩
  -- the pool has the payment when it is handed in again
  have hknown : ∀ tx, ¬ IsNew paymentCoreConf syncOps currentConfig syncView syncedFresh
      paymentBlob tx := by
    rintro tx ⟨hash, hpre, hpool, -⟩
    have hsome : (handleIncomingTxPre paymentCoreConf syncOps currentConfig syncView syncedFresh
        paymentBlob).2 = some (paymentTx 0x51, paymentId) := by decide +kernel
    rw [hsome, Option.some.injEq, Prod.mk.injEq] at hpre
    rw [← hpre.2] at hpool
    exact absurd hpool (by decide +kernel)
  have hleft : syncBlock.txHashes.toList = syncedFresh.blocksTxsCheck ++ [] := by decide +kernel
  have hkept : (⟨true, true, false⟩ : TxFlags).keepedByBlock = true := rfl
  have hexpected : syncView.blocksHashCheck[syncView.height]? = some syncId := rfl
  refine ⟨?_, ?_, by decide +kernel⟩
  · rw [syncedFresh, syncIntake]
    refine ((fastSync_iff hkept hexpected hne hhash htxs).2.1.mpr ?_).1
    exact ⟨_, (List.nil_append _).symm, (adds_all_iff htxs).mpr htaken⟩
  · rw [syncedTwice, syncIntake]
    exact ((fastSync_iff hkept hexpected hne hhash htxs).2.1.mpr
      ⟨[], hleft, .known hknown .nil⟩).1

end XrCoin.Core

import XrCoin.BlockchainDb.Chain

/-!
Write transactions, batches, and what is committed after a block was refused.

Outside a batch a block has a write transaction of its own, which an exception
gives up. Inside a batch it is written to the transaction of the batch, and
`block_txn_abort` leaves that alone: what was written before the exception is
committed with the batch.
-/

namespace XrCoin.BlockchainDb

open Archive Cryptonote Lmdb

/-! ### Write transactions -/

abbrev ThreadId : Type := ℕ

/-- `m_write_txn` with what it has written so far, `m_batch_active` and
`m_writer`. There is no batch without a write transaction. -/
inductive WriteTxn
  | idle
  | block (writer : ThreadId) (db : Db)
  | batch (writer : ThreadId) (db : Db)

structure Env where
  committed : Db
  txn : WriteTxn

def Env.blockTxnStart (self : ThreadId) (env : Env) : Except DbError Env :=
  match env.txn with
  | .idle => .ok ⟨env.committed, .block self env.committed⟩
  | .block _ _ => .error (.dbErrorTxnStart
      "Attempted to start new write txn when write txn already exists in block_txn_start")
  | .batch writer _ =>
      if writer = self then .ok env
      else .error (.dbErrorTxnStart
        "Attempted to start new write txn when batch txn already exists in block_txn_start")

def Env.blockTxnStop (self : ThreadId) (env : Env) : Env :=
  match env.txn with
  | .block writer db => if writer = self then ⟨db, .idle⟩ else env
  | _ => env

/-- `block_txn_abort`. Without a write transaction of this thread no content is
touched. -/
def Env.blockTxnAbort (self : ThreadId) (env : Env) : Env :=
  match env.txn with
  | .block writer _ => if writer = self then ⟨env.committed, .idle⟩ else env
  | _ => env

def Env.batchStop (self : ThreadId) : EStateM DbError Env Unit := fun env =>
  match env.txn with
  | .batch writer db =>
      if writer = self then .ok () ⟨db, .idle⟩
      else .error (.dbError "batch transaction owned by other thread") env
  | _ => .error (.dbError "batch transaction not in progress") env

def Env.onTxn {α : Type} (x : DbM α) (env : Env) : EStateM.Result DbError Env α :=
  match env.txn with
  | .idle => .error (.dbError "no write transaction") env
  | .block writer db =>
      match x db with
      | .ok a db' => .ok a ⟨env.committed, .block writer db'⟩
      | .error e db' => .error e ⟨env.committed, .block writer db'⟩
  | .batch writer db =>
      match x db with
      | .ok a db' => .ok a ⟨env.committed, .batch writer db'⟩
      | .error e db' => .error e ⟨env.committed, .batch writer db'⟩

section

variable (ops : CryptoOps) (cfg : Config)

/-- `BlockchainLMDB::add_block`. A refused start of the transaction is passed on;
any other exception aborts it. -/
def Env.addBlock (self : ThreadId) (b : Block) (m : BlockMeta) (txs : List Transaction) :
    EStateM DbError Env ℕ := fun env =>
  if b.txHashes.toList.length = txs.length then
    match env.blockTxnStart self with
    | .error e => .error e env
    | .ok started =>
        match started.onTxn (writeBlock ops cfg b m txs) with
        | .ok height env' => .ok (height + 1) (env'.blockTxnStop self)
        | .error e env' => .error e (env'.blockTxnAbort self)
  else .error (.runtimeError "Inconsistent tx/hashes sizes") (env.blockTxnAbort self)

/-! ### The caller -/

def checkOutsOverflow : UInt64 → List TxOut → Bool
  | _, [] => true
  | money, out :: outs =>
      if money > out.amount + money then false else checkOutsOverflow (money + out.amount) outs

/-- `prevalidate_miner_transaction`; the unlock window is
`CRYPTONOTE_MINED_MONEY_UNLOCK_WINDOW`. -/
def prevalidateMinerTransaction (unlockWindow : UInt64) (b : Block) (height : UInt64) : Bool :=
  match b.minerTx.vin.toList with
  | [.gen genHeight] =>
      genHeight = height ∧ b.minerTx.unlockTime = height + unlockWindow ∧
        checkOutsOverflow 0 b.minerTx.vout.toList = true
  | _ => false

/-- How `handle_block_to_main_chain` ends for a block that reached `add_block`:
its result, `m_verifivation_failed`, and the transactions that go back to the
pool. -/
structure StoreOutcome where
  added : Bool
  verifivationFailed : Bool
  returnedToPool : List Transaction

/-- The part of `handle_block_to_main_chain` that stores the block. Every
exception is handled alike, and nothing is done to the database. -/
def storeBlock (self : ThreadId) (b : Block) (m : BlockMeta) (txs : List Transaction) (env : Env) :
    StoreOutcome × Env :=
  match Env.addBlock ops cfg self b m txs env with
  | .ok _ env' => (⟨true, false, []⟩, env')
  | .error _ env' => (⟨false, true, txs⟩, env')

end

def Env.committedAfterStop (stopper : ThreadId) (env : Env) : Db :=
  (finalState (Env.batchStop stopper env)).committed

/-! ### Index entries stay

Adding a block never removes the entry of a transaction, whether it returns or
throws, so the entry of the miner transaction shows that something was written. -/

/-- Every transaction with an entry keeps one. -/
def IndexKept (db db' : Db) : Prop := ∀ h, (db.txIndices h).isSome → (db'.txIndices h).isSome

theorem IndexKept.refl (db : Db) : IndexKept db db := fun _ h => h

theorem IndexKept.trans (db db1 db2 : Db) (h : IndexKept db db1) (h1 : IndexKept db1 db2) :
    IndexKept db db2 := fun txHash hsome => h1 txHash (h txHash hsome)

theorem IndexKept.of_eq {db db' : Db} (h : db'.txIndices = db.txIndices) : IndexKept db db' :=
  fun _ hsome => h ▸ hsome

theorem moves_orThrow {α : Type} (e : DbError) (o : Option α) : Moves IndexKept (orThrow e o) := by
  cases o with
  | none => exact .throw .refl e
  | some a => exact .pure .refl a

theorem moves_removeSpentKeys (vin : List Txin) : Moves IndexKept (removeSpentKeys vin) := by
  intro db
  rw [removeSpentKeys_eq]
  exact .of_eq rfl

theorem moves_addSpentKey (kImage : KeyImage) : Moves IndexKept (addSpentKey kImage) := by
  intro db
  rw [addSpentKey]
  split <;> exact .of_eq rfl

theorem moves_addInputs (vin rest : List Txin) (minerTx : Bool) :
    Moves IndexKept (addInputs vin rest minerTx) := by
  induction rest generalizing minerTx with
  | nil => exact .pure .refl _
  | cons txin rest ih =>
      cases txin with
      | gen height => exact ih true
      | toKey amount keyOffsets kImage =>
          exact .bind .trans (moves_addSpentKey kImage) fun _ => ih minerTx
      | toScript prev prevout sigset =>
          exact .bind .trans (moves_removeSpentKeys vin) fun _ => .pure .refl _
      | toScriptHash prev prevout script sigset =>
          exact .bind .trans (moves_removeSpentKeys vin) fun _ => .pure .refl _

theorem moves_putOutput (txHash : Hash) (amount : UInt64) (localIndex : ℕ) (outkey : OutKey) :
    Moves IndexKept (putOutput txHash amount localIndex outkey) := by
  intro db
  rw [putOutput]
  split
  · exact .of_eq rfl
  · dsimp only
    split <;> exact .of_eq rfl

theorem moves_addOutput (txHash : Hash) (out : TxOut) (localIndex : ℕ) (unlockTime : UInt64)
    (commitment : Option Key) :
    Moves IndexKept (addOutput txHash out localIndex unlockTime commitment) := by
  obtain ⟨amount, target⟩ := out
  cases target with
  | toKey key =>
      simp only [addOutput]
      split
      · exact .throw .refl _
      · intro db
        rw [get_bind]
        exact moves_putOutput txHash amount localIndex _ db
  | toScript script => exact .throw .refl _
  | toScriptHash hash => exact .throw .refl _

theorem moves_putTxIndex (txHash : Hash) (unlockTime : UInt64) :
    Moves IndexKept (putTxIndex txHash unlockTime) := by
  intro db
  rw [putTxIndex]
  split
  · exact .refl _
  · intro h hsome
    by_cases heq : h = txHash
    · subst heq
      simp
    · simpa [Function.update_of_ne heq] using hsome

section

variable {ops : CryptoOps} {cfg : Config}

theorem moves_addOutputs (tx : Transaction) (txHash : Hash) (minerTx : Bool) (i : ℕ)
    (outs : List TxOut) : Moves IndexKept (addOutputs ops tx txHash minerTx i outs) := by
  induction outs generalizing i with
  | nil => exact .pure .refl _
  | cons out outs ih =>
      exact .bind .trans (moves_addOutput _ _ _ _ _) fun _ =>
        .bind .trans (ih (i + 1)) fun _ => .pure .refl _

theorem moves_addTxAmountOutputIndices (txId : ℕ) (indices : List ℕ) :
    Moves IndexKept (addTxAmountOutputIndices txId indices) := by
  intro db
  rw [addTxAmountOutputIndices]
  split <;> exact .of_eq rfl

theorem moves_putTransaction (tx : Transaction) (txPrunableHash : Hash) :
    Moves IndexKept (putTransaction cfg tx txPrunableHash) := by
  intro db
  simp only [putTransaction]
  split
  · exact .of_eq rfl
  split
  · exact .of_eq rfl
  split
  · exact .of_eq rfl
  split
  · exact .of_eq rfl
  split
  · split <;> exact .of_eq rfl
  · exact .of_eq rfl

theorem moves_prunableHashToAdd (tx : Transaction) :
    Moves IndexKept (prunableHashToAdd ops tx) := by
  rw [prunableHashToAdd]
  split
  · exact moves_orThrow _ _
  · exact .pure .refl _

theorem moves_addOutputsAndIndices (tx : Transaction) (txHash : Hash) (minerTx : Bool) (txId : ℕ) :
    Moves IndexKept (do
      let indices ← addOutputs ops tx txHash minerTx 0 tx.vout.toList
      addTxAmountOutputIndices txId indices) :=
  .bind .trans (moves_addOutputs _ _ _ _ _) fun _ => moves_addTxAmountOutputIndices _ _

theorem moves_addTransaction (tx : Transaction) (txHash : Hash) :
    Moves IndexKept (addTransaction ops cfg tx txHash) := by
  refine .bind .trans (moves_prunableHashToAdd tx) fun txPrunableHash => ?_
  refine .bind .trans (moves_addInputs _ _ _) fun r => ?_
  cases r with
  | none => exact .pure .refl _
  | some minerTx =>
      refine .bind .trans ?_ fun txId => moves_addOutputsAndIndices tx txHash minerTx txId
      exact .bind .trans (moves_putTxIndex _ _) fun _ => moves_putTransaction _ _

theorem moves_addTransactions (txs : List (Hash × Transaction)) :
    Moves IndexKept (addTransactions ops cfg txs) := by
  induction txs with
  | nil => exact .pure .refl _
  | cons p txs ih =>
      exact .bind .trans (moves_addTransaction _ _) fun _ =>
        .bind .trans ih fun _ => .pure .refl _

theorem moves_putBlock (b : Block) (m : BlockMeta) (numRctOuts : UInt64) (blkHash : Hash) :
    Moves IndexKept (putBlock cfg b m numRctOuts blkHash) := by
  intro db
  rw [putBlock]
  split
  · exact .of_eq rfl
  split
  · exact .of_eq rfl
  split
  · exact .of_eq rfl
  split <;> exact .of_eq rfl

theorem moves_addOtherTransactions (ops : CryptoOps) (cfg : Config) (b : Block) (m : BlockMeta)
    (txs : List Transaction) (height : ℕ) :
    Moves IndexKept (do
      let numRctOuts ← addTransactions ops cfg (b.txHashes.toList.zip txs)
      putBlock cfg b m (minerRctOuts b + numRctOuts) (blockHashOrNull ops cfg b)
      pure height) :=
  .bind .trans (moves_addTransactions _) fun _ =>
    .bind .trans (moves_putBlock _ _ _ _) fun _ => .pure .refl _

/-! ### A refused block -/

/-- The prunable hash `add_transaction` asks for does not exist. -/
def PrunableHashMissing (ops : CryptoOps) (tx : Transaction) : Prop :=
  hasPrunableHash tx.toTransactionPrefix = true ∧ calculateTransactionPrunableHash ops tx = none

theorem prunableHashToAdd_of_missing {tx : Transaction} (h : PrunableHashMissing ops tx) (db : Db) :
    prunableHashToAdd ops tx db =
      .error (.runtimeError "Failed to calculate tx prunable hash") db := by
  rw [prunableHashToAdd, if_pos h.1, h.2]
  rfl

theorem prunableHashToAdd_of_present {tx : Transaction} (h : ¬PrunableHashMissing ops tx)
    (db : Db) : ∃ txPrunableHash, prunableHashToAdd ops tx db = .ok txPrunableHash db := by
  rw [prunableHashToAdd]
  split
  · rename_i hhas
    obtain ⟨txPrunableHash, hsome⟩ := Option.ne_none_iff_exists'.mp fun hnone => h ⟨hhas, hnone⟩
    exact ⟨txPrunableHash, orThrow_eq_ok.mpr ⟨hsome, rfl⟩⟩
  · exact ⟨nullHash, rfl⟩

theorem addInputs_gen {tx : Transaction} {genHeight : UInt64}
    (hvin : tx.vin.toList = [.gen genHeight]) (db : Db) :
    addInputs tx.vin.toList tx.vin.toList false db = .ok (some true) db := by
  rw [hvin]
  rfl

theorem addTransaction_refused {tx : Transaction} {txHash : Hash} {genHeight : UInt64} {db : Db}
    (hvin : tx.vin.toList = [.gen genHeight])
    (h : PrunableHashMissing ops tx ∨ (db.txIndices txHash).isSome) :
    ∃ e, addTransaction ops cfg tx txHash db = .error e db := by
  by_cases hmissing : PrunableHashMissing ops tx
  · exact ⟨_, bind_of_error (prunableHashToAdd_of_missing hmissing db)⟩
  · obtain ⟨txPrunableHash, hhash⟩ := prunableHashToAdd_of_present hmissing db
    obtain ⟨tip, htip⟩ := Option.isSome_iff_exists.mp (h.resolve_left hmissing)
    have hindex : putTxIndex txHash tx.unlockTime db =
        .error (.txExists ("Attempting to add transaction that's already in the db (tx id " ++
          toString tip.txId ++ ")")) db := by
      rw [putTxIndex, htip]
    rw [addTransaction, bind_of_ok hhash, bind_of_ok (addInputs_gen hvin db)]
    exact ⟨_, bind_of_error (bind_of_error hindex)⟩

/-- Otherwise it has an entry from then on, also when its addition fails
later. -/
theorem addTransaction_indexed {tx : Transaction} {txHash : Hash} {genHeight : UInt64} {db : Db}
    (hvin : tx.vin.toList = [.gen genHeight]) (hmissing : ¬PrunableHashMissing ops tx)
    (hfresh : db.txIndices txHash = none) :
    ((finalState (addTransaction ops cfg tx txHash db)).txIndices txHash).isSome := by
  obtain ⟨txPrunableHash, hhash⟩ := prunableHashToAdd_of_present hmissing db
  rw [addTransaction, bind_of_ok hhash, bind_of_ok (addInputs_gen hvin db)]
  have hindex : ((finalState (putTxIndex txHash tx.unlockTime db)).txIndices txHash).isSome := by
    rw [putTxIndex, hfresh]
    simp
  have hdata : ((finalState (addTransactionData cfg tx txHash txPrunableHash db)).txIndices
      txHash).isSome :=
    Moves.after .refl (fun _ => moves_putTransaction tx txPrunableHash) db txHash hindex
  exact Moves.after .refl (fun txId => moves_addOutputsAndIndices tx txHash true txId) db txHash
    hdata

/-- An exception of `add_block` leaves the content it worked on as it was exactly
when the miner transaction was refused. -/
theorem writeBlock_unchanged_iff {b : Block} {m : BlockMeta} {txs : List Transaction}
    {genHeight : UInt64} {e : DbError} {db db' : Db}
    (hvin : b.minerTx.vin.toList = [.gen genHeight])
    (h : writeBlock ops cfg b m txs db = .error e db') :
    db' = db ↔ PrunableHashMissing ops b.minerTx ∨
      (db.txIndices (getTransactionHash ops cfg b.minerTx)).isSome := by
  rw [writeBlock, get_bind] at h
  constructor
  · rintro rfl
    by_contra hcond
    obtain ⟨hmissing, hfresh⟩ := not_or.mp hcond
    have hindexed : ((finalState (addTransaction ops cfg b.minerTx
        (getTransactionHash ops cfg b.minerTx) db')).txIndices
          (getTransactionHash ops cfg b.minerTx)).isSome :=
      addTransaction_indexed hvin hmissing (by simpa using hfresh)
    have hkept := Moves.after .refl (fun _ => moves_addOtherTransactions ops cfg b m txs db'.height)
      db' _ hindexed
    rw [h] at hkept
    exact hfresh hkept
  · intro hcond
    obtain ⟨e', hrefused⟩ : ∃ e', addTransaction ops cfg b.minerTx
        (getTransactionHash ops cfg b.minerTx) db = .error e' db :=
      addTransaction_refused hvin hcond
    rw [bind_of_error hrefused] at h
    exact (EStateM.Result.error.inj h).2.symm

/-- The block is refused before anything is written to this content. -/
def RefusedUnwritten (ops : CryptoOps) (cfg : Config) (b : Block) (txs : List Transaction)
    (db : Db) : Prop :=
  b.txHashes.toList.length ≠ txs.length ∨ PrunableHashMissing ops b.minerTx ∨
    (db.txIndices (getTransactionHash ops cfg b.minerTx)).isSome

theorem storeBlock_of_error {self : ThreadId} {b : Block} {m : BlockMeta} {txs : List Transaction}
    {env env' : Env} {e : DbError} (h : Env.addBlock ops cfg self b m txs env = .error e env') :
    (storeBlock ops cfg self b m txs env).2 = env' := by
  rw [storeBlock, h]

theorem prevalidate_vin {unlockWindow height : UInt64} {b : Block}
    (h : prevalidateMinerTransaction unlockWindow b height = true) :
    ∃ genHeight, b.minerTx.vin.toList = [.gen genHeight] := by
  rw [prevalidateMinerTransaction] at h
  split at h
  · rename_i genHeight hvin
    exact ⟨genHeight, hvin⟩
  · exact absurd h (by simp)

theorem committed_addBlock_of_noBatch {self : ThreadId} {b : Block} {m : BlockMeta}
    {txs : List Transaction} {env env' : Env} {e : DbError}
    (hbatch : ∀ db, env.txn ≠ .batch self db)
    (h : Env.addBlock ops cfg self b m txs env = .error e env') (stopper : ThreadId) :
    env'.committedAfterStop stopper = env.committedAfterStop stopper := by
  obtain ⟨committed, txn⟩ := env
  rw [Env.addBlock] at h
  cases txn with
  | idle =>
      split at h
      · simp only [Env.blockTxnStart, Env.onTxn] at h
        cases hwrite : writeBlock ops cfg b m txs committed with
        | ok height db => exact absurd h (by simp [hwrite])
        | error e' db =>
            obtain ⟨-, rfl⟩ : e' = e ∧ Env.mk committed .idle = env' := by
              simpa [hwrite, Env.blockTxnAbort] using h
            rfl
      · obtain ⟨-, rfl⟩ := EStateM.Result.error.inj h
        rfl
  | block writer db =>
      split at h
      · obtain ⟨-, rfl⟩ := EStateM.Result.error.inj h
        rfl
      · obtain ⟨-, rfl⟩ := EStateM.Result.error.inj h
        by_cases hwriter : writer = self
        · simp [Env.blockTxnAbort, hwriter, Env.committedAfterStop, Env.batchStop]
        · simp [Env.blockTxnAbort, hwriter]
  | batch writer db =>
      have hwriter : ¬writer = self := by
        rintro rfl
        exact hbatch db rfl
      split at h
      · simp only [Env.blockTxnStart, if_neg hwriter] at h
        obtain ⟨-, rfl⟩ := EStateM.Result.error.inj h
        rfl
      · obtain ⟨-, rfl⟩ := EStateM.Result.error.inj h
        rfl

theorem committed_addBlock_of_batch {self : ThreadId} {b : Block} {m : BlockMeta}
    {txs : List Transaction} {committed db : Db} {env' : Env} {e : DbError}
    (h : Env.addBlock ops cfg self b m txs ⟨committed, .batch self db⟩ = .error e env') :
    (b.txHashes.toList.length ≠ txs.length ∧ env' = ⟨committed, .batch self db⟩) ∨
      ∃ db', b.txHashes.toList.length = txs.length ∧
        writeBlock ops cfg b m txs db = .error e db' ∧ env' = ⟨committed, .batch self db'⟩ := by
  rw [Env.addBlock] at h
  split at h
  · rename_i hsize
    simp only [Env.blockTxnStart, if_true, Env.onTxn] at h
    cases hwrite : writeBlock ops cfg b m txs db with
    | ok height db' => exact absurd h (by simp [hwrite])
    | error e' db' =>
        obtain ⟨rfl, rfl⟩ : e' = e ∧ Env.mk committed (.batch self db') = env' := by
          simpa [hwrite, Env.blockTxnAbort] using h
        exact Or.inr ⟨db', hsize, rfl, rfl⟩
  · rename_i hsize
    exact Or.inl ⟨hsize, (EStateM.Result.error.inj h).2.symm⟩

theorem committedAfterStop_batch_iff {self : ThreadId} {committed db db' : Db} :
    (∀ stopper, (Env.mk committed (.batch self db')).committedAfterStop stopper =
      (Env.mk committed (.batch self db)).committedAfterStop stopper) ↔ db' = db := by
  constructor
  · intro h
    have hself := h self
    simpa [Env.committedAfterStop, Env.batchStop] using hself
  · rintro rfl stopper
    rfl

/-- For a block that passed the prevalidation of its miner transaction and made
`add_block` throw: whoever stops the batch afterwards commits what would have
been committed before the call, exactly when the thread has no batch or the
block was refused before anything was written to it. -/
theorem addBlock_atomic_iff {self : ThreadId} {b : Block} {m : BlockMeta} {txs : List Transaction}
    {env env' : Env} {e : DbError} {unlockWindow height : UInt64}
    (hminer : prevalidateMinerTransaction unlockWindow b height = true)
    (h : Env.addBlock ops cfg self b m txs env = .error e env') :
    (∀ stopper, (storeBlock ops cfg self b m txs env).2.committedAfterStop stopper =
      env.committedAfterStop stopper) ↔
    ∀ db, env.txn = .batch self db → RefusedUnwritten ops cfg b txs db := by
  obtain ⟨genHeight, hvin⟩ := prevalidate_vin hminer
  rw [storeBlock_of_error h]
  by_cases hbatch : ∃ db, env.txn = .batch self db
  · obtain ⟨db, htxn⟩ := hbatch
    obtain ⟨committed, txn⟩ := env
    obtain rfl : txn = .batch self db := htxn
    have honly : (∀ db1, WriteTxn.batch self db = .batch self db1 →
        RefusedUnwritten ops cfg b txs db1) ↔ RefusedUnwritten ops cfg b txs db := by
      constructor
      · intro hall
        exact hall db rfl
      · rintro hone db1 heq
        obtain ⟨-, rfl⟩ := WriteTxn.batch.inj heq
        exact hone
    rw [honly]
    rcases committed_addBlock_of_batch h with ⟨hsize, rfl⟩ | ⟨db', hsize, hwrite, rfl⟩
    · rw [committedAfterStop_batch_iff]
      exact iff_of_true rfl (Or.inl hsize)
    · rw [committedAfterStop_batch_iff, writeBlock_unchanged_iff hvin hwrite, RefusedUnwritten]
      exact (or_iff_right (not_not.mpr hsize)).symm
  · have hnone : ∀ db, env.txn ≠ .batch self db := fun db htxn => hbatch ⟨db, htxn⟩
    exact iff_of_true (committed_addBlock_of_noBatch hnone h)
      fun db htxn => absurd htxn (hnone db)

end

/-! ### Two transactions with one key image -/

def spendTx (unlockTime : UInt64) : Transaction :=
  ⟨⟨1, 0, unlockTime, ⟨[.toKey 5 .nil (List.Vector.replicate 32 0x44)], by decide⟩, .nil, .nil⟩,
    .nil, default, default⟩

/-- A first block with two transactions that spend the same key image. -/
def doubleSpendBlock : Block :=
  ⟨⟨1, 0, 0, nullHash, 0⟩, genMinerTx,
    ⟨[hashOfNat 0x85a8c280913c9a6c5159b0234f1321b3b8839d9a1d941e34131b362ae28b4acc,
      hashOfNat 0xb81132b518d1d1a432cc09f9762a7d8ddc01547e4e080ca2b0b8a39054d3325b], by decide⟩⟩

def emptyBatch : Env := ⟨.empty, .batch 0 .empty⟩

theorem doubleSpend_committed :
    prevalidateMinerTransaction 60 doubleSpendBlock 0 = true ∧
    thrown (Env.addBlock firstBlockOps currentConfig 0 doubleSpendBlock firstMeta
      [spendTx 0, spendTx 1] emptyBatch) =
        some (.keyImageExists "Attempting to add spent key image that's already in the db") ∧
    (emptyBatch.committedAfterStop 0).spentKeys = ∅ ∧
    ((storeBlock firstBlockOps currentConfig 0 doubleSpendBlock firstMeta [spendTx 0, spendTx 1]
      emptyBatch).2.committedAfterStop 0).spentKeys = {List.Vector.replicate 32 0x44} := by
  decide +kernel

theorem addBlock_atomic_iff_doubleSpend :
    (∀ stopper, (storeBlock firstBlockOps currentConfig 0 doubleSpendBlock firstMeta
        [spendTx 0, spendTx 1] emptyBatch).2.committedAfterStop stopper =
      emptyBatch.committedAfterStop stopper) ↔
    ∀ db, emptyBatch.txn = .batch 0 db →
      RefusedUnwritten firstBlockOps currentConfig doubleSpendBlock [spendTx 0, spendTx 1] db :=
  have hthrown : thrown (Env.addBlock firstBlockOps currentConfig 0 doubleSpendBlock firstMeta
      [spendTx 0, spendTx 1] emptyBatch) =
        some (.keyImageExists "Attempting to add spent key image that's already in the db") := by
    decide +kernel
  have hminer : prevalidateMinerTransaction 60 doubleSpendBlock 0 = true := by decide
  addBlock_atomic_iff hminer (eq_error_of_thrown hthrown)

end XrCoin.BlockchainDb

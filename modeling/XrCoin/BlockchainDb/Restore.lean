import Mathlib
import XrCoin.BlockchainDb.Db

/-!
Popping undoes adding.

Each program that removes something is shown to undo the program that added it,
from any content that agrees with the added one on the tables concerned. Nothing
has to be known of the content below.
-/

namespace XrCoin.BlockchainDb

open Archive Cryptonote Lmdb

/-! ### Inputs -/

theorem addSpentKey_eq_ok {kImage : KeyImage} {db db' : Db} {u : Unit} :
    addSpentKey kImage db = .ok u db' ↔
      kImage ∉ db.spentKeys ∧ db' = { db with spentKeys := insert kImage db.spentKeys } := by
  rw [addSpentKey]
  by_cases h : kImage ∈ db.spentKeys
  · simp [h]
  · simp [h, eq_comm]

theorem addInputs_eq_ok {vin rest : List Txin} {minerTx : Bool} {r : Option Bool} {db db' : Db}
    (hsupported : ∀ txin ∈ rest, Txin.Supported txin)
    (h : addInputs vin rest minerTx db = .ok r db') :
    r = some (minerTx || rest.any Txin.isGen) ∧ (keyImages rest).Nodup ∧
      Disjoint db.spentKeys (keyImages rest).toFinset ∧
      db' = { db with spentKeys := db.spentKeys ∪ (keyImages rest).toFinset } := by
  induction rest generalizing minerTx db with
  | nil =>
      obtain ⟨rfl, rfl⟩ := EStateM.Result.ok.inj h
      simp [keyImages]
  | cons txin rest ih =>
      have hrest : ∀ txin ∈ rest, Txin.Supported txin :=
        fun txin hmem => hsupported txin (List.mem_cons_of_mem _ hmem)
      cases txin with
      | gen height =>
          obtain ⟨rfl, hnodup, hdisjoint, rfl⟩ := ih hrest h
          refine ⟨by simp [Txin.isGen], hnodup, hdisjoint, rfl⟩
      | toKey amount keyOffsets kImage =>
          obtain ⟨_, db1, hadd, h⟩ := bind_eq_ok.mp h
          obtain ⟨hnew, rfl⟩ := addSpentKey_eq_ok.mp hadd
          obtain ⟨rfl, hnodup, hdisjoint, rfl⟩ := ih hrest h
          rw [Finset.disjoint_insert_left] at hdisjoint
          have hkeys : keyImages (.toKey amount keyOffsets kImage :: rest) =
              kImage :: keyImages rest := rfl
          rw [hkeys, List.toFinset_cons]
          refine ⟨by simp [Txin.isGen], List.nodup_cons.mpr ⟨?_, hnodup⟩, ?_, ?_⟩
          · intro hmem
            exact hdisjoint.1 (List.mem_toFinset.mpr hmem)
          · exact Finset.disjoint_insert_right.mpr ⟨hnew, hdisjoint.2⟩
          · rw [Finset.insert_union, Finset.union_insert]
      | toScript prev prevout sigset => exact absurd (hsupported _ List.mem_cons_self) id
      | toScriptHash prev prevout script sigset => exact absurd (hsupported _ List.mem_cons_self) id

theorem removeSpentKeys_eq (vin : List Txin) (db : Db) :
    removeSpentKeys vin db =
      .ok () { db with spentKeys := db.spentKeys \ (keyImages vin).toFinset } := by
  induction vin generalizing db with
  | nil => simp [removeSpentKeys, keyImages, pure, EStateM.pure]
  | cons txin vin ih =>
      cases txin with
      | toKey amount keyOffsets kImage =>
          have hkeys : keyImages (.toKey amount keyOffsets kImage :: vin) =
              kImage :: keyImages vin := rfl
          have hstep : removeSpentKey kImage db =
              .ok () { db with spentKeys := db.spentKeys.erase kImage } := rfl
          rw [removeSpentKeys, bind_of_ok hstep, ih, hkeys, List.toFinset_cons,
            Finset.sdiff_insert, Finset.erase_sdiff_comm]
      | gen height => exact ih db
      | toScript prev prevout sigset => exact ih db
      | toScriptHash prev prevout script sigset => exact ih db

/-! ### Outputs -/

theorem putOutput_eq_ok {txHash : Hash} {amount : UInt64} {localIndex index : ℕ} {outkey : OutKey}
    {db db' : Db} (h : putOutput txHash amount localIndex outkey db = .ok index db') :
    ∃ outputTxs outkeys,
      db.outputTxs.append db.numOutputs ⟨txHash, localIndex⟩ = some outputTxs ∧
      index = (db.outputAmounts amount).count ∧
      (db.outputAmounts amount).append index outkey = some outkeys ∧
      db' = { db with
        outputTxs, outputAmounts := Function.update db.outputAmounts amount outkeys } := by
  rw [putOutput] at h
  split at h
  · exact absurd h (by simp)
  · rename_i outputTxs htxs
    simp only at h
    split at h
    · exact absurd h (by simp)
    · rename_i outkeys hkeys
      obtain ⟨rfl, rfl⟩ := EStateM.Result.ok.inj h
      exact ⟨outputTxs, outkeys, htxs, rfl, hkeys, rfl⟩

theorem addOutput_eq_ok {txHash : Hash} {out : TxOut} {localIndex index : ℕ}
    {unlockTime : UInt64} {commitment : Option Key} {db db' : Db}
    (h : addOutput txHash out localIndex unlockTime commitment db = .ok index db') :
    ∃ key, out.target = .toKey key ∧
      putOutput txHash out.amount localIndex ⟨db.numOutputs, key, unlockTime, db.height,
        if out.amount = 0 then commitment else none⟩ db = .ok index db' := by
  obtain ⟨amount, target⟩ := out
  cases target with
  | toKey key =>
      simp only [addOutput] at h
      split at h
      · exact absurd h throw_ne_ok
      · rw [get_bind] at h
        exact ⟨key, rfl, h⟩
  | toScript script => exact absurd h throw_ne_ok
  | toScriptHash hash => exact absurd h throw_ne_ok

theorem removeOutput_putOutput {txHash : Hash} {amount : UInt64} {localIndex index : ℕ}
    {outkey : OutKey} {db db' db2 : Db} (hid : outkey.outputId = db.numOutputs)
    (h : putOutput txHash amount localIndex outkey db = .ok index db')
    (htxs : db2.outputTxs = db'.outputTxs) (hamounts : db2.outputAmounts = db'.outputAmounts) :
    removeOutput amount index db2 =
      .ok () { db2 with outputTxs := db.outputTxs, outputAmounts := db.outputAmounts } := by
  obtain ⟨outputTxs, outkeys, hputTxs, -, hputKeys, rfl⟩ := putOutput_eq_ok h
  simp only at htxs hamounts
  have hget : (db2.outputAmounts amount).get index = some outkey := by
    rw [hamounts, Function.update_self]
    exact Table.get_append hputKeys
  have hgetTxs : db2.outputTxs.get outkey.outputId = some ⟨txHash, localIndex⟩ := by
    rw [htxs, hid]
    exact Table.get_append hputTxs
  simp only [removeOutput, hget, hgetTxs]
  rw [htxs, hid, Table.erase_append hputTxs, hamounts, Function.update_self,
    Table.erase_append hputKeys, Function.update_idem, Function.update_eq_self]

section

variable {ops : CryptoOps} {cfg : Config}

theorem addOutputs_eq_ok {tx : Transaction} {txHash : Hash} {minerTx : Bool} {i : ℕ}
    {outs : List TxOut} {indices : List ℕ} {db db' : Db}
    (h : addOutputs ops tx txHash minerTx i outs db = .ok indices db') :
    indices.length = outs.length ∧
      db' = { db with outputTxs := db'.outputTxs, outputAmounts := db'.outputAmounts } := by
  induction outs generalizing i indices db with
  | nil =>
      obtain ⟨rfl, rfl⟩ := EStateM.Result.ok.inj h
      exact ⟨rfl, rfl⟩
  | cons out outs ih =>
      obtain ⟨index, db1, hadd, h⟩ := bind_eq_ok.mp h
      obtain ⟨rest, db2, hrest, h⟩ := bind_eq_ok.mp h
      obtain ⟨rfl, rfl⟩ := EStateM.Result.ok.inj h
      obtain ⟨key, -, hput⟩ := addOutput_eq_ok hadd
      obtain ⟨outputTxs, outkeys, -, -, -, rfl⟩ := putOutput_eq_ok hput
      obtain ⟨hlen, hframe⟩ := ih hrest
      exact ⟨by rw [List.length_cons, List.length_cons, hlen], hframe⟩

theorem removeOutputs_addOutputs {tx : Transaction} {txHash : Hash} {minerTx : Bool} {i : ℕ}
    {outs : List TxOut} {indices : List ℕ} {db db' db2 : Db}
    (hamount : ∀ j, ∀ out ∈ outs,
      (addedOutput ops tx minerTx j out).1.amount = removedAmount tx.toTransactionPrefix out)
    (h : addOutputs ops tx txHash minerTx i outs db = .ok indices db')
    (htxs : db2.outputTxs = db'.outputTxs) (hamounts : db2.outputAmounts = db'.outputAmounts) :
    removeOutputs tx.toTransactionPrefix (outs.zip indices) db2 =
      .ok () { db2 with outputTxs := db.outputTxs, outputAmounts := db.outputAmounts } := by
  induction outs generalizing i indices db with
  | nil =>
      obtain ⟨rfl, rfl⟩ := EStateM.Result.ok.inj h
      rw [← htxs, ← hamounts]
      rfl
  | cons out outs ih =>
      obtain ⟨index, db1, hadd, h⟩ := bind_eq_ok.mp h
      obtain ⟨rest, _, hrest, h⟩ := bind_eq_ok.mp h
      obtain ⟨rfl, rfl⟩ := EStateM.Result.ok.inj h
      obtain ⟨key, -, hput⟩ := addOutput_eq_ok hadd
      rw [hamount i out List.mem_cons_self] at hput
      have hinner := ih (fun j out hmem => hamount j out (List.mem_cons_of_mem _ hmem)) hrest
      rw [List.zip_cons_cons, removeOutputs, bind_of_ok hinner]
      exact removeOutput_putOutput rfl hput rfl rfl

/-! ### Transactions -/

theorem orThrow_eq_ok {α : Type} {e : DbError} {o : Option α} {a : α} {db db' : Db} :
    orThrow e o db = .ok a db' ↔ o = some a ∧ db' = db := by
  cases o with
  | none =>
      constructor
      · intro h
        exact absurd h throw_ne_ok
      · rintro ⟨h, -⟩
        exact absurd h (by simp)
  | some b =>
      constructor
      · intro h
        obtain ⟨rfl, rfl⟩ := EStateM.Result.ok.inj h
        exact ⟨rfl, rfl⟩
      · rintro ⟨h, rfl⟩
        obtain rfl := Option.some.inj h
        rfl

theorem prunableHashToAdd_eq_ok {tx : Transaction} {txPrunableHash : Hash} {db db' : Db}
    (h : prunableHashToAdd ops tx db = .ok txPrunableHash db') : db' = db := by
  rw [prunableHashToAdd] at h
  split at h
  · exact (orThrow_eq_ok.mp h).2
  · exact (EStateM.Result.ok.inj h).2.symm

theorem putTxIndex_eq_ok {txHash : Hash} {unlockTime : UInt64} {db db' : Db} {u : Unit}
    (h : putTxIndex txHash unlockTime db = .ok u db') :
    db.txIndices txHash = none ∧ db' = { db with
      txIndices := Function.update db.txIndices txHash
        (some ⟨db.getTxCount, unlockTime, db.height⟩) } := by
  rw [putTxIndex] at h
  split at h
  · exact absurd h (by simp)
  · rename_i hnew
    exact ⟨hnew, (EStateM.Result.ok.inj h).2.symm⟩

def withPrunableHash (tx : TransactionPrefix) (t : Table Hash) (txId : ℕ) (h : Hash) :
    Option (Table Hash) :=
  if hasPrunableHash tx then t.append txId h else some t

theorem putTransaction_eq_ok {tx : Transaction} {txPrunableHash : Hash} {txId : ℕ} {db db' : Db}
    (h : putTransaction cfg tx txPrunableHash db = .ok txId db') :
    txId = db.getTxCount ∧ (serializeBase cfg tx).ok = true ∧
      ∃ txsPruned txsPrunable txsPrunableHash,
        db.txsPruned.append txId (serializeBase cfg tx).bytes = some txsPruned ∧
        db.txsPrunable.append txId
          ((txToBlob cfg tx).drop (serializeBase cfg tx).bytes.length) = some txsPrunable ∧
        withPrunableHash tx.toTransactionPrefix db.txsPrunableHash txId txPrunableHash =
          some txsPrunableHash ∧
        db' = { db with txsPruned, txsPrunable, txsPrunableHash } := by
  simp only [putTransaction] at h
  split at h
  · exact absurd h (by simp)
  rename_i hok
  split at h
  · exact absurd h (by simp)
  rename_i txsPruned hpruned
  split at h
  · exact absurd h (by simp)
  split at h
  · exact absurd h (by simp)
  rename_i txsPrunable hprunable
  rw [Bool.not_eq_false] at hok
  split at h
  · rename_i hhas
    split at h
    · exact absurd h (by simp)
    · rename_i txsPrunableHash hhash
      obtain ⟨rfl, rfl⟩ := EStateM.Result.ok.inj h
      exact ⟨rfl, hok, txsPruned, txsPrunable, txsPrunableHash, hpruned, hprunable,
        by rw [withPrunableHash, if_pos hhas, hhash], rfl⟩
  · rename_i hhas
    obtain ⟨rfl, rfl⟩ := EStateM.Result.ok.inj h
    exact ⟨rfl, hok, txsPruned, txsPrunable, db.txsPrunableHash, hpruned, hprunable,
      by rw [withPrunableHash, if_neg hhas], rfl⟩

/-- The two stored parts of a transaction are its blob. -/
theorem serializeBase_append_drop {tx : Transaction} (hok : (serializeBase cfg tx).ok = true) :
    (serializeBase cfg tx).bytes ++ (txToBlob cfg tx).drop (serializeBase cfg tx).bytes.length =
      txToBlob cfg tx := by
  obtain ⟨rest, hrest⟩ : ∃ rest, saveTransaction cfg tx = serializeBase cfg tx ++ rest := by
    rw [saveTransaction, serializeBase]
    by_cases hversion : tx.version = 1
    · rw [if_pos hversion, if_pos hversion, Out.append_emit_nil]
      exact ⟨_, rfl⟩
    · rw [if_neg hversion, if_neg hversion]
      by_cases hvin : tx.vin.toList = []
      · rw [if_pos hvin, Out.saveIf_neg (not_not.mpr hvin)]
        exact ⟨.emit [], by rw [Out.append_emit_nil, Out.append_emit_nil]⟩
      · rw [if_neg hvin, Out.saveIf_pos hvin, saveRctSig, ← Out.append_assoc]
        exact ⟨_, rfl⟩
  rw [txToBlob, hrest, Out.append_bytes hok, List.drop_left]

structure TxAdded (ops : CryptoOps) (cfg : Config) (tx : Transaction) (txHash : Hash)
    (db db' : Db) : Prop where
  blocks : db'.blocks = db.blocks
  blockInfo : db'.blockInfo = db.blockInfo
  blockHeights : db'.blockHeights = db.blockHeights
  fresh : db.txIndices txHash = none
  txIndices : db'.txIndices = Function.update db.txIndices txHash
    (some ⟨db.getTxCount, tx.unlockTime, db.height⟩)
  base_ok : (serializeBase cfg tx).ok = true
  txsPruned : db.txsPruned.append db.getTxCount (serializeBase cfg tx).bytes = some db'.txsPruned
  txsPrunable : db.txsPrunable.append db.getTxCount
    ((txToBlob cfg tx).drop (serializeBase cfg tx).bytes.length) = some db'.txsPrunable
  txsPrunableHash : ∃ h, withPrunableHash tx.toTransactionPrefix db.txsPrunableHash db.getTxCount h =
    some db'.txsPrunableHash
  keys_nodup : (keyImages tx.vin.toList).Nodup
  keys_new : Disjoint db.spentKeys (keyImages tx.vin.toList).toFinset
  spentKeys : db'.spentKeys = db.spentKeys ∪ (keyImages tx.vin.toList).toFinset
  outputs : ∃ indices db1 db2,
    addOutputs ops tx txHash (tx.vin.toList.any Txin.isGen) 0 tx.vout.toList db1 = .ok indices db2 ∧
    db1.outputTxs = db.outputTxs ∧ db1.outputAmounts = db.outputAmounts ∧
    db1.blocks = db.blocks ∧
    db'.outputTxs = db2.outputTxs ∧ db'.outputAmounts = db2.outputAmounts ∧
    db.txOutputs.append db.getTxCount indices = some db'.txOutputs

theorem addTxAmountOutputIndices_eq_ok {txId : ℕ} {indices : List ℕ} {db db' : Db} {u : Unit}
    (h : addTxAmountOutputIndices txId indices db = .ok u db') :
    ∃ txOutputs, db.txOutputs.append txId indices = some txOutputs ∧
      db' = { db with txOutputs } := by
  rw [addTxAmountOutputIndices] at h
  split at h
  · exact absurd h (by simp)
  · rename_i txOutputs happend
    exact ⟨txOutputs, happend, (EStateM.Result.ok.inj h).2.symm⟩

theorem addTransaction_eq_ok {tx : Transaction} {txHash : Hash} {db db' : Db} {u : Unit}
    (hsupported : ∀ txin ∈ tx.vin.toList, txin.Supported)
    (h : addTransaction ops cfg tx txHash db = .ok u db') :
    TxAdded ops cfg tx txHash db db' := by
  obtain ⟨txPrunableHash, _, hhashed, h1⟩ := bind_eq_ok.mp h
  obtain rfl := prunableHashToAdd_eq_ok hhashed
  obtain ⟨r, _, hinputs, h2⟩ := bind_eq_ok.mp h1
  obtain ⟨rfl, hnodup, hnew, rfl⟩ := addInputs_eq_ok hsupported hinputs
  obtain ⟨txId, _, hdata, h3⟩ := bind_eq_ok.mp h2
  obtain ⟨_, _, hindex, hput⟩ := bind_eq_ok.mp hdata
  obtain ⟨hfresh, rfl⟩ := putTxIndex_eq_ok hindex
  obtain ⟨rfl, hok, txsPruned, txsPrunable, txsPrunableHash, hpruned, hprunable, hhash, rfl⟩ :=
    putTransaction_eq_ok hput
  obtain ⟨indices, db5, houtputs, h4⟩ := bind_eq_ok.mp h3
  obtain ⟨-, hframe⟩ := addOutputs_eq_ok houtputs
  obtain ⟨txOutputs, happend, rfl⟩ := addTxAmountOutputIndices_eq_ok h4
  rw [hframe] at happend
  rw [Bool.false_or] at houtputs
  rw [hframe]
  exact {
    blocks := rfl
    blockInfo := rfl
    blockHeights := rfl
    fresh := hfresh
    txIndices := rfl
    base_ok := hok
    txsPruned := hpruned
    txsPrunable := hprunable
    txsPrunableHash := ⟨txPrunableHash, hhash⟩
    keys_nodup := hnodup
    keys_new := hnew
    spentKeys := rfl
    outputs := ⟨indices, _, db5, houtputs, rfl, rfl, rfl, rfl, rfl, happend⟩ }

def addedAmount (tx : TransactionPrefix) (out : TxOut) : UInt64 :=
  if tx.vin.toList.any Txin.isGen ∧ tx.version = 2 then 0 else out.amount

theorem addedOutput_amount (tx : Transaction) (i : ℕ) (out : TxOut) :
    (addedOutput ops tx (tx.vin.toList.any Txin.isGen) i out).1.amount =
      addedAmount tx.toTransactionPrefix out := by
  rw [addedOutput, addedAmount]
  split
  · rfl
  · split <;> rfl

/-- What a transaction has to be like for `pop_block` to find what `add_block`
stored of it. -/
structure TxRestorable (ops : CryptoOps) (cfg : Config) (tx : Transaction) : Prop where
  supported : ∀ txin ∈ tx.vin.toList, txin.Supported
  readable : (parseAndValidateTxFromBlob ops cfg (txToBlob cfg tx)).map
    Transaction.toTransactionPrefix = some tx.toTransactionPrefix
  amounts : ∀ out ∈ tx.vout.toList,
    addedAmount tx.toTransactionPrefix out = removedAmount tx.toTransactionPrefix out

theorem deleteTransaction_of_append {tx : TransactionPrefix} {txId : ℕ} {db : Db}
    {txsPruned txsPrunable : Table (List UInt8)} {txsPrunableHash : Table Hash}
    {pruned prunable : List UInt8} {h : Hash}
    (hpruned : txsPruned.append txId pruned = some db.txsPruned)
    (hprunable : txsPrunable.append txId prunable = some db.txsPrunable)
    (hhash : withPrunableHash tx txsPrunableHash txId h = some db.txsPrunableHash) :
    deleteTransaction tx txId db =
      .ok () { db with txsPruned, txsPrunable, txsPrunableHash } := by
  have hget : ¬db.txsPruned.get txId = none := by
    rw [Table.get_append hpruned]
    simp
  have hget' : ¬db.txsPrunable.get txId = none := by
    rw [Table.get_append hprunable]
    simp
  rw [deleteTransaction, if_neg hget, Table.erase_append hpruned]
  simp only
  rw [if_neg hget', Table.erase_append hprunable]
  rw [withPrunableHash] at hhash
  by_cases hhas : hasPrunableHash tx = true
  · rw [if_pos hhas] at hhash
    have hget'' : ¬db.txsPrunableHash.get txId = none := by
      rw [Table.get_append hhash]
      simp
    have hnot : ¬hasPrunableHash tx = false := by simp [hhas]
    rw [if_neg hnot, if_neg hget'', Table.erase_append hhash]
  · rw [if_neg hhas, Option.some.injEq] at hhash
    rw [if_pos (Bool.not_eq_true _ ▸ hhas), ← hhash]

namespace TxAdded

variable {tx : Transaction} {txHash : Hash} {db db' : Db}

theorem txIndices_self (h : TxAdded ops cfg tx txHash db db') :
    db'.txIndices txHash = some ⟨db.getTxCount, tx.unlockTime, db.height⟩ := by
  rw [h.txIndices, Function.update_self]

theorem getTxBlob (h : TxAdded ops cfg tx txHash db db') :
    db'.getTxBlob txHash = some (txToBlob cfg tx) := by
  rw [Db.getTxBlob, h.txIndices_self]
  simp only [Option.bind_eq_bind, Option.bind_some]
  rw [Table.get_append h.txsPruned, Option.bind_some, Table.get_append h.txsPrunable,
    Option.bind_some, serializeBase_append_drop h.base_ok]

/-- The stored transaction is read back, as far as removing it needs it. -/
theorem getTx (h : TxAdded ops cfg tx txHash db db') (hrestorable : TxRestorable ops cfg tx) :
    ∃ tx', getTx ops cfg txHash db' = .ok tx' db' ∧
      tx'.toTransactionPrefix = tx.toTransactionPrefix := by
  obtain ⟨tx', hparse, hprefix⟩ := Option.map_eq_some_iff.mp hrestorable.readable
  refine ⟨tx', ?_, hprefix⟩
  rw [BlockchainDb.getTx, get_bind,
    bind_of_ok (orThrow_eq_ok.mpr ⟨h.getTxBlob, rfl⟩)]
  exact orThrow_eq_ok.mpr ⟨hparse, rfl⟩

theorem removeTxOutputs (h : TxAdded ops cfg tx txHash db db')
    (hrestorable : TxRestorable ops cfg tx) {db2 : Db}
    (htxs : db2.outputTxs = db'.outputTxs) (hamounts : db2.outputAmounts = db'.outputAmounts)
    (hindices : db2.txOutputs = db'.txOutputs) :
    removeTxOutputs db.getTxCount tx.toTransactionPrefix db2 =
      .ok () { db2 with outputTxs := db.outputTxs, outputAmounts := db.outputAmounts } := by
  obtain ⟨indices, db3, db4, hadd, hbefore, hbefore', -, hafter, hafter', happend⟩ := h.outputs
  obtain ⟨hlen, -⟩ := addOutputs_eq_ok hadd
  have hget : db2.getTxAmountOutputIndices db.getTxCount = indices := by
    rw [Db.getTxAmountOutputIndices, hindices, Table.get_append happend, Option.getD_some]
  have hsome : ¬(indices = [] ∧ tx.vout.toList ≠ []) := by
    rintro ⟨rfl, hne⟩
    exact hne (List.length_eq_zero_iff.mp hlen.symm)
  rw [BlockchainDb.removeTxOutputs, get_bind, hget, if_neg hsome,
    removeOutputs_addOutputs _ hadd (htxs.trans hafter) (hamounts.trans hafter'), hbefore, hbefore']
  intro j out hmem
  rw [addedOutput_amount]
  exact hrestorable.amounts out hmem

theorem removeTransaction (h : TxAdded ops cfg tx txHash db db')
    (hrestorable : TxRestorable ops cfg tx) :
    removeTransaction ops cfg txHash db' = .ok () db := by
  obtain ⟨tx', hget, hprefix⟩ := h.getTx hrestorable
  obtain ⟨prunableHash, hhash⟩ := h.txsPrunableHash
  obtain ⟨indices, -, -, -, -, -, -, -, -, happend⟩ := h.outputs
  have hdelete : deleteTransaction tx.toTransactionPrefix db.getTxCount
      { db' with spentKeys := db'.spentKeys \ (keyImages tx.vin.toList).toFinset } =
      .ok () { db' with
        spentKeys := db'.spentKeys \ (keyImages tx.vin.toList).toFinset
        txsPruned := db.txsPruned
        txsPrunable := db.txsPrunable
        txsPrunableHash := db.txsPrunableHash } :=
    deleteTransaction_of_append h.txsPruned h.txsPrunable hhash
  have houtputs : BlockchainDb.removeTxOutputs db.getTxCount tx.toTransactionPrefix
      { db' with
        spentKeys := db'.spentKeys \ (keyImages tx.vin.toList).toFinset
        txsPruned := db.txsPruned
        txsPrunable := db.txsPrunable
        txsPrunableHash := db.txsPrunableHash } = _ :=
    h.removeTxOutputs hrestorable rfl rfl rfl
  rw [BlockchainDb.removeTransaction, bind_of_ok hget, hprefix, bind_of_ok (removeSpentKeys_eq _ _),
    removeTransactionData, get_bind, bind_of_ok (orThrow_eq_ok.mpr ⟨h.txIndices_self, rfl⟩),
    bind_of_ok hdelete, bind_of_ok houtputs, deleteTxIndex]
  refine congrArg (EStateM.Result.ok ()) (Db.ext h.blocks h.blockInfo h.blockHeights ?_ rfl rfl rfl ?_ rfl rfl ?_)
  · change Function.update db'.txIndices txHash none = db.txIndices
    rw [h.txIndices, Function.update_idem, ← h.fresh, Function.update_eq_self]
  · exact Table.erase_append happend
  · change db'.spentKeys \ (keyImages tx.vin.toList).toFinset = db.spentKeys
    rw [h.spentKeys, Finset.union_sdiff_cancel_right h.keys_new]

end TxAdded

theorem popTransactions_addTransactions {txs : List (Hash × Transaction)} {numRctOuts : UInt64}
    {db db' : Db} (hrestorable : ∀ p ∈ txs, TxRestorable ops cfg p.2)
    (h : addTransactions ops cfg txs db = .ok numRctOuts db') :
    ∃ popped, popTransactions ops cfg (txs.map Prod.fst) db' = .ok popped db := by
  induction txs generalizing numRctOuts db with
  | nil =>
      obtain ⟨rfl, rfl⟩ := EStateM.Result.ok.inj h
      exact ⟨[], rfl⟩
  | cons p txs ih =>
      obtain ⟨txHash, tx⟩ := p
      obtain ⟨_, db1, hadd, h1⟩ := bind_eq_ok.mp h
      obtain ⟨n, _, hloop, hpure⟩ := bind_eq_ok.mp h1
      obtain ⟨-, rfl⟩ := EStateM.Result.ok.inj hpure
      have htx : TxRestorable ops cfg tx := hrestorable (txHash, tx) List.mem_cons_self
      have hadded := addTransaction_eq_ok htx.supported hadd
      obtain ⟨tx', hget, -⟩ := hadded.getTx htx
      obtain ⟨popped, hpop⟩ := ih (fun p hmem => hrestorable p (List.mem_cons_of_mem _ hmem)) hloop
      refine ⟨popped ++ [tx'], ?_⟩
      rw [List.map_cons, popTransactions, bind_of_ok hpop, bind_of_ok hget,
        bind_of_ok (hadded.removeTransaction htx)]
      rfl

/-! ### Blocks -/

theorem checkBlock_eq_ok {b : Block} {blkHash : Hash} {db : Db} {u : Unit}
    (h : db.checkBlock b blkHash = .ok u) : db.blockHeights blkHash = none := by
  rw [Db.checkBlock] at h
  split at h
  · exact absurd h (by simp)
  · rename_i hnone
    simpa using hnone

theorem putBlock_eq_ok {b : Block} {m : BlockMeta} {numRctOuts : UInt64} {blkHash : Hash}
    {db db' : Db} {u : Unit} (h : putBlock cfg b m numRctOuts blkHash db = .ok u db') :
    db.blockHeights blkHash = none ∧ ∃ blocks blockInfo cumRct,
      db.blocks.append db.height (blockToBlob cfg b) = some blocks ∧
      db.blockInfo.append db.height (blockInfoOf b m blkHash cumRct) = some blockInfo ∧
      db' = { db with
        blocks, blockInfo
        blockHeights := Function.update db.blockHeights blkHash (some db.height) } := by
  rw [putBlock] at h
  split at h
  · exact absurd h (by simp)
  rename_i hcheck
  split at h
  · exact absurd h (by simp)
  rename_i blocks hblocks
  split at h
  · exact absurd h (by simp)
  rename_i cumRct hcum
  split at h
  · exact absurd h (by simp)
  rename_i blockInfo hinfo
  exact ⟨checkBlock_eq_ok hcheck, blocks, blockInfo, cumRct, hblocks, hinfo,
    (EStateM.Result.ok.inj h).2.symm⟩

theorem height_putBlock {b : Block} {m : BlockMeta} {numRctOuts : UInt64} {blkHash : Hash}
    {db db' : Db} {u : Unit} (h : putBlock cfg b m numRctOuts blkHash db = .ok u db') :
    db'.height = db.height + 1 := by
  obtain ⟨-, blocks, blockInfo, cumRct, hblocks, -, rfl⟩ := putBlock_eq_ok h
  exact Table.count_append hblocks

theorem removeBlock_putBlock {b : Block} {m : BlockMeta} {numRctOuts : UInt64} {blkHash : Hash}
    {db db' : Db} {u : Unit} (h : putBlock cfg b m numRctOuts blkHash db = .ok u db') :
    removeBlock db' = .ok () db := by
  have hheight := height_putBlock h
  obtain ⟨hnew, blocks, blockInfo, cumRct, hblocks, hinfo, hdb⟩ := putBlock_eq_ok h
  have hinfo' : db'.blockInfo = blockInfo := congrArg Db.blockInfo hdb
  have hheights : db'.blockHeights = Function.update db.blockHeights blkHash (some db.height) :=
    congrArg Db.blockHeights hdb
  have hfound : ¬db'.blockHeights (blockInfoOf b m blkHash cumRct).hash = none := by
    rw [hheights, blockInfoOf, Function.update_self]
    simp
  rw [removeBlock, hheight, if_neg (Nat.succ_ne_zero _), Nat.add_sub_cancel, hinfo',
    Table.get_append hinfo]
  simp only
  rw [if_neg hfound, Table.erase_append hinfo, hheights, blockInfoOf, Function.update_idem, ← hnew,
    Function.update_eq_self, hdb]
  simp only
  rw [Table.erase_append hblocks]

theorem getTopBlock_putBlock {b b' : Block} {m : BlockMeta} {numRctOuts : UInt64} {blkHash : Hash}
    {db db' : Db} {u : Unit} (h : putBlock cfg b m numRctOuts blkHash db = .ok u db')
    (hparse : parseAndValidateBlockFromBlob cfg (blockToBlob cfg b) = some b') :
    getTopBlock cfg db' = .ok b' db' := by
  have hheight := height_putBlock h
  obtain ⟨-, blocks, blockInfo, cumRct, hblocks, -, hdb⟩ := putBlock_eq_ok h
  have hget : db'.blocks.get db.height = some (blockToBlob cfg b) := by
    rw [hdb]
    exact Table.get_append hblocks
  rw [getTopBlock, get_bind, hheight, if_pos (Nat.succ_ne_zero _), Nat.add_sub_cancel,
    getBlockFromHeight, get_bind, bind_of_ok (orThrow_eq_ok.mpr ⟨hget, rfl⟩)]
  exact orThrow_eq_ok.mpr ⟨hparse, rfl⟩

structure BlockRestorable (ops : CryptoOps) (cfg : Config) (b : Block) (txs : List Transaction) :
    Prop where
  minerTx : TxRestorable ops cfg b.minerTx
  txs : ∀ tx ∈ txs, TxRestorable ops cfg tx
  readable : (parseAndValidateBlockFromBlob cfg (blockToBlob cfg b)).map
    (fun b' => (b'.txHashes, getTransactionHash ops cfg b'.minerTx)) =
      some (b.txHashes, getTransactionHash ops cfg b.minerTx)

theorem addBlock_eq_ok {b : Block} {m : BlockMeta} {txs : List Transaction} {height : ℕ}
    {db db' : Db} (h : addBlock ops cfg b m txs db = .ok height db') :
    b.txHashes.toList.length = txs.length ∧ ∃ numRctOuts db1 db2,
      addTransaction ops cfg b.minerTx (getTransactionHash ops cfg b.minerTx) db = .ok () db1 ∧
      addTransactions ops cfg (b.txHashes.toList.zip txs) db1 = .ok numRctOuts db2 ∧
      putBlock cfg b m (minerRctOuts b + numRctOuts) (blockHashOrNull ops cfg b) db2 =
        .ok () db' := by
  rw [addBlock] at h
  split at h
  · rename_i hsize
    rw [writeBlock, get_bind] at h
    obtain ⟨_, db1, hminer, h1⟩ := bind_eq_ok.mp h
    obtain ⟨numRctOuts, db2, htxs, h2⟩ := bind_eq_ok.mp h1
    obtain ⟨_, _, hput, hpure⟩ := bind_eq_ok.mp h2
    obtain ⟨-, rfl⟩ := EStateM.Result.ok.inj hpure
    exact ⟨hsize, numRctOuts, db1, db2, hminer, htxs, hput⟩
  · exact absurd h throw_ne_ok

theorem popBlock_addBlock {b : Block} {m : BlockMeta} {txs : List Transaction} {height : ℕ}
    {db db' : Db} (hrestorable : BlockRestorable ops cfg b txs)
    (h : addBlock ops cfg b m txs db = .ok height db') :
    ∃ popped, popBlock ops cfg db' = .ok popped db := by
  obtain ⟨hsize, numRctOuts, db1, db2, hminer, htxs, hput⟩ := addBlock_eq_ok h
  obtain ⟨b', hparse, hread⟩ := Option.map_eq_some_iff.mp hrestorable.readable
  obtain ⟨hhashes, hhash⟩ := Prod.mk.inj hread
  have hzip : ∀ p ∈ b.txHashes.toList.zip txs, TxRestorable ops cfg p.2 :=
    fun p hmem => hrestorable.txs p.2 (List.of_mem_zip hmem).2
  obtain ⟨popped, hpop⟩ := popTransactions_addTransactions hzip htxs
  rw [List.map_fst_zip hsize.le] at hpop
  have hremove := (addTransaction_eq_ok hrestorable.minerTx.supported hminer).removeTransaction
    hrestorable.minerTx
  refine ⟨(b', popped), ?_⟩
  rw [popBlock, bind_of_ok (getTopBlock_putBlock hput hparse),
    bind_of_ok (removeBlock_putBlock hput), hhashes, bind_of_ok hpop, hhash, bind_of_ok hremove]
  rfl

end

end XrCoin.BlockchainDb

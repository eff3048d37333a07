import XrCoin.BlockchainDb.Restore

/-!
What the database holds after any run of added and popped blocks.

The chain is the list of the blocks that were added and not popped. A run that
pops is a run that only adds, since a pop undoes the last addition, and for those
the content is read off the chain.
-/

namespace XrCoin.BlockchainDb

open Archive Cryptonote Lmdb

structure ChainEntry where
  block : Block
  txs : List Transaction

section

variable (ops : CryptoOps) (cfg : Config)

/-! ### Runs -/

/-- Runs of `add_block` and `pop_block` that returned, from an empty database,
with blocks that can be restored. -/
inductive Reach : List ChainEntry → Db → Prop
  | empty : Reach [] .empty
  | add {chain : List ChainEntry} {db db' : Db} {b : Block} {m : BlockMeta}
      {txs : List Transaction} {height : ℕ} :
      Reach chain db → BlockRestorable ops cfg b txs →
      addBlock ops cfg b m txs db = .ok height db' → Reach (chain ++ [⟨b, txs⟩]) db'
  | pop {chain : List ChainEntry} {db db' : Db} {popped : Block × List Transaction} :
      Reach chain db → popBlock ops cfg db = .ok popped db' → Reach chain.dropLast db'

inductive Built : List ChainEntry → Db → Prop
  | empty : Built [] .empty
  | add {chain : List ChainEntry} {db db' : Db} {b : Block} {m : BlockMeta}
      {txs : List Transaction} {height : ℕ} :
      Built chain db → BlockRestorable ops cfg b txs →
      addBlock ops cfg b m txs db = .ok height db' → Built (chain ++ [⟨b, txs⟩]) db'

/-! ### The content that belongs to a chain -/

structure ChainOut where
  amount : UInt64
  outTx : OutTx
  pubkey : PublicKey
  unlockTime : UInt64
  height : ℕ
  commitment : Option Key

def outputsFrom (height : ℕ) (tx : Transaction) (txHash : Hash) : ℕ → List TxOut → List ChainOut
  | _, [] => []
  | i, out :: outs =>
      match out.target with
      | .toKey key =>
          ⟨addedAmount tx.toTransactionPrefix out, ⟨txHash, i⟩, key, tx.unlockTime, height,
            if addedAmount tx.toTransactionPrefix out = 0 then
              (addedOutput ops tx (tx.vin.toList.any Txin.isGen) i out).2
            else none⟩ :: outputsFrom height tx txHash (i + 1) outs
      | _ => outputsFrom height tx txHash (i + 1) outs

def txsOutputs (height : ℕ) (txs : List (Hash × Transaction)) : List ChainOut :=
  txs.flatMap fun p => outputsFrom ops height p.2 p.1 0 p.2.vout.toList

def ChainEntry.hashedTxs (e : ChainEntry) : List (Hash × Transaction) :=
  (getTransactionHash ops cfg e.block.minerTx, e.block.minerTx) ::
    e.block.txHashes.toList.zip e.txs

def chainOutputs (chain : List ChainEntry) : List ChainOut :=
  chain.zipIdx.flatMap fun p => txsOutputs ops p.2 (p.1.hashedTxs ops cfg)

def txsKeyImages (txs : List Transaction) : List KeyImage :=
  txs.flatMap fun tx => keyImages tx.vin.toList

def chainKeyImages (chain : List ChainEntry) : List KeyImage :=
  chain.flatMap fun e => txsKeyImages (e.block.minerTx :: e.txs)

def indexed {α : Type} (l : List α) : List (ℕ × α) := l.zipIdx.map Prod.swap

/-- The stored form of outputs with their global ids, those of one amount. -/
def outKeysOf (amount : UInt64) (outs : List (ChainOut × ℕ)) : List OutKey :=
  (outs.filter fun p => p.1.amount = amount).map fun p =>
    ⟨p.2, p.1.pubkey, p.1.unlockTime, p.1.height, p.1.commitment⟩

/-- The tables of outputs hold exactly these outputs, in this order: the global
ids count them all, the amount indices those of one amount. -/
structure OutputsFiled (outs : List ChainOut) (db : Db) : Prop where
  outputTxs : db.outputTxs.entries = indexed (outs.map ChainOut.outTx)
  outputAmounts : ∀ amount,
    (db.outputAmounts amount).entries = indexed (outKeysOf amount outs.zipIdx)

structure ChainStored (chain : List ChainEntry) (db : Db) : Prop where
  blocks : db.blocks.entries = indexed (chain.map fun e => blockToBlob cfg e.block)
  keys_nodup : (chainKeyImages chain).Nodup
  spentKeys : db.spentKeys = (chainKeyImages chain).toFinset
  outputs : OutputsFiled (chainOutputs ops cfg chain) db

end

theorem indexed_concat {α : Type} (l : List α) (a : α) :
    indexed (l ++ [a]) = indexed l ++ [(l.length, a)] := by
  simp [indexed, List.zipIdx_append]

@[simp] theorem indexed_length {α : Type} (l : List α) : (indexed l).length = l.length := by
  simp [indexed]

section

variable {ops : CryptoOps} {cfg : Config}

/-! ### Outputs -/

theorem OutputsFiled.numOutputs {outs : List ChainOut} {db : Db} (h : OutputsFiled outs db) :
    db.numOutputs = outs.length := by
  rw [Db.numOutputs, Table.count, h.outputTxs, indexed_length, List.length_map]

theorem OutputsFiled.congr {outs : List ChainOut} {db db' : Db} (h : OutputsFiled outs db)
    (htxs : db'.outputTxs = db.outputTxs) (hamounts : db'.outputAmounts = db.outputAmounts) :
    OutputsFiled outs db' where
  outputTxs := by rw [htxs, h.outputTxs]
  outputAmounts := by
    intro amount
    rw [hamounts, h.outputAmounts]

theorem outKeysOf_concat (amount : UInt64) (outs : List ChainOut) (o : ChainOut) :
    outKeysOf amount (outs ++ [o]).zipIdx =
      if o.amount = amount then
        outKeysOf amount outs.zipIdx ++
          [⟨outs.length, o.pubkey, o.unlockTime, o.height, o.commitment⟩]
      else outKeysOf amount outs.zipIdx := by
  rw [List.zipIdx_append, outKeysOf, List.filter_append]
  by_cases hamount : o.amount = amount
  · simp [hamount, outKeysOf]
  · simp [hamount, outKeysOf]

theorem OutputsFiled.putOutput {outs : List ChainOut} {o : ChainOut} {index : ℕ} {db db' : Db}
    (hfiled : OutputsFiled outs db)
    (h : putOutput o.outTx.txHash o.amount o.outTx.localIndex
      ⟨db.numOutputs, o.pubkey, o.unlockTime, o.height, o.commitment⟩ db = .ok index db') :
    OutputsFiled (outs ++ [o]) db' := by
  obtain ⟨outputTxs, outkeys, hputTxs, rfl, hputKeys, rfl⟩ := putOutput_eq_ok h
  rw [hfiled.numOutputs] at hputTxs hputKeys
  constructor
  · change outputTxs.entries = _
    rw [Table.entries_append hputTxs, hfiled.outputTxs, List.map_append, List.map_singleton,
      indexed_concat, List.length_map]
  · intro amount
    change (Function.update db.outputAmounts o.amount outkeys amount).entries = _
    rw [outKeysOf_concat]
    by_cases hamount : o.amount = amount
    · subst hamount
      have hcount : (db.outputAmounts o.amount).count = (outKeysOf o.amount outs.zipIdx).length := by
        rw [Table.count, hfiled.outputAmounts, indexed_length]
      rw [Function.update_self, if_pos rfl, Table.entries_append hputKeys, hfiled.outputAmounts,
        indexed_concat, hcount]
    · rw [Function.update_of_ne (Ne.symm hamount), if_neg hamount, hfiled.outputAmounts]

/-- The loop over the outputs of a transaction puts them behind those that are
there. -/
theorem OutputsFiled.addOutputs {outs : List ChainOut} {tx : Transaction} {txHash : Hash} {i : ℕ}
    {vout : List TxOut} {indices : List ℕ} {db db' : Db} (hfiled : OutputsFiled outs db)
    (h : addOutputs ops tx txHash (tx.vin.toList.any Txin.isGen) i vout db = .ok indices db') :
    OutputsFiled (outs ++ outputsFrom ops db.height tx txHash i vout) db' := by
  induction vout generalizing outs i indices db with
  | nil =>
      obtain ⟨-, rfl⟩ := EStateM.Result.ok.inj h
      rw [outputsFrom, List.append_nil]
      exact hfiled
  | cons out vout ih =>
      obtain ⟨index, db1, hadd, h1⟩ := bind_eq_ok.mp h
      obtain ⟨rest, _, hrest, hpure⟩ := bind_eq_ok.mp h1
      obtain ⟨-, rfl⟩ := EStateM.Result.ok.inj hpure
      obtain ⟨key, htarget, hput⟩ := addOutput_eq_ok hadd
      have hheight : db1.height = db.height := by
        obtain ⟨outputTxs, outkeys, -, -, -, rfl⟩ := putOutput_eq_ok hput
        rfl
      have htarget' : out.target = .toKey key := by
        rw [← htarget, addedOutput]
        split
        · rfl
        · split <;> rfl
      rw [addedOutput_amount] at hput
      have hone := ih (hfiled.putOutput (o := ⟨addedAmount tx.toTransactionPrefix out, ⟨txHash, i⟩,
        key, tx.unlockTime, db.height, _⟩) hput) hrest
      rw [hheight, List.append_assoc] at hone
      rw [outputsFrom, htarget']
      exact hone

theorem TxAdded.outputsFiled {tx : Transaction} {txHash : Hash} {db db' : Db}
    (h : TxAdded ops cfg tx txHash db db') {outs : List ChainOut} (hfiled : OutputsFiled outs db) :
    OutputsFiled (outs ++ outputsFrom ops db.height tx txHash 0 tx.vout.toList) db' := by
  obtain ⟨indices, db1, db2, hadd, hbefore, hbefore', hblocks, hafter, hafter', -⟩ := h.outputs
  have hfiled' := (hfiled.congr hbefore hbefore').addOutputs hadd
  have hheight : db1.height = db.height := by rw [Db.height, hblocks, Db.height]
  rw [hheight] at hfiled'
  exact hfiled'.congr hafter hafter'

/-! ### Transactions and blocks -/

structure TxsAdded (ops : CryptoOps) (txs : List (Hash × Transaction)) (db db' : Db) : Prop where
  blocks : db'.blocks = db.blocks
  keys_nodup : (txsKeyImages (txs.map Prod.snd)).Nodup
  keys_new : Disjoint db.spentKeys (txsKeyImages (txs.map Prod.snd)).toFinset
  spentKeys : db'.spentKeys = db.spentKeys ∪ (txsKeyImages (txs.map Prod.snd)).toFinset
  outputs : ∀ outs, OutputsFiled outs db →
    OutputsFiled (outs ++ txsOutputs ops db.height txs) db'

theorem TxsAdded.nil (db : Db) : TxsAdded ops [] db db where
  blocks := rfl
  keys_nodup := List.nodup_nil
  keys_new := by simp [txsKeyImages]
  spentKeys := by simp [txsKeyImages]
  outputs := by
    intro outs hfiled
    rw [txsOutputs, List.flatMap_nil, List.append_nil]
    exact hfiled

theorem TxsAdded.cons {tx : Transaction} {txHash : Hash} {txs : List (Hash × Transaction)}
    {db db1 db' : Db} (hhead : TxAdded ops cfg tx txHash db db1) (htail : TxsAdded ops txs db1 db') :
    TxsAdded ops ((txHash, tx) :: txs) db db' := by
  have hkeys : txsKeyImages (((txHash, tx) :: txs).map Prod.snd) =
      keyImages tx.vin.toList ++ txsKeyImages (txs.map Prod.snd) := rfl
  obtain ⟨hnew, hdisjoint⟩ := Finset.disjoint_union_left.mp (hhead.spentKeys ▸ htail.keys_new)
  constructor
  · rw [htail.blocks, hhead.blocks]
  · rw [hkeys]
    exact hhead.keys_nodup.append htail.keys_nodup (List.disjoint_toFinset_iff_disjoint.mp hdisjoint)
  · rw [hkeys, List.toFinset_append]
    exact Finset.disjoint_union_right.mpr ⟨hhead.keys_new, hnew⟩
  · rw [htail.spentKeys, hhead.spentKeys, hkeys, List.toFinset_append, Finset.union_assoc]
  · intro outs hfiled
    have hfiled' := htail.outputs _ (hhead.outputsFiled hfiled)
    have hheight : db1.height = db.height := by rw [Db.height, hhead.blocks, Db.height]
    rw [hheight, List.append_assoc] at hfiled'
    rw [txsOutputs, List.flatMap_cons]
    exact hfiled'

theorem addTransactions_eq_ok {txs : List (Hash × Transaction)} {numRctOuts : UInt64} {db db' : Db}
    (hrestorable : ∀ p ∈ txs, TxRestorable ops cfg p.2)
    (h : addTransactions ops cfg txs db = .ok numRctOuts db') : TxsAdded ops txs db db' := by
  induction txs generalizing numRctOuts db with
  | nil =>
      obtain ⟨-, rfl⟩ := EStateM.Result.ok.inj h
      exact .nil _
  | cons p txs ih =>
      obtain ⟨txHash, tx⟩ := p
      obtain ⟨_, db1, hadd, h1⟩ := bind_eq_ok.mp h
      obtain ⟨n, _, hloop, hpure⟩ := bind_eq_ok.mp h1
      obtain ⟨-, rfl⟩ := EStateM.Result.ok.inj hpure
      have htx : TxRestorable ops cfg tx := hrestorable (txHash, tx) List.mem_cons_self
      exact .cons (addTransaction_eq_ok htx.supported hadd)
        (ih (fun p hmem => hrestorable p (List.mem_cons_of_mem _ hmem)) hloop)

theorem chainOutputs_concat (chain : List ChainEntry) (e : ChainEntry) :
    chainOutputs ops cfg (chain ++ [e]) =
      chainOutputs ops cfg chain ++ txsOutputs ops chain.length (e.hashedTxs ops cfg) := by
  simp [chainOutputs, List.zipIdx_append]

theorem chainKeyImages_concat (chain : List ChainEntry) (e : ChainEntry) :
    chainKeyImages (chain ++ [e]) =
      chainKeyImages chain ++ txsKeyImages (e.block.minerTx :: e.txs) := by
  simp [chainKeyImages]

theorem ChainStored.height {chain : List ChainEntry} {db : Db}
    (h : ChainStored ops cfg chain db) : db.height = chain.length := by
  rw [Db.height, Table.count, h.blocks, indexed_length, List.length_map]

theorem ChainStored.addBlock {chain : List ChainEntry} {b : Block} {m : BlockMeta}
    {txs : List Transaction} {height : ℕ} {db db' : Db} (hstored : ChainStored ops cfg chain db)
    (hrestorable : BlockRestorable ops cfg b txs)
    (h : addBlock ops cfg b m txs db = .ok height db') :
    ChainStored ops cfg (chain ++ [⟨b, txs⟩]) db' := by
  obtain ⟨hsize, numRctOuts, db1, db2, hminer, htxs, hput⟩ := addBlock_eq_ok h
  have hzip : ∀ p ∈ b.txHashes.toList.zip txs, TxRestorable ops cfg p.2 :=
    fun p hmem => hrestorable.txs p.2 (List.of_mem_zip hmem).2
  have hadded := TxsAdded.cons (addTransaction_eq_ok hrestorable.minerTx.supported hminer)
    (addTransactions_eq_ok hzip htxs)
  have hmap : ((getTransactionHash ops cfg b.minerTx, b.minerTx) ::
      b.txHashes.toList.zip txs).map Prod.snd = b.minerTx :: txs := by
    rw [List.map_cons, List.map_snd_zip hsize.ge]
  have hnew := hadded.keys_new
  have hnodup := hadded.keys_nodup
  have hspent := hadded.spentKeys
  rw [hmap] at hnew hnodup hspent
  rw [hstored.spentKeys] at hnew hspent
  have hfiled := hadded.outputs _ hstored.outputs
  rw [hstored.height] at hfiled
  have hheight : db2.height = chain.length := by
    rw [Db.height, hadded.blocks, ← Db.height, hstored.height]
  obtain ⟨-, blocks, blockInfo, cumRct, hblocks, -, rfl⟩ := putBlock_eq_ok hput
  constructor
  · change blocks.entries = _
    rw [Table.entries_append hblocks, hheight, hadded.blocks, hstored.blocks, List.map_append,
      List.map_singleton, indexed_concat, List.length_map]
  · rw [chainKeyImages_concat]
    exact hstored.keys_nodup.append hnodup (List.disjoint_toFinset_iff_disjoint.mp hnew)
  · rw [chainKeyImages_concat, List.toFinset_append]
    exact hspent
  · rw [chainOutputs_concat]
    exact hfiled.congr rfl rfl

/-! ### Runs -/

theorem chainStored_empty : ChainStored ops cfg [] .empty where
  blocks := rfl
  keys_nodup := List.nodup_nil
  spentKeys := rfl
  outputs := ⟨rfl, fun _ => rfl⟩

theorem Built.chainStored {chain : List ChainEntry} {db : Db} (h : Built ops cfg chain db) :
    ChainStored ops cfg chain db := by
  induction h with
  | empty => exact chainStored_empty
  | add _ hrestorable hadd ih => exact ih.addBlock hrestorable hadd

theorem popBlock_empty : popBlock ops cfg .empty = .error
    (.blockDne "Attempting to remove block from an empty blockchain") .empty := rfl

/-- A run with pops ends where the run of the additions that remain ends. -/
theorem Reach.built {chain : List ChainEntry} {db : Db} (h : Reach ops cfg chain db) :
    Built ops cfg chain db := by
  induction h with
  | empty => exact .empty
  | add _ hrestorable hadd ih => exact .add ih hrestorable hadd
  | pop _ hpop ih =>
      cases ih with
      | empty => exact absurd hpop (by simp [popBlock_empty])
      | add hbuilt hrestorable hadd =>
          obtain ⟨popped, hrestore⟩ := popBlock_addBlock hrestorable hadd
          obtain ⟨-, rfl⟩ := EStateM.Result.ok.inj (hrestore.symm.trans hpop)
          rw [List.dropLast_concat]
          exact hbuilt

/-- After any run, popping a block that was just added restores the database, and
the database holds the chain: its blocks, the key images of its inputs, each
spent once, and for every amount its outputs in order with the indices from 0
on. -/
theorem reach_restores_and_stored {chain : List ChainEntry} {db : Db}
    (h : Reach ops cfg chain db) :
    (∀ b m txs height db', BlockRestorable ops cfg b txs →
      addBlock ops cfg b m txs db = .ok height db' →
      ∃ popped, popBlock ops cfg db' = .ok popped db) ∧
    ChainStored ops cfg chain db :=
  ⟨fun _ _ _ _ _ hrestorable hadd => popBlock_addBlock hrestorable hadd, h.built.chainStored⟩

end

/-! ### A block that cannot be popped -/

def firstBlock (minerTx : Transaction) : Block := ⟨⟨1, 0, 0, nullHash, 0⟩, minerTx, .nil⟩

def genMinerTx : Transaction :=
  ⟨⟨1, 0, 60, ⟨[.gen 0], gen_fits⟩,
    ⟨[⟨5, .toKey (List.Vector.replicate 32 0x33)⟩], by decide⟩, .nil⟩, .nil, default, default⟩

/-- A miner transaction with an input of a type that is not supported. -/
def scriptMinerTx : Transaction :=
  ⟨⟨1, 0, 60, ⟨[.toScript nullHash 0 .nil], by decide⟩, .nil, .nil⟩, .nil, default, default⟩

def firstMeta : BlockMeta := ⟨80, 80, 1, 5⟩

def firstBlockHash (m : List UInt8) : Hash :=
  if m = txToBlob currentConfig genMinerTx then
    hashOfNat 0x1f9113c09f412f57298ebdbf3e1839cb0ce47135777192173f34f60b65b1d329
  else if m = blockToBlob currentConfig (firstBlock genMinerTx) then
    hashOfNat 0x2ceae697691ccfa72b10db64c99727e2a8f902d0ee23f19c14e92be239855647
  else if m = txToBlob currentConfig scriptMinerTx then
    hashOfNat 0xb06a61b43ad3a49d31a284920f33a25127b98af91f559ec05988be0fa0c80d9e
  else if m = blockToBlob currentConfig (firstBlock scriptMinerTx) then
    hashOfNat 0x8806fc173b59b0656409bcad033082374467954b88cec37ec8b260b63759401c
  else if m = stringMessage ((saveBlockHeader (firstBlock genMinerTx).toBlockHeader).bytes ++
      (hashOfNat 0x1f9113c09f412f57298ebdbf3e1839cb0ce47135777192173f34f60b65b1d329).val ++ [1]) then
    hashOfNat 0x1cab5434be7f0bb4ef54677c835ce456f609eb679dd170c9ad89adb884e0bc35
  else if m = stringMessage ((saveBlockHeader (firstBlock scriptMinerTx).toBlockHeader).bytes ++
      (hashOfNat 0xb06a61b43ad3a49d31a284920f33a25127b98af91f559ec05988be0fa0c80d9e).val ++ [1]) then
    hashOfNat 0x2ed3521fd64d4caaaee7a0c5c88ecc6a3fae81b5a610e171372ff6cafc2edcb8
  else nullHash

def firstBlockOps : CryptoOps := ⟨firstBlockHash, fun _ => none, fun _ => default⟩

/-- The database after the first block with this miner transaction. -/
def firstDb (minerTx : Transaction) : Db :=
  finalState (addBlock firstBlockOps currentConfig (firstBlock minerTx) firstMeta [] .empty)

/-- The transaction with the unsupported input is not stored, and nothing says
so until the block is popped. -/
theorem scriptBlock_not_popped :
    addBlock firstBlockOps currentConfig (firstBlock scriptMinerTx) firstMeta [] .empty =
      .ok 0 (firstDb scriptMinerTx) ∧
    thrown (popBlock firstBlockOps currentConfig (firstDb scriptMinerTx)) =
      some (.txDne ("tx with hash " ++
        "b06a61b43ad3a49d31a284920f33a25127b98af91f559ec05988be0fa0c80d9e not found in db")) :=
  ⟨eq_ok_of_returned (by decide +kernel), by decide +kernel⟩

/-! ### A chain with a payment -/

def secondMinerTx : Transaction :=
  ⟨⟨1, 0, 61, ⟨[.gen 1], single_fits _⟩, ⟨[⟨5, .toKey (List.Vector.replicate 32 0x35)⟩,
    ⟨7, .toKey (List.Vector.replicate 32 0x36)⟩], pair_fits _ _⟩, .nil⟩, .nil, default, default⟩

/-- A payment of the output of the first block, to an output of the same amount. -/
def secondTx : Transaction :=
  ⟨⟨1, 0, 0, ⟨[.toKey 5 ⟨[0], single_fits _⟩ (List.Vector.replicate 32 0x44)], single_fits _⟩,
    ⟨[⟨5, .toKey (List.Vector.replicate 32 0x37)⟩], single_fits _⟩, .nil⟩,
    ⟨[⟨[List.Vector.replicate 64 0], single_fits _⟩], single_fits _⟩, default, default⟩

def secondMinerId : Hash :=
  hashOfNat 0xb429285eb3fd7bd6831afdaa0c87f1a1aad3dbfc13c23655a662e958b515f8f2

def secondTxId : Hash :=
  hashOfNat 0xde25da78724f5894109359a8bac0ba50e6b05bd58d686ca72a6513e95ecd58dd

def secondRoot : Hash :=
  hashOfNat 0x920206d22f9eb7642a8c0ffe35efb224a5bc3a1fb63a79b730fcacfce129b360

def secondBlock : Block :=
  ⟨⟨1, 0, 60, hashOfNat 0x1cab5434be7f0bb4ef54677c835ce456f609eb679dd170c9ad89adb884e0bc35, 0⟩,
    secondMinerTx, ⟨[secondTxId], single_fits _⟩⟩

def secondHash (m : List UInt8) : Hash :=
  if m = txToBlob currentConfig secondMinerTx then secondMinerId
  else if m = txToBlob currentConfig secondTx then secondTxId
  else if m = secondMinerId.val ++ secondTxId.val then secondRoot
  else if m = blockToBlob currentConfig secondBlock then
    hashOfNat 0xb4d0c63aa7a16fe1ef01fddaf9a81c26072fbeee3dd02c2198cee35d0f75613b
  else if m = stringMessage ((saveBlockHeader secondBlock.toBlockHeader).bytes ++
      secondRoot.val ++ [2]) then
    hashOfNat 0xfc399309d3b0cd860a6ae6feb1658a95c3318cfa447bd37e90e87f19d7c05505
  else firstBlockHash m

def secondOps : CryptoOps := ⟨secondHash, fun _ => none, fun _ => default⟩

def secondMeta : BlockMeta := ⟨220, 220, 2, 12⟩

def oneBlockDb : Db :=
  finalState (addBlock secondOps currentConfig (firstBlock genMinerTx) firstMeta [] .empty)

def twoBlocksDb : Db :=
  finalState (addBlock secondOps currentConfig secondBlock secondMeta [secondTx] oneBlockDb)

theorem restorable_of_single {tx : Transaction} {txin : Txin} (hvin : tx.vin.toList = [txin])
    (hsupported : txin.Supported)
    (hreadable : (parseAndValidateTxFromBlob secondOps currentConfig (txToBlob currentConfig tx)).map
      Transaction.toTransactionPrefix = some tx.toTransactionPrefix)
    (hamounts : ∀ out ∈ tx.vout.toList,
      addedAmount tx.toTransactionPrefix out = removedAmount tx.toTransactionPrefix out) :
    TxRestorable secondOps currentConfig tx where
  supported := by
    intro input hmem
    rw [hvin] at hmem
    rwa [List.mem_singleton.mp hmem]
  readable := hreadable
  amounts := hamounts

theorem firstBlock_restorable :
    BlockRestorable secondOps currentConfig (firstBlock genMinerTx) [] where
  minerTx := restorable_of_single rfl trivial (by decide +kernel) (by decide)
  txs := by simp
  readable := by decide +kernel

theorem secondBlock_restorable :
    BlockRestorable secondOps currentConfig secondBlock [secondTx] where
  minerTx := restorable_of_single rfl trivial (by decide +kernel) (by decide)
  txs := by
    intro tx hmem
    rw [List.mem_singleton.mp hmem]
    exact restorable_of_single rfl trivial (by decide +kernel) (by decide)
  readable := by decide +kernel

/-- The second block is added, popped and added again. -/
theorem reach_restores_and_stored_payment :
    Reach secondOps currentConfig [⟨firstBlock genMinerTx, []⟩, ⟨secondBlock, [secondTx]⟩]
        twoBlocksDb ∧
      (∃ popped, popBlock secondOps currentConfig twoBlocksDb = .ok popped oneBlockDb) ∧
      ChainStored secondOps currentConfig
        [⟨firstBlock genMinerTx, []⟩, ⟨secondBlock, [secondTx]⟩] twoBlocksDb ∧
      twoBlocksDb.spentKeys = {List.Vector.replicate 32 0x44} := by
  have hfirst : addBlock secondOps currentConfig (firstBlock genMinerTx) firstMeta [] .empty =
      .ok 0 oneBlockDb := eq_ok_of_returned (by decide +kernel)
  have hsecond : addBlock secondOps currentConfig secondBlock secondMeta [secondTx] oneBlockDb =
      .ok 1 twoBlocksDb := eq_ok_of_returned (by decide +kernel)
  have hone := Reach.add .empty firstBlock_restorable hfirst
  obtain ⟨popped, hpop⟩ := (reach_restores_and_stored hone).1 _ _ _ _ _ secondBlock_restorable hsecond
  have hpopped := Reach.pop (.add hone secondBlock_restorable hsecond) hpop
  rw [List.dropLast_concat] at hpopped
  have htwo := Reach.add hpopped secondBlock_restorable hsecond
  have hstored := (reach_restores_and_stored htwo).2
  exact ⟨htwo, ⟨popped, hpop⟩, hstored, hstored.spentKeys.trans (by decide)⟩

end XrCoin.BlockchainDb

import XrCoin.Data.Accessing
import XrCoin.Protocol.FluffyBlock
import XrCoin.Wallet.TxCache

/-!
`process_parsed_blocks` on blocks as the daemon sends them, with each of its accesses by index.

The jobs of the thread pool run in order. An exception in one of them does not come back to the
caller: it ends a worker, or the waiter waits for the job for ever. Heights do not wrap. The hashes
of the wallet begin at an offset, which is the same throughout.
-/

namespace XrCoin.Wallet

open Archive Cryptonote Data

structure ParsedBlock where
  hash : Hash
  block : Block
  txes : List Transaction
  oIndices : List (List UInt64)

variable {σ : Type} (ops : ScanOps σ) (cfg : Config) (acc : WalletSettings)

/-! ### Filling the caches -/

def numTxes (parsed : List ParsedBlock) : ℕ := (parsed.map fun b => 1 + b.txes.length).sum

def cacheTxes : List Transaction → ℕ → Accessing (List TxCacheData) Unit
  | [], _ => pure ()
  | tx :: txes, txidx => do
      Accessing.write txidx (cacheTxData acc tx)
      cacheTxes txes (txidx + 1)

def cacheBlocks : List ParsedBlock → ℕ → Accessing (List TxCacheData) Unit
  | [], txidx => do
      let caches ← Accessing.get
      Accessing.throwIf (txidx ≠ caches.length) "txidx does not match tx_cache_data size"
  | b :: parsed, txidx => do
      Accessing.throwIf (b.txes.length ≠ b.block.txHashes.toList.length)
        "Mismatched parsed_blocks[i].txes.size() and parsed_blocks[i].block.tx_hashes.size()"
      Accessing.when (acc.refreshType ≠ .noCoinbase)
        (Accessing.write txidx (cacheTxData acc b.block.minerTx))
      cacheTxes acc b.txes (txidx + 1)
      cacheBlocks parsed (txidx + 1 + b.txes.length)

/-- The loop over the keys for one output. The additional keys go with the first. -/
def genReceived (subaddresses : σ) (nVouts k : ℕ) (key : PublicKey) :
    List IsOutData → List KeyDerivation → Except Stop (List IsOutData)
  | [], _ => .ok []
  | iod :: iods, additional =>
      if iod.received.length ≠ nVouts then .error (.escaped "Unexpected received array size")
      else if iod.received.length ≤ k then .error .outOfRange
      else do
        let iods ← genReceived subaddresses nVouts k key iods []
        .ok ({ iod with
          received := iod.received.set k
            (isOutToAccPrecomp ops subaddresses key iod.derivation additional k) } :: iods)

def geniodOut (subaddresses : σ) (tx : Transaction) (nVouts txidx k : ℕ) :
    Accessing (List TxCacheData) Unit := do
  let out ← Accessing.read tx.vout.toList k
  match out.key? with
  | none => pure ()
  | some key => do
      let caches ← Accessing.get
      let cache ← Accessing.read caches txidx
      let primary ← Accessing.lift (genReceived ops subaddresses nVouts k key cache.primary
        (cache.additional.map IsOutData.derivation))
      Accessing.write txidx { cache with primary := primary }

def geniod (subaddresses : σ) (tx : Transaction) (nVouts txidx : ℕ) :
    Accessing (List TxCacheData) Unit :=
  Accessing.loop (geniodOut ops subaddresses tx nVouts txidx) (List.range nVouts)

def geniodTxes (subaddresses : σ) : List Transaction → ℕ → Accessing (List TxCacheData) Unit
  | [], _ => pure ()
  | tx :: txes, txidx => do
      let caches ← Accessing.get
      Accessing.throwIf (caches.length ≤ txidx) "txidx out of range"
      geniod ops subaddresses tx tx.vout.toList.length txidx
      geniodTxes subaddresses txes (txidx + 1)

def minerVouts (tx : Transaction) : ℕ :=
  if acc.refreshType = .optimizeCoinbase then 1 else tx.vout.toList.length

def geniodMiner (subaddresses : σ) (tx : Transaction) (txidx : ℕ) :
    Accessing (List TxCacheData) Unit := do
  let caches ← Accessing.get
  Accessing.throwIf (caches.length ≤ txidx) "txidx out of range"
  geniod ops subaddresses tx (minerVouts acc tx) txidx

def geniodBlocks (subaddresses : σ) : List ParsedBlock → ℕ → Accessing (List TxCacheData) Unit
  | [], txidx => do
      let caches ← Accessing.get
      Accessing.throwIf (txidx ≠ caches.length) "txidx did not reach expected value"
  | b :: parsed, txidx => do
      Accessing.when (acc.refreshType ≠ .noCoinbase)
        (geniodMiner ops acc subaddresses b.block.minerTx txidx)
      geniodTxes ops subaddresses b.txes (txidx + 1)
      geniodBlocks subaddresses parsed (txidx + 1 + b.txes.length)

def fillCaches (subaddresses : σ) (parsed : List ParsedBlock) :
    Accessing (List TxCacheData) Unit := do
  cacheBlocks acc parsed 0
  Accessing.modify (List.map (TxCacheData.derive ops))
  geniodBlocks ops acc subaddresses parsed 0

/-! ### Processing the blocks -/

/-- The arguments of `process_new_transaction` for a transaction of a block. -/
def entryCall (b : ParsedBlock) (height : UInt64) (minerTx : Bool) (txid : Hash) (tx : Transaction)
    (oIndices : List UInt64) : TxCall where
  txid := txid
  tx := tx
  oIndices := oIndices
  height := height
  ts := b.block.timestamp
  minerTx := minerTx
  pool := false
  doubleSpendSeen := false
  cached := true

def entryMiner (b : ParsedBlock) (height : UInt64) (caches : List TxCacheData) (offset : ℕ) :
    Accessing (ScanWallet σ) Unit := do
  let oIndices ← Accessing.read b.oIndices 0
  let cache ← Accessing.read caches offset
  let txid := getTransactionHash ops.toCryptoOps cfg b.block.minerTx
  Accessing.ofThrowing (processNewTransactionFrom ops acc cache
    (entryCall b height true txid b.block.minerTx oIndices))

def entryTx (b : ParsedBlock) (height : UInt64) (caches : List TxCacheData) (offset idx : ℕ) :
    Accessing (ScanWallet σ) Unit := do
  let txid ← Accessing.read b.block.txHashes.toList idx
  let tx ← Accessing.read b.txes idx
  let oIndices ← Accessing.read b.oIndices (idx + 1)
  let cache ← Accessing.read caches (offset + idx)
  Accessing.ofThrowing (processNewTransactionFrom ops acc cache
    (entryCall b height false txid tx oIndices))

def scansEntry (b : ParsedBlock) (height : UInt64) : Prop :=
  acc.createtime < b.block.timestamp + 60 * 60 * 24 ∧ acc.refreshFromBlockHeight ≤ height

instance (b : ParsedBlock) (height : UInt64) : Decidable (scansEntry acc b height) :=
  inferInstanceAs (Decidable (_ ∧ _))

def processEntryTxs (b : ParsedBlock) (bche : Protocol.BlockCompleteEntry) (height : UInt64)
    (caches : List TxCacheData) (offset : ℕ) : Accessing (ScanWallet σ) Unit := do
  Accessing.when (acc.refreshType ≠ .noCoinbase) (entryMiner ops cfg acc b height caches offset)
  Accessing.throwIf (bche.txs.length ≠ b.block.txHashes.toList.length)
    "Wrong amount of transactions for block"
  Accessing.throwIf (bche.txs.length ≠ b.txes.length) "Wrong amount of transactions for block"
  Accessing.loop (entryTx ops acc b height caches (offset + 1))
    (List.range b.block.txHashes.toList.length)
  Accessing.modify fun w => { w with lastBlockReward := outsMoney b.block.minerTx }

def processNewBlockchainEntryFrom (b : ParsedBlock) (bche : Protocol.BlockCompleteEntry)
    (height : UInt64) (caches : List TxCacheData) (offset : ℕ) :
    Accessing (ScanWallet σ) Unit := do
  Accessing.throwIf (bche.txs.length + 1 ≠ b.oIndices.length)
    "block transactions not match with daemon response size"
  Accessing.when (scansEntry acc b height)
    (processEntryTxs ops cfg acc b bche height caches offset)
  Accessing.modify fun w => { w with blockchain := w.blockchain ++ [b.hash] }

def isInBounds (chainOffset : ℕ) (w : ScanWallet σ) (idx : ℕ) : Prop :=
  chainOffset ≤ idx ∧ idx < w.blockchain.length + chainOffset

instance (chainOffset : ℕ) (w : ScanWallet σ) (idx : ℕ) : Decidable (isInBounds chainOffset w idx) :=
  inferInstanceAs (Decidable (_ ∧ _))

/-- `detach_blockchain` of a wallet whose hashes begin at an offset. -/
def detachFrom (chainOffset height : ℕ) : Throwing (ScanWallet σ) Unit := do
  let w ← Throwing.get
  Throwing.throwIf (height < chainOffset ∧ w.blockchain ≠ [])
    "Daemon claims reorg below last checkpoint"
  detachBlockchain (UInt64.ofNat height)
  Throwing.modify fun w' => { w' with blockchain := crop w.blockchain (height - chainOffset) }

def processBlocksFrom (chainOffset startHeight : ℕ) (caches : List TxCacheData) :
    List (Protocol.BlockCompleteEntry × ParsedBlock) → ℕ → ℕ → ℕ → Accessing (ScanWallet σ) ℕ
  | [], _, _, blocksAdded => pure blocksAdded
  | (bche, b) :: blocks, current, offset, blocksAdded => do
      let entry :=
        processNewBlockchainEntryFrom ops cfg acc b bche (UInt64.ofNat current) caches offset
      let next := processBlocksFrom chainOffset startHeight caches blocks (current + 1)
        (offset + (1 + b.txes.length))
      let w ← Accessing.get
      if w.blockchain.length + chainOffset ≤ current then do
        entry
        next (blocksAdded + 1)
      else do
        let known ← Accessing.read w.blockchain (current - chainOffset)
        Accessing.when (b.hash ≠ known) do
          Accessing.throwIf (current = startHeight)
            "wrong daemon response: split starts from the first block in response"
          Accessing.ofThrowing (detachFrom chainOffset current)
          entry
        next blocksAdded

def processParsedBlocks (chainOffset startHeight : ℕ) (blocks : List Protocol.BlockCompleteEntry)
    (parsed : List ParsedBlock) : Accessing (ScanWallet σ) ℕ := do
  Accessing.throwIf (blocks.length ≠ parsed.length) "size mismatch"
  let w ← Accessing.get
  Accessing.throwIf (¬isInBounds chainOffset w startHeight) "out_of_hashchain_bounds_error"
  let caches ← Accessing.locally (fillCaches ops acc w.subaddresses parsed)
    (List.replicate (numTxes parsed) .empty)
  processBlocksFrom ops cfg acc chainOffset startHeight caches (blocks.zip parsed) startHeight 0 0

/-! ### The filled caches -/

def blockCaches (b : ParsedBlock) : List TxCacheData :=
  (if acc.refreshType = .noCoinbase then .empty else cacheTxData acc b.block.minerTx) ::
    b.txes.map (cacheTxData acc)

def TxCacheData.sizes (cache : TxCacheData) : List ℕ :=
  cache.primary.map fun iod => iod.received.length

def ParsedBlock.Matched (b : ParsedBlock) : Prop :=
  b.txes.length = b.block.txHashes.toList.length

theorem length_blockCaches (b : ParsedBlock) :
    (blockCaches acc b).length = 1 + b.txes.length := by
  rw [blockCaches, List.length_cons, List.length_map, Nat.add_comm]

theorem numTxes_cons (b : ParsedBlock) (parsed : List ParsedBlock) :
    numTxes (b :: parsed) = 1 + b.txes.length + numTxes parsed := rfl

theorem write_append {α : Type} (done rest : List α) (old new : α) :
    Accessing.write done.length new (done ++ old :: rest) = (.ok (), done ++ new :: rest) := by
  rw [Accessing.write_of_lt (by simp), List.set_append_right _ _ (le_refl _), Nat.sub_self,
    List.set_cons_zero]

theorem cacheTxes_spec (txes : List Transaction) (done rest : List TxCacheData) {txidx : ℕ}
    (htxidx : txidx = done.length) :
    cacheTxes acc txes txidx (done ++ (List.replicate txes.length .empty ++ rest)) =
      (.ok (), done ++ (txes.map (cacheTxData acc) ++ rest)) := by
  induction txes generalizing done txidx with
  | nil => rfl
  | cons tx txes ih =>
      subst htxidx
      have hnext := ih (done ++ [cacheTxData acc tx]) (List.length_append ..).symm
      rw [List.append_assoc, List.append_assoc] at hnext
      rw [cacheTxes, List.length_cons, List.replicate_succ, List.cons_append,
        Accessing.bind_of_ok (write_append ..)]
      exact hnext

theorem cacheMiner_spec (tx : Transaction) (done rest : List TxCacheData) :
    Accessing.when (acc.refreshType ≠ .noCoinbase)
        (Accessing.write done.length (cacheTxData acc tx)) (done ++ .empty :: rest) =
      (.ok (), done ++
        (if acc.refreshType = .noCoinbase then .empty else cacheTxData acc tx) :: rest) := by
  by_cases hskip : acc.refreshType = .noCoinbase
  · rw [Accessing.when, if_neg (not_not.mpr hskip), if_pos hskip]
    rfl
  · rw [Accessing.when, if_pos hskip, if_neg hskip]
    exact write_append ..

theorem cacheBlocks_cons {b : ParsedBlock} (hmatched : b.Matched) (parsed : List ParsedBlock)
    (done : List TxCacheData) :
    cacheBlocks acc (b :: parsed) done.length
        (done ++ List.replicate (numTxes (b :: parsed)) .empty) =
      cacheBlocks acc parsed (done ++ blockCaches acc b).length
        ((done ++ blockCaches acc b) ++ List.replicate (numTxes parsed) .empty) := by
  have hmatch : ¬b.txes.length ≠ b.block.txHashes.toList.length := not_not.mpr hmatched
  have hempty : List.replicate (numTxes (b :: parsed)) TxCacheData.empty =
      .empty :: (List.replicate b.txes.length .empty ++
        List.replicate (numTxes parsed) .empty) := by
    rw [numTxes_cons, List.replicate_add, List.replicate_add]
    rfl
  have hcaches := cacheTxes_spec acc b.txes
    (done ++ [if acc.refreshType = .noCoinbase then .empty else cacheTxData acc b.block.minerTx])
    (List.replicate (numTxes parsed) .empty) (List.length_append ..).symm
  simp only [List.append_assoc, List.cons_append, List.nil_append, List.length_singleton] at hcaches
  rw [cacheBlocks, Accessing.throwIf_bind_of_not hmatch, hempty,
    Accessing.bind_of_ok (cacheMiner_spec ..), Accessing.bind_of_ok hcaches, List.length_append,
    length_blockCaches, Nat.add_assoc, List.append_assoc]
  rfl

theorem cacheBlocks_of_matched {parsed : List ParsedBlock} (hmatched : ∀ b ∈ parsed, b.Matched)
    (done : List TxCacheData) :
    cacheBlocks acc parsed done.length (done ++ List.replicate (numTxes parsed) .empty) =
      (.ok (), done ++ parsed.flatMap (blockCaches acc)) := by
  induction parsed generalizing done with
  | nil =>
      rw [cacheBlocks, Accessing.get_bind, Accessing.throwIf, if_neg (by simp [numTxes])]
      rfl
  | cons b parsed ih =>
      rw [List.forall_mem_cons] at hmatched
      rw [cacheBlocks_cons acc hmatched.1, ih hmatched.2, List.append_assoc, List.flatMap_cons]

theorem cacheBlocks_of_not_matched {parsed : List ParsedBlock}
    (hmatched : ¬∀ b ∈ parsed, b.Matched) (done : List TxCacheData) :
    Accessing.Inside (cacheBlocks acc parsed done.length)
        (done ++ List.replicate (numTxes parsed) .empty) ∧
      ∀ u caches, cacheBlocks acc parsed done.length
        (done ++ List.replicate (numTxes parsed) .empty) ≠ (.ok u, caches) := by
  induction parsed generalizing done with
  | nil => exact absurd (List.forall_mem_nil _) hmatched
  | cons b parsed ih =>
      by_cases hfirst : b.Matched
      · rw [List.forall_mem_cons, not_and] at hmatched
        rw [Accessing.Inside, cacheBlocks_cons acc hfirst]
        exact ih (hmatched hfirst) (done ++ blockCaches acc b)
      · have hother : b.txes.length ≠ b.block.txHashes.toList.length := hfirst
        refine ⟨?_, fun u caches hok => ?_⟩
        · rw [cacheBlocks]
          exact Accessing.inside_of_thrown (Accessing.throwIf_bind_of hother)
        · rw [cacheBlocks, Accessing.throwIf_bind_of hother] at hok
          cases hok

/-! ### What the filling leaves as it is -/

/-- An entry with nothing received. -/
def IsOutData.blank (iod : IsOutData) : IsOutData :=
  { iod with received := List.replicate iod.received.length none }

def TxCacheData.blank (cache : TxCacheData) : TxCacheData :=
  { cache with primary := cache.primary.map IsOutData.blank }

def builtCaches (b : ParsedBlock) : List TxCacheData :=
  (if acc.refreshType = .noCoinbase then .empty else builtCache ops acc b.block.minerTx) ::
    b.txes.map (builtCache ops acc)

variable {ops acc}

theorem derive_blockCaches (b : ParsedBlock) :
    (blockCaches acc b).map (TxCacheData.derive ops) = builtCaches ops acc b := by
  rw [blockCaches, builtCaches, List.map_cons, List.map_map, apply_ite (TxCacheData.derive ops)]
  rfl

theorem length_builtCaches (b : ParsedBlock) :
    (builtCaches ops acc b).length = 1 + b.txes.length := by
  rw [← derive_blockCaches, List.length_map, length_blockCaches]

@[simp] theorem sizes_blank (cache : TxCacheData) : cache.blank.sizes = cache.sizes := by
  simp [TxCacheData.sizes, TxCacheData.blank, IsOutData.blank]

theorem sizes_builtCache (tx : Transaction) :
    (builtCache ops acc tx).sizes = (cacheTxData acc tx).sizes := by
  rw [TxCacheData.sizes, TxCacheData.sizes, builtCache, TxCacheData.derive, List.map_map]
  rfl

theorem blank_builtCache (tx : Transaction) :
    (builtCache ops acc tx).blank = builtCache ops acc tx := by
  simp only [builtCache, TxCacheData.derive, TxCacheData.blank, cacheTxData]
  split_ifs
  · rfl
  · simp [IsOutData.blank, IsOutData.derive, newOutData]
  · rfl

theorem blank_builtCaches (b : ParsedBlock) :
    (builtCaches ops acc b).map TxCacheData.blank = builtCaches ops acc b := by
  rw [builtCaches, List.map_cons, List.map_map]
  congr 1
  · split_ifs
    · rfl
    · exact blank_builtCache _
  · exact List.map_congr_left fun tx _ => blank_builtCache tx

/-- But for what is received these are the caches. -/
def Filled (built caches : List TxCacheData) : Prop := caches.map TxCacheData.blank = built

/-- The output exists, and if it is to a key the `received` of all keys are as long. -/
def OutFits (sizes : List ℕ) (tx : Transaction) (nVouts k : ℕ) : Prop :=
  ∃ out, tx.vout.toList[k]? = some out ∧ (out.key? ≠ none → ∀ n ∈ sizes, n = nVouts)

theorem genReceived_of_fits {subaddresses : σ} {nVouts k : ℕ} {key : PublicKey}
    {iods : List IsOutData} (hk : k < nVouts) (h : ∀ iod ∈ iods, iod.received.length = nVouts)
    (additional : List KeyDerivation) :
    ∃ iods', genReceived ops subaddresses nVouts k key iods additional = .ok iods' ∧
      iods'.map IsOutData.blank = iods.map IsOutData.blank := by
  induction iods generalizing additional with
  | nil => exact ⟨[], rfl, rfl⟩
  | cons iod iods ih =>
      rw [List.forall_mem_cons] at h
      obtain ⟨iods', hok, hblank⟩ := ih h.2 []
      rw [genReceived, if_neg (not_not.mpr h.1), if_neg (by omega), hok]
      refine ⟨_, rfl, ?_⟩
      rw [List.map_cons, List.map_cons, hblank, IsOutData.blank, IsOutData.blank, List.length_set]

theorem genReceived_of_other {subaddresses : σ} {nVouts k : ℕ} {key : PublicKey}
    {iods : List IsOutData} (hk : k < nVouts) (h : ¬∀ iod ∈ iods, iod.received.length = nVouts)
    (additional : List KeyDerivation) :
    genReceived ops subaddresses nVouts k key iods additional =
      .error (.escaped "Unexpected received array size") := by
  induction iods generalizing additional with
  | nil => exact absurd (List.forall_mem_nil _) h
  | cons iod iods ih =>
      rw [genReceived]
      by_cases hfirst : iod.received.length = nVouts
      · rw [List.forall_mem_cons, not_and] at h
        rw [if_neg (not_not.mpr hfirst), if_neg (by omega), ih (h hfirst)]
        rfl
      · rw [if_pos hfirst]

theorem Filled.exists_slot {built caches : List TxCacheData} {slot : TxCacheData} {txidx : ℕ}
    (h : Filled built caches) (hslot : built[txidx]? = some slot) :
    ∃ cache, caches[txidx]? = some cache ∧ cache.blank = slot := by
  rw [← h, List.getElem?_map, Option.map_eq_some_iff] at hslot
  exact hslot

theorem Filled.set {built caches : List TxCacheData} {cache : TxCacheData} {txidx : ℕ}
    (h : Filled built caches) (hcache : built[txidx]? = some cache.blank) :
    Filled built (caches.set txidx cache) := by
  rw [Filled, List.map_set, h]
  obtain ⟨hlt, hget⟩ := List.getElem?_eq_some_iff.mp hcache
  rw [← hget, List.set_getElem_self]

theorem Filled.lt {built caches : List TxCacheData} {slot : TxCacheData} {txidx : ℕ}
    (h : Filled built caches) (hslot : built[txidx]? = some slot) : ¬caches.length ≤ txidx := by
  obtain ⟨cache, hcache, -⟩ := h.exists_slot hslot
  exact not_le.mpr (List.getElem?_eq_some_iff.mp hcache).1

theorem geniodOut_of_key {subaddresses : σ} {tx : Transaction} {nVouts txidx k : ℕ} {out : TxOut}
    {key : PublicKey} {caches : List TxCacheData} {cache : TxCacheData}
    (hout : tx.vout.toList[k]? = some out) (hkey : out.key? = some key)
    (hcache : caches[txidx]? = some cache) :
    geniodOut ops subaddresses tx nVouts txidx k caches =
      (Accessing.lift (genReceived ops subaddresses nVouts k key cache.primary
          (cache.additional.map IsOutData.derivation)) >>= fun primary =>
        Accessing.write txidx { cache with primary := primary }) caches := by
  rw [geniodOut, Accessing.read_bind_of_some hout, hkey]
  show (Accessing.get >>= _) caches = _
  rw [Accessing.get_bind, Accessing.read_bind_of_some hcache]

/-- One output is inside exactly if it exists and the keys agree on the number of outputs. -/
theorem decides_geniodOut {built : List TxCacheData} {slot : TxCacheData} {txidx nVouts k : ℕ}
    (hslot : built[txidx]? = some slot) (hk : k < nVouts) (subaddresses : σ) (tx : Transaction) :
    Accessing.Decides (Filled built) (OutFits slot.sizes tx nVouts k)
      (geniodOut ops subaddresses tx nVouts txidx k) where
  returns := by
    rintro ⟨out, hout, hfits⟩ caches hfilled
    obtain ⟨cache, hcache, rfl⟩ := hfilled.exists_slot hslot
    rw [sizes_blank] at hfits
    cases hkey : out.key? with
    | none =>
        refine ⟨caches, ?_, hfilled⟩
        rw [geniodOut, Accessing.read_bind_of_some hout, hkey]
        rfl
    | some key =>
        have hsizes := hfits (by rw [hkey]; exact Option.some_ne_none key)
        obtain ⟨primary, hprimary, hsame⟩ := genReceived_of_fits hk
          (List.forall_mem_map.mp hsizes) (cache.additional.map IsOutData.derivation)
        refine ⟨caches.set txidx { cache with primary := primary }, ?_, hfilled.set ?_⟩
        · rw [geniodOut_of_key hout hkey hcache, hprimary]
          exact Accessing.write_of_lt (List.getElem?_eq_some_iff.mp hcache).1
        · rw [hslot, TxCacheData.blank, TxCacheData.blank, hsame]
  leaves := by
    intro hother caches hfilled
    obtain ⟨cache, hcache, rfl⟩ := hfilled.exists_slot hslot
    rw [sizes_blank] at hother
    cases hout : tx.vout.toList[k]? with
    | none =>
        have hstop : geniodOut ops subaddresses tx nVouts txidx k caches =
            (.error .outOfRange, caches) := by
          rw [geniodOut, Accessing.read_bind_of_none hout]
        exact Accessing.not_inside_of_error hstop fun message h => by cases h
    | some out =>
        cases hkey : out.key? with
        | none => exact absurd ⟨out, hout, fun hsome => absurd hkey hsome⟩ hother
        | some key =>
            have hsizes : ¬∀ iod ∈ cache.primary, iod.received.length = nVouts :=
              fun h => hother ⟨out, hout, fun _ => List.forall_mem_map.mpr h⟩
            have hstop : geniodOut ops subaddresses tx nVouts txidx k caches =
                (.error (.escaped "Unexpected received array size"), caches) := by
              rw [geniodOut_of_key hout hkey hcache, genReceived_of_other hk hsizes]
              rfl
            exact Accessing.not_inside_of_error hstop fun message h => by cases h

def JobFits (sizes : List ℕ) (tx : Transaction) (nVouts : ℕ) : Prop :=
  ∀ k < nVouts, OutFits sizes tx nVouts k

theorem decides_geniod {built : List TxCacheData} {slot : TxCacheData} {txidx : ℕ}
    (hslot : built[txidx]? = some slot) (subaddresses : σ) (tx : Transaction) (nVouts : ℕ) :
    Accessing.Decides (Filled built) (JobFits slot.sizes tx nVouts)
      (geniod ops subaddresses tx nVouts txidx) := by
  have hloop : Accessing.Decides (Filled built)
      (∀ k ∈ List.range nVouts, OutFits slot.sizes tx nVouts k)
      (geniod ops subaddresses tx nVouts txidx) :=
    Accessing.Decides.loop fun k hk =>
      decides_geniodOut hslot (List.mem_range.mp hk) subaddresses tx
  refine hloop.of_iff ?_
  simp only [List.mem_range, JobFits]

def BlockJobsFit (acc : WalletSettings) (b : ParsedBlock) : Prop :=
  (acc.refreshType ≠ .noCoinbase →
      JobFits (cacheTxData acc b.block.minerTx).sizes b.block.minerTx
        (minerVouts acc b.block.minerTx)) ∧
    ∀ tx ∈ b.txes, JobFits (cacheTxData acc tx).sizes tx tx.vout.toList.length

theorem decides_geniodTxes (subaddresses : σ) {built done rest : List TxCacheData}
    {txes : List Transaction} (hbuilt : built = done ++ txes.map (builtCache ops acc) ++ rest)
    {txidx : ℕ} (htxidx : txidx = done.length) :
    Accessing.Decides (Filled built)
      (∀ tx ∈ txes, JobFits (cacheTxData acc tx).sizes tx tx.vout.toList.length)
      (geniodTxes ops subaddresses txes txidx) := by
  induction txes generalizing done txidx with
  | nil => exact Accessing.decides_pure.of_iff (iff_of_true trivial (List.forall_mem_nil _))
  | cons tx txes ih =>
      have hslot : built[txidx]? = some (builtCache ops acc tx) := by
        rw [hbuilt, htxidx]
        simp
      have hsplit : built = (done ++ [builtCache ops acc tx]) ++ txes.map (builtCache ops acc) ++
          rest := by
        simp [hbuilt]
      have hfirst : Accessing.Decides (Filled built)
          (JobFits (builtCache ops acc tx).sizes tx tx.vout.toList.length)
          (geniod ops subaddresses tx tx.vout.toList.length txidx) :=
        decides_geniod hslot subaddresses tx _
      rw [sizes_builtCache] at hfirst
      have hnext : txidx + 1 = (done ++ [builtCache ops acc tx]).length := by simp [htxidx]
      have hrest := ih hsplit hnext
      refine ((hfirst.bind hrest).guarded fun caches h => h.lt hslot).of_iff ?_
      rw [List.forall_mem_cons]

theorem decides_geniodMiner (subaddresses : σ) {built : List TxCacheData} {slot : TxCacheData}
    {txidx : ℕ} (hslot : built[txidx]? = some slot) (tx : Transaction) :
    Accessing.Decides (Filled built) (JobFits slot.sizes tx (minerVouts acc tx))
      (geniodMiner ops acc subaddresses tx txidx) :=
  (decides_geniod hslot subaddresses tx _).guarded fun _ h => h.lt hslot

/-- All jobs are inside exactly if those of each block are. -/
theorem decides_geniodBlocks (subaddresses : σ) {built done : List TxCacheData}
    {parsed : List ParsedBlock}
    (hbuilt : built = done ++ parsed.flatMap (builtCaches ops acc)) {txidx : ℕ}
    (htxidx : txidx = done.length) :
    Accessing.Decides (Filled built) (∀ b ∈ parsed, BlockJobsFit acc b)
      (geniodBlocks ops acc subaddresses parsed txidx) := by
  induction parsed generalizing done txidx with
  | nil =>
      have hlength : ∀ caches, Filled built caches → ¬txidx ≠ caches.length := by
        intro caches hfilled
        have hcount := congrArg List.length (hfilled.trans hbuilt)
        rw [List.length_map, List.flatMap_nil, List.append_nil] at hcount
        exact not_not.mpr (htxidx.trans hcount.symm)
      exact (Accessing.decides_checked hlength).of_iff
        (iff_of_true trivial (List.forall_mem_nil _))
  | cons b parsed ih =>
      subst htxidx
      let first : TxCacheData :=
        if acc.refreshType = .noCoinbase then .empty else builtCache ops acc b.block.minerTx
      have hsplit : built = done ++ first ::
          (b.txes.map (builtCache ops acc) ++ parsed.flatMap (builtCaches ops acc)) := hbuilt
      have hslot : built[done.length]? = some first := by
        rw [hsplit]
        simp
      have hminer : Accessing.Decides (Filled built)
          (acc.refreshType ≠ .noCoinbase → JobFits (cacheTxData acc b.block.minerTx).sizes
            b.block.minerTx (minerVouts acc b.block.minerTx))
          (Accessing.when (acc.refreshType ≠ .noCoinbase)
            (geniodMiner ops acc subaddresses b.block.minerTx done.length)) := by
        refine Accessing.Decides.when fun hmade => ?_
        rw [show first = builtCache ops acc b.block.minerTx from if_neg hmade] at hslot
        have hjob : Accessing.Decides _ _ (geniodMiner ops acc subaddresses _ done.length) :=
          decides_geniodMiner subaddresses hslot b.block.minerTx
        rwa [sizes_builtCache] at hjob
      have htxes : Accessing.Decides (Filled built)
          (∀ tx ∈ b.txes, JobFits (cacheTxData acc tx).sizes tx tx.vout.toList.length)
          (geniodTxes ops subaddresses b.txes (done.length + 1)) := by
        have hparts : built = (done ++ [first]) ++ b.txes.map (builtCache ops acc) ++
            parsed.flatMap (builtCaches ops acc) := by
          rw [hsplit]
          simp
        exact decides_geniodTxes subaddresses hparts (by simp)
      have hrest : Accessing.Decides (Filled built) (∀ b ∈ parsed, BlockJobsFit acc b)
          (geniodBlocks ops acc subaddresses parsed (done.length + 1 + b.txes.length)) := by
        have hparts : built = (done ++ builtCaches ops acc b) ++
            parsed.flatMap (builtCaches ops acc) := by
          rw [hbuilt, List.flatMap_cons, List.append_assoc]
        refine ih hparts ?_
        rw [List.length_append, length_builtCaches, Nat.add_assoc]
      refine (hminer.bind (htxes.bind hrest)).of_iff ?_
      rw [List.forall_mem_cons, BlockJobsFit, and_assoc]

/-! ### The filling as a whole -/

theorem filled_builtCaches (parsed : List ParsedBlock) :
    Filled (parsed.flatMap (builtCaches ops acc))
      ((parsed.flatMap (blockCaches acc)).map (TxCacheData.derive ops)) := by
  rw [Filled, List.map_flatMap, List.map_flatMap]
  simp only [derive_blockCaches, blank_builtCaches]

theorem fillCaches_of_matched {parsed : List ParsedBlock} (hmatched : ∀ b ∈ parsed, b.Matched)
    (subaddresses : σ) :
    fillCaches ops acc subaddresses parsed (List.replicate (numTxes parsed) .empty) =
      geniodBlocks ops acc subaddresses parsed 0
        ((parsed.flatMap (blockCaches acc)).map (TxCacheData.derive ops)) := by
  have hcaches : cacheBlocks acc parsed 0 (List.replicate (numTxes parsed) .empty) =
      (.ok (), parsed.flatMap (blockCaches acc)) := cacheBlocks_of_matched acc hmatched []
  rw [fillCaches, Accessing.bind_of_ok hcaches, Accessing.modify_bind]

theorem decides_geniodBlocks_all (subaddresses : σ) (parsed : List ParsedBlock) :
    Accessing.Decides (Filled (parsed.flatMap (builtCaches ops acc)))
      (∀ b ∈ parsed, BlockJobsFit acc b) (geniodBlocks ops acc subaddresses parsed 0) :=
  decides_geniodBlocks subaddresses (List.nil_append _).symm List.length_nil.symm

theorem inside_fillCaches_iff (subaddresses : σ) (parsed : List ParsedBlock) :
    Accessing.Inside (fillCaches ops acc subaddresses parsed)
        (List.replicate (numTxes parsed) .empty) ↔
      ((∀ b ∈ parsed, b.Matched) → ∀ b ∈ parsed, BlockJobsFit acc b) := by
  by_cases hmatched : ∀ b ∈ parsed, b.Matched
  · rw [Accessing.Inside, fillCaches_of_matched hmatched]
    exact ((decides_geniodBlocks_all subaddresses parsed).inside_iff
      (filled_builtCaches parsed)).trans ⟨fun h _ => h, fun h => h hmatched⟩
  · obtain ⟨hinside, hstops⟩ := cacheBlocks_of_not_matched acc hmatched []
    refine iff_of_true ?_ fun h => absurd h hmatched
    rw [fillCaches, Accessing.inside_bind_iff]
    exact ⟨hinside, fun u caches hok => absurd hok (hstops u caches)⟩

/-- What it leaves are the built caches of the blocks in order. -/
theorem fillCaches_eq_ok {subaddresses : σ} {parsed : List ParsedBlock} {u : Unit}
    {caches : List TxCacheData}
    (h : fillCaches ops acc subaddresses parsed (List.replicate (numTxes parsed) .empty) =
      (.ok u, caches)) : Filled (parsed.flatMap (builtCaches ops acc)) caches := by
  have hmatched : ∀ b ∈ parsed, b.Matched := by
    by_contra hother
    obtain ⟨_, caches', hok, -⟩ := Accessing.exists_of_bind_eq_ok h
    exact (cacheBlocks_of_not_matched acc hother []).2 _ caches' hok
  rw [fillCaches_of_matched hmatched] at h
  have hjobs : Accessing.Decides _ _ (geniodBlocks ops acc subaddresses parsed 0) :=
    decides_geniodBlocks_all subaddresses parsed
  have hfit := (hjobs.inside_iff (filled_builtCaches parsed)).mp (Accessing.inside_of_ok h)
  obtain ⟨caches', hok, hfilled⟩ := hjobs.returns hfit _ (filled_builtCaches parsed)
  cases h.symm.trans hok
  exact hfilled

theorem Filled.length_eq {parsed : List ParsedBlock} {caches : List TxCacheData}
    (h : Filled (parsed.flatMap (builtCaches ops acc)) caches) :
    caches.length = numTxes parsed := by
  have hlength := congrArg List.length h
  rw [List.length_map, List.length_flatMap] at hlength
  simpa only [length_builtCaches, numTxes] using hlength

/-! ### The caches that the transactions are scanned with -/

theorem processNewTransactionFrom_blank (cache : TxCacheData) (call : TxCall) :
    processNewTransactionFrom ops acc cache.blank call =
      processNewTransactionFrom ops acc cache call := by
  have hfields : cache.blank.fields call.tx = cache.fields call.tx := rfl
  have hderivations : cache.blank.derivations ops call.tx = cache.derivations ops call.tx := by
    funext key
    simp only [TxCacheData.derivations, TxCacheData.blank, List.getElem?_map, List.isEmpty_map]
    cases cache.primary[key.2]? with
    | none => rfl
    | some iod => rfl
  have hkey : receiveKeyFrom ops acc cache.blank call = receiveKeyFrom ops acc cache call := by
    funext l key
    rw [receiveKeyFrom, receiveKeyFrom, hderivations]
  rw [processNewTransactionFrom, processNewTransactionFrom, receiveOutputsFrom,
    receiveOutputsFrom, hkey, hfields]

theorem Filled.processNewTransactionFrom_eq {built caches : List TxCacheData}
    {slot : TxCacheData} {txidx : ℕ} (h : Filled built caches) (hslot : built[txidx]? = some slot) :
    ∃ cache, caches[txidx]? = some cache ∧ ∀ call,
      processNewTransactionFrom ops acc cache call =
        processNewTransactionFrom ops acc slot call := by
  obtain ⟨cache, hcache, rfl⟩ := h.exists_slot hslot
  exact ⟨cache, hcache, fun call => (processNewTransactionFrom_blank cache call).symm⟩

theorem getElem?_builtCaches (before after : List ParsedBlock) (b : ParsedBlock) {i : ℕ}
    (hi : i < 1 + b.txes.length) :
    ((before ++ b :: after).flatMap (builtCaches ops acc))[numTxes before + i]? =
      (builtCaches ops acc b)[i]? := by
  have hlength : (before.flatMap (builtCaches ops acc)).length = numTxes before := by
    rw [List.length_flatMap, numTxes]
    simp only [length_builtCaches]
  rw [List.flatMap_append, List.flatMap_cons, ← hlength, List.getElem?_append_right (by omega),
    Nat.add_sub_cancel_left, List.getElem?_append_left (by rw [length_builtCaches]; exact hi)]

/-- The offset of a transaction in a block is that of the cache that was built for it. -/
theorem Filled.scans_tx {before after : List ParsedBlock} {b : ParsedBlock}
    {caches : List TxCacheData}
    (h : Filled ((before ++ b :: after).flatMap (builtCaches ops acc)) caches) {idx : ℕ}
    {tx : Transaction} (htx : b.txes[idx]? = some tx) :
    ∃ cache, caches[numTxes before + 1 + idx]? = some cache ∧ ∀ call,
      processNewTransactionFrom ops acc cache call =
        processNewTransactionFrom ops acc (builtCache ops acc tx) call := by
  have hlt := (List.getElem?_eq_some_iff.mp htx).1
  refine h.processNewTransactionFrom_eq ?_
  rw [Nat.add_assoc, getElem?_builtCaches before after b (by omega), Nat.add_comm 1,
    builtCaches, List.getElem?_cons_succ, List.getElem?_map, htx]
  rfl

theorem Filled.scans_miner {before after : List ParsedBlock} {b : ParsedBlock}
    {caches : List TxCacheData}
    (h : Filled ((before ++ b :: after).flatMap (builtCaches ops acc)) caches)
    (hscanned : acc.refreshType ≠ .noCoinbase) :
    ∃ cache, caches[numTxes before]? = some cache ∧ ∀ call,
      processNewTransactionFrom ops acc cache call =
        processNewTransactionFrom ops acc (builtCache ops acc b.block.minerTx) call := by
  refine h.processNewTransactionFrom_eq ?_
  have hslot : ((before ++ b :: after).flatMap (builtCaches ops acc))[numTxes before + 0]? =
      (builtCaches ops acc b)[0]? := getElem?_builtCaches before after b (by omega)
  rw [Nat.add_zero, builtCaches, List.getElem?_cons_zero, if_neg hscanned] at hslot
  exact hslot

/-! ### Which jobs stay inside -/

def HasTxKeys (tx : Transaction) : Prop :=
  (parseTxExtra tx.extra.toList).2 = true ∧ txPubKeys tx ≠ []

/-- A miner transaction whose first output is looked at. -/
def MinerFits (tx : Transaction) : Prop :=
  ∃ out, tx.vout.toList[0]? = some out ∧
    (isMiner tx = true ∨ tx.vout.toList.length = 1 ∨ out.key? = none ∨ ¬HasTxKeys tx)

def TxFits (tx : Transaction) : Prop :=
  isMiner tx = false ∨ tx.vout.toList.length = 1 ∨ (∀ out ∈ tx.vout.toList, out.key? = none) ∨
    ¬HasTxKeys tx

theorem mem_sizes_cacheTxData {tx : Transaction} {n : ℕ}
    (h : n ∈ (cacheTxData acc tx).sizes) : n = recSize acc tx ∧ HasTxKeys tx := by
  simp only [TxCacheData.sizes, cacheTxData] at h
  split_ifs at h with hparse hlooked
  · cases h
  · simp only [List.map_map, List.mem_map, Function.comp_apply, newOutData,
      List.length_replicate] at h
    obtain ⟨key, hkey, rfl⟩ := h
    exact ⟨rfl, by simpa using hparse, List.ne_nil_of_mem hkey⟩
  · cases h

theorem recSize_mem_sizes {tx : Transaction} (hkeys : HasTxKeys tx)
    (hlooked : acc.refreshType ≠ .noCoinbase) (hvout : tx.vout.toList ≠ []) :
    recSize acc tx ∈ (cacheTxData acc tx).sizes := by
  obtain ⟨hparse, hpub⟩ := hkeys
  obtain ⟨key, hkey⟩ := List.exists_mem_of_ne_nil _ hpub
  simp only [TxCacheData.sizes, cacheTxData]
  rw [if_neg (by simp [hparse]), if_pos ⟨.inr hlooked, hvout⟩]
  simp only [List.map_map, List.mem_map, Function.comp_apply, newOutData, List.length_replicate]
  exact ⟨key, hkey, trivial⟩

theorem jobFits_of_recSize {tx : Transaction} (h : recSize acc tx = tx.vout.toList.length) :
    JobFits (cacheTxData acc tx).sizes tx tx.vout.toList.length := by
  intro k hk
  refine ⟨_, List.getElem?_eq_getElem hk, fun _ n hn => ?_⟩
  rw [(mem_sizes_cacheTxData hn).1, h]

theorem recSize_of_ne {tx : Transaction} (h : acc.refreshType ≠ .optimizeCoinbase) :
    recSize acc tx = tx.vout.toList.length := if_neg fun hboth => h hboth.2

theorem jobFits_miner (hopt : acc.refreshType = .optimizeCoinbase) (tx : Transaction) :
    JobFits (cacheTxData acc tx).sizes tx 1 ↔ MinerFits tx := by
  have hlooked : acc.refreshType ≠ .noCoinbase := by rw [hopt]; decide
  constructor
  · intro h
    obtain ⟨out, hout, hsizes⟩ := h 0 Nat.one_pos
    refine ⟨out, hout, ?_⟩
    by_contra hother
    obtain ⟨hminer, hone, hkey, hkeys⟩ : isMiner tx ≠ true ∧ tx.vout.toList.length ≠ 1 ∧
        out.key? ≠ none ∧ HasTxKeys tx := by
      simpa only [not_or, not_not, ne_eq] using hother
    have hvout := List.ne_nil_of_mem (List.mem_of_getElem? hout)
    have hsize := hsizes hkey _ (recSize_mem_sizes hkeys hlooked hvout)
    rw [recSize, if_neg fun hboth => hminer hboth.1] at hsize
    exact hone hsize
  · rintro ⟨out, hout, hfits⟩ k hk
    obtain rfl : k = 0 := by omega
    refine ⟨out, hout, fun hkey n hn => ?_⟩
    obtain ⟨rfl, hkeys⟩ := mem_sizes_cacheTxData hn
    rw [recSize]
    split_ifs with hboth
    · rfl
    · rcases hfits with hminer | hone | hnone | hnokeys
      · exact absurd ⟨hminer, hopt⟩ hboth
      · exact hone
      · exact absurd hnone hkey
      · exact absurd hkeys hnokeys

theorem jobFits_tx (hopt : acc.refreshType = .optimizeCoinbase) (tx : Transaction) :
    JobFits (cacheTxData acc tx).sizes tx tx.vout.toList.length ↔ TxFits tx := by
  have hlooked : acc.refreshType ≠ .noCoinbase := by rw [hopt]; decide
  constructor
  · intro h
    by_contra hother
    obtain ⟨hminer, hone, hout, hkeys⟩ : isMiner tx = true ∧ tx.vout.toList.length ≠ 1 ∧
        (∃ out ∈ tx.vout.toList, out.key? ≠ none) ∧ HasTxKeys tx := by
      simpa [TxFits] using hother
    obtain ⟨out, hmem, hkey⟩ := hout
    obtain ⟨k, hk, rfl⟩ := List.mem_iff_getElem.mp hmem
    obtain ⟨out', hout', hsizes⟩ := h k hk
    rw [List.getElem?_eq_getElem hk] at hout'
    cases hout'
    have hsize := hsizes hkey _ (recSize_mem_sizes hkeys hlooked (List.ne_nil_of_mem hmem))
    rw [recSize, if_pos ⟨hminer, hopt⟩] at hsize
    exact hone hsize.symm
  · intro hfits k hk
    refine ⟨_, List.getElem?_eq_getElem hk, fun hkey n hn => ?_⟩
    obtain ⟨rfl, hkeys⟩ := mem_sizes_cacheTxData hn
    rw [recSize]
    split_ifs with hboth
    · rcases hfits with hminer | hone | hnone | hnokeys
      · rw [hboth.1] at hminer
        cases hminer
      · exact hone.symm
      · exact absurd (hnone _ (List.getElem_mem hk)) hkey
      · exact absurd hkeys hnokeys
    · rfl

theorem blockJobsFit_iff (b : ParsedBlock) :
    BlockJobsFit acc b ↔
      (acc.refreshType = .optimizeCoinbase →
        MinerFits b.block.minerTx ∧ ∀ tx ∈ b.txes, TxFits tx) := by
  by_cases hopt : acc.refreshType = .optimizeCoinbase
  · have hlooked : acc.refreshType ≠ .noCoinbase := by rw [hopt]; decide
    rw [BlockJobsFit, minerVouts, if_pos hopt, jobFits_miner hopt]
    simp only [jobFits_tx hopt]
    exact ⟨fun h _ => ⟨h.1 hlooked, h.2⟩, fun h => ⟨fun _ => (h hopt).1, (h hopt).2⟩⟩
  · refine iff_of_true ⟨fun _ => ?_, fun tx _ => jobFits_of_recSize (recSize_of_ne hopt)⟩
      fun h => absurd h hopt
    rw [minerVouts, if_neg hopt]
    exact jobFits_of_recSize (recSize_of_ne hopt)

/-! ### The walk through the blocks -/

variable {cfg : Config}

theorem inside_entryMiner {b : ParsedBlock} {caches : List TxCacheData} {offset : ℕ}
    (hindices : 0 < b.oIndices.length) (hcaches : offset < caches.length) (height : UInt64)
    (w : ScanWallet σ) : Accessing.Inside (entryMiner ops cfg acc b height caches offset) w := by
  rw [entryMiner, Accessing.inside_read_bind (List.getElem?_eq_getElem hindices),
    Accessing.inside_read_bind (List.getElem?_eq_getElem hcaches)]
  exact Accessing.inside_ofThrowing _ w

theorem inside_entryTx {b : ParsedBlock} {caches : List TxCacheData} {offset idx : ℕ}
    (hhash : idx < b.block.txHashes.toList.length) (htx : idx < b.txes.length)
    (hindices : idx + 1 < b.oIndices.length) (hcaches : offset + idx < caches.length)
    (height : UInt64) (w : ScanWallet σ) :
    Accessing.Inside (entryTx ops acc b height caches offset idx) w := by
  rw [entryTx, Accessing.inside_read_bind (List.getElem?_eq_getElem hhash),
    Accessing.inside_read_bind (List.getElem?_eq_getElem htx),
    Accessing.inside_read_bind (List.getElem?_eq_getElem hindices),
    Accessing.inside_read_bind (List.getElem?_eq_getElem hcaches)]
  exact Accessing.inside_ofThrowing _ w

theorem inside_processEntryTxs {b : ParsedBlock} {bche : Protocol.BlockCompleteEntry}
    {caches : List TxCacheData} {offset : ℕ} (hindices : bche.txs.length + 1 = b.oIndices.length)
    (hcaches : offset + (1 + b.txes.length) ≤ caches.length) (height : UInt64)
    (w : ScanWallet σ) :
    Accessing.Inside (processEntryTxs ops cfg acc b bche height caches offset) w := by
  rw [processEntryTxs]
  apply Accessing.Inside.bind
  · apply Accessing.inside_when
    intro _
    exact inside_entryMiner (by omega) (by omega) height w
  intro _ w'
  rw [Accessing.inside_throwIf_bind]
  intro hhashes
  rw [Accessing.inside_throwIf_bind]
  intro htxes
  apply Accessing.Inside.bind
  · refine Accessing.inside_loop (fun idx hidx w' => ?_) w'
    have hlt := List.mem_range.mp hidx
    exact inside_entryTx hlt (by omega) (by omega) (by omega) height w'
  · exact fun _ w' => Accessing.inside_modify _ w'

theorem inside_processNewBlockchainEntryFrom {b : ParsedBlock} {caches : List TxCacheData}
    {offset : ℕ} (hcaches : offset + (1 + b.txes.length) ≤ caches.length)
    (bche : Protocol.BlockCompleteEntry) (height : UInt64) (w : ScanWallet σ) :
    Accessing.Inside (processNewBlockchainEntryFrom ops cfg acc b bche height caches offset) w := by
  rw [processNewBlockchainEntryFrom, Accessing.inside_throwIf_bind]
  intro hindices
  apply Accessing.Inside.bind
  · apply Accessing.inside_when
    intro _
    exact inside_processEntryTxs (not_not.mp hindices) hcaches height w
  · exact fun _ w' => Accessing.inside_modify _ w'

theorem inside_processBlocksFrom {chainOffset startHeight : ℕ} {caches : List TxCacheData}
    {blocks : List (Protocol.BlockCompleteEntry × ParsedBlock)} {current offset : ℕ}
    (hchain : chainOffset ≤ current)
    (hcaches : offset + numTxes (blocks.map Prod.snd) ≤ caches.length) (blocksAdded : ℕ)
    (w : ScanWallet σ) :
    Accessing.Inside (processBlocksFrom ops cfg acc chainOffset startHeight caches blocks current
      offset blocksAdded) w := by
  induction blocks generalizing current offset blocksAdded w with
  | nil => exact Accessing.inside_pure blocksAdded w
  | cons p blocks ih =>
      obtain ⟨bche, b⟩ := p
      rw [List.map_cons, numTxes_cons] at hcaches
      have hroom : offset + (1 + b.txes.length + numTxes (blocks.map Prod.snd)) ≤ caches.length :=
        hcaches
      have hentry : ∀ w, Accessing.Inside (processNewBlockchainEntryFrom ops cfg acc b bche
          (UInt64.ofNat current) caches offset) w :=
        fun w => inside_processNewBlockchainEntryFrom (by omega) bche _ w
      have hnext : ∀ blocksAdded w, Accessing.Inside (processBlocksFrom ops cfg acc chainOffset
          startHeight caches blocks (current + 1) (offset + (1 + b.txes.length)) blocksAdded) w :=
        fun blocksAdded w => ih (by omega) (by omega) blocksAdded w
      rw [processBlocksFrom, Accessing.Inside, Accessing.get_bind]
      split_ifs with hnew
      · exact (hentry w).bind fun _ w' => hnext _ w'
      · have hknown : current - chainOffset < w.blockchain.length := by omega
        refine (Accessing.inside_read_bind (List.getElem?_eq_getElem hknown)).mpr ?_
        refine Accessing.Inside.bind (Accessing.inside_when fun _ => ?_) fun _ w' => hnext _ w'
        rw [Accessing.inside_throwIf_bind]
        intro _
        exact (Accessing.inside_ofThrowing _ w).bind fun _ w' => hentry w'

/-- Blocks in number, from a height of the chain: they go outside only where the caches are
filled. -/
theorem inside_processParsedBlocks_of_checked {chainOffset startHeight : ℕ}
    {blocks : List Protocol.BlockCompleteEntry} {parsed : List ParsedBlock} {w : ScanWallet σ}
    (hsize : blocks.length = parsed.length) (hbounds : isInBounds chainOffset w startHeight) :
    Accessing.Inside
        (processParsedBlocks ops cfg acc chainOffset startHeight blocks parsed) w ↔
      Accessing.Inside (fillCaches ops acc w.subaddresses parsed)
        (List.replicate (numTxes parsed) .empty) := by
  rw [processParsedBlocks, Accessing.Inside, Accessing.throwIf_bind_of_not (not_not.mpr hsize),
    Accessing.get_bind, Accessing.throwIf_bind_of_not (not_not.mpr hbounds), ← Accessing.Inside,
    Accessing.inside_bind_iff, Accessing.inside_locally, and_iff_left_iff_imp]
  intro _ caches w' hfill
  obtain ⟨u, hok⟩ := Accessing.exists_of_locally_eq_ok hfill
  have hzip : (blocks.zip parsed).map Prod.snd = parsed := List.map_snd_zip hsize.ge
  refine inside_processBlocksFrom hbounds.1 ?_ 0 w'
  rw [hzip, Nat.zero_add, (fillCaches_eq_ok hok).length_eq]

/-- `process_parsed_blocks` throws or stays inside its containers exactly if it refuses the blocks,
or the wallet does not optimise the coinbase, or the transactions of every block fit. -/
theorem processParsedBlocks_inside_iff (chainOffset startHeight : ℕ)
    (blocks : List Protocol.BlockCompleteEntry) (parsed : List ParsedBlock) (w : ScanWallet σ) :
    Accessing.Inside
        (processParsedBlocks ops cfg acc chainOffset startHeight blocks parsed) w ↔
      (blocks.length ≠ parsed.length ∨ ¬isInBounds chainOffset w startHeight ∨
          ∃ b ∈ parsed, b.txes.length ≠ b.block.txHashes.toList.length) ∨
        (acc.refreshType = .optimizeCoinbase →
          ∀ b ∈ parsed, MinerFits b.block.minerTx ∧ ∀ tx ∈ b.txes, TxFits tx) := by
  by_cases hsize : blocks.length = parsed.length
  · by_cases hbounds : isInBounds chainOffset w startHeight
    · rw [inside_processParsedBlocks_of_checked hsize hbounds, inside_fillCaches_iff]
      have hfit : (∀ b ∈ parsed, BlockJobsFit acc b) ↔ (acc.refreshType = .optimizeCoinbase →
          ∀ b ∈ parsed, MinerFits b.block.minerTx ∧ ∀ tx ∈ b.txes, TxFits tx) := by
        simp only [blockJobsFit_iff]
        exact ⟨fun h hopt b hb => h b hb hopt, fun h b hb hopt => h hopt b hb⟩
      have hrefused : (∃ b ∈ parsed, b.txes.length ≠ b.block.txHashes.toList.length) ↔
          ¬∀ b ∈ parsed, b.Matched := by
        simp only [ParsedBlock.Matched, not_forall, exists_prop]
      rw [hfit, hrefused]
      simp only [hsize, hbounds, ne_eq, not_true_eq_false, false_or]
      exact imp_iff_not_or
    · refine iff_of_true ?_ (.inl (.inr (.inl hbounds)))
      rw [processParsedBlocks, Accessing.Inside,
        Accessing.throwIf_bind_of_not (not_not.mpr hsize), Accessing.get_bind]
      exact Accessing.inside_of_thrown (Accessing.throwIf_bind_of hbounds)
  · refine iff_of_true ?_ (.inl (.inl hsize))
    rw [processParsedBlocks]
    exact Accessing.inside_of_thrown (Accessing.throwIf_bind_of hsize)

/-! ### A coinbase without outputs -/

def outputlessBlock : ParsedBlock where
  hash := hashOfNat 2
  block :=
    { majorVersion := 1
      minorVersion := 0
      timestamp := 0
      prevId := hashOfNat 1
      nonce := 0
      minerTx := ⟨⟨2, 0, 0, vectorOf [.gen 1], .nil, .nil⟩, .nil, default, default⟩
      txHashes := .nil }
  txes := []
  oIndices := [[]]

theorem processParsedBlocks_outside :
    ¬Accessing.Inside
      (processParsedBlocks sampleScanOps currentConfig optimizingSettings 0 0 [⟨[], []⟩]
        [outputlessBlock]) { ScanWallet.empty () with blockchain := [hashOfNat 1] } := by
  intro hinside
  obtain ⟨message, hmessage⟩ := hinside .outOfRange rfl
  cases hmessage

end XrCoin.Wallet

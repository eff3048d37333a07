import XrCoin.Crypto.TreeHash
import XrCoin.Cryptonote.FormatUtils

/-!
Transaction hashes, block ids and weights, and what a block id commits to.

The id is the hash of the serialised header, the root of the transaction tree
and the number of transactions. The header and the count are self-delimiting, so
equal ids give equal roots over equally many leaves.
-/

namespace XrCoin.Cryptonote

open Archive Crypto

section

variable (ops : CryptoOps) (cfg : Config)

/-! ### Transactions -/

def getTransactionPrefixHash (tx : TransactionPrefix) : Hash :=
  ops.cnFastHash (saveTransactionPrefix cfg tx).bytes

def calculateTransactionPrunableHash (tx : Transaction) : Option Hash :=
  if tx.version = 1 ∧ tx.minorVersion = 0 then none
  else
    let out :=
      if tx.version = 1 then
        saveBorromeanSignature tx.vin.size (firstRingSize tx.vin) tx.borromeanSignature
      else
        saveRctSigPrunable tx.rctSignatures.type tx.vin.size tx.vout.size (firstMixin tx.vin)
          tx.rctSignatures.p
    if out.ok then some (ops.cnFastHash out.bytes) else none

def rctBaseHash (tx : Transaction) : Option Hash :=
  let out := saveRctSigBase tx.vin.size tx.vout.size tx.rctSignatures.toRctSigBase
  if out.ok then some (ops.cnFastHash out.bytes) else none

def prunableHashOrNull (tx : Transaction) : Option Hash :=
  if tx.rctSignatures.type = rctTypeNull then some nullHash
  else calculateTransactionPrunableHash ops tx

def calculateTransactionHash (tx : Transaction) : Option Hash :=
  if tx.version = 1 ∧ tx.minorVersion = 0 then some (ops.cnFastHash (txToBlob cfg tx))
  else if tx.version = 1 then do
    let prunable ← calculateTransactionPrunableHash ops tx
    some (ops.cnFastHash
      ((getTransactionPrefixHash ops cfg tx.toTransactionPrefix).val ++ prunable.val))
  else do
    let base ← rctBaseHash ops tx
    let prunable ← prunableHashOrNull ops tx
    some (ops.cnFastHash
      ((getTransactionPrefixHash ops cfg tx.toTransactionPrefix).val ++ base.val ++ prunable.val))

/-- `get_transaction_hash`: the null hash when there is none. -/
def getTransactionHash (tx : Transaction) : Hash :=
  (calculateTransactionHash ops cfg tx).getD nullHash

/-- `get_transaction_weight(tx, blob_size)`, which throws when the numbers do not
fit. -/
def getTransactionWeight (tx : Transaction) (blobSize : ℕ) : Option ℕ :=
  if tx.version < 2 ∨ tx.rctSignatures.type ≠ rctTypeBulletproof ∨ tx.vout.toList.length ≤ 2 then
    some blobSize
  else
    let nPaddedOutputs := nBulletproofMaxAmountsAll tx.rctSignatures.p.bulletproofs
    let nlr := (tx.rctSignatures.p.bulletproofs.toList.map fun bp => bp.l.toList.length * 2).sum
    let bpSize := 32 * (9 + nlr)
    let bpClawback := (368 * nPaddedOutputs - bpSize) * 4 / 5
    if bpSize ≤ 368 * nPaddedOutputs ∧ bpClawback ≤ 2 ^ 64 - 1 - blobSize then
      some (blobSize + bpClawback)
    else none

/-! ### Blocks -/

def nodeHash (p : Hash × Hash) : Hash := ops.cnFastHash (p.1.val ++ p.2.val)

def txsIds (b : Block) : List Hash := getTransactionHash ops cfg b.minerTx :: b.txHashes.toList

/-- `get_tx_tree_hash`. From three leaves on `tree_hash_cnt` asserts that there
are at most `2 ^ 28`. -/
def getTxTreeHash (b : Block) : Option Hash :=
  if 3 ≤ (txsIds ops cfg b).length ∧ 2 ^ 28 < (txsIds ops cfg b).length then none
  else treeHash (nodeHash ops) (txsIds ops cfg b)

def getBlockHashingBlob (b : Block) : Option (List UInt8) := do
  let root ← getTxTreeHash ops cfg b
  some ((saveBlockHeader b.toBlockHeader).bytes ++
    (root.val ++ writeVarint (b.txHashes.toList.length + 1)))

/-- `get_object_hash` of a blob: a string is serialised behind its length. -/
def stringMessage (blob : List UInt8) : List UInt8 := writeVarint blob.length ++ blob

/-- `3a8a2b3a29b50fc86ff73dd087ea43c6f0d6b8f936c849194d5c84c737903966`. -/
def correctBlobHash202612 : Hash :=
  ⟨[0x3a, 0x8a, 0x2b, 0x3a, 0x29, 0xb5, 0x0f, 0xc8, 0x6f, 0xf7, 0x3d, 0xd0, 0x87, 0xea, 0x43, 0xc6,
    0xf0, 0xd6, 0xb8, 0xf9, 0x36, 0xc8, 0x49, 0x19, 0x4d, 0x5c, 0x84, 0xc7, 0x37, 0x90, 0x39, 0x66],
    rfl⟩

/-- `bbd604d2ba11ba27935e006ed39c9bfdd99b76bf4a50654bc1e1e61217962698`. -/
def existingBlockId202612 : Hash :=
  ⟨[0xbb, 0xd6, 0x04, 0xd2, 0xba, 0x11, 0xba, 0x27, 0x93, 0x5e, 0x00, 0x6e, 0xd3, 0x9c, 0x9b, 0xfd,
    0xd9, 0x9b, 0x76, 0xbf, 0x4a, 0x50, 0x65, 0x4b, 0xc1, 0xe1, 0xe6, 0x12, 0x17, 0x96, 0x26, 0x98],
    rfl⟩

def IsBlock202612 (b : Block) : Prop :=
  ops.cnFastHash (blockToBlob cfg b) = correctBlobHash202612

instance (b : Block) : Decidable (IsBlock202612 ops cfg b) := inferInstanceAs (Decidable (_ = _))

def getBlockHash (b : Block) : Option Hash :=
  if IsBlock202612 ops cfg b then some existingBlockId202612
  else do
    let blob ← getBlockHashingBlob ops cfg b
    let res := ops.cnFastHash (stringMessage blob)
    if res = existingBlockId202612 then none else some res

/-! ### Binding -/

/-- The messages hashed between the transaction hashes and the block id. -/
def blockMessages (b : Block) : List (List UInt8) :=
  ((getBlockHashingBlob ops cfg b).map stringMessage).toList ++
    (treePairs (nodeHash ops) (txsIds ops cfg b)).map fun p => p.1.val ++ p.2.val

variable {ops cfg}

theorem append_pod_inj {a b c d : Hash} (h : a.val ++ b.val = c.val ++ d.val) :
    (a, b) = (c, d) := by
  have hlen : a.val.length = c.val.length := a.2.trans c.2.symm
  obtain ⟨hac, hbd⟩ := List.append_inj h hlen
  rw [Subtype.ext hac, Subtype.ext hbd]

theorem nodeHash_injOn {S : Set (List UInt8)} (hinj : Set.InjOn ops.cnFastHash S) :
    Set.InjOn (nodeHash ops) {p | p.1.val ++ p.2.val ∈ S} := by
  rintro ⟨a, b⟩ hab ⟨c, d⟩ hcd heq
  exact append_pod_inj (hinj hab hcd heq)

theorem varint_append_inj {m n : ℕ} {s t : List UInt8}
    (h : writeVarint m ++ s = writeVarint n ++ t) : m = n ∧ s = t := by
  have hm : m < 2 ^ (m + n + 1) :=
    Nat.lt_two_pow_self.trans (Nat.pow_lt_pow_right (by omega) (by omega))
  have hn : n < 2 ^ (m + n + 1) :=
    Nat.lt_two_pow_self.trans (Nat.pow_lt_pow_right (by omega) (by omega))
  exact (Delivers.varint (by omega) hm).unique (Delivers.varint (by omega) hn) h

theorem getBlockHash_eq_some {b : Block} {id : Hash} (hne : ¬IsBlock202612 ops cfg b)
    (h : getBlockHash ops cfg b = some id) :
    ∃ root, getTxTreeHash ops cfg b = some root ∧
      getBlockHashingBlob ops cfg b = some ((saveBlockHeader b.toBlockHeader).bytes ++
        (root.val ++ writeVarint (b.txHashes.toList.length + 1))) ∧
      id = ops.cnFastHash (stringMessage ((saveBlockHeader b.toBlockHeader).bytes ++
        (root.val ++ writeVarint (b.txHashes.toList.length + 1)))) := by
  rw [getBlockHash, if_neg hne] at h
  obtain ⟨blob, hblob, h⟩ := Option.bind_eq_some_iff.mp h
  obtain ⟨root, hroot, heq⟩ := Option.bind_eq_some_iff.mp hblob
  obtain rfl := Option.some.inj heq
  refine ⟨root, hroot, hblob, ?_⟩
  simp only at h
  split at h
  · exact absurd h (by simp)
  · exact (Option.some.inj h).symm

theorem getTxTreeHash_eq_some {b : Block} {root : Hash}
    (h : getTxTreeHash ops cfg b = some root) :
    treeHash (nodeHash ops) (txsIds ops cfg b) = some root := by
  rw [getTxTreeHash] at h
  split at h
  · exact absurd h (by simp)
  · exact h

theorem saveBlockHeader_ok (b : BlockHeader) : (saveBlockHeader b).ok = true := by
  have hnonce : (saveNonce b.majorVersion b.nonce).ok = true := by
    rw [saveNonce]
    split <;> rfl
  simp only [saveBlockHeader, Out.append_ok]
  exact ⟨⟨⟨⟨rfl, rfl⟩, rfl⟩, rfl⟩, hnonce⟩

/-- Equal hashing blobs have equal headers, up to what a header writes of its
nonce, equal roots and equally many transactions. -/
theorem hashingBlob_inj {b b' : Block} {root root' : Hash}
    (h : (saveBlockHeader b.toBlockHeader).bytes ++
        (root.val ++ writeVarint (b.txHashes.toList.length + 1)) =
      (saveBlockHeader b'.toBlockHeader).bytes ++
        (root'.val ++ writeVarint (b'.txHashes.toList.length + 1))) :
    b.toBlockHeader.serialised = b'.toBlockHeader.serialised ∧ root = root' ∧
      b.txHashes.toList.length = b'.txHashes.toList.length := by
  obtain ⟨hheader, hrest⟩ := (readsBack_blockHeader b.toBlockHeader (saveBlockHeader_ok _)).unique
    (readsBack_blockHeader b'.toBlockHeader (saveBlockHeader_ok _)) h
  have hlen : root.val.length = root'.val.length := root.2.trans root'.2.symm
  obtain ⟨hroot, hvarint⟩ := List.append_inj hrest hlen
  rw [← List.append_nil (writeVarint (b.txHashes.toList.length + 1)),
    ← List.append_nil (writeVarint (b'.txHashes.toList.length + 1))] at hvarint
  obtain ⟨hcount, -⟩ := varint_append_inj hvarint
  exact ⟨hheader, Subtype.ext hroot, by omega⟩

/-- The block id commits to the block, as far as the hash is injective on what is
hashed for the two blocks: the header as it is written, the hash of the miner
transaction and the whole list of transaction hashes. -/
theorem getBlockHash_binds {b b' : Block} {id : Hash}
    (hinj : Set.InjOn ops.cnFastHash
      {m | m ∈ blockMessages ops cfg b ∨ m ∈ blockMessages ops cfg b'})
    (hne : ¬IsBlock202612 ops cfg b) (hne' : ¬IsBlock202612 ops cfg b')
    (h : getBlockHash ops cfg b = some id) (h' : getBlockHash ops cfg b' = some id) :
    b.toBlockHeader.serialised = b'.toBlockHeader.serialised ∧
      getTransactionHash ops cfg b.minerTx = getTransactionHash ops cfg b'.minerTx ∧
      b.txHashes = b'.txHashes := by
  obtain ⟨root, htree, hblob, hid⟩ := getBlockHash_eq_some hne h
  obtain ⟨root', htree', hblob', hid'⟩ := getBlockHash_eq_some hne' h'
  have hmessage := hinj (Or.inl (by simp [blockMessages, hblob]))
    (Or.inr (by simp [blockMessages, hblob'])) (hid.symm.trans hid')
  obtain ⟨hheader, rfl, hcount⟩ := hashingBlob_inj (varint_append_inj hmessage).2
  have hids : txsIds ops cfg b = txsIds ops cfg b' := by
    refine treeHash_inj (nodeHash_injOn hinj) ?_ ?_ ?_ (getTxTreeHash_eq_some htree)
      (getTxTreeHash_eq_some htree')
    · simp only [txsIds, List.length_cons, hcount]
    · intro p hp
      exact Or.inl (List.mem_append_right _ (List.mem_map.mpr ⟨p, hp, rfl⟩))
    · intro p hp
      exact Or.inr (List.mem_append_right _ (List.mem_map.mpr ⟨p, hp, rfl⟩))
  obtain ⟨hminer, htxs⟩ := List.cons.inj hids
  exact ⟨hheader, hminer, StdVector.ext htxs⟩

end

def hashOfNat (n : ℕ) : Hash :=
  ⟨(leBytes 32 n).reverse, by rw [List.length_reverse, leBytes_length]⟩

/-! ### Two blocks with one id -/

def sampleMinerTx : Transaction :=
  ⟨⟨1, 0, 60, ⟨[.gen 0], gen_fits⟩, .nil, .nil⟩, .nil, default, default⟩

def sampleBlock (nonce : UInt64) : Block :=
  ⟨⟨1, 0, 0, nullHash, nonce⟩, sampleMinerTx,
    ⟨[List.Vector.replicate 32 0x11, List.Vector.replicate 32 0x22], by decide⟩⟩

def sampleMinerHash : Hash :=
  ⟨[0xbf, 0x6c, 0xdc, 0xc3, 0xb9, 0x31, 0x29, 0xf4, 0x05, 0x02, 0x80, 0x80, 0x10, 0x52, 0x5b, 0x24,
    0x8b, 0x81, 0x8c, 0x5f, 0x62, 0x49, 0x5e, 0x9c, 0x19, 0x2a, 0x18, 0xf5, 0xe0, 0x29, 0xcc, 0xa9],
    rfl⟩

def sampleNode : Hash :=
  ⟨[0x3e, 0x92, 0xe0, 0xdb, 0x88, 0xd6, 0xaf, 0xea, 0x9e, 0xdc, 0x4e, 0xed, 0xf6, 0x2f, 0xff, 0xa4,
    0xd9, 0x2b, 0xcd, 0xfc, 0x31, 0x0d, 0xcc, 0xbe, 0x94, 0x37, 0x47, 0xfe, 0x83, 0x02, 0xe8, 0x71],
    rfl⟩

def sampleRoot : Hash :=
  ⟨[0x54, 0x59, 0x80, 0xf1, 0x63, 0x49, 0xb5, 0x1c, 0x39, 0x3b, 0x07, 0xfe, 0x64, 0x3d, 0xeb, 0x39,
    0x27, 0x6c, 0xcf, 0x4e, 0x2c, 0xe1, 0xb8, 0xe6, 0xa1, 0x3c, 0xc1, 0x8b, 0xef, 0xbd, 0xbd, 0x71],
    rfl⟩

def sampleId : Hash :=
  ⟨[0xae, 0x84, 0x54, 0x2e, 0xd4, 0x7e, 0xaf, 0x03, 0x00, 0x50, 0xa7, 0xc0, 0x73, 0x8a, 0xe4, 0x27,
    0xa2, 0xf9, 0x7c, 0x4a, 0x5b, 0xf0, 0x35, 0x4f, 0xd6, 0xd1, 0xfd, 0xe2, 0xf0, 0x4b, 0x0e, 0x5d],
    rfl⟩

def sampleBlobHash : Hash :=
  ⟨[0x0d, 0x69, 0xfb, 0x82, 0xde, 0x3b, 0x42, 0xb5, 0xc3, 0x17, 0x1b, 0xce, 0x97, 0x86, 0x17, 0xf8,
    0x7c, 0xff, 0xc2, 0xc6, 0x1b, 0x32, 0x51, 0x2c, 0x50, 0x44, 0x5a, 0x95, 0xb7, 0x54, 0xc5, 0x83],
    rfl⟩

def sampleHash (m : List UInt8) : Hash :=
  if m = txToBlob currentConfig sampleMinerTx then sampleMinerHash
  else if m = List.replicate 32 0x11 ++ List.replicate 32 0x22 then sampleNode
  else if m = sampleMinerHash.val ++ sampleNode.val then sampleRoot
  else if m = stringMessage ((saveBlockHeader (sampleBlock 0).toBlockHeader).bytes ++
      (sampleRoot.val ++ writeVarint 3)) then sampleId
  else if m = blockToBlob currentConfig (sampleBlock 0) then sampleBlobHash
  else nullHash

def sampleOps : CryptoOps := ⟨sampleHash, fun _ => none, fun _ => default⟩

theorem sampleBlock_messages : blockMessages sampleOps currentConfig (sampleBlock (2 ^ 32)) =
    blockMessages sampleOps currentConfig (sampleBlock 0) := by
  decide

theorem sampleHash_injOn : Set.InjOn sampleOps.cnFastHash
    {m | m ∈ blockMessages sampleOps currentConfig (sampleBlock 0) ∨
      m ∈ blockMessages sampleOps currentConfig (sampleBlock (2 ^ 32))} := by
  have hinj : ∀ m ∈ blockMessages sampleOps currentConfig (sampleBlock 0),
      ∀ n ∈ blockMessages sampleOps currentConfig (sampleBlock 0),
        sampleHash m = sampleHash n → m = n := by
    decide +kernel
  simp only [sampleBlock_messages, or_self]
  intro m hm n hn heq
  exact hinj m hm n hn heq

/-- Below major version 8 the upper half of the nonce is not part of the id. -/
theorem sampleBlock_id_collision :
    Set.InjOn sampleOps.cnFastHash
      {m | m ∈ blockMessages sampleOps currentConfig (sampleBlock 0) ∨
        m ∈ blockMessages sampleOps currentConfig (sampleBlock (2 ^ 32))} ∧
      ¬IsBlock202612 sampleOps currentConfig (sampleBlock 0) ∧
      ¬IsBlock202612 sampleOps currentConfig (sampleBlock (2 ^ 32)) ∧
      getBlockHash sampleOps currentConfig (sampleBlock 0) = some sampleId ∧
      getBlockHash sampleOps currentConfig (sampleBlock (2 ^ 32)) = some sampleId ∧
      (sampleBlock 0).toBlockHeader ≠ (sampleBlock (2 ^ 32)).toBlockHeader :=
  ⟨sampleHash_injOn, by decide, by decide, by decide, by decide,
    by decide⟩

theorem getBlockHash_binds_sampleBlock :
    (sampleBlock 0).toBlockHeader.serialised = (sampleBlock (2 ^ 32)).toBlockHeader.serialised ∧
      getTransactionHash sampleOps currentConfig (sampleBlock 0).minerTx =
        getTransactionHash sampleOps currentConfig (sampleBlock (2 ^ 32)).minerTx ∧
      (sampleBlock 0).txHashes = (sampleBlock (2 ^ 32)).txHashes :=
  getBlockHash_binds sampleHash_injOn (by decide) (by decide)
    (show getBlockHash sampleOps currentConfig (sampleBlock 0) = some sampleId by decide)
    (by decide)

end XrCoin.Cryptonote

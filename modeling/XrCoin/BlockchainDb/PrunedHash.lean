import XrCoin.BlockchainDb.Restore
import XrCoin.Cryptonote.Canonical

/-!
The two halves of a transaction: what `serialize_base` writes and the prunable rest, and
the hash that `get_pruned_transaction_hash` computes when it is given that of the rest.

`calculate_transaction_hash` takes the null hash for a transaction of the null type, and
`get_pruned_transaction_hash` whatever it is given. The hash of the rest, which is empty
there, is not the null hash.
-/

namespace XrCoin.BlockchainDb

open Archive Cryptonote Lmdb

section

variable (ops : CryptoOps) (cfg : Config)

/-! ### The halves -/

def prunablePart (tx : Transaction) : Out :=
  if tx.version = 1 then
    if tx.minorVersion = 0 then saveSignatures tx.vin tx.signatures
    else saveBorromeanSignature tx.vin.size (firstRingSize tx.vin) tx.borromeanSignature
  else
    saveRctSigPrunable tx.rctSignatures.type tx.vin.size tx.vout.size (firstMixin tx.vin)
      tx.rctSignatures.p

def partsMessage (tx : Transaction) (base prunable : Hash) : List UInt8 :=
  (getTransactionPrefixHash ops cfg tx.toTransactionPrefix).val ++ base.val ++ prunable.val

/-- `get_pruned_transaction_hash`, which throws for a version 1.0 transaction. -/
def getPrunedTransactionHash (tx : Transaction) (prunedDataHash : Hash) : Option Hash :=
  if 1 < tx.version ∨ tx.version = 1 ∧ 0 < tx.minorVersion then
    if tx.version = 1 then
      some (ops.cnFastHash ((getTransactionPrefixHash ops cfg tx.toTransactionPrefix).val ++
        prunedDataHash.val))
    else
      (rctBaseHash ops tx).map fun base => ops.cnFastHash (partsMessage ops cfg tx base prunedDataHash)
  else none

structure HalvesAgree (tx : Transaction) : Prop where
  hash : ¬(tx.version = 1 ∧ tx.minorVersion = 0) →
    ∃ prunable, calculateTransactionPrunableHash ops tx = some prunable ∧
      getPrunedTransactionHash ops cfg tx prunable = some (getTransactionHash ops cfg tx)
  blob : (prunablePart tx).ok = true ∧
    txToBlob cfg tx = (serializeBase cfg tx).bytes ++ (prunablePart tx).bytes
  stored : ∀ db txHash txPrunableHash txId db',
    addTransactionData cfg tx txHash txPrunableHash db = .ok txId db' →
      db'.txsPruned.get txId = some (serializeBase cfg tx).bytes ∧
        db'.txsPrunable.get txId = some (prunablePart tx).bytes ∧
        (hasPrunableHash tx.toTransactionPrefix = true →
          db'.txsPrunableHash.get txId = some txPrunableHash)

structure NothingSigned (tx : Transaction) : Prop where
  type : tx.rctSignatures.type = rctTypeSimple
  vout : tx.vout.toList = []
  pseudoOuts : tx.rctSignatures.pseudoOuts.toList = []
  ecdhInfo : tx.rctSignatures.ecdhInfo.toList = []
  outPk : tx.rctSignatures.outPk.toList = []
  rangeSigs : tx.rctSignatures.p.rangeSigs.toList = []
  mgs : tx.rctSignatures.p.mgs.toList = []

/-- The transactions that the two hash functions treat alike. -/
def HashedAlike (tx : Transaction) : Prop :=
  tx.version = 1 ∨ tx.rctSignatures.type ≠ rctTypeNull ∧ (tx.vin.toList = [] → NothingSigned tx)

variable {ops cfg} {tx : Transaction}

theorem version_of_ok (h : (saveTransaction cfg tx).ok = true) : tx.version ≠ 0 := by
  simp only [saveTransaction, saveTransactionPrefix, Out.append_ok, Out.require_ok] at h
  exact h.1.1.1.1.1.2.1

/-- The whole of a transaction is its two halves, when there are inputs or it is of version 1. -/
theorem saveTransaction_eq (h : tx.version = 1 ∨ tx.vin.toList ≠ [])
    (hok : (saveTransaction cfg tx).ok = true) :
    saveTransaction cfg tx = serializeBase cfg tx ++ prunablePart tx := by
  rw [saveTransaction] at hok ⊢
  rw [serializeBase, prunablePart, Out.append_assoc]
  by_cases hversion : tx.version = 1
  · simp only [if_pos hversion] at hok ⊢
    rw [Out.append_ok, Out.append_ok, Out.require_ok] at hok
    rw [Out.require_true hok.2.1, Out.emit_nil_append]
  · have hvin := h.resolve_left hversion
    simp only [if_neg hversion, if_neg hvin, Out.saveIf_pos hvin]
    rw [saveRctSig]
    congr 2
    by_cases hnull : tx.rctSignatures.type = rctTypeNull
    · rw [Out.saveIf_neg (not_not.mpr hnull), saveRctSigPrunable, if_pos hnull]
    · rw [Out.saveIf_pos hnull]

theorem saveTransaction_of_nil (hversion : tx.version ≠ 1) (hvin : tx.vin.toList = []) :
    saveTransaction cfg tx = serializeBase cfg tx := by
  rw [saveTransaction, serializeBase, if_neg hversion, if_neg hversion, if_pos hvin,
    Out.saveIf_neg (not_not.mpr hvin)]

theorem addTransactionData_stored {db db' : Db} {txHash txPrunableHash : Hash} {txId : ℕ}
    (h : addTransactionData cfg tx txHash txPrunableHash db = .ok txId db') :
    db'.txsPruned.get txId = some (serializeBase cfg tx).bytes ∧
      db'.txsPrunable.get txId =
        some ((txToBlob cfg tx).drop (serializeBase cfg tx).bytes.length) ∧
      (hasPrunableHash tx.toTransactionPrefix = true →
        db'.txsPrunableHash.get txId = some txPrunableHash) := by
  obtain ⟨u, db₁, -, hput⟩ := bind_eq_ok.mp h
  obtain ⟨-, -, txsPruned, txsPrunable, txsPrunableHash, hpruned, hprunable, hhash, rfl⟩ :=
    putTransaction_eq_ok hput
  refine ⟨Table.get_append hpruned, Table.get_append hprunable, fun hhas => ?_⟩
  rw [withPrunableHash, if_pos hhas] at hhash
  exact Table.get_append hhash

/-! ### Without inputs -/

theorem bytes_append_eq_nil {a b : Out} (ha : a.ok = true) :
    (a ++ b).bytes = [] ↔ a.bytes = [] ∧ b.bytes = [] := by
  rw [Out.append_bytes ha, List.append_eq_nil_iff]

theorem saveAll_bytes_eq_nil {α : Type} {save : α → Out}
    (hsave : ∀ a, (save a).ok = true → (save a).bytes ≠ []) {as : List α}
    (hok : (Out.saveAll save as).ok = true) (h : (Out.saveAll save as).bytes = []) : as = [] := by
  cases as with
  | nil => rfl
  | cons a as =>
      rw [Out.saveAll_cons, Out.append_ok] at hok
      rw [Out.saveAll_cons, bytes_append_eq_nil hok.1] at h
      exact absurd h.1 (hsave a hok.1)

theorem toList_eq_nil_of_size {α : Type} {v : StdVector α} (h : v.size = 0) : v.toList = [] := by
  have hlen := StdVector.size_toNat v
  rw [h] at hlen
  exact List.length_eq_zero_iff.mp hlen.symm

theorem size_eq_zero {α : Type} {v : StdVector α} (h : v.toList = []) : v.size = 0 := by
  have hlen := StdVector.size_toNat v
  rw [h] at hlen
  exact UInt64.toNat.inj hlen

theorem saveArray_nil {α : Type} {save : α → Out} {v : StdVector α} (h : v.toList = []) :
    saveArray 0 save v = .emit [] := by
  rw [saveArray, Out.require_true (size_eq_zero h), h]
  rfl

theorem saveArray_ok_zero {α : Type} {save : α → Out} {v : StdVector α}
    (h : (saveArray 0 save v).ok = true) : v.toList = [] := by
  rw [saveArray, Out.append_ok, Out.require_ok] at h
  exact toList_eq_nil_of_size h.1

theorem savePod_ne_nil {n : ℕ} (hn : n ≠ 0) (v : List.Vector UInt8 n) : (savePod v).bytes ≠ [] := by
  intro hnil
  have hlen := v.2
  have hbytes : (savePod v).bytes = v.val := rfl
  rw [hbytes] at hnil
  rw [hnil] at hlen
  exact hn hlen.symm

theorem saveRangeSig_ne_nil (sig : RangeSig) : (saveRangeSig sig).bytes ≠ [] := by
  intro hnil
  rw [saveRangeSig, bytes_append_eq_nil rfl] at hnil
  exact savePod_ne_nil (by decide) _ hnil.1

theorem saveMgSig_ne_nil (rows cols : UInt64) (mg : MgSig) :
    (saveMgSig rows cols mg).ok = true → (saveMgSig rows cols mg).bytes ≠ [] := by
  intro hok hnil
  rw [saveMgSig, Out.append_ok] at hok
  rw [saveMgSig, bytes_append_eq_nil hok.1] at hnil
  exact savePod_ne_nil (by decide) _ hnil.2

theorem saveBulletproofs_ne_nil (outputs : UInt64) (bulletproofs : StdVector Bulletproof) :
    (saveBulletproofs outputs bulletproofs).bytes ≠ [] := by
  intro hnil
  simp only [saveBulletproofs] at hnil
  rw [Out.append_assoc, Out.append_assoc, bytes_append_eq_nil rfl] at hnil
  exact absurd hnil.1 (List.cons_ne_nil _ _)

theorem nothingSigned_iff (hvin : tx.vin.toList = []) (hnull : tx.rctSignatures.type ≠ rctTypeNull)
    (hversion : tx.version ≠ 1) :
    NothingSigned tx ↔
      (saveRctSigBase tx.vin.size tx.vout.size tx.rctSignatures.toRctSigBase).ok = true ∧
        (prunablePart tx).ok = true ∧ (prunablePart tx).bytes = [] := by
  rw [prunablePart, if_neg hversion, size_eq_zero hvin, saveRctSigBase, saveRctSigPrunable,
    if_neg hnull, if_neg hnull]
  constructor
  · rintro ⟨htype, hvout, hpseudo, hecdh, hpk, hrange, hmgs⟩
    have hknown : KnownRctType tx.rctSignatures.type := .inr (.inl htype)
    have hbp : ¬tx.rctSignatures.type = rctTypeBulletproof := by
      rw [htype]
      decide
    have hmg : mgElements tx.rctSignatures.type 0 = 0 := by
      rw [htype]
      decide
    rw [size_eq_zero hvout, saveArray_nil hpseudo, saveArray_nil hecdh, saveArray_nil hpk, hmg,
      saveArray_nil hrange, saveArray_nil hmgs, Out.saveIf_neg hbp, Out.saveIf_neg hbp,
      Out.saveIf_pos htype, Out.saveIf_pos hbp, Out.require_true hknown]
    refine ⟨?_, rfl, rfl⟩
    simp only [Out.append_ok]
    exact ⟨rfl, ⟨⟨⟨⟨rfl, rfl⟩, rfl⟩, rfl⟩, rfl⟩⟩
  · rintro ⟨hbase, hprunable, hbytes⟩
    simp only [Out.append_ok, Out.require_ok] at hbase hprunable
    obtain ⟨-, ⟨⟨⟨hknown, -⟩, hpseudo⟩, hecdh⟩, hpk⟩ := hbase
    obtain ⟨⟨⟨⟨-, hproofs⟩, hrange⟩, hmgs⟩, hpseudoOuts⟩ := hprunable
    rw [bytes_append_eq_nil (by simp only [Out.append_ok, Out.require_ok]; tauto),
      bytes_append_eq_nil (by simp only [Out.append_ok, Out.require_ok]; tauto),
      bytes_append_eq_nil (by simp only [Out.append_ok, Out.require_ok]; tauto),
      bytes_append_eq_nil (by simp only [Out.require_ok]; exact hknown)] at hbytes
    obtain ⟨⟨⟨⟨-, hproofsNil⟩, hrangeNil⟩, hmgsNil⟩, -⟩ := hbytes
    rcases hknown with htype | htype | htype
    · -- one signature for all inputs is always written
      have hmg : mgElements tx.rctSignatures.type 0 = 1 := by
        rw [htype]
        decide
      rw [hmg, saveArray, Out.append_ok, Out.require_ok] at hmgs
      rw [hmg, saveArray, Out.require_true hmgs.1, Out.emit_nil_append] at hmgsNil
      have hmgsEmpty := saveAll_bytes_eq_nil (saveMgSig_ne_nil _ _) hmgs.2 hmgsNil
      have hsize := hmgs.1
      rw [size_eq_zero hmgsEmpty] at hsize
      exact absurd hsize (by decide)
    · have hbp : tx.rctSignatures.type ≠ rctTypeBulletproof := by
        rw [htype]
        decide
      have hmg : mgElements tx.rctSignatures.type 0 = 0 := by
        rw [htype]
        decide
      rw [Out.saveIf_pos hbp] at hrange hrangeNil
      rw [saveArray, Out.append_ok, Out.require_ok] at hrange
      rw [saveArray, Out.require_true hrange.1, Out.emit_nil_append] at hrangeNil
      have hrangeEmpty := saveAll_bytes_eq_nil (fun sig _ => saveRangeSig_ne_nil sig) hrange.2 hrangeNil
      have hout : tx.vout.size = 0 := by
        rw [← hrange.1, size_eq_zero hrangeEmpty]
      rw [hout] at hecdh hpk
      rw [hmg] at hmgs
      rw [Out.saveIf_pos htype] at hpseudo
      exact ⟨htype, toList_eq_nil_of_size hout, saveArray_ok_zero hpseudo, saveArray_ok_zero hecdh,
        saveArray_ok_zero hpk, hrangeEmpty, saveArray_ok_zero hmgs⟩
    · -- so is the number of proofs
      rw [Out.saveIf_pos htype] at hproofsNil
      exact absurd hproofsNil (saveBulletproofs_ne_nil _ _)

/-! ### Agreement -/

theorem calculateTransactionPrunableHash_eq (hpruned : ¬(tx.version = 1 ∧ tx.minorVersion = 0)) :
    calculateTransactionPrunableHash ops tx =
      if (prunablePart tx).ok then some (ops.cnFastHash (prunablePart tx).bytes) else none := by
  rw [calculateTransactionPrunableHash, if_neg hpruned, prunablePart]
  by_cases hversion : tx.version = 1
  · have hminor : tx.minorVersion ≠ 0 := fun hminor => hpruned ⟨hversion, hminor⟩
    simp only [if_pos hversion, if_neg hminor]
  · simp only [if_neg hversion]

theorem rctBaseHash_eq_some {base : Hash} (h : rctBaseHash ops tx = some base) :
    (saveRctSigBase tx.vin.size tx.vout.size tx.rctSignatures.toRctSigBase).ok = true := by
  rw [rctBaseHash] at h
  split at h
  · assumption
  · exact absurd h (by simp)

theorem halvesAgree_of_parts (hok : (saveTransaction cfg tx).ok = true)
    (hparts : saveTransaction cfg tx = serializeBase cfg tx ++ prunablePart tx)
    (hhash : ¬(tx.version = 1 ∧ tx.minorVersion = 0) →
      ∃ prunable, calculateTransactionPrunableHash ops tx = some prunable ∧
        getPrunedTransactionHash ops cfg tx prunable = some (getTransactionHash ops cfg tx)) :
    HalvesAgree ops cfg tx := by
  have hboth := hok
  rw [hparts, Out.append_ok] at hboth
  have hblob : txToBlob cfg tx = (serializeBase cfg tx).bytes ++ (prunablePart tx).bytes := by
    rw [txToBlob, hparts, Out.append_bytes hboth.1]
  refine ⟨hhash, ⟨hboth.2, hblob⟩, fun db txHash txPrunableHash txId db' hadd => ?_⟩
  have hstored := addTransactionData_stored hadd
  rwa [hblob, List.drop_left] at hstored

/-- A version 2 transaction that is not of the null type is hashed alike. -/
theorem prunedHash_of_base (hversion : tx.version ≠ 1) (hzero : tx.version ≠ 0)
    (hnull : tx.rctSignatures.type ≠ rctTypeNull)
    (hbase : (saveRctSigBase tx.vin.size tx.vout.size tx.rctSignatures.toRctSigBase).ok = true)
    (hprunable : (prunablePart tx).ok = true) :
    ∃ prunable, calculateTransactionPrunableHash ops tx = some prunable ∧
      getPrunedTransactionHash ops cfg tx prunable = some (getTransactionHash ops cfg tx) := by
  have hpruned : ¬(tx.version = 1 ∧ tx.minorVersion = 0) := fun h => hversion h.1
  have hhash : calculateTransactionPrunableHash ops tx =
      some (ops.cnFastHash (prunablePart tx).bytes) := by
    rw [calculateTransactionPrunableHash_eq hpruned, if_pos hprunable]
  have hlater : 1 < tx.version := by
    rw [UInt64.lt_iff_toNat_lt]
    have h1 : tx.version.toNat ≠ 1 := fun h => hversion (UInt64.toNat.inj h)
    have h0 : tx.version.toNat ≠ 0 := fun h => hzero (UInt64.toNat.inj h)
    show 1 < tx.version.toNat
    omega
  refine ⟨_, hhash, ?_⟩
  rw [getPrunedTransactionHash, if_pos (.inl hlater), if_neg hversion, getTransactionHash,
    calculateTransactionHash, if_neg hpruned, if_neg hversion, prunableHashOrNull, if_neg hnull,
    hhash, rctBaseHash]
  simp only [hbase, if_true]
  rfl

/-- For a transaction that can be written the halves agree exactly when the two hash functions
treat it alike, as far as the hash tells apart what they hash. -/
theorem halvesAgree_iff (hok : (saveTransaction cfg tx).ok = true)
    (hempty : ops.cnFastHash [] ≠ nullHash)
    (hinj : Set.InjOn ops.cnFastHash {m | ∃ base, rctBaseHash ops tx = some base ∧
      (m = partsMessage ops cfg tx base nullHash ∨
        m = partsMessage ops cfg tx base (ops.cnFastHash []))}) :
    HalvesAgree ops cfg tx ↔ HashedAlike tx := by
  have hzero := version_of_ok hok
  by_cases hversion : tx.version = 1
  · refine iff_of_true ?_ (.inl hversion)
    have hparts := saveTransaction_eq (.inl hversion) hok
    refine halvesAgree_of_parts hok hparts fun hpruned => ?_
    have hboth := hok
    rw [hparts, Out.append_ok] at hboth
    have hhash : calculateTransactionPrunableHash ops tx =
        some (ops.cnFastHash (prunablePart tx).bytes) := by
      rw [calculateTransactionPrunableHash_eq hpruned, if_pos hboth.2]
    have hminor : 0 < tx.minorVersion := by
      rw [UInt8.lt_iff_toNat_lt]
      have hne : tx.minorVersion.toNat ≠ 0 :=
        fun h => hpruned ⟨hversion, UInt8.toNat.inj h⟩
      exact Nat.pos_of_ne_zero hne
    refine ⟨_, hhash, ?_⟩
    rw [getPrunedTransactionHash, if_pos (.inr ⟨hversion, hminor⟩), if_pos hversion,
      getTransactionHash, calculateTransactionHash, if_neg hpruned, if_pos hversion, hhash]
    rfl
  · constructor
    · intro h
      refine .inr ?_
      have hpruned : ¬(tx.version = 1 ∧ tx.minorVersion = 0) := fun h => hversion h.1
      obtain ⟨prunable, hprunable, hagree⟩ := h.hash hpruned
      rw [getPrunedTransactionHash, if_neg hversion] at hagree
      split at hagree
      · obtain ⟨base, hbase, hagree⟩ := Option.map_eq_some_iff.mp hagree
        have hnull : tx.rctSignatures.type ≠ rctTypeNull := by
          -- else the hash of nothing is given, and the null hash is taken
          intro hnull
          have hrest : prunablePart tx = .emit [] := by
            rw [prunablePart, if_neg hversion, saveRctSigPrunable, if_pos hnull]
          rw [calculateTransactionPrunableHash_eq hpruned, hrest] at hprunable
          obtain rfl : ops.cnFastHash [] = prunable := Option.some.inj hprunable
          rw [getTransactionHash, calculateTransactionHash, if_neg hpruned, if_neg hversion, hbase,
            prunableHashOrNull, if_pos hnull] at hagree
          have hmessage := hinj ⟨base, hbase, .inr rfl⟩ ⟨base, hbase, .inl rfl⟩ hagree
          rw [partsMessage, partsMessage] at hmessage
          exact hempty (Subtype.ext (List.append_cancel_left hmessage))
        refine ⟨hnull, fun hvin => (nothingSigned_iff hvin hnull hversion).mpr
          ⟨rctBaseHash_eq_some hbase, h.blob.1, ?_⟩⟩
        have hblob := h.blob.2
        rw [txToBlob, saveTransaction_of_nil hversion hvin] at hblob
        exact List.append_right_eq_self.mp hblob.symm
      · exact absurd hagree (by simp)
    · rintro (h | ⟨hnull, hnothing⟩)
      · exact absurd h hversion
      · by_cases hvin : tx.vin.toList = []
        · obtain ⟨hbase, hprunable, hbytes⟩ :=
            (nothingSigned_iff hvin hnull hversion).mp (hnothing hvin)
          refine halvesAgree_of_parts hok ?_ fun _ =>
            prunedHash_of_base hversion hzero hnull hbase hprunable
          have hrest : prunablePart tx = .emit [] := by
            rcases hpart : prunablePart tx with ⟨ok, bytes⟩
            rw [hpart] at hprunable hbytes
            obtain rfl : ok = true := hprunable
            obtain rfl : bytes = [] := hbytes
            rfl
          rw [saveTransaction_of_nil hversion hvin, hrest, Out.append_emit_nil]
        · have hparts := saveTransaction_eq (.inr hvin) hok
          have hboth := hok
          rw [hparts, Out.append_ok, serializeBase, Out.append_ok, if_neg hversion,
            Out.saveIf_pos hvin] at hboth
          exact halvesAgree_of_parts hok hparts fun _ =>
            prunedHash_of_base hversion hzero hnull hboth.1.2 hboth.2

end

/-! ### A miner transaction of version 2 -/

/-- A miner transaction of the null type. -/
def coinbaseTx : Transaction :=
  ⟨⟨2, 0, 60, ⟨[.gen 0], gen_fits⟩, .nil, .nil⟩, .nil, default, default⟩

def coinbasePrefixHash : Hash :=
  hashOfNat 0xd766e502041b6696649faa8d6497094bfa4dbebc8b663217d7b4e887d6f2827f

def coinbaseBaseHash : Hash :=
  hashOfNat 0xbc36789e7a1e281436464229828f817d6612f7b477d66591ff96a9e064bcc98a

def emptyHash : Hash :=
  hashOfNat 0xc5d2460186f7233c927e7db2dcc703c0e500b653ca82273b7bfad8045d85a470

def coinbaseId : Hash :=
  hashOfNat 0x8b8e9844deb4bd1f2d8af19f7789b9098e5eed27b4cb0c3c897d1f71d7df9d6b

def coinbasePrunedId : Hash :=
  hashOfNat 0x7f4e9ac85f5a313642a0f38b7f31fe35c03664b7b32993bd8851a7debafe3760

def coinbaseHash (m : List UInt8) : Hash :=
  if m = [2, 60, 1, 0xff, 0, 0, 0] then coinbasePrefixHash
  else if m = [0] then coinbaseBaseHash
  else if m = [] then emptyHash
  else if m = coinbasePrefixHash.val ++ coinbaseBaseHash.val ++ nullHash.val then coinbaseId
  else if m = coinbasePrefixHash.val ++ coinbaseBaseHash.val ++ emptyHash.val then coinbasePrunedId
  else nullHash

def coinbaseOps : CryptoOps := ⟨coinbaseHash, fun _ => none, fun _ => default⟩

/-- With the hash of its prunable part it gets another id. -/
theorem coinbaseTx_disagrees :
    parseAndValidateTxFromBlob coinbaseOps currentConfig (txToBlob currentConfig coinbaseTx) =
        some coinbaseTx ∧
      calculateTransactionPrunableHash coinbaseOps coinbaseTx = some emptyHash ∧
      getPrunedTransactionHash coinbaseOps currentConfig coinbaseTx emptyHash =
        some coinbasePrunedId ∧
      getTransactionHash coinbaseOps currentConfig coinbaseTx = coinbaseId ∧
      ¬HalvesAgree coinbaseOps currentConfig coinbaseTx := by
  have hprunable : calculateTransactionPrunableHash coinbaseOps coinbaseTx = some emptyHash := by
    decide
  have hpruned : getPrunedTransactionHash coinbaseOps currentConfig coinbaseTx emptyHash =
      some coinbasePrunedId := by decide
  have hid : getTransactionHash coinbaseOps currentConfig coinbaseTx = coinbaseId := by decide
  refine ⟨by decide, hprunable, hpruned, hid, fun h => ?_⟩
  obtain ⟨prunable, hsome, hagree⟩ := h.hash (by decide)
  obtain rfl := Option.some.inj (hprunable.symm.trans hsome)
  rw [hpruned, hid] at hagree
  exact absurd hagree (by decide)

/-! ### A transaction that spends two outputs -/

def spendingPrefixHash : Hash :=
  hashOfNat 0x450b2eb1abf2d53a167b7eb6ba0d67177c892dbb66d57e36c774c6b6fb171fcf

def spendingBaseHash : Hash :=
  hashOfNat 0x474709822e2528cb3564b1c19126b42847a923d9384dcebdb6573b81e5e08e5e

def spendingPrunableHash : Hash :=
  hashOfNat 0x96ce7d019e8ec7eeffbc1e630ba63dec2933936cefe958f78cae22c2d47d4fc3

def spendingId : Hash :=
  hashOfNat 0xbc8b959e71c2b568bc0e15662d186e04013d283e8c572993528f9cc68b1a5ba5

/-- The last two are of messages that no call makes of this transaction. -/
def spendingHash (m : List UInt8) : Hash :=
  if m = (saveTransactionPrefix currentConfig (spendingPrefix 20)).bytes then spendingPrefixHash
  else if m = (saveRctSigBase 2 2 (spendingTx 20 1).rctSignatures.toRctSigBase).bytes then
    spendingBaseHash
  else if m = (prunablePart (spendingTx 20 1)).bytes then spendingPrunableHash
  else if m = [] then emptyHash
  else if m = spendingPrefixHash.val ++ spendingBaseHash.val ++ spendingPrunableHash.val then
    spendingId
  else if m = spendingPrefixHash.val ++ spendingBaseHash.val ++ nullHash.val then
    hashOfNat 0x335a15be701d85ef9a17967a9343b1263434e74cf4be94036f017942ea8b7851
  else if m = spendingPrefixHash.val ++ spendingBaseHash.val ++ emptyHash.val then
    hashOfNat 0xb0bb3ce7142dfd21dd4c034207e2bc3706202d7acd3f3b4b1979d3122e42c433
  else nullHash

def spendingOps : CryptoOps := ⟨spendingHash, fun _ => none, fun _ => default⟩

theorem injOn_parts {base : Hash} (hbase : rctBaseHash ops tx = some base)
    (hne : ops.cnFastHash (partsMessage ops cfg tx base nullHash) ≠
      ops.cnFastHash (partsMessage ops cfg tx base (ops.cnFastHash []))) :
    Set.InjOn ops.cnFastHash {m | ∃ base, rctBaseHash ops tx = some base ∧
      (m = partsMessage ops cfg tx base nullHash ∨
        m = partsMessage ops cfg tx base (ops.cnFastHash []))} := by
  rintro m ⟨base', hm, hmessage⟩ n ⟨base'', hn, hmessage'⟩ heq
  obtain rfl := Option.some.inj (hbase.symm.trans hm)
  obtain rfl := Option.some.inj (hbase.symm.trans hn)
  rcases hmessage with rfl | rfl <;> rcases hmessage' with rfl | rfl
  · rfl
  · exact absurd heq hne
  · exact absurd heq.symm hne
  · rfl

theorem halvesAgree_iff_spendingTx :
    ¬HalvesAgree coinbaseOps currentConfig coinbaseTx ∧
      HalvesAgree spendingOps currentConfig (spendingTx 20 1) := by
  have hcoinbase : rctBaseHash coinbaseOps coinbaseTx = some coinbaseBaseHash := by decide
  have hspending : rctBaseHash spendingOps (spendingTx 20 1) = some spendingBaseHash := by
    decide +kernel
  constructor
  · refine (halvesAgree_iff (by decide) (by decide) (injOn_parts hcoinbase (by decide))).not.mpr ?_
    rintro (hversion | ⟨hnull, -⟩)
    · exact absurd hversion (by decide)
    · exact hnull rfl
  · refine (halvesAgree_iff (by decide +kernel) (by decide) (injOn_parts hspending ?_)).mpr ?_
    · decide +kernel
    · exact .inr ⟨by decide, fun hnil => absurd hnil (by decide)⟩

end XrCoin.BlockchainDb

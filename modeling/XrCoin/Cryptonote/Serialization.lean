import XrCoin.Cryptonote.Basic
import XrCoin.Cryptonote.RctSerialization

/-!
Loading and saving of transactions and blocks agree.

In one direction every object that was loaded is saved as the reads it came from
stand for; in the other every object that was saved is loaded as its serialised
part.
-/

namespace XrCoin.Cryptonote

open Archive

/-! ### The version word -/

theorem and_ff_toNat (word : UInt64) : (word &&& 0xff).toNat = word.toNat % 256 := by
  rw [UInt64.toNat_and]
  exact Nat.and_two_pow_sub_one_eq_mod word.toNat 8

theorem minorVersion_of_word (word : UInt64) :
    ((word >>> 8) &&& 0xff).toUInt8.toNat = word.toNat / 256 % 256 := by
  rw [UInt64.toNat_toUInt8, and_ff_toNat, UInt64.toNat_shiftRight]
  show word.toNat >>> 8 % 256 % 256 = _
  rw [Nat.shiftRight_eq_div_pow]
  omega

theorem versionWord_toNat (version : UInt64) (minorVersion : UInt8) :
    (versionWord version minorVersion).toNat =
      minorVersion.toNat * 256 + version.toNat % 256 := by
  have hminor := minorVersion.toNat_lt
  have hshift : (minorVersion.toUInt64 <<< 8).toNat = 2 ^ 8 * minorVersion.toNat := by
    rw [UInt64.toNat_shiftLeft, UInt8.toNat_toUInt64]
    show minorVersion.toNat <<< 8 % 2 ^ 64 = _
    rw [Nat.shiftLeft_eq]
    omega
  have hlow : version.toNat % 256 < 2 ^ 8 := by omega
  rw [versionWord, UInt64.toNat_or, and_ff_toNat, hshift,
    ← Nat.two_pow_add_eq_or_of_lt hlow minorVersion.toNat]
  omega

theorem versionWord_split {word : UInt64} (hword : word ≤ 0xffff) :
    versionWord (word &&& 0xff) ((word >>> 8) &&& 0xff).toUInt8 = word := by
  have hle : word.toNat ≤ 65535 := UInt64.le_iff_toNat_le.mp hword
  apply UInt64.toNat_inj.mp
  rw [versionWord_toNat, minorVersion_of_word, and_ff_toNat]
  omega

theorem versionWord_le (version : UInt64) (minorVersion : UInt8) :
    versionWord version minorVersion ≤ 0xffff := by
  have hminor := minorVersion.toNat_lt
  apply UInt64.le_iff_toNat_le.mpr
  rw [versionWord_toNat]
  show _ ≤ 65535
  omega

theorem versionWord_minorVersion (version : UInt64) (minorVersion : UInt8) :
    ((versionWord version minorVersion >>> 8) &&& 0xff).toUInt8 = minorVersion := by
  have hminor := minorVersion.toNat_lt
  apply UInt8.toNat_inj.mp
  rw [minorVersion_of_word, versionWord_toNat]
  omega

theorem versionWord_version {cfg : Config} {version : UInt64} (hknown : VersionKnown cfg version)
    (minorVersion : UInt8) : versionWord version minorVersion &&& 0xff = version := by
  have hlt : version.toNat < 256 := hknown.2.trans_lt cfg.currentTransactionVersion_lt
  apply UInt64.toNat_inj.mp
  rw [and_ff_toNat, versionWord_toNat]
  omega

/-! ### Loading, then saving -/

theorem accounts_txoutToScript : Accounts loadTxoutToScript saveTxoutToScript := by
  intro s s' script h
  obtain ⟨keys, s₁, hkeys, h⟩ := Reader.bind_eq_some.mp h
  obtain ⟨bytes, s₂, hbytes, h⟩ := Reader.bind_eq_some.mp h
  obtain ⟨rfl, rfl⟩ := Reader.pure_eq_some.mp h
  exact (accounts_container accounts_pod hkeys).trans (accounts_container accounts_uint8 hbytes)

theorem accounts_txoutTarget : Accounts loadTxoutTarget saveTxoutTarget := by
  intro s s' target h
  obtain ⟨tag, s₁, htag, h⟩ := Reader.bind_eq_some.mp h
  have hspan := accounts_uint8 htag
  unfold loadTxoutTargetOf at h
  split at h
  · rename_i htag
    subst htag
    obtain ⟨script, s₂, hscript, h⟩ := Reader.bind_eq_some.mp h
    obtain ⟨rfl, rfl⟩ := Reader.pure_eq_some.mp h
    exact hspan.trans (accounts_txoutToScript hscript)
  · split at h
    · rename_i htag
      subst htag
      obtain ⟨hash, s₂, hhash, h⟩ := Reader.bind_eq_some.mp h
      obtain ⟨rfl, rfl⟩ := Reader.pure_eq_some.mp h
      exact hspan.trans (accounts_pod hhash)
    · split at h
      · rename_i htag
        subst htag
        obtain ⟨key, s₂, hkey, h⟩ := Reader.bind_eq_some.mp h
        obtain ⟨rfl, rfl⟩ := Reader.pure_eq_some.mp h
        exact hspan.trans (accounts_pod hkey)
      · exact (Reader.fail_eq_some.mp h).elim

theorem accounts_txin : Accounts loadTxin saveTxin := by
  intro s s' txin h
  obtain ⟨tag, s₁, htag, h⟩ := Reader.bind_eq_some.mp h
  have hspan := accounts_uint8 htag
  unfold loadTxinOf at h
  split at h
  · rename_i htag
    subst htag
    obtain ⟨height, s₂, hheight, h⟩ := Reader.bind_eq_some.mp h
    obtain ⟨rfl, rfl⟩ := Reader.pure_eq_some.mp h
    exact hspan.trans (accounts_varint64 hheight)
  · split at h
    · rename_i htag
      subst htag
      simp only [Reader.bind_eq_some, Reader.pure_eq_some] at h
      obtain ⟨prev, s₂, hprev, prevout, s₃, hprevout, sigset, s₄, hsigset, rfl, rfl⟩ := h
      exact ((hspan.trans (accounts_pod hprev)).trans (accounts_varint64 hprevout)).trans
        (accounts_container accounts_uint8 hsigset)
    · split at h
      · rename_i htag
        subst htag
        simp only [Reader.bind_eq_some, Reader.pure_eq_some] at h
        obtain ⟨prev, s₂, hprev, prevout, s₃, hprevout, script, s₄, hscript, sigset, s₅, hsigset,
          rfl, rfl⟩ := h
        exact (((hspan.trans (accounts_pod hprev)).trans (accounts_varint64 hprevout)).trans
          (accounts_txoutToScript hscript)).trans (accounts_container accounts_uint8 hsigset)
      · split at h
        · rename_i htag
          subst htag
          simp only [Reader.bind_eq_some, Reader.pure_eq_some] at h
          obtain ⟨amount, s₂, hamount, offsets, s₃, hoffsets, kImage, s₄, hkImage, rfl, rfl⟩ := h
          exact ((hspan.trans (accounts_varint64 hamount)).trans
            (accounts_container accounts_varint64 hoffsets)).trans (accounts_pod hkImage)
        · exact (Reader.fail_eq_some.mp h).elim

theorem accounts_txOut : Accounts loadTxOut saveTxOut := by
  intro s s' out h
  obtain ⟨amount, s₁, hamount, h⟩ := Reader.bind_eq_some.mp h
  obtain ⟨target, s₂, htarget, h⟩ := Reader.bind_eq_some.mp h
  obtain ⟨rfl, rfl⟩ := Reader.pure_eq_some.mp h
  exact (accounts_varint64 hamount).trans (accounts_txoutTarget htarget)

theorem accounts_transactionPrefix (cfg : Config) :
    Accounts (loadTransactionPrefix cfg) (saveTransactionPrefix cfg) := by
  intro s s' tx h
  simp only [loadTransactionPrefix, loadTransactionPrefixOf, Reader.bind_eq_some,
    Reader.pure_eq_some, Reader.require_eq_some] at h
  obtain ⟨word, s₁, hword, ⟨⟩, s₂, ⟨hle, rfl⟩, ⟨⟩, s₃, ⟨hknown, rfl⟩, unlockTime, s₄, hunlock,
    vin, s₅, hvin, vout, s₆, hvout, extra, s₇, hextra, rfl, rfl⟩ := h
  simp only [saveTransactionPrefix]
  rw [versionWord_split hle, Out.require_true hknown, Out.append_emit_nil]
  exact ((((accounts_varint64 hword).trans (accounts_varint64 hunlock)).trans
    (accounts_container accounts_txin hvin)).trans
    (accounts_container accounts_txOut hvout)).trans (accounts_container accounts_uint8 hextra)

theorem accounts_ringSignature (txin : Txin) :
    Accounts (loadRingSignature (getSignatureSize txin)) (saveRingSignature txin) := by
  intro s s' sigs h
  simp only [loadRingSignature, Reader.bind_eq_some, Reader.remainingBytes_eq_some,
    Reader.require_eq_some] at h
  obtain ⟨left, s₁, ⟨-, rfl⟩, ⟨⟩, s₂, ⟨-, rfl⟩, h⟩ := h
  exact accounts_array accounts_pod h

theorem accounts_signatures (vin : StdVector Txin) :
    Accounts (loadSignatures vin) (saveSignatures vin) := by
  intro s s' signatures h
  obtain ⟨sigs, s₁, hsigs, h⟩ := Reader.bind_eq_some.mp h
  obtain ⟨rfl, rfl⟩ := Reader.pure_eq_some.mp h
  have hspan := Span.traverse accounts_ringSignature hsigs
  unfold saveSignatures
  split
  · rename_i hnil
    simp only at hnil
    have hvin : vin.toList = [] := by
      have hlen := sigs.2
      rw [hnil] at hlen
      exact List.length_eq_zero_iff.mp hlen.symm
    rw [hnil, List.zip_nil_right, Out.saveAll_nil] at hspan
    rw [hvin, Out.saveAll_nil]
    exact hspan
  · rw [Out.require_true (StdVector.size_eq_iff.mpr (by simp)),
      Out.emit_nil_append]
    exact hspan

theorem accounts_borromeanSignature (inputs ringSize : UInt64) :
    Accounts (loadBorromeanSignature inputs ringSize) (saveBorromeanSignature inputs ringSize) := by
  intro s s' sig h
  obtain ⟨c, s₁, hc, h⟩ := Reader.bind_eq_some.mp h
  obtain ⟨r, s₂, hr, h⟩ := Reader.bind_eq_some.mp h
  obtain ⟨rfl, rfl⟩ := Reader.pure_eq_some.mp h
  refine (accounts_pod hc).trans ?_
  have hspan := accounts_array (accounts_array accounts_pod) hr
  simp only
  split
  · rename_i hnil
    have hzero : inputs = 0 := by
      have hlen := StdVector.size_eq_iff.mp (loadArray_size hr)
      rw [hnil] at hlen
      exact UInt64.toNat_inj.mp hlen.symm
    rw [saveArray, Out.require_true (loadArray_size hr), hnil, Out.saveAll_nil,
      Out.append_emit_nil] at hspan
    rw [Out.require_true (Or.inl hzero)]
    exact hspan
  · exact hspan

theorem accounts_rctSig (vin : StdVector Txin) (vout : StdVector TxOut) :
    Accounts (loadRctSig vin vout) (saveRctSig vin vout) := by
  intro s s' rv h
  obtain ⟨base, s₁, hbase, h⟩ := Reader.bind_eq_some.mp h
  obtain ⟨p, s₂, hp, h⟩ := Reader.bind_eq_some.mp h
  obtain ⟨rfl, rfl⟩ := Reader.pure_eq_some.mp h
  exact (accounts_rctSigBase _ _ hbase).trans (Span.loadIf (accounts_rctSigPrunable _ _ _ _) hp)

theorem accounts_transaction (cfg : Config) :
    Accounts (loadTransaction cfg) (saveTransaction cfg) := by
  intro s s' tx h
  obtain ⟨pre, s₁, hpre, h⟩ := Reader.bind_eq_some.mp h
  have hspan := accounts_transactionPrefix cfg hpre
  unfold loadTransactionOf at h
  unfold saveTransaction
  split at h
  · rename_i hversion
    split at h
    · rename_i hminor
      obtain ⟨signatures, s₂, hsigs, h⟩ := Reader.bind_eq_some.mp h
      obtain ⟨rfl, rfl⟩ := Reader.pure_eq_some.mp h
      refine hspan.trans ?_
      simp only [if_pos hversion, if_pos hminor]
      rw [Out.require_true (show signatures.toList = [] ∨
        (default : BorromeanSignature).r.toList = [] from Or.inr rfl), Out.emit_nil_append]
      exact accounts_signatures pre.vin hsigs
    · rename_i hminor
      obtain ⟨sig, s₂, hsig, h⟩ := Reader.bind_eq_some.mp h
      obtain ⟨rfl, rfl⟩ := Reader.pure_eq_some.mp h
      refine hspan.trans ?_
      simp only [if_pos hversion, if_neg hminor]
      rw [Out.require_true (show (StdVector.nil : StdVector (StdVector Signature)).toList = [] ∨
        sig.r.toList = [] from Or.inl rfl), Out.emit_nil_append]
      exact accounts_borromeanSignature _ _ hsig
  · rename_i hversion
    split at h
    · rename_i hvin
      obtain ⟨rfl, rfl⟩ := Reader.pure_eq_some.mp h
      refine hspan.trans ?_
      simp only [if_neg hversion, if_pos hvin]
      exact Span.refl _
    · rename_i hvin
      obtain ⟨rv, s₂, hrv, h⟩ := Reader.bind_eq_some.mp h
      obtain ⟨rfl, rfl⟩ := Reader.pure_eq_some.mp h
      refine hspan.trans ?_
      simp only [if_neg hversion, if_neg hvin]
      exact accounts_rctSig _ _ hrv

theorem accounts_nonce (majorVersion : UInt8) :
    Accounts (loadNonce majorVersion) (saveNonce majorVersion) := by
  intro s s' nonce h
  unfold loadNonce at h
  unfold saveNonce
  by_cases hmajor : 8 ≤ majorVersion
  · rw [if_pos hmajor] at h ⊢
    exact accounts_uint64 h
  · rw [if_neg hmajor] at h ⊢
    obtain ⟨nonce32, s₁, hnonce, h⟩ := Reader.bind_eq_some.mp h
    obtain ⟨rfl, rfl⟩ := Reader.pure_eq_some.mp h
    rw [UInt32.toUInt32_toUInt64]
    exact accounts_uint32 hnonce

theorem accounts_blockHeader : Accounts loadBlockHeader saveBlockHeader := by
  intro s s' b h
  simp only [loadBlockHeader, Reader.bind_eq_some, Reader.pure_eq_some] at h
  obtain ⟨major, s₁, hmajor, minor, s₂, hminor, timestamp, s₃, htime, prevId, s₄, hprev,
    nonce, s₅, hnonce, rfl, rfl⟩ := h
  exact ((((accounts_varint8 hmajor).trans (accounts_varint8 hminor)).trans
    (accounts_varint64 htime)).trans (accounts_pod hprev)).trans (accounts_nonce major hnonce)

theorem accounts_block (cfg : Config) : Accounts (loadBlock cfg) (saveBlock cfg) := by
  intro s s' b h
  obtain ⟨header, s₁, hheader, h⟩ := Reader.bind_eq_some.mp h
  obtain ⟨minerTx, s₂, hminer, h⟩ := Reader.bind_eq_some.mp h
  obtain ⟨txHashes, s₃, hhashes, h⟩ := Reader.bind_eq_some.mp h
  obtain ⟨rfl, rfl⟩ := Reader.pure_eq_some.mp h
  exact ((accounts_blockHeader hheader).trans (accounts_transaction cfg hminer)).trans
    (accounts_container accounts_pod hhashes)

/-! ### The serialised part -/

/-- A missing list of signatures stands for one empty list an input. -/
def serialisedRows {α : Type} (vin : StdVector Txin) (rows : StdVector (StdVector α)) :
    StdVector (StdVector α) :=
  if rows.toList = [] then vin.map (fun _ => .nil) else rows

def RctSig.serialised (rv : RctSig) : RctSig :=
  { rv.toRctSigBase.serialised with p := rv.p.serialised rv.type }

/-- The fields that the archive writes for this version and type; every other
field as an empty transaction has it. -/
def Transaction.serialised (tx : Transaction) : Transaction :=
  if tx.version = 1 then
    if tx.minorVersion = 0 then
      ⟨tx.toTransactionPrefix, serialisedRows tx.vin tx.signatures, default, default⟩
    else
      ⟨tx.toTransactionPrefix, .nil,
        { tx.borromeanSignature with r := serialisedRows tx.vin tx.borromeanSignature.r }, default⟩
  else if tx.vin.toList = [] then ⟨tx.toTransactionPrefix, .nil, default, default⟩
  else ⟨tx.toTransactionPrefix, .nil, default, tx.rctSignatures.serialised⟩

def RctSig.kept (rv : RctSig) : RctSig :=
  ⟨rv.toRctSigBase, { rv.p with bulletproofs := keptBulletproofs rv.p.bulletproofs }⟩

/-- The transaction with the proofs that its 32-bit count reaches. -/
def Transaction.kept (tx : Transaction) : Transaction :=
  ⟨tx.toTransactionPrefix, tx.signatures, tx.borromeanSignature, tx.rctSignatures.kept⟩

def Block.serialised (b : Block) : Block := { b with minerTx := b.minerTx.serialised }

/-! ### Saving, then loading -/

theorem saveUint8_length (v : UInt8) : (saveUint8 v).bytes.length = 1 := by
  simp [saveUint8, saveUint]

theorem inverts_bytes : Inverts (loadContainer loadUint8) (saveContainer saveUint8) id :=
  inverts_container_id inverts_uint8 (fun v => (saveUint8_length v).ge)

theorem inverts_txoutToScript : Inverts loadTxoutToScript saveTxoutToScript id := fun script =>
  (inverts_key_container script.keys).bind ((inverts_bytes script.script).bind_pure rfl)

theorem inverts_txoutTarget : Inverts loadTxoutTarget saveTxoutTarget id := by
  intro target
  cases target with
  | toScript script =>
      exact (inverts_uint8 0).bind ((inverts_txoutToScript script).bind_pure rfl)
  | toScriptHash hash => exact (inverts_uint8 1).bind ((inverts_pod hash).bind_pure rfl)
  | toKey key => exact (inverts_uint8 2).bind ((inverts_pod key).bind_pure rfl)

theorem inverts_txin : Inverts loadTxin saveTxin id := by
  intro txin
  cases txin with
  | gen height => exact (inverts_uint8 0xff).bind ((inverts_varint64 height).bind_pure rfl)
  | toScript prev prevout sigset =>
      simp only [saveTxin, Out.append_assoc]
      exact (inverts_uint8 0).bind ((inverts_pod prev).bind ((inverts_varint64 prevout).bind
        ((inverts_bytes sigset).bind_pure rfl)))
  | toScriptHash prev prevout script sigset =>
      simp only [saveTxin, Out.append_assoc]
      exact (inverts_uint8 1).bind ((inverts_pod prev).bind ((inverts_varint64 prevout).bind
        ((inverts_txoutToScript script).bind ((inverts_bytes sigset).bind_pure rfl))))
  | toKey amount keyOffsets kImage =>
      simp only [saveTxin, Out.append_assoc]
      have hoffsets := inverts_container_id inverts_varint64
        (fun v => writeVarint_length_pos v.toNat) keyOffsets
      exact (inverts_uint8 2).bind ((inverts_varint64 amount).bind (hoffsets.bind
        ((inverts_pod kImage).bind_pure rfl)))

theorem inverts_txOut : Inverts loadTxOut saveTxOut id := fun out =>
  (inverts_varint64 out.amount).bind ((inverts_txoutTarget out.target).bind_pure rfl)

theorem saveTxin_length_pos (txin : Txin) : 1 ≤ (saveTxin txin).bytes.length := by
  cases txin <;> simp only [saveTxin, Out.append_assoc] <;>
    exact (saveUint8_length _).ge.trans (Out.length_le_append _ _)

theorem saveTxOut_length_pos (out : TxOut) : 1 ≤ (saveTxOut out).bytes.length :=
  (writeVarint_length_pos out.amount.toNat).trans
    (Out.length_le_append (saveVarint64 out.amount) (saveTxoutTarget out.target))

theorem inverts_transactionPrefix (cfg : Config) :
    Inverts (loadTransactionPrefix cfg) (saveTransactionPrefix cfg) id := by
  intro tx
  simp only [saveTransactionPrefix, Out.append_assoc]
  refine (inverts_varint64 (versionWord tx.version tx.minorVersion)).bind ?_
  refine ReadsBack.require_left (fun _ => versionWord_le _ _) ?_
  intro hok
  have hknown : VersionKnown cfg tx.version := by
    rw [Out.append_ok, Out.require_ok] at hok
    exact hok.1
  revert hok
  rw [id_eq, versionWord_minorVersion, versionWord_version hknown]
  refine ReadsBack.require (p := VersionKnown cfg tx.version) fun _ => ?_
  exact (inverts_varint64 tx.unlockTime).bind
    ((inverts_container_id inverts_txin saveTxin_length_pos tx.vin).bind
    ((inverts_container_id inverts_txOut saveTxOut_length_pos tx.vout).bind
    ((inverts_bytes tx.extra).bind_pure rfl)))

theorem saveAll_savePod_length {n : ℕ} (l : List (Pod n)) :
    (Out.saveAll savePod l).bytes.length = n * l.length := by
  induction l with
  | nil => simp
  | cons a l ih =>
      have ha : a.val.length = n := a.2
      rw [Out.saveAll_cons, Out.append_bytes rfl, List.length_append, ih, List.length_cons,
        savePod, Out.emit_bytes, ha, Nat.mul_succ]
      omega

theorem inverts_ringSignature (txin : Txin) :
    Inverts (loadRingSignature (getSignatureSize txin)) (saveRingSignature txin) id := by
  intro sigs hok
  have hload := inverts_array_id (n := getSignatureSize txin) (inverts_pod (n := 64)) sigs hok
  have hsize : sigs.size = getSignatureSize txin := by
    rw [saveRingSignature, saveArray, Out.append_ok, Out.require_ok] at hok
    exact hok.1
  have hlen : (getSignatureSize txin * 64).toNat ≤ (saveRingSignature txin sigs).bytes.length := by
    rw [saveRingSignature, saveArray, Out.require_true hsize, Out.emit_nil_append,
      saveAll_savePod_length, ← hsize, UInt64.toNat_mul, StdVector.size_toNat, Nat.mul_comm]
    exact Nat.mod_le _ _
  refine Delivers.remainingBytes_bind hlen ?_
  intro left hleft
  exact Delivers.require_bind hleft hload

theorem saveSignatures_empty {vin : List Txin} (h : ∀ txin ∈ vin, getSignatureSize txin = 0) :
    Out.saveAll (fun p => saveRingSignature p.1 p.2) (vin.zip (vin.map fun _ => StdVector.nil)) =
      .emit [] := by
  apply Out.saveAll_emit_nil
  rintro ⟨txin, sigs⟩ hmem
  obtain ⟨hin, hsigs⟩ := List.of_mem_zip hmem
  obtain ⟨-, -, rfl⟩ := List.mem_map.mp hsigs
  simp only [saveRingSignature, saveArray, h txin hin]
  rfl

theorem inverts_signatures (vin : StdVector Txin) :
    Inverts (loadSignatures vin) (saveSignatures vin) (serialisedRows vin) := by
  intro signatures
  unfold saveSignatures serialisedRows
  by_cases hnil : signatures.toList = []
  · rw [if_pos hnil, if_pos hnil]
    intro hok
    have hzero : ∀ txin ∈ vin.toList, getSignatureSize txin = 0 := by
      intro txin hin
      simpa using Out.saveAll_ok.mp hok txin hin
    have hsave : Out.saveAll (fun txin => Out.require (getSignatureSize txin = 0)) vin.toList =
        .emit [] := Out.saveAll_emit_nil fun txin hin => Out.require_true (hzero txin hin)
    have hempty := saveSignatures_empty hzero
    have hload := Delivers.traverse (fun txin sigs => inverts_ringSignature txin sigs)
      (by rw [hempty]; rfl) (List.length_map _)
    rw [hempty] at hload
    rw [hsave]
    exact hload.convert rfl
  · rw [if_neg hnil, if_neg hnil]
    intro hok
    rw [Out.append_ok, Out.require_ok] at hok
    obtain ⟨hsize, hok⟩ := hok
    rw [Out.require_true hsize, Out.emit_nil_append]
    have hlen : signatures.toList.length = vin.toList.length := by
      rw [StdVector.size_eq_iff.mp hsize, StdVector.size_toNat]
    exact (Delivers.traverse (fun txin sigs => inverts_ringSignature txin sigs) hok hlen).convert
      rfl

theorem inverts_borromeanSignature (vin : StdVector Txin) (ringSize : UInt64) :
    Inverts (loadBorromeanSignature vin.size ringSize) (saveBorromeanSignature vin.size ringSize)
      (fun sig => { sig with r := serialisedRows vin sig.r }) := by
  intro sig
  refine (inverts_pod sig.c).bind ?_
  refine ReadsBack.bind_pure (a := serialisedRows vin sig.r) ?_ rfl
  unfold serialisedRows
  by_cases hnil : sig.r.toList = []
  · rw [if_pos hnil, if_pos hnil]
    intro hok
    rw [Out.require_ok] at hok
    have hsave : Out.saveAll (saveArray ringSize savePod)
        (vin.map fun _ => (StdVector.nil : StdVector Key)).toList = .emit [] := by
      apply Out.saveAll_emit_nil
      intro row hrow
      rw [StdVector.map_toList] at hrow
      obtain ⟨txin, hin, rfl⟩ := List.mem_map.mp hrow
      rcases hok with hinputs | hring
      · have hlen := StdVector.size_eq_iff.mp hinputs
        rw [List.length_eq_zero_iff.mp hlen] at hin
        exact absurd hin (by simp)
      · rw [hring]
        rfl
    have hload := delivers_loadArray (n := vin.size)
      (fun row _ => inverts_array_id (n := ringSize) (inverts_pod (n := 32)) row)
      (by rw [hsave]; rfl) (StdVector.map_size _ vin)
    rw [hsave, StdVector.map_id] at hload
    rw [Out.require_true hok]
    exact hload
  · rw [if_neg hnil, if_neg hnil]
    exact inverts_array_id (inverts_array_id inverts_pod) sig.r

theorem readsBack_rctSig (vin : StdVector Txin) (vout : StdVector TxOut) (rv : RctSig) :
    ReadsBack (loadRctSig vin vout) (saveRctSig vin vout rv) rv.kept.serialised := by
  refine (inverts_rctSigBase _ _ rv.toRctSigBase).bind ?_
  have htype : rv.toRctSigBase.serialised.type = rv.type := by
    unfold RctSigBase.serialised
    split <;> rfl
  rw [htype]
  refine (readsBack_rctSigPrunable _ _ _ _ rv.p).loadIf.bind_pure ?_
  simp only [RctSig.serialised, RctSig.kept]
  congr 1
  split
  · rfl
  · rename_i hnull
    rw [not_not] at hnull
    rw [hnull]
    rfl

theorem readsBack_transaction (cfg : Config) (tx : Transaction) :
    ReadsBack (loadTransaction cfg) (saveTransaction cfg tx) tx.kept.serialised := by
  refine (inverts_transactionPrefix cfg tx.toTransactionPrefix).bind ?_
  simp only [id_eq, loadTransactionOf]
  by_cases hversion : tx.version = 1
  · have hversion' : tx.kept.version = 1 := hversion
    rw [Transaction.serialised, if_pos hversion', if_pos hversion, if_pos hversion]
    by_cases hminor : tx.minorVersion = 0
    · have hminor' : tx.kept.minorVersion = 0 := hminor
      rw [if_pos hminor', if_pos hminor, if_pos hminor]
      intro hok
      rw [Out.append_ok, Out.require_ok] at hok
      rw [Out.require_true hok.1, Out.emit_nil_append]
      exact (inverts_signatures tx.vin tx.signatures hok.2).convert rfl
    · have hminor' : ¬tx.kept.minorVersion = 0 := hminor
      rw [if_neg hminor', if_neg hminor, if_neg hminor]
      intro hok
      rw [Out.append_ok, Out.require_ok] at hok
      rw [Out.require_true hok.1, Out.emit_nil_append]
      exact (inverts_borromeanSignature tx.vin _ tx.borromeanSignature hok.2).convert rfl
  · have hversion' : ¬tx.kept.version = 1 := hversion
    rw [Transaction.serialised, if_neg hversion', if_neg hversion, if_neg hversion]
    by_cases hvin : tx.vin.toList = []
    · have hvin' : tx.kept.vin.toList = [] := hvin
      rw [if_pos hvin', if_pos hvin, if_pos hvin]
      exact ReadsBack.pure _
    · have hvin' : ¬tx.kept.vin.toList = [] := hvin
      rw [if_neg hvin', if_neg hvin, if_neg hvin]
      exact (readsBack_rctSig tx.vin tx.vout tx.rctSignatures).bind_pure rfl

/-- The header that is written: below major version 8 the nonce has 32 bits. -/
def BlockHeader.serialised (b : BlockHeader) : BlockHeader :=
  { b with nonce := if 8 ≤ b.majorVersion then b.nonce else b.nonce.toUInt32.toUInt64 }

theorem readsBack_blockHeader (b : BlockHeader) :
    ReadsBack loadBlockHeader (saveBlockHeader b) b.serialised := by
  simp only [saveBlockHeader, Out.append_assoc]
  refine (inverts_varint8 b.majorVersion).bind ((inverts_varint8 b.minorVersion).bind
    ((inverts_varint64 b.timestamp).bind ((inverts_pod b.prevId).bind ?_)))
  refine ReadsBack.bind_pure
    (a := if 8 ≤ b.majorVersion then b.nonce else b.nonce.toUInt32.toUInt64) ?_ rfl
  simp only [id_eq, loadNonce, saveNonce]
  by_cases hmajor : 8 ≤ b.majorVersion
  · simp only [if_pos hmajor]
    exact inverts_uint64 b.nonce
  · simp only [if_neg hmajor]
    exact (inverts_uint32 b.nonce.toUInt32).bind_pure rfl

def NonceFits (b : BlockHeader) : Prop := b.nonce.toNat < 2 ^ 32 ∨ 8 ≤ b.majorVersion

instance (b : BlockHeader) : Decidable (NonceFits b) := inferInstanceAs (Decidable (_ ∨ _))

theorem serialised_of_nonceFits {b : BlockHeader} (hnonce : NonceFits b) : b.serialised = b := by
  unfold BlockHeader.serialised
  by_cases hmajor : 8 ≤ b.majorVersion
  · rw [if_pos hmajor]
  · rw [if_neg hmajor]
    have hlt : b.nonce.toNat < 2 ^ 32 := hnonce.resolve_right hmajor
    have hkeep : b.nonce.toUInt32.toUInt64 = b.nonce := by
      apply UInt64.toNat_inj.mp
      rw [UInt32.toNat_toUInt64, UInt64.toNat_toUInt32, Nat.mod_eq_of_lt hlt]
    rw [hkeep]

theorem readsBack_block (cfg : Config) {b : Block} (hnonce : NonceFits b.toBlockHeader) :
    ReadsBack (loadBlock cfg) (saveBlock cfg b)
      { b with minerTx := b.minerTx.kept }.serialised := by
  have hheader := readsBack_blockHeader b.toBlockHeader
  rw [serialised_of_nonceFits hnonce] at hheader
  simp only [saveBlock, Out.append_assoc]
  exact hheader.bind ((readsBack_transaction cfg b.minerTx).bind
    ((inverts_key_container b.txHashes).bind_pure rfl))

end XrCoin.Cryptonote

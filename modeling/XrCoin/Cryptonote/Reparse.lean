import XrCoin.Cryptonote.FormatUtils

/-!
A transaction that was parsed is its own serialised part: what the archive does
not write is still empty in it, and expansion does not depend on the bytes it
came from. So the blob it is written to is parsed to the same transaction, also
when it is not the blob it was read from.
-/

namespace XrCoin.Cryptonote

open Archive

theorem replicate_forall {α : Type} {P : α → Prop} {r : Reader α}
    (hr : ∀ {s s' a}, r s = some (a, s') → P a) {n : ℕ} {s s' : InStream}
    {as : List.Vector α n} (h : r.replicate n s = some (as, s')) : ∀ a ∈ as.toList, P a := by
  induction n generalizing s with
  | zero =>
      obtain ⟨rfl, rfl⟩ := Reader.pure_eq_some.mp h
      simp
  | succ n ih =>
      obtain ⟨a, s₁, ha, h⟩ := Reader.bind_eq_some.mp h
      obtain ⟨tail, s₂, htail, h⟩ := Reader.bind_eq_some.mp h
      obtain ⟨rfl, rfl⟩ := Reader.pure_eq_some.mp h
      rw [List.Vector.toList_cons, List.forall_mem_cons]
      exact ⟨hr ha, ih htail⟩

theorem loadArray_forall {α : Type} {P : α → Prop} {n : UInt64} {r : Reader α} {v : StdVector α}
    {s s' : InStream} (hr : ∀ {s s' a}, r s = some (a, s') → P a)
    (h : loadArray n r s = some (v, s')) : ∀ a ∈ v.toList, P a := by
  obtain ⟨as, s₁, has, h⟩ := Reader.bind_eq_some.mp h
  obtain ⟨rfl, rfl⟩ := Reader.pure_eq_some.mp h
  exact replicate_forall hr has

theorem map_eq_self {α : Type} {f : α → α} {v : StdVector α} (h : ∀ a ∈ v.toList, f a = a) :
    v.map f = v := by
  ext1
  rw [StdVector.map_toList]
  rw [List.map_congr_left h, List.map_id']

/-! ### The ring-confidential part -/

theorem loadOutPk_serialised {s s' : InStream} {pk : CtKey} (h : loadOutPk s = some (pk, s')) :
    pk.serialised = pk := by
  obtain ⟨mask, s₁, -, h⟩ := Reader.bind_eq_some.mp h
  obtain ⟨rfl, rfl⟩ := Reader.pure_eq_some.mp h
  rfl

theorem loadBulletproof_serialised {s s' : InStream} {bp : Bulletproof}
    (h : loadBulletproof s = some (bp, s')) : bp.serialised = bp := by
  simp only [loadBulletproof, Reader.bind_eq_some, Reader.pure_eq_some,
    Reader.require_eq_some] at h
  obtain ⟨a1, s₁, -, hs, s₂, -, t1, s₃, -, t2, s₄, -, taux, s₅, -, mu, s₆, -, l, s₇, -, r, s₈, -,
    a, s₉, -, b, s₁₀, -, t, s₁₁, -, ⟨⟩, s₁₂, -, rfl, rfl⟩ := h
  rfl

theorem loadRctSigBase_serialised {inputs outputs : UInt64} {s s' : InStream} {rv : RctSigBase}
    (h : loadRctSigBase inputs outputs s = some (rv, s')) : rv.serialised = rv := by
  obtain ⟨type, s₁, -, h⟩ := Reader.bind_eq_some.mp h
  by_cases hnull : type = rctTypeNull
  · rw [if_pos hnull] at h
    obtain ⟨rfl, rfl⟩ := Reader.pure_eq_some.mp h
    rw [RctSigBase.serialised, if_pos hnull]
  · rw [if_neg hnull] at h
    simp only [Reader.bind_eq_some, Reader.pure_eq_some] at h
    obtain ⟨⟨⟩, s₂, -, txnFee, s₃, -, pseudoOuts, s₄, hpseudo, ecdhInfo, s₅, -, outPk, s₆, hpk,
      rfl, rfl⟩ := h
    have hpk' : outPk.map CtKey.serialised = outPk :=
      map_eq_self (loadArray_forall loadOutPk_serialised hpk)
    rw [RctSigBase.serialised, if_neg hnull]
    simp only [hpk']
    by_cases hsimple : type = rctTypeSimple
    · rw [if_pos hsimple]
    · rw [Reader.loadIf, if_neg hsimple] at hpseudo
      obtain ⟨rfl, -⟩ := Reader.pure_eq_some.mp hpseudo
      rw [if_neg hsimple]

theorem loadBulletproofs_serialised {outputs : UInt64} {s s' : InStream}
    {bulletproofs : StdVector Bulletproof}
    (h : loadBulletproofs outputs s = some (bulletproofs, s')) :
    bulletproofs.map Bulletproof.serialised = bulletproofs ∧
      bulletproofs.toList.length < 2 ^ 32 := by
  simp only [loadBulletproofs, Reader.bind_eq_some, Reader.pure_eq_some] at h
  obtain ⟨nbp, s₁, -, ⟨⟩, s₂, -, proofs, s₃, hproofs, ⟨⟩, s₄, -, rfl, -⟩ := h
  refine ⟨map_eq_self (loadArray_forall loadBulletproof_serialised hproofs), ?_⟩
  rw [StdVector.size_eq_iff.mp (loadArray_size hproofs), UInt32.toNat_toUInt64]
  exact nbp.toNat_lt

theorem loadRctSigPrunable_serialised {type : UInt8} {inputs outputs mixin : UInt64}
    {s s' : InStream} {p : RctSigPrunable}
    (h : loadRctSigPrunable type inputs outputs mixin s = some (p, s')) :
    p.serialised type = p ∧ p.bulletproofs.toList.length < 2 ^ 32 := by
  by_cases hnull : type = rctTypeNull
  · rw [loadRctSigPrunable, if_pos hnull] at h
    obtain ⟨rfl, rfl⟩ := Reader.pure_eq_some.mp h
    rw [RctSigPrunable.serialised, if_pos hnull]
    exact ⟨rfl, by decide⟩
  · rw [loadRctSigPrunable, if_neg hnull] at h
    simp only [Reader.bind_eq_some, Reader.pure_eq_some] at h
    obtain ⟨⟨⟩, s₁, -, bulletproofs, s₂, hproofs, rangeSigs, s₃, hranges, mgs, s₄, -, pseudoOuts,
      s₅, hpseudo, rfl, rfl⟩ := h
    rw [RctSigPrunable.serialised, if_neg hnull]
    by_cases hbp : type = rctTypeBulletproof
    · have hnot : ¬type ≠ rctTypeBulletproof := not_not.mpr hbp
      rw [Reader.loadIf, if_pos hbp] at hproofs
      rw [Reader.loadIf, if_neg hnot] at hranges
      obtain ⟨rfl, -⟩ := Reader.pure_eq_some.mp hranges
      obtain ⟨hmap, hlen⟩ := loadBulletproofs_serialised hproofs
      simp only [if_pos hbp, if_neg hnot, hmap]
      exact ⟨trivial, hlen⟩
    · have hnot : type ≠ rctTypeBulletproof := hbp
      rw [Reader.loadIf, if_neg hbp] at hproofs hpseudo
      obtain ⟨rfl, -⟩ := Reader.pure_eq_some.mp hproofs
      obtain ⟨rfl, -⟩ := Reader.pure_eq_some.mp hpseudo
      simp only [if_neg hbp, if_pos hnot]
      exact ⟨trivial, by simp⟩

theorem loadRctSig_serialised {vin : StdVector Txin} {vout : StdVector TxOut} {s s' : InStream}
    {rv : RctSig} (h : loadRctSig vin vout s = some (rv, s')) : rv.kept.serialised = rv := by
  simp only [loadRctSig, Reader.bind_eq_some, Reader.pure_eq_some] at h
  obtain ⟨base, s₁, hbase, p, s₂, hp, rfl, -⟩ := h
  obtain ⟨hserialised, hlen⟩ : p.serialised base.type = p ∧ p.bulletproofs.toList.length < 2 ^ 32 := by
    by_cases hnull : base.type = rctTypeNull
    · rw [Reader.loadIf, if_neg (not_not.mpr hnull)] at hp
      obtain ⟨rfl, -⟩ := Reader.pure_eq_some.mp hp
      rw [RctSigPrunable.serialised, if_pos hnull]
      exact ⟨rfl, by decide⟩
    · rw [Reader.loadIf, if_pos hnull] at hp
      exact loadRctSigPrunable_serialised hp
  simp only [RctSig.serialised, RctSig.kept, keptBulletproofs_of_lt hlen,
    loadRctSigBase_serialised hbase, hserialised]

/-! ### Transactions -/

theorem serialisedRows_eq_self {α : Type} {vin : StdVector Txin} {rows : StdVector (StdVector α)}
    (h : rows.toList.length = vin.toList.length) : serialisedRows vin rows = rows := by
  rw [serialisedRows]
  split
  · rename_i hnil
    rw [hnil] at h
    have hvin : vin.toList = [] := List.length_eq_zero_iff.mp h.symm
    ext1
    rw [StdVector.map_toList, hvin, hnil]
    rfl
  · rfl

theorem serialised_ringSignatures {t : Transaction} (hversion : t.version = 1)
    (hminor : t.minorVersion = 0) (hrows : t.signatures.toList.length = t.vin.toList.length)
    (hsig : t.borromeanSignature = default) (hrct : t.rctSignatures = default) :
    t.kept.serialised = t := by
  have hversion' : t.kept.version = 1 := hversion
  have hminor' : t.kept.minorVersion = 0 := hminor
  rw [Transaction.serialised, if_pos hversion', if_pos hminor']
  obtain ⟨pre, signatures, borromeanSignature, rctSignatures⟩ := t
  obtain rfl : borromeanSignature = default := hsig
  obtain rfl : rctSignatures = default := hrct
  exact congrArg (fun rows => Transaction.mk pre rows default default)
    (serialisedRows_eq_self hrows)

theorem serialised_borromeanSignature {t : Transaction} (hversion : t.version = 1)
    (hminor : ¬t.minorVersion = 0) (hsigs : t.signatures = .nil)
    (hrows : t.borromeanSignature.r.toList.length = t.vin.toList.length)
    (hrct : t.rctSignatures = default) : t.kept.serialised = t := by
  have hversion' : t.kept.version = 1 := hversion
  have hminor' : ¬t.kept.minorVersion = 0 := hminor
  rw [Transaction.serialised, if_pos hversion', if_neg hminor']
  obtain ⟨pre, signatures, ⟨c, r⟩, rctSignatures⟩ := t
  obtain rfl : signatures = .nil := hsigs
  obtain rfl : rctSignatures = default := hrct
  exact congrArg (fun rows => Transaction.mk pre .nil ⟨c, rows⟩ default)
    (serialisedRows_eq_self hrows)

theorem serialised_noInputs {t : Transaction} (hversion : ¬t.version = 1)
    (hvin : t.vin.toList = []) (hsigs : t.signatures = .nil)
    (hsig : t.borromeanSignature = default) (hrct : t.rctSignatures = default) :
    t.kept.serialised = t := by
  have hversion' : ¬t.kept.version = 1 := hversion
  have hvin' : t.kept.vin.toList = [] := hvin
  rw [Transaction.serialised, if_neg hversion', if_pos hvin']
  obtain ⟨pre, signatures, borromeanSignature, rctSignatures⟩ := t
  obtain rfl : signatures = .nil := hsigs
  obtain rfl : borromeanSignature = default := hsig
  obtain rfl : rctSignatures = default := hrct
  rfl

theorem serialised_rct {t : Transaction} (hversion : ¬t.version = 1) (hvin : ¬t.vin.toList = [])
    (hsigs : t.signatures = .nil) (hsig : t.borromeanSignature = default)
    (hrct : t.rctSignatures.kept.serialised = t.rctSignatures) : t.kept.serialised = t := by
  have hversion' : ¬t.kept.version = 1 := hversion
  have hvin' : ¬t.kept.vin.toList = [] := hvin
  rw [Transaction.serialised, if_neg hversion', if_neg hvin']
  obtain ⟨pre, signatures, borromeanSignature, rctSignatures⟩ := t
  obtain rfl : signatures = .nil := hsigs
  obtain rfl : borromeanSignature = default := hsig
  exact congrArg (Transaction.mk pre .nil default) hrct

theorem loadTransactionOf_serialised {tx : TransactionPrefix} {s s' : InStream} {t : Transaction}
    (h : loadTransactionOf tx s = some (t, s')) : t.kept.serialised = t := by
  rw [loadTransactionOf] at h
  by_cases hversion : tx.version = 1
  · rw [if_pos hversion] at h
    by_cases hminor : tx.minorVersion = 0
    · rw [if_pos hminor] at h
      obtain ⟨signatures, s₁, hsigs, h⟩ := Reader.bind_eq_some.mp h
      obtain ⟨rfl, -⟩ := Reader.pure_eq_some.mp h
      obtain ⟨rows, s₂, -, hrows⟩ := Reader.bind_eq_some.mp hsigs
      obtain ⟨rfl, -⟩ := Reader.pure_eq_some.mp hrows
      exact serialised_ringSignatures hversion hminor rows.2 rfl rfl
    · rw [if_neg hminor] at h
      obtain ⟨sig, s₁, hsig, h⟩ := Reader.bind_eq_some.mp h
      obtain ⟨rfl, -⟩ := Reader.pure_eq_some.mp h
      simp only [loadBorromeanSignature, Reader.bind_eq_some, Reader.pure_eq_some] at hsig
      obtain ⟨c, s₂, -, r, s₃, hr, rfl, -⟩ := hsig
      refine serialised_borromeanSignature hversion hminor rfl ?_ rfl
      exact (StdVector.size_eq_iff.mp (loadArray_size hr)).trans (StdVector.size_toNat _)
  · rw [if_neg hversion] at h
    by_cases hvin : tx.vin.toList = []
    · rw [if_pos hvin] at h
      obtain ⟨rfl, -⟩ := Reader.pure_eq_some.mp h
      exact serialised_noInputs hversion hvin rfl rfl rfl
    · rw [if_neg hvin] at h
      obtain ⟨rv, s₁, hrv, h⟩ := Reader.bind_eq_some.mp h
      obtain ⟨rfl, -⟩ := Reader.pure_eq_some.mp h
      exact serialised_rct hversion hvin rfl rfl (loadRctSig_serialised hrv)

theorem loadTransaction_serialised {cfg : Config} {s s' : InStream} {tx : Transaction}
    (h : loadTransaction cfg s = some (tx, s')) : tx.kept.serialised = tx := by
  obtain ⟨pre, s₁, -, h⟩ := Reader.bind_eq_some.mp h
  exact loadTransactionOf_serialised h

/-- A loaded transaction is loaded again from what it is written to. -/
theorem deserialize_txToBlob {cfg : Config} {blob : List UInt8} {tx : Transaction}
    (h : deserialize (loadTransaction cfg) blob = some tx) :
    deserialize (loadTransaction cfg) (txToBlob cfg tx) = some tx := by
  obtain ⟨s, hs, -⟩ := deserialize_eq_some.mp h
  have hok : (saveTransaction cfg tx).ok = true := (accounts_transaction cfg hs).ok
  have hback := deserialize_of_readsBack (readsBack_transaction cfg tx) hok
  rw [loadTransaction_serialised hs] at hback
  exact hback

/-- A parsed transaction is parsed again from the blob it is written to. -/
theorem parse_txToBlob {ops : CryptoOps} {cfg : Config} {blob : List UInt8} {tx : Transaction}
    (h : parseAndValidateTxFromBlob ops cfg blob = some tx) :
    parseAndValidateTxFromBlob ops cfg (txToBlob cfg tx) = some tx := by
  obtain ⟨loaded, hload, hexpand⟩ := Option.bind_eq_some_iff.mp h
  rw [parseAndValidateTxFromBlob, txToBlob, saveTransaction_expand hexpand, ← txToBlob,
    deserialize_txToBlob hload]
  exact hexpand

/-! ### Prefixes -/

theorem loadTransactionOf_prefix {tx : TransactionPrefix} {s s' : InStream} {t : Transaction}
    (h : loadTransactionOf tx s = some (t, s')) : t.toTransactionPrefix = tx := by
  rw [loadTransactionOf] at h
  split at h
  · split at h
    · obtain ⟨signatures, s₁, -, h⟩ := Reader.bind_eq_some.mp h
      obtain ⟨rfl, -⟩ := Reader.pure_eq_some.mp h
      rfl
    · obtain ⟨sig, s₁, -, h⟩ := Reader.bind_eq_some.mp h
      obtain ⟨rfl, -⟩ := Reader.pure_eq_some.mp h
      rfl
  · split at h
    · obtain ⟨rfl, -⟩ := Reader.pure_eq_some.mp h
      rfl
    · obtain ⟨rv, s₁, -, h⟩ := Reader.bind_eq_some.mp h
      obtain ⟨rfl, -⟩ := Reader.pure_eq_some.mp h
      rfl

theorem expandTransaction1_prefix {ops : CryptoOps} {tx tx' : Transaction}
    (h : expandTransaction1 ops tx = some tx') :
    tx'.toTransactionPrefix = tx.toTransactionPrefix := by
  rw [expandTransaction1] at h
  split at h
  · obtain ⟨rv, -, h⟩ := Option.bind_eq_some_iff.mp h
    obtain rfl := Option.some.inj h
    rfl
  · obtain rfl := Option.some.inj h
    rfl

theorem parsePrefix_of_parse {ops : CryptoOps} {cfg : Config} {blob : List UInt8}
    {tx : Transaction} (h : parseAndValidateTxFromBlob ops cfg blob = some tx) :
    parseAndValidateTxPrefixFromBlob cfg blob = some tx.toTransactionPrefix := by
  obtain ⟨loaded, hload, hexpand⟩ := Option.bind_eq_some_iff.mp h
  obtain ⟨s, hs, -⟩ := deserialize_eq_some.mp hload
  obtain ⟨pre, s₁, hpre, hrest⟩ := Reader.bind_eq_some.mp hs
  rw [parseAndValidateTxPrefixFromBlob, hpre, Option.map_some, expandTransaction1_prefix hexpand,
    loadTransactionOf_prefix hrest]

/-- A version 1 transaction has no ring-confidential part. -/
theorem rctSignatures_of_parse {ops : CryptoOps} {cfg : Config} {blob : List UInt8}
    {tx : Transaction} (h : parseAndValidateTxFromBlob ops cfg blob = some tx)
    (hversion : tx.version = 1) : tx.rctSignatures = default := by
  obtain ⟨loaded, hload, hexpand⟩ := Option.bind_eq_some_iff.mp h
  have hversion' : loaded.version = 1 := by
    rw [← expandTransaction1_prefix hexpand]
    exact hversion
  have hkeep : ¬(2 ≤ loaded.version ∧ isCoinbase loaded = false) := by
    rw [hversion']
    exact fun hcond => absurd hcond.1 (by decide)
  rw [expandTransaction1, if_neg hkeep] at hexpand
  obtain rfl := Option.some.inj hexpand
  obtain ⟨s, hs, -⟩ := deserialize_eq_some.mp hload
  obtain ⟨pre, s₁, -, hrest⟩ := Reader.bind_eq_some.mp hs
  have hpre : pre.version = 1 := by
    rw [← loadTransactionOf_prefix hrest]
    exact hversion
  rw [loadTransactionOf, if_pos hpre] at hrest
  split at hrest
  · obtain ⟨signatures, s₂, -, hrest⟩ := Reader.bind_eq_some.mp hrest
    obtain ⟨rfl, -⟩ := Reader.pure_eq_some.mp hrest
    rfl
  · obtain ⟨sig, s₂, -, hrest⟩ := Reader.bind_eq_some.mp hrest
    obtain ⟨rfl, -⟩ := Reader.pure_eq_some.mp hrest
    rfl

end XrCoin.Cryptonote

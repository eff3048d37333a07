import XrCoin.Cryptonote.RctTypes

/-!
The loading and the saving side of the ring-confidential data agree, in both
directions. The one place where the writer loses something is the 32-bit count
of bulletproofs; `keptBulletproofs` says what is left of them.
-/

namespace XrCoin.Cryptonote

open Archive

/-! ### What the archive keeps -/

def CtKey.serialised (pk : CtKey) : CtKey := { pk with dest := default }

def Bulletproof.serialised (bp : Bulletproof) : Bulletproof := { bp with v := .nil }

/-- The proofs that the loop up to the 32-bit count reaches. -/
def keptBulletproofs (bulletproofs : StdVector Bulletproof) : StdVector Bulletproof :=
  ⟨bulletproofs.toList.take bulletproofs.size.toUInt32.toNat, by
    have h := bulletproofs.size_lt
    rw [List.length_take]
    omega⟩

def RctSigBase.serialised (rv : RctSigBase) : RctSigBase :=
  if rv.type = rctTypeNull then { (default : RctSigBase) with type := rv.type }
  else
    { rv with
      pseudoOuts := if rv.type = rctTypeSimple then rv.pseudoOuts else .nil
      outPk := rv.outPk.map CtKey.serialised }

def RctSigPrunable.serialised (type : UInt8) (p : RctSigPrunable) : RctSigPrunable :=
  if type = rctTypeNull then default
  else
    { p with
      rangeSigs := if type ≠ rctTypeBulletproof then p.rangeSigs else .nil
      bulletproofs :=
        if type = rctTypeBulletproof then p.bulletproofs.map Bulletproof.serialised else .nil
      pseudoOuts := if type = rctTypeBulletproof then p.pseudoOuts else .nil }

theorem size_toUInt32_toNat (bulletproofs : StdVector Bulletproof) :
    bulletproofs.size.toUInt32.toNat = bulletproofs.toList.length % 2 ^ 32 := by
  rw [UInt64.toNat_toUInt32, StdVector.size_toNat]

theorem keptBulletproofs_of_lt {bulletproofs : StdVector Bulletproof}
    (h : bulletproofs.toList.length < 2 ^ 32) : keptBulletproofs bulletproofs = bulletproofs := by
  ext1
  show bulletproofs.toList.take _ = _
  rw [size_toUInt32_toNat, Nat.mod_eq_of_lt h, List.take_length]

theorem keptBulletproofs_length (bulletproofs : StdVector Bulletproof) :
    (keptBulletproofs bulletproofs).toList.length = bulletproofs.toList.length % 2 ^ 32 := by
  show (bulletproofs.toList.take _).length = _
  rw [List.length_take, size_toUInt32_toNat]
  omega

theorem keptBulletproofs_size (bulletproofs : StdVector Bulletproof) :
    (keptBulletproofs bulletproofs).size = bulletproofs.size.toUInt32.toUInt64 := by
  rw [StdVector.size_eq_iff, keptBulletproofs_length, UInt32.toNat_toUInt64,
    size_toUInt32_toNat]

/-- The loading side counts the amounts of the proofs without their commitments. -/
theorem nBulletproofMaxAmountsLoop_serialised (n : ℕ) (proofs : List Bulletproof) :
    nBulletproofMaxAmountsLoop n (proofs.map Bulletproof.serialised) =
      nBulletproofMaxAmountsLoop n proofs := by
  induction proofs generalizing n with
  | nil => rfl
  | cons proof proofs ih =>
      have hone : nBulletproofMaxAmounts proof.serialised = nBulletproofMaxAmounts proof := rfl
      simp only [List.map_cons, nBulletproofMaxAmountsLoop, hone, ih]

/-! ### Loading, then saving -/

theorem accounts_ecdhTuple : Accounts loadEcdhTuple saveEcdhTuple := by
  intro s s' e h
  obtain ⟨mask, s₁, hmask, h⟩ := Reader.bind_eq_some.mp h
  obtain ⟨amount, s₂, hamount, h⟩ := Reader.bind_eq_some.mp h
  obtain ⟨rfl, rfl⟩ := Reader.pure_eq_some.mp h
  exact (accounts_pod hmask).trans (accounts_pod hamount)

theorem accounts_rangeSig : Accounts loadRangeSig saveRangeSig := by
  intro s s' sig h
  obtain ⟨asig, s₁, hasig, h⟩ := Reader.bind_eq_some.mp h
  obtain ⟨ci, s₂, hci, h⟩ := Reader.bind_eq_some.mp h
  obtain ⟨rfl, rfl⟩ := Reader.pure_eq_some.mp h
  exact (accounts_pod hasig).trans (accounts_pod hci)

theorem accounts_outPk : Accounts loadOutPk (fun pk => savePod pk.mask) := by
  intro s s' pk h
  obtain ⟨mask, s₁, hmask, h⟩ := Reader.bind_eq_some.mp h
  obtain ⟨rfl, rfl⟩ := Reader.pure_eq_some.mp h
  exact accounts_pod hmask

theorem accounts_mgSig (rows cols : UInt64) :
    Accounts (loadMgSig rows cols) (saveMgSig rows cols) := by
  intro s s' mg h
  obtain ⟨ss, s₁, hss, h⟩ := Reader.bind_eq_some.mp h
  obtain ⟨cc, s₂, hcc, h⟩ := Reader.bind_eq_some.mp h
  obtain ⟨rfl, rfl⟩ := Reader.pure_eq_some.mp h
  exact (accounts_array (accounts_array accounts_pod) hss).trans (accounts_pod hcc)

theorem accounts_bulletproof : Accounts loadBulletproof saveBulletproof := by
  intro s s' bp h
  simp only [loadBulletproof, Reader.bind_eq_some, Reader.pure_eq_some,
    Reader.require_eq_some] at h
  obtain ⟨a1, s₁, ha1, hs, s₂, hs, t1, s₃, ht1, t2, s₄, ht2, taux, s₅, htaux, mu, s₆, hmu,
    l, s₇, hl, r, s₈, hr, a, s₉, ha, b, s₁₀, hb, t, s₁₁, ht, ⟨⟩, s₁₂, ⟨hsize, rfl⟩, rfl, rfl⟩ := h
  unfold saveBulletproof
  rw [Out.require_true hsize, Out.append_emit_nil]
  exact ((((((((((accounts_pod ha1).trans (accounts_pod hs)).trans (accounts_pod ht1)).trans
    (accounts_pod ht2)).trans (accounts_pod htaux)).trans (accounts_pod hmu)).trans
    (accounts_container accounts_pod hl)).trans (accounts_container accounts_pod hr)).trans
    (accounts_pod ha)).trans (accounts_pod hb)).trans (accounts_pod ht)

theorem accounts_bulletproofs (outputs : UInt64) :
    Accounts (loadBulletproofs outputs) (saveBulletproofs outputs) := by
  intro s s' bulletproofs h
  obtain ⟨nbp, s₁, hnbp, h⟩ := Reader.bind_eq_some.mp h
  obtain ⟨⟨⟩, s₂, hcount, h⟩ := Reader.bind_eq_some.mp h
  obtain ⟨hle, rfl⟩ := Reader.require_eq_some.mp hcount
  obtain ⟨bps, s₃, hbps, h⟩ := Reader.bind_eq_some.mp h
  obtain ⟨⟨⟩, s₄, hamounts, h⟩ := Reader.bind_eq_some.mp h
  obtain ⟨hmax, rfl⟩ := Reader.require_eq_some.mp hamounts
  obtain ⟨rfl, rfl⟩ := Reader.pure_eq_some.mp h
  have hsize := loadArray_size hbps
  have hcount : bps.size.toUInt32 = nbp := by rw [hsize, UInt32.toUInt32_toUInt64]
  have htake : bps.toList.take nbp.toNat = bps.toList := by
    have hlen := StdVector.size_eq_iff.mp hsize
    rw [UInt32.toNat_toUInt64] at hlen
    rw [← hlen, List.take_length]
  simp only [saveBulletproofs, hcount, htake]
  rw [Out.require_true hle, Out.append_emit_nil, Out.require_true hmax, Out.append_emit_nil]
  exact (accounts_uint32 hnbp).trans (span_loadArray accounts_bulletproof hbps)

theorem accounts_rctSigBase (inputs outputs : UInt64) :
    Accounts (loadRctSigBase inputs outputs) (saveRctSigBase inputs outputs) := by
  intro s s' rv h
  obtain ⟨type, s₁, htype, h⟩ := Reader.bind_eq_some.mp h
  by_cases hnull : type = rctTypeNull
  · rw [if_pos hnull] at h
    obtain ⟨rfl, rfl⟩ := Reader.pure_eq_some.mp h
    simp only [saveRctSigBase, if_pos hnull, Out.append_emit_nil]
    exact accounts_uint8 htype
  · rw [if_neg hnull] at h
    simp only [Reader.bind_eq_some, Reader.pure_eq_some, Reader.require_eq_some] at h
    obtain ⟨⟨⟩, s₂, ⟨hknown, rfl⟩, fee, s₃, hfee, outs, s₄, houts, ecdh, s₅, hecdh, pk, s₆, hpk,
      rfl, rfl⟩ := h
    simp only [saveRctSigBase, if_neg hnull]
    rw [Out.require_true hknown, Out.emit_nil_append]
    exact (accounts_uint8 htype).trans ((((accounts_varint64 hfee).trans
      (Span.loadIf (accounts_array accounts_pod) houts)).trans
      (accounts_array accounts_ecdhTuple hecdh)).trans (accounts_array accounts_outPk hpk))

theorem accounts_rctSigPrunable (type : UInt8) (inputs outputs mixin : UInt64) :
    Accounts (loadRctSigPrunable type inputs outputs mixin)
      (saveRctSigPrunable type inputs outputs mixin) := by
  intro s s' p h
  unfold loadRctSigPrunable at h
  unfold saveRctSigPrunable
  by_cases hnull : type = rctTypeNull
  · rw [if_pos hnull] at h ⊢
    obtain ⟨-, rfl⟩ := Reader.pure_eq_some.mp h
    exact Span.refl _
  · rw [if_neg hnull] at h ⊢
    simp only [Reader.bind_eq_some, Reader.pure_eq_some, Reader.require_eq_some] at h
    obtain ⟨⟨⟩, s₁, ⟨hknown, rfl⟩, bps, s₂, hbps, sigs, s₃, hsigs, mgs, s₄, hmgs, outs, s₅, houts,
      rfl, rfl⟩ := h
    rw [Out.require_true hknown, Out.emit_nil_append]
    exact (((Span.loadIf (accounts_bulletproofs outputs) hbps).trans
      (Span.loadIf (accounts_array accounts_rangeSig) hsigs)).trans
      (accounts_array (accounts_mgSig (mixin + 1) (mgSs2Elements type inputs)) hmgs)).trans
      (Span.loadIf (accounts_array accounts_pod) houts)

/-! ### Saving, then loading -/

theorem inverts_key_container :
    Inverts (loadContainer (Reader.blob 32)) (saveContainer savePod) id :=
  inverts_container_id inverts_pod (fun a => by simp [savePod, a.2])

theorem inverts_ecdhTuple : Inverts loadEcdhTuple saveEcdhTuple id := fun e =>
  (inverts_pod e.mask).bind ((inverts_pod e.amount).bind_pure rfl)

theorem inverts_rangeSig : Inverts loadRangeSig saveRangeSig id := fun sig =>
  (inverts_pod sig.asig).bind ((inverts_pod sig.ci).bind_pure rfl)

theorem inverts_outPk : Inverts loadOutPk (fun pk => savePod pk.mask) CtKey.serialised := fun pk =>
  (inverts_pod pk.mask).bind_pure rfl

theorem inverts_mgSig (rows cols : UInt64) :
    Inverts (loadMgSig rows cols) (saveMgSig rows cols) id := fun mg =>
  (inverts_array_id (inverts_array_id inverts_pod) mg.ss).bind ((inverts_pod mg.cc).bind_pure rfl)

theorem inverts_bulletproof : Inverts loadBulletproof saveBulletproof Bulletproof.serialised := by
  intro bp
  unfold saveBulletproof
  simp only [Out.append_assoc]
  refine (inverts_pod bp.a1).bind ((inverts_pod bp.s).bind ((inverts_pod bp.t1).bind
    ((inverts_pod bp.t2).bind ((inverts_pod bp.taux).bind ((inverts_pod bp.mu).bind
    ((inverts_key_container bp.l).bind ((inverts_key_container bp.r).bind
    ((inverts_pod bp.a).bind ((inverts_pod bp.b).bind ((inverts_pod bp.t).bind ?_))))))))))
  rw [← Out.append_emit_nil (Out.require _)]
  exact ReadsBack.require fun _ => ReadsBack.pure _

/-- Where amounts are expected, the count of proofs has not wrapped: so many
proofs would not have been let through. -/
theorem proofs_length_lt {outputs : UInt64} {bulletproofs : StdVector Bulletproof}
    (hmax : outputs.toNat ≤ nBulletproofMaxAmountsAll bulletproofs) (hpos : 0 < outputs.toNat) :
    bulletproofs.toList.length < 2 ^ 32 := by
  have h := nBulletproofMaxAmountsLoop_length (n := 0) (by decide) (hpos.trans_le hmax)
  simpa using h

theorem readsBack_bulletproofs (outputs : UInt64) (bulletproofs : StdVector Bulletproof) :
    ReadsBack (loadBulletproofs outputs) (saveBulletproofs outputs bulletproofs)
      ((keptBulletproofs bulletproofs).map Bulletproof.serialised) := by
  have hkept : bulletproofs.toList.take bulletproofs.size.toUInt32.toNat =
      (keptBulletproofs bulletproofs).toList := rfl
  simp only [saveBulletproofs, Out.append_assoc, hkept]
  refine (inverts_uint32 bulletproofs.size.toUInt32).bind (ReadsBack.require fun _ => ?_)
  intro hok
  rw [Out.append_ok, Out.require_ok] at hok
  obtain ⟨hok, hmax⟩ := hok
  rw [Out.require_true hmax, Out.append_emit_nil]
  have hload := delivers_loadArray (n := bulletproofs.size.toUInt32.toUInt64)
    (fun bp _ => inverts_bulletproof bp) hok (keptBulletproofs_size bulletproofs)
  rw [← List.append_nil (Out.saveAll _ _).bytes]
  refine hload.bind (Delivers.require_bind ?_ (Delivers.pure _))
  rcases Nat.eq_zero_or_pos outputs.toNat with hzero | hpos
  · omega
  · rw [keptBulletproofs_of_lt (proofs_length_lt hmax hpos)]
    unfold nBulletproofMaxAmountsAll at hmax ⊢
    rw [StdVector.map_toList, nBulletproofMaxAmountsLoop_serialised]
    exact hmax

theorem inverts_rctSigBase (inputs outputs : UInt64) :
    Inverts (loadRctSigBase inputs outputs) (saveRctSigBase inputs outputs)
      RctSigBase.serialised := by
  intro rv
  unfold saveRctSigBase
  refine (inverts_uint8 rv.type).bind ?_
  unfold RctSigBase.serialised
  by_cases hnull : rv.type = rctTypeNull
  · simp only [id_eq, if_pos hnull]
    exact ReadsBack.pure _
  · simp only [id_eq, if_neg hnull, Out.append_assoc]
    refine ReadsBack.require fun _ => ?_
    refine (inverts_varint64 rv.txnFee).bind ?_
    refine (inverts_array_id inverts_pod rv.pseudoOuts).loadIf.bind ?_
    refine (inverts_array_id inverts_ecdhTuple rv.ecdhInfo).bind ?_
    exact (inverts_array inverts_outPk rv.outPk).bind_pure rfl

theorem readsBack_rctSigPrunable (type : UInt8) (inputs outputs mixin : UInt64)
    (p : RctSigPrunable) :
    ReadsBack (loadRctSigPrunable type inputs outputs mixin)
      (saveRctSigPrunable type inputs outputs mixin p)
      ({ p with bulletproofs := keptBulletproofs p.bulletproofs }.serialised type) := by
  unfold loadRctSigPrunable saveRctSigPrunable RctSigPrunable.serialised
  by_cases hnull : type = rctTypeNull
  · simp only [if_pos hnull]
    exact ReadsBack.pure _
  · simp only [if_neg hnull, Out.append_assoc]
    refine ReadsBack.require fun _ => ?_
    refine (readsBack_bulletproofs outputs p.bulletproofs).loadIf.bind ?_
    refine (inverts_array_id inverts_rangeSig p.rangeSigs).loadIf.bind ?_
    refine (inverts_array_id (inverts_mgSig _ _) p.mgs).bind ?_
    exact (inverts_array_id inverts_pod p.pseudoOuts).loadIf.bind_pure rfl

end XrCoin.Cryptonote

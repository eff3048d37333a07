import XrCoin.Core.IncomingTxs
import XrCoin.TxPool.Adding

/-!
Rules for the loops of the intake: what holds of every blob that comes out of the
batch, which hashes the batch marks, and what the last loop keeps.
-/

namespace XrCoin.Core

open Archive Cryptonote TxPool

section

variable {ρ : Type} {conf : CoreConfig} {crypto : CoreCrypto} {ops : CryptoOps}
  {cfg : Config} {view : CoreView}

theorem haveTxInPool_eq_false {p : Pool ρ} {id : Hash} :
    haveTxInPool p id = false ↔ id ∉ p.txpool.rows.map PoolRow.txid := by
  constructor
  · intro h hmem
    obtain ⟨row, hrow, rfl⟩ := List.mem_map.mp hmem
    rw [haveTxInPool, Txpool.find_of_mem hrow] at h
    exact absurd h (by simp)
  · intro h
    cases hfind : p.txpool.find id with
    | none => rw [haveTxInPool, hfind, Option.isSome_none]
    | some row =>
        obtain ⟨hrow, rfl⟩ := Txpool.find_eq_some hfind
        exact absurd (List.mem_map_of_mem hrow) h

theorem handleIncomingTxPre_eq_some {c : CoreState ρ} {blob : List UInt8} {tx : Transaction}
    {hash : Hash} (h : (handleIncomingTxPre conf ops cfg view c blob).2 = some (tx, hash)) :
    parseAndValidateTxFromBlob ops cfg blob = some tx ∧ hash = getTransactionHash ops cfg tx ∧
      blob.length ≤ conf.maxTxSize ∧ tx.version ≠ 0 ∧ hash ∉ c.badSemanticsTxes.1 ∧
      hash ∉ c.badSemanticsTxes.2 := by
  rw [handleIncomingTxPre] at h
  split at h
  · exact absurd h (by simp)
  rename_i hsize
  split at h
  · exact absurd h (by simp)
  rename_i tx' hparse
  simp only at h
  split at h
  · exact absurd h (by simp)
  rename_i hpass
  obtain ⟨rfl, rfl⟩ := Prod.mk.inj (Option.some.inj h)
  exact ⟨hparse, rfl, not_lt.mp hsize, fun hzero => hpass (.inr (.inr (.inl hzero))),
    fun hmem => hpass (.inl hmem), fun hmem => hpass (.inr (.inl hmem))⟩

/-- Of the node only the marked hashes matter to it. -/
theorem handleIncomingTxPre_of_unmarked {c c' : CoreState ρ} {blob : List UInt8}
    {tx : Transaction} {hash : Hash}
    (h : (handleIncomingTxPre conf ops cfg view c blob).2 = some (tx, hash))
    (hfirst : hash ∉ c'.badSemanticsTxes.1) (hsecond : hash ∉ c'.badSemanticsTxes.2) :
    handleIncomingTxPre conf ops cfg view c' blob =
      handleIncomingTxPre conf ops cfg view c blob := by
  obtain ⟨hparse, rfl, -, -, hfirst', hsecond'⟩ := handleIncomingTxPre_eq_some h
  simp only [handleIncomingTxPre, hparse, hfirst, hsecond, hfirst', hsecond', false_or]

/-! ### The batch -/

/-- A property of the transactions that are still to be added. -/
def Pending (P : List UInt8 → Transaction → Hash → Prop) (e : Incoming) : Prop :=
  ∀ tx hash, e.pending = some (tx, hash) → P e.blob tx hash

variable {P : List UInt8 → Transaction → Hash → Prop}

theorem pending_fail (e : Incoming) : e.fail.pending = none := by
  rw [Incoming.pending]
  split <;> rfl

theorem Pending.fail (e : Incoming) : Pending P e.fail := by
  intro tx hash h
  rw [pending_fail] at h
  exact absurd h (by simp)

theorem Pending.mono {Q : List UInt8 → Transaction → Hash → Prop} {e : Incoming}
    (h : Pending P e) (hPQ : ∀ blob tx hash, P blob tx hash → Q blob tx hash) : Pending Q e :=
  fun tx hash hpending => hPQ _ tx hash (h tx hash hpending)

/-- The first loop keeps what held of the transactions, and when it comes to its end
those that are left have passed. -/
theorem checkEach_pending {keepedByBlock : Bool} {es : List Incoming} {bad : BadSemanticsTxes}
    (h : ∀ e ∈ es, Pending P e) :
    (∀ e ∈ (checkEach conf crypto cfg view keepedByBlock es bad).2.2, Pending P e) ∧
      ((checkEach conf crypto cfg view keepedByBlock es bad).1 = true →
        ∀ e ∈ (checkEach conf crypto cfg view keepedByBlock es bad).2.2,
          Pending (fun _ tx _ =>
            checkTxSemantic conf crypto cfg view tx keepedByBlock = some true) e) := by
  induction es generalizing bad with
  | nil => exact ⟨by simp [checkEach], by simp [checkEach]⟩
  | cons e es ih =>
      rw [List.forall_mem_cons] at h
      rw [checkEach]
      split
      · rename_i hpending
        obtain ⟨hkeep, hpassed⟩ := @ih bad h.2
        refine ⟨List.forall_mem_cons.mpr ⟨h.1, hkeep⟩, fun hend => ?_⟩
        refine List.forall_mem_cons.mpr ⟨fun tx hash heq => ?_, hpassed hend⟩
        rw [hpending] at heq
        exact absurd heq (by simp)
      · rename_i tx hash hpending
        split
        · exact ⟨List.forall_mem_cons.mpr h, fun hend => absurd hend (by simp)⟩
        · rename_i semantic hsemantic
          split
          · rename_i hpass
            obtain ⟨hkeep, hpassed⟩ := @ih bad h.2
            refine ⟨List.forall_mem_cons.mpr ⟨h.1, hkeep⟩, fun hend => ?_⟩
            refine List.forall_mem_cons.mpr ⟨fun tx' hash' heq => ?_, hpassed hend⟩
            rw [hpending] at heq
            obtain ⟨rfl, rfl⟩ := Prod.mk.inj (Option.some.inj heq)
            rw [Bool.and_eq_true] at hpass
            rw [hsemantic, hpass.1]
          · obtain ⟨hkeep, hpassed⟩ := @ih (setSemanticsFailed hash bad) h.2
            exact ⟨List.forall_mem_cons.mpr ⟨.fail e, hkeep⟩,
              fun hend => List.forall_mem_cons.mpr ⟨.fail e, hpassed hend⟩⟩

theorem verifyEach_pending {assumedBad : Bool} {es : List Incoming} {bad : BadSemanticsTxes}
    (h : ∀ e ∈ es, Pending P e) :
    ∀ e ∈ (verifyEach crypto assumedBad es bad).2, Pending P e := by
  induction es generalizing bad with
  | nil => simp [verifyEach]
  | cons e es ih =>
      rw [List.forall_mem_cons] at h
      rw [verifyEach]
      split
      · exact List.forall_mem_cons.mpr ⟨h.1, ih h.2⟩
      · split
        · exact List.forall_mem_cons.mpr ⟨.fail e, ih h.2⟩
        · exact List.forall_mem_cons.mpr ⟨h.1, ih h.2⟩

/-- What held of the transactions before the batch holds of those it leaves. -/
theorem batch_pending {keepedByBlock : Bool} {es : List Incoming} {bad : BadSemanticsTxes}
    (h : ∀ e ∈ es, Pending P e) :
    ∀ e ∈ (handleIncomingTxAccumulatedBatch conf crypto cfg view keepedByBlock es bad).2.2,
      Pending P e := by
  rw [handleIncomingTxAccumulatedBatch]
  split
  · exact h
  · simp only
    split
    · exact verifyEach_pending (checkEach_pending h).1
    · exact (checkEach_pending h).1

theorem batch_semantic {es : List Incoming} {bad : BadSemanticsTxes}
    (hend : (handleIncomingTxAccumulatedBatch conf crypto cfg view false es bad).1 = true) :
    ∀ e ∈ (handleIncomingTxAccumulatedBatch conf crypto cfg view false es bad).2.2,
      Pending (fun _ tx _ => checkTxSemantic conf crypto cfg view tx false = some true) e := by
  have hall : ∀ e ∈ es, Pending (fun _ _ _ => True) e := fun e _ tx hash _ => trivial
  have hnot : ¬((false : Bool) = true ∧ view.isWithinCompiledBlockHashArea = true) := by simp
  rw [handleIncomingTxAccumulatedBatch, if_neg hnot] at hend ⊢
  simp only at hend ⊢
  split
  · rename_i hcond
    exact verifyEach_pending ((checkEach_pending hall).2 hcond.1)
  · rename_i hcond
    rw [if_neg hcond] at hend
    exact (checkEach_pending hall).2 hend

/-! ### Marked hashes -/

def Marked (hash : Hash) (bad : BadSemanticsTxes) : Prop := hash ∈ bad.1 ∨ hash ∈ bad.2

theorem marked_setSemanticsFailed {hash txHash : Hash} {bad : BadSemanticsTxes}
    (h : Marked hash (setSemanticsFailed txHash bad)) : hash = txHash ∨ Marked hash bad := by
  rw [setSemanticsFailed] at h
  split at h
  · rcases h with hmem | hmem
    · exact absurd hmem (by simp)
    · rcases Finset.mem_insert.mp hmem with heq | hmem
      · exact .inl heq
      · exact .inr (.inl hmem)
  · rcases h with hmem | hmem
    · rcases Finset.mem_insert.mp hmem with heq | hmem
      · exact .inl heq
      · exact .inr (.inl hmem)
    · exact .inr (.inr hmem)

/-- The whole semantic check of one transaction: `check_tx_semantic`, the signature,
and the delayed verification. -/
def PassesSemantics (conf : CoreConfig) (crypto : CoreCrypto) (cfg : Config) (view : CoreView)
    (keepedByBlock : Bool) (tx : Transaction) : Prop :=
  checkTxSemantic conf crypto cfg view tx keepedByBlock = some true ∧
    checkRctSemantic conf crypto tx = true ∧
    (2 ≤ tx.version ∧ tx.rctSignatures.type = rctTypeBulletproof →
      crypto.verRctSemanticsSimple tx.rctSignatures = true)

theorem checkEach_unmarked {keepedByBlock : Bool} {es : List Incoming} {bad : BadSemanticsTxes}
    {hash : Hash} (hes : ∀ e ∈ es, Pending (fun _ tx txHash => txHash = hash →
      PassesSemantics conf crypto cfg view keepedByBlock tx) e) (hbad : ¬Marked hash bad) :
    ¬Marked hash (checkEach conf crypto cfg view keepedByBlock es bad).2.1 := by
  induction es generalizing bad with
  | nil => exact hbad
  | cons e es ih =>
      rw [List.forall_mem_cons] at hes
      rw [checkEach]
      split
      · exact ih hes.2 hbad
      · rename_i tx txHash hpending
        split
        · exact hbad
        · rename_i semantic hsemantic
          split
          · exact ih hes.2 hbad
          · rename_i hfail
            refine ih hes.2 fun hmarked => ?_
            rcases marked_setSemanticsFailed hmarked with rfl | hmarked
            · obtain ⟨hpass, hrct, -⟩ := hes.1 tx hash hpending rfl
              rw [hsemantic] at hpass
              rw [Option.some.inj hpass, hrct] at hfail
              exact hfail rfl
            · exact hbad hmarked

theorem verifyEach_unmarked {assumedBad : Bool} {es : List Incoming} {bad : BadSemanticsTxes}
    {hash : Hash} (hes : ∀ e ∈ es, Pending (fun _ tx txHash => txHash = hash →
      tx.rctSignatures.type = rctTypeBulletproof →
        assumedBad = false ∧ crypto.verRctSemanticsSimple tx.rctSignatures = true) e)
    (hbad : ¬Marked hash bad) :
    ¬Marked hash (verifyEach crypto assumedBad es bad).1 := by
  induction es generalizing bad with
  | nil => exact hbad
  | cons e es ih =>
      rw [List.forall_mem_cons] at hes
      rw [verifyEach]
      split
      · exact ih hes.2 hbad
      · rename_i tx txHash hpending
        split
        · rename_i hcond
          refine ih hes.2 fun hmarked => ?_
          rcases marked_setSemanticsFailed hmarked with rfl | hmarked
          · obtain ⟨hassumed, hver⟩ := hes.1 tx hash hpending rfl hcond.1
            rcases hcond.2 with heq | heq
            · exact absurd (hassumed.symm.trans heq) (by simp)
            · exact absurd (hver.symm.trans heq) (by simp)
          · exact hbad hmarked
        · exact ih hes.2 hbad

theorem mem_delayed {es : List Incoming} {e : Incoming} {tx : Transaction} {hash : Hash}
    (he : e ∈ es) (hpending : e.pending = some (tx, hash)) (hversion : 2 ≤ tx.version)
    (htype : tx.rctSignatures.type = rctTypeBulletproof) : tx.rctSignatures ∈ delayed es := by
  refine List.mem_filterMap.mpr ⟨e, he, ?_⟩
  simp only [hpending, if_pos (And.intro hversion htype)]

/-- A relayed transaction that passes is not marked, whatever comes with it. -/
theorem batch_unmarked {es : List Incoming} {bad : BadSemanticsTxes} {hash : Hash}
    (hparsed : ∀ e ∈ es, Pending (fun blob tx _ =>
      parseAndValidateTxFromBlob ops cfg blob = some tx ∧ tx.version ≠ 0) e)
    (hes : ∀ e ∈ es, Pending (fun _ tx txHash => txHash = hash →
      PassesSemantics conf crypto cfg view false tx) e) (hbad : ¬Marked hash bad) :
    ¬Marked hash (handleIncomingTxAccumulatedBatch conf crypto cfg view false es bad).2.1 := by
  have hnot : ¬((false : Bool) = true ∧ view.isWithinCompiledBlockHashArea = true) := by simp
  have hchecked := checkEach_unmarked hes hbad
  rw [handleIncomingTxAccumulatedBatch, if_neg hnot]
  simp only
  split
  · rename_i hcond
    refine verifyEach_unmarked (fun e he tx txHash hpending heq htype => ?_) hchecked
    obtain ⟨hsemantic, hrct, hver⟩ := (checkEach_pending hes).1 e he tx txHash hpending heq
    have hversion : 2 ≤ tx.version := by
      by_contra hlt
      obtain ⟨hparse, hne⟩ := (checkEach_pending hparsed).1 e he tx txHash hpending
      have hone : tx.version = 1 := by
        rw [UInt64.not_le, UInt64.lt_iff_toNat_lt] at hlt
        have hpos : tx.version.toNat ≠ 0 := fun hzero => hne (UInt64.toNat_inj.mp hzero)
        have htwo : (2 : UInt64).toNat = 2 := rfl
        apply UInt64.toNat_inj.mp
        show tx.version.toNat = 1
        omega
      rw [rctSignatures_of_parse hparse hone] at htype
      exact absurd htype (by decide)
    refine ⟨?_, hver ⟨hversion, htype⟩⟩
    -- alone in the delayed batch it would have verified
    by_contra hassumed
    rw [Bool.not_eq_false, decide_eq_true_eq, List.length_eq_one_iff] at hassumed
    obtain ⟨rv, hrv⟩ := hassumed
    have hmem := mem_delayed he hpending hversion htype
    rw [hrv, List.mem_singleton] at hmem
    rw [hrv, List.all_cons, List.all_nil, Bool.and_true, ← hmem, hver ⟨hversion, htype⟩] at hcond
    exact absurd hcond.2 (by simp)
  · exact hchecked

/-! ### The last loop -/

variable [DecidableEq ρ] {fr : FeeRate ρ} {flags : TxFlags}

/-- What every addition keeps, the loop keeps. -/
theorem addEach_state {S : CoreState ρ → Prop} {es : List Incoming} {c : CoreState ρ}
    (hstep : ∀ e ∈ es, ∀ tx hash weight c, e.pending = some (tx, hash) →
      getTransactionWeight tx e.blob.length = some weight → S c →
        S (addNewTx ops cfg view fr tx hash weight.toUInt64 e.tvc flags c).2.2)
    (hc : S c) : S (addEach ops cfg view fr flags es c).2.2 := by
  induction es generalizing c with
  | nil => exact hc
  | cons e es ih =>
      rw [List.forall_mem_cons] at hstep
      rw [addEach]
      split
      · exact ih hstep.2 hc
      · rename_i hhave
        split
        · exact ih hstep.2 hc
        · rename_i tx hash hparsed
          split
          · exact hc
          · rename_i weight hweight
            have hpending : e.pending = some (tx, hash) := by
              rw [Incoming.pending, if_neg hhave, hparsed]
            exact ih hstep.2 (hstep.1 tx hash weight c hpending hweight hc)

omit [DecidableEq ρ] in
/-- What goes to the batch has passed `handle_incoming_tx_pre` and is not known. -/
theorem pending_incoming {c : CoreState ρ} {blob : List UInt8} {tx : Transaction} {hash : Hash}
    (h : (incoming conf ops cfg view c blob).pending = some (tx, hash)) :
    (handleIncomingTxPre conf ops cfg view c blob).2 = some (tx, hash) ∧
      haveTxInPool c.mempool hash = false ∧ view.haveTx hash = false := by
  rw [Incoming.pending] at h
  split at h
  · exact absurd h (by simp)
  · rename_i hhave
    have hpre : (handleIncomingTxPre conf ops cfg view c blob).2 = some (tx, hash) := h
    rw [incoming, hpre, Bool.or_eq_true, not_or, Bool.not_eq_true, Bool.not_eq_true] at hhave
    exact ⟨hpre, hhave⟩

omit [DecidableEq ρ] in
theorem incoming_pending (c : CoreState ρ) (txBlobs : List (List UInt8)) :
    ∀ e ∈ txBlobs.map (incoming conf ops cfg view c), Pending (fun blob tx hash =>
      blob ∈ txBlobs ∧ (handleIncomingTxPre conf ops cfg view c blob).2 = some (tx, hash) ∧
        haveTxInPool c.mempool hash = false ∧ view.haveTx hash = false) e := by
  intro e he tx hash hpending
  obtain ⟨blob, hblob, rfl⟩ := List.mem_map.mp he
  exact ⟨hblob, pending_incoming hpending⟩

/-- What a node keeps when transactions are added that were handed in and passed
the batch, it keeps when transactions come in. -/
theorem handleIncomingTxs_state {S : CoreState ρ → Prop} {txBlobs : List (List UInt8)}
    {c : CoreState ρ}
    (hbatch : S ⟨c.mempool, (handleIncomingTxAccumulatedBatch conf crypto cfg view
      flags.keepedByBlock (txBlobs.map (incoming conf ops cfg view c)) c.badSemanticsTxes).2.1,
      c.blocksTxsCheck⟩)
    (hstep : ∀ blob ∈ txBlobs, ∀ tx tvc weight c',
      parseAndValidateTxFromBlob ops cfg blob = some tx → blob.length ≤ conf.maxTxSize →
      (flags.keepedByBlock = false →
        checkTxSemantic conf crypto cfg view tx false = some true) →
      getTransactionWeight tx blob.length = some weight → S c' →
        S (addNewTx ops cfg view fr tx (getTransactionHash ops cfg tx) weight.toUInt64 tvc
          flags c').2.2) :
    S (handleIncomingTxs conf crypto ops cfg view fr flags txBlobs c).2.2 := by
  rw [handleIncomingTxs]
  split
  · rename_i hend
    refine addEach_state (fun e he tx hash weight c' hpending hweight hc' => ?_) hbatch
    obtain ⟨hblob, hpre, -⟩ :=
      batch_pending (incoming_pending c txBlobs) e he tx hash hpending
    obtain ⟨hparse, rfl, hsize, -⟩ := handleIncomingTxPre_eq_some hpre
    refine hstep e.blob hblob tx e.tvc weight c' hparse hsize (fun hkept => ?_) hweight hc'
    rw [hkept] at hend he
    exact batch_semantic hend e he tx _ hpending
  · exact hbatch

end

end XrCoin.Core

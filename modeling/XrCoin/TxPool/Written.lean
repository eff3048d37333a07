import XrCoin.TxPool.Runs

/-!
Where the rows of the pool come from. Every operation but `add_tx` leaves the rows as they
are, marks them or drops them, and `add_tx` writes its transaction under its own id. In
every run, therefore, a row has the blob that its transaction is written as.
-/

namespace XrCoin.TxPool

open Archive Cryptonote Data

section

variable {ρ : Type} (ops : CryptoOps) (cfg : Config)

/-- Each row has the blob and the id of its transaction. -/
def Written (p : Pool ρ) : Prop :=
  ∀ row ∈ p.txpool.rows, ∃ tx, parseAndValidateTxFromBlob ops cfg (txToBlob cfg tx) = some tx ∧
    row.txid = getTransactionHash ops cfg tx ∧ row.blob = txToBlob cfg tx

variable {ops cfg} {p : Pool ρ} {row : PoolRow}

/-- The transaction of a row, when the row is taken. -/
theorem Written.of_parse (h : Written ops cfg p) (hrow : row ∈ p.txpool.rows) {tx : Transaction}
    (hparse : parseAndValidateTxFromBlob ops cfg row.blob = some tx) :
    row.txid = getTransactionHash ops cfg tx ∧ row.blob = txToBlob cfg tx := by
  obtain ⟨tx', hback, hid, hblob⟩ := h row hrow
  rw [hblob, hback] at hparse
  obtain rfl := Option.some.inj hparse
  exact ⟨hid, hblob⟩

/-! ### What the operations do to the rows -/

theorem foldl_rows {β σ : Type} {f : σ → β → σ} (pool : σ → Pool ρ)
    (hf : ∀ s b, ∀ row ∈ (pool (f s b)).txpool.rows, row ∈ (pool s).txpool.rows) (l : List β)
    (s : σ) (hrow : row ∈ (pool (l.foldl f s)).txpool.rows) : row ∈ (pool s).txpool.rows := by
  induction l generalizing s with
  | nil => exact hrow
  | cons b l ih => exact hf s b row (ih (f s b) hrow)

theorem takeTx_rows {id : Hash} (h : row ∈ (takeTx ops cfg id p).2.txpool.rows) :
    row ∈ p.txpool.rows := by
  rw [takeTx] at h
  split at h
  · split at h
    · exact h
    · split at h
      · exact h
      · exact (Txpool.mem_remove.mp h).1
  · exact h

theorem removeStuckTransactions_rows {conf : PoolConfig} {view : ChainView}
    (h : row ∈ (removeStuckTransactions cfg conf view p).txpool.rows) : row ∈ p.txpool.rows := by
  have hdrop := foldl_rows id (fun q gone other hother => by
    simp only [id, Pool.dropStuck] at hother ⊢
    split at hother
    · exact hother
    · split at hother
      · exact hother
      · exact (Txpool.mem_remove.mp hother).1) _ _ h
  rw [id, (foldl_timeOut _ p).1] at hdrop
  exact hdrop

theorem validate_rows {view : ChainView} {version : UInt8} {order : List Hash → List Hash}
    (h : row ∈ (validate ops cfg view version order p).2.txpool.rows) : row ∈ p.txpool.rows := by
  refine foldl_rows Prod.snd (fun s gone other hother => ?_) _ _ h
  rw [removeInvalid] at hother
  split at hother
  · exact hother
  · split at hother
    · exact hother
    · split at hother
      · exact (Txpool.mem_remove.mp hother).1
      · exact (Txpool.mem_remove.mp hother).1

theorem initPass_txpool {fr : FeeRate ρ} {kept ok : Bool} {rows : List PoolRow}
    {s s' : List Hash × Pool ρ} (h : initPass fr cfg kept rows s = (ok, s')) :
    s'.2.txpool = s.2.txpool := by
  induction rows generalizing s with
  | nil => rw [← (Prod.mk.inj h).2]
  | cons row rows ih =>
      rw [initPass] at h
      split at h
      · exact ih h
      · split at h
        · exact (ih h).trans rfl
        · simp only at h
          split at h
          · exact (ih h).trans rfl
          · rw [← (Prod.mk.inj h).2]

theorem removeCorrupt_rows {remove : List Hash} (h : row ∈ (removeCorrupt remove p).txpool.rows) :
    row ∈ p.txpool.rows := by
  have hsub : ∀ t : Txpool, row ∈ (remove.foldl Txpool.remove t).rows → row ∈ t.rows := by
    intro t
    clear h
    induction remove generalizing t with
    | nil => exact fun hrow => hrow
    | cons id remove ih => exact fun hrow => (Txpool.mem_remove.mp (ih (t.remove id) hrow)).1
  exact hsub p.txpool h

theorem init_rows {fr : FeeRate ρ} {conf : PoolConfig} {maxTxpoolWeight : UInt64}
    (h : row ∈ (init fr cfg conf maxTxpoolWeight p).2.txpool.rows) : row ∈ p.txpool.rows := by
  rw [init] at h
  simp only at h
  split at h
  · rename_i heq
    rwa [initPass_txpool heq] at h
  · rename_i heq
    have hfirst := initPass_txpool heq
    split at h
    · rename_i heq'
      rwa [initPass_txpool heq', hfirst] at h
    · rename_i heq'
      have hrow := removeCorrupt_rows h
      rwa [initPass_txpool heq', hfirst] at hrow

variable [DecidableEq ρ]

theorem apply_rows {fr : FeeRate ρ} {conf : PoolConfig} {view : ChainView} {op : PoolOp}
    (h : row ∈ (op.apply fr ops cfg conf view p).txpool.rows) :
    (∃ old ∈ p.txpool.rows, SameTx row old) ∨
      ∃ args tvc info, op = .addTx args tvc ∧ row = newRow ops cfg args.tx info := by
  have hsame : row ∈ p.txpool.rows → ∃ old ∈ p.txpool.rows, SameTx row old :=
    fun hrow => ⟨row, hrow, rfl, rfl, rfl, rfl⟩
  cases op with
  | addTx args tvc =>
      rcases addTx_rows h with hold | ⟨fee, used, seen, -, hnew⟩
      · exact .inl hold
      · exact .inr ⟨args, tvc, _, rfl, hnew⟩
  | takeTx id => exact .inl (hsame (takeTx_rows h))
  | prune bytes => exact .inl (hsame (pruneLoop_rows h))
  | removeStuckTransactions => exact .inl (hsame (removeStuckTransactions_rows h))
  | validate version order => exact .inl (hsame (validate_rows h))
  | init maxTxpoolWeight => exact .inl (hsame (init_rows h))

theorem Run.written {fr : FeeRate ρ} {conf : PoolConfig}
    (h : Run fr ops cfg conf (Admissible ops cfg) p) : Written ops cfg p := by
  induction h with
  | empty maxWeight => exact fun row hrow => absurd hrow List.not_mem_nil
  | step view op hrun hop ih =>
      intro row hrow
      rcases apply_rows hrow with ⟨old, hold, hsame⟩ | ⟨args, tvc, info, rfl, rfl⟩
      · obtain ⟨tx, hback, hid, hblob⟩ := ih old hold
        exact ⟨tx, hback, hsame.txid.trans hid, hsame.blob.trans hblob⟩
      · obtain ⟨blob, hblob⟩ := hop.parsed
        exact ⟨args.tx, parse_txToBlob hblob, rfl, rfl⟩

end

end XrCoin.TxPool

import XrCoin.Core.Relays

/-!
The weight of a block. What the pool records for a transaction is computed from the
size of the blob it was received in, while its hash is computed from what it is
written to. So nodes agree on the weight of a block when each of its transactions
came in as many bytes as it is written to.
-/

namespace XrCoin.Core

open Archive Cryptonote TxPool

/-! ### Weights -/

theorem getTransactionWeight_lt {tx : Transaction} {n weight : ℕ} (hn : n < 2 ^ 64)
    (h : getTransactionWeight tx n = some weight) : weight < 2 ^ 64 := by
  rw [getTransactionWeight] at h
  split at h
  · rw [← Option.some.inj h]
    exact hn
  · simp only at h
    split at h
    · rename_i hfits
      rw [← Option.some.inj h]
      omega
    · exact absurd h (by simp)

theorem getTransactionWeight_inj {tx : Transaction} {m n weight : ℕ}
    (hm : getTransactionWeight tx m = some weight) (hn : getTransactionWeight tx n = some weight) :
    m = n := by
  rw [getTransactionWeight] at hm hn
  split at hm
  · rename_i hsize
    rw [if_pos hsize] at hn
    exact Option.some.inj (hm.trans hn.symm)
  · rename_i hsize
    rw [if_neg hsize] at hn
    simp only at hm hn
    split at hm
    · split at hn
      · have heq := Option.some.inj (hm.trans hn.symm)
        omega
      · exact absurd hn (by simp)
    · exact absurd hm (by simp)

theorem transactionFee_congr {tx : Transaction} {tvc tvc' : TxVerificationContext}
    {fee fee' : UInt64} (h : transactionFee tx tvc = .ok fee)
    (h' : transactionFee tx tvc' = .ok fee') : fee = fee' := by
  rw [transactionFee] at h h'
  split at h
  · rename_i hversion
    rw [if_pos hversion] at h'
    split at h
    · exact absurd h (by simp)
    · rename_i inputsAmount hinputs
      simp only [hinputs] at h h'
      split at h
      · exact absurd h (by simp)
      · rename_i hover
        rw [if_neg hover] at h'
        split at h
        · exact absurd h (by simp)
        · rename_i hzero
          rw [if_neg hzero] at h'
          exact Except.ok.inj (h.symm.trans h')
  · rename_i hversion
    rw [if_neg hversion] at h'
    exact Except.ok.inj (h.symm.trans h')

section

variable {ρ : Type} {conf : CoreConfig} {crypto : CoreCrypto} {ops : CryptoOps}
  {cfg : Config} {view : CoreView} {flags : TxFlags}

/-! ### Where the rows come from -/

/-- The row is what the intake makes of the blob. -/
def Delivers (ops : CryptoOps) (cfg : Config) (blob : List UInt8) (row : PoolRow) : Prop :=
  ∃ tx tvc, parseAndValidateTxFromBlob ops cfg blob = some tx ∧
    row.txid = getTransactionHash ops cfg tx ∧ row.blob = txToBlob cfg tx ∧
    getTransactionWeight tx blob.length = some row.info.weight.toNat ∧
    transactionFee tx tvc = .ok row.info.fee

theorem Delivers.of_sameTx {blob : List UInt8} {row old : PoolRow}
    (h : Delivers ops cfg blob old) (hsame : SameTx row old) : Delivers ops cfg blob row := by
  obtain ⟨tx, tvc, hparse, hid, hblob, hweight, hfee⟩ := h
  refine ⟨tx, tvc, hparse, hsame.txid.trans hid, hsame.blob.trans hblob, ?_, ?_⟩
  · rw [hweight, hsame.weight]
  · rw [hfee, hsame.fee]

variable [DecidableEq ρ] {fr : FeeRate ρ}

theorem handleIncomingTxs_rows {D : PoolRow → Prop} {txBlobs : List (List UInt8)}
    {c : CoreState ρ} (hsame : ∀ {row old}, SameTx row old → D old → D row)
    (hold : ∀ row ∈ c.mempool.txpool.rows, D row)
    (hnew : ∀ blob ∈ txBlobs, ∀ row, Delivers ops cfg blob row → D row) :
    ∀ row ∈ (handleIncomingTxs conf crypto ops cfg view fr flags txBlobs
      c).2.2.mempool.txpool.rows, D row := by
  refine handleIncomingTxs_state (S := fun c => ∀ row ∈ c.mempool.txpool.rows, D row) hold ?_
  intro blob hblob tx tvc weight c' hparse hsize _ hweight hc' row hrow
  rw [addNewTx] at hrow
  split at hrow
  · exact hc' row hrow
  · rcases addTx_rows hrow with ⟨old, hmem, hrow⟩ | ⟨fee, used, seen, hfee, rfl⟩
    · exact hsame hrow (hc' old hmem)
    · refine hnew blob hblob _ ⟨tx, tvc, hparse, rfl, rfl, ?_, hfee⟩
      have hlt : weight < 2 ^ 64 :=
        getTransactionWeight_lt (hsize.trans_lt (conf.maxTxSize_lt.trans (by norm_num))) hweight
      show getTransactionWeight tx blob.length = some weight.toUInt64.toNat
      rw [hweight, Nat.toUInt64_eq, UInt64.toNat_ofNat', Nat.mod_eq_of_lt hlt]

/-! ### Taking -/

omit [DecidableEq ρ] in
theorem takeTx_eq_some {id : Hash} {p : Pool ρ} {taken : TakenTx}
    (h : (takeTx ops cfg id p).1 = some taken) :
    ∃ row ∈ p.txpool.rows, row.txid = id ∧
      parseAndValidateTxFromBlob ops cfg row.blob = some taken.tx ∧
      taken.txWeight = row.info.weight ∧ taken.fee = row.info.fee := by
  rw [takeTx] at h
  split at h
  · split at h
    · exact absurd h (by simp)
    · rename_i row hfind
      split at h
      · exact absurd h (by simp)
      · rename_i tx hparse
        obtain ⟨hrow, hid⟩ := Txpool.find_eq_some hfind
        obtain rfl := Option.some.inj h
        exact ⟨row, hrow, hid, hparse, rfl, rfl⟩
  · exact absurd h (by simp)

/-- The blob was accepted by some node that did not have its transaction, with others
that are not of the same one, and `take_tx` returns this weight. -/
def AcceptedWith (conf : CoreConfig) (crypto : CoreCrypto) (ops : CryptoOps) (cfg : Config)
    (fr : FeeRate ρ) (blob : List UInt8) (tx : Transaction) (weight : UInt64) : Prop :=
  parseAndValidateTxFromBlob ops cfg blob = some tx ∧
    ∃ (view : CoreView) (flags : TxFlags) (txBlobs : List (List UInt8)) (c : CoreState ρ)
      (taken : TakenTx), blob ∈ txBlobs ∧
      (∀ blob' ∈ txBlobs, ∀ tx', parseAndValidateTxFromBlob ops cfg blob' = some tx' →
        getTransactionHash ops cfg tx' = getTransactionHash ops cfg tx → blob' = blob) ∧
      haveTxInPool c.mempool (getTransactionHash ops cfg tx) = false ∧
      (takeTx ops cfg (getTransactionHash ops cfg tx)
        (handleIncomingTxs conf crypto ops cfg view fr flags txBlobs c).2.2.mempool).1 =
          some taken ∧ taken.txWeight = weight

theorem AcceptedWith.weight_eq {blob : List UInt8} {tx : Transaction} {weight : UInt64}
    (h : AcceptedWith conf crypto ops cfg fr blob tx weight) :
    getTransactionWeight tx blob.length = some weight.toNat := by
  obtain ⟨hparse, view, flags, txBlobs, c, taken, -, honly, hnew, htaken, rfl⟩ := h
  obtain ⟨row, hrow, hid, -, hweight, -⟩ := takeTx_eq_some htaken
  rw [haveTxInPool_eq_false] at hnew
  have hdelivers := handleIncomingTxs_rows
    (D := fun row => row.txid = getTransactionHash ops cfg tx → Delivers ops cfg blob row)
    (fun hsame hold heq => (hold (hsame.txid.symm.trans heq)).of_sameTx hsame)
    (fun old hold heq => absurd (heq ▸ List.mem_map_of_mem hold) hnew)
    (fun blob' hblob' row hrow heq => by
      have heq' : blob' = blob := by
        obtain ⟨tx', -, hparse', hid', -⟩ := hrow
        exact honly blob' hblob' tx' hparse' (hid'.symm.trans heq)
      rwa [heq'] at hrow) row hrow hid
  obtain ⟨tx', tvc, hparse', -, -, hsize, -⟩ := hdelivers
  obtain rfl := Option.some.inj (hparse.symm.trans hparse')
  rw [hsize, hweight]

theorem AcceptedWith.weight_iff {blob : List UInt8} {tx : Transaction} {weight : UInt64}
    (h : AcceptedWith conf crypto ops cfg fr blob tx weight) :
    getTransactionWeight tx (txToBlob cfg tx).length = some weight.toNat ↔
      blob.length = (txToBlob cfg tx).length := by
  constructor
  · exact getTransactionWeight_inj h.weight_eq
  · intro heq
    rw [← heq]
    exact h.weight_eq

/-! ### Blocks -/

omit [DecidableEq ρ] in
theorem find_remove_of_ne {t : Txpool} {id id' : Hash} (hne : id' ≠ id) :
    (t.remove id).find id' = t.find id' := by
  rw [Txpool.find, Txpool.find, Txpool.remove, List.find?_filter]
  congr 1
  funext row
  by_cases hid : row.txid = id'
  · simp [hid, hne]
  · simp [hid]

theorem find_remove_self {t : Txpool} {id : Hash} : (t.remove id).find id = none := by
  rw [Txpool.find, List.find?_eq_none]
  intro row hrow
  simpa using (Txpool.mem_remove.mp hrow).2

omit [DecidableEq ρ] in
theorem any_eraseId_of_ne {id id' : Hash} (hne : id' ≠ id) (sorted : List (SortedEntry ρ)) :
    ((eraseId id sorted).any fun e => e.id = id') = sorted.any fun e => e.id = id' := by
  induction sorted with
  | nil => rfl
  | cons e sorted ih =>
      by_cases hid : e.id = id
      · have hid' : e.id ≠ id' := fun heq => hne (heq.symm.trans hid)
        simp [eraseId, hid, hne.symm]
      · have hcons : eraseId id (e :: sorted) = e :: eraseId id sorted := by
          simp [eraseId, hid]
        rw [hcons, List.any_cons, List.any_cons, ih]

omit [DecidableEq ρ] in
theorem takeTx_cases (ops : CryptoOps) (cfg : Config) (id : Hash) (p : Pool ρ) :
    takeTx ops cfg id p = (none, p) ∨
      (takeTx ops cfg id p).2.txpool = p.txpool.remove id ∧
        (takeTx ops cfg id p).2.sorted = eraseId id p.sorted := by
  rw [takeTx]
  split
  · split
    · exact .inl rfl
    · split
      · exact .inl rfl
      · exact .inr ⟨rfl, rfl⟩
  · exact .inl rfl

omit [DecidableEq ρ] in
/-- Taking one transaction leaves what the others are taken with. -/
theorem takeTx_takeTx_of_ne {id id' : Hash} (hne : id' ≠ id) (p : Pool ρ) :
    (takeTx ops cfg id' (takeTx ops cfg id p).2).1 = (takeTx ops cfg id' p).1 := by
  rcases takeTx_cases ops cfg id p with heq | ⟨htxpool, hsorted⟩
  · rw [heq]
  · generalize (takeTx ops cfg id p).2 = q at htxpool hsorted
    rw [takeTx, takeTx, htxpool, hsorted, any_eraseId_of_ne hne, find_remove_of_ne hne]
    split
    · split
      · rfl
      · split <;> rfl
    · rfl

omit [DecidableEq ρ] in
theorem takeTx_takeTx_self (id : Hash) (p : Pool ρ) :
    (takeTx ops cfg id (takeTx ops cfg id p).2).1 = none := by
  rcases takeTx_cases ops cfg id p with heq | ⟨htxpool, -⟩
  · rw [heq, heq]
  · generalize (takeTx ops cfg id p).2 = q at htxpool
    rw [takeTx, htxpool, find_remove_self]
    split <;> rfl

def TakenTx.summary (taken : TakenTx) : Transaction × UInt64 × UInt64 :=
  (taken.tx, taken.txWeight, taken.fee)

/-- The pools hand out the same for these ids. -/
def HandOutAlike (ops : CryptoOps) (cfg : Config) (ids : List Hash) (p q : Pool ρ) : Prop :=
  ∀ id ∈ ids, (takeTx ops cfg id p).1.map TakenTx.summary =
    (takeTx ops cfg id q).1.map TakenTx.summary

omit [DecidableEq ρ] in
theorem HandOutAlike.takeTx {ids : List Hash} {p q : Pool ρ} (h : HandOutAlike ops cfg ids p q)
    (id : Hash) :
    HandOutAlike ops cfg ids (takeTx ops cfg id p).2 (takeTx ops cfg id q).2 := by
  intro id' hid'
  by_cases heq : id' = id
  · rw [heq, takeTx_takeTx_self, takeTx_takeTx_self]
  · rw [takeTx_takeTx_of_ne heq, takeTx_takeTx_of_ne heq]
    exact h id' hid'

omit [DecidableEq ρ] in
theorem HandOutAlike.takeBlockTxs {ids txIds : List Hash} {p q : Pool ρ} {fast : Bool}
    {check : List Hash} {txIndex : ℕ} {acc : BlockTxs} (h : HandOutAlike ops cfg ids p q)
    (hids : ∀ id ∈ txIds, id ∈ ids) :
    (takeBlockTxs ops cfg view fast check txIds txIndex acc p).map Prod.fst =
      (takeBlockTxs ops cfg view fast check txIds txIndex acc q).map Prod.fst := by
  induction txIds generalizing txIndex acc p q with
  | nil => rfl
  | cons id txIds ih =>
      have hhere := h id (hids id List.mem_cons_self)
      have hafter := h.takeTx id
      rw [Core.takeBlockTxs, Core.takeBlockTxs]
      split
      · rfl
      · generalize TxPool.takeTx ops cfg id p = tp at hhere hafter
        generalize TxPool.takeTx ops cfg id q = tq at hhere hafter
        obtain ⟨tp, p'⟩ := tp
        obtain ⟨tq, q'⟩ := tq
        cases tp with
        | none =>
            rw [Option.map_none, eq_comm, Option.map_eq_none_iff] at hhere
            simp only at hhere
            rw [hhere]
        | some taken =>
            rw [Option.map_some, eq_comm, Option.map_eq_some_iff] at hhere
            obtain ⟨taken', rfl, hsummary⟩ := hhere
            obtain ⟨htx, hweight, hfee⟩ : taken'.tx = taken.tx ∧
                taken'.txWeight = taken.txWeight ∧ taken'.fee = taken.fee := by
              simpa [TakenTx.summary] using hsummary
            simp only [htx, hweight, hfee]
            have hmem : ∀ id ∈ txIds, id ∈ ids :=
              fun id hid => hids id (List.mem_cons_of_mem _ hid)
            split
            · split
              · exact ih hafter hmem
              · rfl
            · split
              · exact ih hafter hmem
              · rfl

/-! ### Nodes with different deliveries -/

/-- The blob is as long as its transaction written again: the varints in it take
together as many bytes as they are written in. -/
def CanonicalSize (ops : CryptoOps) (cfg : Config) (blob : List UInt8) : Prop :=
  ∀ tx, parseAndValidateTxFromBlob ops cfg blob = some tx →
    blob.length = (txToBlob cfg tx).length

theorem canonicalSize_iff {blob : List UInt8} {tx : Transaction}
    (h : parseAndValidateTxFromBlob ops cfg blob = some tx) :
    CanonicalSize ops cfg blob ↔ blob.length = (txToBlob cfg tx).length := by
  constructor
  · intro hsize
    exact hsize tx h
  · intro hlength tx' h'
    obtain rfl := Option.some.inj (h.symm.trans h')
    exact hlength

/-- No two transactions among the blobs have one hash. -/
def CollisionFree (ops : CryptoOps) (cfg : Config) (Q : Set (List UInt8)) : Prop :=
  ∀ blob ∈ Q, ∀ blob' ∈ Q, ∀ tx tx', parseAndValidateTxFromBlob ops cfg blob = some tx →
    parseAndValidateTxFromBlob ops cfg blob' = some tx' →
    getTransactionHash ops cfg tx = getTransactionHash ops cfg tx' →
    txToBlob cfg tx = txToBlob cfg tx'

/-- The nodes that are handed blobs of the set, in any order and manner, and that
take transactions out of the pool in between. -/
inductive Deliveries (conf : CoreConfig) (crypto : CoreCrypto) (ops : CryptoOps) (cfg : Config)
    (fr : FeeRate ρ) (Q : Set (List UInt8)) : CoreState ρ → Prop
  | fresh (maxWeight : UInt64) : Deliveries conf crypto ops cfg fr Q (.fresh ρ maxWeight)
  | handle {c : CoreState ρ} (view : CoreView) (flags : TxFlags) (txBlobs : List (List UInt8))
      (hblobs : ∀ blob ∈ txBlobs, blob ∈ Q) (hrun : Deliveries conf crypto ops cfg fr Q c) :
      Deliveries conf crypto ops cfg fr Q
        (handleIncomingTxs conf crypto ops cfg view fr flags txBlobs c).2.2
  | take {c : CoreState ρ} (id : Hash) (hrun : Deliveries conf crypto ops cfg fr Q c) :
      Deliveries conf crypto ops cfg fr Q
        ⟨(takeTx ops cfg id c.mempool).2, c.badSemanticsTxes, c.blocksTxsCheck⟩

theorem Deliveries.rows {Q : Set (List UInt8)} {c : CoreState ρ}
    (h : Deliveries conf crypto ops cfg fr Q c) :
    ∀ row ∈ c.mempool.txpool.rows, ∃ blob ∈ Q, Delivers ops cfg blob row := by
  induction h with
  | fresh maxWeight =>
      intro row hrow
      exact absurd hrow List.not_mem_nil
  | handle view flags txBlobs hblobs _ ih =>
      refine handleIncomingTxs_rows ?_ ih ?_
      · rintro row old hsame ⟨blob, hblob, hold⟩
        exact ⟨blob, hblob, hold.of_sameTx hsame⟩
      · intro blob hblob row hrow
        exact ⟨blob, hblobs blob hblob, hrow⟩
  | @take c id _ ih =>
      intro row hrow
      rcases takeTx_cases ops cfg id c.mempool with heq | ⟨htxpool, -⟩
      · rw [heq] at hrow
        exact ih row hrow
      · rw [htxpool] at hrow
        exact ih row (Txpool.mem_remove.mp hrow).1

theorem Delivers.summary_eq {Q : Set (List UInt8)} (hQ : CollisionFree ops cfg Q)
    (hsize : ∀ blob ∈ Q, CanonicalSize ops cfg blob) {blob blob' : List UInt8}
    {row row' : PoolRow} (hblob : blob ∈ Q) (hblob' : blob' ∈ Q)
    (h : Delivers ops cfg blob row) (h' : Delivers ops cfg blob' row')
    (hid : row.txid = row'.txid) :
    row.blob = row'.blob ∧ row.info.weight = row'.info.weight ∧ row.info.fee = row'.info.fee := by
  obtain ⟨tx, tvc, hparse, htxid, hrow, hweight, hfee⟩ := h
  obtain ⟨tx', tvc', hparse', htxid', hrow', hweight', hfee'⟩ := h'
  have hwritten : txToBlob cfg tx = txToBlob cfg tx' :=
    hQ blob hblob blob' hblob' tx tx' hparse hparse' (htxid.symm.trans (hid.trans htxid'))
  have hback := parse_txToBlob hparse
  rw [hwritten, parse_txToBlob hparse'] at hback
  obtain rfl := Option.some.inj hback
  refine ⟨by rw [hrow, hrow'], ?_, transactionFee_congr hfee hfee'⟩
  rw [hsize blob hblob _ hparse] at hweight
  rw [hsize blob' hblob' _ hparse', hweight] at hweight'
  exact UInt64.toNat_inj.mp (Option.some.inj hweight')

theorem Deliveries.handOutAlike {Q : Set (List UInt8)} (hQ : CollisionFree ops cfg Q)
    (hsize : ∀ blob ∈ Q, CanonicalSize ops cfg blob) {c₁ c₂ : CoreState ρ}
    (h₁ : Deliveries conf crypto ops cfg fr Q c₁) (h₂ : Deliveries conf crypto ops cfg fr Q c₂)
    {ids : List Hash} (hids : ∀ id ∈ ids, (takeTx ops cfg id c₁.mempool).1.isSome = true ∧
      (takeTx ops cfg id c₂.mempool).1.isSome = true) :
    HandOutAlike ops cfg ids c₁.mempool c₂.mempool := by
  intro id hid
  obtain ⟨taken₁, htaken₁⟩ := Option.isSome_iff_exists.mp (hids id hid).1
  obtain ⟨taken₂, htaken₂⟩ := Option.isSome_iff_exists.mp (hids id hid).2
  obtain ⟨row₁, hrow₁, hid₁, hparse₁, hweight₁, hfee₁⟩ := takeTx_eq_some htaken₁
  obtain ⟨row₂, hrow₂, hid₂, hparse₂, hweight₂, hfee₂⟩ := takeTx_eq_some htaken₂
  obtain ⟨blob₁, hblob₁, hdelivers₁⟩ := h₁.rows row₁ hrow₁
  obtain ⟨blob₂, hblob₂, hdelivers₂⟩ := h₂.rows row₂ hrow₂
  obtain ⟨hblob, hweight, hfee⟩ := hdelivers₁.summary_eq hQ hsize hblob₁ hblob₂ hdelivers₂
    (hid₁.trans hid₂.symm)
  rw [hblob, hparse₂] at hparse₁
  rw [htaken₁, htaken₂, Option.map_some, Option.map_some, TakenTx.summary, TakenTx.summary,
    Option.some.inj hparse₁, hweight₁, hweight₂, hweight, hfee₁, hfee₂, hfee]

/-- Two accepted blobs of one hash have the weight of the transaction written again
exactly when both are as long as that. Nodes that were handed only such blobs take a
block alike, with the same fee and the same weight. -/
theorem blockWeight_agrees {Q : Set (List UInt8)} (hQ : CollisionFree ops cfg Q) :
    (∀ blob₁ ∈ Q, ∀ blob₂ ∈ Q, ∀ tx₁ tx₂ weight₁ weight₂,
      AcceptedWith conf crypto ops cfg fr blob₁ tx₁ weight₁ →
      AcceptedWith conf crypto ops cfg fr blob₂ tx₂ weight₂ →
      getTransactionHash ops cfg tx₁ = getTransactionHash ops cfg tx₂ →
        (weight₁ = weight₂ ∧
          getTransactionWeight tx₁ (txToBlob cfg tx₁).length = some weight₁.toNat ↔
        CanonicalSize ops cfg blob₁ ∧ CanonicalSize ops cfg blob₂)) ∧
      ((∀ blob ∈ Q, CanonicalSize ops cfg blob) → ∀ c₁ c₂ : CoreState ρ,
        Deliveries conf crypto ops cfg fr Q c₁ → Deliveries conf crypto ops cfg fr Q c₂ →
        ∀ ids : List Hash, (∀ id ∈ ids, (takeTx ops cfg id c₁.mempool).1.isSome = true ∧
          (takeTx ops cfg id c₂.mempool).1.isSome = true) →
        ∀ view fast check txIndex acc,
          (takeBlockTxs ops cfg view fast check ids txIndex acc c₁.mempool).map Prod.fst =
            (takeBlockTxs ops cfg view fast check ids txIndex acc c₂.mempool).map Prod.fst) := by
  refine ⟨?_, ?_⟩
  · intro blob₁ hblob₁ blob₂ hblob₂ tx₁ tx₂ weight₁ weight₂ h₁ h₂ hhash
    have hwritten := hQ blob₁ hblob₁ blob₂ hblob₂ tx₁ tx₂ h₁.1 h₂.1 hhash
    have hback := parse_txToBlob h₁.1
    rw [hwritten, parse_txToBlob h₂.1] at hback
    obtain rfl := Option.some.inj hback
    rw [canonicalSize_iff h₁.1, canonicalSize_iff h₂.1, ← h₁.weight_iff, ← h₂.weight_iff]
    constructor
    · rintro ⟨rfl, hweight⟩
      exact ⟨hweight, hweight⟩
    · rintro ⟨hweight₁, hweight₂⟩
      rw [hweight₁] at hweight₂
      exact ⟨UInt64.toNat_inj.mp (Option.some.inj hweight₂), hweight₁⟩
  · intro hsize c₁ c₂ h₁ h₂ ids hids view fast check txIndex acc
    exact (h₁.handOutAlike hQ hsize h₂ hids).takeBlockTxs fun id hid => hid

end

/-! ### A payment in one byte too many -/

def loosePaymentBlob : List UInt8 := [1, 0x80, 0x00] ++ paymentBlob.drop 2

def paidWith (blob : List UInt8) : CoreState (ℕ × ℕ) :=
  (handleIncomingTxs paymentCoreConf paymentCrypto paymentOps currentConfig (limitedView 300000)
    fractionRate ⟨true, true, false⟩ [blob] (.fresh (ℕ × ℕ) 648000000)).2.2

def takePayment (c : CoreState (ℕ × ℕ)) : Except BlockTxsError BlockTxs :=
  (takeBlockTxs paymentOps currentConfig (limitedView 300000) false []
    [getTransactionHash paymentOps currentConfig (paymentTx 0x51)] 0 ⟨[], 0, 0⟩ c.mempool).map
    Prod.fst

theorem acceptedWith_paidWith {blob : List UInt8} {weight : UInt64}
    (hparse : parseAndValidateTxFromBlob paymentOps currentConfig blob = some (paymentTx 0x51))
    (hweight : (takeTx paymentOps currentConfig
      (getTransactionHash paymentOps currentConfig (paymentTx 0x51))
      (paidWith blob).mempool).1.map TakenTx.txWeight = some weight) :
    AcceptedWith paymentCoreConf paymentCrypto paymentOps currentConfig fractionRate blob
      (paymentTx 0x51) weight := by
  obtain ⟨taken, htaken, rfl⟩ := Option.map_eq_some_iff.mp hweight
  rw [paidWith] at htaken
  refine ⟨hparse, limitedView 300000, ⟨true, true, false⟩, [blob], .fresh (ℕ × ℕ) 648000000,
    taken, List.mem_singleton_self blob, ?_, rfl, htaken, rfl⟩
  intro blob' hblob' _ _ _
  exact List.mem_singleton.mp hblob'

/-- The same transaction weighs 139 bytes or 140, and so does the block. -/
theorem loosePayment_weighs_more :
    (AcceptedWith paymentCoreConf paymentCrypto paymentOps currentConfig fractionRate paymentBlob
        (paymentTx 0x51) 139 ∧
      AcceptedWith paymentCoreConf paymentCrypto paymentOps currentConfig fractionRate
        loosePaymentBlob (paymentTx 0x51) 140) ∧
      takePayment (paidWith paymentBlob) = .ok ⟨[paymentTx 0x51], 1, 139⟩ ∧
      takePayment (paidWith loosePaymentBlob) = .ok ⟨[paymentTx 0x51], 1, 140⟩ := by
  refine ⟨⟨acceptedWith_paidWith ?_ ?_, acceptedWith_paidWith ?_ ?_⟩, ?_, ?_⟩ <;> decide +kernel

theorem blockWeight_agrees_payment :
    takePayment (paidWith paymentBlob) = takePayment (relayedPayment 300000) := by
  have hparse : parseAndValidateTxFromBlob paymentOps currentConfig paymentBlob =
      some (paymentTx 0x51) := by decide +kernel
  have hQ : CollisionFree paymentOps currentConfig {paymentBlob} := by
    rintro blob rfl blob' rfl tx tx' htx htx' -
    rw [Option.some.inj (htx.symm.trans htx')]
  have hsize : ∀ blob ∈ ({paymentBlob} : Set (List UInt8)),
      CanonicalSize paymentOps currentConfig blob := by
    rintro blob rfl
    exact (canonicalSize_iff hparse).mpr rfl
  have hmem : ∀ blob ∈ [paymentBlob], blob ∈ ({paymentBlob} : Set (List UInt8)) :=
    fun blob hblob => List.mem_singleton.mp hblob
  have hkept : Deliveries paymentCoreConf paymentCrypto paymentOps currentConfig fractionRate
      {paymentBlob} (paidWith paymentBlob) := by
    rw [paidWith]
    exact .handle _ _ _ hmem (.fresh 648000000)
  have hrelayed : Deliveries paymentCoreConf paymentCrypto paymentOps currentConfig fractionRate
      {paymentBlob} (relayedPayment 300000) := by
    rw [relayedPayment, handPayment]
    exact .handle _ _ _ hmem (.fresh 648000000)
  refine (blockWeight_agrees hQ).2 hsize _ _ hkept hrelayed _ ?_ _ _ _ _ _
  intro id hid
  rw [List.mem_singleton.mp hid]
  exact ⟨by decide +kernel, by decide +kernel⟩

end XrCoin.Core

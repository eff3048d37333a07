import XrCoin.Blockchain.FailedSwitch
import XrCoin.TxPool.Written

/-!
The pool when `handle_block_to_main_chain` refuses a block. Every exit behind the first
transaction gives back what the loop has taken. When `add_tx` takes all of it and the pool
stays within its limit, the pool has the ids that it had, and the key images with them.
-/

namespace XrCoin.Blockchain

open Archive Cryptonote Forks TxPool XrCoin.Core Data

variable {ρ : Type} [DecidableEq ρ] (env : ChainEnv ρ)

/-! ### What goes back -/

/-- The transactions that a refused block has taken, and the state that they go back to. -/
def refusal (b : Block) (s : ChainState ρ) : List Transaction × ChainState ρ :=
  match checkHeader env s b with
  | none => ([], s)
  | some fast =>
      let collected := collectTxs env s fast b.txHashes.toList 0 (startCollecting env b) s.txPool
      let taken := { s with txPool := collected.2.2 }
      match collected.1 with
      | some (.wrongInputs _) =>
          (collected.2.1.txs, addBlockAsInvalid ⟨b, 0, 0⟩ (env.id b) taken)
      | some _ => (collected.2.1.txs, taken)
      | none => (collected.2.1.txs, { taken with blocksTxsCheck := [] })

/-- The arguments of `add_tx` for a transaction that goes back. -/
def returnedArgs (s : ChainState ρ) (tx : Transaction) : AddTxArgs :=
  ⟨tx, env.txid tx, returnedWeight env.cfg tx, true, true, false, currentVersion s⟩

/-- The transaction passes the checks of `add_tx`, and the pool with it is within its limit. -/
def PassesAgain (s : ChainState ρ) (tx : Transaction) : Prop :=
  (∃ fee, Accepts (env.poolView s) (returnedArgs env s tx) default s.txPool fee) ∧
    s.txPool.txpoolWeight + returnedWeight env.cfg tx ≤ s.txPool.txpoolMaxWeight

/-- So do all of them, one after the other. -/
def AllPassAgain : List Transaction → ChainState ρ → Prop
  | [], _ => True
  | tx :: txs, s => PassesAgain env s tx ∧ AllPassAgain txs (returnTx env s tx)

/-- Every exit gives back what was taken. -/
theorem handleBlockToMainChain_refused {b : Block} {s : ChainState ρ}
    (h : (handleBlockToMainChain env b s).1 = false) :
    (handleBlockToMainChain env b s).2 =
      returnTxToPool env (refusal env b s).1 (refusal env b s).2 := by
  rw [handleBlockToMainChain] at h ⊢
  rw [refusal]
  cases hheader : checkHeader env s b with
  | none => rfl
  | some fast =>
      rw [hheader] at h
      simp only at h ⊢
      obtain ⟨⟨stop, acc, p⟩, hcollected⟩ : ∃ collected,
        collectTxs env s fast b.txHashes.toList 0 (startCollecting env b) s.txPool = collected :=
          ⟨_, rfl⟩
      rw [hcollected] at h ⊢
      simp only at h ⊢
      cases stop with
      | some error => cases error <;> rfl
      | none =>
          simp only at h ⊢
          split
          · rfl
          · rename_i hcomplete
            rw [hcomplete] at h
            exact absurd h (by simp)

/-! ### A pool that misses transactions -/

structure Missing (p₀ : Pool ρ) (txs : List Transaction) (p : Pool ρ) : Prop where
  consistent : Consistent env.ops env.cfg p
  written : Written env.ops env.cfg p
  parsed : ∀ tx ∈ txs, Parsed env.ops env.cfg tx
  inputs : ∀ tx ∈ txs, ToKeyInputs tx.vin.toList
  weighed : ∀ tx ∈ txs, (getTransactionWeight tx (txToBlob env.cfg tx).length).isSome = true
  ids : (p.txpool.rows.map PoolRow.txid ++ txs.map env.txid).Perm
    (p₀.txpool.rows.map PoolRow.txid)
  spent : ∀ ki id, SpentBy env.ops env.cfg p₀.txpool.rows ki id ↔
    SpentBy env.ops env.cfg p.txpool.rows ki id ∨
      ∃ tx ∈ txs, env.txid tx = id ∧ ki ∈ keyImages tx.vin.toList

variable {env} {p₀ p : Pool ρ} {txs : List Transaction} {tx : Transaction}

omit [DecidableEq ρ] in
theorem missing_nil (hc : Consistent env.ops env.cfg p) (hw : Written env.ops env.cfg p) :
    Missing env p [] p where
  consistent := hc
  written := hw
  parsed := by simp
  inputs := by simp
  weighed := by simp
  ids := by simp
  spent := by simp

omit [DecidableEq ρ] in
theorem Missing.restored (h : Missing env p₀ [] p) (hc : Consistent env.ops env.cfg p₀) :
    (p.txpool.rows.map PoolRow.txid).Perm (p₀.txpool.rows.map PoolRow.txid) ∧
      p.spentKeyImages = p₀.spentKeyImages := by
  constructor
  · have hids := h.ids
    rwa [List.map_nil, List.append_nil] at hids
  · refine h.consistent.images.unique (hc.images.congr fun ki id => ?_)
    rw [h.spent]
    simp

omit [DecidableEq ρ] in
theorem Missing.takeTx (h : Missing env p₀ txs p) {id : Hash} {taken : TakenTx}
    (htaken : (takeTx env.ops env.cfg id p).1 = some taken) :
    Missing env p₀ (txs ++ [taken.tx]) (TxPool.takeTx env.ops env.cfg id p).2 := by
  obtain ⟨row, hrow, rfl, hparse, -, -⟩ := takeTx_eq_some htaken
  obtain ⟨tx, htx⟩ := h.consistent.held row hrow
  obtain rfl : tx = taken.tx := Option.some.inj (htx.parsed.symm.trans hparse)
  obtain ⟨hid, hblob⟩ := h.written.of_parse hrow hparse
  have htxpool : (TxPool.takeTx env.ops env.cfg row.txid p).2.txpool = p.txpool.remove row.txid := by
    rcases takeTx_cases env.ops env.cfg row.txid p with heq | ⟨hremoved, -⟩
    · rw [heq] at htaken
      exact absurd htaken (by simp)
    · exact hremoved
  refine ⟨(h.consistent.takeTx row.txid).1, fun other hother => h.written other (takeTx_rows hother),
    ?_, ?_, ?_, ?_, ?_⟩
  · exact List.forall_mem_append.mpr ⟨h.parsed, List.forall_mem_singleton.mpr ⟨_, hparse⟩⟩
  · exact List.forall_mem_append.mpr ⟨h.inputs, List.forall_mem_singleton.mpr htx.inputs⟩
  · refine List.forall_mem_append.mpr ⟨h.weighed, List.forall_mem_singleton.mpr ?_⟩
    rw [← hblob]
    exact htx.weighed
  · rw [htxpool, Txpool.remove_ids, List.map_append, List.map_singleton]
    have htxid : env.txid taken.tx = row.txid := hid.symm
    have hmem : row.txid ∈ p.txpool.rows.map PoolRow.txid := List.mem_map_of_mem hrow
    rw [htxid]
    have hlast : (txs.map env.txid ++ [row.txid]).Perm (row.txid :: txs.map env.txid) :=
      List.perm_append_singleton _ _
    have hback : (row.txid :: ((p.txpool.rows.map PoolRow.txid).erase row.txid ++
        txs.map env.txid)).Perm (p.txpool.rows.map PoolRow.txid ++ txs.map env.txid) :=
      (List.perm_cons_erase hmem).symm.append_right _
    exact (((hlast.append_left _).trans List.perm_middle).trans hback).trans h.ids
  · intro ki id
    rw [h.spent, htxpool, spentBy_remove hrow htx]
    have hspends : SpentBy env.ops env.cfg p.txpool.rows ki row.txid ↔
        ki ∈ keyImages taken.tx.vin.toList := by
      constructor
      · rintro ⟨other, hother, heq, hki⟩
        obtain rfl := Txpool.eq_of_txid hother hrow heq
        exact htx.spends_iff.mp hki
      · exact fun hki => ⟨row, hrow, rfl, htx.spends_iff.mpr hki⟩
    have htxid : env.txid taken.tx = row.txid := hid.symm
    constructor
    · rintro (hspent | ⟨tx, hmem, heq, hki⟩)
      · by_cases hid : id = row.txid
        · subst hid
          exact .inr ⟨taken.tx, by simp, htxid, hspends.mp hspent⟩
        · exact .inl ⟨hspent, fun hand => hid hand.2⟩
      · exact .inr ⟨tx, List.mem_append_left _ hmem, heq, hki⟩
    · rintro (⟨hspent, -⟩ | ⟨tx, hmem, heq, hki⟩)
      · exact .inl hspent
      · rcases List.mem_append.mp hmem with hmem | hmem
        · exact .inr ⟨tx, hmem, heq, hki⟩
        · obtain rfl := List.mem_singleton.mp hmem
          left
          rw [← heq, htxid]
          exact hspends.mpr hki

omit [DecidableEq ρ] in
/-- The loop over a block records what it takes. -/
theorem Missing.collectTxs {s : ChainState ρ} {fast : Bool} {ids : List Hash} {index : ℕ}
    {acc : Collected} (h : Missing env p₀ acc.txs p) :
    Missing env p₀ (collectTxs env s fast ids index acc p).2.1.txs
      (Blockchain.collectTxs env s fast ids index acc p).2.2 := by
  induction ids generalizing index acc p with
  | nil => exact h
  | cons id ids ih =>
      rw [Blockchain.collectTxs]
      split
      · exact h
      · cases htake : (TxPool.takeTx env.ops env.cfg id p).1 with
        | none =>
            have hpair : TxPool.takeTx env.ops env.cfg id p = (none, p) :=
              Prod.ext htake (takeTx_of_none htake)
            simp only [hpair]
            exact h
        | some taken =>
            have hpair : TxPool.takeTx env.ops env.cfg id p =
                (some taken, (TxPool.takeTx env.ops env.cfg id p).2) := Prod.ext htake rfl
            have hmissing := h.takeTx htake
            rw [hpair]
            simp only
            split
            · exact hmissing
            · exact ih hmissing

omit [DecidableEq ρ] in
theorem Missing.given {s : ChainState ρ} (h : Missing env p₀ (tx :: txs) p) :
    (returnedArgs env s tx).Given env.ops env.cfg p where
  parsed := h.parsed tx List.mem_cons_self
  id_eq := rfl
  weighed := h.weighed tx List.mem_cons_self
  inputs := h.inputs tx List.mem_cons_self
  fresh := by
    intro hmem
    have hnodup := h.ids.nodup_iff.mpr p₀.txpool.ids_nodup
    exact List.disjoint_of_nodup_append hnodup hmem List.mem_cons_self

theorem Missing.returnTx {s : ChainState ρ} (h : Missing env p₀ (tx :: txs) s.txPool)
    (hpass : PassesAgain env s tx) : Missing env p₀ txs (returnTx env s tx).txPool := by
  obtain ⟨⟨fee, haccepts⟩, hlimit⟩ := hpass
  have hgiven := h.given (s := s)
  obtain ⟨used, seen, hresult⟩ := addTx_pool_of_accepts hgiven haccepts env.feeRate
  obtain ⟨blob, hblob⟩ := hgiven.parsed
  have hback : parseAndValidateTxFromBlob env.ops env.cfg (txToBlob env.cfg tx) = some tx :=
    parse_txToBlob hblob
  have htx : Holds env.ops env.cfg (newRow env.ops env.cfg tx
      ((returnedArgs env s tx).info fee (env.poolView s).now used seen)) tx :=
    ⟨hback, hgiven.inputs, hgiven.weighed⟩
  obtain ⟨stored, hstored, hcons, hrows, -, hweight, hmax⟩ := h.consistent.store htx hgiven.fresh
    (fun hkept => absurd hkept (by simp [returnedArgs, AddTxArgs.info])) env.feeRate
  -- the pool is within its limit, so nothing is pruned
  have hpool : (Blockchain.returnTx env s tx).txPool =
      stored.addWeight (returnedWeight env.cfg tx) := by
    obtain ⟨weight, hw⟩ := Option.isSome_iff_exists.mp hgiven.weighed
    have hargs : (⟨tx, getTransactionHash env.ops env.cfg tx, weight.toUInt64, true, true, false,
        currentVersion s⟩ : AddTxArgs) = returnedArgs env s tx := by
      have hw' : getTransactionWeight tx (txToBlob env.cfg tx).length = some weight := hw
      rw [returnedArgs, returnedWeight, hw', Option.getD_some]
      rfl
    have hreturn : (Blockchain.returnTx env s tx).txPool = (addTx env.feeRate env.ops env.cfg
        (env.poolView s) (returnedArgs env s tx) default s.txPool).2.2 := by
      have hw' : getTransactionWeight tx (txToBlob env.cfg tx).length = some weight := hw
      rw [Blockchain.returnTx]
      simp only [hw', hargs]
      split <;> rfl
    rw [hreturn, hresult stored hstored, prune, pruneLoop_of_le]
    · rfl
    · rw [hmax]
      show stored.txpoolWeight + returnedWeight env.cfg tx ≤ if _ then _ else _
      split
      · show _ ≤ stored.txpoolMaxWeight
        rw [hweight, hmax]
        exact hlimit
      · rw [hweight]
        exact hlimit
  rw [hpool]
  obtain ⟨⟨hheld, himages, hdisjoint⟩, hids⟩ := hcons
  refine ⟨⟨⟨hheld, himages, hdisjoint⟩, hids⟩, ?_,
    fun other hother => h.parsed other (List.mem_cons_of_mem _ hother),
    fun other hother => h.inputs other (List.mem_cons_of_mem _ hother),
    fun other hother => h.weighed other (List.mem_cons_of_mem _ hother), ?_, ?_⟩
  · show ∀ row ∈ stored.txpool.rows, _
    rw [hrows]
    exact List.forall_mem_append.mpr ⟨h.written,
      List.forall_mem_singleton.mpr ⟨tx, hback, rfl, rfl⟩⟩
  · show (stored.txpool.rows.map PoolRow.txid ++ txs.map env.txid).Perm _
    rw [hrows, List.map_append, List.append_assoc]
    exact h.ids
  · intro ki id
    show _ ↔ SpentBy env.ops env.cfg stored.txpool.rows ki id ∨ _
    have hsplit : SpentBy env.ops env.cfg stored.txpool.rows ki id ↔
        SpentBy env.ops env.cfg s.txPool.txpool.rows ki id ∨
          env.txid tx = id ∧ ki ∈ keyImages tx.vin.toList := by
      rw [hrows]
      constructor
      · rintro ⟨row, hrow, rfl, hki⟩
        rcases List.mem_append.mp hrow with hrow | hrow
        · exact .inl ⟨row, hrow, rfl, hki⟩
        · obtain rfl := List.mem_singleton.mp hrow
          exact .inr ⟨rfl, htx.spends_iff.mp hki⟩
      · rintro (⟨row, hrow, rfl, hki⟩ | ⟨rfl, hki⟩)
        · exact ⟨row, List.mem_append_left _ hrow, rfl, hki⟩
        · exact ⟨_, List.mem_append_right _ (List.mem_singleton_self _), rfl,
            htx.spends_iff.mpr hki⟩
    rw [h.spent, hsplit, or_assoc]
    refine or_congr_right ?_
    simp only [List.mem_cons, exists_eq_or_imp]

theorem Missing.returnTxToPool {s : ChainState ρ} (h : Missing env p₀ txs s.txPool)
    (hpass : AllPassAgain env txs s) :
    Missing env p₀ [] (returnTxToPool env txs s).txPool := by
  induction txs generalizing s with
  | nil => exact h
  | cons tx txs ih => exact ih (h.returnTx hpass.1) hpass.2

omit [DecidableEq ρ] in
theorem missing_refusal {b : Block} {s : ChainState ρ}
    (hc : Consistent env.ops env.cfg s.txPool) (hw : Written env.ops env.cfg s.txPool) :
    Missing env s.txPool (refusal env b s).1 (refusal env b s).2.txPool := by
  rw [refusal]
  split
  · exact missing_nil hc hw
  · rename_i fast hheader
    have hstart : Missing env s.txPool (startCollecting env b).txs s.txPool := missing_nil hc hw
    have hcollected := @Missing.collectTxs _ _ _ _ s fast b.txHashes.toList 0 _ hstart
    simp only
    split
    · rwa [txPool_addBlockAsInvalid]
    · exact hcollected
    · exact hcollected

/-- When all that it took passes again, a refused block leaves the ids of the pool and its
key images as they were. -/
theorem handleBlock_restores_pool {conf : PoolConfig} {b : Block} {s : ChainState ρ}
    (hrun : TxPool.Run env.feeRate env.ops env.cfg conf (Admissible env.ops env.cfg) s.txPool)
    (hrefused : (handleBlockToMainChain env b s).1 = false)
    (hpass : AllPassAgain env (refusal env b s).1 (refusal env b s).2) :
    ((handleBlockToMainChain env b s).2.txPool.txpool.rows.map PoolRow.txid).Perm
        (s.txPool.txpool.rows.map PoolRow.txid) ∧
      (handleBlockToMainChain env b s).2.txPool.spentKeyImages = s.txPool.spentKeyImages := by
  rw [handleBlockToMainChain_refused env hrefused]
  have hmissing := missing_refusal (b := b) hrun.consistent hrun.written
  exact (hmissing.returnTxToPool hpass).restored hrun.consistent

/-- The chain with the payment, with a database that throws. -/
def throwingEnv : ChainEnv (ℕ × ℕ) := { payingEnv with dbAccepts := fun _ _ _ => false }

/-- The database refuses the block with the payment, and the payment goes back. -/
theorem handleBlock_restores_pool_throwingEnv :
    (handleBlockToMainChain throwingEnv payingBlock (beforePaying looseHashes)).1 = false ∧
      (refusal throwingEnv payingBlock (beforePaying looseHashes)).1 = [paymentTx 0x51] ∧
      (handleBlockToMainChain throwingEnv payingBlock
        (beforePaying looseHashes)).2.txPool.spentKeyImages =
          (beforePaying looseHashes).txPool.spentKeyImages := by
  have hrefused : (handleBlockToMainChain throwingEnv payingBlock
      (beforePaying looseHashes)).1 = false := by decide +kernel
  have hgiven : (paymentArgs 0x51).Given throwingEnv.ops throwingEnv.cfg
      (.empty (ℕ × ℕ) 648000000) :=
    ⟨⟨txToBlob currentConfig (paymentTx 0x51), by decide +kernel⟩, by decide, by decide,
      ⟨by decide, by decide⟩, by decide⟩
  have hrun : TxPool.Run throwingEnv.feeRate throwingEnv.ops throwingEnv.cfg paymentConf
      (Admissible throwingEnv.ops throwingEnv.cfg) (beforePaying looseHashes).txPool :=
    .step paymentView (addPayment 0x51) (.empty 648000000) hgiven
  have hrestored := @handleBlock_restores_pool (ℕ × ℕ) _ throwingEnv paymentConf payingBlock
    (beforePaying looseHashes)
  have htaken : (refusal throwingEnv payingBlock (beforePaying looseHashes)).1 =
      [paymentTx 0x51] := by decide +kernel
  have hlimit : (refusal throwingEnv payingBlock (beforePaying looseHashes)).2.txPool.txpoolWeight +
      returnedWeight throwingEnv.cfg (paymentTx 0x51) ≤
        (refusal throwingEnv payingBlock (beforePaying looseHashes)).2.txPool.txpoolMaxWeight := by
    decide +kernel
  refine ⟨hrefused, htaken, (hrestored hrun hrefused ?_).2⟩
  rw [htaken]
  exact ⟨⟨⟨1, by decide, rfl, rfl, rfl, fun hkept => absurd hkept (by decide)⟩, hlimit⟩, trivial⟩

end XrCoin.Blockchain

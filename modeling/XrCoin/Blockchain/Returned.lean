import XrCoin.Blockchain.Switch
import XrCoin.Core.Returned

/-!
The transactions of popped blocks through the pops and the additions of a switch. Each of
them is in the pool, or it is out of it with a block that was added since. This holds as
long as the log does not report one of them.
-/

namespace XrCoin.Blockchain

open Archive Cryptonote Forks TxPool XrCoin.Core

variable {ρ : Type} [DecidableEq ρ] (env : ChainEnv ρ)

/-! ### In the pool or out of it -/

def ChainEnv.txid (tx : Transaction) : Hash := getTransactionHash env.ops env.cfg tx

structure Around (txs out : List Transaction) (p : Pool ρ) : Prop where
  txs_parsed : ∀ tx ∈ txs, Parsed env.ops env.cfg tx
  named : Named env.ops env.cfg p
  out_parsed : ∀ tx ∈ out, Parsed env.ops env.cfg tx
  out_same : ∀ tx ∈ out, ∀ tx' ∈ txs, env.txid tx = env.txid tx' → tx = tx'
  stored : ∀ row ∈ p.txpool.rows, ∀ tx ∈ txs, row.txid = env.txid tx →
    row.blob = txToBlob env.cfg tx
  somewhere : ∀ tx ∈ txs, Held env.ops env.cfg p tx ∨ tx ∈ out

def Unreported (txs : List Transaction) (s : ChainState ρ) : Prop :=
  ∀ tx ∈ txs, env.txid tx ∉ s.notReturned

variable {env} {txs out out' : List Transaction} {p : Pool ρ}

omit [DecidableEq ρ] in
theorem Around.of_out (h : Around env txs out p) (hsub : ∀ tx ∈ out', tx ∈ out)
    (hkeep : ∀ tx ∈ txs, tx ∈ out → tx ∈ out') : Around env txs out' p where
  txs_parsed := h.txs_parsed
  named := h.named
  out_parsed tx htx := h.out_parsed tx (hsub tx htx)
  out_same tx htx := h.out_same tx (hsub tx htx)
  stored := h.stored
  somewhere tx htx := (h.somewhere tx htx).imp_right (hkeep tx htx)

omit [DecidableEq ρ] in
theorem Around.takeTx (h : Around env txs out p) {id : Hash} {taken : TakenTx}
    (htaken : (takeTx env.ops env.cfg id p).1 = some taken) :
    Around env txs (taken.tx :: out) (TxPool.takeTx env.ops env.cfg id p).2 := by
  obtain ⟨hid, hparsed⟩ := h.named.taken htaken
  have hsame : ∀ tx ∈ txs, id = env.txid tx → taken.tx = tx := by
    intro tx htx heq
    obtain ⟨row, hrow, hrowid, hparse, -, -⟩ := takeTx_eq_some htaken
    obtain ⟨blob, hblob⟩ := h.txs_parsed tx htx
    rw [h.stored row hrow tx htx (hrowid.trans heq), parse_txToBlob hblob] at hparse
    exact (Option.some.inj hparse).symm
  refine ⟨h.txs_parsed, h.named.takeTx id, ?_, ?_, ?_, ?_⟩
  · exact List.forall_mem_cons.mpr ⟨hparsed, h.out_parsed⟩
  · refine List.forall_mem_cons.mpr ⟨fun tx htx heq => ?_, h.out_same⟩
    exact hsame tx htx (hid.symm.trans heq)
  · intro row hrow
    rcases takeTx_cases env.ops env.cfg id p with heq | ⟨htxpool, -⟩
    · rw [heq] at hrow
      exact h.stored row hrow
    · rw [htxpool, Txpool.mem_remove] at hrow
      exact h.stored row hrow.1
  · intro tx htx
    by_cases heq : id = env.txid tx
    · exact .inr (List.mem_cons.mpr (.inl (hsame tx htx heq).symm))
    · rcases h.somewhere tx htx with hheld | hout
      · exact .inl (hheld.takeTx_of_ne fun h => heq h.symm)
      · exact .inr (List.mem_cons_of_mem _ hout)

/-! ### Giving back -/

omit [DecidableEq ρ] in
theorem Unreported.of_subset {s s' : ChainState ρ} (h : Unreported env txs s')
    (hsub : s.notReturned ⊆ s'.notReturned) : Unreported env txs s :=
  fun tx htx hmem => h tx htx (hsub hmem)

/-- A transaction that goes back without a report is in the pool. -/
theorem Around.returnTx {s : ChainState ρ} {tx : Transaction}
    (h : Around env txs (tx :: out) s.txPool)
    (hlog : Unreported env txs (returnTx env s tx)) :
    Around env txs out (returnTx env s tx).txPool := by
  have htxParsed := h.out_parsed tx List.mem_cons_self
  have hout : ∀ tx' ∈ txs, tx' ∈ tx :: out → tx' ≠ tx → tx' ∈ out := by
    intro tx' _ hmem hne
    exact (List.mem_cons.mp hmem).resolve_left hne
  rw [Blockchain.returnTx] at hlog ⊢
  simp only at hlog ⊢
  split at hlog
  · -- it is reported, so it is none of them
    refine h.of_out (fun tx' => List.mem_cons_of_mem tx) fun tx' htx' hmem => ?_
    refine hout tx' htx' hmem ?_
    rintro rfl
    exact hlog tx' htx' List.mem_cons_self
  · rename_i weight hweight
    generalize hargs : (⟨tx, getTransactionHash env.ops env.cfg tx, weight.toUInt64, true, true,
      false, currentVersion s⟩ : AddTxArgs) = args at hlog ⊢
    have hkept : args.keptByBlock = true := by rw [← hargs]
    have hargsTx : args.tx = tx := by rw [← hargs]
    have hid : args.id = getTransactionHash env.ops env.cfg args.tx := by rw [← hargs]
    have hargsWeight : args.txWeight = returnedWeight env.cfg args.tx := by
      rw [← hargs, returnedWeight, hweight]
      rfl
    generalize hadded : addTx env.feeRate env.ops env.cfg (env.poolView s) args default s.txPool =
      added at hlog ⊢
    have hpool : (if added.1 = true then { s with txPool := added.2.2 } else
        { s with txPool := added.2.2,
                 notReturned := getTransactionHash env.ops env.cfg tx :: s.notReturned }).txPool =
        added.2.2 := by
      split <;> rfl
    rw [hpool, ← hadded]
    refine ⟨h.txs_parsed, ?_, fun tx' htx' => h.out_parsed tx' (List.mem_cons_of_mem tx htx'),
      fun tx' htx' => h.out_same tx' (List.mem_cons_of_mem tx htx'), ?_, ?_⟩
    · exact h.named.addTx (by rwa [hargsTx]) _ _ _
    · intro row hrow tx' htx' heq
      rcases addTx_rows hrow with ⟨old, hold, hsame⟩ | ⟨fee, used, seen, -, rfl⟩
      · rw [hsame.blob]
        exact h.stored old hold tx' htx' (hsame.txid.symm.trans heq)
      · show txToBlob env.cfg args.tx = _
        rw [hargsTx]
        rw [newRow, hargsTx] at heq
        rw [h.out_same tx List.mem_cons_self tx' htx' heq]
    · intro tx' htx'
      by_cases heq : env.txid tx = env.txid tx'
      · left
        obtain rfl := h.out_same tx List.mem_cons_self tx' htx' heq
        -- a failure would be reported
        have hok : added.1 = true := by
          by_contra hfail
          rw [if_neg hfail] at hlog
          exact hlog tx htx' List.mem_cons_self
        rw [← hargsTx]
        exact held_addTx hkept hid hargsWeight _ _ (by rw [hadded, hok])
      · rcases h.somewhere tx' htx' with hheld | hmem
        · left
          refine hheld.addTx_of_ne hkept hid ?_ _ _ _
          rw [hid, hargsTx]
          exact fun h => heq h.symm
        · right
          refine hout tx' htx' hmem ?_
          rintro rfl
          exact heq rfl

theorem Around.returnTxToPool {s : ChainState ρ} {l : List Transaction}
    (h : Around env txs (l ++ out) s.txPool)
    (hlog : Unreported env txs (returnTxToPool env l s)) :
    Around env txs out (Blockchain.returnTxToPool env l s).txPool := by
  induction l generalizing s with
  | nil => exact h
  | cons tx l ih =>
      obtain ⟨p, log, hreturned, hsub⟩ := returnTxToPool_eq env l (Blockchain.returnTx env s tx)
      have hlog' : Unreported env txs (Blockchain.returnTx env s tx) := by
        refine hlog.of_subset ?_
        show _ ⊆ (Blockchain.returnTxToPool env l (Blockchain.returnTx env s tx)).notReturned
        rw [hreturned]
        exact hsub
      exact ih (h.returnTx hlog') hlog

/-! ### Adding and popping blocks -/

omit [DecidableEq ρ] in
/-- The loop over a block takes transactions out. -/
theorem Around.collectTxs {s : ChainState ρ} {fast : Bool} {ids : List Hash} {index : ℕ}
    {acc : Collected} (h : Around env txs (acc.txs ++ out) p) :
    Around env txs ((collectTxs env s fast ids index acc p).2.1.txs ++ out)
      (Blockchain.collectTxs env s fast ids index acc p).2.2 := by
  induction ids generalizing index acc p with
  | nil => exact h
  | cons id ids ih =>
      rw [Blockchain.collectTxs]
      split
      · exact h
      · obtain ⟨⟨result, q⟩, htake⟩ : ∃ r, TxPool.takeTx env.ops env.cfg id p = r := ⟨_, rfl⟩
        rw [htake]
        cases result with
        | none =>
            have hnone : (TxPool.takeTx env.ops env.cfg id p).1 = none := by rw [htake]
            have hq := takeTx_of_none hnone
            rw [htake] at hq
            simp only at hq ⊢
            rw [hq]
            exact h
        | some taken =>
            have hsome : (TxPool.takeTx env.ops env.cfg id p).1 = some taken := by rw [htake]
            have htaken := h.takeTx hsome
            rw [htake] at htaken
            have hmoved : Around env txs ((acc.txs ++ [taken.tx]) ++ out) q := by
              refine htaken.of_out ?_ ?_
              · intro tx htx
                simpa [or_comm, or_assoc, or_left_comm] using htx
              · intro tx _ htx
                simpa [or_comm, or_assoc, or_left_comm] using htx
            simp only
            split
            · exact hmoved
            · exact ih hmoved

omit [DecidableEq ρ] in
theorem txPool_addBlockAsInvalid (bei : BlockExtendedInfo) (id : Hash) (s : ChainState ρ) :
    (addBlockAsInvalid bei id s).txPool = s.txPool := by
  rw [addBlockAsInvalid]
  split <;> rfl

/-- A block that is refused gives back what it took. One that is added keeps it. -/
theorem Around.handleBlock {s : ChainState ρ} {b : Block} (h : Around env txs out s.txPool)
    (hlog : Unreported env txs (handleBlockToMainChain env b s).2) :
    ((handleBlockToMainChain env b s).1 = false ∧
        Around env txs out (handleBlockToMainChain env b s).2.txPool) ∨
      (handleBlockToMainChain env b s).1 = true ∧
        ∃ e, (handleBlockToMainChain env b s).2.chain = s.chain ++ [e] ∧
          Around env txs (e.txs ++ out) (handleBlockToMainChain env b s).2.txPool := by
  rw [handleBlockToMainChain] at hlog ⊢
  cases hheader : checkHeader env s b with
  | none => exact .inl ⟨rfl, h⟩
  | some fast =>
      rw [hheader] at hlog
      have hcollected : Around env txs ((Blockchain.collectTxs env s fast b.txHashes.toList 0
          (startCollecting env b) s.txPool).2.1.txs ++ out)
          (Blockchain.collectTxs env s fast b.txHashes.toList 0 (startCollecting env b)
            s.txPool).2.2 := h.collectTxs
      obtain ⟨⟨stop, acc, q⟩, hrun⟩ : ∃ collected, Blockchain.collectTxs env s fast
        b.txHashes.toList 0 (startCollecting env b) s.txPool = collected := ⟨_, rfl⟩
      rw [hrun] at hcollected
      simp only [hrun] at hlog ⊢
      split at hlog
      · exact .inl ⟨rfl, Around.returnTxToPool (by rwa [txPool_addBlockAsInvalid]) hlog⟩
      · exact .inl ⟨rfl, Around.returnTxToPool hcollected hlog⟩
      · split at hlog
        · rename_i hcomplete
          exact .inl ⟨rfl, Around.returnTxToPool hcollected hlog⟩
        · rename_i e hcomplete
          refine .inr ⟨rfl, e, rfl, ?_⟩
          rw [(completeBlock_eq env hcomplete).2.1]
          exact hcollected

theorem notReturned_handleBlock (env : ChainEnv ρ) (b : Block) (s : ChainState ρ) :
    s.notReturned ⊆ (handleBlockToMainChain env b s).2.notReturned := by
  rcases handleBlockToMainChain_cases env b s with
    ⟨p, l, t, i, hrefused, -, -, hlog⟩ | ⟨fast, acc, p, e, -, -, -, hadded⟩
  · rw [hrefused]
    exact hlog
  · rw [hadded]
    exact List.Subset.refl _

/-- A popped block gives back what it took. A miner transaction does not go to the pool. -/
theorem Around.popBlock {s : ChainState ρ} {chain : List MainBlock} {top : MainBlock}
    (hchain : s.chain = chain ++ [top]) (h : Around env txs (top.txs ++ out) s.txPool)
    (hordinary : ∀ tx ∈ txs, isCoinbase tx = false)
    (hlog : Unreported env txs (popBlockFromBlockchain env s).2) :
    Around env txs out (popBlockFromBlockchain env s).2.txPool := by
  have htop : s.chain.getLast? = some top := by rw [hchain, List.getLast?_concat]
  have hback : Around env txs
      ((top.txs.reverse.filter fun tx => isCoinbase tx = false) ++ out) s.txPool := by
    refine h.of_out ?_ ?_
    · intro tx htx
      rcases List.mem_append.mp htx with htx | htx
      · exact List.mem_append_left _ (List.mem_reverse.mp (List.mem_of_mem_filter htx))
      · exact List.mem_append_right _ htx
    · intro tx htx hmem
      rcases List.mem_append.mp hmem with hmem | hmem
      · refine List.mem_append_left _ (List.mem_filter.mpr ⟨List.mem_reverse.mpr hmem, ?_⟩)
        simpa using hordinary tx htx
      · exact List.mem_append_right _ hmem
  rw [popBlockFromBlockchain, htop] at hlog ⊢
  simp only at hlog ⊢
  split at hlog
  · rename_i hnil
    rw [if_pos hnil]
    exact Around.returnTxToPool hback hlog
  · rename_i hnil
    rw [if_neg hnil]
    exact Around.returnTxToPool hback hlog

theorem notReturned_popTimes (n : ℕ) (s : ChainState ρ) :
    s.notReturned ⊆ (popTimes env n s).notReturned := by
  induction n generalizing s with
  | zero => exact List.Subset.refl _
  | succ n ih =>
      refine List.Subset.trans ?_ (ih (popBlockFromBlockchain env s).2)
      rcases List.eq_nil_or_concat s.chain with hnil | ⟨chain, top, hconcat⟩
      · rw [popBlockFromBlockchain, hnil, List.getLast?_nil]
        exact List.Subset.refl _
      · rw [List.concat_eq_append] at hconcat
        obtain ⟨p, l, m, hpop, hlog, -⟩ := popBlockFromBlockchain_eq env hconcat
        rw [hpop]
        exact hlog

def txsFrom (height : ℕ) (chain : List MainBlock) : List Transaction :=
  (chain.drop height).flatMap MainBlock.txs

theorem txsFrom_concat {height : ℕ} {chain : List MainBlock} (h : height ≤ chain.length)
    (e : MainBlock) (tx : Transaction) :
    tx ∈ txsFrom height (chain ++ [e]) ↔ tx ∈ e.txs ++ txsFrom height chain := by
  rw [txsFrom, txsFrom, List.drop_append_of_le_length h, List.flatMap_append, List.mem_append,
    List.mem_append, List.flatMap_singleton, or_comm]

/-- Popping down to a height brings all that is above it back. -/
theorem Around.popTimes {height n : ℕ} {s : ChainState ρ} (hlength : s.chain.length = height + n)
    (h : Around env txs (txsFrom height s.chain) s.txPool)
    (hordinary : ∀ tx ∈ txs, isCoinbase tx = false)
    (hlog : Unreported env txs (popTimes env n s)) :
    Around env txs [] (Blockchain.popTimes env n s).txPool := by
  induction n generalizing s with
  | zero =>
      refine h.of_out (by simp) fun tx _ hmem => ?_
      rw [txsFrom, List.drop_of_length_le (by omega)] at hmem
      exact absurd hmem (by simp)
  | succ n ih =>
      rcases List.eq_nil_or_concat s.chain with hnil | ⟨chain, top, hconcat⟩
      · rw [hnil, List.length_nil] at hlength
        omega
      · rw [List.concat_eq_append] at hconcat
        rw [hconcat, List.length_append, List.length_singleton] at hlength
        have hchain := (sameRest_popBlock env s).2
        rw [hconcat, List.dropLast_concat] at hchain
        refine ih ?_ ?_ hlog
        · rw [hchain]
          omega
        · rw [hchain]
          refine Around.popBlock hconcat ?_ hordinary
            (hlog.of_subset (notReturned_popTimes n (popBlockFromBlockchain env s).2))
          refine h.of_out ?_ ?_
          · intro tx htx
            rwa [hconcat, txsFrom_concat (by omega)]
          · intro tx _ htx
            rwa [hconcat, txsFrom_concat (by omega)] at htx

theorem notReturned_connectChain (altChain : List AltEntry) (s : ChainState ρ) :
    s.notReturned ⊆ (connectChain env altChain s).2.notReturned := by
  induction altChain generalizing s with
  | nil => exact List.Subset.refl _
  | cons entry rest ih =>
      have hfirst := notReturned_handleBlock env entry.2.bl s
      rw [connectChain_cons]
      split
      · exact List.Subset.trans hfirst (ih _)
      · exact hfirst

theorem Around.connectChain {height : ℕ} {altChain : List AltEntry} {s : ChainState ρ}
    (hheight : height ≤ s.chain.length) (h : Around env txs (txsFrom height s.chain) s.txPool)
    (hlog : Unreported env txs (connectChain env altChain s).2) :
    Around env txs (txsFrom height (Blockchain.connectChain env altChain s).2.chain)
      (Blockchain.connectChain env altChain s).2.txPool := by
  induction altChain generalizing s with
  | nil => exact h
  | cons entry rest ih =>
      rw [connectChain_cons] at hlog ⊢
      have hlog' : Unreported env txs (handleBlockToMainChain env entry.2.bl s).2 := by
        refine hlog.of_subset ?_
        split
        · exact notReturned_connectChain rest _
        · exact List.Subset.refl _
      rcases h.handleBlock hlog' with ⟨hrefused, haround⟩ | ⟨hadded, e, hchain, haround⟩
      · have hsame : (handleBlockToMainChain env entry.2.bl s).2.chain = s.chain := by
          rcases handleBlockToMainChain_cases env entry.2.bl s with
            ⟨p, l, t, i, heq, -⟩ | ⟨fast, acc, p, e, -, -, -, heq⟩
          · rw [heq]
          · rw [heq] at hrefused
            exact absurd hrefused (by simp)
        rw [hrefused, if_neg (by simp), hsame]
        exact haround
      · rw [hadded, if_pos rfl] at hlog ⊢
        refine ih ?_ ?_ hlog
        · rw [hchain, List.length_append]
          omega
        · rw [hchain]
          refine haround.of_out ?_ ?_
          · intro tx htx
            rwa [txsFrom_concat hheight] at htx
          · intro tx _ htx
            rwa [txsFrom_concat hheight]

end XrCoin.Blockchain

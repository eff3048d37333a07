import XrCoin.Blockchain.Returned
import XrCoin.Forks.Runs

/-!
A switch that fails, and what the rollback makes of the old chain. The old blocks go
through `handle_block_to_main_chain` again. A block with transactions whose hash is
expected takes the fast path there, and that path refuses it: the pops have cleared the
ids that it compares with.
-/

namespace XrCoin.Blockchain

open Archive Cryptonote Forks TxPool XrCoin.Core

variable {ρ : Type} [DecidableEq ρ] (env : ChainEnv ρ)

/-! ### Blocks that pass again -/

def headers (chain : List MainBlock) : List BlockHeader := chain.map fun e => e.block.toBlockHeader

def forkAt (heights : List Params) (chain : List MainBlock) : HardFork :=
  stateAt env.fork heights (headers chain) chain.length

/-- The node as it would be with another chain, and with nothing prepared for a block. -/
def atChain (s : ChainState ρ) (chain : List MainBlock) : ChainState ρ :=
  { s with
    chain := chain
    hardfork := forkAt env s.hardfork.heights chain
    blocksTxsCheck := []
    blocksLonghashTable := []
    scanTable := []
    currentBlockCumulWeightMedian :=
      env.blockCumulWeightMedian chain (getCurrentVersion (forkAt env s.hardfork.heights chain)) }

/-- The states agree in what the checks of a block read besides the pool. -/
structure Alike (s s' : ChainState ρ) : Prop where
  chain : s'.chain = s.chain
  hardfork : s'.hardfork = s.hardfork
  blocksHashCheck : s'.blocksHashCheck = s.blocksHashCheck
  blocksTxsCheck : s'.blocksTxsCheck = s.blocksTxsCheck
  blocksLonghashTable : s'.blocksLonghashTable = s.blocksLonghashTable
  scanTable : s'.scanTable = s.scanTable
  median : s'.currentBlockCumulWeightMedian = s.currentBlockCumulWeightMedian
  futureLimit : s'.futureLimit = s.futureLimit

/-- What the loop over the transactions collects when each of them comes from the pool, with
the weight and the fee that it went back with. -/
def recollect (s : ChainState ρ) (fast : Bool) : List Transaction → Collected → Option Collected
  | [], acc => some acc
  | tx :: txs, acc =>
      (if fast then some (0, 0)
        else env.checkTxInputs s.chain (currentVersion s) s.scanTable tx).bind fun counted =>
        recollect s fast txs
          ⟨acc.txs ++ [tx], acc.feeSummary + returnedFee tx,
            acc.cumulativeBlockWeight + returnedWeight env.cfg tx, acc.totalTxs + counted.1,
            acc.nofakeTxs + counted.2⟩

/-- The block keeps the rules on top of the chain: it is what
`handle_block_to_main_chain` makes of it there, its transactions given. -/
structure Valid (s : ChainState ρ) (chain : List MainBlock) (e : MainBlock) : Prop where
  hashes : e.txs.map env.txid = e.block.txHashes.toList
  new : ∀ txId ∈ e.block.txHashes.toList, txExists env chain txId = false
  parsed : ∀ tx ∈ e.txs, Parsed env.ops env.cfg tx
  ordinary : ∀ tx ∈ e.txs, isCoinbase tx = false
  accepted : ∃ fast acc, checkHeader env (atChain env s chain) e.block = some fast ∧
    recollect env (atChain env s chain) fast e.txs (startCollecting env e.block) = some acc ∧
    completeBlock env (atChain env s chain) e.block acc = some e

/-- The node as it would be with another chain, but for the median. -/
def atChainWith (median : UInt64) (s : ChainState ρ) (chain : List MainBlock) : ChainState ρ :=
  { atChain env s chain with currentBlockCumulWeightMedian := median }

def medianAt (s : ChainState ρ) (chain : List MainBlock) : UInt64 :=
  env.blockCumulWeightMedian chain (getCurrentVersion (forkAt env s.hardfork.heights chain))

/-- With the median, `validate_miner_transaction` gives the block the coins that it has. -/
def MinerFits (median : UInt64) (s : ChainState ρ) (chain : List MainBlock) (e : MainBlock) :
    Prop :=
  ∃ baseReward,
    env.validateMinerTransaction chain e.block e.blockWeight (e.txs.map returnedFee).sum
        ((chain.getLast?.map MainBlock.coinsGenerated).getD 0)
        (getCurrentVersion (forkAt env s.hardfork.heights chain)) median = some baseReward ∧
      addCoins env ((chain.getLast?.map MainBlock.coinsGenerated).getD 0) baseReward =
        e.coinsGenerated

def Covered (s : ChainState ρ) (height : ℕ) : Prop :=
  ∃ expectedHash, s.blocksHashCheck[height]? = some expectedHash ∧ expectedHash ≠ nullHash

variable {env} {s s' : ChainState ρ}

omit [DecidableEq ρ] in
theorem Alike.checks (h : Alike s s') :
    (∀ b, checkHeader env s' b = checkHeader env s b) ∧
      ∀ b acc, completeBlock env s' b acc = completeBlock env s b acc := by
  obtain ⟨⟩ := s
  obtain ⟨⟩ := s'
  obtain ⟨rfl, rfl, rfl, rfl, rfl, rfl, rfl, rfl⟩ := h
  exact ⟨fun _ => rfl, fun _ _ => rfl⟩

omit [DecidableEq ρ] in
theorem Alike.recollect (h : Alike s s') (fast : Bool) (txs : List Transaction)
    (acc : Collected) : recollect env s' fast txs acc = recollect env s fast txs acc := by
  have hversion : currentVersion s' = currentVersion s := by
    rw [currentVersion, currentVersion, h.hardfork]
  induction txs generalizing acc with
  | nil => rfl
  | cons tx txs ih =>
      rw [Blockchain.recollect, Blockchain.recollect, h.chain, h.scanTable, hversion]
      simp only [ih]

omit [DecidableEq ρ] in
/-- The header decides by itself whether the block takes the fast path. -/
theorem fast_iff_covered {b : Block} {fast : Bool} (h : checkHeader env s b = some fast) :
    fast = true ↔ Covered s s.chain.length := by
  have hexpected := ((checkHeader_eq_some env).mp h).2.2.2.2.1
  rw [checkExpectedOrWork] at hexpected
  rw [Covered]
  split at hexpected
  · rename_i expectedHash hget
    rw [hget]
    split at hexpected
    · rename_i hnull
      rw [← Option.some.inj hexpected]
      simp [hnull]
    · rename_i hnull
      split at hexpected
      · rw [← Option.some.inj hexpected]
        exact iff_of_true rfl ⟨expectedHash, rfl, hnull⟩
      · exact absurd hexpected (by simp)
  · rename_i hget
    rw [hget]
    split at hexpected
    · rw [← Option.some.inj hexpected]
      simp
    · exact absurd hexpected (by simp)

omit [DecidableEq ρ] in
/-- The loop collects the transactions that the pool holds, and leaves the others. -/
theorem collectTxs_held {txs : List Transaction} {index : ℕ} {acc acc' : Collected} {p : Pool ρ}
    (hheld : ∀ tx ∈ txs, Held env.ops env.cfg p tx)
    (hparsed : ∀ tx ∈ txs, Parsed env.ops env.cfg tx) (hnodup : (txs.map env.txid).Nodup)
    (hnew : ∀ txId ∈ txs.map env.txid, txExists env s.chain txId = false)
    (h : recollect env s false txs acc = some acc') :
    ∃ p', collectTxs env s false (txs.map env.txid) index acc p = (none, acc', p') ∧
      ∀ tx, Held env.ops env.cfg p tx → env.txid tx ∉ txs.map env.txid →
        Held env.ops env.cfg p' tx := by
  induction txs generalizing index acc p with
  | nil =>
      rw [← Option.some.inj h]
      exact ⟨p, rfl, fun _ htx _ => htx⟩
  | cons tx txs ih =>
      rw [List.forall_mem_cons] at hheld hparsed
      rw [List.map_cons, List.nodup_cons] at hnodup
      rw [List.map_cons, List.forall_mem_cons] at hnew
      obtain ⟨counted, hcounted, hrest⟩ := Option.bind_eq_some_iff.mp h
      obtain ⟨taken, htaken, htx, hweight, hfee⟩ := hheld.1.takeTx hparsed.1
      have hstay : ∀ tx', Held env.ops env.cfg p tx' → env.txid tx' ≠ env.txid tx →
          Held env.ops env.cfg (takeTx env.ops env.cfg (env.txid tx) p).2 tx' :=
        fun tx' hheld' hne => hheld'.takeTx_of_ne hne
      obtain ⟨⟨result, q⟩, hrun⟩ : ∃ r, takeTx env.ops env.cfg (env.txid tx) p = r := ⟨_, rfl⟩
      have hresult : result = some taken := by
        have hfst : (takeTx env.ops env.cfg (env.txid tx) p).1 = result := by rw [hrun]
        exact hfst.symm.trans htaken
      rw [hrun] at hstay
      have hlater : ∀ tx' ∈ txs, Held env.ops env.cfg q tx' := by
        intro tx' htx'
        refine hstay tx' (hheld.2 tx' htx') fun heq => hnodup.1 ?_
        rw [← heq]
        exact List.mem_map_of_mem htx'
      obtain ⟨p', hcollect, hothers⟩ := ih hlater hparsed.2 hnodup.2 hnew.2 hrest
      refine ⟨p', ?_, ?_⟩
      · rw [List.map_cons, collectTxs, hnew.1, if_neg (by simp), hrun, hresult]
        simp only [checkBlockTx, Bool.false_eq_true, if_false, htx, hweight, hfee]
        simp only [Bool.false_eq_true, if_false] at hcounted
        simp only [hcounted]
        exact hcollect
      · intro tx' hheld' hnot
        rw [List.map_cons, List.mem_cons, not_or] at hnot
        exact hothers tx' (hstay tx' hheld' hnot.1) hnot.2

omit [DecidableEq ρ] in
theorem recollect_feeSummary {fast : Bool} {txs : List Transaction} {acc acc' : Collected}
    (h : recollect env s fast txs acc = some acc') :
    acc'.feeSummary = acc.feeSummary + (txs.map returnedFee).sum := by
  induction txs generalizing acc with
  | nil =>
      rw [← Option.some.inj h, List.map_nil, List.sum_nil, UInt64.add_zero]
  | cons tx txs ih =>
      obtain ⟨counted, -, hrest⟩ := Option.bind_eq_some_iff.mp h
      rw [ih hrest, List.map_cons, List.sum_cons, UInt64.add_assoc]

omit [DecidableEq ρ] in
theorem recollect_atChainWith (median : UInt64) (chain : List MainBlock) (fast : Bool)
    (txs : List Transaction) (acc : Collected) :
    recollect env (atChainWith env median s chain) fast txs acc =
      recollect env (atChain env s chain) fast txs acc := by
  induction txs generalizing acc with
  | nil => rfl
  | cons tx txs ih =>
      rw [recollect, recollect]
      simp only [ih]
      rfl

omit [DecidableEq ρ] in
theorem completeBlock_median {b : Block} {acc : Collected} {e : MainBlock}
    (h : completeBlock env s b acc = some e) (median : UInt64) :
    completeBlock env { s with currentBlockCumulWeightMedian := median } b acc = some e ↔
      ∃ baseReward, env.validateMinerTransaction s.chain b acc.cumulativeBlockWeight acc.feeSummary
          ((s.chain.getLast?.map MainBlock.coinsGenerated).getD 0) (currentVersion s) median =
            some baseReward ∧
        addCoins env ((s.chain.getLast?.map MainBlock.coinsGenerated).getD 0) baseReward =
          e.coinsGenerated := by
  rw [completeBlock] at h ⊢
  obtain ⟨reward, -, h⟩ := Option.bind_eq_some_iff.mp h
  have hversion : currentVersion { s with currentBlockCumulWeightMedian := median } =
      currentVersion s := rfl
  have hdiffic : currentDiffic env { s with currentBlockCumulWeightMedian := median } =
      currentDiffic env s := rfl
  split at h
  · exact absurd h (by simp)
  · rename_i hfake
    split at h
    · exact absurd h (by simp)
    · rename_i hdb
      rw [← Option.some.inj h]
      simp only [hversion, hdiffic, Option.bind_eq_some_iff, if_neg hfake, if_neg hdb,
        Option.some.injEq, MainBlock.mk.injEq, true_and]

omit [DecidableEq ρ] in
theorem minerFits_iff {chain : List MainBlock} {e : MainBlock} {fast : Bool}
    {acc : Collected}
    (hcollect : recollect env (atChain env s chain) fast e.txs (startCollecting env e.block) =
      some acc)
    (hcomplete : completeBlock env (atChain env s chain) e.block acc = some e) (median : UInt64) :
    completeBlock env (atChainWith env median s chain) e.block acc = some e ↔
      MinerFits env median s chain e := by
  have hfee : acc.feeSummary = (e.txs.map returnedFee).sum := by
    rw [recollect_feeSummary hcollect, startCollecting, UInt64.zero_add]
  have hweight : acc.cumulativeBlockWeight = e.blockWeight := by
    obtain ⟨reward, -, h⟩ := Option.bind_eq_some_iff.mp hcomplete
    split at h
    · exact absurd h (by simp)
    · split at h
      · exact absurd h (by simp)
      · rw [← Option.some.inj h]
  rw [atChainWith, completeBlock_median hcomplete, MinerFits, hfee, hweight]
  rfl

omit [DecidableEq ρ] in
/-- A valid block has the coins that it should with the median of its chain. -/
theorem Valid.minerFits {chain : List MainBlock} {e : MainBlock} (h : Valid env s chain e) :
    MinerFits env (medianAt env s chain) s chain e := by
  obtain ⟨fast, acc, -, hcollect, hcomplete⟩ := h.accepted
  exact (minerFits_iff hcollect hcomplete _).mp hcomplete

/-- The fast path refuses a block with transactions. -/
theorem Valid.refused_again {median : UInt64} {chain : List MainBlock} {e : MainBlock}
    (hvalid : Valid env s chain e) (halike : Alike (atChainWith env median s chain) s')
    (hheader : checkHeader env s' e.block = some true) (htxs : e.txs ≠ [])
    (hheld : ∀ tx ∈ e.txs, Held env.ops env.cfg s'.txPool tx) :
    (handleBlockToMainChain env e.block s').1 = false := by
  obtain ⟨tx, txs, hcons⟩ := List.exists_cons_of_ne_nil htxs
  -- the first transaction is taken, and its id is compared with nothing
  have htx : tx ∈ e.txs := by rw [hcons]; exact List.mem_cons_self
  obtain ⟨taken, htaken, -⟩ := (hheld tx htx).takeTx (hvalid.parsed tx htx)
  have hids : e.block.txHashes.toList = env.txid tx :: txs.map env.txid := by
    rw [← hvalid.hashes, hcons, List.map_cons]
  have hnew : txExists env s'.chain (env.txid tx) = false := by
    rw [halike.chain]
    exact hvalid.new _ (by rw [hids]; exact List.mem_cons_self)
  have hnothing : s'.blocksTxsCheck = [] := halike.blocksTxsCheck
  obtain ⟨⟨result, q⟩, hrun⟩ : ∃ r, takeTx env.ops env.cfg (env.txid tx) s'.txPool = r :=
    ⟨_, rfl⟩
  have hresult : result = some taken := by
    have hfst : (takeTx env.ops env.cfg (env.txid tx) s'.txPool).1 = result := by rw [hrun]
    exact hfst.symm.trans htaken
  rw [handleBlockToMainChain, hheader]
  simp only [hids, collectTxs, hnew, Bool.false_eq_true, if_false, hrun, hresult, checkBlockTx,
    if_true, hnothing, List.getElem?_nil, reduceCtorEq]

omit [DecidableEq ρ] in
/-- The loop collects a block's transactions again, unless it takes the fast path. -/
theorem Valid.collectTxs_again {median : UInt64} {chain : List MainBlock} {e : MainBlock}
    {fast : Bool} {acc : Collected} (hvalid : Valid env s chain e)
    (halike : Alike (atChainWith env median s chain) s') (hnodup : (e.txs.map env.txid).Nodup)
    (hheld : ∀ tx ∈ e.txs, Held env.ops env.cfg s'.txPool tx)
    (hcollect : recollect env (atChain env s chain) fast e.txs (startCollecting env e.block) =
      some acc) (hslow : e.txs ≠ [] → fast = false) :
    ∃ p, collectTxs env s' fast e.block.txHashes.toList 0 (startCollecting env e.block)
        s'.txPool = (none, acc, p) ∧
      ∀ tx, Held env.ops env.cfg s'.txPool tx → env.txid tx ∉ e.txs.map env.txid →
        Held env.ops env.cfg p tx := by
  rw [← hvalid.hashes]
  by_cases hnil : e.txs = []
  · rw [hnil] at hcollect ⊢
    rw [← Option.some.inj hcollect]
    exact ⟨s'.txPool, rfl, fun _ htx _ => htx⟩
  · rw [hslow hnil] at hcollect ⊢
    refine collectTxs_held hheld hvalid.parsed hnodup ?_ ((halike.recollect _ _ _).trans
      ((recollect_atChainWith median chain _ _ _).trans hcollect))
    rw [halike.chain, hvalid.hashes]
    exact hvalid.new

/-- A valid block is added again when the pool holds its transactions and the median suits
it, unless it has some and takes the fast path. -/
theorem handleBlock_again {median : UInt64} {chain : List MainBlock} {e : MainBlock}
    (hvalid : Valid env s chain e) (halike : Alike (atChainWith env median s chain) s')
    (hnodup : (e.txs.map env.txid).Nodup)
    (hheld : ∀ tx ∈ e.txs, Held env.ops env.cfg s'.txPool tx) :
    (e.txs ≠ [] ∧ Covered s chain.length → (handleBlockToMainChain env e.block s').1 = false) ∧
      ((handleBlockToMainChain env e.block s').2.chain = chain ++ [e] →
        MinerFits env median s chain e) ∧
      (¬(e.txs ≠ [] ∧ Covered s chain.length) → MinerFits env median s chain e →
        ∃ p, handleBlockToMainChain env e.block s' =
            (true, storeBlock env { s' with txPool := p, blocksTxsCheck := [] } e) ∧
          ∀ tx, Held env.ops env.cfg s'.txPool tx → env.txid tx ∉ e.txs.map env.txid →
            Held env.ops env.cfg p tx) := by
  obtain ⟨fast, acc, hheader, hcollect, hcomplete⟩ := hvalid.accepted
  have hcovered : fast = true ↔ Covered s chain.length := fast_iff_covered hheader
  have hchain : s'.chain = chain := halike.chain
  have hheader' : checkHeader env s' e.block = some fast := (halike.checks.1 e.block).trans hheader
  have hrefused : e.txs ≠ [] ∧ Covered s chain.length →
      (handleBlockToMainChain env e.block s').1 = false := by
    rintro ⟨htxs, hcover⟩
    rw [hcovered.mpr hcover] at hheader'
    exact hvalid.refused_again halike hheader' htxs hheld
  have hloop (hnot : ¬(e.txs ≠ [] ∧ Covered s chain.length)) :=
    hvalid.collectTxs_again halike hnodup hheld hcollect fun hnil =>
      Bool.eq_false_iff.mpr fun hfast => hnot ⟨hnil, hcovered.mp hfast⟩
  have hcompletes : ∀ p e', completeBlock env { s' with txPool := p, blocksTxsCheck := [] } e.block
      acc = some e' ↔ completeBlock env (atChainWith env median s chain) e.block acc = some e' := by
    intro p e'
    have hsame : Alike (atChainWith env median s chain)
        { s' with txPool := p, blocksTxsCheck := [] } :=
      ⟨halike.chain, halike.hardfork, halike.blocksHashCheck, rfl, halike.blocksLonghashTable,
        halike.scanTable, halike.median, halike.futureLimit⟩
    rw [hsame.checks.2]
  refine ⟨hrefused, fun hlonger => ?_, fun hnot hfits => ?_⟩
  · rcases handleBlockToMainChain_cases env e.block s' with
      ⟨p, l, t, i, heq, -⟩ | ⟨fast', acc', p, e', hheader'', hrun', hcomplete', heq⟩
    · -- a refused block does not make the chain longer
      rw [heq] at hlonger
      have hlength := congrArg List.length (hchain.symm.trans hlonger)
      rw [List.length_append, List.length_singleton] at hlength
      omega
    · rw [heq, storeBlock, hchain] at hlonger
      obtain rfl := List.singleton_inj.mp (List.append_cancel_left hlonger)
      have hnot : ¬(e'.txs ≠ [] ∧ Covered s chain.length) := by
        intro hfast
        have hfalse := hrefused hfast
        rw [heq] at hfalse
        exact absurd hfalse (by simp)
      obtain ⟨p', hrun, -⟩ := hloop hnot
      obtain rfl := Option.some.inj (hheader'.symm.trans hheader'')
      rw [hrun] at hrun'
      obtain ⟨rfl, rfl⟩ := Prod.mk.inj (Prod.mk.inj hrun').2
      exact (minerFits_iff hcollect hcomplete median).mp ((hcompletes _ _).mp hcomplete')
  · obtain ⟨p, hrun, hothers⟩ := hloop hnot
    refine ⟨p, ?_, hothers⟩
    have hcomplete' := (hcompletes p e).mpr
      ((minerFits_iff hcollect hcomplete median).mpr hfits)
    rw [handleBlockToMainChain, hheader']
    simp only [hrun, hcomplete']

omit [DecidableEq ρ] in
/-- Storing a valid block leads to the node of the longer chain. -/
theorem alike_storeBlock {median : UInt64} {chain : List MainBlock} {e : MainBlock} {p : Pool ρ}
    (hvalid : Valid env s chain e) (halike : Alike (atChainWith env median s chain) s') :
    Alike (atChainWith env (medianAt env s (chain ++ [e])) s (chain ++ [e]))
      (storeBlock env { s' with txPool := p, blocksTxsCheck := [] } e) := by
  obtain ⟨fast, acc, hheader, -, -⟩ := hvalid.accepted
  have hcheck := ((checkHeader_eq_some env).mp hheader).2.1
  have hfork : forkAt env s.hardfork.heights chain =
      stateAt env.fork s.hardfork.heights (headers (chain ++ [e])) chain.length := by
    rw [forkAt, headers, headers, List.map_append, List.map_singleton]
    exact (stateAt_append _ (by rw [List.length_map])).symm
  have hget : (headers (chain ++ [e]))[chain.length]? = some e.block.toBlockHeader := by
    rw [headers, List.map_append, List.map_singleton,
      List.getElem?_append_right (by rw [List.length_map]), List.length_map, Nat.sub_self]
    rfl
  -- the fork object moves on to the longer chain
  have hadded : (add env.fork e.block.toBlockHeader s'.chain.length s'.hardfork
      (forkDb s')).2.1 = forkAt env s.hardfork.heights (chain ++ [e]) := by
    rw [halike.chain, halike.hardfork]
    show (add env.fork e.block.toBlockHeader chain.length (forkAt env s.hardfork.heights chain)
      (forkDb s')).2.1 = _
    have hcheck' : check (forkAt env s.hardfork.heights chain) e.block.toBlockHeader = true := hcheck
    rw [hfork] at hcheck' ⊢
    rw [add_stateAt hget hcheck', forkAt, List.length_append, List.length_singleton]
  have hlonger : s'.chain ++ [e] = chain ++ [e] := by rw [halike.chain]; rfl
  refine ⟨hlonger, hadded, halike.blocksHashCheck, rfl, halike.blocksLonghashTable,
    halike.scanTable, ?_, halike.futureLimit⟩
  show env.blockCumulWeightMedian (s'.chain ++ [e]) (getCurrentVersion (add env.fork
    e.block.toBlockHeader s'.chain.length s'.hardfork (forkDb s')).2.1) = _
  rw [hlonger, hadded]
  rfl

/-- Where all blocks are added again, the first one is. -/
theorem addAgain_first {base above : List MainBlock} {e : MainBlock} {blocks : List Block}
    (hbase : s'.chain = base)
    (h : (addAgain env (e.block :: blocks) s').2.chain = base ++ e :: above) :
    (handleBlockToMainChain env e.block s').1 = true ∧
      (handleBlockToMainChain env e.block s').2.chain = base ++ [e] := by
  rw [addAgain_cons] at h
  rcases handleBlockToMainChain_cases env e.block s' with
    ⟨p, l, t, i, heq, -⟩ | ⟨fast, acc, p, e', -, -, -, heq⟩
  · rw [heq, if_neg (by simp)] at h
    have hlength := congrArg List.length (hbase.symm.trans h)
    rw [List.length_append, List.length_cons] at hlength
    omega
  · rw [heq, if_pos rfl] at h
    obtain ⟨again, hagain, -⟩ := addAgain_chain env blocks
      (handleBlockToMainChain env e.block s').2
    rw [heq] at hagain
    rw [hagain, storeBlock, hbase, List.append_assoc, List.singleton_append] at h
    obtain ⟨rfl, -⟩ := List.cons.inj (List.append_cancel_left h)
    rw [heq, storeBlock, hbase]
    exact ⟨rfl, rfl⟩

/-- Adding the old blocks again leads back to the old chain when none with transactions
takes the fast path, and the median at the start suits the first one. -/
theorem addAgain_spec {median : UInt64} {base above : List MainBlock}
    (hvalid : ∀ n e, above[n]? = some e → Valid env s (base ++ above.take n) e)
    (halike : Alike (atChainWith env median s base) s')
    (hnodup : ((above.flatMap MainBlock.txs).map env.txid).Nodup)
    (hheld : ∀ tx ∈ above.flatMap MainBlock.txs, Held env.ops env.cfg s'.txPool tx) :
    (addAgain env (above.map MainBlock.block) s').2.chain = base ++ above ↔
      (∀ n e, above[n]? = some e → e.txs ≠ [] → ¬Covered s (base.length + n)) ∧
        ∀ e, above.head? = some e → MinerFits env median s base e := by
  induction above generalizing base s' median with
  | nil =>
      rw [List.append_nil]
      exact iff_of_true halike.chain ⟨fun n e he => absurd he (by simp), fun e he =>
        absurd he (by simp)⟩
  | cons e above ih =>
      rw [List.flatMap_cons, List.map_append, List.nodup_append] at hnodup
      have hfirst : Valid env s base e := by simpa using hvalid 0 e rfl
      have hheldFirst : ∀ tx ∈ e.txs, Held env.ops env.cfg s'.txPool tx := fun tx htx =>
        hheld tx (by rw [List.flatMap_cons]; exact List.mem_append_left _ htx)
      obtain ⟨hrefused, hlonger, hadded⟩ := handleBlock_again hfirst halike hnodup.1 hheldFirst
      have hchain : s'.chain = base := halike.chain
      rw [List.map_cons]
      by_cases hgood : ¬(e.txs ≠ [] ∧ Covered s base.length) ∧ MinerFits env median s base e
      · obtain ⟨hslow, hfits⟩ := hgood
        obtain ⟨p, hrun, hothers⟩ := hadded hslow hfits
        rw [addAgain_cons, hrun, if_pos rfl]
        have hheldRest : ∀ tx ∈ above.flatMap MainBlock.txs, Held env.ops env.cfg p tx := by
          intro tx htx
          refine hothers tx (hheld tx (by rw [List.flatMap_cons]; exact List.mem_append_right _ htx))
            fun hmem => hnodup.2.2 _ hmem _ (List.mem_map_of_mem htx) rfl
        have hvalidRest : ∀ n e', above[n]? = some e' →
            Valid env s (base ++ [e] ++ above.take n) e' := by
          intro n e' he'
          have hlater := hvalid (n + 1) e' he'
          rwa [List.take_succ_cons, List.append_cons] at hlater
        have hrest := ih hvalidRest (alike_storeBlock (p := p) hfirst halike) hnodup.2.1 hheldRest
        rw [List.append_assoc, List.singleton_append, List.length_append,
          List.length_singleton] at hrest
        rw [hrest]
        constructor
        · rintro ⟨hno, -⟩
          refine ⟨fun n e' he' htxs hcovered => ?_, fun e' he' => Option.some.inj he' ▸ hfits⟩
          cases n with
          | zero =>
              obtain rfl := Option.some.inj he'
              exact hslow ⟨htxs, hcovered⟩
          | succ n =>
              rw [Nat.add_comm n 1, ← Nat.add_assoc] at hcovered
              exact hno n e' he' htxs hcovered
        · rintro ⟨hno, -⟩
          refine ⟨fun n e' he' htxs hcovered => ?_, fun e' he' => ?_⟩
          · rw [Nat.add_assoc, Nat.add_comm 1 n] at hcovered
            exact hno (n + 1) e' he' htxs hcovered
          · -- the blocks behind the first one find their own median
            have hnext : above[0]? = some e' := by rw [← List.head?_eq_getElem?, he']
            have hvalidNext := hvalidRest 0 e' hnext
            rw [List.take_zero, List.append_nil] at hvalidNext
            exact hvalidNext.minerFits
      · refine iff_of_false (fun hall => hgood ?_) (fun hcond => hgood ⟨?_, hcond.2 e rfl⟩)
        · obtain ⟨hok, hstored⟩ := addAgain_first hchain hall
          refine ⟨fun hfast => ?_, hlonger hstored⟩
          rw [hrefused hfast] at hok
          exact absurd hok (by simp)
        · rintro ⟨htxs, hcovered⟩
          exact hcond.1 0 e rfl htxs hcovered

/-! ### The fork object during a switch -/

/-- What a switch keeps of the fork object while it adds blocks above a height: it stays, or
goes to a fork that begins up to another height. -/
structure ForkFrame (s : ChainState ρ) (height limit : ℕ) (t : ChainState ρ) : Prop where
  heights : t.hardfork.heights = s.hardfork.heights
  le_index : s.hardfork.currentForkIndex ≤ t.hardfork.currentForkIndex
  index_lt : t.hardfork.currentForkIndex < s.hardfork.heights.length
  begun : t.hardfork.currentForkIndex = s.hardfork.currentForkIndex ∨
    ∃ p, s.hardfork.heights[t.hardfork.currentForkIndex]? = some p ∧ p.height ≤ limit
  hfVersions : ∀ n < height, t.hfVersions n = s.hfVersions n

variable {height limit : ℕ} {t : ChainState ρ}

omit [DecidableEq ρ] in
theorem ForkFrame.of_sameRest (h : ForkFrame s height limit t) (hrest : SameRest t s') :
    ForkFrame s height limit s' := by
  refine ⟨?_, ?_, ?_, ?_, ?_⟩
  · rw [hrest.hardfork, h.heights]
  · rw [hrest.hardfork]
    exact h.le_index
  · rw [hrest.hardfork]
    exact h.index_lt
  · rw [hrest.hardfork]
    exact h.begun
  · rw [hrest.hfVersions]
    exact h.hfVersions

omit [DecidableEq ρ] in
theorem ForkFrame.storeBlock (env : ChainEnv ρ) (htable : Table s.hardfork.heights)
    (h : ForkFrame s height limit t) (hheight : height ≤ t.chain.length)
    (hlimit : t.chain.length < limit) (e : MainBlock) :
    ForkFrame s height limit (storeBlock env t e) := by
  rw [Blockchain.storeBlock, add]
  split
  · rename_i hcheck
    let hf : HardFork := ⟨t.hardfork.heights, (t.hardfork.votes.trim env.fork.windowSize.toNat).push
      (effectiveVote t.hardfork.heights e.block.toBlockHeader), t.hardfork.currentForkIndex⟩
    have htable' : Table hf.heights := by
      show Table t.hardfork.heights
      rw [h.heights]
      exact htable
    have hindex : hf.currentForkIndex < hf.heights.length := by
      show t.hardfork.currentForkIndex < t.hardfork.heights.length
      rw [h.heights]
      exact h.index_lt
    refine ⟨h.heights, h.le_index.trans (le_raiseToVoted hf _), ?_, ?_, ?_⟩
    · rw [← h.heights]
      exact raiseToVoted_lt hindex _
    · rcases htable'.raiseToVoted_begun env.fork (t.chain.length + 1) with hsame | ⟨p, hp, hbegun⟩
      · show (raiseToVoted env.fork hf (t.chain.length + 1)).currentForkIndex = _ ∨ _
        simp only
        rw [hsame]
        exact h.begun
      · refine .inr ⟨p, ?_, hbegun.trans hlimit⟩
        rw [← h.heights]
        exact hp
    · intro n hn
      show Function.update t.hfVersions t.chain.length _ n = _
      rw [Function.update_of_ne (by omega), h.hfVersions n hn]
  · exact ⟨h.heights, h.le_index, h.index_lt, h.begun, h.hfVersions⟩

theorem ForkFrame.connectChain (env : ChainEnv ρ) (htable : Table s.hardfork.heights)
    {altChain : List AltEntry} (h : ForkFrame s height limit t) (hheight : height ≤ t.chain.length)
    (hlimit : t.chain.length + altChain.length ≤ limit) :
    ForkFrame s height limit (connectChain env altChain t).2 := by
  induction altChain generalizing t with
  | nil => exact h
  | cons entry rest ih =>
      rw [List.length_cons] at hlimit
      rw [connectChain_cons]
      rcases handleBlockToMainChain_cases env entry.2.bl t with
        ⟨p, l, i, j, hrefused, -⟩ | ⟨fast, acc, p, e, -, -, -, hadded⟩
      · rw [hrefused, if_neg (by simp)]
        exact ⟨h.heights, h.le_index, h.index_lt, h.begun, h.hfVersions⟩
      · rw [hadded, if_pos rfl]
        have hlonger : (Blockchain.storeBlock env { t with txPool := p, blocksTxsCheck := [] }
            e).chain.length = t.chain.length + 1 := by
          rw [Blockchain.storeBlock, List.length_append, List.length_singleton]
        simp only
        refine ih ?_ (by omega) (by omega)
        have htaken : ForkFrame s height limit { t with txPool := p, blocksTxsCheck := [] } :=
          ⟨h.heights, h.le_index, h.index_lt, h.begun, h.hfVersions⟩
        exact htaken.storeBlock env htable hheight (by show t.chain.length < limit; omega) e

/-- After the pops the tables are empty, and the median is that of the chain at the version
of the fork object. -/
theorem popTimes_cleared (env : ChainEnv ρ) {n : ℕ} (hpos : 0 < n) (hn : n < t.chain.length) :
    (popTimes env n t).blocksTxsCheck = [] ∧ (popTimes env n t).blocksLonghashTable = [] ∧
      (popTimes env n t).scanTable = [] ∧ (popTimes env n t).currentBlockCumulWeightMedian =
        env.blockCumulWeightMedian (popTimes env n t).chain (currentVersion t) := by
  induction n generalizing t with
  | zero => exact absurd hpos (lt_irrefl 0)
  | succ n ih =>
      rcases List.eq_nil_or_concat t.chain with hnil | ⟨chain, top, hconcat⟩
      · rw [hnil] at hn
        exact absurd hn (by simp)
      · rw [List.concat_eq_append] at hconcat
        rw [hconcat, List.length_append, List.length_singleton] at hn
        obtain ⟨p, l, m, hpop, -, hmedian⟩ := popBlockFromBlockchain_eq env hconcat
        rw [popTimes, hpop, hmedian (List.ne_nil_of_length_pos (by omega))]
        cases n with
        | zero => exact ⟨rfl, rfl, rfl, rfl⟩
        | succ n =>
            refine ih (Nat.succ_pos n) ?_
            show n + 1 < chain.length
            omega

end XrCoin.Blockchain

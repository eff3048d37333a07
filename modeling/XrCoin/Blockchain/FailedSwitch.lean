import XrCoin.Blockchain.Rollback
import XrCoin.Blockchain.SwitchForks

/-!
The switch that fails midway, as a whole: when the main chain and the stores come out of it
as they have to.
-/

namespace XrCoin.Blockchain

open Archive Cryptonote Forks TxPool XrCoin.Core

variable {ρ : Type} [DecidableEq ρ] {env : ChainEnv ρ} {s s' t : ChainState ρ} {limit : ℕ}

/-! ### The rollback -/

/-- The version of the fork object when the switch has added these blocks above a chain. The
pops have left the object where it was. -/
def switchVersion (env : ChainEnv ρ) (s : ChainState ρ) (base : List MainBlock)
    (accepted : List AltEntry) : UInt8 :=
  getCurrentVersion (extendAll env.fork (accepted.map fun entry => entry.2.bl.toBlockHeader)
    s.hardfork ⟨headers base, s.hfVersions⟩).1

omit [DecidableEq ρ] in
theorem storeBlock_extend (env : ChainEnv ρ) (t : ChainState ρ) {e : MainBlock}
    (hcheck : check t.hardfork e.block.toBlockHeader = true) :
    ((storeBlock env t e).hardfork, forkDb (storeBlock env t e)) =
      (extend env.fork e.block.toBlockHeader t.hardfork (forkDb t)).2 := by
  have hheight : (forkDb t).height = t.chain.length := List.length_map _
  rw [extend, hheight, forkDb, storeBlock, add, if_pos hcheck]
  simp only [if_true, List.map_append, List.map_singleton]
  rfl

theorem connectChain_fork (env : ChainEnv ρ) (altChain : List AltEntry) (t : ChainState ρ) :
    ∃ accepted, altChain = accepted ++ (connectChain env altChain t).1 ∧
      ((connectChain env altChain t).2.hardfork, forkDb (connectChain env altChain t).2) =
        extendAll env.fork (accepted.map fun entry => entry.2.bl.toBlockHeader) t.hardfork
          (forkDb t) := by
  induction altChain generalizing t with
  | nil => exact ⟨[], rfl, rfl⟩
  | cons entry rest ih =>
      rw [connectChain_cons]
      rcases handleBlockToMainChain_cases env entry.2.bl t with
        ⟨p, l, i, j, hrefused, -⟩ | ⟨fast, acc, p, e, hheader, -, hcomplete, hadded⟩
      · rw [hrefused, if_neg (by simp)]
        exact ⟨[], rfl, rfl⟩
      · rw [hadded, if_pos rfl]
        obtain ⟨accepted, hsplit, hfork⟩ :=
          ih (storeBlock env { t with txPool := p, blocksTxsCheck := [] } e)
        have hblock := (completeBlock_eq env hcomplete).1
        have hcheck := ((checkHeader_eq_some env).mp hheader).2.1
        rw [← hblock] at hcheck
        have hextend := storeBlock_extend env { t with txPool := p, blocksTxsCheck := [] } hcheck
        refine ⟨entry :: accepted, congrArg (entry :: ·) hsplit, hfork.trans ?_⟩
        rw [List.map_cons, ← hblock, extendAll]
        exact congrArg (fun moved : HardFork × ForkDb => extendAll env.fork _ moved.1 moved.2)
          hextend

/-- The forks that may be in force during the switch give the chain below it the same
median. -/
def SteadyMedian (env : ChainEnv ρ) (s : ChainState ρ) (base : List MainBlock) (limit : ℕ) : Prop :=
  ∀ p ∈ s.hardfork.heights, p.height ≤ limit →
    getCurrentVersion (forkAt env s.hardfork.heights base) ≤ p.version →
    env.blockCumulWeightMedian base p.version =
      env.blockCumulWeightMedian base (getCurrentVersion (forkAt env s.hardfork.heights base))

/-- The main chain of a node, with the blocks above a height that a switch pops. -/
structure Restorable (env : ChainEnv ρ) (s : ChainState ρ) (base above : List MainBlock) : Prop where
  chain : s.chain = base ++ above
  nonempty : base ≠ []
  settled : Forks.Settled env.fork s.hardfork (forkDb s)
  originalFirst : OriginalFirst env.fork s.hardfork.heights
  valid : ∀ n e, above[n]? = some e → Valid env s (base ++ above.take n) e
  nodup : ((above.flatMap MainBlock.txs).map env.txid).Nodup
  named : Named env.ops env.cfg s.txPool
  absent : ∀ row ∈ s.txPool.txpool.rows, ∀ tx ∈ above.flatMap MainBlock.txs,
    row.txid ≠ env.txid tx

variable {base above : List MainBlock}

omit [DecidableEq ρ] in
theorem Restorable.forkIndexAt_eq (h : Restorable env s base above) {n : ℕ} (hn : n ≤ base.length) :
    stateAt env.fork s.hardfork.heights (headers base) n =
      stateAt env.fork s.hardfork.heights (forkDb s).blocks n := by
  apply stateAt_congr
  show (headers base).take n = (headers s.chain).take n
  rw [h.chain, headers, headers, List.map_append, List.take_append_of_le_length]
  rwa [List.length_map]

omit [DecidableEq ρ] in
/-- The fork object is taken back to the fork of the chain below. -/
theorem Restorable.reorganizeHardfork (h : Restorable env s base above)
    (hframe : ForkFrame s base.length limit t) (hchain : t.chain = base) :
    (reorganizeHardfork env base.length t).hardfork = forkAt env s.hardfork.heights base := by
  have hpos : 0 < base.length := List.length_pos_of_ne_nil h.nonempty
  have hblocks : (forkDb t).blocks = headers base := by
    rw [← hchain]
    rfl
  have hlength : (forkDb t).height = base.length := by
    rw [ForkDb.height, hblocks, headers, List.length_map]
  have hheight : (forkDb s).height = s.chain.length := List.length_map _
  have hle : base.length ≤ s.chain.length := by
    rw [h.chain, List.length_append]
    omega
  have haccepted : Forks.Accepted env.fork s.hardfork.heights (forkDb t).blocks := by
    have htake := h.settled.accepted.take base.length
    have hrecorded : (forkDb s).blocks.take base.length = headers base := by
      show (headers s.chain).take base.length = headers base
      rw [h.chain, headers, headers, List.map_append, List.take_left' (List.length_map _)]
    rwa [hblocks, ← hrecorded]
  have hindex : forkIndexAt env.fork s.hardfork.heights (forkDb t).blocks (base.length - 1) ≤
      t.hardfork.currentForkIndex := by
    have hat := congrArg HardFork.currentForkIndex
      (h.forkIndexAt_eq (n := base.length - 1) (Nat.sub_le _ _))
    have hstate := congrArg HardFork.currentForkIndex h.settled.state
    rw [hblocks]
    calc forkIndexAt env.fork s.hardfork.heights (headers base) (base.length - 1)
        = forkIndexAt env.fork s.hardfork.heights (forkDb s).blocks (base.length - 1) := hat
      _ ≤ forkIndexAt env.fork s.hardfork.heights (forkDb s).blocks (forkDb s).height :=
          forkIndexAt_mono (by omega)
      _ = s.hardfork.currentForkIndex := hstate.symm
      _ ≤ t.hardfork.currentForkIndex := hframe.le_index
  have hversion : (forkDb t).hfVersions (base.length - 1) = some (getCurrentVersion
      (stateAt env.fork s.hardfork.heights (forkDb t).blocks (base.length - 1))) := by
    rw [hblocks, h.forkIndexAt_eq (Nat.sub_le _ _)]
    have hrecorded := h.settled.recorded (base.length - 1) (by omega)
    rw [← hrecorded]
    exact hframe.hfVersions _ (by omega)
  have hrun := reorganizeFromBlockHeight_stateAt h.settled.table haccepted
    (by omega) hframe.heights hindex hframe.index_lt
    (fun _ => h.originalFirst) (fun _ => hversion)
  rw [Blockchain.reorganizeHardfork, reorganizeFromChainHeight, if_neg (by omega), hrun]
  show stateAt env.fork s.hardfork.heights (forkDb t).blocks (forkDb t).height = _
  rw [hblocks, hlength, forkAt]

omit [DecidableEq ρ] in
/-- The node in front of the old blocks when the switch has failed: the state after the
pops, the connected blocks and the pops of the rollback. -/
def rolledBack (env : ChainEnv ρ) (altChain : List AltEntry) (n height : ℕ) (s : ChainState ρ) :
    ChainState ρ :=
  let connected := (connectChain env altChain (popTimes env n s)).2
  reorganizeHardfork env height (popTimes env (connected.chain.length - height) connected)

theorem Restorable.popTimes_chain (h : Restorable env s base above) :
    (popTimes env above.length s).chain = base := by
  rw [(popTimes_spec env above.length s).2, h.chain, List.length_append, Nat.add_sub_cancel,
    List.take_left]

theorem Restorable.rolledBack_chain (h : Restorable env s base above) (altChain : List AltEntry) :
    (rolledBack env altChain above.length base.length s).chain = base := by
  obtain ⟨alts, hconnected⟩ := connectChain_spec env altChain (popTimes env above.length s)
  have hchain := hconnected.chain
  rw [h.popTimes_chain] at hchain
  obtain ⟨hf, versions, heq⟩ := reorganizeHardfork_eq env base.length (popTimes env
    ((connectChain env altChain (popTimes env above.length s)).2.chain.length - base.length)
    (connectChain env altChain (popTimes env above.length s)).2)
  rw [rolledBack, heq]
  show (popTimes env _ _).chain = base
  rw [(popTimes_spec env _ _).2, hchain, List.length_append, Nat.add_sub_cancel_left,
    Nat.add_sub_cancel, List.take_left]

omit [DecidableEq ρ] in
theorem Restorable.forkFrame (h : Restorable env s base above) (hrest : SameRest s t) (limit : ℕ) :
    ForkFrame s base.length limit t where
  heights := by rw [hrest.hardfork]
  le_index := by rw [hrest.hardfork]
  index_lt := by
    rw [hrest.hardfork]
    exact h.settled.index_lt
  begun := .inl (by rw [hrest.hardfork])
  hfVersions _ _ := by rw [hrest.hfVersions]

theorem Restorable.connected_fork (h : Restorable env s base above)
    {altChain accepted : List AltEntry}
    (hsplit : altChain = accepted ++ (connectChain env altChain (popTimes env above.length s)).1)
    (hlimit : base.length + altChain.length ≤ limit) :
    ForkFrame s base.length limit (connectChain env altChain (popTimes env above.length s)).2 ∧
      currentVersion (connectChain env altChain (popTimes env above.length s)).2 =
        switchVersion env s base accepted := by
  have hpopped := h.popTimes_chain
  obtain ⟨hrest, -⟩ := popTimes_spec env above.length s
  generalize popTimes env above.length s = popped at hpopped hrest hsplit ⊢
  constructor
  · refine (h.forkFrame hrest limit).connectChain env h.settled.table ?_ ?_
    · rw [hpopped]
    · rwa [hpopped]
  · obtain ⟨accepted', hsplit', hfork⟩ := connectChain_fork env altChain popped
    obtain rfl := List.append_cancel_right (hsplit.symm.trans hsplit')
    have hdb : forkDb popped = ⟨headers base, s.hfVersions⟩ := by
      rw [forkDb, hpopped, hrest.hfVersions, headers]
    rw [hdb, hrest.hardfork] at hfork
    rw [switchVersion, ← hfork, currentVersion]

/-- The old blocks are checked on the node that the chain below gives, with the median at
the version of the fork object after the accepted blocks. -/
theorem Restorable.alike (h : Restorable env s base above) {altChain accepted : List AltEntry}
    (hsplit : altChain = accepted ++ (connectChain env altChain (popTimes env above.length s)).1)
    (habove : above ≠ []) :
    Alike (atChainWith env (env.blockCumulWeightMedian base (switchVersion env s base accepted)) s
        base) (rolledBack env altChain above.length base.length s) := by
  have hpos : 0 < above.length := List.length_pos_of_ne_nil habove
  have hlt : above.length < s.chain.length := by
    have hbase := List.length_pos_of_ne_nil h.nonempty
    rw [h.chain, List.length_append]
    omega
  have hpopped := h.popTimes_chain
  obtain ⟨hrest, -⟩ := popTimes_spec env above.length s
  have hcleared := popTimes_cleared env hpos hlt
  rw [hpopped] at hcleared
  obtain ⟨hframe, hversion⟩ := h.connected_fork hsplit le_rfl
  rw [rolledBack]
  generalize popTimes env above.length s = popped at *
  obtain ⟨htxs, hlonghash, hscan, hmedian⟩ := hcleared
  obtain ⟨alts, hconnected⟩ := connectChain_spec env altChain popped
  have hnone : alts = [] → currentVersion s = switchVersion env s base accepted := by
    rintro rfl
    obtain ⟨done, hdone, hblocks⟩ := hconnected.entries
    obtain rfl := List.append_cancel_right (hdone.symm.trans hsplit)
    rw [List.map_nil, eq_comm, List.map_eq_nil_iff] at hblocks
    rw [hblocks]
    rfl
  generalize (connectChain env altChain popped).2 = connected at hframe hversion hconnected ⊢
  have hlonger : connected.chain.length = base.length + alts.length := by
    rw [hconnected.chain, hpopped, List.length_append]
  simp only [hlonger, Nat.add_sub_cancel_left]
  obtain ⟨hrest', hchain'⟩ := popTimes_spec env alts.length connected
  rw [hlonger, Nat.add_sub_cancel, hconnected.chain, hpopped, List.take_left] at hchain'
  have hframe' := hframe.of_sameRest hrest'
  have htables : (popTimes env alts.length connected).blocksTxsCheck = [] ∧
      (popTimes env alts.length connected).blocksLonghashTable = [] ∧
      (popTimes env alts.length connected).scanTable = [] ∧
      (popTimes env alts.length connected).currentBlockCumulWeightMedian =
        env.blockCumulWeightMedian base (switchVersion env s base accepted) := by
    rcases Nat.eq_zero_or_pos alts.length with hzero | hsome
    · -- nothing was connected, and the tables are those of the first pops
      obtain rfl := List.eq_nil_of_length_eq_zero hzero
      refine ⟨?_, hconnected.blocksLonghashTable.trans hlonghash,
        hconnected.scanTable.trans hscan, ?_⟩
      · rcases hconnected.blocksTxsCheck with hsame | hempty
        · exact hsame.trans htxs
        · exact hempty
      · rw [← hnone rfl]
        exact (hconnected.median rfl).trans hmedian
    · have hbase := List.length_pos_of_ne_nil h.nonempty
      obtain ⟨htxs', hlonghash', hscan', hmedian'⟩ := popTimes_cleared env hsome
        (show alts.length < connected.chain.length by omega)
      refine ⟨htxs', hlonghash', hscan', hmedian'.trans ?_⟩
      rw [hchain', hversion]
  have hfork := h.reorganizeHardfork hframe' hchain'
  generalize popTimes env alts.length connected = back at *
  obtain ⟨hf, versions, heq⟩ := reorganizeHardfork_eq env base.length back
  rw [heq] at hfork ⊢
  exact ⟨hchain', hfork,
    hrest'.blocksHashCheck.trans (hconnected.blocksHashCheck.trans hrest.blocksHashCheck),
    htables.1, htables.2.1, htables.2.2.1, htables.2.2.2,
    hrest'.futureLimit.trans (hconnected.futureLimit.trans hrest.futureLimit)⟩

omit [DecidableEq ρ] in
/-- With a steady median, the pops set the one of the fork of the chain below. -/
theorem Restorable.median (h : Restorable env s base above)
    (hsteady : SteadyMedian env s base limit) (hlimit : s.chain.length ≤ limit)
    (hframe : ForkFrame s base.length limit t) :
    env.blockCumulWeightMedian base (currentVersion t) = medianAt env s base := by
  rw [medianAt]
  have hle : base.length ≤ (forkDb s).height := by
    show base.length ≤ ((s.chain.map fun e => e.block.toBlockHeader)).length
    rw [List.length_map, h.chain, List.length_append]
    omega
  have hheight : (forkDb s).height = s.chain.length := List.length_map _
  have hbase : (forkAt env s.hardfork.heights base).currentForkIndex =
      forkIndexAt env.fork s.hardfork.heights (forkDb s).blocks base.length :=
    congrArg HardFork.currentForkIndex (h.forkIndexAt_eq le_rfl)
  have hstate : s.hardfork.currentForkIndex =
      forkIndexAt env.fork s.hardfork.heights (forkDb s).blocks (forkDb s).height :=
    congrArg HardFork.currentForkIndex h.settled.state
  have hmono : forkIndexAt env.fork s.hardfork.heights (forkDb s).blocks base.length ≤
      forkIndexAt env.fork s.hardfork.heights (forkDb s).blocks (forkDb s).height :=
    forkIndexAt_mono hle
  have hmain : forkIndexAt env.fork s.hardfork.heights (forkDb s).blocks (forkDb s).height =
      forkIndexAt env.fork s.hardfork.heights (forkDb s).blocks base.length ∨
      ∃ p, s.hardfork.heights[forkIndexAt env.fork s.hardfork.heights (forkDb s).blocks
        (forkDb s).height]? = some p ∧ p.height ≤ (forkDb s).height :=
    h.settled.table.forkIndexAt_begun hle
  -- the object stayed, or its fork has begun
  have hcases : t.hardfork.currentForkIndex =
      (forkAt env s.hardfork.heights base).currentForkIndex ∨
      ∃ p, s.hardfork.heights[t.hardfork.currentForkIndex]? = some p ∧ p.height ≤ limit := by
    rcases hframe.begun with hsame | hbegun
    · rcases hmain with hsame' | ⟨p, hp, hbegun⟩
      · left
        rw [hsame, hstate, hsame', hbase]
      · right
        rw [hsame, hstate]
        exact ⟨p, hp, by omega⟩
    · exact .inr hbegun
  have hcurrent : currentVersion t =
      versionAt s.hardfork.heights t.hardfork.currentForkIndex := by
    rw [currentVersion, getCurrentVersion, hframe.heights]
  have hforkAt : getCurrentVersion (forkAt env s.hardfork.heights base) =
      versionAt s.hardfork.heights (forkAt env s.hardfork.heights base).currentForkIndex := rfl
  rcases hcases with hsame | ⟨p, hp, hbegun⟩
  · rw [hcurrent, hsame, ← hforkAt]
  · have hversion : currentVersion t = p.version := by
      rw [hcurrent, versionAt, hp]
      rfl
    rw [hversion]
    refine hsteady p (List.mem_of_getElem? hp) hbegun ?_
    rw [← hversion, hcurrent, hforkAt]
    rcases Nat.lt_or_eq_of_le ((hbase.trans_le hmono).trans (hstate.symm.trans_le
      hframe.le_index)) with hlt | heq
    · exact UInt8.le_of_lt (h.settled.table.ordered.versionAt_lt hlt hframe.index_lt)
    · rw [heq]
      exact UInt8.le_refl _

/-! ### The transactions of the old blocks -/

theorem notReturned_addAgain (bs : List Block) (s : ChainState ρ) :
    s.notReturned ⊆ (addAgain env bs s).2.notReturned := by
  induction bs generalizing s with
  | nil => exact List.Subset.refl _
  | cons b bs ih =>
      have hfirst := notReturned_handleBlock env b s
      rw [addAgain_cons]
      split
      · exact List.Subset.trans hfirst (ih _)
      · exact hfirst

omit [DecidableEq ρ] in
theorem Restorable.around (h : Restorable env s base above) :
    Around env (above.flatMap MainBlock.txs) (txsFrom base.length s.chain) s.txPool := by
  have hout : txsFrom base.length s.chain = above.flatMap MainBlock.txs := by
    rw [txsFrom, h.chain, List.drop_left]
  have hparsed : ∀ tx ∈ above.flatMap MainBlock.txs, Parsed env.ops env.cfg tx := by
    intro tx htx
    obtain ⟨e, he, htx⟩ := List.mem_flatMap.mp htx
    obtain ⟨n, hn⟩ := List.getElem?_of_mem he
    exact (h.valid n e hn).parsed tx htx
  rw [hout]
  refine ⟨hparsed, h.named, hparsed, ?_, ?_, fun _ htx => .inr htx⟩
  · intro tx htx tx' htx' heq
    exact List.inj_on_of_nodup_map h.nodup htx htx' heq
  · intro row hrow tx htx heq
    exact absurd heq (h.absent row hrow tx htx)

omit [DecidableEq ρ] in
theorem Restorable.ordinary (h : Restorable env s base above) :
    ∀ tx ∈ above.flatMap MainBlock.txs, isCoinbase tx = false := by
  intro tx htx
  obtain ⟨e, he, htx⟩ := List.mem_flatMap.mp htx
  obtain ⟨n, hn⟩ := List.getElem?_of_mem he
  exact (h.valid n e hn).ordinary tx htx

/-- When none is reported, the pool holds them all by the time the old blocks are added
again. -/
theorem Restorable.held (h : Restorable env s base above) {altChain : List AltEntry}
    (hlog : Unreported env (above.flatMap MainBlock.txs)
      (rolledBack env altChain above.length base.length s)) :
    ∀ tx ∈ above.flatMap MainBlock.txs, Held env.ops env.cfg
      (rolledBack env altChain above.length base.length s).txPool tx := by
  have hpopped := h.popTimes_chain
  have hlength : s.chain.length = base.length + above.length := by
    rw [h.chain, List.length_append]
  obtain ⟨alts, hconnected⟩ := connectChain_spec env altChain (popTimes env above.length s)
  have hchain := hconnected.chain
  rw [hpopped] at hchain
  rw [rolledBack] at hlog ⊢
  obtain ⟨hf, versions, heq⟩ := reorganizeHardfork_eq env base.length (popTimes env
    ((connectChain env altChain (popTimes env above.length s)).2.chain.length - base.length)
    (connectChain env altChain (popTimes env above.length s)).2)
  rw [heq] at hlog ⊢
  have hlog₂ : Unreported env (above.flatMap MainBlock.txs)
      (connectChain env altChain (popTimes env above.length s)).2 :=
    Unreported.of_subset hlog (notReturned_popTimes _ _)
  have hlog₁ : Unreported env (above.flatMap MainBlock.txs) (popTimes env above.length s) :=
    hlog₂.of_subset (notReturned_connectChain _ _)
  -- back with the pops, out with the connected blocks, and back again
  have hback := h.around.popTimes hlength h.ordinary hlog₁
  have hnone : txsFrom base.length (popTimes env above.length s).chain = [] := by
    rw [txsFrom, hpopped, List.drop_length]
    rfl
  rw [← hnone] at hback
  have hout : Around env (above.flatMap MainBlock.txs)
      (txsFrom base.length (connectChain env altChain (popTimes env above.length s)).2.chain)
      (connectChain env altChain (popTimes env above.length s)).2.txPool :=
    hback.connectChain (by rw [hpopped]) hlog₂
  have hagain := hout.popTimes (n := (connectChain env altChain (popTimes env above.length
    s)).2.chain.length - base.length) (by
      rw [hchain, List.length_append]
      omega) h.ordinary hlog
  intro tx htx
  exact (hagain.somewhere tx htx).resolve_right (by simp)

/-! ### The failed switch -/

def refusedEntries (env : ChainEnv ρ) (altChain : List AltEntry) (s : ChainState ρ) :
    List AltEntry :=
  match altChain with
  | [] => []
  | front :: _ =>
      (connectChain env altChain (popToParent env front.2.bl.prevId s.chain.length [] s).2).1

def acceptedEntries (env : ChainEnv ρ) (altChain : List AltEntry) (s : ChainState ρ) :
    List AltEntry :=
  altChain.take (altChain.length - (refusedEntries env altChain s).length)

/-- What a failed switch has to leave: the main chain as it was, and the store without the
refused block and those behind it, which are recorded as invalid. -/
structure Restored (env : ChainEnv ρ) (altChain : List AltEntry) (s s' : ChainState ρ) : Prop where
  chain : s'.chain = s.chain
  alternativeChains : s'.alternativeChains = s.alternativeChains.filter fun entry =>
    entry.1 ∉ (refusedEntries env altChain s).map Prod.fst
  invalidBlocks : ∃ refused orphans, refusedEntries env altChain s = refused :: orphans ∧
    env.id refused.2.bl ∈ s'.invalidBlocks.map Prod.fst ∧
    ∀ entry ∈ orphans, entry.1 ∈ s'.invalidBlocks.map Prod.fst

theorem refusedEntries_cons {front : AltEntry} (rest : List AltEntry)
    (hparent : front.2.bl.prevId ∈ blockIds env s.chain) :
    refusedEntries env (front :: rest) s = (connectChain env (front :: rest) (popTimes env
      (chainAbove env front.2.bl.prevId s.chain).length s)).1 := by
  rw [refusedEntries, popToParent_eq hparent le_rfl]

theorem acceptedEntries_append {front : AltEntry} (rest : List AltEntry)
    (hparent : front.2.bl.prevId ∈ blockIds env s.chain) :
    front :: rest = acceptedEntries env (front :: rest) s ++ (connectChain env (front :: rest)
      (popTimes env (chainAbove env front.2.bl.prevId s.chain).length s)).1 := by
  rw [acceptedEntries, refusedEntries_cons rest hparent]
  obtain ⟨accepted, hsplit, -⟩ := connectChain_fork env (front :: rest)
    (popTimes env (chainAbove env front.2.bl.prevId s.chain).length s)
  generalize (connectChain env (front :: rest) (popTimes env
    (chainAbove env front.2.bl.prevId s.chain).length s)).1 = left at hsplit ⊢
  rw [hsplit, List.length_append, Nat.add_sub_cancel, List.take_left]

/-- A failed switch restores the main chain and the store exactly when no popped block with
transactions stands at a height where a hash is expected, and the first popped block keeps
its coins with the median that the pops set. They compute it with the fork object of the
accepted blocks; when the forks in question give the same median, this is the right one. The
old chain keeps the rules, and none of its popped transactions is reported as not returned. -/
theorem failedSwitch_restores_iff {pushBack : Block → ChainState ρ → ChainState ρ}
    {front : AltEntry} {rest : List AltEntry} {discard : Bool}
    (hparent : front.2.bl.prevId ∈ blockIds env s.chain)
    (hmain : Restorable env s (chainTo env front.2.bl.prevId s.chain)
      (chainAbove env front.2.bl.prevId s.chain))
    (hfailed : (switchToAlternativeBlockchain env pushBack (front :: rest) discard s).1 = false)
    (hreturned : Unreported env ((chainAbove env front.2.bl.prevId s.chain).flatMap MainBlock.txs)
      (switchToAlternativeBlockchain env pushBack (front :: rest) discard s).2) :
    (Restored env (front :: rest) s
        (switchToAlternativeBlockchain env pushBack (front :: rest) discard s).2 ↔
      (∀ n e, (chainAbove env front.2.bl.prevId s.chain)[n]? = some e → e.txs ≠ [] →
        ¬Covered s ((chainTo env front.2.bl.prevId s.chain).length + n)) ∧
      ∀ e, (chainAbove env front.2.bl.prevId s.chain).head? = some e →
        MinerFits env (env.blockCumulWeightMedian (chainTo env front.2.bl.prevId s.chain)
          (switchVersion env s (chainTo env front.2.bl.prevId s.chain)
            (acceptedEntries env (front :: rest) s))) s
          (chainTo env front.2.bl.prevId s.chain) e) ∧
    (SteadyMedian env s (chainTo env front.2.bl.prevId s.chain)
        (s.chain.length + (rest.length + 1)) →
      ∀ e, (chainAbove env front.2.bl.prevId s.chain).head? = some e →
        MinerFits env (env.blockCumulWeightMedian (chainTo env front.2.bl.prevId s.chain)
          (switchVersion env s (chainTo env front.2.bl.prevId s.chain)
            (acceptedEntries env (front :: rest) s))) s
          (chainTo env front.2.bl.prevId s.chain) e) := by
  have hentries := refusedEntries_cons rest hparent
  have hsplit := acceptedEntries_append rest hparent
  obtain ⟨refused, orphans, hrefused, hsame, hstore, hin, hin'⟩ :=
    switch_failed_spec hparent hfailed
  rw [hrefused] at hentries
  rw [← hentries] at hstore
  have hrestored : (switchToAlternativeBlockchain env pushBack (front :: rest) discard s).2.chain =
      s.chain → Restored env (front :: rest) s
        (switchToAlternativeBlockchain env pushBack (front :: rest) discard s).2 :=
    fun hchain => ⟨hchain, hstore, refused, orphans, hentries, hin, hin'⟩
  have hbase := chainTo_append_above env front.2.bl.prevId s.chain
  have hpos := List.length_pos_of_ne_nil (chainTo_ne_nil hparent)
  generalize hto : chainTo env front.2.bl.prevId s.chain = base at *
  generalize habove : chainAbove env front.2.bl.prevId s.chain = above at *
  generalize acceptedEntries env (front :: rest) s = accepted at *
  have hpopped := hmain.popTimes_chain
  have hlonger : base.length ≤ (connectChain env (front :: rest)
      (popTimes env above.length s)).2.chain.length := by
    obtain ⟨alts, hconnected⟩ := connectChain_spec env (front :: rest) (popTimes env above.length s)
    rw [hconnected.chain, hpopped, List.length_append]
    omega
  have hlength := congrArg List.length hbase
  rw [List.length_append] at hlength
  constructor
  · -- the chain and the log after the rollback are those after the loop
    obtain ⟨-, hf, versions, hback⟩ := rollbackBlockchainSwitching_eq env
      (above.map MainBlock.block) hpos hlonger
    rw [hback] at hsame
    have hchain : (switchToAlternativeBlockchain env pushBack (front :: rest) discard s).2.chain =
        (addAgain env (above.map MainBlock.block)
          (rolledBack env (front :: rest) above.length base.length s)).2.chain := hsame.chain
    have hlog : Unreported env (above.flatMap MainBlock.txs)
        (rolledBack env (front :: rest) above.length base.length s) := by
      refine hreturned.of_subset ?_
      rw [hsame.notReturned]
      exact notReturned_addAgain _ _
    cases above with
    | nil =>
        -- nothing was popped
        refine iff_of_true (hrestored ?_) ⟨fun n e he => absurd he (by simp),
          fun e he => absurd he (by simp)⟩
        rw [hchain, ← hbase, List.append_nil]
        exact hmain.rolledBack_chain (front :: rest)
    | cons first above =>
        have hagain := addAgain_spec hmain.valid (hmain.alike hsplit (by simp)) hmain.nodup
          (hmain.held hlog)
        rw [← hagain, ← hchain, hbase]
        exact ⟨fun h => h.chain, hrestored⟩
  · intro hsteady e he
    obtain ⟨hframe, hversion⟩ := hmain.connected_fork hsplit
      (show _ ≤ s.chain.length + (rest.length + 1) by rw [List.length_cons]; omega)
    rw [← hversion, hmain.median hsteady (Nat.le_add_right _ _) hframe]
    have hvalid := hmain.valid 0 e (by rw [← List.head?_eq_getElem?, he])
    rw [List.take_zero, List.append_nil] at hvalid
    exact hvalid.minerFits

/-! ### The fork object of a node -/

omit [DecidableEq ρ] in
theorem settled_storeBlock (h : Forks.Settled env.fork s.hardfork (forkDb s)) {e : MainBlock}
    (hcheck : check s.hardfork e.block.toBlockHeader = true) :
    Forks.Settled env.fork (storeBlock env s e).hardfork (forkDb (storeBlock env s e)) := by
  have hextend := (h.extend e.block.toBlockHeader).1
  obtain ⟨hfork, hdb⟩ := Prod.ext_iff.mp (storeBlock_extend env s hcheck)
  simp only at hfork hdb
  rw [hfork, hdb]
  exact hextend

/-- A call keeps the fork object where the chain leads. -/
theorem settled_handleBlock (h : Forks.Settled env.fork s.hardfork (forkDb s)) (b : Block) :
    Forks.Settled env.fork (handleBlockToMainChain env b s).2.hardfork
      (forkDb (handleBlockToMainChain env b s).2) := by
  rcases handleBlockToMainChain_cases env b s with
    ⟨p, l, i, j, hrefused, -⟩ | ⟨fast, acc, p, e, hheader, -, hcomplete, hadded⟩
  · rw [hrefused]
    exact h
  · rw [hadded]
    have hcheck := ((checkHeader_eq_some env).mp hheader).2.1
    rw [← (completeBlock_eq env hcomplete).1] at hcheck
    have htaken : Forks.Settled env.fork ({ s with txPool := p, blocksTxsCheck := [] } :
        ChainState ρ).hardfork (forkDb { s with txPool := p, blocksTxsCheck := [] }) := h
    exact settled_storeBlock htaken hcheck

/-! ### A block with a payment -/

def altSecond : HashedBlock where
  block := plainBlock 1 2 600 altFirst.id
  miner := hashOfNat 0x6b57c3207986f38d1741e991af07c6e36c7e2ea1183b811dd51957567e7f54a5
  id := hashOfNat 0x73d3853be155f597d0cfe5755c9ba97aee695e68b6f472fd340449e677f56196
  blob := hashOfNat 0x400a4f5c6ed7ecab6945cd14864cce9a7ab58a75ababc96d2d30d095948b9e9e

def paymentId : Hash :=
  hashOfNat 0xb3f49c0e237f85238915245c40286b531c3d35c0571d632d4cc9aa602165c794

def payingBlock : Block := { mainFirst.block with txHashes := ⟨[paymentId], by simp⟩ }

def payingRoot : Hash :=
  hashOfNat 0x61878327d21b25ad3c43b3447cc5c3d5ceb4767a5a5e7a47c5812fc264bb6cd4

def payingId : Hash :=
  hashOfNat 0x0e6257b149484cc451882c7c4a07ede8ed128bcd618bbd0a43e84447187dad0d

/-- The Keccak hashes of the messages of these blocks, and of the others. -/
def payingHash (m : List UInt8) : Hash :=
  if m = txToBlob currentConfig (paymentTx 0x51) then paymentId
  else if m = mainFirst.miner.val ++ paymentId.val then payingRoot
  else if m = stringMessage ((saveBlockHeader payingBlock.toBlockHeader).bytes ++
      (payingRoot.val ++ writeVarint 2)) then payingId
  else if m = blockToBlob currentConfig payingBlock then
    hashOfNat 0xf3d0f1a81f5b4236c7d9ebceeaa0bf4c57900d2a1fd1a0d9a4ecd0fdf104617d
  else (hashedOps [genesisBlock, altFirst, altSecond]).cnFastHash m

def payingEnv : ChainEnv (ℕ × ℕ) :=
  { plainEnv [] [] with ops := ⟨payingHash, fun _ => none, fun _ => default⟩ }

/-- The node with the first block, the payment in its pool, and hashes that it expects. -/
def beforePaying (blocksHashCheck : List Hash) : ChainState (ℕ × ℕ) :=
  { plainState forkAtTen [plainMain genesisBlock 1] with
    txPool := (addPayment 0x51).apply fractionRate payingEnv.ops currentConfig paymentConf
      paymentView (.empty (ℕ × ℕ) 648000000)
    blocksHashCheck := blocksHashCheck
    blocksTxsCheck := [paymentId] }

def payingMain : MainBlock := ⟨payingBlock, [paymentTx 0x51], 146, 146, 2, 0⟩

def altSecondEntry : AltEntry := (altSecond.id, ⟨altSecond.block, 2, 3⟩)

def afterPaying (blocksHashCheck : List Hash) : ChainState (ℕ × ℕ) :=
  { (handleBlockToMainChain payingEnv payingBlock (beforePaying blocksHashCheck)).2 with
    alternativeChains := [altFirstEntry, altSecondEntry] }

def switchAfterPaying (blocksHashCheck : List Hash) : Bool × ChainState (ℕ × ℕ) :=
  switchToAlternativeBlockchain payingEnv (fun _ s => s) [altFirstEntry, altSecondEntry] false
    (afterPaying blocksHashCheck)

/-- The block with the payment takes the fast path, and was added on it. The first
alternative block is not the expected one. The payment goes back to the pool, and the block
does not come back to the chain. -/
theorem payingBlock_lost :
    (handleBlockToMainChain payingEnv payingBlock
        (beforePaying [genesisBlock.id, payingId])).1 = true ∧
      (afterPaying [genesisBlock.id, payingId]).chain = [plainMain genesisBlock 1, payingMain] ∧
      (switchAfterPaying [genesisBlock.id, payingId]).1 = false ∧
      (switchAfterPaying [genesisBlock.id, payingId]).2.notReturned = [] ∧
      (switchAfterPaying [genesisBlock.id, payingId]).2.chain = [plainMain genesisBlock 1] ∧
      ¬Restored payingEnv [altFirstEntry, altSecondEntry] (afterPaying [genesisBlock.id, payingId])
        (switchAfterPaying [genesisBlock.id, payingId]).2 := by
  have hafter : (afterPaying [genesisBlock.id, payingId]).chain =
      [plainMain genesisBlock 1, payingMain] := by decide +kernel
  have hlost : (switchAfterPaying [genesisBlock.id, payingId]).2.chain =
      [plainMain genesisBlock 1] := by decide +kernel
  refine ⟨by decide +kernel, hafter, by decide +kernel, by decide +kernel, hlost, fun h => ?_⟩
  have hchain := congrArg List.length h.chain
  rw [hafter, hlost] at hchain
  exact absurd hchain (by decide)

/-- The same comes of three calls of `add_new_block`. -/
example :
    let paid := (addNewBlock payingEnv 1 payingBlock (beforePaying [genesisBlock.id, payingId])).2
    let stored := addNewBlock payingEnv 1 altFirst.block paid
    let switched := addNewBlock payingEnv 1 altSecond.block stored.2
    stored.1 = .alternative .stored ∧ switched.1 = .alternative (.switched false false) ∧
      switched.2.chain = [plainMain genesisBlock 1] := by
  decide +kernel

def looseHashes : List Hash := [genesisBlock.id, nullHash, payingId]

theorem settled_beforePaying : Forks.Settled payingEnv.fork (beforePaying looseHashes).hardfork
    (forkDb (beforePaying looseHashes)) := by
  refine ⟨table_forkAtTen.1, ?_, ?_, rfl⟩
  · intro height b hb
    cases height with
    | zero =>
        obtain rfl : genesisBlock.block.toBlockHeader = b := Option.some.inj hb
        decide
    | succ height => exact absurd hb (by simp [forkDb, beforePaying, plainState])
  · intro n hn
    have hzero : n = 0 := Nat.lt_one_iff.mp hn
    subst hzero
    decide

theorem settled_afterPaying : Forks.Settled payingEnv.fork (afterPaying looseHashes).hardfork
    (forkDb (afterPaying looseHashes)) := by
  have hhandled := settled_handleBlock (s := beforePaying looseHashes) settled_beforePaying
    payingBlock
  rw [afterPaying]
  generalize handleBlockToMainChain payingEnv payingBlock (beforePaying looseHashes) = handled
    at hhandled
  exact hhandled

theorem steadyMedian_payingEnv (s : ChainState (ℕ × ℕ)) (base : List MainBlock) (limit : ℕ) :
    SteadyMedian payingEnv s base limit := fun _ _ _ _ => rfl

theorem valid_payingMain : Valid payingEnv (afterPaying looseHashes)
    [plainMain genesisBlock 1] payingMain where
  hashes := by decide
  new := by
    -- the hashes are a finite type: deciding over all of them would not end
    have hall : (payingMain.block.txHashes.toList.all fun txId =>
        !txExists payingEnv [plainMain genesisBlock 1] txId) = true := by decide
    intro txId htx
    exact Bool.not_eq_true' _ |>.mp (List.all_eq_true.mp hall txId htx)
  parsed := by
    intro tx htx
    rw [List.mem_singleton.mp htx]
    exact ⟨txToBlob currentConfig (paymentTx 0x51), by decide +kernel⟩
  ordinary := by decide
  accepted := ⟨false, ⟨[paymentTx 0x51], 1, 146, 1, 0⟩, by decide +kernel, by decide +kernel,
    by decide +kernel⟩

theorem restorable_afterPaying : Restorable payingEnv (afterPaying looseHashes)
    [plainMain genesisBlock 1] [payingMain] where
  chain := by decide +kernel
  nonempty := by simp
  settled := settled_afterPaying
  originalFirst := by
    have hheights : (afterPaying looseHashes).hardfork.heights = forkAtTen := by decide +kernel
    rw [OriginalFirst, hheights]
    decide
  valid n e he := by
    cases n with
    | zero =>
        obtain rfl := Option.some.inj he
        exact valid_payingMain
    | succ n => exact absurd he (by simp)
  nodup := by decide
  named := by
    have hrows : (afterPaying looseHashes).txPool.txpool.rows = [] := by decide +kernel
    rw [Named, hrows]
    simp
  absent := by
    have hrows : (afterPaying looseHashes).txPool.txpool.rows = [] := by decide +kernel
    rw [hrows]
    simp

/-- Where the second alternative block is the refused one and the block with the payment is
checked in full, it comes back. -/
theorem failedSwitch_restores_iff_looseHashes :
    Restored payingEnv [altFirstEntry, altSecondEntry] (afterPaying looseHashes)
      (switchAfterPaying looseHashes).2 := by
  have hto : chainTo payingEnv altFirstEntry.2.bl.prevId (afterPaying looseHashes).chain =
      [plainMain genesisBlock 1] := by decide +kernel
  have habove : chainAbove payingEnv altFirstEntry.2.bl.prevId (afterPaying looseHashes).chain =
      [payingMain] := by decide +kernel
  have hnone : (switchAfterPaying looseHashes).2.notReturned = [] := by decide +kernel
  have hfailed : (switchAfterPaying looseHashes).1 = false := by decide +kernel
  rw [switchAfterPaying] at hnone hfailed ⊢
  have hmain : Restorable payingEnv (afterPaying looseHashes)
      (chainTo payingEnv altFirstEntry.2.bl.prevId (afterPaying looseHashes).chain)
      (chainAbove payingEnv altFirstEntry.2.bl.prevId (afterPaying looseHashes).chain) := by
    rw [hto, habove]
    exact restorable_afterPaying
  obtain ⟨hiff, hsteady⟩ := failedSwitch_restores_iff (by decide +kernel) hmain hfailed (by
    intro tx _ hmem
    rw [hnone] at hmem
    exact absurd hmem (by simp))
  refine hiff.mpr ⟨?_, hsteady (steadyMedian_payingEnv _ _ _)⟩
  · rw [hto, habove]
    intro n e he _ hcovered
    cases n with
    | zero =>
        obtain ⟨expectedHash, hget, hne⟩ := hcovered
        have hnull : (afterPaying looseHashes).blocksHashCheck[1]? = some nullHash := by
          decide +kernel
        exact hne (Option.some.inj (hget.symm.trans hnull))
    | succ n => exact absurd he (by simp)

end XrCoin.Blockchain

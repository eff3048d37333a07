import XrCoin.Blockchain.MainChain

/-!
Alternative chains, and the switch of the main chain to one of them:
`handle_alternative_block`, `switch_to_alternative_blockchain`,
`rollback_blockchain_switching` and `add_new_block`.

A switch gives the blocks of the old chain to `handle_alternative_block` again. How deep
such calls may stand in each other is a parameter.
-/

namespace XrCoin.Blockchain

open Archive Cryptonote Forks TxPool

/-- An entry of `m_alternative_chains`, with its key. -/
abbrev AltEntry : Type := Hash × BlockExtendedInfo

variable {ρ : Type} [DecidableEq ρ] (env : ChainEnv ρ)

/-! ### Rolling back -/

/-- `reorganize_from_chain_height`, on the database of the chain. The version that it
reads is there for every block. -/
def reorganizeHardfork (height : ℕ) (s : ChainState ρ) : ChainState ρ :=
  match reorganizeFromChainHeight env.fork height s.hardfork (forkDb s) with
  | none => s
  | some (_, hf, db) => { s with hardfork := hf, hfVersions := db.hfVersions }

/-- The loop that pops down to a height, for at most as many blocks as given. It tells
whether no pop threw. -/
def popToHeight (height : ℕ) : ℕ → ChainState ρ → Bool × ChainState ρ
  | 0, s => (true, s)
  | n + 1, s =>
      if s.chain.length = height then (true, s)
      else
        match popBlockFromBlockchain env s with
        | (none, s) => (false, s)
        | (some _, s) => popToHeight height n s

def addAgain : List Block → ChainState ρ → Bool × ChainState ρ
  | [], s => (true, s)
  | b :: bs, s =>
      match handleBlockToMainChain env b s with
      | (true, s) => addAgain bs s
      | (false, s) => (false, s)

/-- `rollback_blockchain_switching`. Without an answer, a pop has thrown. -/
def rollbackBlockchainSwitching (originalChain : List Block) (rollbackHeight : ℕ)
    (s : ChainState ρ) : Option Bool × ChainState ρ :=
  if s.chain.length < rollbackHeight then (some true, s)
  else
    match popToHeight env rollbackHeight s.chain.length s with
    | (false, s) => (none, s)
    | (true, popped) =>
        match addAgain env originalChain (reorganizeHardfork env rollbackHeight popped) with
        | (true, s) => (some true, reorganizeHardfork env rollbackHeight s)
        | (false, s) => (some false, s)

/-! ### Switching -/

/-- The loop that pops down to the parent of the alternative chain, for at most as many
blocks as given. The popped blocks go in front of those popped before. The parent stays
on the chain, so no pop throws. -/
def popToParent (parent : Hash) : ℕ → List Block → ChainState ρ → List Block × ChainState ρ
  | 0, disconnectedChain, s => (disconnectedChain, s)
  | n + 1, disconnectedChain, s =>
      if getTailId env s.chain = parent then (disconnectedChain, s)
      else
        match popBlockFromBlockchain env s with
        | (none, s) => (disconnectedChain, s)
        | (some b, s) => popToParent parent n (b :: disconnectedChain) s

/-- The loop that connects the alternative chain. It leaves the entries from the refused
one on. -/
def connectChain : List AltEntry → ChainState ρ → List AltEntry × ChainState ρ
  | [], s => ([], s)
  | entry :: rest, s =>
      match handleBlockToMainChain env entry.2.bl s with
      | (true, s) => connectChain rest s
      | (false, s) => (entry :: rest, s)

def eraseEntry (key : Hash) (s : ChainState ρ) : ChainState ρ :=
  { s with alternativeChains := s.alternativeChains.filter fun entry => entry.1 ≠ key }

def orphanEntries : List AltEntry → ChainState ρ → ChainState ρ
  | [], s => s
  | entry :: rest, s =>
      orphanEntries rest (eraseEntry entry.1 (addBlockAsInvalid entry.2 entry.1 s))

/-- `switch_to_alternative_blockchain`. The old chain is handed to `pushBack` when it is
not discarded. -/
def switchToAlternativeBlockchain (pushBack : Block → ChainState ρ → ChainState ρ)
    (altChain : List AltEntry) (discardDisconnectedChain : Bool) (s : ChainState ρ) :
    Bool × ChainState ρ :=
  match altChain with
  | [] => (false, s)
  | front :: _ =>
      if front.2.bl.prevId ∉ blockIds env s.chain then (false, s)
      else
        let popped := popToParent env front.2.bl.prevId s.chain.length [] s
        let splitHeight := popped.2.chain.length
        let connected := connectChain env altChain popped.2
        match connected.1 with
        | refused :: rest =>
            let rolledBack := (rollbackBlockchainSwitching env popped.1 splitHeight connected.2).2
            (false, orphanEntries rest (eraseEntry refused.1
              (addBlockAsInvalid refused.2 (env.id refused.2.bl) rolledBack)))
        | [] =>
            let pushed :=
              if discardDisconnectedChain then connected.2
              else popped.1.foldl (fun s b => pushBack b s) connected.2
            let erased := altChain.foldl (fun s entry => eraseEntry entry.1 s) pushed
            (true, reorganizeHardfork env splitHeight erased)

/-! ### Alternative blocks -/

/-- The alternative chain that ends with the block of the id, from the main chain on, for
at most as many entries as given. -/
def altChainTo (store : List AltEntry) : ℕ → Hash → List AltEntry
  | 0, _ => []
  | n + 1, id =>
      match store.find? fun entry => entry.1 = id with
      | none => []
      | some entry => altChainTo store n entry.2.bl.prevId ++ [entry]

/-- `is_alternative_block_allowed`: the last checkpoint up to the height of the chain, and
so each one before it, is below the block. -/
def isAlternativeBlockAllowed (blockchainHeight blockHeight : ℕ) : Bool :=
  blockHeight ≠ 0 ∧ ∀ point ∈ env.points, point.1 ≤ blockchainHeight → point.1 < blockHeight

def mainHeight (chain : List MainBlock) (id : Hash) : ℕ := (blockIds env chain).idxOf id

def connectsToMain (chain : List MainBlock) (altChain : List AltEntry) : Bool :=
  match altChain with
  | [] => true
  | front :: _ =>
      front.2.height < chain.length ∧
        (blockIds env chain)[front.2.height - 1]? = some front.2.bl.prevId

/-- The block that an alternative block is connected to the main chain with. -/
def connectingId (altChain : List AltEntry) (b : Block) : Hash :=
  match altChain with
  | [] => b.prevId
  | front :: _ => front.2.bl.prevId

def alternativeHeight (chain : List MainBlock) (altChain : List AltEntry) (b : Block) : ℕ :=
  match altChain.getLast? with
  | none => mainHeight env chain b.prevId + 1
  | some prev => prev.2.height + 1

def parentCumulativeDifficulty (chain : List MainBlock) (altChain : List AltEntry) (b : Block) :
    Difficulty :=
  match altChain.getLast? with
  | none => ((chain[mainHeight env chain b.prevId]?).map MainBlock.cumulativeDifficulty).getD 0
  | some prev => prev.2.cumulativeDifficulty

def alternativeDiffic (s : ChainState ρ) (altChain : List AltEntry) (height : ℕ) : Difficulty :=
  getNextDifficultyForAlternativeChain env.difficulty env.fork env.fixedDifficulty s.hardfork
    (infos s.chain) (altChain.map Prod.snd) height

/-- The checks of `handle_alternative_block` on a block whose parent is known, and the
entry that is made for it. -/
def alternativeInfo (s : ChainState ρ) (altChain : List AltEntry) (b : Block) :
    Option BlockExtendedInfo :=
  let height := alternativeHeight env s.chain altChain b
  let diffic := alternativeDiffic env s altChain height
  if connectsToMain env s.chain altChain = false then none
  else if checkAlternativeTimestamp env.timestampCheckWindow (infos s.chain)
      (altChain.map Prod.snd) (mainHeight env s.chain (connectingId altChain b))
      b.toBlockHeader = false then none
  else if checkpointAccepts env height (env.id b) = false then none
  else if diffic = 0 then none
  else if (getBlockLonghash env.ops env.cfg env.pow env.difficulty.hardfork1Height b height).any
      (fun proofOfWork => checkHash proofOfWork diffic) = false then none
  else if prevalidateMinerTransaction env b height = false then none
  else some ⟨b, height, parentCumulativeDifficulty env s.chain altChain b + diffic⟩

/-- What becomes of an alternative block. A switch tells whether a checkpoint asked for it
and whether it was made. -/
inductive AltResult
  | refused
  | orphaned
  | stored
  | switched (checkpoint : Bool) (done : Bool)
  deriving DecidableEq

def alternativeStep (pushBack : Block → ChainState ρ → ChainState ρ) (b : Block)
    (s : ChainState ρ) : AltResult × ChainState ρ :=
  let id := env.id b
  let blockHeight := (minerHeight b).toNat
  if isAlternativeBlockAllowed env s.chain.length blockHeight = false then (.refused, s)
  else if checkForHeight env.fork s.hardfork b.toBlockHeader blockHeight = false then (.refused, s)
  else
    let altChain := altChainTo s.alternativeChains s.alternativeChains.length b.prevId
    if altChain = [] ∧ b.prevId ∉ blockIds env s.chain then (.orphaned, s)
    else
      match alternativeInfo env s altChain b with
      | none => (.refused, s)
      | some bei =>
          if (s.alternativeChains.find? fun entry => entry.1 = id).isSome then (.refused, s)
          else
            let inserted := { s with alternativeChains := s.alternativeChains ++ [(id, bei)] }
            if (env.points.lookup bei.height).isSome then
              let r := switchToAlternativeBlockchain env pushBack (altChain ++ [(id, bei)]) true
                inserted
              (.switched true r.1, r.2)
            else if topCumulativeDifficulty (infos s.chain) < bei.cumulativeDifficulty then
              let r := switchToAlternativeBlockchain env pushBack (altChain ++ [(id, bei)]) false
                inserted
              (.switched false r.1, r.2)
            else (.stored, inserted)

/-- `handle_alternative_block`, with calls inside it up to the given depth. -/
def handleAlternativeBlock : ℕ → Block → ChainState ρ → AltResult × ChainState ρ
  | 0 => fun _ s => (.refused, s)
  | depth + 1 => alternativeStep env fun b s => (handleAlternativeBlock depth b s).2

def haveBlock (s : ChainState ρ) (id : Hash) : Bool :=
  id ∈ blockIds env s.chain ∨ id ∈ s.alternativeChains.map Prod.fst ∨
    id ∈ s.invalidBlocks.map Prod.fst

inductive AddResult
  | alreadyExists
  | alternative (result : AltResult)
  | main (added : Bool)
  deriving DecidableEq

def addNewBlock (depth : ℕ) (b : Block) (s : ChainState ρ) : AddResult × ChainState ρ :=
  if haveBlock env s (env.id b) then (.alreadyExists, { s with blocksTxsCheck := [] })
  else if b.prevId ≠ getTailId env s.chain then
    let r := handleAlternativeBlock env depth b s
    (.alternative r.1, { r.2 with blocksTxsCheck := [] })
  else
    let r := handleBlockToMainChain env b s
    (.main r.1, r.2)

/-! ### The loops over blocks -/

theorem connectChain_cons (entry : AltEntry) (rest : List AltEntry) (s : ChainState ρ) :
    connectChain env (entry :: rest) s =
      if (handleBlockToMainChain env entry.2.bl s).1 then
        connectChain env rest (handleBlockToMainChain env entry.2.bl s).2
      else (entry :: rest, (handleBlockToMainChain env entry.2.bl s).2) := by
  rw [connectChain]
  obtain ⟨added, s'⟩ := handleBlockToMainChain env entry.2.bl s
  cases added <;> rfl

theorem addAgain_cons (b : Block) (bs : List Block) (s : ChainState ρ) :
    addAgain env (b :: bs) s =
      if (handleBlockToMainChain env b s).1 then
        addAgain env bs (handleBlockToMainChain env b s).2
      else (false, (handleBlockToMainChain env b s).2) := by
  rw [addAgain]
  obtain ⟨added, s'⟩ := handleBlockToMainChain env b s
  cases added <;> rfl

theorem addAgain_chain (env : ChainEnv ρ) (bs : List Block) (s : ChainState ρ) :
    ∃ again, (addAgain env bs s).2.chain = s.chain ++ again ∧ again.map MainBlock.block <+: bs := by
  induction bs generalizing s with
  | nil => exact ⟨[], (List.append_nil _).symm, List.prefix_rfl⟩
  | cons b bs ih =>
      rw [addAgain_cons]
      rcases handleBlockToMainChain_cases env b s with
        ⟨p, l, t, i, hrefused, -⟩ | ⟨fast, acc, p, e, -, -, hcomplete, hadded⟩
      · rw [hrefused, if_neg (by simp)]
        exact ⟨[], (List.append_nil _).symm, List.nil_prefix⟩
      · rw [hadded, if_pos rfl]
        obtain ⟨again, hchain, hfront⟩ :=
          ih (storeBlock env { s with txPool := p, blocksTxsCheck := [] } e)
        refine ⟨e :: again, ?_, ?_⟩
        · rw [hchain, storeBlock, List.append_assoc, List.singleton_append]
        · rw [List.map_cons, (completeBlock_eq env hcomplete).1]
          exact List.cons_prefix_cons.mpr ⟨rfl, hfront⟩

/-! ### Popping -/

def popTimes : ℕ → ChainState ρ → ChainState ρ
  | 0, s => s
  | n + 1, s => popTimes n (popBlockFromBlockchain env s).2

/-- The states differ in the chain, the pool, and in what a pop clears or computes. -/
structure SameRest (s s' : ChainState ρ) : Prop where
  hardfork : s'.hardfork = s.hardfork
  hfVersions : s'.hfVersions = s.hfVersions
  alternativeChains : s'.alternativeChains = s.alternativeChains
  invalidBlocks : s'.invalidBlocks = s.invalidBlocks
  blocksHashCheck : s'.blocksHashCheck = s.blocksHashCheck
  futureLimit : s'.futureLimit = s.futureLimit

omit [DecidableEq ρ] in
theorem SameRest.refl (s : ChainState ρ) : SameRest s s := ⟨rfl, rfl, rfl, rfl, rfl, rfl⟩

omit [DecidableEq ρ] in
theorem SameRest.trans {s s' s'' : ChainState ρ} (h : SameRest s s') (h' : SameRest s' s'') :
    SameRest s s'' where
  hardfork := h'.hardfork.trans h.hardfork
  hfVersions := h'.hfVersions.trans h.hfVersions
  alternativeChains := h'.alternativeChains.trans h.alternativeChains
  invalidBlocks := h'.invalidBlocks.trans h.invalidBlocks
  blocksHashCheck := h'.blocksHashCheck.trans h.blocksHashCheck
  futureLimit := h'.futureLimit.trans h.futureLimit

variable {env}

theorem sameRest_popBlock (env : ChainEnv ρ) (s : ChainState ρ) :
    SameRest s (popBlockFromBlockchain env s).2 ∧
      (popBlockFromBlockchain env s).2.chain = s.chain.dropLast := by
  rcases List.eq_nil_or_concat s.chain with hnil | ⟨chain, top, hconcat⟩
  · rw [popBlockFromBlockchain, hnil, List.getLast?_nil]
    exact ⟨SameRest.refl s, hnil⟩
  · rw [List.concat_eq_append] at hconcat
    obtain ⟨p, l, m, hpop, -⟩ := popBlockFromBlockchain_eq env hconcat
    rw [hpop, hconcat, List.dropLast_concat]
    exact ⟨⟨rfl, rfl, rfl, rfl, rfl, rfl⟩, rfl⟩

theorem popBlock_eq_some (env : ChainEnv ρ) {s : ChainState ρ} {chain : List MainBlock}
    {top : MainBlock} (hchain : s.chain = chain ++ [top]) (hne : chain ≠ []) :
    popBlockFromBlockchain env s = (some top.block, (popBlockFromBlockchain env s).2) := by
  obtain ⟨p, l, m, hpop, -⟩ := popBlockFromBlockchain_eq env hchain
  rw [hpop, if_neg (mt List.isEmpty_iff.mp hne)]

theorem popBlock_eq_none (env : ChainEnv ρ) {s : ChainState ρ} (hle : s.chain.length ≤ 1) :
    popBlockFromBlockchain env s = (none, (popBlockFromBlockchain env s).2) := by
  rcases List.eq_nil_or_concat s.chain with hnil | ⟨chain, top, hconcat⟩
  · rw [popBlockFromBlockchain, hnil, List.getLast?_nil]
  · rw [List.concat_eq_append] at hconcat
    rw [hconcat, List.length_append, List.length_singleton] at hle
    obtain ⟨p, l, m, hpop, -⟩ := popBlockFromBlockchain_eq env hconcat
    have hnil : chain.isEmpty = true := List.isEmpty_iff.mpr (List.length_eq_zero_iff.mp (by omega))
    rw [hpop, if_pos hnil]

theorem popTimes_spec (env : ChainEnv ρ) (n : ℕ) (s : ChainState ρ) :
    SameRest s (popTimes env n s) ∧
      (popTimes env n s).chain = s.chain.take (s.chain.length - n) := by
  induction n generalizing s with
  | zero => exact ⟨SameRest.refl s, by rw [popTimes, Nat.sub_zero, List.take_length]⟩
  | succ n ih =>
      obtain ⟨hrest, hchain⟩ := sameRest_popBlock env s
      obtain ⟨hrest', hchain'⟩ := ih (popBlockFromBlockchain env s).2
      refine ⟨hrest.trans hrest', ?_⟩
      rw [popTimes, hchain', hchain, List.length_dropLast, List.dropLast_eq_take, List.take_take]
      congr 1
      omega

/-- The loop comes down to a height where blocks are left. -/
theorem popToHeight_eq {height n m : ℕ} {s : ChainState ρ} (hheight : 0 < height)
    (hlength : s.chain.length = height + n) (hle : n ≤ m) :
    popToHeight env height m s = (true, popTimes env n s) := by
  induction n generalizing m s with
  | zero =>
      cases m with
      | zero => rfl
      | succ m => rw [popToHeight, if_pos (by omega), popTimes]
  | succ n ih =>
      obtain ⟨m, rfl⟩ : ∃ m', m = m' + 1 := ⟨m - 1, by omega⟩
      obtain ⟨chain, top, hchain⟩ : ∃ chain top, s.chain = chain ++ [top] :=
        ⟨_, _, (List.dropLast_concat_getLast (List.ne_nil_of_length_pos (by omega))).symm⟩
      have hrest := (sameRest_popBlock env s).2
      rw [hchain, List.dropLast_concat] at hrest
      rw [hchain, List.length_append, List.length_singleton] at hlength
      have hpop := popBlock_eq_some env hchain (List.ne_nil_of_length_pos (by omega))
      rw [popToHeight, if_neg (by rw [hchain, List.length_append, List.length_singleton]; omega),
        hpop, popTimes]
      exact ih (by rw [hrest]; omega) (by omega)

/-- On the way down to no block at all, the pop of the first one throws. -/
theorem popToHeight_zero {n m : ℕ} {s : ChainState ρ} (hlength : s.chain.length = n + 1)
    (hle : n + 1 ≤ m) : popToHeight env 0 m s = (false, popTimes env (n + 1) s) := by
  induction n generalizing m s with
  | zero =>
      obtain ⟨m, rfl⟩ : ∃ m', m = m' + 1 := ⟨m - 1, by omega⟩
      rw [popToHeight, if_neg (by omega), popBlock_eq_none env (by omega), popTimes, popTimes]
  | succ n ih =>
      obtain ⟨m, rfl⟩ : ∃ m', m = m' + 1 := ⟨m - 1, by omega⟩
      obtain ⟨chain, top, hchain⟩ : ∃ chain top, s.chain = chain ++ [top] :=
        ⟨_, _, (List.dropLast_concat_getLast (List.ne_nil_of_length_pos (by omega))).symm⟩
      have hrest := (sameRest_popBlock env s).2
      rw [hchain, List.dropLast_concat] at hrest
      rw [hchain, List.length_append, List.length_singleton] at hlength
      have hpop := popBlock_eq_some env hchain (List.ne_nil_of_length_pos (by omega))
      rw [popToHeight, if_neg (by rw [hchain, List.length_append, List.length_singleton]; omega),
        hpop, popTimes]
      exact ih (by rw [hrest]; omega) (by omega)

variable (env) in
def chainTo (id : Hash) (chain : List MainBlock) : List MainBlock :=
  chain.rdropWhile fun e => env.id e.block ≠ id

variable (env) in
def chainAbove (id : Hash) (chain : List MainBlock) : List MainBlock :=
  chain.rtakeWhile fun e => env.id e.block ≠ id

omit [DecidableEq ρ] in
theorem getTailId_concat (chain : List MainBlock) (top : MainBlock) :
    getTailId env (chain ++ [top]) = env.id top.block := by
  rw [getTailId, List.getLast?_concat]
  rfl

theorem popToParent_eq {parent : Hash} {n : ℕ} {s : ChainState ρ}
    (hmem : parent ∈ blockIds env s.chain) (hle : s.chain.length ≤ n)
    (disconnectedChain : List Block) :
    popToParent env parent n disconnectedChain s =
      ((chainAbove env parent s.chain).map MainBlock.block ++ disconnectedChain,
        popTimes env (chainAbove env parent s.chain).length s) := by
  -- on the number of blocks; the parent is one of them
  induction n generalizing s disconnectedChain with
  | zero =>
      rw [List.eq_nil_of_length_eq_zero (Nat.le_zero.mp hle)] at hmem
      exact absurd hmem (by simp [blockIds])
  | succ n ih =>
      rcases List.eq_nil_or_concat s.chain with hnil | ⟨chain, top, hconcat⟩
      · rw [hnil] at hmem
        exact absurd hmem (by simp [blockIds])
      · rw [List.concat_eq_append] at hconcat
        rw [popToParent]
        rw [hconcat] at hmem hle
        rw [hconcat, getTailId_concat]
        split
        · rename_i htop
          rw [chainAbove, List.rtakeWhile_concat_neg _ _ _ (by simpa using htop)]
          rfl
        · rename_i htop
          have hmem' : parent ∈ blockIds env chain := by
            rw [blockIds, List.map_append, List.mem_append, List.map_singleton,
              List.mem_singleton] at hmem
            exact hmem.resolve_right fun h => htop h.symm
          have hpop := sameRest_popBlock env s
          have hchain : (popBlockFromBlockchain env s).2.chain = chain := by
            rw [hpop.2, hconcat, List.dropLast_concat]
          have hne : chain ≠ [] := by
            rintro rfl
            exact absurd hmem' (by simp [blockIds])
          rw [popBlock_eq_some env hconcat hne]
          simp only
          rw [ih (by rwa [hchain]) (by
              rw [hchain]
              rw [List.length_append, List.length_singleton] at hle
              omega), hchain, chainAbove, chainAbove,
            List.rtakeWhile_concat_pos _ _ _ (by simpa using htop), List.map_append,
            List.map_singleton, List.append_assoc, List.length_append, List.length_singleton]
          rfl

omit [DecidableEq ρ] in
theorem chainTo_ne_nil {env : ChainEnv ρ} {id : Hash} {chain : List MainBlock}
    (hmem : id ∈ blockIds env chain) : chainTo env id chain ≠ [] := by
  intro hnil
  rw [chainTo, List.rdropWhile_eq_nil_iff] at hnil
  obtain ⟨e, he, hid⟩ := List.mem_map.mp hmem
  have hne := hnil e he
  simp [hid] at hne

omit [DecidableEq ρ] in
theorem chainTo_append_above (env : ChainEnv ρ) (id : Hash) (chain : List MainBlock) :
    chainTo env id chain ++ chainAbove env id chain = chain := by
  rw [chainTo, chainAbove, List.rdropWhile_append_rtakeWhile]

theorem popToParent_spec {parent : Hash} {s : ChainState ρ}
    (hmem : parent ∈ blockIds env s.chain) :
    SameRest s (popToParent env parent s.chain.length [] s).2 ∧
      (popToParent env parent s.chain.length [] s).2.chain = chainTo env parent s.chain := by
  rw [popToParent_eq hmem le_rfl]
  obtain ⟨hrest, hchain⟩ := popTimes_spec env (chainAbove env parent s.chain).length s
  refine ⟨hrest, hchain.trans ?_⟩
  have hsplit := chainTo_append_above env parent s.chain
  have hlength := congrArg List.length hsplit
  rw [List.length_append] at hlength
  rw [show s.chain.length - (chainAbove env parent s.chain).length =
    (chainTo env parent s.chain).length by omega]
  calc s.chain.take (chainTo env parent s.chain).length
      = (chainTo env parent s.chain ++ chainAbove env parent s.chain).take
          (chainTo env parent s.chain).length := by rw [hsplit]
    _ = chainTo env parent s.chain := List.take_left

/-! ### Connecting -/

/-- From the first state to the second, the blocks of the entries in front of `rest` were
added, as `alts`. -/
structure Connected (altChain rest : List AltEntry) (alts : List MainBlock)
    (s s' : ChainState ρ) : Prop where
  chain : s'.chain = s.chain ++ alts
  entries : ∃ done, altChain = done ++ rest ∧
    alts.map MainBlock.block = done.map fun entry => entry.2.bl
  alternativeChains : s'.alternativeChains = s.alternativeChains
  invalidBlocks : s.invalidBlocks <+: s'.invalidBlocks
  blocksHashCheck : s'.blocksHashCheck = s.blocksHashCheck
  blocksTxsCheck : s'.blocksTxsCheck = s.blocksTxsCheck ∨ s'.blocksTxsCheck = []
  blocksLonghashTable : s'.blocksLonghashTable = s.blocksLonghashTable
  scanTable : s'.scanTable = s.scanTable
  futureLimit : s'.futureLimit = s.futureLimit
  median : alts = [] → s'.currentBlockCumulWeightMedian = s.currentBlockCumulWeightMedian

theorem connectChain_spec (env : ChainEnv ρ) (altChain : List AltEntry) (s : ChainState ρ) :
    ∃ alts, Connected altChain (connectChain env altChain s).1 alts s
      (connectChain env altChain s).2 := by
  induction altChain generalizing s with
  | nil =>
      exact ⟨[], by rw [connectChain, List.append_nil], ⟨[], rfl, rfl⟩, rfl, List.prefix_rfl, rfl,
        .inl rfl, rfl, rfl, rfl, fun _ => rfl⟩
  | cons entry rest ih =>
      rw [connectChain_cons]
      rcases handleBlockToMainChain_cases env entry.2.bl s with
        ⟨p, l, t, i, hrefused, hinvalid, htxs, -⟩ | ⟨fast, acc, p, e, -, -, hcomplete, hadded⟩
      · rw [hrefused, if_neg (by simp)]
        exact ⟨[], by rw [List.append_nil], ⟨[], rfl, rfl⟩, rfl, hinvalid, rfl, htxs, rfl, rfl, rfl,
          fun _ => rfl⟩
      · rw [hadded, if_pos rfl]
        obtain ⟨alts, hrest⟩ := ih (storeBlock env { s with txPool := p, blocksTxsCheck := [] } e)
        obtain ⟨done, hdone, hblocks⟩ := hrest.entries
        refine ⟨e :: alts, ?_, ⟨entry :: done, ?_, ?_⟩, hrest.alternativeChains,
          hrest.invalidBlocks, hrest.blocksHashCheck, ?_, hrest.blocksLonghashTable,
          hrest.scanTable, hrest.futureLimit, fun h => absurd h (by simp)⟩
        · rw [hrest.chain, storeBlock, List.append_assoc, List.singleton_append]
        · exact congrArg (entry :: ·) hdone
        · rw [List.map_cons, List.map_cons, hblocks, (completeBlock_eq env hcomplete).1]
        · exact .inr (hrest.blocksTxsCheck.elim id id)

/-! ### A failed switch -/

/-- The states agree in all but the stores of alternative and of invalid blocks. -/
structure SameChain (s s' : ChainState ρ) : Prop where
  chain : s'.chain = s.chain
  hardfork : s'.hardfork = s.hardfork
  txPool : s'.txPool = s.txPool
  notReturned : s'.notReturned = s.notReturned

omit [DecidableEq ρ] in
theorem addBlockAsInvalid_spec (bei : BlockExtendedInfo) (id : Hash) (s : ChainState ρ) :
    SameChain s (addBlockAsInvalid bei id s) ∧
      (addBlockAsInvalid bei id s).alternativeChains = s.alternativeChains ∧
      s.invalidBlocks <+: (addBlockAsInvalid bei id s).invalidBlocks ∧
      id ∈ (addBlockAsInvalid bei id s).invalidBlocks.map Prod.fst := by
  rw [addBlockAsInvalid]
  split
  · rename_i hthere
    refine ⟨⟨rfl, rfl, rfl, rfl⟩, rfl, List.prefix_rfl, ?_⟩
    obtain ⟨bei', hlookup⟩ := Option.isSome_iff_exists.mp hthere
    obtain ⟨front, back, hmem, -⟩ := List.lookup_eq_some_iff.mp hlookup
    rw [hmem, List.map_append, List.map_cons]
    exact List.mem_append_right _ List.mem_cons_self
  · refine ⟨⟨rfl, rfl, rfl, rfl⟩, rfl, List.prefix_append _ _, ?_⟩
    simp

omit [DecidableEq ρ] in
theorem SameChain.trans {s s' s'' : ChainState ρ} (h : SameChain s s') (h' : SameChain s' s'') :
    SameChain s s'' where
  chain := h'.chain.trans h.chain
  hardfork := h'.hardfork.trans h.hardfork
  txPool := h'.txPool.trans h.txPool
  notReturned := h'.notReturned.trans h.notReturned

/-- Erasing an entry and then others. -/
theorem filter_keys_cons (entry : AltEntry) (rest store : List AltEntry) :
    (store.filter fun entry' => entry'.1 ≠ entry.1).filter
        (fun entry' => entry'.1 ∉ rest.map Prod.fst) =
      store.filter fun entry' => entry'.1 ∉ (entry :: rest).map Prod.fst := by
  rw [List.filter_filter]
  apply List.filter_congr
  intro entry' _
  simp only [List.map_cons, List.mem_cons, not_or, Bool.decide_and, ne_eq]
  rw [Bool.and_comm]

omit [DecidableEq ρ] in
theorem orphanEntries_spec (entries : List AltEntry) (s : ChainState ρ) :
    SameChain s (orphanEntries entries s) ∧
      (orphanEntries entries s).alternativeChains =
        s.alternativeChains.filter (fun entry => entry.1 ∉ entries.map Prod.fst) ∧
      s.invalidBlocks <+: (orphanEntries entries s).invalidBlocks ∧
      ∀ entry ∈ entries, entry.1 ∈ (orphanEntries entries s).invalidBlocks.map Prod.fst := by
  induction entries generalizing s with
  | nil =>
      refine ⟨⟨rfl, rfl, rfl, rfl⟩, ?_, List.prefix_rfl, by simp⟩
      simp [orphanEntries]
  | cons entry rest ih =>
      obtain ⟨hsame, hstore, hrecorded, hin⟩ := addBlockAsInvalid_spec entry.2 entry.1 s
      obtain ⟨hsame', hstore', hrecorded', hin'⟩ :=
        ih (eraseEntry entry.1 (addBlockAsInvalid entry.2 entry.1 s))
      have herase : SameChain (addBlockAsInvalid entry.2 entry.1 s)
          (eraseEntry entry.1 (addBlockAsInvalid entry.2 entry.1 s)) := ⟨rfl, rfl, rfl, rfl⟩
      rw [orphanEntries]
      refine ⟨(hsame.trans herase).trans hsame', ?_, hrecorded.trans hrecorded', ?_⟩
      · rw [hstore', eraseEntry]
        simp only [hstore]
        exact filter_keys_cons _ _ _
      · refine List.forall_mem_cons.mpr ⟨?_, hin'⟩
        exact (hrecorded'.map Prod.fst).subset hin

omit [DecidableEq ρ] in
theorem reorganizeHardfork_eq (env : ChainEnv ρ) (height : ℕ) (s : ChainState ρ) :
    ∃ hf versions, reorganizeHardfork env height s =
      { s with hardfork := hf, hfVersions := versions } := by
  rw [reorganizeHardfork]
  split
  · exact ⟨_, _, rfl⟩
  · exact ⟨_, _, rfl⟩

theorem alternativeChains_addAgain (bs : List Block) (s : ChainState ρ) :
    (addAgain env bs s).2.alternativeChains = s.alternativeChains := by
  induction bs generalizing s with
  | nil => rfl
  | cons b bs ih =>
      have hfirst : (handleBlockToMainChain env b s).2.alternativeChains =
          s.alternativeChains := by
        rcases handleBlockToMainChain_cases env b s with
          ⟨p, l, t, i, heq, -⟩ | ⟨fast, acc, p, e, -, -, -, heq⟩
        · rw [heq]
        · rw [heq]
          rfl
      rw [addAgain_cons]
      split
      · rw [ih, hfirst]
      · exact hfirst

theorem rollbackBlockchainSwitching_eq (env : ChainEnv ρ) (original : List Block) {height : ℕ}
    {s : ChainState ρ} (hpos : 0 < height) (h : height ≤ s.chain.length) :
    (∃ added, (rollbackBlockchainSwitching env original height s).1 = some added) ∧
    ∃ hf versions, (rollbackBlockchainSwitching env original height s).2 =
      { (addAgain env original (reorganizeHardfork env height
          (popTimes env (s.chain.length - height) s))).2 with
        hardfork := hf, hfVersions := versions } := by
  rw [rollbackBlockchainSwitching, if_neg (not_lt.mpr h),
    popToHeight_eq (n := s.chain.length - height) hpos (by omega) (Nat.sub_le _ _)]
  simp only
  obtain ⟨⟨done, s'⟩, hrun⟩ : ∃ r, addAgain env original (reorganizeHardfork env height
    (popTimes env (s.chain.length - height) s)) = r := ⟨_, rfl⟩
  rw [hrun]
  cases done with
  | false => exact ⟨⟨false, rfl⟩, _, _, rfl⟩
  | true => exact ⟨⟨true, rfl⟩, reorganizeHardfork_eq env height s'⟩

theorem alternativeChains_rollback (env : ChainEnv ρ) (original : List Block) {height : ℕ}
    {s : ChainState ρ} (hpos : 0 < height) (h : height ≤ s.chain.length) :
    (rollbackBlockchainSwitching env original height s).2.alternativeChains =
      s.alternativeChains := by
  obtain ⟨-, hf, versions, hback⟩ := rollbackBlockchainSwitching_eq env original hpos h
  obtain ⟨hf', versions', hreorganize⟩ := reorganizeHardfork_eq env height
    (popTimes env (s.chain.length - height) s)
  rw [hback]
  simp only
  rw [alternativeChains_addAgain, hreorganize]
  exact (popTimes_spec env _ s).1.alternativeChains

/-- A failed switch, the parent of whose chain is in the main chain: a block was refused,
and the old blocks were added again. -/
theorem switch_eq_false {pushBack : Block → ChainState ρ → ChainState ρ} {front : AltEntry}
    {rest : List AltEntry} {discard : Bool} {s : ChainState ρ}
    (hparent : front.2.bl.prevId ∈ blockIds env s.chain)
    (h : (switchToAlternativeBlockchain env pushBack (front :: rest) discard s).1 = false) :
    ∃ refused orphans,
      (connectChain env (front :: rest) (popTimes env
        (chainAbove env front.2.bl.prevId s.chain).length s)).1 = refused :: orphans ∧
      (switchToAlternativeBlockchain env pushBack (front :: rest) discard s).2 =
        orphanEntries orphans (eraseEntry refused.1 (addBlockAsInvalid refused.2
          (env.id refused.2.bl) (rollbackBlockchainSwitching env
            ((chainAbove env front.2.bl.prevId s.chain).map MainBlock.block)
            (chainTo env front.2.bl.prevId s.chain).length
            (connectChain env (front :: rest) (popTimes env
              (chainAbove env front.2.bl.prevId s.chain).length s)).2).2)) := by
  have hsplit := (popToParent_spec hparent).2
  rw [switchToAlternativeBlockchain, if_neg (not_not.mpr hparent)] at h ⊢
  simp only [hsplit] at h ⊢
  rw [popToParent_eq hparent le_rfl, List.append_nil] at h ⊢
  simp only at h ⊢
  obtain ⟨⟨left, s'⟩, hrun⟩ : ∃ r, connectChain env (front :: rest) (popTimes env
    (chainAbove env front.2.bl.prevId s.chain).length s) = r := ⟨_, rfl⟩
  rw [hrun] at h ⊢
  cases left with
  | nil => exact absurd h (by simp)
  | cons refused orphans => exact ⟨refused, orphans, rfl, rfl⟩

theorem switch_failed_spec {pushBack : Block → ChainState ρ → ChainState ρ} {front : AltEntry}
    {rest : List AltEntry} {discard : Bool} {s : ChainState ρ}
    (hparent : front.2.bl.prevId ∈ blockIds env s.chain)
    (h : (switchToAlternativeBlockchain env pushBack (front :: rest) discard s).1 = false) :
    ∃ refused orphans,
      (connectChain env (front :: rest) (popTimes env
        (chainAbove env front.2.bl.prevId s.chain).length s)).1 = refused :: orphans ∧
      SameChain (rollbackBlockchainSwitching env
          ((chainAbove env front.2.bl.prevId s.chain).map MainBlock.block)
          (chainTo env front.2.bl.prevId s.chain).length
          (connectChain env (front :: rest) (popTimes env
            (chainAbove env front.2.bl.prevId s.chain).length s)).2).2
        (switchToAlternativeBlockchain env pushBack (front :: rest) discard s).2 ∧
      (switchToAlternativeBlockchain env pushBack (front :: rest) discard s).2.alternativeChains =
        s.alternativeChains.filter (fun entry => entry.1 ∉ (refused :: orphans).map Prod.fst) ∧
      env.id refused.2.bl ∈ (switchToAlternativeBlockchain env pushBack (front :: rest) discard
        s).2.invalidBlocks.map Prod.fst ∧
      ∀ entry ∈ orphans, entry.1 ∈ (switchToAlternativeBlockchain env pushBack (front :: rest)
        discard s).2.invalidBlocks.map Prod.fst := by
  obtain ⟨refused, orphans, hrefused, heq⟩ := switch_eq_false hparent h
  refine ⟨refused, orphans, hrefused, ?_⟩
  obtain ⟨alts, hconnected⟩ := connectChain_spec env (front :: rest) (popTimes env
    (chainAbove env front.2.bl.prevId s.chain).length s)
  have hstore := hconnected.alternativeChains.trans
    (popTimes_spec env (chainAbove env front.2.bl.prevId s.chain).length s).1.alternativeChains
  have hlength : (chainTo env front.2.bl.prevId s.chain).length ≤ (connectChain env (front :: rest)
      (popTimes env (chainAbove env front.2.bl.prevId s.chain).length s)).2.chain.length := by
    have hpopped := (popToParent_spec hparent).2
    rw [popToParent_eq hparent le_rfl] at hpopped
    rw [hconnected.chain, hpopped, List.length_append]
    omega
  rw [heq]
  generalize hconnect : (connectChain env (front :: rest) (popTimes env
    (chainAbove env front.2.bl.prevId s.chain).length s)).2 = connected at hstore hlength ⊢
  have hrollback := (alternativeChains_rollback env
    ((chainAbove env front.2.bl.prevId s.chain).map MainBlock.block)
    (List.length_pos_of_ne_nil (chainTo_ne_nil hparent)) hlength).trans hstore
  generalize (rollbackBlockchainSwitching env
    ((chainAbove env front.2.bl.prevId s.chain).map MainBlock.block)
    (chainTo env front.2.bl.prevId s.chain).length connected).2 = back at hrollback ⊢
  obtain ⟨hsame, hstore', -, hin⟩ := addBlockAsInvalid_spec refused.2 (env.id refused.2.bl) back
  obtain ⟨hsame', hstore'', hrecorded, hin'⟩ := orphanEntries_spec orphans (eraseEntry refused.1
    (addBlockAsInvalid refused.2 (env.id refused.2.bl) back))
  have herase : SameChain (addBlockAsInvalid refused.2 (env.id refused.2.bl) back)
      (eraseEntry refused.1 (addBlockAsInvalid refused.2 (env.id refused.2.bl) back)) :=
    ⟨rfl, rfl, rfl, rfl⟩
  refine ⟨(hsame.trans herase).trans hsame', ?_, (hrecorded.map Prod.fst).subset hin, hin'⟩
  rw [hstore'', eraseEntry]
  simp only [hstore', hrollback]
  exact filter_keys_cons _ _ _

/-! ### A switch that is made -/

omit [DecidableEq ρ] in
theorem foldl_eraseEntry (entries : List AltEntry) (s : ChainState ρ) :
    entries.foldl (fun s entry => eraseEntry entry.1 s) s = { s with
      alternativeChains := s.alternativeChains.filter
        fun entry => entry.1 ∉ entries.map Prod.fst } := by
  induction entries generalizing s with
  | nil => simp
  | cons entry rest ih =>
      rw [List.foldl_cons, ih, eraseEntry]
      simp only [filter_keys_cons]

/-- A switch that is made: every block was connected, the old ones were handed back, and the
entries are erased. -/
theorem switch_eq_true {pushBack : Block → ChainState ρ → ChainState ρ} {front : AltEntry}
    {rest : List AltEntry} {discard : Bool} {s : ChainState ρ}
    (h : (switchToAlternativeBlockchain env pushBack (front :: rest) discard s).1 = true) :
    front.2.bl.prevId ∈ blockIds env s.chain ∧
      (connectChain env (front :: rest) (popTimes env
        (chainAbove env front.2.bl.prevId s.chain).length s)).1 = [] ∧
      (switchToAlternativeBlockchain env pushBack (front :: rest) discard s).2 =
        reorganizeHardfork env (chainTo env front.2.bl.prevId s.chain).length
          ((front :: rest).foldl (fun s entry => eraseEntry entry.1 s)
            (if discard then (connectChain env (front :: rest) (popTimes env
                (chainAbove env front.2.bl.prevId s.chain).length s)).2
              else ((chainAbove env front.2.bl.prevId s.chain).map MainBlock.block).foldl
                (fun s b => pushBack b s) (connectChain env (front :: rest) (popTimes env
                  (chainAbove env front.2.bl.prevId s.chain).length s)).2)) := by
  by_cases hparent : front.2.bl.prevId ∈ blockIds env s.chain
  · refine ⟨hparent, ?_⟩
    have hsplit := (popToParent_spec hparent).2
    rw [switchToAlternativeBlockchain, if_neg (not_not.mpr hparent)] at h ⊢
    simp only [hsplit] at h ⊢
    rw [popToParent_eq hparent le_rfl, List.append_nil] at h ⊢
    simp only at h ⊢
    obtain ⟨⟨left, s'⟩, hrun⟩ : ∃ r, connectChain env (front :: rest) (popTimes env
      (chainAbove env front.2.bl.prevId s.chain).length s) = r := ⟨_, rfl⟩
    rw [hrun] at h ⊢
    cases left with
    | nil => exact ⟨rfl, rfl⟩
    | cons refused orphans => exact absurd h (by simp)
  · rw [switchToAlternativeBlockchain, if_pos hparent] at h
    exact absurd h (by simp)

/-! ### What a call does with an alternative block -/

/-- The block gets an entry: nothing speaks against it, and it is not there yet. -/
structure Enters (env : ChainEnv ρ) (b : Block) (s : ChainState ρ) (altChain : List AltEntry)
    (bei : BlockExtendedInfo) : Prop where
  allowed : isAlternativeBlockAllowed env s.chain.length (minerHeight b).toNat = true
  altChain_eq : altChain = altChainTo s.alternativeChains s.alternativeChains.length b.prevId
  parent : ¬(altChain = [] ∧ b.prevId ∉ blockIds env s.chain)
  info : alternativeInfo env s altChain b = some bei
  absent : env.id b ∉ s.alternativeChains.map Prod.fst

def insertEntry (entry : AltEntry) (s : ChainState ρ) : ChainState ρ :=
  { s with alternativeChains := s.alternativeChains ++ [entry] }

/-- A call leaves all as it is, or it stores an entry and may switch to it. -/
theorem alternativeStep_cases (env : ChainEnv ρ) (pushBack : Block → ChainState ρ → ChainState ρ)
    (b : Block) (s : ChainState ρ) :
    (((alternativeStep env pushBack b s).1 = .refused ∨
        (alternativeStep env pushBack b s).1 = .orphaned) ∧
        (alternativeStep env pushBack b s).2 = s) ∨
      ∃ altChain bei, Enters env b s altChain bei ∧
        ((alternativeStep env pushBack b s = (.stored, insertEntry (env.id b, bei) s) ∧
            (env.points.lookup bei.height).isSome = false ∧
            ¬topCumulativeDifficulty (infos s.chain) < bei.cumulativeDifficulty) ∨
          ∃ checkpoint, alternativeStep env pushBack b s =
              (.switched checkpoint (switchToAlternativeBlockchain env pushBack
                (altChain ++ [(env.id b, bei)]) checkpoint (insertEntry (env.id b, bei) s)).1,
              (switchToAlternativeBlockchain env pushBack
                (altChain ++ [(env.id b, bei)]) checkpoint (insertEntry (env.id b, bei) s)).2) ∧
            (checkpoint = true → (env.points.lookup bei.height).isSome = true) ∧
            (checkpoint = false →
              topCumulativeDifficulty (infos s.chain) < bei.cumulativeDifficulty)) := by
  rw [alternativeStep]
  simp only
  split
  · exact .inl ⟨.inl rfl, rfl⟩
  · rename_i hallowed
    split
    · exact .inl ⟨.inl rfl, rfl⟩
    · split
      · exact .inl ⟨.inr rfl, rfl⟩
      · rename_i hparent
        cases hinfo : alternativeInfo env s
          (altChainTo s.alternativeChains s.alternativeChains.length b.prevId) b with
        | none => exact .inl ⟨.inl rfl, rfl⟩
        | some bei =>
            simp only
            split
            · exact .inl ⟨.inl rfl, rfl⟩
            · rename_i hfind
              have habsent : env.id b ∉ s.alternativeChains.map Prod.fst := by
                intro hmem
                obtain ⟨entry, hentry, hkey⟩ := List.mem_map.mp hmem
                rw [List.find?_isSome] at hfind
                exact hfind ⟨entry, hentry, by simpa using hkey⟩
              refine .inr ⟨_, bei, ⟨by simpa using hallowed, rfl, hparent, hinfo, habsent⟩, ?_⟩
              split
              · rename_i hpoint
                exact .inr ⟨true, rfl, fun _ => hpoint, fun h => absurd h (by simp)⟩
              · rename_i hpoint
                split
                · rename_i hmore
                  exact .inr ⟨false, rfl, fun h => absurd h (by simp), fun _ => hmore⟩
                · rename_i hless
                  exact .inl ⟨rfl, (Bool.not_eq_true _).mp hpoint, hless⟩

end XrCoin.Blockchain

import XrCoin.Blockchain.Switch

/-!
The ancestors of a block. With one entry in the fork table, a block has one difficulty,
whether it is on the main chain or on an alternative one, and its id tells its ancestors with
their cumulative difficulties. This holds for good, whatever becomes of the blocks.
-/

namespace XrCoin.Blockchain

open Archive Cryptonote Forks TxPool

/-! ### The ancestors of an id -/

/-- A node with one entry in its fork table, that of the original version. The blocks that
it is given have ids that tell their headers. -/
structure Setting (ρ : Type) where
  env : ChainEnv ρ
  /-- The entry of the table. -/
  params : Params
  genesis : MainBlock
  /-- What the node is given. -/
  blocks : Set Block
  original : env.fork.originalVersion = params.version
  header_eq : ∀ b ∈ blocks, ∀ b' ∈ blocks, env.id b = env.id b' →
    b.toBlockHeader = b'.toBlockHeader

variable {ρ : Type} (w : Setting ρ)

def Setting.genesisId : Hash := w.env.id w.genesis.block

def Setting.difficultyAfter (ancestors : List BlockInfo) : Difficulty :=
  getDifficultyForNextBlock w.env.difficulty w.env.fixedDifficulty ⟨[w.params], .empty, 0⟩ ancestors

/-- The blocks up to the one of an id, as a main chain would store them. -/
inductive Ancestry : Hash → List BlockInfo → Prop
  | genesis : Ancestry w.genesisId [w.genesis.info]
  | block {b : Block} {ancestors : List BlockInfo} (hb : b ∈ w.blocks)
      (hnew : w.env.id b ≠ w.genesisId) (h : Ancestry b.prevId ancestors) :
      Ancestry (w.env.id b) (ancestors ++
        [⟨b.toBlockHeader, topCumulativeDifficulty ancestors + w.difficultyAfter ancestors⟩])

variable {w} {id : Hash} {ancestors ancestors' : List BlockInfo}

theorem Ancestry.ne_nil (h : Ancestry w id ancestors) : ancestors ≠ [] := by
  cases h <;> simp

theorem Ancestry.unique (h : Ancestry w id ancestors) (h' : Ancestry w id ancestors') :
    ancestors = ancestors' := by
  induction h generalizing ancestors' with
  | genesis =>
      generalize hid : w.genesisId = id at h'
      cases h' with
      | genesis => rfl
      | block hb hnew h' => exact absurd hid.symm hnew
  | @block b ancestors hb hnew h ih =>
      generalize hid : w.env.id b = id at h'
      cases h' with
      | genesis => exact absurd hid hnew
      | @block b' ancestors' hb' hnew' h' =>
          have hheader := w.header_eq b hb b' hb' hid
          have hprev : b.prevId = b'.prevId := congrArg BlockHeader.prevId hheader
          rw [← hprev] at h'
          rw [ih h', hheader]

/-! ### The main chain -/

variable (w) in
inductive FromGenesis : List MainBlock → Prop
  | genesis : FromGenesis [w.genesis]
  | block {chain : List MainBlock} {e : MainBlock} (h : FromGenesis chain)
      (hb : e.block ∈ w.blocks) (hnew : w.env.id e.block ≠ w.genesisId)
      (hprev : e.block.prevId = getTailId w.env chain)
      (hcum : e.cumulativeDifficulty =
        topCumulativeDifficulty (infos chain) + w.difficultyAfter (infos chain)) :
      FromGenesis (chain ++ [e])

variable {chain base above : List MainBlock} {e : MainBlock}

theorem FromGenesis.ne_nil (h : FromGenesis w chain) : chain ≠ [] := by
  cases h <;> simp

theorem FromGenesis.ancestry (h : FromGenesis w chain) :
    Ancestry w (getTailId w.env chain) (infos chain) := by
  induction h with
  | genesis => exact .genesis
  | @block chain e h hb hnew hprev hcum ih =>
      rw [getTailId_concat, infos, List.map_append, List.map_singleton]
      have hinfo : e.info = ⟨e.block.toBlockHeader,
          topCumulativeDifficulty (infos chain) + w.difficultyAfter (infos chain)⟩ := by
        rw [MainBlock.info, hcum]
      rw [hinfo]
      rw [← hprev] at ih
      exact .block hb hnew ih

/-- The parts from the genesis block on are such chains too. -/
theorem FromGenesis.of_append (h : FromGenesis w (base ++ above)) (hbase : base ≠ []) :
    FromGenesis w base ∧ ∀ e ∈ above, e.block ∈ w.blocks ∧ w.env.id e.block ≠ w.genesisId := by
  generalize hchain : base ++ above = chain at h
  induction h generalizing above with
  | genesis =>
      rcases List.append_eq_singleton_iff.mp hchain with ⟨rfl, -⟩ | ⟨rfl, rfl⟩
      · exact absurd rfl hbase
      · exact ⟨.genesis, by simp⟩
  | @block chain e h hb hnew hprev hcum ih =>
      rcases List.eq_nil_or_concat above with rfl | ⟨above', top, rfl⟩
      · rw [List.append_nil] at hchain
        rw [hchain]
        exact ⟨.block h hb hnew hprev hcum, by simp⟩
      · rw [List.concat_eq_append, ← List.append_assoc] at hchain
        obtain ⟨hfront, htop⟩ := List.append_inj' hchain rfl
        obtain ⟨hgrown, hrest⟩ := ih hfront
        refine ⟨hgrown, fun e' he' => ?_⟩
        rw [List.concat_eq_append, List.mem_append] at he'
        rcases he' with he' | he'
        · exact hrest e' he'
        · rw [List.mem_singleton.mp he', (List.cons.inj htop).1]
          exact ⟨hb, hnew⟩

theorem FromGenesis.take (h : FromGenesis w chain) {n : ℕ} (hn : 0 < n) :
    FromGenesis w (chain.take n) := by
  rw [← List.take_append_drop n chain] at h
  refine (h.of_append ?_).1
  intro hnil
  rw [List.take_eq_nil_iff] at hnil
  rcases hnil with hzero | hnil
  · omega
  · rw [hnil, List.take_nil, List.drop_nil] at h
    exact h.ne_nil rfl

theorem FromGenesis.ancestry_getElem (h : FromGenesis w chain) {n : ℕ} (he : chain[n]? = some e) :
    Ancestry w (w.env.id e.block) (infos (chain.take (n + 1))) := by
  have htake : chain.take (n + 1) = chain.take n ++ [e] := by
    rw [List.take_add_one, he, Option.toList_some]
  have htail : getTailId w.env (chain.take (n + 1)) = w.env.id e.block := by
    rw [htake, getTailId_concat]
  rw [← htail]
  exact (h.take (Nat.succ_pos n)).ancestry

theorem infos_length (chain : List MainBlock) : (infos chain).length = chain.length :=
  List.length_map _

theorem FromGenesis.height_eq (h : FromGenesis w chain) {n : ℕ} (he : chain[n]? = some e)
    (hid : Ancestry w (w.env.id e.block) ancestors) : ancestors.length = n + 1 := by
  have hlt := (List.getElem?_eq_some_iff.mp he).1
  rw [hid.unique (h.ancestry_getElem he), infos_length, List.length_take]
  omega

theorem FromGenesis.blockIds_nodup (h : FromGenesis w chain) : (blockIds w.env chain).Nodup := by
  rw [List.nodup_iff_injective_getElem]
  intro i j hij
  obtain ⟨i, hi⟩ := i
  obtain ⟨j, hj⟩ := j
  rw [blockIds, List.length_map] at hi hj
  have hi' : chain[i]? = some chain[i] := List.getElem?_eq_getElem hi
  have hj' : chain[j]? = some chain[j] := List.getElem?_eq_getElem hj
  simp only [blockIds, List.getElem_map] at hij
  have hlength := h.height_eq hi' (hij ▸ h.ancestry_getElem hj')
  rw [infos_length, List.length_take] at hlength
  simp only [Fin.mk.injEq]
  omega

/-! ### One fork -/

variable (w) in
structure OneFork (hf : HardFork) : Prop where
  heights : hf.heights = [w.params]
  index : hf.currentForkIndex = 0

variable {hf : HardFork}

theorem OneFork.getCurrentVersion (h : OneFork w hf) : getCurrentVersion hf = w.params.version := by
  rw [Forks.getCurrentVersion, h.heights, h.index]
  rfl

theorem OneFork.difficulty (h : OneFork w hf) (chain : List BlockInfo) :
    getDifficultyForNextBlock w.env.difficulty w.env.fixedDifficulty hf chain =
      w.difficultyAfter chain := by
  rw [Setting.difficultyAfter, getDifficultyForNextBlock, getDifficultyForNextBlock,
    h.getCurrentVersion, h.heights]
  rfl

theorem OneFork.alternativeDifficulty (h : OneFork w hf) {split : ℕ} {main : List BlockInfo}
    {altChain : List BlockExtendedInfo} (hsplits : Splits split ancestors main altChain) :
    getNextDifficultyForAlternativeChain w.env.difficulty w.env.fork w.env.fixedDifficulty hf main
      altChain ancestors.length = w.difficultyAfter ancestors := by
  have hle := hsplits.main_le
  have hle' := hsplits.split_le
  have hpos := hsplits.split_pos
  have hideal : getIdealVersion w.env.fork [w.params] ancestors.length = w.params.version :=
    w.original
  rw [getNextDifficultyForAlternativeChain, Setting.difficultyAfter, getDifficultyForNextBlock,
    hsplits.alternativeWindow, h.getCurrentVersion, h.heights, hideal]
  have hmain : main.length ≠ 0 := by omega
  have hancestors : ancestors.length ≠ 0 := by omega
  simp only [hmain, hancestors, ne_eq, not_false_eq_true, if_true]
  rfl

theorem OneFork.raiseToVoted (h : OneFork w hf) (conf : HardForkConfig) (height : ℕ) :
    OneFork w (raiseToVoted conf hf height) := by
  refine ⟨h.heights, ?_⟩
  have hlt : hf.currentForkIndex < hf.heights.length := by
    rw [h.index, h.heights]
    exact Nat.one_pos
  have hraised : (Forks.raiseToVoted conf hf height).currentForkIndex < hf.heights.length :=
    raiseToVoted_lt hlt height
  rw [h.heights, List.length_singleton] at hraised
  exact Nat.lt_one_iff.mp hraised

theorem OneFork.add (h : OneFork w hf) (conf : HardForkConfig) (b : BlockHeader) (height : ℕ)
    (db : ForkDb) : OneFork w (add conf b height hf db).2.1 := by
  rw [Forks.add]
  split
  · have hpushed : OneFork w ⟨hf.heights, (hf.votes.trim conf.windowSize.toNat).push
        (effectiveVote hf.heights b), hf.currentForkIndex⟩ := ⟨h.heights, h.index⟩
    exact hpushed.raiseToVoted conf (height + 1)
  · exact h

theorem OneFork.addRest (h : OneFork w hf) (conf : HardForkConfig) (bs : List BlockHeader)
    (height : ℕ) (db : ForkDb) : OneFork w (addRest conf bs height hf db).1 := by
  induction bs generalizing height hf db with
  | nil => exact h
  | cons b bs ih => exact ih (h.add conf b height db) (height + 1) _

theorem OneFork.reorganizeFromBlockHeight (h : OneFork w hf) {conf : HardForkConfig} {height : ℕ}
    {db : ForkDb} {result : Bool × HardFork × ForkDb}
    (hrun : reorganizeFromBlockHeight conf height hf db = some result) : OneFork w result.2.1 := by
  rw [Forks.reorganizeFromBlockHeight] at hrun
  split at hrun
  · rw [← Option.some.inj hrun]
    exact h
  · obtain ⟨startVersion, -, hresult⟩ := Option.map_eq_some_iff.mp hrun
    rw [← hresult, h.index]
    -- going down from the first entry ends there
    have hscanned : OneFork w ⟨hf.heights, scanVotes hf.heights db.blocks
        (height - (conf.windowSize.toNat - 1)) height, 0⟩ := ⟨h.heights, rfl⟩
    exact (hscanned.raiseToVoted conf (height + 1)).addRest conf _ _ db

theorem OneFork.reorganizeHardfork {s : ChainState ρ} (h : OneFork w s.hardfork) (height : ℕ) :
    OneFork w (reorganizeHardfork w.env height s).hardfork := by
  rw [Blockchain.reorganizeHardfork]
  cases hrun : reorganizeFromChainHeight w.env.fork height s.hardfork (forkDb s) with
  | none => exact h
  | some result =>
      rw [reorganizeFromChainHeight] at hrun
      split at hrun
      · rw [← Option.some.inj hrun]
        exact h
      · exact h.reorganizeFromBlockHeight hrun

/-! ### The store -/

variable (w) in
structure Stored (entry : AltEntry) : Prop where
  key : entry.1 = w.env.id entry.2.bl
  mem : entry.2.bl ∈ w.blocks
  new : entry.1 ≠ w.genesisId
  linked : ∃ ancestors, Ancestry w entry.2.bl.prevId ancestors ∧
    entry.2.height = ancestors.length ∧ entry.2.cumulativeDifficulty =
      topCumulativeDifficulty ancestors + w.difficultyAfter ancestors

theorem Stored.ancestry {entry : AltEntry} (h : Stored w entry)
    (hprev : Ancestry w entry.2.bl.prevId ancestors) :
    Ancestry w entry.1 (ancestors ++ [entry.2.info]) ∧ entry.2.height = ancestors.length := by
  obtain ⟨ancestors', hprev', hheight, hcum⟩ := h.linked
  obtain rfl := hprev'.unique hprev
  have hnew := h.new
  rw [h.key] at hnew
  have hinfo : entry.2.info = ⟨entry.2.bl.toBlockHeader, topCumulativeDifficulty ancestors' +
      w.difficultyAfter ancestors'⟩ := by
    rw [BlockExtendedInfo.info, hcum]
  rw [h.key, hinfo]
  exact ⟨.block h.mem hnew hprev, hheight⟩

theorem topCumulativeDifficulty_concat (ancestors : List BlockInfo) (e : BlockInfo) :
    topCumulativeDifficulty (ancestors ++ [e]) = e.cumulativeDifficulty := by
  rw [topCumulativeDifficulty, List.getLast?_concat]
  rfl

/-- What an id that is an entry's key tells. -/
theorem Stored.of_ancestry {entry : AltEntry} (h : Stored w entry)
    (hid : Ancestry w entry.1 ancestors) : ancestors.length = entry.2.height + 1 ∧
      topCumulativeDifficulty ancestors = entry.2.cumulativeDifficulty := by
  obtain ⟨ancestors', hprev, -⟩ := h.linked
  obtain ⟨hentry, hheight⟩ := h.ancestry hprev
  rw [hid.unique hentry, topCumulativeDifficulty_concat, List.length_append, List.length_singleton,
    hheight]
  exact ⟨rfl, rfl⟩

variable {store : List AltEntry}

/-- The alternative chain to an id goes up to it from the ancestors of its front. -/
theorem altChainTo_spec (hstored : ∀ entry ∈ store, Stored w entry) {n : ℕ} {front : AltEntry}
    {rest : List AltEntry} (h : altChainTo store n id = front :: rest) :
    (∀ entry ∈ front :: rest, entry ∈ store) ∧
      (∃ last, (front :: rest).getLast? = some last ∧ last ∈ store ∧ last.1 = id) ∧
      ∃ ancestors, Ancestry w front.2.bl.prevId ancestors ∧ front.2.height = ancestors.length ∧
        Ancestry w id (ancestors ++ (front :: rest).map fun entry => entry.2.info) := by
  induction n generalizing id front rest with
  | zero => exact absurd h (by simp [altChainTo])
  | succ n ih =>
      rw [altChainTo] at h
      cases hfind : store.find? fun entry => entry.1 = id with
      | none =>
          rw [hfind] at h
          exact absurd h (by simp)
      | some entry =>
          rw [hfind] at h
          simp only at h
          have hmem := List.mem_of_find?_eq_some hfind
          have hkey : entry.1 = id := by simpa using List.find?_some hfind
          have hentry := hstored entry hmem
          rw [← h]
          refine ⟨?_, ⟨entry, List.getLast?_concat .., hmem, hkey⟩, ?_⟩
          · intro entry' hentry'
            rcases List.mem_append.mp hentry' with hinner | hlast
            · cases hchain : altChainTo store n entry.2.bl.prevId with
              | nil =>
                  rw [hchain] at hinner
                  exact absurd hinner (by simp)
              | cons front' rest' =>
                  rw [hchain] at hinner
                  exact (ih hchain).1 entry' hinner
            · rw [List.mem_singleton.mp hlast]
              exact hmem
          · cases hchain : altChainTo store n entry.2.bl.prevId with
            | nil =>
                -- the entry is the front
                rw [hchain, List.nil_append] at h
                obtain ⟨rfl, rfl⟩ := List.cons.inj h
                obtain ⟨ancestors, hprev, -⟩ := hentry.linked
                obtain ⟨hup, hheight⟩ := hentry.ancestry hprev
                rw [hkey] at hup
                exact ⟨ancestors, hprev, hheight, hup⟩
            | cons front' rest' =>
                rw [hchain, List.cons_append] at h
                obtain ⟨rfl, rfl⟩ := List.cons.inj h
                obtain ⟨-, -, ancestors, hprev, hheight, hinner⟩ := ih hchain
                obtain ⟨hup, -⟩ := hentry.ancestry hinner
                rw [hkey, List.append_assoc] at hup
                refine ⟨ancestors, hprev, hheight, ?_⟩
                rw [List.map_append]
                exact hup

/-! ### The entry of an alternative block -/

/-- The entry that is made, and those of its checks that matter here. -/
theorem alternativeInfo_eq_some {env : ChainEnv ρ} {s : ChainState ρ} {altChain : List AltEntry}
    {b : Block} {bei : BlockExtendedInfo} (h : alternativeInfo env s altChain b = some bei) :
    connectsToMain env s.chain altChain = true ∧
      prevalidateMinerTransaction env b bei.height = true ∧
      bei = ⟨b, alternativeHeight env s.chain altChain b,
        parentCumulativeDifficulty env s.chain altChain b +
          alternativeDiffic env s altChain (alternativeHeight env s.chain altChain b)⟩ := by
  rw [alternativeInfo] at h
  split at h
  · exact absurd h (by simp)
  · rename_i hconnects
    split at h
    · exact absurd h (by simp)
    · split at h
      · exact absurd h (by simp)
      · split at h
        · exact absurd h (by simp)
        · split at h
          · exact absurd h (by simp)
          · split at h
            · exact absurd h (by simp)
            · rename_i hminer
              obtain rfl := Option.some.inj h
              exact ⟨by simpa using hconnects, by simpa using hminer, rfl⟩

theorem getElem?_mainHeight {env : ChainEnv ρ} (hmem : id ∈ blockIds env chain) :
    ∃ e, chain[mainHeight env chain id]? = some e ∧ env.id e.block = id := by
  have hlt : (blockIds env chain).idxOf id < (blockIds env chain).length :=
    List.idxOf_lt_length_of_mem hmem
  have hlt' := hlt
  rw [blockIds, List.length_map] at hlt'
  refine ⟨chain[(blockIds env chain).idxOf id], List.getElem?_eq_getElem hlt', ?_⟩
  have hget := List.getElem_idxOf hlt
  simp only [blockIds, List.getElem_map] at hget
  exact hget

theorem alternative_splits {s : ChainState ρ} (hchain : FromGenesis w s.chain)
    (hstored : ∀ entry ∈ s.alternativeChains, Stored w entry) {b : Block} {n : ℕ}
    (hparent : ¬(altChainTo s.alternativeChains n b.prevId = [] ∧
      b.prevId ∉ blockIds w.env s.chain))
    (hconnects : connectsToMain w.env s.chain (altChainTo s.alternativeChains n b.prevId) = true) :
    ∃ split ancestors, Ancestry w b.prevId ancestors ∧
      alternativeHeight w.env s.chain (altChainTo s.alternativeChains n b.prevId) b =
        ancestors.length ∧
      parentCumulativeDifficulty w.env s.chain (altChainTo s.alternativeChains n b.prevId) b =
        topCumulativeDifficulty ancestors ∧
      Splits split ancestors (infos s.chain)
        ((altChainTo s.alternativeChains n b.prevId).map Prod.snd) := by
  have hinfos : ∀ n, (infos s.chain).take n = infos (s.chain.take n) := fun n =>
    List.map_take.symm
  cases halt : altChainTo s.alternativeChains n b.prevId with
  | nil =>
      -- the parent is in the main chain
      rw [halt] at hparent
      obtain ⟨e, he, hid⟩ := getElem?_mainHeight (not_not.mp (fun h => hparent ⟨rfl, h⟩))
      have hlt := (List.getElem?_eq_some_iff.mp he).1
      have hancestry := hchain.ancestry_getElem he
      rw [hid] at hancestry
      have hlength : (infos (s.chain.take (mainHeight w.env s.chain b.prevId + 1))).length =
          mainHeight w.env s.chain b.prevId + 1 := by
        rw [infos_length, List.length_take]
        omega
      refine ⟨mainHeight w.env s.chain b.prevId + 1, _, hancestry, ?_, ?_, ?_⟩
      · rw [hlength]
        rfl
      · have hinfo : (infos s.chain)[mainHeight w.env s.chain b.prevId]? = some e.info := by
          rw [infos, List.getElem?_map, he]
          rfl
        rw [← hinfos, topCumulativeDifficulty_take hinfo, parentCumulativeDifficulty]
        simp only [List.getLast?_nil, he]
        rfl
      · refine ⟨Nat.le_add_left 1 _, hlength.ge, ?_, ?_, ?_, by simp⟩
        · rw [infos_length]
          omega
        · rw [hinfos, List.take_of_length_le hlength.le]
        · rw [List.drop_of_length_le hlength.le]
          rfl
  | cons front rest =>
      rw [halt] at hconnects
      obtain ⟨-, ⟨last, hlast, hmem, hkey⟩, ancestors, hprev, hheight, hup⟩ :=
        altChainTo_spec hstored halt
      rw [connectsToMain, decide_eq_true_eq] at hconnects
      obtain ⟨hlt, hget⟩ := hconnects
      have hpos : 0 < ancestors.length := List.length_pos_of_ne_nil hprev.ne_nil
      -- the block below the front is at its place in the main chain
      rw [blockIds, List.getElem?_map] at hget
      obtain ⟨e, he, hid⟩ := Option.map_eq_some_iff.mp hget
      have hbelow := hchain.ancestry_getElem he
      rw [hid, hheight, Nat.sub_add_cancel hpos] at hbelow
      have hmain := hprev.unique hbelow
      rw [← hkey] at hup
      obtain ⟨hlength, htop⟩ := (hstored last hmem).of_ancestry hup
      rw [hkey] at hup
      refine ⟨front.2.height, _, hup, ?_, ?_, ?_⟩
      · rw [hlength, alternativeHeight, hlast]
      · rw [htop, parentCumulativeDifficulty, hlast]
      · rw [hheight]
        refine ⟨hpos, ?_, ?_, ?_, ?_, ?_⟩
        · rw [List.length_append]
          omega
        · rw [infos_length]
          omega
        · rw [hinfos, ← hmain, List.take_left]
        · rw [List.drop_left, List.map_map]
          rfl
        · intro front' hfront'
          obtain rfl := Option.some.inj hfront'
          exact hheight

/-- The entry that `handle_alternative_block` makes is such an entry. -/
theorem stored_alternativeInfo {s : ChainState ρ} (hfork : OneFork w s.hardfork)
    (hchain : FromGenesis w s.chain) (hstored : ∀ entry ∈ s.alternativeChains, Stored w entry)
    {b : Block} (hb : b ∈ w.blocks) (hnew : w.env.id b ≠ w.genesisId) {n : ℕ}
    (hparent : ¬(altChainTo s.alternativeChains n b.prevId = [] ∧
      b.prevId ∉ blockIds w.env s.chain)) {bei : BlockExtendedInfo}
    (h : alternativeInfo w.env s (altChainTo s.alternativeChains n b.prevId) b = some bei) :
    Stored w (w.env.id b, bei) ∧ bei.bl = b := by
  obtain ⟨hconnects, -, rfl⟩ := alternativeInfo_eq_some h
  obtain ⟨split, ancestors, hancestry, hheight, hcum, hsplits⟩ :=
    alternative_splits hchain hstored hparent hconnects
  refine ⟨⟨rfl, hb, hnew, ancestors, hancestry, hheight, ?_⟩, rfl⟩
  show parentCumulativeDifficulty w.env s.chain _ b + alternativeDiffic w.env s _ _ = _
  rw [hcum, hheight, alternativeDiffic, hfork.alternativeDifficulty hsplits]

end XrCoin.Blockchain

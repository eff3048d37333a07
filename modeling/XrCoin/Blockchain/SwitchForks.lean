import XrCoin.Blockchain.Switch
import XrCoin.Forks.Runs
import XrCoin.TxPool.Runs

/-!
The versions that a switch checks the alternative blocks against. The fork object is not
taken back when the old blocks are popped, so it is still at the fork of the old top.
-/

namespace XrCoin.Blockchain

open Archive Cryptonote Forks TxPool

variable {ρ : Type} [DecidableEq ρ] (env : ChainEnv ρ)

/-! ### The versions -/

/-- For each block that `connectChain` hands to `handle_block_to_main_chain`, its height
and the version that the fork object is at. -/
def checkedVersions : List AltEntry → ChainState ρ → List (ℕ × UInt8)
  | [], _ => []
  | entry :: rest, s =>
      (s.chain.length, currentVersion s) ::
        match handleBlockToMainChain env entry.2.bl s with
        | (true, s) => checkedVersions rest s
        | (false, _) => []

def switchVersions (altChain : List AltEntry) (s : ChainState ρ) : List (ℕ × UInt8) :=
  match altChain with
  | [] => []
  | front :: _ =>
      if front.2.bl.prevId ∉ blockIds env s.chain then []
      else checkedVersions env altChain
        (popToParent env front.2.bl.prevId s.chain.length [] s).2

/-! ### Where the fork object is -/

variable {env} {heights : List Params}

/-- The same entry is scheduled for two heights when none begins between them. -/
theorem scheduledIndex_eq_iff (h : Ordered heights) {height height' : ℕ}
    (hle : height ≤ height') :
    scheduledIndex heights height = scheduledIndex heights height' ↔
      ∀ p ∈ heights.tail, p.height ≤ height' → p.height ≤ height := by
  constructor
  · intro heq p hp hbegun
    obtain ⟨n, hn, rfl⟩ := List.getElem_of_mem hp
    have hn' : n + 1 < heights.length := by
      rw [List.length_tail] at hn
      omega
    rw [List.getElem_tail] at hbegun ⊢
    rw [h.height_le_iff hn'] at hbegun ⊢
    omega
  · intro hbegun
    rw [scheduledIndex, scheduledIndex]
    congr 1
    -- both take the entries that have begun
    have hsame : ∀ ps : List Params, (∀ p ∈ ps, p.height ≤ height' → p.height ≤ height) →
        (ps.takeWhile fun p => p.height ≤ height) = ps.takeWhile fun p => p.height ≤ height' := by
      intro ps hps
      induction ps with
      | nil => rfl
      | cons p ps ih =>
          rw [List.forall_mem_cons] at hps
          rw [List.takeWhile_cons, List.takeWhile_cons, ih hps.2]
          have hiff : p.height ≤ height ↔ p.height ≤ height' := ⟨(·.trans hle), hps.1⟩
          simp only [hiff]
    exact hsame _ hbegun

omit [DecidableEq ρ] in
/-- A block that is added raises the fork object to what is scheduled above it, and does
not lower it. -/
theorem hardfork_storeBlock (env : ChainEnv ρ) (htable : Table heights)
    (hzero : ZeroThresholds heights) {k : ℕ} (hk : k < heights.length) {s : ChainState ρ} (hheights : s.hardfork.heights = heights)
    (hindex : s.hardfork.currentForkIndex = max k (scheduledIndex heights s.chain.length))
    {e : MainBlock} (hcheck : check s.hardfork e.block.toBlockHeader = true) :
    (storeBlock env s e).hardfork.heights = heights ∧
      (storeBlock env s e).hardfork.currentForkIndex =
        max k (scheduledIndex heights (storeBlock env s e).chain.length) := by
  have hlt : s.hardfork.currentForkIndex < heights.length := by
    rw [hindex]
    exact max_lt hk (scheduledIndex_lt htable.nonempty)
  rw [storeBlock, add, if_pos hcheck, hheights]
  simp only [List.length_append, List.length_singleton]
  rw [htable.raiseToVoted hzero _ hlt]
  refine ⟨rfl, ?_⟩
  have hmono : scheduledIndex heights s.chain.length ≤
      scheduledIndex heights (s.chain.length + 1) := scheduledIndex_mono (Nat.le_succ _)
  simp only [hindex]
  omega

/-- Along the loop, the object is at the later one of where it started and what is
scheduled. -/
theorem checkedVersions_spec (env : ChainEnv ρ) (htable : Table heights)
    (hzero : ZeroThresholds heights) {k : ℕ} (hk : k < heights.length) (altChain : List AltEntry) {s : ChainState ρ}
    (hheights : s.hardfork.heights = heights)
    (hindex : s.hardfork.currentForkIndex = max k (scheduledIndex heights s.chain.length)) :
    ∀ checked ∈ checkedVersions env altChain s, s.chain.length ≤ checked.1 ∧
      checked.2 = versionAt heights (max k (scheduledIndex heights checked.1)) := by
  induction altChain generalizing s with
  | nil => exact fun checked hchecked => absurd hchecked (by simp [checkedVersions])
  | cons entry rest ih =>
      rw [checkedVersions, List.forall_mem_cons]
      constructor
      · refine ⟨le_rfl, ?_⟩
        rw [currentVersion, getCurrentVersion, hheights, hindex]
      · rcases handleBlockToMainChain_cases env entry.2.bl s with
          ⟨p, l, t, i, hrefused, -⟩ | ⟨fast, acc, p, e, hheader, -, hcomplete, hadded⟩
        · rw [hrefused]
          exact fun checked hchecked => absurd hchecked (by simp)
        · rw [hadded]
          simp only
          have hblock := (completeBlock_eq env hcomplete).1
          have hcheck := ((checkHeader_eq_some env).mp hheader).2.1
          rw [← hblock] at hcheck
          generalize hs' : ({ s with txPool := p, blocksTxsCheck := [] } : ChainState ρ) = s'
          have hsame : s'.hardfork = s.hardfork ∧ s'.chain = s.chain := by
            rw [← hs']
            exact ⟨rfl, rfl⟩
          rw [← hsame.1] at hcheck hheights hindex
          rw [← hsame.2] at hindex ⊢
          obtain ⟨hheights', hindex'⟩ :=
            hardfork_storeBlock env htable hzero hk hheights hindex hcheck
          intro checked hchecked
          obtain ⟨hle, hversion⟩ := ih hheights' hindex' checked hchecked
          refine ⟨?_, hversion⟩
          have hlength : (storeBlock env s' e).chain.length = s'.chain.length + 1 := by
            rw [storeBlock, List.length_append, List.length_singleton]
          omega

/-- The alternative blocks of a switch are checked against the version of their height
exactly when no fork begins above the height of the split and up to that of the old
chain. -/
theorem switchVersions_ideal_iff (htable : Table heights) (hzero : ZeroThresholds heights)
    (horiginal : env.fork.originalVersion = versionAt heights 0) {s : ChainState ρ}
    (hstate : s.hardfork = stateAt env.fork heights (forkDb s).blocks s.chain.length)
    {front : AltEntry} (rest : List AltEntry)
    (hparent : front.2.bl.prevId ∈ blockIds env s.chain) :
    (∀ checked ∈ switchVersions env (front :: rest) s,
        checked.2 = getIdealVersion env.fork heights checked.1) ↔
      ∀ p ∈ heights.tail, p.height ≤ s.chain.length →
        p.height ≤ (chainTo env front.2.bl.prevId s.chain).length := by
  have hideal : ∀ height, getIdealVersion env.fork heights height =
      versionAt heights (scheduledIndex heights height) := fun height =>
    htable.ordered.getIdealVersion fun _ => horiginal
  have hlt : ∀ height, scheduledIndex heights height < heights.length := fun _ =>
    scheduledIndex_lt htable.nonempty
  have hle : (chainTo env front.2.bl.prevId s.chain).length ≤ s.chain.length :=
    (List.rdropWhile_prefix _ _).length_le
  have hmono : scheduledIndex heights (chainTo env front.2.bl.prevId s.chain).length ≤
      scheduledIndex heights s.chain.length := scheduledIndex_mono hle
  -- after the pops the object is where it was
  obtain ⟨hrest, hchain⟩ := popToParent_spec hparent
  have hheights : s.hardfork.heights = heights := by rw [hstate, stateAt]
  have hcurrent : s.hardfork.currentForkIndex = scheduledIndex heights s.chain.length := by
    rw [hstate, stateAt, htable.forkIndexAt hzero]
  have hspec := checkedVersions_spec env htable hzero (hlt s.chain.length) (front :: rest)
    (s := (popToParent env front.2.bl.prevId s.chain.length [] s).2)
    (by rw [hrest.hardfork, hheights])
    (by rw [hrest.hardfork, hcurrent, hchain, max_eq_left hmono])
  rw [hchain] at hspec
  rw [← scheduledIndex_eq_iff htable.ordered hle, switchVersions, if_neg (not_not.mpr hparent)]
  constructor
  · -- the first block is always handed over
    intro hall
    have hfirst := hall _ List.mem_cons_self
    simp only [hchain, hideal, currentVersion, getCurrentVersion, hrest.hardfork, hheights,
      hcurrent] at hfirst
    exact (htable.ordered.versionAt_inj (hlt _) (hlt _) hfirst).symm
  · intro heq checked hchecked
    obtain ⟨habove, hversion⟩ := hspec checked hchecked
    rw [hversion, hideal, ← heq, max_eq_right (scheduledIndex_mono habove)]

/-! ### A switch below a fork -/

def plainBlock (version : UInt8) (height timestamp : UInt64) (prevId : Hash) : Block :=
  ⟨⟨version, version, timestamp, prevId, 0⟩, minerTxAt height, .nil⟩

structure HashedBlock where
  block : Block
  miner : Hash
  id : Hash
  blob : Hash

def hashedOps (blocks : List HashedBlock) : CryptoOps :=
  ⟨fun m => (blocks.findSome? fun b => blockHashes b.block b.miner b.id b.blob m).getD nullHash,
    fun _ => none, fun _ => default⟩

def genesisBlock : HashedBlock where
  block := plainBlock 1 0 0 nullHash
  miner := hashOfNat 0xbf6cdcc3b93129f40502808010525b248b818c5f62495e9c192a18f5e029cca9
  id := hashOfNat 0xde17ace7092bf80170fd1f902226a8d1a9bc1888cb8ed0670c3b869edc92f1aa
  blob := hashOfNat 0x7756086b95bdb5da6e1199471ad76a220dacf2907d4bea67b9fe0690eddc3980

def mainFirst : HashedBlock where
  block := plainBlock 1 1 240 genesisBlock.id
  miner := hashOfNat 0xe477c3fa35539f1b0e17b096df4295e321666fdf97d6cec119a1f979afc034a0
  id := hashOfNat 0xc0c411f23a85810c640ed1ede21523c8206e842d234d383517f1fb7f7c12f903
  blob := hashOfNat 0xdec9c8f6a04532162d034143e7c5325eacded0f938d6223cc9781f1d0b893db2

def mainSecond : HashedBlock where
  block := plainBlock 2 2 480 mainFirst.id
  miner := hashOfNat 0x6b57c3207986f38d1741e991af07c6e36c7e2ea1183b811dd51957567e7f54a5
  id := hashOfNat 0x1c53244bb756f805e8b3ebf6ddc82e9cd20447da5f5af525a2a7247e7eece8b6
  blob := hashOfNat 0xb2ce472030d8f31ea532a2d9660dec83d23c6abcb78c3ebbc487bdfb7ff3195e

def altFirst : HashedBlock where
  block := plainBlock 1 1 300 genesisBlock.id
  miner := hashOfNat 0xe477c3fa35539f1b0e17b096df4295e321666fdf97d6cec119a1f979afc034a0
  id := hashOfNat 0x22287f1b9f171ad9b7d676645f3be02588d1373098f84606db3a51eceefab9d8
  blob := hashOfNat 0x4231cab70827cdade64dcf6210cff0c3becafe03e503caeb2f14ac9a0d64e05b

/-- No reward is left to be paid, and every transaction has good inputs. -/
def plainEnv (blocks : List HashedBlock) (points : List (ℕ × Hash)) : ChainEnv (ℕ × ℕ) where
  ops := hashedOps blocks
  cfg := currentConfig
  pow := lightPow
  feeRate := fractionRate
  difficulty := sampleDifficultyConfig
  fork := plainConf
  fixedDifficulty := 0
  timestampCheckWindow := 60
  minedMoneyUnlockWindow := 60
  nofakeTxsPercent := 10
  moneySupply := 0
  points := points
  checkTxInputs _ _ _ _ := some (1, 0)
  validateMinerTransaction _ _ _ _ _ _ _ := some 0
  nextLongTermBlockWeight _ _ weight := weight
  blockCumulWeightMedian _ _ := 300000
  dbAccepts _ _ _ := true
  poolView _ := paymentView

/-- A block of the main chain at which the difficulties add up to this. -/
def plainMain (b : HashedBlock) (cumulativeDifficulty : Difficulty) : MainBlock :=
  ⟨b.block, [], 85, 85, cumulativeDifficulty, 0⟩

/-- A node with the chain, and nothing else. -/
def plainState (heights : List Params) (chain : List MainBlock) : ChainState (ℕ × ℕ) where
  chain := chain
  hfVersions n := some (scheduledVersion heights n)
  hardfork := stateAt plainConf heights (chain.map fun e => e.block.toBlockHeader) chain.length
  txPool := .empty (ℕ × ℕ) 648000000
  alternativeChains := []
  invalidBlocks := []
  blocksHashCheck := []
  blocksTxsCheck := []
  blocksLonghashTable := []
  scanTable := []
  currentBlockCumulWeightMedian := 300000
  futureLimit := 1540000000
  notReturned := []

def forkEnv : ChainEnv (ℕ × ℕ) := plainEnv [genesisBlock, mainFirst, mainSecond, altFirst] []

def forkChain : List MainBlock :=
  [plainMain genesisBlock 1, plainMain mainFirst 2, plainMain mainSecond 3]

def altFirstEntry : AltEntry := (altFirst.id, ⟨altFirst.block, 1, 2⟩)

/-- With version 2 from height 2 on, the switch from a chain of three blocks to one that
leaves it at height 1 checks the first block against version 2. -/
theorem forkChain_checks_stale_version :
    (Table twoForks ∧ ZeroThresholds twoForks) ∧
      altFirst.block.prevId ∈ blockIds forkEnv forkChain ∧
      switchVersions forkEnv [altFirstEntry] (plainState twoForks forkChain) = [(1, 2)] ∧
      ¬∀ checked ∈ switchVersions forkEnv [altFirstEntry] (plainState twoForks forkChain),
        checked.2 = getIdealVersion plainConf twoForks checked.1 := by
  have hversions : switchVersions forkEnv [altFirstEntry] (plainState twoForks forkChain) =
      [(1, 2)] := by decide
  refine ⟨⟨⟨by decide, ?_⟩, ?_⟩, ?_, hversions, ?_⟩
  · unfold Ordered
    decide
  · unfold ZeroThresholds
    decide
  · decide
  · rw [hversions]
    decide

theorem switchVersions_ideal_iff_forkAtTen :
    switchVersions forkEnv [altFirstEntry] (plainState forkAtTen forkChain) ≠ [] ∧
      ∀ checked ∈ switchVersions forkEnv [altFirstEntry] (plainState forkAtTen forkChain),
        checked.2 = getIdealVersion forkEnv.fork forkAtTen checked.1 := by
  refine ⟨by decide, ?_⟩
  apply (switchVersions_ideal_iff table_forkAtTen.1 table_forkAtTen.2 rfl rfl [] (by
    decide)).mpr
  decide

end XrCoin.Blockchain

import Mathlib
import XrCoin.Forks.Schedule
import XrCoin.Cryptonote.Hashes
import XrCoin.Cryptonote.NextDifficulty

/-!
The difficulty of a block on top of the main chain and of one on top of an
alternative chain. The two collect the same window of ancestors, but the second one
takes the rules of the version that the main chain is at.
-/

namespace XrCoin.Blockchain

open Cryptonote Forks

/-! ### The model -/

structure BlockInfo where
  header : BlockHeader
  cumulativeDifficulty : Difficulty
  deriving DecidableEq

structure BlockExtendedInfo where
  bl : Block
  height : ℕ
  cumulativeDifficulty : Difficulty
  deriving DecidableEq

def BlockExtendedInfo.info (bei : BlockExtendedInfo) : BlockInfo :=
  ⟨bei.bl.toBlockHeader, bei.cumulativeDifficulty⟩

variable (cfg : DifficultyConfig)

def difficultyTarget (version : UInt8) (height : ℕ) : ℕ :=
  if version < 2 ∧ height < cfg.hardfork1Height then cfg.difficultyTargetV1
  else cfg.difficultyTargetV2

def windowDifficulty (heights : List Params) (window : List BlockInfo) (target height : ℕ)
    (version : UInt8) : Difficulty :=
  nextDifficulty cfg (window.map fun e => e.header.timestamp)
    (window.map BlockInfo.cumulativeDifficulty) target height
    (getLastDiffResetHeight heights height) (getLastDiffResetValue heights height) version

def blocksWindow (chain : List BlockInfo) : List BlockInfo :=
  let offset := chain.length - min chain.length cfg.difficultyBlocksCount
  chain.drop (if offset = 0 then offset + 1 else offset)

/-- `get_difficulty_for_next_block`. The windows that it caches are overwritten by what
the database has and do not change the result. -/
def getDifficultyForNextBlock (fixedDifficulty : Difficulty) (hf : HardFork)
    (chain : List BlockInfo) : Difficulty :=
  if fixedDifficulty ≠ 0 then if chain.length ≠ 0 then fixedDifficulty else 1
  else
    windowDifficulty cfg hf.heights (blocksWindow cfg chain)
      (difficultyTarget cfg (getCurrentVersion hf) chain.length) chain.length
      (getCurrentVersion hf)

def mainChainStopOffset (altChain : List BlockExtendedInfo) (height : ℕ) : ℕ :=
  match altChain with
  | [] => height
  | front :: _ => front.height

/-- The blocks that `get_next_difficulty_for_alternative_chain` collects. -/
def alternativeWindow (main : List BlockInfo) (altChain : List BlockExtendedInfo)
    (height : ℕ) : List BlockInfo :=
  if altChain.length < cfg.difficultyBlocksCount then
    let stop := mainChainStopOffset altChain height
    let mainChainCount :=
      min (cfg.difficultyBlocksCount - min cfg.difficultyBlocksCount altChain.length) stop
    let mainChainStartOffset := stop - mainChainCount
    (main.take stop).drop
        (if mainChainStartOffset = 0 then mainChainStartOffset + 1 else mainChainStartOffset) ++
      altChain.map BlockExtendedInfo.info
  else (altChain.map BlockExtendedInfo.info).rtake cfg.difficultyBlocksCount

def getNextDifficultyForAlternativeChain (conf : HardForkConfig) (fixedDifficulty : Difficulty)
    (hf : HardFork) (main : List BlockInfo) (altChain : List BlockExtendedInfo) (height : ℕ) :
    Difficulty :=
  if fixedDifficulty ≠ 0 then if main.length ≠ 0 then fixedDifficulty else 1
  else
    windowDifficulty cfg hf.heights (alternativeWindow cfg main altChain height)
      (difficultyTarget cfg (getIdealVersion conf hf.heights height) height) height
      (getCurrentVersion hf)

/-! ### Agreement -/

/-- The ancestors below height `split` are in the main chain, those from there on in
the alternative chain. -/
structure Splits (split : ℕ) (ancestors main : List BlockInfo)
    (altChain : List BlockExtendedInfo) : Prop where
  split_pos : 1 ≤ split
  split_le : split ≤ ancestors.length
  main_le : split ≤ main.length
  main_take : main.take split = ancestors.take split
  alt_info : altChain.map BlockExtendedInfo.info = ancestors.drop split
  alt_height : ∀ front ∈ altChain.head?, front.height = split

variable {cfg} {split : ℕ} {ancestors main : List BlockInfo} {altChain : List BlockExtendedInfo}

theorem Splits.length_eq (h : Splits split ancestors main altChain) :
    split + altChain.length = ancestors.length := by
  have hlength := congrArg List.length h.alt_info
  have hle := h.split_le
  rw [List.length_map, List.length_drop] at hlength
  omega

/-- Both functions collect the same blocks. -/
theorem Splits.alternativeWindow (h : Splits split ancestors main altChain) :
    alternativeWindow cfg main altChain ancestors.length = blocksWindow cfg ancestors := by
  have hlength := h.length_eq
  have hpos := h.split_pos
  have hblocks := cfg.blocksCount_pos
  rw [Blockchain.alternativeWindow, blocksWindow]
  split
  · rename_i hshort
    have hstop : mainChainStopOffset altChain ancestors.length = split := by
      cases altChain with
      | nil => simpa [mainChainStopOffset] using hlength.symm
      | cons front rest => exact h.alt_height front rfl
    simp only [hstop]
    have hoffset : split - min (cfg.difficultyBlocksCount -
        min cfg.difficultyBlocksCount altChain.length) split =
        ancestors.length - min ancestors.length cfg.difficultyBlocksCount := by omega
    rw [hoffset, h.main_take, h.alt_info]
    have hbelow : (if ancestors.length - min ancestors.length cfg.difficultyBlocksCount = 0 then
        ancestors.length - min ancestors.length cfg.difficultyBlocksCount + 1
        else ancestors.length - min ancestors.length cfg.difficultyBlocksCount) ≤
        (ancestors.take split).length := by
      rw [List.length_take]
      split <;> omega
    rw [← List.drop_append_of_le_length hbelow, List.take_append_drop]
  · rename_i hlong
    have hoffset : ancestors.length - min ancestors.length cfg.difficultyBlocksCount ≠ 0 := by
      omega
    rw [if_neg hoffset, h.alt_info, List.rtake, List.length_drop, List.drop_drop]
    congr 1
    omega

variable (cfg) in
/-- The two versions make the same of some blocks behind the reset: windows with the same
time and the same work. -/
def SameWindows (version version' : UInt8) (timestamps : List UInt64)
    (cumulativeDifficulties : List Difficulty) : Prop :=
  windowSpan cfg version (cutLag cfg version timestamps) =
      windowSpan cfg version' (cutLag cfg version' timestamps) ∧
    windowWork cfg version (cutLag cfg version cumulativeDifficulties) =
      windowWork cfg version' (cutLag cfg version' cumulativeDifficulties)

theorem SameWindows.nextDifficulty {version version' : UInt8} {timestamps : List UInt64}
    {cumulativeDifficulties : List Difficulty} {height resetHeight : ℕ}
    (hlength : timestamps.length = cumulativeDifficulties.length)
    (h : SameWindows cfg version version' (afterReset height resetHeight timestamps)
      (afterReset height resetHeight cumulativeDifficulties))
    (target : ℕ) (resetValue : Difficulty) :
    nextDifficulty cfg timestamps cumulativeDifficulties target height resetHeight resetValue
        version =
      nextDifficulty cfg timestamps cumulativeDifficulties target height resetHeight resetValue
        version' := by
  have hwindow := cfg.two_le_window
  have hsame : (afterReset height resetHeight timestamps).length =
      (afterReset height resetHeight cumulativeDifficulties).length := by
    rw [length_afterReset, length_afterReset, hlength]
  rw [Cryptonote.nextDifficulty, Cryptonote.nextDifficulty]
  simp only [length_cutLag]
  generalize afterReset height resetHeight timestamps = times at h hsame ⊢
  generalize afterReset height resetHeight cumulativeDifficulties = works at h hsame ⊢
  by_cases hfew : times.length ≤ 1
  · have hmin : min times.length cfg.difficultyWindow ≤ 1 := by omega
    simp only [if_pos hmin]
  · obtain ⟨hspan, hwork⟩ := h
    have hlong : ∀ v, 2 ≤ (cutLag cfg v times).length := fun v => by
      rw [length_cutLag]
      omega
    have hcut : ∀ v, (cutLag cfg v times).length = (cutLag cfg v works).length := fun v => by
      rw [length_cutLag, length_cutLag, hsame]
    have hsummary : timeSpanAndWork cfg version (cutLag cfg version times)
          (cutLag cfg version works) =
        timeSpanAndWork cfg version' (cutLag cfg version' times) (cutLag cfg version' works) := by
      apply Prod.ext
      · rw [← UInt64.toNat_inj, timeSpan_eq cfg version _ (hlong version),
          timeSpan_eq cfg version' _ (hlong version'), hspan]
      · rw [work_eq cfg version (hcut version), work_eq cfg version' (hcut version'), hwork]
    rw [if_neg (by omega), if_neg (by omega), hsummary]

/-- Versions that both sort, or both do not, differ in nothing where the window holds all
blocks, nor where they have the same lag. -/
theorem sameWindows_of_sort {version version' : UInt8} {timestamps : List UInt64}
    {cumulativeDifficulties : List Difficulty}
    (hlength : timestamps.length = cumulativeDifficulties.length)
    (hsort : version < cfg.hfVersionRemoveDifficultySort ↔
      version' < cfg.hfVersionRemoveDifficultySort)
    (h : timestamps.length ≤ cfg.difficultyWindow ∨
      difficultyLag cfg version = difficultyLag cfg version') :
    SameWindows cfg version version' timestamps cumulativeDifficulties := by
  have hcut : cutLag cfg version timestamps = cutLag cfg version' timestamps ∧
      cutLag cfg version cumulativeDifficulties =
        cutLag cfg version' cumulativeDifficulties := by
    rcases h with hshort | hlag
    · rw [cutLag_of_le hshort, cutLag_of_le hshort, cutLag_of_le (hlength ▸ hshort),
        cutLag_of_le (hlength ▸ hshort)]
      exact ⟨rfl, rfl⟩
    · rw [cutLag, cutLag, cutLag, cutLag, hlag]
      exact ⟨rfl, rfl⟩
  have hrange : workRange cfg version = workRange cfg version' := by
    funext length
    rw [workRange, workRange]
    simp only [hsort]
  have htimes : orderedTimes cfg version = orderedTimes cfg version' := by
    funext times
    rw [orderedTimes, orderedTimes]
    simp only [hsort]
  refine ⟨?_, ?_⟩
  · rw [windowSpan, windowSpan, hcut.1, hrange, htimes]
  · rw [windowWork, windowWork, hcut.2, hrange]

theorem getCurrentVersion_stateAt {conf : HardForkConfig} {heights : List Params}
    (htable : Table heights) (hzero : ZeroThresholds heights) (blocks : List BlockHeader)
    (height : ℕ) :
    getCurrentVersion (stateAt conf heights blocks height) = scheduledVersion heights height := by
  show versionAt heights (forkIndexAt conf heights blocks height) = _
  rw [htable.forkIndexAt hzero, scheduledVersion]

/-- The blocks that both functions look at, behind the last reset. -/
def keptBlocks (cfg : DifficultyConfig) (heights : List Params) (ancestors : List BlockInfo) :
    List BlockInfo :=
  afterReset ancestors.length (getLastDiffResetHeight heights ancestors.length)
    (blocksWindow cfg ancestors)

theorem map_afterReset {α β : Type} (f : α → β) (height resetHeight : ℕ) (blocks : List α) :
    (afterReset height resetHeight blocks).map f =
      afterReset height resetHeight (blocks.map f) := by
  rw [afterReset, afterReset, List.length_map]
  split
  · exact List.map_drop
  · rfl

/-- The difficulty of a block on top of an alternative chain is the one that it would
have on the main chain, if the version of the current main chain makes the same of the
blocks as that of its own height, and the ideal version has the target of the latter. -/
theorem alternativeDifficulty_agrees {conf : HardForkConfig} {heights : List Params}
    (htable : Table heights) (hzero : ZeroThresholds heights)
    (hsplits : Splits split ancestors main altChain) {fixedDifficulty : Difficulty}
    (hrules : fixedDifficulty ≠ 0 ∨ (keptBlocks cfg heights ancestors).length ≤ 1 ∨
      SameWindows cfg (scheduledVersion heights main.length)
        (scheduledVersion heights ancestors.length)
        ((keptBlocks cfg heights ancestors).map fun e => e.header.timestamp)
        ((keptBlocks cfg heights ancestors).map BlockInfo.cumulativeDifficulty) ∧
      difficultyTarget cfg (getIdealVersion conf heights ancestors.length) ancestors.length =
        difficultyTarget cfg (scheduledVersion heights ancestors.length) ancestors.length) :
    getNextDifficultyForAlternativeChain cfg conf fixedDifficulty
        (stateAt conf heights (main.map BlockInfo.header) main.length) main altChain
        ancestors.length =
      getDifficultyForNextBlock cfg fixedDifficulty
        (stateAt conf heights (ancestors.map BlockInfo.header) ancestors.length) ancestors := by
  have hmain : main.length ≠ 0 := by
    have hle := hsplits.main_le
    have hpos := hsplits.split_pos
    omega
  have hancestors : ancestors.length ≠ 0 := by
    have hle := hsplits.split_le
    have hpos := hsplits.split_pos
    omega
  rw [getNextDifficultyForAlternativeChain, getDifficultyForNextBlock]
  by_cases hfixed : fixedDifficulty ≠ 0
  · rw [if_pos hfixed, if_pos hfixed, if_pos hmain, if_pos hancestors]
  · have hwindows := hrules.resolve_left hfixed
    rw [if_neg hfixed, if_neg hfixed, hsplits.alternativeWindow,
      getCurrentVersion_stateAt htable hzero, getCurrentVersion_stateAt htable hzero]
    show windowDifficulty cfg heights (blocksWindow cfg ancestors)
      (difficultyTarget cfg (getIdealVersion conf heights ancestors.length) ancestors.length) _ _ =
        windowDifficulty cfg heights _ _ _ _
    have hlengths : ((blocksWindow cfg ancestors).map fun e => e.header.timestamp).length =
        ((blocksWindow cfg ancestors).map BlockInfo.cumulativeDifficulty).length := by
      rw [List.length_map, List.length_map]
    rw [keptBlocks, map_afterReset, map_afterReset] at hwindows
    rcases hwindows with hfew | ⟨hsame, htarget⟩
    · -- the target does not matter either
      rw [windowDifficulty, windowDifficulty, nextDifficulty, nextDifficulty]
      simp only [length_cutLag]
      rw [← List.length_map fun e : BlockInfo => e.header.timestamp, map_afterReset] at hfew
      simp only [if_pos (min_le_of_left_le hfew)]
    · rw [htarget]
      exact hsame.nextDifficulty hlengths _ _

/-! ### A fork above an alternative block -/

/-- The values of the constants that the comments of the source go by, with the
timestamps sorted below version 9. -/
def sampleDifficultyConfig : DifficultyConfig :=
  ⟨720, 15, 15, 60, 735, 240, 240, 9, 0, 0, 1, by decide, by decide, by decide⟩

def plainConf : HardForkConfig := ⟨1, 10080, 80, by decide, defaultThreshold_le⟩

def forkAtTen : List Params := [⟨1, 0, 0, 1, 0⟩, ⟨9, 0, 10, 2, 0⟩]

def timedInfo (version : UInt8) (timestamp : UInt64) (cumulativeDifficulty : Difficulty) :
    BlockInfo :=
  ⟨⟨version, version, timestamp, nullHash, 0⟩, cumulativeDifficulty⟩

/-- Five blocks, of which the last but three is ahead of time. -/
def earlyAncestors : List BlockInfo :=
  [timedInfo 1 0 1, timedInfo 1 1000 2, timedInfo 1 100 3, timedInfo 1 200 4, timedInfo 1 50 5]

def earlyAltChain : List BlockExtendedInfo :=
  [⟨⟨⟨1, 1, 100, nullHash, 0⟩, sampleMinerTx, .nil⟩, 2, 3⟩,
    ⟨⟨⟨1, 1, 200, nullHash, 0⟩, sampleMinerTx, .nil⟩, 3, 4⟩,
    ⟨⟨⟨1, 1, 50, nullHash, 0⟩, sampleMinerTx, .nil⟩, 4, 5⟩]

/-- A main chain with the first two of them that has `n` more blocks. -/
def laterMain (n : ℕ) : List BlockInfo :=
  earlyAncestors.take 2 ++ List.replicate n (timedInfo 1 2000 6)

theorem splits_early (n : ℕ) : Splits 2 earlyAncestors (laterMain n) earlyAltChain where
  split_pos := by decide
  split_le := by decide
  main_le := by simp [laterMain, earlyAncestors]
  main_take := by simp [laterMain, earlyAncestors]
  alt_info := by decide
  alt_height := by
    intro front hfront
    obtain rfl := Option.some.inj hfront
    rfl

theorem table_forkAtTen : Table forkAtTen ∧ ZeroThresholds forkAtTen := by
  refine ⟨⟨by decide, ?_⟩, ?_⟩
  · unfold Ordered
    decide
  · unfold ZeroThresholds
    decide

/-- Once the main chain is at height 10, the block at height 5 is given another
difficulty than its ancestors give it. -/
theorem early_difficulty_differs :
    (Table forkAtTen ∧ ZeroThresholds forkAtTen) ∧
      Splits 2 earlyAncestors (laterMain 8) earlyAltChain ∧
      getNextDifficultyForAlternativeChain sampleDifficultyConfig plainConf 0
          (stateAt plainConf forkAtTen ((laterMain 8).map BlockInfo.header) (laterMain 8).length)
          (laterMain 8) earlyAltChain earlyAncestors.length = 720 ∧
      getDifficultyForNextBlock sampleDifficultyConfig 0
          (stateAt plainConf forkAtTen (earlyAncestors.map BlockInfo.header)
            earlyAncestors.length) earlyAncestors = 1 := by
  refine ⟨table_forkAtTen, splits_early 8, ?_, ?_⟩
  · decide
  · decide

/-- Below the fork the version of the main chain sorts too, and on top of two blocks it does
not matter. -/
theorem alternativeDifficulty_agrees_early :
    getNextDifficultyForAlternativeChain sampleDifficultyConfig plainConf 0
        (stateAt plainConf forkAtTen ((laterMain 7).map BlockInfo.header) (laterMain 7).length)
        (laterMain 7) earlyAltChain earlyAncestors.length =
      getDifficultyForNextBlock sampleDifficultyConfig 0
        (stateAt plainConf forkAtTen (earlyAncestors.map BlockInfo.header)
          earlyAncestors.length) earlyAncestors ∧
    getNextDifficultyForAlternativeChain sampleDifficultyConfig plainConf 0
        (stateAt plainConf forkAtTen ((laterMain 8).map BlockInfo.header) (laterMain 8).length)
        (laterMain 8) [] (earlyAncestors.take 2).length =
      getDifficultyForNextBlock sampleDifficultyConfig 0
        (stateAt plainConf forkAtTen ((earlyAncestors.take 2).map BlockInfo.header)
          (earlyAncestors.take 2).length) (earlyAncestors.take 2) := by
  have hmain : scheduledVersion forkAtTen (laterMain 7).length = 1 := by decide
  have hblock : scheduledVersion forkAtTen earlyAncestors.length = 1 := by decide
  have hsplits : Splits 2 (earlyAncestors.take 2) (laterMain 8) [] :=
    ⟨by decide, by decide, by decide, by decide, rfl, by simp⟩
  refine ⟨alternativeDifficulty_agrees table_forkAtTen.1 table_forkAtTen.2 (splits_early 7)
    (.inr (.inr ⟨?_, by decide⟩)),
    alternativeDifficulty_agrees table_forkAtTen.1 table_forkAtTen.2 hsplits
      (.inr (.inl (by decide)))⟩
  rw [hmain, hblock]
  exact sameWindows_of_sort (by rw [List.length_map, List.length_map]) Iff.rfl (.inr rfl)

end XrCoin.Blockchain

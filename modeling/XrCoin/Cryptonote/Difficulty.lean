import Mathlib

/-!
The difficulty of the next block, `next_difficulty`, from the timestamps and the
cumulative difficulties of the last blocks.
-/

namespace XrCoin.Cryptonote

/-- `difficulty_type`, an unsigned integer of 128 bits that wraps. -/
abbrev Difficulty : Type := BitVec 128

/-- The constants of the difficulty, which the repository does not define. The
relations between them are those that `next_difficulty` asserts. -/
structure DifficultyConfig where
  difficultyWindow : ℕ
  difficultyLagV1 : ℕ
  difficultyLagV9 : ℕ
  difficultyCut : ℕ
  difficultyBlocksCount : ℕ
  difficultyTargetV1 : ℕ
  difficultyTargetV2 : ℕ
  hfVersionRemoveDifficultySort : UInt8
  hardfork1Height : ℕ
  hardfork1DiffadjWindow : ℕ
  hardfork1Diffadj : ℕ
  two_le_window : 2 ≤ difficultyWindow
  cut_le : 2 * difficultyCut ≤ difficultyWindow - 2
  blocksCount_pos : 0 < difficultyBlocksCount

variable (cfg : DifficultyConfig)

def difficultyLag (version : UInt8) : ℕ :=
  if version < 9 then cfg.difficultyLagV1 else cfg.difficultyLagV9

/-- Whether the window reaches back behind the last reset of the difficulty. -/
def isDiffReset (length height lastDiffResetHeight : ℕ) : Bool :=
  lastDiffResetHeight ≠ 0 ∧ lastDiffResetHeight ≤ height ∧ height - lastDiffResetHeight < length

/-- The part of the window behind the last reset is ignored. -/
def afterReset {α : Type} (height lastDiffResetHeight : ℕ) (window : List α) : List α :=
  if isDiffReset window.length height lastDiffResetHeight then
    window.drop (window.length - (height - lastDiffResetHeight))
  else window

def cutLag {α : Type} (version : UInt8) (window : List α) : List α :=
  if cfg.difficultyWindow < window.length then
    let windowStart :=
      if cfg.difficultyWindow + difficultyLag cfg version ≤ window.length then
        window.length - cfg.difficultyWindow - difficultyLag cfg version
      else 0
    (window.drop windowStart).take cfg.difficultyWindow
  else window

def cutRange (length : ℕ) : ℕ × ℕ :=
  let kept := cfg.difficultyWindow - 2 * cfg.difficultyCut
  if length ≤ kept then (0, length)
  else
    let cutBegin := (length - kept + 1) / 2
    (cutBegin, cutBegin + kept)

/-- The time span and the work of the window, with the timestamps sorted in the old
versions only. -/
def timeSpanAndWork (version : UInt8) (timestamps : List UInt64)
    (cumulativeDifficulties : List Difficulty) : UInt64 × Difficulty :=
  if version < cfg.hfVersionRemoveDifficultySort then
    let sorted := timestamps.insertionSort (· ≤ ·)
    let cut := cutRange cfg timestamps.length
    let span := sorted.getD (cut.2 - 1) 0 - sorted.getD cut.1 0
    (if span = 0 then 1 else span,
      cumulativeDifficulties.getD (cut.2 - 1) 0 - cumulativeDifficulties.getD cut.1 0)
  else
    let front := timestamps.headD 0
    let back := timestamps.getLastD 0
    (if front < back then back - front else 1,
      cumulativeDifficulties.getLastD 0 - cumulativeDifficulties.headD 0)

/-- Arithmetic of `uint256_t`, which wraps. -/
def uint256 (n : ℕ) : ℕ := n % 2 ^ 256

/-- The difficulty for a time span and work, or 0 when it does not fit. -/
def scaledDifficulty (timeSpan : UInt64) (totalWork : Difficulty) (targetSeconds height : ℕ) :
    Difficulty :=
  let res := uint256 (totalWork.toNat * targetSeconds + timeSpan.toNat - 1) / timeSpan.toNat
  let res :=
    if cfg.hardfork1Height ≤ height ∧ height < cfg.hardfork1Height + cfg.hardfork1DiffadjWindow then
      uint256 (res + uint256 (res *
        (cfg.hardfork1Height + cfg.hardfork1DiffadjWindow - height) * (cfg.hardfork1Diffadj - 1)) /
          cfg.hardfork1DiffadjWindow)
    else res
  if 2 ^ 128 ≤ res then 0 else BitVec.ofNat 128 res

def nextDifficulty (timestamps : List UInt64) (cumulativeDifficulties : List Difficulty)
    (targetSeconds height lastDiffResetHeight : ℕ) (lastDiffResetValue : Difficulty)
    (version : UInt8) : Difficulty :=
  let timestamps' := cutLag cfg version (afterReset height lastDiffResetHeight timestamps)
  let cumulativeDifficulties' :=
    cutLag cfg version (afterReset height lastDiffResetHeight cumulativeDifficulties)
  if timestamps'.length ≤ 1 then
    if isDiffReset timestamps.length height lastDiffResetHeight then lastDiffResetValue else 1
  else
    let spanAndWork := timeSpanAndWork cfg version timestamps' cumulativeDifficulties'
    scaledDifficulty cfg spanAndWork.1 spanAndWork.2 targetSeconds height

end XrCoin.Cryptonote

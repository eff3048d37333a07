import Mathlib
import XrCoin.Cryptonote.Difficulty

/-!
Which blocks `next_difficulty` looks at, and what it makes of them.

The blocks below the last reset are ignored. What is left is used as a whole when the window holds
it. Otherwise the window ends at the lag, or as close to it as there are blocks in front. The work
and the time of the window give the difficulty by a division that rounds up.
-/

namespace XrCoin.Cryptonote

variable (cfg : DifficultyConfig)

/-! ### The window -/

def windowStart (version : UInt8) (length : ℕ) : ℕ :=
  length - cfg.difficultyWindow - difficultyLag cfg version

def laggedWindow {α : Type} (version : UInt8) (blocks : List α) : List α :=
  (blocks.rdrop (difficultyLag cfg version)).rtake cfg.difficultyWindow

def selectedWindow {α : Type} (version : UInt8) (height resetHeight : ℕ) (blocks : List α) :
    List α :=
  cutLag cfg version (afterReset height resetHeight blocks)

def workRange (version : UInt8) (length : ℕ) : ℕ × ℕ :=
  if version < cfg.hfVersionRemoveDifficultySort then
    ((cutRange cfg length).1, (cutRange cfg length).2 - 1)
  else (0, length - 1)

variable {cfg} {α : Type} {version : UInt8} {height resetHeight : ℕ}

theorem cutLag_of_le {blocks : List α} (h : blocks.length ≤ cfg.difficultyWindow) :
    cutLag cfg version blocks = blocks := by
  rw [cutLag, if_neg (by omega)]

/-- With too few blocks in front the window starts at the first one. -/
theorem cutLag_of_lt {blocks : List α} (h : cfg.difficultyWindow < blocks.length) :
    cutLag cfg version blocks =
        (blocks.drop (windowStart cfg version blocks.length)).take cfg.difficultyWindow ∧
      windowStart cfg version blocks.length + cfg.difficultyWindow ≤ blocks.length := by
  rw [cutLag, if_pos h, windowStart]
  constructor
  · split
    · rfl
    · rename_i hshort
      rw [show blocks.length - cfg.difficultyWindow - difficultyLag cfg version = 0 by omega]
  · omega

/-- With enough blocks in front the window ends at the lag. -/
theorem cutLag_of_lag {blocks : List α}
    (h : cfg.difficultyWindow + difficultyLag cfg version ≤ blocks.length) :
    cutLag cfg version blocks = laggedWindow cfg version blocks := by
  rw [laggedWindow, List.rtake, List.rdrop, List.length_take]
  by_cases hlt : cfg.difficultyWindow < blocks.length
  · rw [(cutLag_of_lt hlt).1, windowStart, List.drop_take]
    congr 1
    · omega
    · congr 1
      omega
  · rw [cutLag_of_le (by omega), List.take_of_length_le (by omega),
      show min (blocks.length - difficultyLag cfg version) blocks.length - cfg.difficultyWindow = 0
        by omega, List.drop_zero]

variable (version) in
theorem length_cutLag (blocks : List α) :
    (cutLag cfg version blocks).length = min blocks.length cfg.difficultyWindow := by
  by_cases hlt : cfg.difficultyWindow < blocks.length
  · obtain ⟨hcut, hle⟩ := cutLag_of_lt hlt
    rw [hcut, List.length_take, List.length_drop]
    omega
  · rw [cutLag_of_le (by omega)]
    omega

theorem length_afterReset (blocks : List α) :
    (afterReset height resetHeight blocks).length =
      if isDiffReset blocks.length height resetHeight then height - resetHeight
      else blocks.length := by
  rw [afterReset]
  split
  · rename_i hreset
    simp only [isDiffReset, decide_eq_true_eq] at hreset
    rw [List.length_drop]
    omega
  · rfl

variable (cfg version) in
theorem workRange_bounds {length : ℕ} (htwo : 2 ≤ length) :
    (workRange cfg version length).1 < (workRange cfg version length).2 ∧
      (workRange cfg version length).2 < length := by
  have hcut := cfg.cut_le
  have hwindow := cfg.two_le_window
  rw [workRange]
  split
  · rw [cutRange]
    simp only
    split <;> simp only <;> omega
  · simp only
    omega

/-! ### Time and work -/

variable (cfg) in
def orderedTimes (version : UInt8) (times : List UInt64) : List UInt64 :=
  if version < cfg.hfVersionRemoveDifficultySort then times.insertionSort (· ≤ ·) else times

variable (cfg) in
/-- The time of a window, which is never zero. -/
def windowSpan (version : UInt8) (times : List UInt64) : ℕ :=
  max 1 (((orderedTimes cfg version times).getD (workRange cfg version times.length).2 0).toNat -
    ((orderedTimes cfg version times).getD (workRange cfg version times.length).1 0).toNat)

variable (cfg) in
def windowWork (version : UInt8) (works : List Difficulty) : Difficulty :=
  works.getD (workRange cfg version works.length).2 0 -
    works.getD (workRange cfg version works.length).1 0

theorem headD_eq_getD (l : List α) (a : α) : l.headD a = l.getD 0 a := by
  cases l <;> rfl

theorem getLastD_eq_getD (l : List α) (a : α) : l.getLastD a = l.getD (l.length - 1) a := by
  rw [List.getLastD_eq_getLast?, List.getLast?_eq_getElem?, List.getD_eq_getElem?_getD]

/-- A difference of words, or one where it is not positive. -/
theorem toNat_span (front back : UInt64) :
    (if front < back then back - front else 1).toNat = max 1 (back.toNat - front.toNat) := by
  split
  · rename_i hlt
    rw [UInt64.toNat_sub_of_le _ _ (UInt64.le_of_lt hlt)]
    rw [UInt64.lt_iff_toNat_lt] at hlt
    omega
  · rename_i hlt
    rw [UInt64.lt_iff_toNat_lt] at hlt
    rw [UInt64.toNat_one]
    omega

theorem toNat_span_of_le {front back : UInt64} (hle : front ≤ back) :
    (if back - front = 0 then 1 else back - front).toNat = max 1 (back.toNat - front.toNat) := by
  have hsub := UInt64.toNat_sub_of_le back front hle
  split
  · rename_i hzero
    rw [hzero] at hsub
    rw [← hsub]
    rfl
  · rename_i hzero
    rw [← UInt64.toNat_inj, UInt64.toNat_zero] at hzero
    omega

theorem getD_sorted_le (times : List UInt64) {i j : ℕ} (hij : i < j) (hj : j < times.length) :
    (times.insertionSort (· ≤ ·)).getD i 0 ≤ (times.insertionSort (· ≤ ·)).getD j 0 := by
  have hlength := List.length_insertionSort (· ≤ ·) times
  have hsorted : (times.insertionSort (· ≤ ·)).Pairwise (· ≤ ·) :=
    List.pairwise_insertionSort (· ≤ ·) times
  rw [List.getD_eq_getElem _ _ (by omega), List.getD_eq_getElem _ _ (by omega)]
  exact List.pairwise_iff_getElem.mp hsorted i j _ _ hij

variable (cfg version) in
theorem timeSpan_eq {times : List UInt64} (works : List Difficulty) (htwo : 2 ≤ times.length) :
    (timeSpanAndWork cfg version times works).1.toNat = windowSpan cfg version times := by
  obtain ⟨hlt, hlast⟩ := workRange_bounds cfg version htwo
  rw [timeSpanAndWork, windowSpan, orderedTimes]
  rw [workRange] at hlt hlast ⊢
  split
  · rename_i hsort
    rw [if_pos hsort] at hlt hlast
    exact toNat_span_of_le (getD_sorted_le times hlt hlast)
  · simp only [headD_eq_getD, getLastD_eq_getD]
    exact toNat_span _ _

variable (cfg version) in
theorem work_eq {times : List UInt64} {works : List Difficulty}
    (hlength : times.length = works.length) :
    (timeSpanAndWork cfg version times works).2 = windowWork cfg version works := by
  rw [timeSpanAndWork, windowWork, workRange, hlength]
  split
  · rfl
  · simp only [headD_eq_getD, getLastD_eq_getD]

variable (cfg version) in
/-- The work of strictly increasing difficulties is a positive difference. -/
theorem windowWork_pos {works : List Difficulty} (htwo : 2 ≤ works.length)
    (hincreasing : works.Pairwise (· < ·)) :
    0 < (windowWork cfg version works).toNat ∧
      (windowWork cfg version works).toNat =
        (works.getD (workRange cfg version works.length).2 0).toNat -
          (works.getD (workRange cfg version works.length).1 0).toNat := by
  obtain ⟨hlt, hlast⟩ := workRange_bounds cfg version htwo
  have hless : works.getD (workRange cfg version works.length).1 0 <
      works.getD (workRange cfg version works.length).2 0 := by
    rw [List.getD_eq_getElem _ _ (by omega), List.getD_eq_getElem _ _ hlast]
    exact List.pairwise_iff_getElem.mp hincreasing _ _ _ _ hlt
  rw [windowWork, BitVec.toNat_sub_of_le (BitVec.le_of_lt hless)]
  rw [BitVec.lt_def] at hless
  exact ⟨by omega, rfl⟩

/-! ### The result -/

variable (cfg) in
def adjustedDifficulty (height n : ℕ) : ℕ :=
  if cfg.hardfork1Height ≤ height ∧ height < cfg.hardfork1Height + cfg.hardfork1DiffadjWindow then
    n + n * (cfg.hardfork1Height + cfg.hardfork1DiffadjWindow - height) *
      (cfg.hardfork1Diffadj - 1) / cfg.hardfork1DiffadjWindow
  else n

/-- The constants of the adjustment leave room for it in 256 bits. -/
def DifficultyConfig.AdjustmentFits (cfg : DifficultyConfig) : Prop :=
  cfg.hardfork1DiffadjWindow * (cfg.hardfork1Diffadj - 1) < 2 ^ 63

theorem uint256_of_lt {n : ℕ} (h : n < 2 ^ 256) : uint256 n = n := Nat.mod_eq_of_lt h

/-- The quotient is rounded up and adjusted without any wrap-around. -/
theorem scaledDifficulty_eq (hadjust : cfg.AdjustmentFits) {span : UInt64} (work : Difficulty)
    {target : ℕ} (height : ℕ) (htarget : target < 2 ^ 64) (hspan : 0 < span.toNat) :
    scaledDifficulty cfg span work target height =
      let n := adjustedDifficulty cfg height (work.toNat * target ⌈/⌉ span.toNat)
      if 2 ^ 128 ≤ n then 0 else BitVec.ofNat 128 n := by
  have hproduct : work.toNat * target < 2 ^ 192 :=
    calc work.toNat * target < 2 ^ 128 * 2 ^ 64 := Nat.mul_lt_mul'' work.isLt htarget
      _ = 2 ^ 192 := by decide
  have hspanLt := span.toNat_lt
  have hnumerator : uint256 (work.toNat * target + span.toNat - 1) =
      work.toNat * target + span.toNat - 1 := uint256_of_lt (by omega)
  rw [Nat.ceilDiv_eq_add_pred_div, scaledDifficulty, hnumerator]
  generalize hn : (work.toNat * target + span.toNat - 1) / span.toNat = n
  have hle : n ≤ 2 ^ 192 := by
    rw [← hn, Nat.div_le_iff_le_mul_add_pred hspan]
    have hmul : 2 ^ 192 ≤ span.toNat * 2 ^ 192 := Nat.le_mul_of_pos_left _ hspan
    omega
  simp only [adjustedDifficulty]
  split
  · rename_i hrange
    have hfactor : (cfg.hardfork1Height + cfg.hardfork1DiffadjWindow - height) *
        (cfg.hardfork1Diffadj - 1) < 2 ^ 63 := by
      refine lt_of_le_of_lt (Nat.mul_le_mul_right _ ?_) hadjust
      omega
    have hscaled : n * (cfg.hardfork1Height + cfg.hardfork1DiffadjWindow - height) *
        (cfg.hardfork1Diffadj - 1) ≤ 2 ^ 255 := by
      rw [Nat.mul_assoc]
      calc n * _ ≤ 2 ^ 192 * 2 ^ 63 := Nat.mul_le_mul hle (Nat.le_of_lt hfactor)
        _ = 2 ^ 255 := by decide
    generalize n * (cfg.hardfork1Height + cfg.hardfork1DiffadjWindow - height) *
      (cfg.hardfork1Diffadj - 1) = scaled at hscaled ⊢
    have hquotient := Nat.div_le_self scaled cfg.hardfork1DiffadjWindow
    have hkept : uint256 scaled = scaled := uint256_of_lt (by omega)
    have hsum : uint256 (n + scaled / cfg.hardfork1DiffadjWindow) =
        n + scaled / cfg.hardfork1DiffadjWindow := uint256_of_lt (by omega)
    rw [hkept, hsum]
  · rfl

variable (cfg version height resetHeight) in
theorem pairwise_selectedWindow {r : α → α → Prop} {blocks : List α} (h : blocks.Pairwise r) :
    (selectedWindow cfg version height resetHeight blocks).Pairwise r := by
  have hkept : (afterReset height resetHeight blocks).Pairwise r := by
    rw [afterReset]
    split
    · exact h.sublist (List.drop_sublist _ _)
    · exact h
  rw [selectedWindow, cutLag]
  split
  · exact hkept.sublist ((List.take_sublist _ _).trans (List.drop_sublist _ _))
  · exact hkept

variable (cfg version height resetHeight) in
theorem length_selectedWindow {β : Type}
    {blocks : List α} {blocks' : List β} (h : blocks.length = blocks'.length) :
    (selectedWindow cfg version height resetHeight blocks).length =
      (selectedWindow cfg version height resetHeight blocks').length := by
  rw [selectedWindow, selectedWindow, length_cutLag, length_cutLag, length_afterReset,
    length_afterReset, h]

theorem le_max_one (n : ℕ) : 0 < max 1 n := by omega

theorem nextDifficulty_of_window (hadjust : cfg.AdjustmentFits) {timestamps : List UInt64}
    {cumulativeDifficulties : List Difficulty}
    (hlength : timestamps.length = cumulativeDifficulties.length) {target : ℕ}
    (htarget : target < 2 ^ 64) (resetValue : Difficulty)
    (htwo : 2 ≤ (selectedWindow cfg version height resetHeight timestamps).length) :
    nextDifficulty cfg timestamps cumulativeDifficulties target height resetHeight resetValue
        version =
      let times := selectedWindow cfg version height resetHeight timestamps
      let works := selectedWindow cfg version height resetHeight cumulativeDifficulties
      let n := adjustedDifficulty cfg height
        ((windowWork cfg version works).toNat * target ⌈/⌉ windowSpan cfg version times)
      if 2 ^ 128 ≤ n then 0 else BitVec.ofNat 128 n := by
  have hspan := timeSpan_eq cfg version
    (selectedWindow cfg version height resetHeight cumulativeDifficulties) htwo
  have hwork := work_eq cfg version (length_selectedWindow cfg version height resetHeight hlength)
  have hpos : 0 < (timeSpanAndWork cfg version
      (selectedWindow cfg version height resetHeight timestamps)
      (selectedWindow cfg version height resetHeight cumulativeDifficulties)).1.toNat := by
    rw [hspan]
    exact le_max_one _
  have hscaled := scaledDifficulty_eq hadjust (timeSpanAndWork cfg version
      (selectedWindow cfg version height resetHeight timestamps)
      (selectedWindow cfg version height resetHeight cumulativeDifficulties)).2 height htarget hpos
  rw [hspan, hwork] at hscaled
  rw [nextDifficulty]
  simp only [selectedWindow] at htwo hscaled hwork ⊢
  rw [if_neg (by omega), hwork]
  exact hscaled

theorem adjustedDifficulty_pos {n : ℕ} (h : 0 < n) : 0 < adjustedDifficulty cfg height n := by
  rw [adjustedDifficulty]
  split
  · exact Nat.add_pos_left h _
  · exact h

theorem ceilDiv_pos {a b : ℕ} (ha : 0 < a) (hb : 0 < b) : 0 < a ⌈/⌉ b := by
  rw [Nat.ceilDiv_eq_add_pred_div]
  exact Nat.div_pos (by omega) hb

/-- The difficulty of the next block. The window is all that is left after a reset where the window
is long enough, the first blocks of it where the lag is not, and ends at the lag otherwise. -/
theorem nextDifficulty_correct (hadjust : cfg.AdjustmentFits) {timestamps : List UInt64}
    {cumulativeDifficulties : List Difficulty}
    (hlength : timestamps.length = cumulativeDifficulties.length) {target : ℕ}
    (htarget : 0 < target ∧ target < 2 ^ 64) (height resetHeight : ℕ) (resetValue : Difficulty)
    (version : UInt8) :
    let kept := afterReset height resetHeight timestamps
    let times := selectedWindow cfg version height resetHeight timestamps
    let works := selectedWindow cfg version height resetHeight cumulativeDifficulties
    let range := workRange cfg version times.length
    let n := adjustedDifficulty cfg height
      ((windowWork cfg version works).toNat * target ⌈/⌉ windowSpan cfg version times)
    let result := nextDifficulty cfg timestamps cumulativeDifficulties target height resetHeight
      resetValue version
    -- the blocks that are used
    (isDiffReset timestamps.length height resetHeight →
      height - resetHeight ≤ timestamps.length ∧ kept.length = height - resetHeight) ∧
    (kept.length ≤ cfg.difficultyWindow → times = kept) ∧
    (cfg.difficultyWindow < kept.length →
      windowStart cfg version kept.length + cfg.difficultyWindow ≤ kept.length ∧
        times = (kept.drop (windowStart cfg version kept.length)).take cfg.difficultyWindow) ∧
    (cfg.difficultyWindow + difficultyLag cfg version ≤ kept.length →
      times = laggedWindow cfg version kept) ∧
    works.length = times.length ∧ times.length ≤ cfg.difficultyWindow ∧
    -- the result
    (times.length ≤ 1 →
      result = if isDiffReset timestamps.length height resetHeight then resetValue else 1) ∧
    (2 ≤ times.length →
      range.1 < range.2 ∧ range.2 < times.length ∧ 0 < windowSpan cfg version times ∧
        (cumulativeDifficulties.Pairwise (· < ·) →
          0 < (windowWork cfg version works).toNat ∧
            (windowWork cfg version works).toNat =
              (works.getD range.2 0).toNat - (works.getD range.1 0).toNat) ∧
        result = (if 2 ^ 128 ≤ n then 0 else BitVec.ofNat 128 n) ∧
        (0 < (windowWork cfg version works).toNat → (result = 0 ↔ 2 ^ 128 ≤ n))) := by
  intro kept times works range n result
  have hworks : works.length = times.length :=
    (length_selectedWindow cfg version height resetHeight hlength).symm
  have hsize : times.length ≤ cfg.difficultyWindow := by
    show (selectedWindow cfg version height resetHeight timestamps).length ≤ _
    rw [selectedWindow, length_cutLag]
    exact Nat.min_le_right _ _
  refine ⟨?_, cutLag_of_le, ?_, cutLag_of_lag, hworks, hsize, ?_, ?_⟩
  · intro hreset
    have hkept : kept.length = height - resetHeight := by
      show (afterReset height resetHeight timestamps).length = _
      rw [length_afterReset, if_pos hreset]
    simp only [isDiffReset, decide_eq_true_eq] at hreset
    exact ⟨by omega, hkept⟩
  · intro hlong
    exact ⟨(cutLag_of_lt hlong).2, (cutLag_of_lt hlong).1⟩
  · intro hshort
    show nextDifficulty cfg timestamps cumulativeDifficulties target height resetHeight resetValue
      version = _
    rw [nextDifficulty]
    exact if_pos hshort
  · intro htwo
    have hresult : result = if 2 ^ 128 ≤ n then 0 else BitVec.ofNat 128 n :=
      nextDifficulty_of_window hadjust hlength htarget.2 resetValue htwo
    obtain ⟨hlt, hlast⟩ := workRange_bounds cfg version htwo
    have hspan : 0 < windowSpan cfg version times := le_max_one _
    refine ⟨hlt, hlast, hspan, ?_, hresult, ?_⟩
    · intro hincreasing
      have hwindow : works.Pairwise (· < ·) :=
        pairwise_selectedWindow cfg version height resetHeight hincreasing
      have hrange : range = workRange cfg version works.length := by rw [hworks]
      rw [hrange]
      exact windowWork_pos cfg version (hworks ▸ htwo) hwindow
    · intro hwork
      have hn : 0 < n := adjustedDifficulty_pos (ceilDiv_pos (Nat.mul_pos hwork htarget.1) hspan)
      rw [hresult]
      split
      · rename_i hlarge
        exact iff_of_true rfl hlarge
      · rename_i hfits
        have hnat : (BitVec.ofNat 128 n).toNat = n := by
          rw [BitVec.toNat_ofNat]
          exact Nat.mod_eq_of_lt (Nat.not_le.mp hfits)
        constructor
        · intro hzero
          rw [hzero] at hnat
          exact absurd hnat.symm (Nat.ne_of_gt hn)
        · exact fun h => absurd h hfits

/-! ### A chain that is shorter than the window and the lag -/

def lagConfig : DifficultyConfig where
  difficultyWindow := 3
  difficultyLagV1 := 1
  difficultyLagV9 := 1
  difficultyCut := 0
  difficultyBlocksCount := 4
  difficultyTargetV1 := 60
  difficultyTargetV2 := 60
  hfVersionRemoveDifficultySort := 3
  hardfork1Height := 0
  hardfork1DiffadjWindow := 0
  hardfork1Diffadj := 1
  two_le_window := by decide
  cut_le := by decide
  blocksCount_pos := by decide

/-- All three blocks are used, and not only those in front of the lag. -/
theorem nextDifficulty_without_lag :
    nextDifficulty lagConfig [0, 10, 40] [1, 2, 4] 60 4 0 0 9 = 5 ∧
      laggedWindow lagConfig 9 ([0, 10, 40] : List UInt64) = [0, 10] ∧
      laggedWindow lagConfig 9 ([1, 2, 4] : List Difficulty) = [1, 2] ∧
      (2 - 1) * 60 ⌈/⌉ (10 - 0) = 6 := by
  refine ⟨by decide, by decide, by decide, ?_⟩
  rw [Nat.ceilDiv_eq_add_pred_div]

/-- Five blocks, of which the window leaves out the first and the last. -/
theorem nextDifficulty_with_lag :
    nextDifficulty lagConfig [0, 10, 40, 100, 130] [1, 2, 4, 8, 16] 60 6 0 0 9 = 4 ∧
      selectedWindow lagConfig 9 6 0 ([0, 10, 40, 100, 130] : List UInt64) =
        laggedWindow lagConfig 9 (afterReset 6 0 [0, 10, 40, 100, 130]) := by
  have hadjust : lagConfig.AdjustmentFits := by
    show 0 * (1 - 1) < 2 ^ 63
    decide
  have hlength : ([0, 10, 40, 100, 130] : List UInt64).length =
      ([1, 2, 4, 8, 16] : List Difficulty).length := rfl
  have htarget : 0 < 60 ∧ 60 < 2 ^ 64 := by decide
  obtain ⟨-, -, -, hlag, -⟩ := nextDifficulty_correct hadjust hlength htarget 6 0 0 9
  exact ⟨by decide, hlag (by decide)⟩

/-! ### Histories that agree from a reset on -/

/-- The last blocks below a height, as many as are looked at and without the genesis block. -/
structure History (cfg : DifficultyConfig) (height : ℕ) where
  timestamps : List UInt64
  cumulativeDifficulties : List Difficulty
  length_timestamps : timestamps.length = min (height - 1) cfg.difficultyBlocksCount
  length_cumulative : cumulativeDifficulties.length = min (height - 1) cfg.difficultyBlocksCount

namespace History

def count (cfg : DifficultyConfig) (height : ℕ) : ℕ := min (height - 1) cfg.difficultyBlocksCount

def block (history : History cfg height) (place : ℕ) : Option UInt64 × Option Difficulty :=
  (history.timestamps[place - (height - count cfg height)]?,
    history.cumulativeDifficulties[place - (height - count cfg height)]?)

/-- The same blocks at a height and above. -/
def AgreeFrom (resetHeight : ℕ) (history history' : History cfg height) : Prop :=
  ∀ place, resetHeight ≤ place → place < height → height - count cfg height ≤ place →
    history.block place = history'.block place

end History

theorem afterReset_congr {blocks blocks' : List α} {count : ℕ} (hcount : count ≤ height)
    (hheight : resetHeight ≤ height) (hlength : blocks.length = count)
    (hlength' : blocks'.length = count)
    (hagree : ∀ place, resetHeight ≤ place → place < height → height - count ≤ place →
      blocks[place - (height - count)]? = blocks'[place - (height - count)]?) :
    afterReset height resetHeight blocks = afterReset height resetHeight blocks' := by
  have hentry : ∀ i, resetHeight ≤ i + (height - count) → blocks[i]? = blocks'[i]? := by
    intro i hi
    by_cases hlt : i < count
    · have hblock := hagree (i + (height - count)) hi (by omega) (by omega)
      rwa [Nat.add_sub_cancel] at hblock
    · rw [List.getElem?_eq_none (by omega), List.getElem?_eq_none (by omega)]
  rw [afterReset, afterReset, hlength, hlength']
  split
  · rename_i hignored
    simp only [isDiffReset, decide_eq_true_eq] at hignored
    apply List.ext_getElem?
    intro i
    rw [List.getElem?_drop, List.getElem?_drop]
    exact hentry _ (by omega)
  · rename_i hall
    -- the reset is below all the blocks
    simp only [isDiffReset, decide_eq_true_eq] at hall
    apply List.ext_getElem?
    intro i
    exact hentry i (by omega)

/-- Blocks below the last reset have no influence, and the first two blocks from it on have the
reset value. -/
theorem nextDifficulty_isolated (hcount : 2 ≤ cfg.difficultyBlocksCount) (hreset : 2 ≤ resetHeight)
    (hheight : resetHeight ≤ height) {history history' : History cfg height}
    (hagree : history.AgreeFrom resetHeight history') (target : ℕ) (resetValue : Difficulty)
    (version : UInt8) :
    nextDifficulty cfg history.timestamps history.cumulativeDifficulties target height resetHeight
        resetValue version =
      nextDifficulty cfg history'.timestamps history'.cumulativeDifficulties target height
        resetHeight resetValue version ∧
    (height = resetHeight ∨ height = resetHeight + 1 →
      nextDifficulty cfg history.timestamps history.cumulativeDifficulties target height resetHeight
        resetValue version = resetValue) := by
  have hblocks : History.count cfg height ≤ height := by
    rw [History.count]
    omega
  have htimes : afterReset height resetHeight history.timestamps =
      afterReset height resetHeight history'.timestamps :=
    afterReset_congr hblocks hheight history.length_timestamps
      history'.length_timestamps fun place h₁ h₂ h₃ => (Prod.mk.inj (hagree place h₁ h₂ h₃)).1
  have hworks : afterReset height resetHeight history.cumulativeDifficulties =
      afterReset height resetHeight history'.cumulativeDifficulties :=
    afterReset_congr hblocks hheight history.length_cumulative
      history'.length_cumulative fun place h₁ h₂ h₃ => (Prod.mk.inj (hagree place h₁ h₂ h₃)).2
  constructor
  · simp only [nextDifficulty]
    rw [htimes, hworks, history.length_timestamps, history'.length_timestamps]
  · intro hfirst
    have hignored : isDiffReset history.timestamps.length height resetHeight = true := by
      rw [history.length_timestamps]
      simp only [isDiffReset, decide_eq_true_eq]
      omega
    have hshort : (cutLag cfg version
        (afterReset height resetHeight history.timestamps)).length ≤ 1 := by
      rw [length_cutLag, length_afterReset, if_pos hignored]
      omega
    rw [nextDifficulty]
    simp only [if_pos hshort, if_pos hignored]

/-- Two histories of five blocks that differ below a reset at height 4. -/
theorem nextDifficulty_isolated_sample :
    nextDifficulty lagConfig [0, 10, 40, 100] [1, 2, 4, 8] 60 6 4 7 9 =
      nextDifficulty lagConfig [0, 99, 40, 100] [1, 3, 4, 8] 60 6 4 7 9 := by
  have hagree : History.AgreeFrom 4
      (⟨[0, 10, 40, 100], [1, 2, 4, 8], rfl, rfl⟩ : History lagConfig 6)
      (⟨[0, 99, 40, 100], [1, 3, 4, 8], rfl, rfl⟩ : History lagConfig 6) := by
    intro place hreset hheight _
    have hat : place = 4 ∨ place = 5 := by omega
    rcases hat with rfl | rfl
    · rfl
    · rfl
  exact (nextDifficulty_isolated (by decide) (by decide) (by decide) hagree 60 7 9).1

end XrCoin.Cryptonote

import XrCoin.Cryptonote.NextDifficulty
import XrCoin.Cryptonote.WideProduct

/-!
`next_difficulty_64`, the difficulty of the next block in 64 bits.

A product or a sum that does not fit before the division is reported as zero. The adjustment of the
first fork is made without such a test, and work that decreases wraps around.
-/

namespace XrCoin.Cryptonote

variable (cfg : DifficultyConfig)

def timeSpanAndWork64 (version : UInt8) (timestamps cumulativeDifficulties : List UInt64) :
    UInt64 × UInt64 :=
  if version < cfg.hfVersionRemoveDifficultySort then
    let sorted := timestamps.insertionSort (· ≤ ·)
    let cut := cutRange cfg timestamps.length
    let span := sorted.getD (cut.2 - 1) 0 - sorted.getD cut.1 0
    (if span = 0 then 1 else span,
      cumulativeDifficulties.getD (cut.2 - 1) 0 - cumulativeDifficulties.getD cut.1 0)
  else
    let front := timestamps.headD 0
    let back := timestamps.getLastD 0
    (if front < back then back - front else 1,
      cumulativeDifficulties.getLastD 0 - cumulativeDifficulties.headD 0)

def inHardfork1 (height : ℕ) : Prop :=
  cfg.hardfork1Height ≤ height ∧ height < cfg.hardfork1Height + cfg.hardfork1DiffadjWindow

instance (height : ℕ) : Decidable (inHardfork1 cfg height) :=
  inferInstanceAs (Decidable (_ ∧ _))

/-- The difficulty for a time span and work, or 0 for an overflow that is tested. -/
def scaledDifficulty64 (timeSpan totalWork targetSeconds : UInt64) (height : ℕ) : UInt64 :=
  let product := mul128 totalWork targetSeconds
  if product.2 ≠ 0 ∨ product.1 + timeSpan - 1 < product.1 then 0
  else
    let newDiff := (product.1 + timeSpan - 1) / timeSpan
    if inHardfork1 cfg height then
      newDiff + newDiff *
        (cfg.hardfork1Height + cfg.hardfork1DiffadjWindow - height).toUInt64 *
          (cfg.hardfork1Diffadj - 1).toUInt64 / cfg.hardfork1DiffadjWindow.toUInt64
    else newDiff

def nextDifficulty64 (timestamps cumulativeDifficulties : List UInt64) (targetSeconds : UInt64)
    (height lastDiffResetHeight : ℕ) (lastDiffResetValue : UInt64) (version : UInt8) : UInt64 :=
  let timestamps' := cutLag cfg version (afterReset height lastDiffResetHeight timestamps)
  let cumulativeDifficulties' :=
    cutLag cfg version (afterReset height lastDiffResetHeight cumulativeDifficulties)
  if timestamps'.length ≤ 1 then
    if isDiffReset timestamps.length height lastDiffResetHeight then lastDiffResetValue else 1
  else
    let spanAndWork := timeSpanAndWork64 cfg version timestamps' cumulativeDifficulties'
    scaledDifficulty64 cfg spanAndWork.1 spanAndWork.2 targetSeconds height

def widen (difficulty : UInt64) : Difficulty := BitVec.ofNat 128 difficulty.toNat

/-- The constants of the adjustment are of 64 bits, with room for it in 256 bits. -/
structure DifficultyConfig.Fits64 (cfg : DifficultyConfig) : Prop where
  height : cfg.hardfork1Height + cfg.hardfork1DiffadjWindow < 2 ^ 64
  diffadj : cfg.hardfork1Diffadj < 2 ^ 64
  adjustment : cfg.AdjustmentFits

/-- The adjustment of a quotient fits into 64 bits, with the product that it takes. -/
def AdjustmentFits64 (height n : ℕ) : Prop :=
  inHardfork1 cfg height →
    n * (cfg.hardfork1Height + cfg.hardfork1DiffadjWindow - height) *
        (cfg.hardfork1Diffadj - 1) < 2 ^ 64 ∧
      adjustedDifficulty cfg height n < 2 ^ 64

/-- The adjustment wraps around to zero. -/
def WrapsToZero (height n : ℕ) : Prop :=
  inHardfork1 cfg height ∧
    n + n * (cfg.hardfork1Height + cfg.hardfork1DiffadjWindow - height) *
      (cfg.hardfork1Diffadj - 1) % 2 ^ 64 / cfg.hardfork1DiffadjWindow = 2 ^ 64

def workEnds (version : UInt8) (length : ℕ) (works : List UInt64) : UInt64 × UInt64 :=
  if version < cfg.hfVersionRemoveDifficultySort then
    (works.getD (cutRange cfg length).1 0, works.getD ((cutRange cfg length).2 - 1) 0)
  else (works.headD 0, works.getLastD 0)

/-- When the two widths agree on a time span and on work from one difficulty to another. -/
def Agrees64 (span : ℕ) (first last target : UInt64) (height : ℕ) : Prop :=
  let work := (last - first).toNat * target.toNat
  let n := work ⌈/⌉ span
  2 ^ 64 ≤ work + span - 1 ∨ target = 0 ∨ WrapsToZero cfg height n ∨
    first ≤ last ∧ AdjustmentFits64 cfg height n

variable {cfg} {version : UInt8} {height resetHeight : ℕ} {span target : UInt64}

/-! ### The two results in numbers -/

theorem overflow_iff (hspan : 0 < span.toNat) (work target : UInt64) :
    ((mul128 work target).2 ≠ 0 ∨
        (mul128 work target).1 + span - 1 < (mul128 work target).1) ↔
      2 ^ 64 ≤ work.toNat * target.toNat + span.toNat - 1 := by
  have hproduct := mul128_exact work target
  rw [wideValue] at hproduct
  have hlow := (mul128 work target).1.toNat_lt
  have hlt := span.toNat_lt
  rw [Ne, ← UInt64.toNat_inj, UInt64.lt_iff_toNat_lt, UInt64.toNat_sub, UInt64.toNat_add,
    UInt64.toNat_zero, UInt64.toNat_one]
  omega

theorem scaledDifficulty64_overflow (hspan : 0 < span.toNat) {work : UInt64}
    (h : 2 ^ 64 ≤ work.toNat * target.toNat + span.toNat - 1) :
    scaledDifficulty64 cfg span work target height = 0 := by
  rw [scaledDifficulty64]
  exact if_pos ((overflow_iff hspan work target).mpr h)

theorem toNat_toUInt64 {n : ℕ} (h : n < 2 ^ 64) : n.toUInt64.toNat = n := by
  rw [Nat.toUInt64_eq, UInt64.toNat_ofNat']
  exact Nat.mod_eq_of_lt h

/-- Without an overflow the quotient is the one of numbers, and its adjustment wraps. -/
theorem toNat_scaledDifficulty64 (hfits : cfg.Fits64) (hspan : 0 < span.toNat) {work : UInt64}
    (h : work.toNat * target.toNat + span.toNat - 1 < 2 ^ 64) :
    (scaledDifficulty64 cfg span work target height).toNat =
      let n := work.toNat * target.toNat ⌈/⌉ span.toNat
      if inHardfork1 cfg height then
        (n + n * (cfg.hardfork1Height + cfg.hardfork1DiffadjWindow - height) *
          (cfg.hardfork1Diffadj - 1) % 2 ^ 64 / cfg.hardfork1DiffadjWindow) % 2 ^ 64
      else n := by
  have hno := (not_congr (overflow_iff hspan work target)).mpr (Nat.not_le.mpr h)
  have hproduct := mul128_exact work target
  rw [wideValue] at hproduct
  have hlt := (mul128 work target).1.toNat_lt
  have hhigh : (mul128 work target).2.toNat = 0 := by omega
  have hnumerator : ((mul128 work target).1 + span - 1).toNat =
      work.toNat * target.toNat + span.toNat - 1 := by
    rw [UInt64.toNat_sub, UInt64.toNat_add, UInt64.toNat_one]
    have hspanLt := span.toNat_lt
    omega
  have hheight := hfits.height
  have hdiffadj := hfits.diffadj
  rw [scaledDifficulty64]
  simp only [if_neg hno]
  rw [Nat.ceilDiv_eq_add_pred_div]
  split
  · simp only [UInt64.toNat_add, UInt64.toNat_div, UInt64.toNat_mul, hnumerator]
    rw [toNat_toUInt64 (by omega), toNat_toUInt64 (by omega), toNat_toUInt64 (by omega),
      Nat.mod_mul_mod]
  · rw [UInt64.toNat_div, hnumerator]

theorem toNat_scaledDifficulty (hadjust : cfg.AdjustmentFits) (hspan : 0 < span.toNat)
    (work : Difficulty) :
    (scaledDifficulty cfg span work target.toNat height).toNat =
      let n := adjustedDifficulty cfg height (work.toNat * target.toNat ⌈/⌉ span.toNat)
      if 2 ^ 128 ≤ n then 0 else n := by
  rw [scaledDifficulty_eq hadjust work height target.toNat_lt hspan]
  simp only
  split
  · rfl
  · rename_i hfits
    rw [BitVec.toNat_ofNat]
    exact Nat.mod_eq_of_lt (Nat.not_le.mp hfits)

/-! ### Where they agree -/

theorem le_adjustedDifficulty (n : ℕ) : n ≤ adjustedDifficulty cfg height n := by
  rw [adjustedDifficulty]
  split
  · exact Nat.le_add_right _ _
  · exact le_rfl

variable (height) in
theorem adjustedDifficulty_lt (hfits : cfg.Fits64) {n : ℕ} (hn : n < 2 ^ 64) :
    adjustedDifficulty cfg height n < 2 ^ 128 := by
  rw [adjustedDifficulty]
  split
  · rename_i hrange
    have hwindow : 0 < cfg.hardfork1DiffadjWindow := by omega
    have hscaled : n * (cfg.hardfork1Height + cfg.hardfork1DiffadjWindow - height) *
        (cfg.hardfork1Diffadj - 1) / cfg.hardfork1DiffadjWindow ≤ n * (cfg.hardfork1Diffadj - 1) := by
      rw [Nat.div_le_iff_le_mul_add_pred hwindow, Nat.mul_assoc, Nat.mul_left_comm]
      have hle : (cfg.hardfork1Height + cfg.hardfork1DiffadjWindow - height) *
          (n * (cfg.hardfork1Diffadj - 1)) ≤
          cfg.hardfork1DiffadjWindow * (n * (cfg.hardfork1Diffadj - 1)) :=
        Nat.mul_le_mul_right _ (by omega)
      omega
    have hproduct : n * (cfg.hardfork1Diffadj - 1) ≤ (2 ^ 64 - 1) * (2 ^ 64 - 1) :=
      Nat.mul_le_mul (by omega) (by have := hfits.diffadj; omega)
    omega
  · omega

/-- A product that wraps around loses at least one in the quotient. -/
theorem wrapped_quotient_lt {n product window : ℕ} (hwindow : 0 < window)
    (hwindowLt : window < 2 ^ 64) (h : 2 ^ 64 ≤ product) :
    n + product % 2 ^ 64 / window < n + product / window := by
  have hlost : product % 2 ^ 64 + window ≤ product := by omega
  have hquotient := Nat.div_le_div_right (c := window) hlost
  rw [Nat.add_div_right _ hwindow] at hquotient
  omega

/-- Work that does not decrease is the same in both widths. -/
theorem toNat_widen_sub {first last : UInt64} (h : first ≤ last) :
    (widen last - widen first).toNat = (last - first).toNat := by
  have hle := UInt64.le_iff_toNat_le.mp h
  have hlt := last.toNat_lt
  rw [UInt64.toNat_sub_of_le _ _ h, widen, widen, BitVec.toNat_sub, BitVec.toNat_ofNat,
    BitVec.toNat_ofNat]
  omega

/-- Work that decreases is close to the maximum of 128 bits. -/
theorem toNat_widen_sub_of_lt {first last : UInt64} (h : last < first) :
    2 ^ 128 - 2 ^ 64 < (widen last - widen first).toNat := by
  have hlt := UInt64.lt_iff_toNat_lt.mp h
  have hfirst := first.toNat_lt
  rw [widen, widen, BitVec.toNat_sub, BitVec.toNat_ofNat, BitVec.toNat_ofNat]
  omega

theorem le_ceilDiv_of_wide {work target span : ℕ} (hwork : 2 ^ 128 - 2 ^ 64 < work)
    (htarget : 0 < target) (hspan : 0 < span) (hspanLt : span < 2 ^ 64) :
    2 ^ 64 ≤ work * target ⌈/⌉ span := by
  by_contra hless
  have hle : work * target ≤ span * (work * target ⌈/⌉ span) := by
    have := (ceilDiv_le_iff_le_mul hspan).mp (le_refl (work * target ⌈/⌉ span))
    exact this
  have hmul : span * (work * target ⌈/⌉ span) ≤ (2 ^ 64 - 1) * (2 ^ 64 - 1) :=
    Nat.mul_le_mul (by omega) (by omega)
  have hwork' : work ≤ work * target := Nat.le_mul_of_pos_right _ htarget
  omega

/-- The adjustment in 64 bits is zero only without work, or by accident. -/
theorem wrapped_eq_zero_iff {n : ℕ} (hn : n < 2 ^ 64) (product window : ℕ) :
    (n + product % 2 ^ 64 / window) % 2 ^ 64 = 0 ↔
      n + product % 2 ^ 64 / window = 0 ∨ n + product % 2 ^ 64 / window = 2 ^ 64 := by
  have hle := Nat.div_le_self (product % 2 ^ 64) window
  have hlt := Nat.mod_lt product (show 0 < 2 ^ 64 by decide)
  generalize product % 2 ^ 64 / window = quotient at hle ⊢
  omega

/-- The adjustment in 64 bits is that in numbers where it fits. -/
theorem wrapped_eq_iff {n product window : ℕ} (hwindow : 0 < window) (hwindowLt : window < 2 ^ 64) :
    (n + product % 2 ^ 64 / window) % 2 ^ 64 = n + product / window ↔
      product < 2 ^ 64 ∧ n + product / window < 2 ^ 64 := by
  constructor
  · intro heq
    have hfits : n + product / window < 2 ^ 64 := by
      rw [← heq]
      exact Nat.mod_lt _ (by decide)
    refine ⟨?_, hfits⟩
    by_contra hlarge
    have hlost := wrapped_quotient_lt (n := n) hwindow hwindowLt (Nat.not_lt.mp hlarge)
    have hle := Nat.mod_le (n + product % 2 ^ 64 / window) (2 ^ 64)
    rw [heq] at hle
    exact absurd hlost (Nat.not_lt.mpr hle)
  · rintro ⟨hproduct, hsum⟩
    rw [Nat.mod_eq_of_lt hproduct, Nat.mod_eq_of_lt hsum]

theorem toNat_eq_zero_iff (a : UInt64) : a = 0 ↔ a.toNat = 0 := by
  rw [← UInt64.toNat_inj]
  rfl

theorem scaledDifficulty64_agrees_of_le (hfits : cfg.Fits64) (hspan : 0 < span.toNat)
    {first last : UInt64} (hle : first ≤ last)
    (hsmall : (last - first).toNat * target.toNat + span.toNat - 1 < 2 ^ 64) :
    (scaledDifficulty64 cfg span (last - first) target height = 0 ∨
      (scaledDifficulty64 cfg span (last - first) target height).toNat =
        (scaledDifficulty cfg span (widen last - widen first) target.toNat height).toNat) ↔
      WrapsToZero cfg height ((last - first).toNat * target.toNat ⌈/⌉ span.toNat) ∨
        AdjustmentFits64 cfg height ((last - first).toNat * target.toNat ⌈/⌉ span.toNat) := by
  have hquotient : (last - first).toNat * target.toNat ⌈/⌉ span.toNat < 2 ^ 64 := by
    rw [Nat.ceilDiv_eq_add_pred_div]
    exact lt_of_le_of_lt (Nat.div_le_self _ _) hsmall
  rw [toNat_eq_zero_iff, toNat_scaledDifficulty64 hfits hspan hsmall,
    toNat_scaledDifficulty hfits.adjustment hspan, toNat_widen_sub hle]
  generalize (last - first).toNat * target.toNat ⌈/⌉ span.toNat = n at hquotient ⊢
  simp only [if_neg (Nat.not_le.mpr (adjustedDifficulty_lt height hfits hquotient)),
    WrapsToZero, AdjustmentFits64]
  by_cases hrange : inHardfork1 cfg height
  · have hwindow : 0 < cfg.hardfork1DiffadjWindow := by
      rw [inHardfork1] at hrange
      omega
    have hwindowLt : cfg.hardfork1DiffadjWindow < 2 ^ 64 := by
      have hheight := hfits.height
      omega
    have hadjusted : adjustedDifficulty cfg height n = n + n * (cfg.hardfork1Height +
        cfg.hardfork1DiffadjWindow - height) * (cfg.hardfork1Diffadj - 1) /
          cfg.hardfork1DiffadjWindow := if_pos hrange
    simp only [hrange, if_true, true_and, forall_true_left, hadjusted]
    rw [wrapped_eq_zero_iff hquotient, wrapped_eq_iff hwindow hwindowLt]
    constructor
    · rintro ((hzero | hwraps) | hfit)
      · -- without work there is nothing to adjust
        have hn : n = 0 := (Nat.add_eq_zero_iff.mp hzero).1
        subst hn
        exact Or.inr (by simp)
      · exact Or.inl hwraps
      · exact Or.inr hfit
    · rintro (hwraps | hfit)
      · exact Or.inl (Or.inr hwraps)
      · exact Or.inr hfit
  · have hadjusted : adjustedDifficulty cfg height n = n := if_neg hrange
    simp [hrange, hadjusted]

/-- Work that decreases is far too large in 128 bits. -/
theorem scaledDifficulty64_agrees_of_lt (hfits : cfg.Fits64) (hspan : 0 < span.toNat)
    {first last : UInt64} (hlt : last < first)
    (hsmall : (last - first).toNat * target.toNat + span.toNat - 1 < 2 ^ 64) :
    (scaledDifficulty64 cfg span (last - first) target height = 0 ∨
      (scaledDifficulty64 cfg span (last - first) target height).toNat =
        (scaledDifficulty cfg span (widen last - widen first) target.toNat height).toNat) ↔
      target = 0 ∨
        WrapsToZero cfg height ((last - first).toNat * target.toNat ⌈/⌉ span.toNat) := by
  have hquotient : (last - first).toNat * target.toNat ⌈/⌉ span.toNat < 2 ^ 64 := by
    rw [Nat.ceilDiv_eq_add_pred_div]
    exact lt_of_le_of_lt (Nat.div_le_self _ _) hsmall
  have hzero : scaledDifficulty64 cfg span (last - first) target height = 0 ↔
      target = 0 ∨
        WrapsToZero cfg height ((last - first).toNat * target.toNat ⌈/⌉ span.toNat) := by
    have hwork : (last - first).toNat ≠ 0 := by
      have hlt' := UInt64.lt_iff_toNat_lt.mp hlt
      have hfirst := first.toNat_lt
      rw [UInt64.toNat_sub]
      omega
    have hn : (last - first).toNat * target.toNat ⌈/⌉ span.toNat = 0 ↔ target = 0 := by
      rw [toNat_eq_zero_iff target]
      constructor
      · intro h
        by_contra htarget
        exact absurd h (Nat.ne_of_gt (ceilDiv_pos
          (Nat.mul_pos (Nat.pos_of_ne_zero hwork) (Nat.pos_of_ne_zero htarget)) hspan))
      · intro h
        rw [h, Nat.mul_zero, zero_ceilDiv]
    rw [toNat_eq_zero_iff, toNat_scaledDifficulty64 hfits hspan hsmall, ← hn]
    generalize (last - first).toNat * target.toNat ⌈/⌉ span.toNat = n at hquotient ⊢
    simp only [WrapsToZero]
    by_cases hrange : inHardfork1 cfg height
    · simp only [hrange, if_true, true_and]
      rw [wrapped_eq_zero_iff hquotient]
      constructor
      · rintro (hzero | hwraps)
        · exact Or.inl (Nat.add_eq_zero_iff.mp hzero).1
        · exact Or.inr hwraps
      · rintro (rfl | hwraps)
        · exact Or.inl (by simp)
        · exact Or.inr hwraps
    · simp [hrange]
  rw [← hzero]
  constructor
  · rintro (h | hequal)
    · exact h
    · by_cases htarget : target = 0
      · exact hzero.mpr (Or.inl htarget)
      · rw [toNat_eq_zero_iff] at htarget ⊢
        have hlarge : 2 ^ 64 ≤ adjustedDifficulty cfg height
            ((widen last - widen first).toNat * target.toNat ⌈/⌉ span.toNat) :=
          (le_ceilDiv_of_wide (toNat_widen_sub_of_lt hlt) (Nat.pos_of_ne_zero htarget) hspan
            span.toNat_lt).trans (le_adjustedDifficulty _)
        have hnarrow := (scaledDifficulty64 cfg span (last - first) target height).toNat_lt
        rw [toNat_scaledDifficulty hfits.adjustment hspan] at hequal
        simp only at hequal
        split at hequal
        · exact hequal
        · omega
  · exact Or.inl

/-- The two widths agree on a window exactly under the condition. -/
theorem scaledDifficulty64_agrees_iff (hfits : cfg.Fits64) (hspan : 0 < span.toNat)
    (first last : UInt64) :
    (scaledDifficulty64 cfg span (last - first) target height = 0 ∨
      (scaledDifficulty64 cfg span (last - first) target height).toNat =
        (scaledDifficulty cfg span (widen last - widen first) target.toNat height).toNat) ↔
      Agrees64 cfg span.toNat first last target height := by
  simp only [Agrees64]
  by_cases hoverflow : 2 ^ 64 ≤ (last - first).toNat * target.toNat + span.toNat - 1
  · exact iff_of_true (Or.inl (scaledDifficulty64_overflow hspan hoverflow)) (Or.inl hoverflow)
  have hsmall := Nat.not_le.mp hoverflow
  by_cases hle : first ≤ last
  · rw [scaledDifficulty64_agrees_of_le hfits hspan hle hsmall]
    constructor
    · rintro (hwraps | hfit)
      · exact Or.inr (Or.inr (Or.inl hwraps))
      · exact Or.inr (Or.inr (Or.inr ⟨hle, hfit⟩))
    · rintro (h | htarget | hwraps | hfit)
      · exact absurd h hoverflow
      · -- without a target there is nothing to adjust
        right
        intro _
        simp [htarget, adjustedDifficulty]
      · exact Or.inl hwraps
      · exact Or.inr hfit.2
  · rw [scaledDifficulty64_agrees_of_lt hfits hspan (UInt64.not_le.mp hle) hsmall]
    simp only [hoverflow, hle, false_and, false_or, or_false]

/-! ### The whole functions -/

@[simp] theorem toNat_widen (difficulty : UInt64) : (widen difficulty).toNat = difficulty.toNat := by
  rw [widen, BitVec.toNat_ofNat]
  exact Nat.mod_eq_of_lt (by have := difficulty.toNat_lt; omega)

theorem selectedWindow_map {α β : Type} (f : α → β) (blocks : List α) :
    selectedWindow cfg version height resetHeight (blocks.map f) =
      (selectedWindow cfg version height resetHeight blocks).map f := by
  have hkept : afterReset height resetHeight (blocks.map f) =
      (afterReset height resetHeight blocks).map f := by
    rw [afterReset, afterReset, List.length_map]
    split
    · rw [List.map_drop]
    · rfl
  rw [selectedWindow, selectedWindow, hkept, cutLag, cutLag, List.length_map]
  split
  · rw [List.map_take, List.map_drop]
  · rfl

theorem getD_map_widen (works : List UInt64) (i : ℕ) :
    (works.map widen).getD i 0 = widen (works.getD i 0) := by
  rw [List.getD_eq_getElem?_getD, List.getD_eq_getElem?_getD, List.getElem?_map]
  cases works[i]? <;> rfl

theorem getLastD_map_widen (works : List UInt64) :
    (works.map widen).getLastD 0 = widen (works.getLastD 0) := by
  rw [getLastD_eq_getD, getLastD_eq_getD, List.length_map, getD_map_widen]

theorem headD_map_widen (works : List UInt64) :
    (works.map widen).headD 0 = widen (works.headD 0) := by
  rw [headD_eq_getD, headD_eq_getD, getD_map_widen]

variable (cfg version) in
theorem timeSpanAndWork64_eq (times works : List UInt64) :
    let ends := workEnds cfg version times.length works
    (timeSpanAndWork64 cfg version times works).1 =
        (timeSpanAndWork cfg version times (works.map widen)).1 ∧
      (timeSpanAndWork64 cfg version times works).2 = ends.2 - ends.1 ∧
      (timeSpanAndWork cfg version times (works.map widen)).2 = widen ends.2 - widen ends.1 := by
  simp only [timeSpanAndWork64, timeSpanAndWork, workEnds]
  split
  · refine ⟨rfl, rfl, ?_⟩
    simp only [getD_map_widen]
  · refine ⟨rfl, rfl, ?_⟩
    simp only [getLastD_map_widen, headD_map_widen]

/-- The result in 64 bits is zero or the one in 128 bits exactly under the condition on the
window. -/
theorem nextDifficulty64_agrees_iff (hfits : cfg.Fits64)
    (timestamps cumulativeDifficulties : List UInt64) (target : UInt64) (height resetHeight : ℕ)
    (resetValue : UInt64) (version : UInt8) :
    let times := selectedWindow cfg version height resetHeight timestamps
    let works := selectedWindow cfg version height resetHeight cumulativeDifficulties
    let ends := workEnds cfg version times.length works
    let narrow := nextDifficulty64 cfg timestamps cumulativeDifficulties target height resetHeight
      resetValue version
    let wide := nextDifficulty cfg timestamps (cumulativeDifficulties.map widen) target.toNat height
      resetHeight (widen resetValue) version
    (narrow = 0 ∨ narrow.toNat = wide.toNat) ↔
      times.length ≤ 1 ∨ Agrees64 cfg (windowSpan cfg version times) ends.1 ends.2 target height := by
  intro times works ends narrow wide
  have hworks : cutLag cfg version (afterReset height resetHeight
      (cumulativeDifficulties.map widen)) = works.map widen := selectedWindow_map widen _
  by_cases hshort : times.length ≤ 1
  · have hnarrow : narrow = if isDiffReset timestamps.length height resetHeight then resetValue
        else 1 := if_pos hshort
    have hwide : wide = if isDiffReset timestamps.length height resetHeight then widen resetValue
        else 1 := if_pos hshort
    refine iff_of_true (Or.inr ?_) (Or.inl hshort)
    rw [hnarrow, hwide]
    split
    · rw [toNat_widen]
    · rfl
  · obtain ⟨hspan, hwork, hwork'⟩ := timeSpanAndWork64_eq cfg version times works
    have htwo : 2 ≤ times.length := by omega
    have htime : (timeSpanAndWork64 cfg version times works).1.toNat =
        windowSpan cfg version times := by
      rw [hspan]
      exact timeSpan_eq cfg version _ htwo
    have hpos : 0 < (timeSpanAndWork64 cfg version times works).1.toNat := by
      rw [htime]
      exact le_max_one _
    have hnarrow : narrow = scaledDifficulty64 cfg (timeSpanAndWork64 cfg version times works).1
        (ends.2 - ends.1) target height := by
      rw [← hwork]
      exact if_neg hshort
    have hwide : wide = scaledDifficulty cfg (timeSpanAndWork64 cfg version times works).1
        (widen ends.2 - widen ends.1) target.toNat height := by
      rw [hspan, ← hwork', ← hworks]
      exact if_neg hshort
    rw [hnarrow, hwide, scaledDifficulty64_agrees_iff hfits hpos, htime]
    constructor
    · exact Or.inr
    · exact fun h => h.resolve_left hshort

/-! ### An adjustment that wraps around -/

def adjustConfig : DifficultyConfig :=
  { lagConfig with hardfork1Height := 100, hardfork1DiffadjWindow := 10, hardfork1Diffadj := 3 }

theorem nextDifficulty64_wraps :
    nextDifficulty64 adjustConfig [0, 1] [0, 9223372036854775808] 1 100 0 0 9 = 9223372036854775808 ∧
      (nextDifficulty adjustConfig [0, 1] ([0, 9223372036854775808].map widen) 1 100 0 0 9).toNat =
        27670116110564327424 := by
  constructor
  · decide
  · decide

theorem nextDifficulty64_agrees_below :
    nextDifficulty64 adjustConfig [0, 1] [0, 9223372036854775808] 1 99 0 0 9 = 0 ∨
      (nextDifficulty64 adjustConfig [0, 1] [0, 9223372036854775808] 1 99 0 0 9).toNat =
        (nextDifficulty adjustConfig [0, 1] ([0, 9223372036854775808].map widen)
          (1 : UInt64).toNat 99 0 (widen 0) 9).toNat := by
  have hadjustment : adjustConfig.AdjustmentFits := by
    show 10 * (3 - 1) < 2 ^ 63
    decide
  have hfits : adjustConfig.Fits64 := ⟨by decide, by decide, hadjustment⟩
  have hbelow : ¬ inHardfork1 adjustConfig 99 := by decide
  apply (nextDifficulty64_agrees_iff hfits [0, 1] [0, 9223372036854775808] 1 99 0 0 9).mpr
  exact Or.inr (Or.inr (Or.inr (Or.inr ⟨by decide, fun h => absurd h hbelow⟩)))

end XrCoin.Cryptonote

import Mathlib
import XrCoin.Data.Throwing

/-!
`pick_gamma` of `get_outs`: the index of a decoy, from the cumulative numbers of outputs by block.

The number of blocks to go back is drawn from a gamma distribution and is a parameter, and so is
the random index among the outputs of the window.
-/

namespace XrCoin.Wallet

open Data

structure RctOffsets where
  offsets : List UInt64
  /-- No block takes outputs back. -/
  sorted : offsets.Pairwise (· ≤ ·)
  two_le : 2 ≤ offsets.length

/-- What is returned for a bad pick. -/
def badPick : UInt64 := 18446744073709551615

def gammaPickHalfWindow : ℕ := 5

section Pick

variable (rctOffsets : List UInt64)

def outputsBefore (b : ℕ) : UInt64 := if b = 0 then 0 else rctOffsets.getD (b - 1) 0

def outputsInBlock (b : ℕ) : UInt64 :=
  if 0 < b then rctOffsets.getD b 0 - rctOffsets.getD (b - 1) 0 else rctOffsets.getD 0 0

structure BlockWindow where
  firstBlockOffset : ℕ
  lastBlockOffset : ℕ
  deriving DecidableEq

/-- Whether a window is not widened any more. -/
def settled (w : BlockWindow) : Bool :=
  decide (1 < outputsInBlock rctOffsets w.firstBlockOffset) ||
    (decide (1 < outputsInBlock rctOffsets w.lastBlockOffset) ||
      decide (w.firstBlockOffset = 0 ∧ rctOffsets.length - 2 ≤ w.lastBlockOffset))

def widenOnce (w : BlockWindow) : BlockWindow where
  firstBlockOffset := if 0 < w.firstBlockOffset then w.firstBlockOffset - 1 else w.firstBlockOffset
  lastBlockOffset :=
    if w.lastBlockOffset < rctOffsets.length - 1 then w.lastBlockOffset + 1 else w.lastBlockOffset

def widen : ℕ → BlockWindow → BlockWindow
  | 0, w => w
  | n + 1, w => if settled rctOffsets w then w else widen n (widenOnce rctOffsets w)

def outputsInWindow (w : BlockWindow) : UInt64 :=
  rctOffsets.getD w.lastBlockOffset 0 - outputsBefore rctOffsets w.firstBlockOffset

def pickGamma (blockOffset randIdx : UInt64) : Except String UInt64 := do
  if rctOffsets.length - 1 ≤ blockOffset.toNat then
    return badPick
  let blockOffset := rctOffsets.length - 2 - blockOffset.toNat
  throwIf (rctOffsets.length - 1 ≤ blockOffset) "Bad offset calculation"
  throwIf (rctOffsets.getD (blockOffset + 1) 0 < rctOffsets.getD blockOffset 0)
    "Decreasing offsets in rct distribution"
  let w := widen rctOffsets gammaPickHalfWindow ⟨blockOffset, blockOffset⟩
  if outputsInWindow rctOffsets w = 0 then
    return if rctOffsets.getD blockOffset 0 = 0 then 0 else rctOffsets.getD blockOffset 0 - 1
  return rctOffsets.getD w.firstBlockOffset 0 + randIdx

end Pick

/-! ### Cumulative numbers -/

namespace RctOffsets

variable (rct : RctOffsets)

def upTo (b : ℕ) : ℕ := (rct.offsets.getD b 0).toNat

def before (b : ℕ) : ℕ := (outputsBefore rct.offsets b).toNat

def CreatedIn (b : ℕ) (o : UInt64) : Prop := rct.before b ≤ o.toNat ∧ o.toNat < rct.upTo b

def InWindow (w : BlockWindow) (o : UInt64) : Prop :=
  ∃ b, w.firstBlockOffset ≤ b ∧ b ≤ w.lastBlockOffset ∧ rct.CreatedIn b o

def total : ℕ := rct.upTo (rct.offsets.length - 1)

theorem upTo_mono {b b' : ℕ} (hle : b ≤ b') (hlt : b' < rct.offsets.length) :
    rct.upTo b ≤ rct.upTo b' := by
  have hb : b < rct.offsets.length := by omega
  simp only [upTo, List.getD_eq_getElem?_getD, List.getElem?_eq_getElem hb,
    List.getElem?_eq_getElem hlt, Option.getD_some]
  rcases Nat.eq_or_lt_of_le hle with rfl | hlt'
  · exact le_refl _
  · exact UInt64.le_iff_toNat_le.mp (List.pairwise_iff_getElem.mp rct.sorted b b' hb hlt hlt')

@[simp] theorem before_zero : rct.before 0 = 0 := by simp [before, outputsBefore]

@[simp] theorem before_succ (b : ℕ) : rct.before (b + 1) = rct.upTo b := by
  simp [before, outputsBefore, upTo]

theorem before_le_upTo {b b' : ℕ} (hle : b ≤ b') (hlt : b' < rct.offsets.length) :
    rct.before b ≤ rct.upTo b' := by
  cases b with
  | zero => simp
  | succ b =>
      rw [before_succ]
      exact rct.upTo_mono (by omega) hlt

theorem outputsInBlock_toNat {b : ℕ} (hlt : b < rct.offsets.length) :
    (outputsInBlock rct.offsets b).toNat = rct.upTo b - rct.before b := by
  have hle := rct.before_le_upTo (le_refl b) hlt
  cases b with
  | zero => simp [outputsInBlock, upTo]
  | succ b =>
      rw [before_succ] at hle ⊢
      rw [outputsInBlock, if_pos (Nat.succ_pos b), Nat.add_sub_cancel]
      exact UInt64.toNat_sub_of_le _ _ (UInt64.le_iff_toNat_le.mpr hle)

theorem outputsInWindow_toNat {w : BlockWindow} (hle : w.firstBlockOffset ≤ w.lastBlockOffset)
    (hlt : w.lastBlockOffset < rct.offsets.length) :
    (outputsInWindow rct.offsets w).toNat =
      rct.upTo w.lastBlockOffset - rct.before w.firstBlockOffset :=
  UInt64.toNat_sub_of_le _ _ (UInt64.le_iff_toNat_le.mpr (rct.before_le_upTo hle hlt))

/-- The outputs of a window are those between its two bounds. -/
theorem inWindow_iff {w : BlockWindow} (hle : w.firstBlockOffset ≤ w.lastBlockOffset)
    (hlt : w.lastBlockOffset < rct.offsets.length) {o : UInt64} :
    rct.InWindow w o ↔
      rct.before w.firstBlockOffset ≤ o.toNat ∧ o.toNat < rct.upTo w.lastBlockOffset := by
  constructor
  · rintro ⟨b, hfirst, hlast, hbefore, hupTo⟩
    have h₁ : rct.before w.firstBlockOffset ≤ rct.before b := by
      cases b with
      | zero => simp [Nat.le_zero.mp hfirst]
      | succ b =>
          rw [before_succ]
          rcases Nat.eq_or_lt_of_le hfirst with heq | hlt'
          · rw [heq, before_succ]
          · exact rct.before_le_upTo (by omega) (by omega)
    have h₂ := rct.upTo_mono hlast hlt
    omega
  · rintro ⟨hbefore, hupTo⟩
    -- The first block from the start of the window that goes beyond the output.
    have hex : ∃ b, w.firstBlockOffset ≤ b ∧ o.toNat < rct.upTo b := ⟨_, hle, hupTo⟩
    classical
    obtain ⟨hfirst, hfind⟩ := Nat.find_spec hex
    refine ⟨Nat.find hex, hfirst, Nat.find_min' hex ⟨hle, hupTo⟩, ?_, hfind⟩
    rcases Nat.eq_or_lt_of_le hfirst with heq | hlt'
    · rwa [← heq]
    · obtain ⟨b, hb⟩ := Nat.exists_eq_add_of_lt hlt'
      have hmin := Nat.find_min hex (m := w.firstBlockOffset + b) (by omega)
      have : Nat.find hex = (w.firstBlockOffset + b) + 1 := hb
      rw [this, before_succ]
      simpa using hmin

/-! ### The window -/

def around (b r : ℕ) : BlockWindow := ⟨b - r, min (b + r) (rct.offsets.length - 1)⟩

/-- How far the window around a block goes: to the first distance at which one of its ends has more
than one output, or which takes in all blocks. -/
def radius (b : ℕ) : ℕ :=
  ((List.range' 0 gammaPickHalfWindow).find? fun r => settled rct.offsets (rct.around b r)).getD
    gammaPickHalfWindow

theorem widenOnce_around (b r : ℕ) :
    widenOnce rct.offsets (rct.around b r) = rct.around b (r + 1) := by
  have hfirst : (if 0 < b - r then b - r - 1 else b - r) = b - (r + 1) := by
    split <;> omega
  have hlast : ∀ top : ℕ, (if min (b + r) top < top then min (b + r) top + 1 else min (b + r) top) =
      min (b + (r + 1)) top := by
    intro top
    split <;> omega
  exact congrArg₂ BlockWindow.mk hfirst (hlast _)

theorem widen_around (b n r : ℕ) :
    widen rct.offsets n (rct.around b r) =
      rct.around b (((List.range' r n).find? fun r => settled rct.offsets (rct.around b r)).getD
        (r + n)) := by
  induction n generalizing r with
  | zero => simp [widen]
  | succ n ih =>
      rw [widen, List.range'_succ, List.find?_cons]
      cases hsettled : settled rct.offsets (rct.around b r) with
      | true => simp
      | false =>
          simp only [Bool.false_eq_true, if_false]
          rw [widenOnce_around, ih, Nat.add_assoc, Nat.add_comm 1 n]

def picked (blockOffset : UInt64) : ℕ := rct.offsets.length - 2 - blockOffset.toNat

def window (blockOffset : UInt64) : BlockWindow :=
  rct.around (rct.picked blockOffset) (rct.radius (rct.picked blockOffset))

theorem widen_picked (blockOffset : UInt64) :
    widen rct.offsets gammaPickHalfWindow ⟨rct.picked blockOffset, rct.picked blockOffset⟩ =
      rct.window blockOffset := by
  have htwo := rct.two_le
  have hstart : (⟨rct.picked blockOffset, rct.picked blockOffset⟩ : BlockWindow) =
      rct.around (rct.picked blockOffset) 0 := by
    simp only [around, Nat.sub_zero, Nat.add_zero, BlockWindow.mk.injEq, true_and]
    have : rct.picked blockOffset ≤ rct.offsets.length - 1 := by
      unfold picked
      omega
    omega
  rw [hstart, widen_around, window, radius, Nat.zero_add]

theorem window_le (blockOffset : UInt64) :
    (rct.window blockOffset).firstBlockOffset ≤ (rct.window blockOffset).lastBlockOffset := by
  have htwo := rct.two_le
  simp only [window, around, picked]
  omega

theorem window_lt (blockOffset : UInt64) :
    (rct.window blockOffset).lastBlockOffset < rct.offsets.length := by
  have htwo := rct.two_le
  simp only [window, around]
  omega

/-! ### What is returned -/

variable {rct} {blockOffset : UInt64}

theorem pickGamma_bad (hbad : rct.offsets.length - 1 ≤ blockOffset.toNat) (randIdx : UInt64) :
    pickGamma rct.offsets blockOffset randIdx = .ok badPick := by
  rw [pickGamma, if_pos hbad]
  rfl

theorem pickGamma_good (hgood : blockOffset.toNat < rct.offsets.length - 1) (randIdx : UInt64) :
    pickGamma rct.offsets blockOffset randIdx = .ok
      (if outputsInWindow rct.offsets (rct.window blockOffset) = 0 then
        if rct.offsets.getD (rct.picked blockOffset) 0 = 0 then 0
        else rct.offsets.getD (rct.picked blockOffset) 0 - 1
      else rct.offsets.getD (rct.window blockOffset).firstBlockOffset 0 + randIdx) := by
  have htwo := rct.two_le
  have hpicked : rct.picked blockOffset + 1 < rct.offsets.length := by
    unfold picked
    omega
  have hcalculation : ¬rct.offsets.length - 1 ≤ rct.picked blockOffset := by omega
  have hsorted : ¬rct.offsets.getD (rct.picked blockOffset + 1) 0 <
      rct.offsets.getD (rct.picked blockOffset) 0 := by
    rw [UInt64.lt_iff_toNat_lt, not_lt]
    exact rct.upTo_mono (Nat.le_succ _) hpicked
  rw [pickGamma, if_neg (by omega)]
  show (do
    throwIf (rct.offsets.length - 1 ≤ rct.picked blockOffset) _
    throwIf (rct.offsets.getD (rct.picked blockOffset + 1) 0 <
      rct.offsets.getD (rct.picked blockOffset) 0) _
    _) = _
  rw [throwIf, throwIf, if_neg hcalculation, if_neg hsorted, ← picked, widen_picked]
  by_cases hempty : outputsInWindow rct.offsets (rct.window blockOffset) = 0
  · rw [if_pos hempty, if_pos hempty]
    rfl
  · rw [if_neg hempty, if_neg hempty]
    rfl

/-- What is expected of a pick: the marker, or an output of the window when it has one, each of them
for one value of the random index, and never an output that is not there. -/
def PicksFromWindow (rct : RctOffsets) (blockOffset : UInt64) : Prop :=
  (∀ randIdx, pickGamma rct.offsets blockOffset randIdx = .ok badPick) ∨
    ((outputsInWindow rct.offsets (rct.window blockOffset) ≠ 0 →
      (∀ randIdx < outputsInWindow rct.offsets (rct.window blockOffset), ∃ o,
        pickGamma rct.offsets blockOffset randIdx = .ok o ∧
          rct.InWindow (rct.window blockOffset) o) ∧
      ∀ o, rct.InWindow (rct.window blockOffset) o →
        ∃! randIdx, randIdx < outputsInWindow rct.offsets (rct.window blockOffset) ∧
          pickGamma rct.offsets blockOffset randIdx = .ok o) ∧
      ∀ randIdx o, (outputsInWindow rct.offsets (rct.window blockOffset) = 0 ∨
          randIdx < outputsInWindow rct.offsets (rct.window blockOffset)) →
        pickGamma rct.offsets blockOffset randIdx = .ok o → o.toNat < rct.total)

/-- The random index counts from the end of the first block of the window. -/
theorem pickGamma_window (hgood : blockOffset.toNat < rct.offsets.length - 1)
    (houtputs : outputsInWindow rct.offsets (rct.window blockOffset) ≠ 0) (randIdx : UInt64) :
    pickGamma rct.offsets blockOffset randIdx =
      .ok (rct.offsets.getD (rct.window blockOffset).firstBlockOffset 0 + randIdx) := by
  rw [pickGamma_good hgood, if_neg houtputs]

theorem outputsInWindow_window (rct : RctOffsets) (blockOffset : UInt64) :
    (outputsInWindow rct.offsets (rct.window blockOffset)).toNat =
      rct.upTo (rct.window blockOffset).lastBlockOffset -
        rct.before (rct.window blockOffset).firstBlockOffset :=
  rct.outputsInWindow_toNat (rct.window_le blockOffset) (rct.window_lt blockOffset)

theorem upTo_last_le_total (rct : RctOffsets) (blockOffset : UInt64) :
    rct.upTo (rct.window blockOffset).lastBlockOffset ≤ rct.total := by
  have hlt := rct.window_lt blockOffset
  have htwo := rct.two_le
  exact rct.upTo_mono (by omega) (by omega)

/-- With nothing in the first block, the pick is the output at the random index. -/
theorem pickGamma_toNat (hgood : blockOffset.toNat < rct.offsets.length - 1)
    (hempty : outputsInBlock rct.offsets (rct.window blockOffset).firstBlockOffset = 0)
    {randIdx : UInt64}
    (hlt : randIdx < outputsInWindow rct.offsets (rct.window blockOffset)) :
    ∃ o, pickGamma rct.offsets blockOffset randIdx = .ok o ∧
      o.toNat = rct.before (rct.window blockOffset).firstBlockOffset + randIdx.toNat := by
  have houtputs : outputsInWindow rct.offsets (rct.window blockOffset) ≠ 0 := by
    intro h
    rw [h] at hlt
    exact absurd hlt (by simp)
  refine ⟨_, pickGamma_window hgood houtputs randIdx, ?_⟩
  have hle := rct.window_le blockOffset
  have hlast := rct.window_lt blockOffset
  have hfirst := rct.outputsInBlock_toNat (lt_of_le_of_lt hle hlast)
  have hbefore := rct.before_le_upTo (le_refl (rct.window blockOffset).firstBlockOffset)
    (lt_of_le_of_lt hle hlast)
  have hcount := outputsInWindow_window rct blockOffset
  have hbound : rct.upTo (rct.window blockOffset).lastBlockOffset < 2 ^ 64 := UInt64.toNat_lt _
  rw [hempty, UInt64.toNat_zero] at hfirst
  rw [UInt64.lt_iff_toNat_lt] at hlt
  rw [UInt64.toNat_add]
  change (rct.upTo _ + _) % _ = _
  rw [Nat.mod_eq_of_lt] <;> omega

/-- With something in the first block, one of the picks is the output right after the window. -/
theorem pickGamma_behind (hgood : blockOffset.toNat < rct.offsets.length - 1)
    (hfull : outputsInBlock rct.offsets (rct.window blockOffset).firstBlockOffset ≠ 0) :
    ∃ randIdx < outputsInWindow rct.offsets (rct.window blockOffset),
      pickGamma rct.offsets blockOffset randIdx =
        .ok (rct.offsets.getD (rct.window blockOffset).lastBlockOffset 0) := by
  have hle := rct.window_le blockOffset
  have hlast := rct.window_lt blockOffset
  have hfirst := rct.outputsInBlock_toNat (lt_of_le_of_lt hle hlast)
  have hmono := rct.upTo_mono hle hlast
  have hcount := outputsInWindow_window rct blockOffset
  have hpos : 0 < (outputsInBlock rct.offsets
      (rct.window blockOffset).firstBlockOffset).toNat := by
    rw [Nat.pos_iff_ne_zero]
    exact fun h => hfull (UInt64.toNat_inj.mp h)
  have houtputs : outputsInWindow rct.offsets (rct.window blockOffset) ≠ 0 := by
    intro h
    rw [h, UInt64.toNat_zero] at hcount
    omega
  -- As many short of the end of the window as there are outputs in its first block.
  refine ⟨rct.offsets.getD (rct.window blockOffset).lastBlockOffset 0 -
    rct.offsets.getD (rct.window blockOffset).firstBlockOffset 0, ?_, ?_⟩
  · rw [UInt64.lt_iff_toNat_lt, UInt64.toNat_sub_of_le _ _ (UInt64.le_iff_toNat_le.mpr hmono)]
    change rct.upTo _ - rct.upTo _ < _
    omega
  · rw [pickGamma_window hgood houtputs, add_sub_cancel]

/-- Without outputs in the window, a pick is an output that is there when there are any at all. -/
theorem pickGamma_below (hgood : blockOffset.toNat < rct.offsets.length - 1)
    (hnone : outputsInWindow rct.offsets (rct.window blockOffset) = 0) (hpos : 0 < rct.total)
    (randIdx : UInt64) :
    ∃ o, pickGamma rct.offsets blockOffset randIdx = .ok o ∧ o.toNat < rct.total := by
  have htwo := rct.two_le
  have hle : rct.upTo (rct.picked blockOffset) ≤ rct.total := by
    refine rct.upTo_mono ?_ (by omega)
    unfold picked
    omega
  refine ⟨_, pickGamma_good hgood randIdx, ?_⟩
  rw [if_pos hnone]
  split
  · simpa using hpos
  · next hne =>
      have hone : 0 < rct.upTo (rct.picked blockOffset) := by
        rw [Nat.pos_iff_ne_zero]
        exact fun h => hne (UInt64.toNat_inj.mp h)
      rw [UInt64.toNat_sub_of_le _ 1 (UInt64.le_iff_toNat_le.mpr hone)]
      change rct.upTo _ - 1 < _
      omega

theorem picksFromWindow_of_empty (hgood : blockOffset.toNat < rct.offsets.length - 1)
    (hpos : 0 < rct.total)
    (hempty : outputsInBlock rct.offsets (rct.window blockOffset).firstBlockOffset = 0) :
    PicksFromWindow rct blockOffset := by
  have hinWindow := fun o => rct.inWindow_iff (o := o) (rct.window_le blockOffset)
    (rct.window_lt blockOffset)
  have hcount := outputsInWindow_window rct blockOffset
  have htotal := upTo_last_le_total rct blockOffset
  refine Or.inr ⟨fun houtputs => ⟨?_, ?_⟩, ?_⟩
  · intro randIdx hlt
    obtain ⟨o, hpick, ho⟩ := pickGamma_toNat hgood hempty hlt
    refine ⟨o, hpick, (hinWindow o).mpr ?_⟩
    rw [UInt64.lt_iff_toNat_lt] at hlt
    omega
  · intro o ho
    obtain ⟨hlow, hhigh⟩ := (hinWindow o).mp ho
    have hindex : (o - outputsBefore rct.offsets
        (rct.window blockOffset).firstBlockOffset).toNat =
          o.toNat - rct.before (rct.window blockOffset).firstBlockOffset :=
      UInt64.toNat_sub_of_le _ _ (UInt64.le_iff_toNat_le.mpr hlow)
    have hlt : o - outputsBefore rct.offsets (rct.window blockOffset).firstBlockOffset <
        outputsInWindow rct.offsets (rct.window blockOffset) := by
      rw [UInt64.lt_iff_toNat_lt]
      omega
    refine ⟨_, ⟨hlt, ?_⟩, ?_⟩
    · obtain ⟨o', hpick, ho'⟩ := pickGamma_toNat hgood hempty hlt
      rw [hpick, UInt64.toNat_inj.mp (show o'.toNat = o.toNat by omega)]
    · rintro randIdx ⟨hrand, hpick⟩
      obtain ⟨o', hpick', ho'⟩ := pickGamma_toNat hgood hempty hrand
      have heq : o' = o := Except.ok.inj (hpick'.symm.trans hpick)
      subst heq
      exact UInt64.toNat_inj.mp (by omega)
  · intro randIdx o hrand hpick
    rcases hrand with hnone | hlt
    · obtain ⟨o', hpick', ho'⟩ := pickGamma_below hgood hnone hpos randIdx
      rwa [← Except.ok.inj (hpick'.symm.trans hpick)]
    · obtain ⟨o', hpick', ho'⟩ := pickGamma_toNat hgood hempty hlt
      rw [← Except.ok.inj (hpick'.symm.trans hpick)]
      rw [UInt64.lt_iff_toNat_lt] at hlt
      omega

theorem exists_pickGamma_ne (hgood : blockOffset.toNat < rct.offsets.length - 1) :
    ∃ randIdx, pickGamma rct.offsets blockOffset randIdx ≠ .ok badPick := by
  by_contra hall
  simp only [not_exists, not_not] at hall
  have h₀ := (pickGamma_good hgood 0).symm.trans (hall 0)
  have h₁ := (pickGamma_good hgood 1).symm.trans (hall 1)
  rw [Except.ok.injEq] at h₀ h₁
  by_cases hnone : outputsInWindow rct.offsets (rct.window blockOffset) = 0
  · rw [if_pos hnone] at h₀
    split at h₀
    · exact absurd h₀ (by decide)
    · next hne =>
        refine hne ?_
        rw [← sub_add_cancel (rct.offsets.getD (rct.picked blockOffset) 0) 1, h₀]
        decide
  · rw [if_neg hnone] at h₀ h₁
    exact absurd (add_left_cancel (h₀.trans h₁.symm)) (by decide)

/-- Picks stay in the window exactly where nothing was created in its first block, or where the
pick is a bad one. A distribution of empty blocks has no output to pick either. -/
theorem picksFromWindow_iff (rct : RctOffsets) (blockOffset : UInt64) :
    PicksFromWindow rct blockOffset ↔
      rct.offsets.length - 1 ≤ blockOffset.toNat ∨
        (0 < rct.total ∧
          outputsInBlock rct.offsets
            (rct.picked blockOffset - rct.radius (rct.picked blockOffset)) = 0) := by
  change _ ↔ _ ∨ (_ ∧ outputsInBlock rct.offsets (rct.window blockOffset).firstBlockOffset = 0)
  rcases Nat.lt_or_ge blockOffset.toNat (rct.offsets.length - 1) with hgood | hbad
  · constructor
    · rintro (hmarker | ⟨hpicks, hbelow⟩)
      · obtain ⟨randIdx, hne⟩ := exists_pickGamma_ne hgood
        exact absurd (hmarker randIdx) hne
      · refine Or.inr ⟨?_, ?_⟩
        · by_cases hnone : outputsInWindow rct.offsets (rct.window blockOffset) = 0
          · exact Nat.zero_lt_of_lt (hbelow 0 _ (.inl hnone) (pickGamma_good hgood 0))
          · have hcount := outputsInWindow_window rct blockOffset
            have htotal := upTo_last_le_total rct blockOffset
            have : (outputsInWindow rct.offsets (rct.window blockOffset)).toNat ≠ 0 :=
              fun h => hnone (UInt64.toNat_inj.mp h)
            omega
        · by_contra hfull
          obtain ⟨randIdx, hlt, hpick⟩ := pickGamma_behind hgood hfull
          have houtputs : outputsInWindow rct.offsets (rct.window blockOffset) ≠ 0 := by
            intro h
            rw [h] at hlt
            exact absurd hlt (by simp)
          obtain ⟨o, hpick', hin⟩ := (hpicks houtputs).1 randIdx hlt
          have ho := Except.ok.inj (hpick.symm.trans hpick')
          have hhigh := ((rct.inWindow_iff (rct.window_le blockOffset)
            (rct.window_lt blockOffset)).mp hin).2
          rw [← ho] at hhigh
          exact lt_irrefl _ hhigh
    · rintro (hbad | ⟨hpos, hempty⟩)
      · omega
      · exact picksFromWindow_of_empty hgood hpos hempty
  · exact iff_of_true (.inl (pickGamma_bad hbad)) (.inl hbad)

def fullBlocks : RctOffsets := ⟨[2, 4, 6], by decide, by decide⟩

/-- Drawn from the second block, the pick at the last index is an output of the third one. -/
theorem fullBlocks_not_picksFromWindow : ¬PicksFromWindow fullBlocks 0 := by
  rintro (hmarker | ⟨hpicks, -⟩)
  · exact absurd (hmarker 0) (by decide)
  · obtain ⟨o, hpick, b, hfirst, hlast, -, hupTo⟩ := (hpicks (by decide)).1 1 (by decide)
    have ho : (5 : UInt64) = o := Except.ok.inj hpick
    have hb : b = 1 := le_antisymm hlast hfirst
    subst ho hb
    exact absurd hupTo (by decide)

end RctOffsets

end XrCoin.Wallet

import Mathlib
import XrCoin.Forks.Runs
import XrCoin.Forks.Schedule

/-!
The check of a block for a height, `check_for_height`, on a table without votes.

The fork that it asks for is never below the one in force. For a height at which that one has not
begun, it asks for a version that the schedule does not have there.
-/

namespace XrCoin.Forks

open Cryptonote Data

variable (conf : HardForkConfig)

/-- The block has the version and votes for it or a later one. -/
def Fits (version : UInt8) (b : BlockHeader) : Prop :=
  b.majorVersion = version ∧ version ≤ getBlockVote b

instance instDecidableFits (version : UInt8) (b : BlockHeader) : Decidable (Fits version b) :=
  inferInstanceAs (Decidable (_ ∧ _))

def JudgedByHeight (hf : HardFork) (b : BlockHeader) (height : ℕ) : Prop :=
  checkForHeight conf hf b height = true ↔ Fits (getIdealVersion conf hf.heights height) b

/-- A fork has begun at the height, and so have all up to the one in force. -/
def Begun (hf : HardFork) (height : ℕ) : Prop :=
  (∃ p ∈ hf.heights.tail, p.height ≤ height) ∧
    ∀ p ∈ hf.heights.tail.take hf.currentForkIndex, p.height ≤ height

variable {conf} {hf : HardFork} {height : ℕ} {b : BlockHeader}

theorem check_eq_true : check hf b = true ↔ Fits (getCurrentVersion hf) b := by
  rw [check, decide_eq_true_eq, Fits]

theorem checkForHeight_eq_true : checkForHeight conf hf b height = true ↔
    Fits (versionAt hf.heights (getVotedForkIndex conf hf height)) b := by
  simp only [checkForHeight, decide_eq_true_eq, Fits]

theorem fits_iff_fits {v w : UInt8} : (Fits v b ↔ Fits w b) ↔ v = w ∨ ¬Fits v b ∧ ¬Fits w b := by
  constructor
  · intro hiff
    by_cases hv : Fits v b
    · exact .inl (hv.1.symm.trans (hiff.mp hv).1)
    · exact .inr ⟨hv, fun hw => hv (hiff.mpr hw)⟩
  · rintro (rfl | ⟨hv, hw⟩)
    · exact Iff.rfl
    · exact iff_of_false hv hw

/-! ### What has begun -/

theorem Ordered.exists_begun_iff {heights : List Params} (h : Ordered heights) :
    (∃ p ∈ heights.tail, p.height ≤ height) ↔ 0 < scheduledIndex heights height := by
  constructor
  · rintro ⟨p, hp, hle⟩
    obtain ⟨n, hn, rfl⟩ := List.getElem_of_mem hp
    rw [List.getElem_tail] at hle
    rw [List.length_tail] at hn
    exact Nat.zero_lt_of_lt ((h.height_le_iff (by omega)).mp hle)
  · intro hpos
    have hnonempty : heights ≠ [] := by
      rintro rfl
      exact absurd hpos (Nat.lt_irrefl 0)
    have hlt : scheduledIndex heights height < heights.length := scheduledIndex_lt hnonempty
    have htail : scheduledIndex heights height - 1 < heights.tail.length := by
      rw [List.length_tail]
      omega
    refine ⟨heights.tail[scheduledIndex heights height - 1], List.getElem_mem htail, ?_⟩
    rw [List.getElem_tail]
    exact (h.height_le_iff (by omega)).mpr (by omega)

theorem Ordered.begun_iff {heights : List Params} (h : Ordered heights) {index : ℕ}
    (hindex : index < heights.length) :
    (∀ p ∈ heights.tail.take index, p.height ≤ height) ↔ index ≤ scheduledIndex heights height := by
  constructor
  · intro hbegun
    cases index with
    | zero => exact Nat.zero_le _
    | succ n =>
        have htail : n < heights.tail.length := by
          rw [List.length_tail]
          omega
        have hlast : heights.tail[n].height ≤ height :=
          hbegun _ (List.mem_take_iff_getElem.mpr ⟨n, by omega, rfl⟩)
        rw [List.getElem_tail] at hlast
        exact (h.height_le_iff hindex).mp hlast
  · intro hle p hp
    obtain ⟨n, hn, rfl⟩ := List.mem_take_iff_getElem.mp hp
    rw [lt_min_iff, List.length_tail] at hn
    rw [List.getElem_tail]
    exact (h.height_le_iff (by omega)).mpr (by omega)

/-! ### The check -/

theorem checkForHeight_of_begun (htable : Table hf.heights) (hzero : ZeroThresholds hf.heights)
    (hindex : hf.currentForkIndex < hf.heights.length) (hbegun : Begun hf height) :
    checkForHeight conf hf b height = true ↔ Fits (getIdealVersion conf hf.heights height) b := by
  have hpos := htable.ordered.exists_begun_iff.mp hbegun.1
  have hle := (htable.ordered.begun_iff hindex).mp hbegun.2
  have hvoted : getVotedForkIndex conf hf height = scheduledIndex hf.heights height := by
    rw [htable.getVotedForkIndex hzero hf.votes hf.currentForkIndex height]
    exact max_eq_right hle
  have hideal : getIdealVersion conf hf.heights height = scheduledVersion hf.heights height :=
    htable.ordered.getIdealVersion fun hnone => absurd hnone hpos.ne'
  rw [checkForHeight_eq_true, hvoted, hideal, scheduledVersion]

/-- Elsewhere it asks for the version in force, like `check`. -/
theorem checkForHeight_of_not_begun (htable : Table hf.heights)
    (hzero : ZeroThresholds hf.heights) (hindex : hf.currentForkIndex < hf.heights.length)
    (hbegun : ¬Begun hf height) : checkForHeight conf hf b height = check hf b := by
  have hle : scheduledIndex hf.heights height ≤ hf.currentForkIndex := by
    by_contra hlt
    apply hbegun
    exact ⟨htable.ordered.exists_begun_iff.mpr (by omega),
      (htable.ordered.begun_iff hindex).mpr (by omega)⟩
  have hvoted : getVotedForkIndex conf hf height = hf.currentForkIndex := by
    rw [htable.getVotedForkIndex hzero hf.votes hf.currentForkIndex height]
    exact max_eq_left hle
  rw [Bool.eq_iff_iff, checkForHeight_eq_true, hvoted, check_eq_true, getCurrentVersion]

/-- A block is judged by the version that is ideal for its height exactly when the forks up to the
one in force have begun there, when the version in force is the ideal one all the same, or when the
block fits neither of the two. -/
theorem judgedByHeight_iff (htable : Table hf.heights) (hzero : ZeroThresholds hf.heights)
    (hindex : hf.currentForkIndex < hf.heights.length) (b : BlockHeader) (height : ℕ) :
    JudgedByHeight conf hf b height ↔
      Begun hf height ∨ getCurrentVersion hf = getIdealVersion conf hf.heights height ∨
        ¬Fits (getCurrentVersion hf) b ∧ ¬Fits (getIdealVersion conf hf.heights height) b := by
  by_cases hbegun : Begun hf height
  · exact iff_of_true (checkForHeight_of_begun htable hzero hindex hbegun) (.inl hbegun)
  · rw [JudgedByHeight, checkForHeight_of_not_begun htable hzero hindex hbegun, check_eq_true,
      fits_iff_fits, or_iff_right hbegun]

/-- The chain is at the second fork. A block of the first version at a height of that version is
refused. -/
theorem smallChain_not_judgedByHeight :
    ∃ hf db, Run (smallConf 1) twoForks hf db ∧ ZeroThresholds hf.heights ∧
      ¬JudgedByHeight (smallConf 1) hf (header 1 1) 1 := by
  have hrun : (smallRun 1 (smallChain.map .add)).map
      (fun s => (s.1.heights, checkForHeight (smallConf 1) s.1 (header 1 1) 1)) =
      some (twoForks, false) := by decide
  obtain ⟨⟨hf, db⟩, hs, heq⟩ := Option.map_eq_some_iff.mp hrun
  have hheights : hf.heights = twoForks := congrArg Prod.fst heq
  have hrefused : checkForHeight (smallConf 1) hf (header 1 1) 1 = false := congrArg Prod.snd heq
  refine ⟨hf, db, run_smallRun hs, ?_, ?_⟩
  · rw [hheights, ZeroThresholds]
    decide
  · rw [JudgedByHeight, hrefused, hheights]
    decide

/-- At the height of the second fork a block is judged by its height. -/
theorem smallChain_judgedByHeight :
    JudgedByHeight (smallConf 1) ⟨twoForks, .empty, 1⟩ (header 2 2) 2 := by
  refine (judgedByHeight_iff ⟨by decide, ?_⟩ ?_ (by decide) _ _).mpr (.inr (.inl (by decide)))
  · exact filled_twoForks.ordered
  · show ∀ p ∈ twoForks, p.threshold = 0
    decide

end XrCoin.Forks

import XrCoin.Forks.Replay

/-!
Tables without votes. When no fork has a threshold, the votes do not matter and the
fork in force is the one that the heights schedule.
-/

namespace XrCoin.Forks

open Cryptonote Data

/-- The forks happen at their heights, whatever the blocks vote. -/
def ZeroThresholds (heights : List Params) : Prop := ∀ p ∈ heights, p.threshold = 0

/-- The entry that is scheduled for a height. The first one needs no height. -/
def scheduledIndex (heights : List Params) (height : ℕ) : ℕ :=
  (heights.tail.takeWhile fun p => p.height ≤ height).length

def scheduledVersion (heights : List Params) (height : ℕ) : UInt8 :=
  versionAt heights (scheduledIndex heights height)

section

variable {heights : List Params} {height : ℕ}

theorem scheduledIndex_lt (h : heights ≠ []) : scheduledIndex heights height < heights.length := by
  have hle := (List.takeWhile_sublist (fun p : Params => p.height ≤ height)
    (l := heights.tail)).length_le
  have hpos := List.length_pos_of_ne_nil h
  rw [List.length_tail] at hle
  rw [scheduledIndex]
  omega

theorem scheduledIndex_mono {height' : ℕ} (h : height ≤ height') :
    scheduledIndex heights height ≤ scheduledIndex heights height' := by
  rw [scheduledIndex, scheduledIndex]
  induction heights.tail with
  | nil => exact le_rfl
  | cons p ps ih =>
      rw [List.takeWhile_cons, List.takeWhile_cons]
      by_cases hp : p.height ≤ height
      · simp only [hp, hp.trans h, decide_true, if_true, List.length_cons]
        omega
      · simp [hp]

theorem length_takeWhile_le_iff {ps : List Params} (h : Ordered ps) {n : ℕ} (hn : n < ps.length) :
    ps[n].height ≤ height ↔ n < (ps.takeWhile fun p => p.height ≤ height).length := by
  induction ps generalizing n with
  | nil => exact absurd hn (by simp)
  | cons p ps ih =>
      rw [Ordered, List.pairwise_cons] at h
      rw [List.takeWhile_cons]
      by_cases hp : p.height ≤ height
      · simp only [hp, decide_true, if_true, List.length_cons]
        cases n with
        | zero => simpa using hp
        | succ n =>
            rw [List.getElem_cons_succ, ih h.2]
            omega
      · simp only [hp, decide_false, Bool.false_eq_true, if_false, List.length_nil]
        cases n with
        | zero => simpa using hp
        | succ n =>
            -- the later entries begin later still
            have hlt := (h.1 _ (List.getElem_mem (l := ps) (by simpa using hn))).2
            rw [List.getElem_cons_succ]
            omega

/-- An entry behind the first has begun when it is not behind the scheduled one. -/
theorem Ordered.height_le_iff (h : Ordered heights) {n : ℕ} (hn : n + 1 < heights.length) :
    heights[n + 1].height ≤ height ↔ n + 1 ≤ scheduledIndex heights height := by
  have htail : n < heights.tail.length := by
    rw [List.length_tail]
    omega
  rw [← List.getElem_tail (h := htail), length_takeWhile_le_iff (h.sublist (List.tail_sublist _))]
  rfl

variable {conf : HardForkConfig}

theorem ZeroThresholds.votesNeeded (h : ZeroThresholds heights) {p : Params} (hp : p ∈ heights) :
    votesNeeded conf p = 0 := by
  rw [Forks.votesNeeded, h p hp]
  have hzero : conf.windowSize * UInt8.toUInt64 0 = 0 := UInt64.mul_zero
  rw [hzero]
  rfl

theorem votedForkIndexLoop_scheduled (hordered : Ordered heights) (hzero : ZeroThresholds heights)
    (counts : UInt8 → UInt32) (current : ℕ) {n : ℕ} (hn : n < heights.length)
    (accumulatedVotes : UInt32) :
    votedForkIndexLoop conf heights counts current height n accumulatedVotes =
      max current (min n (scheduledIndex heights height)) := by
  induction n generalizing accumulatedVotes with
  | zero =>
      rw [votedForkIndexLoop]
      omega
  | succ n ih =>
      rw [votedForkIndexLoop]
      split
      · omega
      · rename_i hbehind
        have hheight : heights[n + 1].height ≤ height ↔ n + 1 ≤ scheduledIndex heights height :=
          hordered.height_le_iff hn
        rw [List.getElem?_eq_getElem hn]
        simp only [hzero.votesNeeded (List.getElem_mem hn), UInt32.zero_le, and_true]
        split
        · rename_i hbegun
          have hle := hheight.mp hbegun
          omega
        · rename_i hbegun
          have hlt := mt hheight.mpr hbegun
          rw [ih (by omega)]
          omega

theorem Table.getVotedForkIndex (htable : Table heights) (hzero : ZeroThresholds heights)
    (votes : Window UInt8) (current height : ℕ) :
    getVotedForkIndex conf ⟨heights, votes, current⟩ height =
      max current (scheduledIndex heights height) := by
  have hlt : scheduledIndex heights height < heights.length := scheduledIndex_lt htable.nonempty
  show votedForkIndexLoop conf heights votes.counts current height (heights.length - 1) 0 = _
  rw [votedForkIndexLoop_scheduled htable.ordered hzero _ _ (by omega)]
  omega

/-- Without thresholds the index is raised to what is scheduled. -/
theorem Table.raiseToVoted (htable : Table heights) (hzero : ZeroThresholds heights)
    (votes : Window UInt8) {current : ℕ} (hcurrent : current < heights.length) (height : ℕ) :
    raiseToVoted conf ⟨heights, votes, current⟩ height =
      ⟨heights, votes, max current (scheduledIndex heights height)⟩ := by
  have hlt : scheduledIndex heights height < heights.length := scheduledIndex_lt htable.nonempty
  have hlength := htable.ordered.length_le
  have hfits : (UInt8.ofNat (max current (scheduledIndex heights height))).toNat =
      max current (scheduledIndex heights height) := by
    rw [UInt8.toNat_ofNat']
    omega
  rw [Forks.raiseToVoted, htable.getVotedForkIndex hzero, hfits, HardFork.mk.injEq]
  refine ⟨rfl, rfl, ?_⟩
  show (if current < max current (scheduledIndex heights height) then
    max current (scheduledIndex heights height) else current) = _
  split <;> omega

theorem scheduledIndex_zero (h : Ordered heights) : scheduledIndex heights 0 = 0 := by
  rw [scheduledIndex]
  cases heights with
  | nil => rfl
  | cons first rest =>
      cases rest with
      | nil => rfl
      | cons second rest =>
          have hlt := ((List.pairwise_cons.mp h).1 second List.mem_cons_self).2
          rw [List.tail_cons, List.takeWhile_cons, if_neg (by simp; omega), List.length_nil]

theorem Table.forkIndexAt (htable : Table heights) (hzero : ZeroThresholds heights)
    (blocks : List BlockHeader) (height : ℕ) :
    forkIndexAt conf heights blocks height = scheduledIndex heights height := by
  induction height with
  | zero => rw [Forks.forkIndexAt, scheduledIndex_zero htable.ordered]
  | succ height ih =>
      have hlt : scheduledIndex heights height < heights.length :=
        scheduledIndex_lt htable.nonempty
      rw [Forks.forkIndexAt, ih, htable.raiseToVoted hzero _ hlt]
      exact max_eq_right (scheduledIndex_mono (Nat.le_succ height))

theorem find_reverse_eq_getLast {ps : List Params} (h : Ordered ps) :
    (ps.reverse.find? fun p => p.height ≤ height) =
      (ps.takeWhile fun p => p.height ≤ height).getLast? := by
  induction ps with
  | nil => rfl
  | cons p ps ih =>
      rw [Ordered, List.pairwise_cons] at h
      rw [List.reverse_cons, List.find?_append, List.takeWhile_cons, ih h.2]
      by_cases hp : p.height ≤ height
      · simp only [hp, decide_true, if_true, List.find?_cons_of_pos, List.getLast?_cons]
        cases (ps.takeWhile fun p => p.height ≤ height).getLast? <;> rfl
      · have hnone : ps.takeWhile (fun p => p.height ≤ height) = [] := by
          cases ps with
          | nil => rfl
          | cons q qs =>
              have hlt := (h.1 q List.mem_cons_self).2
              rw [List.takeWhile_cons, if_neg (by simp; omega)]
        simp [hp, hnone]

theorem Ordered.getIdealVersion (h : Ordered heights)
    (hfirst : scheduledIndex heights height = 0 → conf.originalVersion = versionAt heights 0) :
    getIdealVersion conf heights height = scheduledVersion heights height := by
  rw [Forks.getIdealVersion, find_reverse_eq_getLast (h.sublist (List.tail_sublist _)),
    scheduledVersion]
  rcases List.eq_nil_or_concat (heights.tail.takeWhile fun p => p.height ≤ height) with
    hnil | ⟨front, p, hconcat⟩
  · have hindex : scheduledIndex heights height = 0 := by rw [scheduledIndex, hnil, List.length_nil]
    rw [hnil, List.getLast?_nil, hindex]
    exact hfirst hindex
  · rw [List.concat_eq_append] at hconcat
    have hindex : scheduledIndex heights height = front.length + 1 := by
      rw [scheduledIndex, hconcat, List.length_append, List.length_singleton]
    -- the last entry of the prefix stands at the scheduled index
    have hget : heights[front.length + 1]? = some p := by
      have hprefix := List.takeWhile_prefix (fun p : Params => p.height ≤ height) (l := heights.tail)
      rw [hconcat] at hprefix
      obtain ⟨rest, hrest⟩ := hprefix
      rw [← List.getElem?_tail, ← hrest, List.getElem?_append_left (by simp),
        List.getElem?_concat_length]
    rw [hconcat, List.getLast?_concat, hindex, versionAt, hget]
    rfl

end

end XrCoin.Forks

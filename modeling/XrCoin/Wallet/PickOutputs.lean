import Mathlib
import XrCoin.Wallet.PickGamma

/-!
The loop of `get_outs` that picks the outputs to ask for: a first pass that rejects the outputs
marked as spent, and a second one that takes them.

`num_usable_outs` is an integer here. It never falls below the number of indices seen.
-/

namespace XrCoin.Wallet

open Data

structure PickJob where
  numOuts : UInt64
  requestedOutputsCount : ℕ
  /-- `is_output_blackballed`, for the amount of the transfer. -/
  blackballed : UInt64 → Bool

structure PickState where
  numFound : ℕ
  seenIndices : Finset UInt64
  numUsableOuts : ℤ
  allowBlackballed : Bool
  /-- What is asked for. -/
  outputs : List UInt64

namespace PickJob

variable (job : PickJob)

/-- Up to the next draw. The flag tells that the loop is over. -/
def beforePick (st : PickState) : Bool × PickState :=
  if job.requestedOutputsCount ≤ st.numFound then
    (true, st)
  else if (st.seenIndices.card : ℤ) = st.numUsableOuts then
    if st.allowBlackballed then
      (true, st)
    else
      (false, { st with allowBlackballed := true, numUsableOuts := job.numOuts.toNat })
  else
    (false, st)

def takePick (st : PickState) (i : UInt64) : PickState :=
  if i ∈ st.seenIndices then
    st
  else if ¬st.allowBlackballed ∧ job.blackballed i then
    { st with numUsableOuts := st.numUsableOuts - 1 }
  else
    { st with
      seenIndices := insert i st.seenIndices
      outputs := st.outputs ++ [i]
      numFound := st.numFound + 1 }

def pickLoop : List UInt64 → PickState → Bool × PickState
  | [], st => job.beforePick st
  | i :: picks, st =>
      match job.beforePick st with
      | (true, st') => (true, st')
      | (false, st') => pickLoop picks (job.takePick st' i)

def startPicks (used : List UInt64) : PickState where
  numFound := used.length
  seenIndices := used.toFinset
  numUsableOuts := job.numOuts.toNat
  allowBlackballed := false
  outputs := used

/-! ### The draws behind the picks -/

structure Distribution where
  /-- The offsets of the RCT outputs, or the distribution for the amount. -/
  offsets : List UInt64
  gammaRct : Bool
  /-- `segregation_limit`, its first part. -/
  segregationLimit : UInt64
  /-- Up to here, what is found has to be from before the fork. -/
  preForkCount : ℕ
  postForkCount : ℕ

structure Draw where
  offset : UInt64
  randIdx : UInt64

def pickGammaNonrct (outputIndex : UInt64) : UInt64 :=
  if job.numOuts ≤ outputIndex then badPick else job.numOuts - 1 - outputIndex

def drawIndex (dist : Distribution) (draw : Draw) : Except String UInt64 := do
  if dist.gammaRct then
    pickGamma dist.offsets draw.offset draw.randIdx
  else
    throwIf (dist.offsets.length ≤ 1) "bad nonrct distribution size"
    throwIf (dist.offsets.getLastD 0 < dist.offsets.headD 0) "bad nonrct distribution"
    return job.pickGammaNonrct draw.offset

def lets (dist : Distribution) (numFound : ℕ) (i : UInt64) : Bool :=
  if numFound - 1 < dist.preForkCount then
    decide (i < dist.segregationLimit)
  else if numFound - 1 < dist.preForkCount + dist.postForkCount then
    decide (dist.segregationLimit ≤ i ∧ i < job.numOuts)
  else
    decide (i < job.numOuts)

def drawPick (dist : Distribution) (numFound : ℕ) : List Draw → Except String (Option UInt64)
  | [] => .ok none
  | draw :: draws => do
      let i ← job.drawIndex dist draw
      if job.lets dist numFound i then
        return some i
      drawPick dist numFound draws

def pickOutputs (dist : Distribution) : List (List Draw) → PickState →
    Except String (Bool × PickState)
  | [], st => .ok (job.beforePick st)
  | draws :: turns, st =>
      match job.beforePick st with
      | (true, st') => .ok (true, st')
      | (false, st') => do
          match ← job.drawPick dist st'.numFound draws with
          | none => .ok (false, st')
          | some i => pickOutputs dist turns (job.takePick st' i)

theorem pickOutputs_eq_pickLoop {dist : Distribution} {turns : List (List Draw)} {st st' : PickState}
    {done : Bool} (h : job.pickOutputs dist turns st = .ok (done, st')) :
    ∃ picks, job.pickLoop picks st = (done, st') := by
  induction turns generalizing st with
  | nil => exact ⟨[], Except.ok.inj h⟩
  | cons draws turns ih =>
      rw [pickOutputs] at h
      rcases hbefore : job.beforePick st with ⟨b, stBefore⟩
      rw [hbefore] at h
      cases b with
      | true => exact ⟨[], hbefore.trans (Except.ok.inj h)⟩
      | false =>
          obtain ⟨pick, -, hrest⟩ := bind_eq_ok.mp h
          cases pick with
          | none => exact ⟨[], hbefore.trans (Except.ok.inj hrest)⟩
          | some i =>
              obtain ⟨picks, hpicks⟩ := ih hrest
              refine ⟨i :: picks, ?_⟩
              rw [pickLoop, hbefore]
              exact hpicks

/-! ### The two passes -/

theorem beforePick_cases (st : PickState) :
    (job.requestedOutputsCount ≤ st.numFound ∧ job.beforePick st = (true, st)) ∨
      (st.numFound < job.requestedOutputsCount ∧ (st.seenIndices.card : ℤ) = st.numUsableOuts ∧
        (st.allowBlackballed = true ∧ job.beforePick st = (true, st) ∨
          st.allowBlackballed = false ∧ job.beforePick st =
            (false, { st with allowBlackballed := true, numUsableOuts := job.numOuts.toNat }))) ∨
      (st.numFound < job.requestedOutputsCount ∧ (st.seenIndices.card : ℤ) ≠ st.numUsableOuts ∧
        job.beforePick st = (false, st)) := by
  rcases Nat.lt_or_ge st.numFound job.requestedOutputsCount with hlt | hle
  · by_cases hall : (st.seenIndices.card : ℤ) = st.numUsableOuts
    · cases hallow : st.allowBlackballed <;>
        simp [beforePick, Nat.not_le.mpr hlt, hall, hallow, hlt]
    · simp [beforePick, Nat.not_le.mpr hlt, hall, hlt]
  · simp [beforePick, hle]

theorem beforePick_allow {st : PickState} (h : st.allowBlackballed = true) :
    (job.beforePick st).2 = st := by
  rcases job.beforePick_cases st with ⟨-, heq⟩ | ⟨-, -, ⟨-, heq⟩ | ⟨hnot, -⟩⟩ | ⟨-, -, heq⟩
  · rw [heq]
  · rw [heq]
  · rw [h] at hnot
    contradiction
  · rw [heq]

theorem takePick_allow (st : PickState) (i : UInt64) :
    (job.takePick st i).allowBlackballed = st.allowBlackballed := by
  unfold takePick
  split_ifs <;> rfl

/-- The second pass is never left. -/
theorem pickLoop_allow {st : PickState} (h : st.allowBlackballed = true) (picks : List UInt64) :
    (job.pickLoop picks st).2.allowBlackballed = true := by
  induction picks generalizing st with
  | nil => rwa [pickLoop, job.beforePick_allow h]
  | cons i picks ih =>
      have hbefore := job.beforePick_allow h
      rw [pickLoop]
      rcases hcase : job.beforePick st with ⟨_ | _, st'⟩
      · rw [hcase] at hbefore
        subst hbefore
        exact ih ((job.takePick_allow _ i).trans h)
      · rw [hcase] at hbefore
        subst hbefore
        exact h

/-- The picks that are new and not marked as spent. -/
def newOutputs (seen : Finset UInt64) (picks : List UInt64) : ℕ :=
  (picks.filter fun i => i ∉ seen ∧ ¬job.blackballed i).toFinset.card

def rejected (seen : Finset UInt64) (picks : List UInt64) : ℕ :=
  picks.countP fun i => i ∉ seen ∧ job.blackballed i

theorem newOutputs_nil (seen : Finset UInt64) : job.newOutputs seen [] = 0 := rfl

theorem rejected_nil (seen : Finset UInt64) : job.rejected seen [] = 0 := rfl

theorem newOutputs_of_seen {seen : Finset UInt64} {i : UInt64} (h : i ∈ seen)
    (picks : List UInt64) : job.newOutputs seen (i :: picks) = job.newOutputs seen picks := by
  simp [newOutputs, h]

theorem rejected_of_seen {seen : Finset UInt64} {i : UInt64} (h : i ∈ seen) (picks : List UInt64) :
    job.rejected seen (i :: picks) = job.rejected seen picks := by
  simp [rejected, h]

theorem newOutputs_of_blackballed {seen : Finset UInt64} {i : UInt64}
    (h : job.blackballed i = true) (picks : List UInt64) :
    job.newOutputs seen (i :: picks) = job.newOutputs seen picks := by
  simp [newOutputs, h]

theorem rejected_of_blackballed {seen : Finset UInt64} {i : UInt64} (hnew : i ∉ seen)
    (h : job.blackballed i = true) (picks : List UInt64) :
    job.rejected seen (i :: picks) = job.rejected seen picks + 1 := by
  simp [rejected, hnew, h]

theorem newOutputs_of_new {seen : Finset UInt64} {i : UInt64} (hnew : i ∉ seen)
    (h : job.blackballed i = false) (picks : List UInt64) :
    job.newOutputs seen (i :: picks) = job.newOutputs (insert i seen) picks + 1 := by
  have hsplit : ((i :: picks).filter fun j => j ∉ seen ∧ ¬job.blackballed j).toFinset =
      insert i ((picks.filter fun j => j ∉ insert i seen ∧ ¬job.blackballed j).toFinset) := by
    ext j
    by_cases hj : j = i
    · simp [hj, hnew, h]
    · simp [hj]
  rw [newOutputs, hsplit, Finset.card_insert_of_notMem (by simp), newOutputs]

theorem rejected_of_new {seen : Finset UInt64} {i : UInt64}
    (h : job.blackballed i = false) (picks : List UInt64) :
    job.rejected seen (i :: picks) = job.rejected (insert i seen) picks := by
  have hsame : ∀ j, (j ∉ seen ∧ job.blackballed j = true) ↔
      (j ∉ insert i seen ∧ job.blackballed j = true) := by
    intro j
    by_cases hj : j = i
    · simp [hj, h]
    · simp [hj]
  simp only [rejected, List.countP_cons, h, hsame]
  simp

/-- Fewer outputs than requested after some picks, and no output left that was not seen or
rejected. -/
def RunsOut (numFound : ℕ) (seen : Finset UInt64) (numUsableOuts : ℤ) (picks : List UInt64) : Prop :=
  numFound + job.newOutputs seen picks < job.requestedOutputsCount ∧
    (seen.card + job.newOutputs seen picks + job.rejected seen picks : ℤ) = numUsableOuts

theorem runsOut_cons {st : PickState} (h : st.allowBlackballed = false) (i : UInt64)
    (picks : List UInt64) :
    job.RunsOut st.numFound st.seenIndices st.numUsableOuts (i :: picks) ↔
      job.RunsOut (job.takePick st i).numFound (job.takePick st i).seenIndices
        (job.takePick st i).numUsableOuts picks := by
  by_cases hseen : i ∈ st.seenIndices
  · rw [RunsOut, job.newOutputs_of_seen hseen, job.rejected_of_seen hseen, takePick, if_pos hseen,
      RunsOut]
  · cases hspent : job.blackballed i with
    | true =>
        rw [RunsOut, job.newOutputs_of_blackballed hspent,
          job.rejected_of_blackballed hseen hspent, takePick, if_neg hseen, if_pos (by simp [h, hspent]),
          RunsOut]
        push_cast
        constructor <;> rintro ⟨hfew, hall⟩ <;> exact ⟨hfew, by omega⟩
    | false =>
        rw [RunsOut, job.newOutputs_of_new hseen hspent, job.rejected_of_new hspent, takePick,
          if_neg hseen, if_neg (by simp [hspent]), RunsOut]
        simp only [Finset.card_insert_of_notMem hseen]
        push_cast
        constructor <;> rintro ⟨hfew, hall⟩ <;> exact ⟨by omega, by omega⟩

theorem beforePick_of_runsOut {st : PickState} (h : st.allowBlackballed = false)
    (hout : job.RunsOut st.numFound st.seenIndices st.numUsableOuts []) :
    ∃ st', job.beforePick st = (false, st') ∧ st'.allowBlackballed = true := by
  obtain ⟨hfew, hall⟩ := hout
  rw [newOutputs_nil, rejected_nil] at hall
  rw [newOutputs_nil] at hfew
  rcases job.beforePick_cases st with ⟨hle, -⟩ | ⟨-, -, ⟨hallow, -⟩ | ⟨-, heq⟩⟩ | ⟨-, hne, -⟩
  · omega
  · rw [h] at hallow
    contradiction
  · exact ⟨_, heq, rfl⟩
  · exact absurd (by simpa using hall) hne

theorem beforePick_of_not_runsOut {st : PickState}
    (hout : ¬job.RunsOut st.numFound st.seenIndices st.numUsableOuts []) :
    job.requestedOutputsCount ≤ st.numFound ∧ job.beforePick st = (true, st) ∨
      job.beforePick st = (false, st) := by
  rcases job.beforePick_cases st with hfound | ⟨hlt, hall, -⟩ | ⟨-, -, heq⟩
  · exact Or.inl hfound
  · exact absurd ⟨by simpa [newOutputs_nil] using hlt, by simpa [newOutputs_nil, rejected_nil]⟩ hout
  · exact Or.inr heq

/-- The second pass begins exactly when the outputs run out after some of the picks. -/
theorem pickLoop_allow_iff {st : PickState} (h : st.allowBlackballed = false) (picks : List UInt64) :
    (job.pickLoop picks st).2.allowBlackballed = true ↔
      ∃ taken, taken <+: picks ∧
        job.RunsOut st.numFound st.seenIndices st.numUsableOuts taken := by
  induction picks generalizing st with
  | nil =>
      simp only [List.prefix_nil, exists_eq_left, pickLoop]
      by_cases hnow : job.RunsOut st.numFound st.seenIndices st.numUsableOuts []
      · obtain ⟨st', hbefore, hallow⟩ := job.beforePick_of_runsOut h hnow
        rw [hbefore]
        exact iff_of_true hallow hnow
      · rcases job.beforePick_of_not_runsOut hnow with ⟨-, hbefore⟩ | hbefore
        · rw [hbefore]
          exact iff_of_false (by simp [h]) hnow
        · rw [hbefore]
          exact iff_of_false (by simp [h]) hnow
  | cons i picks ih =>
      by_cases hnow : job.RunsOut st.numFound st.seenIndices st.numUsableOuts []
      · obtain ⟨st', hbefore, hallow⟩ := job.beforePick_of_runsOut h hnow
        rw [pickLoop, hbefore]
        refine iff_of_true (job.pickLoop_allow ?_ picks) ⟨[], List.nil_prefix, hnow⟩
        rw [takePick_allow, hallow]
      · rcases job.beforePick_of_not_runsOut hnow with ⟨hfound, hbefore⟩ | hbefore
        · rw [pickLoop, hbefore]
          refine iff_of_false (by simp [h]) ?_
          rintro ⟨taken, -, hfew, -⟩
          omega
        · rw [pickLoop, hbefore]
          refine (ih ((job.takePick_allow st i).trans h)).trans ?_
          constructor
          · rintro ⟨taken, hprefix, hout⟩
            exact ⟨i :: taken, List.cons_prefix_cons.mpr ⟨rfl, hprefix⟩,
              (job.runsOut_cons h i taken).mpr hout⟩
          · rintro ⟨taken, hprefix, hout⟩
            rcases List.prefix_cons_iff.mp hprefix with rfl | ⟨taken, rfl, hprefix'⟩
            · exact absurd hout hnow
            · exact ⟨taken, hprefix', (job.runsOut_cons h i taken).mp hout⟩

/-- The number of usable outputs that are not marked as spent. -/
def notBlackballed : ℕ :=
  ((List.range job.numOuts.toNat).filter fun i => ¬job.blackballed (UInt64.ofNat i)).length

/-- What is expected of the loop: it begins to take outputs marked as spent only when there are not
enough others. -/
def LastResort (used picks : List UInt64) : Prop :=
  (job.pickLoop picks (job.startPicks used)).2.allowBlackballed = true →
    job.notBlackballed < job.requestedOutputsCount

/-- Outputs marked as spent are a last resort exactly where the picks, counted again each time they
are rejected, never make up for outputs that were not seen. -/
theorem lastResort_iff (used picks : List UInt64) :
    job.LastResort used picks ↔
      job.notBlackballed < job.requestedOutputsCount ∨
        ∀ taken, taken <+: picks →
          used.length + job.newOutputs used.toFinset taken < job.requestedOutputsCount →
          used.toFinset.card + job.newOutputs used.toFinset taken +
            job.rejected used.toFinset taken ≠ job.numOuts.toNat := by
  have hallow : (job.pickLoop picks (job.startPicks used)).2.allowBlackballed = true ↔
      ∃ taken, taken <+: picks ∧
        job.RunsOut used.length used.toFinset job.numOuts.toNat taken :=
    job.pickLoop_allow_iff (show (job.startPicks used).allowBlackballed = false from rfl) picks
  rw [LastResort, hallow]
  constructor
  · intro h
    rcases Nat.lt_or_ge job.notBlackballed job.requestedOutputsCount with hfew | hmany
    · exact Or.inl hfew
    · refine Or.inr fun taken hprefix hlt hall => ?_
      exact absurd (h ⟨taken, hprefix, hlt, by exact_mod_cast hall⟩) (Nat.not_lt.mpr hmany)
  · rintro (hfew | hnever) ⟨taken, hprefix, hlt, hall⟩
    · exact hfew
    · exact absurd (by exact_mod_cast hall) (hnever taken hprefix hlt)

/-- Five outputs, the last of them marked as spent, and four to ask for. -/
def fiveOutputs : PickJob := ⟨5, 4, fun i => i = 4⟩

/-- The four others are enough, but the last one is drawn four times. -/
theorem fiveOutputs_not_lastResort : ¬fiveOutputs.LastResort [0] [4, 4, 4, 4] := by
  intro h
  exact absurd (h (by decide)) (by decide)

end PickJob

end XrCoin.Wallet

import XrCoin.Blockchain.Difficulty

/-!
`recalculate_difficulties` computes the cumulative difficulties again from a height
on, and writes them over the stored ones from the first that differs.

What it computes depends on the blocks below the start and on the timestamps only
(`recompute`). So it finds nothing to write on a chain that has these values, be it
because the chain grew that way or because they were just written.
-/

namespace XrCoin.Blockchain

open Cryptonote Forks

/-! ### The model -/

variable (cfg : DifficultyConfig) (conf : HardForkConfig) (heights : List Params)

def recalculatedDiff (window : List BlockInfo) (height : ℕ) : Difficulty :=
  let version := getIdealVersion conf heights height
  windowDifficulty cfg heights window (difficultyTarget cfg version height) height version

/-- The window for the next height: the genesis block stays out of it, and it keeps
its length. -/
def slideWindow (window : List BlockInfo) (height : ℕ) (e : BlockInfo) : List BlockInfo :=
  let window := if 0 < height then window ++ [e] else window
  if cfg.difficultyBlocksCount < window.length then window.tail else window

/-- The loop over the blocks from a height on, or nothing when the sum overflows and it
throws. It returns where the drift begins, with 0 for nowhere, and the values from
there on. -/
def recalculateLoop : List BlockInfo → ℕ → List BlockInfo → Difficulty → ℕ → List Difficulty →
    Option (ℕ × List Difficulty)
  | [], _, _, _, driftStartHeight, news => some (driftStartHeight, news)
  | e :: es, height, window, lastCumDiff, driftStartHeight, news =>
      let diff := recalculatedDiff cfg conf heights window height
      if 2 ^ 128 ≤ diff.toNat + lastCumDiff.toNat then none
      else
        let cumDiff := diff + lastCumDiff
        let drift :=
          if driftStartHeight = 0 ∧ cumDiff ≠ e.cumulativeDifficulty then height
          else driftStartHeight
        recalculateLoop es (height + 1) (slideWindow cfg window height ⟨e.header, cumDiff⟩) cumDiff
          drift (if 0 < drift then news ++ [cumDiff] else news)

def startWindow (startHeight : ℕ) (chain : List BlockInfo) : List BlockInfo :=
  if 1 < startHeight then
    (chain.take startHeight).drop (max 1 (startHeight - cfg.difficultyBlocksCount))
  else []

def startCumDiff (startHeight : ℕ) (chain : List BlockInfo) : Difficulty :=
  if startHeight ≤ 1 then BitVec.ofNat 128 startHeight
  else ((startWindow cfg startHeight chain).getLast?.map BlockInfo.cumulativeDifficulty).getD 0

def correctBlockCumulativeDifficulties (startHeight : ℕ) (news : List Difficulty)
    (chain : List BlockInfo) : List BlockInfo :=
  if startHeight + news.length = chain.length then
    chain.take startHeight ++
      (chain.drop startHeight).zipWith (fun e cumDiff => ⟨e.header, cumDiff⟩) news
  else chain

/-- `recalculate_difficulties`: how many values were corrected, and the chain after. It
throws when it reads a block that is not there, and when a sum overflows. -/
def recalculateDifficulties (fixedDifficulty : Difficulty) (startHeight : ℕ)
    (chain : List BlockInfo) : Option (ℕ × List BlockInfo) :=
  if fixedDifficulty ≠ 0 then some (0, chain)
  else if chain = [] ∨ chain.length < startHeight then none
  else
    (recalculateLoop cfg conf heights (chain.drop startHeight) startHeight
      (startWindow cfg startHeight chain) (startCumDiff cfg startHeight chain) 0 []).map
      fun result =>
        (result.2.length,
          if 0 < result.1 then correctBlockCumulativeDifficulties result.1 result.2 chain
          else chain)

/-! ### What is computed -/

def recompute : List BlockInfo → ℕ → List BlockInfo → Difficulty → Option (List Difficulty)
  | [], _, _, _ => some []
  | e :: es, height, window, lastCumDiff =>
      let diff := recalculatedDiff cfg conf heights window height
      if 2 ^ 128 ≤ diff.toNat + lastCumDiff.toNat then none
      else
        (recompute es (height + 1) (slideWindow cfg window height ⟨e.header, diff + lastCumDiff⟩)
          (diff + lastCumDiff)).map ((diff + lastCumDiff) :: ·)

/-- The first height, other than 0, whose value is not the computed one. -/
def firstDrift : List BlockInfo → List Difficulty → ℕ → ℕ
  | e :: es, cumDiff :: cumDiffs, height =>
      if 0 < height ∧ cumDiff ≠ e.cumulativeDifficulty then height
      else firstDrift es cumDiffs (height + 1)
  | _, _, _ => 0

variable {cfg conf heights}

theorem recompute_length {es window : List BlockInfo} {height : ℕ} {lastCumDiff : Difficulty}
    {cumDiffs : List Difficulty}
    (h : recompute cfg conf heights es height window lastCumDiff = some cumDiffs) :
    cumDiffs.length = es.length := by
  induction es generalizing height window lastCumDiff cumDiffs with
  | nil =>
      rw [← Option.some.inj h]
      rfl
  | cons e es ih =>
      rw [recompute] at h
      split at h
      · exact absurd h (by simp)
      · obtain ⟨rest, hrest, rfl⟩ := Option.map_eq_some_iff.mp h
        rw [List.length_cons, List.length_cons, ih hrest]

/-- The headers alone tell what is computed. -/
theorem recompute_congr {es es' window : List BlockInfo} {height : ℕ} {lastCumDiff : Difficulty}
    (h : es.map BlockInfo.header = es'.map BlockInfo.header) :
    recompute cfg conf heights es height window lastCumDiff =
      recompute cfg conf heights es' height window lastCumDiff := by
  induction es generalizing es' height window lastCumDiff with
  | nil =>
      rw [List.map_nil, eq_comm, List.map_eq_nil_iff] at h
      rw [h]
  | cons e es ih =>
      cases es' with
      | nil => exact absurd h (by simp)
      | cons e' es' =>
          rw [List.map_cons, List.map_cons, List.cons.injEq] at h
          rw [recompute, recompute, h.1]
          simp only [ih h.2]

theorem recalculateLoop_drifted {es window : List BlockInfo} {height drift : ℕ}
    {lastCumDiff : Difficulty} {news : List Difficulty} (hdrift : 0 < drift) :
    recalculateLoop cfg conf heights es height window lastCumDiff drift news =
      (recompute cfg conf heights es height window lastCumDiff).map
        fun cumDiffs => (drift, news ++ cumDiffs) := by
  induction es generalizing height window lastCumDiff news with
  | nil => rw [recalculateLoop, recompute, Option.map_some, List.append_nil]
  | cons e es ih =>
      have hne : ¬drift = 0 := by omega
      rw [recalculateLoop, recompute]
      simp only [hne, false_and, if_false, hdrift, if_true]
      split
      · rfl
      · rw [ih, Option.map_map]
        congr 1
        funext cumDiffs
        rw [Function.comp_apply, List.append_assoc, List.singleton_append]

theorem firstDrift_cases (es : List BlockInfo) (cumDiffs : List Difficulty) (height : ℕ) :
    firstDrift es cumDiffs height = 0 ∨ height ≤ firstDrift es cumDiffs height := by
  induction es generalizing cumDiffs height with
  | nil => exact .inl rfl
  | cons e es ih =>
      cases cumDiffs with
      | nil => exact .inl rfl
      | cons cumDiff cumDiffs =>
          rw [firstDrift]
          split
          · exact .inr le_rfl
          · rcases ih cumDiffs (height + 1) with hzero | hle
            · exact .inl hzero
            · exact .inr (by omega)

theorem recalculateLoop_eq {es window : List BlockInfo} {height : ℕ} {lastCumDiff : Difficulty} :
    recalculateLoop cfg conf heights es height window lastCumDiff 0 [] =
      (recompute cfg conf heights es height window lastCumDiff).map fun cumDiffs =>
        (firstDrift es cumDiffs height,
          if firstDrift es cumDiffs height = 0 then []
          else cumDiffs.drop (firstDrift es cumDiffs height - height)) := by
  induction es generalizing height window lastCumDiff with
  | nil => rfl
  | cons e es ih =>
      rw [recalculateLoop, recompute]
      simp only [true_and]
      split
      · rfl
      · generalize recalculatedDiff cfg conf heights window height + lastCumDiff = cumDiff
        rw [Option.map_map]
        by_cases hdrift : 0 < height ∧ cumDiff ≠ e.cumulativeDifficulty
        · rw [if_pos hdrift.2, if_pos hdrift.1, recalculateLoop_drifted hdrift.1]
          congr 1
          funext cumDiffs
          have hne : height ≠ 0 := by omega
          simp only [Function.comp_apply, firstDrift, if_pos hdrift, hne, if_false,
            Nat.sub_self, List.drop_zero, List.nil_append, List.singleton_append]
        · -- nothing is noted, also when the genesis block differs
          have hzero : (if cumDiff ≠ e.cumulativeDifficulty then height else 0) = 0 := by
            split
            · by_contra hne
              exact hdrift ⟨by omega, by assumption⟩
            · rfl
          rw [hzero, if_neg (by omega), ih]
          congr 1
          funext cumDiffs
          simp only [Function.comp_apply, firstDrift, if_neg hdrift]
          rcases firstDrift_cases es cumDiffs (height + 1) with hnone | hle
          · rw [hnone, if_pos rfl, if_pos rfl]
          · rw [if_neg (by omega), if_neg (by omega),
              show firstDrift es cumDiffs (height + 1) - height =
                firstDrift es cumDiffs (height + 1) - (height + 1) + 1 by omega,
              List.drop_succ_cons]

/-- What the whole function does, in terms of the computed values. -/
theorem recalculateDifficulties_eq {startHeight : ℕ} {chain : List BlockInfo}
    (hchain : chain ≠ []) (hstart : startHeight ≤ chain.length) :
    recalculateDifficulties cfg conf heights 0 startHeight chain =
      (recompute cfg conf heights (chain.drop startHeight) startHeight
        (startWindow cfg startHeight chain) (startCumDiff cfg startHeight chain)).map
        fun cumDiffs =>
          let drift := firstDrift (chain.drop startHeight) cumDiffs startHeight
          let news := if drift = 0 then [] else cumDiffs.drop (drift - startHeight)
          (news.length,
            if 0 < drift then correctBlockCumulativeDifficulties drift news chain else chain) := by
  have hthere : ¬(chain = [] ∨ chain.length < startHeight) := by
    rintro (hnil | hlt)
    · exact hchain hnil
    · omega
  rw [recalculateDifficulties, if_neg (by simp), if_neg hthere, recalculateLoop_eq, Option.map_map]
  rfl

/-! ### A second call -/

theorem firstDrift_eq_zero {es : List BlockInfo} {cumDiffs : List Difficulty} {height : ℕ}
    (h : ∀ n e cumDiff, es[n]? = some e → cumDiffs[n]? = some cumDiff → 0 < height + n →
      cumDiff = e.cumulativeDifficulty) : firstDrift es cumDiffs height = 0 := by
  induction es generalizing cumDiffs height with
  | nil => rfl
  | cons e es ih =>
      cases cumDiffs with
      | nil => rfl
      | cons cumDiff cumDiffs =>
          have hhere : ¬(0 < height ∧ cumDiff ≠ e.cumulativeDifficulty) := by
            rintro ⟨hpos, hne⟩
            exact hne (h 0 e cumDiff rfl rfl (by omega))
          rw [firstDrift, if_neg hhere]
          apply ih
          intro n e' cumDiff' he hcumDiff hpos
          exact h (n + 1) e' cumDiff' he hcumDiff (by omega)

theorem eq_of_lt_firstDrift {es : List BlockInfo} {cumDiffs : List Difficulty} {height n : ℕ}
    {e : BlockInfo} {cumDiff : Difficulty} (he : es[n]? = some e)
    (hcumDiff : cumDiffs[n]? = some cumDiff) (hpos : 0 < height + n)
    (h : firstDrift es cumDiffs height = 0 ∨ height + n < firstDrift es cumDiffs height) :
    cumDiff = e.cumulativeDifficulty := by
  induction es generalizing cumDiffs height n with
  | nil => exact absurd he (by simp)
  | cons e' es ih =>
      cases cumDiffs with
      | nil => exact absurd hcumDiff (by simp)
      | cons cumDiff' cumDiffs =>
          rw [firstDrift] at h
          cases n with
          | zero =>
              obtain rfl := Option.some.inj he
              obtain rfl := Option.some.inj hcumDiff
              by_contra hne
              rw [if_pos ⟨hpos, hne⟩] at h
              omega
          | succ n =>
              split at h
              · omega
              · have hlater : firstDrift es cumDiffs (height + 1) = 0 ∨
                    height + 1 + n < firstDrift es cumDiffs (height + 1) := by omega
                exact ih he hcumDiff (by omega) hlater

theorem correct_headers (startHeight : ℕ) (news : List Difficulty) (chain : List BlockInfo) :
    (correctBlockCumulativeDifficulties startHeight news chain).map BlockInfo.header =
      chain.map BlockInfo.header := by
  rw [correctBlockCumulativeDifficulties]
  split
  · rename_i hlength
    have hzip : ∀ (es : List BlockInfo) (news : List Difficulty), es.length ≤ news.length →
        (es.zipWith (fun e cumDiff => (⟨e.header, cumDiff⟩ : BlockInfo)) news).map
          BlockInfo.header = es.map BlockInfo.header := by
      intro es
      induction es with
      | nil => exact fun _ _ => rfl
      | cons e es ih =>
          intro news hle
          cases news with
          | nil => exact absurd hle (by simp)
          | cons cumDiff news =>
              rw [List.zipWith_cons_cons, List.map_cons, List.map_cons, ih news (by simpa using hle)]
    rw [List.map_append, hzip _ _ (by rw [List.length_drop]; omega), ← List.map_append,
      List.take_append_drop]
  · rfl

theorem correct_take {startHeight n : ℕ} (news : List Difficulty) {chain : List BlockInfo}
    (h : n ≤ startHeight) :
    (correctBlockCumulativeDifficulties startHeight news chain).take n = chain.take n := by
  rw [correctBlockCumulativeDifficulties]
  split
  · rw [List.take_append_of_le_length (by rw [List.length_take]; omega), List.take_take,
      min_eq_left h]
  · rfl

theorem correct_getElem {startHeight n : ℕ} {news : List Difficulty} {chain : List BlockInfo}
    (hlength : startHeight + news.length = chain.length) (hn : startHeight ≤ n) {e : BlockInfo}
    (he : (correctBlockCumulativeDifficulties startHeight news chain)[n]? = some e) :
    news[n - startHeight]? = some e.cumulativeDifficulty := by
  rw [correctBlockCumulativeDifficulties, if_pos hlength,
    List.getElem?_append_right (by rw [List.length_take]; omega), List.length_take,
    min_eq_left (by omega), List.getElem?_zipWith] at he
  split at he
  · rename_i hnew
    rw [← Option.some.inj he]
    exact hnew
  · exact absurd he (by simp)

/-- A second call from the same height finds nothing, if the first one returned. -/
theorem recalculateDifficulties_twice {startHeight n : ℕ} {chain chain' : List BlockInfo}
    (h : recalculateDifficulties cfg conf heights 0 startHeight chain = some (n, chain')) :
    recalculateDifficulties cfg conf heights 0 startHeight chain' = some (0, chain') := by
  have hthere : ¬(chain = [] ∨ chain.length < startHeight) := by
    intro hmissing
    rw [recalculateDifficulties, if_neg (by simp), if_pos hmissing] at h
    exact absurd h (by simp)
  rw [not_or, not_lt] at hthere
  obtain ⟨hchain, hstart⟩ := hthere
  rw [recalculateDifficulties_eq hchain hstart] at h
  obtain ⟨cumDiffs, hcumDiffs, hresult⟩ := Option.map_eq_some_iff.mp h
  have hcount := recompute_length hcumDiffs
  rw [List.length_drop] at hcount
  simp only [Prod.mk.injEq] at hresult
  obtain ⟨-, hchain'⟩ := hresult
  generalize hdrift : firstDrift (chain.drop startHeight) cumDiffs startHeight = drift at hchain'
  -- the same values are computed again
  have hsame : chain'.take startHeight = chain.take startHeight ∧
      chain'.map BlockInfo.header = chain.map BlockInfo.header := by
    rw [← hchain']
    split
    · have hle : startHeight ≤ drift := by
        rcases firstDrift_cases (chain.drop startHeight) cumDiffs startHeight with hzero | hle
        · omega
        · omega
      exact ⟨correct_take _ hle, correct_headers _ _ _⟩
    · exact ⟨rfl, rfl⟩
  have hwindow : startWindow cfg startHeight chain' = startWindow cfg startHeight chain := by
    rw [startWindow, startWindow, hsame.1]
  have hrecompute : recompute cfg conf heights (chain'.drop startHeight) startHeight
      (startWindow cfg startHeight chain') (startCumDiff cfg startHeight chain') =
        some cumDiffs := by
    rw [← hcumDiffs, startCumDiff, startCumDiff, hwindow]
    apply recompute_congr
    rw [List.map_drop, List.map_drop, hsame.2]
  -- and the chain has them
  have hnone : firstDrift (chain'.drop startHeight) cumDiffs startHeight = 0 := by
    apply firstDrift_eq_zero
    intro m e cumDiff he hcumDiff hpos
    rw [List.getElem?_drop] at he
    rcases Nat.eq_zero_or_pos drift with hzero | hpositive
    · rw [if_neg (by omega)] at hchain'
      rw [← hchain', ← List.getElem?_drop] at he
      exact eq_of_lt_firstDrift he hcumDiff hpos (.inl (hdrift.trans hzero))
    · have hle : startHeight ≤ drift := by
        rcases firstDrift_cases (chain.drop startHeight) cumDiffs startHeight with hzero | hle
        · omega
        · omega
      rw [if_pos hpositive, if_neg (by omega)] at hchain'
      have hm := (List.getElem?_eq_some_iff.mp hcumDiff).1
      rcases Nat.lt_or_ge (startHeight + m) drift with hlt | hge
      · have hbelow : (correctBlockCumulativeDifficulties drift
            (cumDiffs.drop (drift - startHeight)) chain).take drift = chain.take drift :=
          correct_take _ le_rfl
        have htake := congrArg (fun l => l[startHeight + m]?) hbelow
        simp only [List.getElem?_take_of_lt hlt] at htake
        rw [hchain', he, ← List.getElem?_drop] at htake
        exact eq_of_lt_firstDrift htake.symm hcumDiff hpos (.inr (hdrift.symm ▸ hlt))
      · have hlength : drift + (cumDiffs.drop (drift - startHeight)).length = chain.length := by
          rw [List.length_drop]
          omega
        rw [← hchain'] at he
        have hnew := correct_getElem hlength hge he
        rw [List.getElem?_drop,
          show drift - startHeight + (startHeight + m - drift) = m by omega] at hnew
        exact Option.some.inj (hcumDiff.symm.trans hnew)
  have hlength : chain'.length = chain.length := by
    rw [← List.length_map BlockInfo.header, hsame.2, List.length_map]
  have hchain'' : chain' ≠ [] := by
    intro hnil
    rw [hnil, List.length_nil, eq_comm, List.length_eq_zero_iff] at hlength
    exact hchain hlength
  rw [recalculateDifficulties_eq hchain'' (hlength ▸ hstart), hrecompute, Option.map_some, hnone]
  rfl

end XrCoin.Blockchain

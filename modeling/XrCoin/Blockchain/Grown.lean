import XrCoin.Blockchain.Recalculate

/-!
Chains that grew by `handle_block_to_main_chain`, as far as the difficulty goes. On
such a chain `recalculate_difficulties` computes what is stored.
-/

namespace XrCoin.Blockchain

open Cryptonote Forks

/-! ### Growing a chain -/

def topCumulativeDifficulty (chain : List BlockInfo) : Difficulty :=
  (chain.getLast?.map BlockInfo.cumulativeDifficulty).getD 0

variable (cfg : DifficultyConfig) (conf : HardForkConfig) (heights : List Params)

/-- What `handle_block_to_main_chain` does about versions and difficulties for a block
that it lets in. Its other checks let in fewer blocks, and the fork versions that go to
the database do not matter here. -/
def connectHeader (state : List BlockInfo × HardFork) (b : BlockHeader) :
    Option (List BlockInfo × HardFork) :=
  let chain := state.1
  let hf := state.2
  let currentDiffic := getDifficultyForNextBlock cfg 0 hf chain
  if check hf b = true ∧ currentDiffic ≠ 0 then
    some (chain ++ [⟨b, currentDiffic + topCumulativeDifficulty chain⟩],
      (add conf b chain.length hf .empty).2.1)
  else none

/-- A chain that grew from nothing, with the state of the fork object. -/
inductive Grown : List BlockInfo × HardFork → Prop
  | empty : Grown ([], ⟨heights, .empty, 0⟩)
  | block {state state' : List BlockInfo × HardFork} (b : BlockHeader) :
      Grown state → connectHeader cfg conf state b = some state' → Grown state'

variable {cfg conf heights}

theorem Grown.foldlM {state state' : List BlockInfo × HardFork} {bs : List BlockHeader}
    (h : Grown cfg conf heights state) (hrun : bs.foldlM (connectHeader cfg conf) state = some state') :
    Grown cfg conf heights state' := by
  induction bs generalizing state with
  | nil =>
      rw [← Option.some.inj hrun]
      exact h
  | cons b bs ih =>
      rw [List.foldlM_cons] at hrun
      obtain ⟨state₁, hstep, hrest⟩ := Option.bind_eq_some_iff.mp hrun
      exact ih (h.block b hstep) hrest

theorem connectHeader_eq {chain : List BlockInfo} {hf : HardFork}
    {state' : List BlockInfo × HardFork} {b : BlockHeader}
    (h : connectHeader cfg conf (chain, hf) b = some state') :
    check hf b = true ∧
      state' = (chain ++ [⟨b, getDifficultyForNextBlock cfg 0 hf chain +
        topCumulativeDifficulty chain⟩], (add conf b chain.length hf .empty).2.1) := by
  rw [connectHeader] at h
  simp only at h
  split at h
  · rename_i hok
    exact ⟨hok.1, (Option.some.inj h).symm⟩
  · exact absurd h (by simp)

/-- The stored value of a block goes by the chain below it. -/
def StoredAt (cfg : DifficultyConfig) (conf : HardForkConfig) (heights : List Params)
    (chain : List BlockInfo) (n : ℕ) (e : BlockInfo) : Prop :=
  e.cumulativeDifficulty =
    getDifficultyForNextBlock cfg 0 (stateAt conf heights (chain.map BlockInfo.header) n)
      (chain.take n) + topCumulativeDifficulty (chain.take n)

/-- Along a growing chain, the fork object is in the state that the chain gives, and
each value goes by the chain below it. -/
theorem Grown.stored {state : List BlockInfo × HardFork} (h : Grown cfg conf heights state) :
    state.2 = stateAt conf heights (state.1.map BlockInfo.header) state.1.length ∧
      ∀ n e, state.1[n]? = some e → StoredAt cfg conf heights state.1 n e := by
  induction h with
  | empty => exact ⟨(stateAt_zero []).symm, fun n e he => absurd he (by simp)⟩
  | @block state state' b _ hstep ih =>
      obtain ⟨chain, hf⟩ := state
      obtain ⟨hstate, hstored⟩ := ih
      obtain ⟨hcheck, rfl⟩ := connectHeader_eq hstep
      simp only at hstate hstored ⊢
      -- the state below the new block
      have hbelow : ∀ (e : BlockInfo), ∀ n ≤ chain.length,
          stateAt conf heights ((chain ++ [e]).map BlockInfo.header) n =
            stateAt conf heights (chain.map BlockInfo.header) n := by
        intro e n hn
        rw [List.map_append, List.map_singleton]
        exact stateAt_append _ (by rwa [List.length_map])
      generalize hnew : (⟨b, getDifficultyForNextBlock cfg 0 hf chain +
        topCumulativeDifficulty chain⟩ : BlockInfo) = e
      constructor
      · have hget : ((chain ++ [e]).map BlockInfo.header)[chain.length]? = some b := by
          rw [List.getElem?_map, List.getElem?_concat_length, ← hnew]
          rfl
        have hadd := add_stateAt hget (by rwa [hbelow e _ le_rfl, ← hstate]) ForkDb.empty
        rw [hbelow e _ le_rfl, ← hstate] at hadd
        rw [hadd, List.length_append, List.length_singleton]
      · intro n e' he'
        rcases Nat.lt_trichotomy n chain.length with hlt | rfl | hgt
        · rw [List.getElem?_append_left hlt] at he'
          rw [StoredAt, hbelow e n hlt.le, List.take_append_of_le_length hlt.le]
          exact hstored n e' he'
        · rw [List.getElem?_concat_length] at he'
          obtain rfl := Option.some.inj he'
          rw [StoredAt, hbelow e _ le_rfl, List.take_left, ← hstate, ← hnew]
        · rw [List.getElem?_eq_none (by rw [List.length_append, List.length_singleton]; omega)] at he'
          exact absurd he' (by simp)

/-! ### The windows -/

theorem blocksWindow_eq (chain : List BlockInfo) :
    blocksWindow cfg chain = chain.drop (max 1 (chain.length - cfg.difficultyBlocksCount)) := by
  rw [blocksWindow]
  congr 1
  split <;> omega

theorem startWindow_eq {startHeight : ℕ} {chain : List BlockInfo}
    (h : startHeight ≤ chain.length) :
    startWindow cfg startHeight chain = blocksWindow cfg (chain.take startHeight) := by
  rw [startWindow, blocksWindow_eq, List.length_take, min_eq_left h]
  split
  · rfl
  · rw [eq_comm, List.drop_eq_nil_iff, List.length_take]
    omega

theorem slideWindow_eq {n : ℕ} {chain : List BlockInfo} {e : BlockInfo} (h : chain[n]? = some e) :
    slideWindow cfg (blocksWindow cfg (chain.take n)) n e = blocksWindow cfg (chain.take (n + 1)) := by
  have hpos := cfg.blocksCount_pos
  have hlt : n < chain.length := (List.getElem?_eq_some_iff.mp h).1
  have hshort : (chain.take n).length = n := by rw [List.length_take, min_eq_left hlt.le]
  have hlong : (chain.take (n + 1)).length = n + 1 := by
    rw [List.length_take, min_eq_left (by omega)]
  rw [slideWindow, blocksWindow_eq, blocksWindow_eq, hshort, hlong]
  rcases Nat.eq_zero_or_pos n with rfl | hn
  · -- the genesis block is left out
    have hnil : (chain.take (0 + 1)).drop (max 1 (0 + 1 - cfg.difficultyBlocksCount)) = [] := by
      rw [List.drop_eq_nil_iff, hlong]
      omega
    rw [hnil]
    simp
  · have happend : (chain.take n).drop (max 1 (n - cfg.difficultyBlocksCount)) ++ [e] =
        (chain.take (n + 1)).drop (max 1 (n - cfg.difficultyBlocksCount)) := by
      rw [List.take_add_one, h, Option.toList_some, List.drop_append_of_le_length]
      omega
    simp only [if_pos hn, happend, List.length_drop, hlong]
    split
    · rw [List.tail_drop]
      congr 1
      omega
    · congr 1
      omega

theorem topCumulativeDifficulty_take {n : ℕ} {chain : List BlockInfo} {e : BlockInfo}
    (h : chain[n]? = some e) :
    topCumulativeDifficulty (chain.take (n + 1)) = e.cumulativeDifficulty := by
  rw [topCumulativeDifficulty, List.take_add_one, h, Option.toList_some, List.getLast?_concat]
  rfl

/-! ### Recalculation -/

theorem getDifficultyForNextBlock_stateAt (htable : Table heights) (hzero : ZeroThresholds heights)
    (blocks : List BlockHeader) {n : ℕ} {chain : List BlockInfo} (hn : n ≤ chain.length)
    (horiginal : scheduledIndex heights n = 0 → conf.originalVersion = versionAt heights 0) :
    getDifficultyForNextBlock cfg 0 (stateAt conf heights blocks n) (chain.take n) =
      recalculatedDiff cfg conf heights (blocksWindow cfg (chain.take n)) n := by
  rw [getDifficultyForNextBlock, if_neg (by simp), recalculatedDiff,
    getCurrentVersion_stateAt htable hzero, htable.ordered.getIdealVersion horiginal,
    List.length_take, min_eq_left hn]
  rfl

theorem getLastDiffResetHeight_le (height : ℕ) : getLastDiffResetHeight heights height ≤ height := by
  rw [getLastDiffResetHeight]
  cases hreset : lastDiffReset heights height with
  | none => exact Nat.zero_le height
  | some p =>
      have hp := List.find?_some hreset
      simp only [decide_eq_true_eq] at hp
      exact hp.1

theorem getDifficultyForNextBlock_nil (blocks : List BlockHeader) :
    getDifficultyForNextBlock cfg 0 (stateAt conf heights blocks 0) [] = 1 := by
  have hreset : getLastDiffResetHeight heights 0 = 0 :=
    Nat.le_zero.mp (getLastDiffResetHeight_le 0)
  have hwindow : blocksWindow cfg [] = [] := List.drop_nil
  rw [getDifficultyForNextBlock, if_neg (by simp), hwindow, windowDifficulty]
  show nextDifficulty cfg [] [] _ 0 (getLastDiffResetHeight heights 0) _ _ = 1
  rw [hreset, nextDifficulty]
  simp [cutLag, afterReset, isDiffReset]

/-- No block from the height on takes the cumulative difficulty beyond its 128 bits. -/
def Rising (startHeight : ℕ) (chain : List BlockInfo) : Prop :=
  ∀ n, startHeight ≤ n → n < chain.length →
    topCumulativeDifficulty (chain.take n) ≤ topCumulativeDifficulty (chain.take (n + 1))

theorem overflows_iff (diff last : Difficulty) :
    2 ^ 128 ≤ diff.toNat + last.toNat ↔ ¬last ≤ diff + last := by
  have hdiff := diff.isLt
  have hlast := last.isLt
  rw [BitVec.le_def, BitVec.toNat_add]
  omega

variable (cfg conf heights) in
/-- From the height on, the chain has the values that are recalculated, up to a wrap. -/
def Recalculated (startHeight : ℕ) (chain : List BlockInfo) : Prop :=
  ∀ n e, startHeight ≤ n → chain[n]? = some e → e.cumulativeDifficulty =
    recalculatedDiff cfg conf heights (blocksWindow cfg (chain.take n)) n +
      topCumulativeDifficulty (chain.take n)

theorem rising_iff {n : ℕ} {chain : List BlockInfo} {e : BlockInfo} (he : chain[n]? = some e) :
    Rising n chain ↔
      topCumulativeDifficulty (chain.take n) ≤ e.cumulativeDifficulty ∧ Rising (n + 1) chain := by
  have hlt : n < chain.length := (List.getElem?_eq_some_iff.mp he).1
  constructor
  · intro h
    refine ⟨?_, fun m hm => h m (by omega)⟩
    rw [← topCumulativeDifficulty_take he]
    exact h n le_rfl hlt
  · rintro ⟨hhere, hlater⟩ m hm hmlt
    rcases Nat.eq_or_lt_of_le hm with rfl | hgt
    · rw [topCumulativeDifficulty_take he]
      exact hhere
    · exact hlater m hgt hmlt

/-- The loop computes these values again, or throws at the first wrap. -/
theorem Recalculated.recompute {startHeight n : ℕ} {chain : List BlockInfo}
    (h : Recalculated cfg conf heights startHeight chain) (hstart : startHeight ≤ n)
    (hn : n ≤ chain.length) :
    (Rising n chain →
      recompute cfg conf heights (chain.drop n) n (blocksWindow cfg (chain.take n))
        (topCumulativeDifficulty (chain.take n)) =
          some ((chain.drop n).map BlockInfo.cumulativeDifficulty)) ∧
      (¬Rising n chain →
        recompute cfg conf heights (chain.drop n) n (blocksWindow cfg (chain.take n))
          (topCumulativeDifficulty (chain.take n)) = none) := by
  -- on the number of blocks that are left
  induction hk : chain.length - n generalizing n with
  | zero =>
      obtain rfl : n = chain.length := by omega
      rw [List.drop_length]
      refine ⟨fun _ => rfl, fun hnot => absurd ?_ hnot⟩
      intro m hm hlt
      omega
  | succ k ih =>
      have hlt : n < chain.length := by omega
      obtain ⟨e, he⟩ : ∃ e, chain[n]? = some e := ⟨_, List.getElem?_eq_getElem hlt⟩
      have hdrop : chain.drop n = e :: chain.drop (n + 1) := by
        rw [← (List.getElem?_eq_some_iff.mp he).2, List.drop_eq_getElem_cons hlt]
      have hvalue := h n e hstart he
      obtain ⟨hsome, hnone⟩ := ih (by omega) hlt (by omega)
      rw [rising_iff he, hdrop, Blockchain.recompute]
      simp only [overflows_iff, ← hvalue]
      -- the loop goes on with the window and the sum of the next height
      rw [slideWindow_eq he, ← topCumulativeDifficulty_take he]
      constructor
      · rintro ⟨hle, hrising⟩
        rw [if_neg (not_not.mpr hle), hsome hrising, Option.map_some, List.map_cons,
          topCumulativeDifficulty_take he]
      · intro hnot
        split
        · rfl
        · rename_i hle
          rw [hnone (fun hrising => hnot ⟨not_not.mp hle, hrising⟩), Option.map_none]

theorem Grown.startCumDiff {state : List BlockInfo × HardFork} (h : Grown cfg conf heights state)
    {startHeight : ℕ} (hstart : startHeight < state.1.length) :
    startCumDiff cfg startHeight state.1 = topCumulativeDifficulty (state.1.take startHeight) := by
  have hpos := cfg.blocksCount_pos
  rw [Blockchain.startCumDiff]
  split
  · rcases Nat.le_one_iff_eq_zero_or_eq_one.mp ‹startHeight ≤ 1› with rfl | rfl
    · rfl
    · -- below height 1 there is the genesis block
      obtain ⟨e, he⟩ : ∃ e, state.1[0]? = some e := ⟨_, List.getElem?_eq_getElem (by omega)⟩
      have hgenesis := h.stored.2 0 e he
      rw [StoredAt, List.take_zero, getDifficultyForNextBlock_nil] at hgenesis
      rw [topCumulativeDifficulty_take he, hgenesis]
      rfl
  · rw [startWindow_eq hstart.le, blocksWindow_eq, topCumulativeDifficulty, List.getLast?_drop,
      if_neg]
    rw [List.length_take]
    omega

/-- A recalculation finds nothing on a chain that grew, unless a sum wraps and it throws. -/
theorem Grown.recalculateDifficulties {state : List BlockInfo × HardFork}
    (h : Grown cfg conf heights state) (htable : Table heights) (hzero : ZeroThresholds heights)
    {startHeight : ℕ} (hstart : startHeight < state.1.length)
    (horiginal : scheduledIndex heights startHeight = 0 →
      conf.originalVersion = versionAt heights 0) :
    (Rising startHeight state.1 →
      recalculateDifficulties cfg conf heights 0 startHeight state.1 = some (0, state.1)) ∧
      (¬Rising startHeight state.1 →
        recalculateDifficulties cfg conf heights 0 startHeight state.1 = none) := by
  have hrecalculated : Recalculated cfg conf heights startHeight state.1 := by
    intro n e hn he
    have hlt : n < state.1.length := (List.getElem?_eq_some_iff.mp he).1
    rw [h.stored.2 n e he, getDifficultyForNextBlock_stateAt htable hzero _ hlt.le]
    intro hindex
    apply horiginal
    have hmono : scheduledIndex heights startHeight ≤ scheduledIndex heights n :=
      scheduledIndex_mono hn
    omega
  have hchain : state.1 ≠ [] := List.ne_nil_of_length_pos (by omega)
  rw [recalculateDifficulties_eq hchain hstart.le, startWindow_eq hstart.le, h.startCumDiff hstart]
  obtain ⟨hsome, hnone⟩ := hrecalculated.recompute le_rfl hstart.le
  constructor
  · intro hrising
    have hdrift : firstDrift (state.1.drop startHeight)
        ((state.1.drop startHeight).map BlockInfo.cumulativeDifficulty) startHeight = 0 := by
      apply firstDrift_eq_zero
      intro n e cumDiff he hcumDiff _
      rw [List.getElem?_map, he] at hcumDiff
      exact (Option.some.inj hcumDiff).symm
    rw [hsome hrising, Option.map_some, hdrift]
    rfl
  · intro hnot
    rw [hnone hnot, Option.map_none]

/-- With no votes needed, and the original version in the first entry unless the start
is behind it, a recalculation of a chain that grew finds no drift while the sums fit,
and throws when they do not. On any chain, a call that returned leaves nothing to a
second one. -/
theorem recalculateDifficulties_noDrift (cfg : DifficultyConfig) (conf : HardForkConfig)
    (heights : List Params) (startHeight : ℕ) :
    (∀ state, Table heights → ZeroThresholds heights →
      (scheduledIndex heights startHeight = 0 → conf.originalVersion = versionAt heights 0) →
      Grown cfg conf heights state → startHeight < state.1.length →
      (Rising startHeight state.1 →
        recalculateDifficulties cfg conf heights 0 startHeight state.1 = some (0, state.1)) ∧
      (¬Rising startHeight state.1 →
        recalculateDifficulties cfg conf heights 0 startHeight state.1 = none)) ∧
    ∀ chain n chain',
      recalculateDifficulties cfg conf heights 0 startHeight chain = some (n, chain') →
        recalculateDifficulties cfg conf heights 0 startHeight chain' = some (0, chain') := by
  constructor
  · intro state htable hzero horiginal hgrown hstart
    exact hgrown.recalculateDifficulties htable hzero hstart horiginal
  · intro chain n chain' hfirst
    exact recalculateDifficulties_twice hfirst

/-! ### Chains on which it does not return 0 -/

def timedHeaders (version : UInt8) (timestamps : List UInt64) : List BlockHeader :=
  timestamps.map fun timestamp => ⟨version, version, timestamp, nullHash, 0⟩

def singleFork (version : UInt8) : List Params := [⟨version, 0, 0, 1, 0⟩]

theorem table_singleFork (version : UInt8) :
    Table (singleFork version) ∧ ZeroThresholds (singleFork version) := by
  refine ⟨⟨by simp [singleFork], List.pairwise_singleton _ _⟩, ?_⟩
  intro p hp
  rw [List.mem_singleton.mp hp]

def grownChain (version : UInt8) (timestamps : List UInt64) : List BlockInfo × HardFork :=
  ((timedHeaders version timestamps).foldlM (connectHeader sampleDifficultyConfig plainConf)
    ([], ⟨singleFork version, .empty, 0⟩)).getD ([], ⟨singleFork version, .empty, 0⟩)

theorem grown_grownChain (version : UInt8) (timestamps : List UInt64) :
    Grown sampleDifficultyConfig plainConf (singleFork version) (grownChain version timestamps) := by
  rw [grownChain]
  cases hrun : (timedHeaders version timestamps).foldlM
      (connectHeader sampleDifficultyConfig plainConf) ([], ⟨singleFork version, .empty, 0⟩) with
  | none => exact .empty
  | some state => exact Grown.empty.foldlM hrun

/-- Twenty blocks at about the same time take the sum beyond 128 bits. -/
def steepTimestamps : List UInt64 := List.replicate 18 0 ++ [100, 100]

/-- A recalculation throws on a chain that grew beyond the 128 bits, and it finds a
drift on a chain of version 9 when the original version is 1. -/
theorem recalculateDifficulties_steep_and_unoriginal :
    (Grown sampleDifficultyConfig plainConf (singleFork 1) (grownChain 1 steepTimestamps) ∧
      (grownChain 1 steepTimestamps).1.length = 20 ∧
      recalculateDifficulties sampleDifficultyConfig plainConf (singleFork 1) 0 0
        (grownChain 1 steepTimestamps).1 = none) ∧
    (Grown sampleDifficultyConfig plainConf (singleFork 9)
        (grownChain 9 [0, 1000, 100, 200, 50, 50]) ∧
      (grownChain 9 [0, 1000, 100, 200, 50, 50]).1.length = 6 ∧
      (recalculateDifficulties sampleDifficultyConfig plainConf (singleFork 9) 0 0
        (grownChain 9 [0, 1000, 100, 200, 50, 50]).1).map Prod.fst = some 3) := by
  refine ⟨⟨grown_grownChain 1 _, ?_, ?_⟩, grown_grownChain 9 _, ?_, ?_⟩
  · decide
  · decide
  · decide
  · decide

theorem recalculateDifficulties_noDrift_even :
    recalculateDifficulties sampleDifficultyConfig plainConf (singleFork 1) 0 2
        (grownChain 1 [0, 240, 480, 720]).1 = some (0, (grownChain 1 [0, 240, 480, 720]).1) := by
  have hlength : (grownChain 1 [0, 240, 480, 720]).1.length = 4 := by decide
  have hrising : Rising 2 (grownChain 1 [0, 240, 480, 720]).1 := by
    rw [Rising, hlength]
    decide
  have htable := table_singleFork 1
  have hgrown := grown_grownChain 1 [0, 240, 480, 720]
  exact ((recalculateDifficulties_noDrift sampleDifficultyConfig plainConf (singleFork 1) 2).1 _
    htable.1 htable.2 (fun _ => rfl) hgrown (by rw [hlength]; decide)).1 hrising

end XrCoin.Blockchain

import XrCoin.Blockchain.Difficulty

/-!
The lower bound on the timestamp of a block: the median of the blocks below it. The
main chain takes the last `BLOCKCHAIN_TIMESTAMP_CHECK_WINDOW` blocks and asks for
nothing while there are fewer. An alternative chain takes all of its own blocks and
fills up from the main chain, without the genesis block.

The two rules are compared on the same ancestors. How many there are, and how many of
them are on the alternative chain, tells whether they agree.
-/

namespace XrCoin.Blockchain

open Cryptonote

/-! ### The median -/

/-- `epee::misc_utils::median` of 64-bit values. The mean of the middle two may wrap. -/
def median (v : List UInt64) : UInt64 :=
  if v = [] then 0
  else if v.length = 1 then v.getD 0 0
  else
    let n := v.length / 2
    let sorted := v.insertionSort (· ≤ ·)
    if v.length % 2 = 1 then sorted.getD n 0
    else (sorted.getD (n - 1) 0 + sorted.getD n 0) / 2

instance instIsTransUInt64Le : IsTrans UInt64 (· ≤ ·) := ⟨fun _ _ _ => UInt64.le_trans⟩

theorem insertionSort_perm {v w : List UInt64} (h : v.Perm w) :
    v.insertionSort (· ≤ ·) = w.insertionSort (· ≤ ·) := by
  apply List.Perm.eq_of_pairwise' (List.pairwise_insertionSort (· ≤ ·) v)
    (List.pairwise_insertionSort (· ≤ ·) w)
  exact (List.perm_insertionSort _ v).trans (h.trans (List.perm_insertionSort _ w).symm)

/-- The order of the values does not matter. -/
theorem median_perm {v w : List UInt64} (h : v.Perm w) : median v = median w := by
  have hlength := h.length_eq
  rw [median, median, insertionSort_perm h, hlength]
  by_cases hnil : w = []
  · rw [hnil] at h
    rw [hnil, h.eq_nil]
  · have hnil' : v ≠ [] := fun hv => hnil (by rw [hv] at h; exact h.nil_eq.symm)
    rw [if_neg hnil, if_neg hnil']
    split
    · -- one value
      rename_i hone
      obtain ⟨a, rfl⟩ := List.length_eq_one_iff.mp hone
      rw [h.eq_singleton]
    · rfl

/-- The low value, as often as the first number says, and then the high value. -/
def twoValued (lows highs : ℕ) : List UInt64 := List.replicate lows 0 ++ List.replicate highs 2

theorem twoValued_sorted (lows highs : ℕ) :
    (twoValued lows highs).insertionSort (· ≤ ·) = twoValued lows highs := by
  apply List.Pairwise.insertionSort_eq
  rw [twoValued, List.pairwise_append]
  refine ⟨?_, ?_, ?_⟩
  · exact List.pairwise_replicate.mpr (.inr UInt64.le_rfl)
  · exact List.pairwise_replicate.mpr (.inr UInt64.le_rfl)
  · intro a ha b hb
    rw [List.eq_of_mem_replicate ha]
    exact UInt64.zero_le

theorem twoValued_getD (lows highs n : ℕ) (hn : n < lows + highs) :
    (twoValued lows highs).getD n 0 = if n < lows then 0 else 2 := by
  rw [twoValued, List.getD_eq_getElem?_getD]
  split
  · rename_i hlow
    rw [List.getElem?_append_left (by rwa [List.length_replicate]),
      List.getElem?_replicate_of_lt hlow]
    rfl
  · rw [List.getElem?_append_right (by rw [List.length_replicate]; omega), List.length_replicate,
      List.getElem?_replicate_of_lt (by omega)]
    rfl

/-- The more frequent value wins, and a draw is in the middle. -/
theorem median_twoValued (lows highs : ℕ) :
    median (twoValued lows highs) =
      if highs < lows then 0 else if lows < highs then 2 else if lows = 0 then 0 else 1 := by
  have hlength : (twoValued lows highs).length = lows + highs := by
    rw [twoValued, List.length_append, List.length_replicate, List.length_replicate]
  rw [median]
  split
  · rename_i hnil
    rw [hnil, List.length_nil] at hlength
    simp only [show lows = 0 by omega, show highs = 0 by omega, lt_irrefl, if_false, if_true]
  · rename_i hnonempty
    have hpos : 0 < lows + highs := by
      rw [← hlength]
      exact List.length_pos_of_ne_nil hnonempty
    simp only [hlength, twoValued_sorted]
    split
    · obtain ⟨rfl, rfl⟩ | ⟨rfl, rfl⟩ : lows = 1 ∧ highs = 0 ∨ lows = 0 ∧ highs = 1 := by omega
      · rfl
      · rfl
    · split
      · -- the middle one
        rw [twoValued_getD _ _ _ (by omega)]
        split
        · rw [if_pos (by omega)]
        · rw [if_neg (by omega), if_pos (by omega)]
      · -- the mean of the middle two
        rw [twoValued_getD _ _ _ (by omega), twoValued_getD _ _ _ (by omega)]
        rcases Nat.lt_trichotomy highs lows with hlt | rfl | hgt
        · rw [if_pos (by omega), if_pos (by omega), if_pos hlt]
          rfl
        · rw [if_pos (by omega), if_neg (by omega), if_neg (lt_irrefl _), if_neg (lt_irrefl _),
            if_neg (by omega)]
          rfl
        · rw [if_neg (by omega), if_neg (by omega), if_neg (by omega), if_pos hgt]
          rfl

/-! ### The two rules -/

def BlockInfo.timestamp (e : BlockInfo) : UInt64 := e.header.timestamp

def checkTimestamps (timestamps : List UInt64) (b : BlockHeader) : Bool :=
  ¬b.timestamp < median timestamps

/-- `check_block_timestamp` on the main chain. The limit is the local time with
`CRYPTONOTE_BLOCK_FUTURE_TIME_LIMIT` added. -/
def checkBlockTimestamp (checkWindow : ℕ) (futureLimit : UInt64) (chain : List BlockInfo)
    (b : BlockHeader) : Bool :=
  if futureLimit < b.timestamp then false
  else if chain.length < checkWindow then true
  else checkTimestamps ((chain.drop (chain.length - checkWindow)).map BlockInfo.timestamp) b

/-- The loop of `complete_timestamps_vector`, from the top height down. -/
def timestampsDownTo (main : List BlockInfo) (stopOffset : ℕ) : ℕ → List UInt64
  | 0 => []
  | top + 1 =>
      if top + 1 = stopOffset then []
      else ((main[top + 1]?.map BlockInfo.timestamp).getD 0) :: timestampsDownTo main stopOffset top

def completeTimestampsVector (checkWindow : ℕ) (main : List BlockInfo) (startTopHeight : ℕ)
    (timestamps : List UInt64) : List UInt64 :=
  if checkWindow ≤ timestamps.length then timestamps
  else if main.length ≤ startTopHeight then timestamps
  else
    let needElements := checkWindow - timestamps.length
    let stopOffset := if needElements < startTopHeight then startTopHeight - needElements else 0
    timestamps ++ timestampsDownTo main stopOffset startTopHeight

/-- The check of `handle_alternative_block`. The timestamps of the alternative chain are
collected from its last block down to its first, whose parent is the given block of the
main chain. -/
def checkAlternativeTimestamp (checkWindow : ℕ) (main : List BlockInfo)
    (altChain : List BlockExtendedInfo) (parentHeight : ℕ) (b : BlockHeader) : Bool :=
  checkTimestamps (completeTimestampsVector checkWindow main parentHeight
    (altChain.reverse.map fun bei => bei.bl.timestamp)) b

/-! ### The timestamps that are taken -/

variable {split : ℕ} {ancestors main : List BlockInfo} {altChain : List BlockExtendedInfo}

/-- The blocks above the stop, up to the top. -/
theorem timestampsDownTo_eq {stopOffset top : ℕ} (hstop : stopOffset ≤ top)
    (htop : top < main.length) :
    timestampsDownTo main stopOffset top =
      (((main.take (top + 1)).drop (stopOffset + 1)).map BlockInfo.timestamp).reverse := by
  have hnil : ∀ n ≤ stopOffset, (main.take (n + 1)).drop (stopOffset + 1) = [] := by
    intro n hn
    rw [List.drop_eq_nil_iff, List.length_take]
    omega
  induction top with
  | zero =>
      rw [hnil 0 (by omega)]
      rfl
  | succ top ih =>
      rw [timestampsDownTo]
      split
      · rename_i heq
        rw [hnil (top + 1) heq.le]
        rfl
      · have htake : main.take (top + 1 + 1) = main.take (top + 1) ++ [main[top + 1]] := by
          rw [List.take_concat_get' main (top + 1) htop]
        rw [ih (by omega) (by omega), List.getElem?_eq_getElem htop, htake,
          List.drop_append_of_le_length (by rw [List.length_take]; omega), List.map_append,
          List.reverse_append]
        rfl

def altOffset (checkWindow split altLength : ℕ) : ℕ :=
  if checkWindow ≤ altLength then split else split - 1 - (checkWindow - altLength) + 1

theorem Splits.checkAlternative_eq (h : Splits split ancestors main altChain)
    (checkWindow : ℕ) (b : BlockHeader) :
    checkAlternativeTimestamp checkWindow main altChain (split - 1) b =
      checkTimestamps ((ancestors.drop (altOffset checkWindow split altChain.length)).map
        BlockInfo.timestamp) b := by
  have hpos := h.split_pos
  have hmain := h.main_le
  have hlength := h.length_eq
  have halt : (altChain.reverse.map fun bei => bei.bl.timestamp) =
      ((ancestors.drop split).map BlockInfo.timestamp).reverse := by
    rw [← h.alt_info, List.map_map, List.map_reverse]
    rfl
  -- all that is taken, from the last ancestor down
  have htaken : completeTimestampsVector checkWindow main (split - 1)
      (altChain.reverse.map fun bei => bei.bl.timestamp) =
        ((ancestors.drop (altOffset checkWindow split altChain.length)).map
          BlockInfo.timestamp).reverse := by
    rw [completeTimestampsVector, altOffset, List.length_map, List.length_reverse, halt]
    split
    · rfl
    · rw [if_neg (by omega)]
      have hstop : (if checkWindow - altChain.length < split - 1 then
          split - 1 - (checkWindow - altChain.length) else 0) =
            split - 1 - (checkWindow - altChain.length) := by
        split <;> omega
      have hbelow : split - 1 - (checkWindow - altChain.length) + 1 ≤
          (ancestors.take split).length := by
        rw [List.length_take]
        omega
      simp only [hstop]
      rw [timestampsDownTo_eq (by omega) (by omega), show split - 1 + 1 = split by omega,
        h.main_take, ← List.reverse_append, ← List.map_append,
        ← List.drop_append_of_le_length hbelow, List.take_append_drop]
  rw [checkAlternativeTimestamp, htaken, checkTimestamps, checkTimestamps,
    median_perm (List.reverse_perm _)]

/-! ### Agreement -/

/-- There are more ancestors than the window takes and no more of them than that are on
the alternative chain, or the parent is the genesis block and a window of one is not
enough. -/
def RulesAgree (checkWindow split altLength : ℕ) : Prop :=
  checkWindow < split + altLength ∧ altLength ≤ checkWindow ∨
    split + altLength = 1 ∧ 1 < checkWindow

theorem Splits.timestampRules_agree (h : Splits split ancestors main altChain) {checkWindow : ℕ}
    (hagree : RulesAgree checkWindow split altChain.length) {futureLimit : UInt64}
    {b : BlockHeader} (hb : b.timestamp ≤ futureLimit) :
    checkAlternativeTimestamp checkWindow main altChain (split - 1) b =
      checkBlockTimestamp checkWindow futureLimit ancestors b := by
  have hpos := h.split_pos
  have hlength := h.length_eq
  rw [h.checkAlternative_eq, checkBlockTimestamp, if_neg (UInt64.not_lt.mpr hb)]
  rcases hagree with ⟨hlong, hshort⟩ | ⟨hone, hwindow⟩
  · rw [if_neg (by omega)]
    congr 3
    rw [altOffset]
    split <;> omega
  · -- nothing is taken, and the median of nothing is 0
    have hnil : ancestors.drop (altOffset checkWindow split altChain.length) = [] := by
      rw [List.drop_eq_nil_iff, altOffset]
      split <;> omega
    rw [if_pos (by omega), hnil]
    simp [checkTimestamps, median]

/-! ### Disagreement -/

def timedChain (timestamps : List UInt64) : List BlockInfo :=
  timestamps.map fun timestamp => timedInfo 1 timestamp 0

def timedAltChain (split : ℕ) (timestamps : List UInt64) : List BlockExtendedInfo :=
  (timestamps.drop split).mapIdx fun i timestamp =>
    ⟨⟨⟨1, 1, timestamp, nullHash, 0⟩, sampleMinerTx, .nil⟩, split + i, 0⟩

/-- The blocks below the split, with another block on top of them. -/
def timedMain (split : ℕ) (timestamps : List UInt64) : List BlockInfo :=
  (timedChain timestamps).take split ++ [timedInfo 1 0 0]

theorem splits_timedChain {split : ℕ} {timestamps : List UInt64} (hpos : 1 ≤ split)
    (hle : split ≤ timestamps.length) :
    Splits split (timedChain timestamps) (timedMain split timestamps)
      (timedAltChain split timestamps) where
  split_pos := hpos
  split_le := by rwa [timedChain, List.length_map]
  main_le := by
    rw [timedMain, List.length_append, List.length_take, timedChain, List.length_map]
    omega
  main_take := by
    rw [timedMain, List.take_append_of_le_length, List.take_take, min_self]
    rw [List.length_take, timedChain, List.length_map]
    omega
  alt_info := by
    rw [timedAltChain, timedChain, ← List.map_drop]
    apply List.ext_getElem?
    intro i
    rw [List.getElem?_map, List.getElem?_mapIdx, List.getElem?_map, Option.map_map]
    rfl
  alt_height := by
    intro front hfront
    rw [timedAltChain, List.head?_mapIdx] at hfront
    obtain ⟨timestamp, -, rfl⟩ := Option.map_eq_some_iff.mp hfront
    rfl

theorem timedChain_timestamps (timestamps : List UInt64) :
    (timedChain timestamps).map BlockInfo.timestamp = timestamps := by
  rw [timedChain, List.map_map]
  exact List.map_id timestamps

theorem median_lt_of_more_highs {lows highs highs' : ℕ} (hle : highs ≤ lows)
    (hge : lows ≤ highs + 1) (hlt : highs < highs') :
    median (twoValued lows highs) < median (twoValued lows highs') := by
  rw [median_twoValued, median_twoValued, if_neg (show ¬highs' < lows by omega)]
  rcases Nat.eq_or_lt_of_le hle with rfl | hmore
  · -- a draw before
    rw [if_neg (lt_irrefl _), if_neg (lt_irrefl _), if_pos hlt]
    split <;> decide
  · rw [if_pos hmore]
    split
    · decide
    · rw [if_neg (by omega)]
      decide

theorem median_lt_of_less_lows {lows highs : ℕ} (hpos : 0 < highs) (hle : highs ≤ lows)
    (hge : lows ≤ highs + 1) :
    median (twoValued lows highs) < median (twoValued (lows - 1) highs) := by
  rw [median_twoValued, median_twoValued]
  rcases Nat.eq_or_lt_of_le hle with rfl | hmore
  · rw [if_neg (lt_irrefl _), if_neg (lt_irrefl _), if_neg (by omega), if_neg (by omega),
      if_pos (by omega)]
    decide
  · rw [if_pos hmore, if_neg (by omega), if_neg (by omega), if_neg (by omega)]
    decide

/-- The timestamps of the ancestors tell the two rules apart, for a block with the given
timestamp. -/
def Separates (checkWindow split altLength : ℕ) (timestamps : List UInt64) (timestamp : UInt64) :
    Prop :=
  timestamps.length = split + altLength ∧
    (¬(timestamp < median (timestamps.drop (altOffset checkWindow split altLength))) ↔
      ¬(timestamps.length < checkWindow ∨
        ¬timestamp < median (timestamps.drop (timestamps.length - checkWindow))))

/-- With fewer ancestors than the window, only the alternative rule asks for something. -/
theorem separates_few {checkWindow split altLength : ℕ} (hpos : 1 ≤ split)
    (htwo : 2 ≤ split + altLength) (hfew : split + altLength < checkWindow) :
    Separates checkWindow split altLength (twoValued 0 (split + altLength)) 0 := by
  have hlength : (twoValued 0 (split + altLength)).length = split + altLength := by
    rw [twoValued, List.length_append, List.length_replicate, List.length_replicate]
    omega
  have hoffset : altOffset checkWindow split altLength = 1 := by
    rw [altOffset, if_neg (by omega)]
    omega
  have hdrop : (twoValued 0 (split + altLength)).drop 1 = twoValued 0 (split + altLength - 1) := by
    rw [twoValued, twoValued, List.replicate_zero, List.nil_append, List.nil_append,
      List.drop_replicate]
  refine ⟨hlength, iff_of_false ?_ ?_⟩
  · rw [hoffset, hdrop, median_twoValued, if_neg (by omega), if_pos (by omega), not_not]
    decide
  · rw [hlength, not_not]
    exact .inl hfew

/-- With as many ancestors as the window, the alternative rule leaves out the genesis
block. -/
theorem separates_exact {checkWindow split altLength : ℕ} (hpos : 1 ≤ split)
    (hexact : split + altLength = checkWindow) (htwo : 2 ≤ checkWindow) :
    Separates checkWindow split altLength
      (twoValued ((checkWindow + 1) / 2) (checkWindow / 2))
      (median (twoValued ((checkWindow + 1) / 2) (checkWindow / 2))) := by
  have hlength : (twoValued ((checkWindow + 1) / 2) (checkWindow / 2)).length = checkWindow := by
    rw [twoValued, List.length_append, List.length_replicate, List.length_replicate]
    omega
  have hoffset : altOffset checkWindow split altLength = 1 := by
    rw [altOffset, if_neg (by omega)]
    omega
  have hdrop : (twoValued ((checkWindow + 1) / 2) (checkWindow / 2)).drop 1 =
      twoValued ((checkWindow + 1) / 2 - 1) (checkWindow / 2) := by
    rw [twoValued, twoValued, List.drop_append_of_le_length, List.drop_replicate]
    rw [List.length_replicate]
    omega
  refine ⟨by rw [hlength, hexact], iff_of_false ?_ ?_⟩
  · rw [hoffset, hdrop, not_not]
    exact median_lt_of_less_lows (by omega) (by omega) (by omega)
  · rw [hlength, Nat.sub_self, List.drop_zero, not_not]
    exact .inr (UInt64.lt_irrefl _)

/-- With more blocks on the alternative chain than the window, the alternative rule takes
them all. -/
theorem separates_many {checkWindow split altLength : ℕ} (hmany : checkWindow < altLength) :
    Separates checkWindow split altLength
      (List.replicate (split + altLength - (checkWindow + 1) / 2) 2 ++
        List.replicate ((checkWindow + 1) / 2) 0)
      (median (twoValued ((checkWindow + 1) / 2) (checkWindow / 2))) := by
  have hlength : (List.replicate (split + altLength - (checkWindow + 1) / 2) (2 : UInt64) ++
      List.replicate ((checkWindow + 1) / 2) 0).length = split + altLength := by
    rw [List.length_append, List.length_replicate, List.length_replicate]
    omega
  -- what is left of the list, up to the order
  have hdrop : ∀ n, n + (checkWindow + 1) / 2 ≤ split + altLength →
      median ((List.replicate (split + altLength - (checkWindow + 1) / 2) (2 : UInt64) ++
        List.replicate ((checkWindow + 1) / 2) 0).drop n) =
      median (twoValued ((checkWindow + 1) / 2)
        (split + altLength - (checkWindow + 1) / 2 - n)) := by
    intro n hn
    rw [List.drop_append_of_le_length (by rw [List.length_replicate]; omega), List.drop_replicate]
    exact median_perm List.perm_append_comm
  refine ⟨hlength, iff_of_false ?_ ?_⟩
  · rw [altOffset, if_pos hmany.le, hdrop split (by omega), not_not]
    exact median_lt_of_more_highs (by omega) (by omega) (by omega)
  · rw [hlength, hdrop _ (by omega), not_not,
      show split + altLength - (checkWindow + 1) / 2 - (split + altLength - checkWindow) =
        checkWindow / 2 by omega]
    exact .inr (UInt64.lt_irrefl _)

theorem exists_separates {checkWindow split altLength : ℕ} (hpos : 1 ≤ split)
    (h : ¬RulesAgree checkWindow split altLength) :
    ∃ timestamps timestamp, Separates checkWindow split altLength timestamps timestamp := by
  rw [RulesAgree] at h
  rcases Nat.lt_trichotomy (split + altLength) checkWindow with hfew | hexact | hmore
  · exact ⟨_, _, separates_few hpos (by omega) hfew⟩
  · rcases Nat.lt_or_ge checkWindow 2 with hone | htwo
    · -- a window of one block, the genesis block
      obtain rfl : checkWindow = 1 := by omega
      obtain rfl : split = 1 := by omega
      obtain rfl : altLength = 0 := by omega
      refine ⟨[2], 0, rfl, iff_of_true ?_ ?_⟩
      · decide
      · decide
    · exact ⟨_, _, separates_exact hpos hexact htwo⟩
  · exact ⟨_, _, separates_many (by omega)⟩

/-- The timestamp rule of an alternative chain agrees with that of the main chain, for
all timestamps, exactly for the lengths of `RulesAgree`. -/
theorem timestampRules_agree_iff (checkWindow split altLength : ℕ) (hpos : 1 ≤ split) :
    (∀ (futureLimit : UInt64) (ancestors main : List BlockInfo)
        (altChain : List BlockExtendedInfo) (b : BlockHeader),
      Splits split ancestors main altChain → altChain.length = altLength →
      b.timestamp ≤ futureLimit →
      checkAlternativeTimestamp checkWindow main altChain (split - 1) b =
        checkBlockTimestamp checkWindow futureLimit ancestors b) ↔
      RulesAgree checkWindow split altLength := by
  constructor
  · intro hall
    by_contra hnot
    obtain ⟨timestamps, timestamp, hlength, hseparates⟩ := exists_separates hpos hnot
    have hsplits := splits_timedChain hpos (show split ≤ timestamps.length by omega)
    have haltLength : (timedAltChain split timestamps).length = altLength := by
      rw [timedAltChain, List.length_mapIdx, List.length_drop]
      omega
    have hsame := hall timestamp _ _ _ ⟨1, 1, timestamp, nullHash, 0⟩ hsplits haltLength
      UInt64.le_rfl
    rw [hsplits.checkAlternative_eq, checkBlockTimestamp, if_neg (UInt64.lt_irrefl _),
      List.map_drop, List.map_drop, timedChain_timestamps, haltLength] at hsame
    have hchain : (timedChain timestamps).length = timestamps.length := by
      rw [timedChain, List.length_map]
    rw [hchain] at hsame
    -- the two verdicts as they are told apart
    have hiff : ¬(timestamp < median (timestamps.drop (altOffset checkWindow split altLength))) ↔
        timestamps.length < checkWindow ∨
          ¬timestamp < median (timestamps.drop (timestamps.length - checkWindow)) := by
      have htrue := congrArg (· = true) hsame
      simp only [checkTimestamps, decide_eq_true_eq, eq_iff_iff] at htrue
      rw [htrue]
      split
      · rename_i hfew
        exact iff_of_true rfl (.inl hfew)
      · rename_i hfew
        simp [hfew]
    exact iff_not_self (hiff.symm.trans hseparates)
  · intro hagree futureLimit ancestors main altChain b hsplits hlength hb
    rw [← hlength] at hagree
    exact hsplits.timestampRules_agree hagree hb

/-- Three blocks, of which the last is on an alternative chain: the main chain would take
a block at time 50 on top of them, the alternative chain does not. -/
theorem timestampRules_differ_early :
    Splits 2 (timedChain [0, 100, 100]) (timedMain 2 [0, 100, 100])
        (timedAltChain 2 [0, 100, 100]) ∧
      checkBlockTimestamp 60 7200 (timedChain [0, 100, 100]) ⟨1, 1, 50, nullHash, 0⟩ = true ∧
      checkAlternativeTimestamp 60 (timedMain 2 [0, 100, 100]) (timedAltChain 2 [0, 100, 100])
        1 ⟨1, 1, 50, nullHash, 0⟩ = false := by
  refine ⟨splits_timedChain (by decide) (by decide), ?_, ?_⟩
  · decide
  · decide

theorem timestampRules_agree_iff_early : ¬RulesAgree 60 2 1 ∧ RulesAgree 2 3 1 ∧
    ∀ (futureLimit : UInt64) (ancestors main : List BlockInfo)
        (altChain : List BlockExtendedInfo) (b : BlockHeader),
      Splits 3 ancestors main altChain → altChain.length = 1 → b.timestamp ≤ futureLimit →
      checkAlternativeTimestamp 2 main altChain 2 b =
        checkBlockTimestamp 2 futureLimit ancestors b := by
  have hagree : RulesAgree 2 3 1 := .inl (by decide)
  refine ⟨?_, hagree, (timestampRules_agree_iff 2 3 1 (by decide)).mpr hagree⟩
  rw [RulesAgree]
  decide

end XrCoin.Blockchain

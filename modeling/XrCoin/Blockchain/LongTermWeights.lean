import XrCoin.Blockchain.Emission
import XrCoin.Epee.MedianWindow

/-!
The long-term weights of the blocks and the cache of their median:
`get_long_term_block_weight_median`, `get_next_long_term_block_weight` and
`update_next_cumulative_weight_limit`, over the blocks that are added, popped and added again.

A block is what these functions read of it. The state also records the answers that
`get_long_term_block_weight_median` gave.
-/

namespace XrCoin.Blockchain

open Cryptonote Epee

structure WeightConfig extends RewardConfig where
  /-- `m_long_term_block_weights_window`. -/
  longTermBlockWeightsWindow : ℕ
  /-- `CRYPTONOTE_SHORT_TERM_BLOCK_WEIGHT_SURGE_FACTOR`. -/
  shortTermBlockWeightSurgeFactor : UInt64
  /-- `HF_VERSION_LONG_TERM_BLOCK_WEIGHT`. -/
  hfVersionLongTermBlockWeight : UInt8

structure WeighedBlock where
  id : Hash
  prevId : Hash
  majorVersion : UInt8
  weight : UInt64
  deriving DecidableEq

structure WeightRow where
  block : WeighedBlock
  longTermBlockWeight : UInt64
  deriving DecidableEq

/-- One answer of `get_long_term_block_weight_median`, with the weights that the database has
for the same heights. -/
structure MedianCall where
  startHeight : ℕ
  count : ℕ
  stored : List UInt64
  answer : UInt64
  deriving DecidableEq

structure WeightState where
  rows : List WeightRow
  /-- `get_current_hard_fork_version`. -/
  version : UInt8
  cacheTipHash : Hash
  cacheRollingMedian : RollingMedian UInt64
  longTermEffectiveMedianBlockWeight : UInt64
  currentBlockCumulWeightMedian : UInt64
  currentBlockCumulWeightLimit : UInt64
  calls : List MedianCall

variable (wc : WeightConfig)

/-- The greatest long-term weight of a block above blocks with a long-term median. -/
def shortTermConstraint (longTermMedian : UInt64) : UInt64 :=
  max wc.blockGrantedFullRewardZoneV1 longTermMedian + wc.blockGrantedFullRewardZoneV1 * 2 / 50

namespace WeightState

variable (s : WeightState)

def height : ℕ := s.rows.length

def blockHash (height : ℕ) : Hash := (s.rows[height]?.map fun r => r.block.id).getD nullHash

def blockWeight (height : ℕ) : UInt64 := (s.rows[height]?.map fun r => r.block.weight).getD 0

def blockLongTermWeight (height : ℕ) : UInt64 :=
  (s.rows[height]?.map WeightRow.longTermBlockWeight).getD 0

def longTermBlockWeights (startHeight count : ℕ) : List UInt64 :=
  ((s.rows.map WeightRow.longTermBlockWeight).drop startHeight).take count

def lastNBlocksWeights (count : ℕ) : List UInt64 :=
  (s.rows.drop (s.height - min s.height count)).map fun r => r.block.weight

def tailId : Hash := (s.rows.getLast?.map fun r => r.block.id).getD nullHash

def setCumulWeight (cumulWeightMedian : UInt64) : WeightState :=
  let fullRewardZone := getMinBlockWeight wc.toRewardConfig s.version
  let cumulWeightMedian :=
    if cumulWeightMedian ≤ fullRewardZone then fullRewardZone else cumulWeightMedian
  { s with
    currentBlockCumulWeightMedian := cumulWeightMedian
    currentBlockCumulWeightLimit := cumulWeightMedian * 2 }

/-- The end of `update_next_cumulative_weight_limit` from the long-term version on. -/
def setLongTermMedian (longTermMedian : UInt64) : WeightState :=
  let zone := wc.blockGrantedFullRewardZoneV1
  let effectiveMedian := max zone longTermMedian
  let shortTermMedian := median (s.lastNBlocksWeights wc.rewardBlocksWindow)
  { s with longTermEffectiveMedianBlockWeight := effectiveMedian }.setCumulWeight wc
    (min (max zone shortTermMedian) (wc.shortTermBlockWeightSurgeFactor * effectiveMedian))

end WeightState

@[reducible] def weightOrder : LinearOrder UInt64 where
  le_refl := UInt64.le_refl
  le_trans _ _ _ := UInt64.le_trans
  le_antisymm _ _ := UInt64.le_antisymm
  le_total := UInt64.le_total
  toDecidableLE := inferInstance
  lt_iff_le_not_ge a b := by
    rw [UInt64.not_le]
    exact ⟨fun h => ⟨UInt64.le_of_lt h, h⟩, fun h => h.2⟩

attribute [local instance] weightOrder

/-- The median of the weights at some heights: from the cache, from the cache with one weight
more, or from the database. The cache knows the id of the last block only if it had as many
weights before. Nothing is asked for no weight. -/
def getLongTermBlockWeightMedian (s : WeightState) (startHeight count : ℕ) :
    Option (UInt64 × WeightState) :=
  if count = 0 then none
  else
    let tipHeight := startHeight + count - 1
    let sameSize := tipHeight < s.height ∧ count = s.cacheRollingMedian.size
    let tipHash := if sameSize then s.blockHash tipHeight else nullHash
    if sameSize ∧ tipHash = s.cacheTipHash then some (s.cacheRollingMedian.median, s)
    else if 0 < tipHeight ∧ sameSize ∧ s.blockHash (tipHeight - 1) = s.cacheTipHash then
      let rolling := s.cacheRollingMedian.insert (s.blockLongTermWeight tipHeight)
      some (rolling.median, { s with cacheTipHash := tipHash, cacheRollingMedian := rolling })
    else if s.height ≤ startHeight then none
    else
      let rolling := (s.longTermBlockWeights startHeight count).foldl RollingMedian.insert
        s.cacheRollingMedian.clear
      some (rolling.median, { s with cacheTipHash := tipHash, cacheRollingMedian := rolling })

def callMedian (s : WeightState) (startHeight count : ℕ) : Option (UInt64 × WeightState) :=
  (getLongTermBlockWeightMedian s startHeight count).map fun r =>
    (r.1, { r.2 with
      calls := r.2.calls ++
        [⟨startHeight, count, s.longTermBlockWeights startHeight count, r.1⟩] })

def getNextLongTermBlockWeight (s : WeightState) (blockWeight : UInt64) :
    Option (UInt64 × WeightState) :=
  let nblocks := min wc.longTermBlockWeightsWindow s.height
  if s.version < wc.hfVersionLongTermBlockWeight then some (blockWeight, s)
  else
    (callMedian s (s.height - nblocks) nblocks).map fun r =>
      (min blockWeight (shortTermConstraint wc r.1), r.2)

/-- The weight of the last block goes into the cache as the current version has it. -/
def updateNextCumulativeWeightLimit (s : WeightState) : Option WeightState :=
  if s.version < wc.hfVersionLongTermBlockWeight then
    some (s.setCumulWeight wc (median (s.lastNBlocksWeights wc.rewardBlocksWindow)))
  else if s.height = 0 then none
  else
    let blockWeight := s.blockWeight (s.height - 1)
    if s.height = 1 then
      some (s.setLongTermMedian wc
        (min blockWeight (shortTermConstraint wc wc.blockGrantedFullRewardZoneV1)))
    else
      let nblocks := min wc.longTermBlockWeightsWindow s.height
      let nblocks := if nblocks = s.height then nblocks - 1 else nblocks
      (callMedian s (s.height - nblocks - 1) nblocks).map fun r =>
        let rolling := r.2.cacheRollingMedian.insert
          (min blockWeight (shortTermConstraint wc r.1))
        { r.2 with
          cacheTipHash := r.2.blockHash (s.height - 1)
          cacheRollingMedian := rolling }.setLongTermMedian wc rolling.median

/-! ### The operations on the chain -/

inductive WeightOp
  /-- `handle_block_to_main_chain`, with the version that the hard forks have after it. -/
  | addBlock (b : WeighedBlock) (nextVersion : UInt8)
  /-- A block that the database does not take after its weight was asked for. -/
  | refuseBlock (weight : UInt64)
  /-- `pop_block_from_blockchain`, which leaves the version. -/
  | popBlock
  /-- `reorganize_from_block_height`. -/
  | reorganize (version : UInt8)
  /-- `init` on the database, with the blocks that it pops. -/
  | restart (popped : ℕ) (version : UInt8)
  deriving DecidableEq

/-- A block of the version and on top of the chain is stored with its long-term weight. -/
def addBlock (s : WeightState) (b : WeighedBlock) (nextVersion : UInt8) : Option WeightState :=
  if b.prevId = s.tailId ∧ b.majorVersion = s.version then
    (getNextLongTermBlockWeight wc s b.weight).bind fun r =>
      updateNextCumulativeWeightLimit wc
        { r.2 with rows := r.2.rows ++ [⟨b, r.1⟩], version := nextVersion }
  else none

/-- The genesis block stays. -/
def popBlock (s : WeightState) : Option WeightState :=
  if s.height < 2 then none
  else updateNextCumulativeWeightLimit wc { s with rows := s.rows.dropLast }

/-- A new node on the blocks that are left. What its memory holds is arbitrary. -/
def restart (s : WeightState) (popped : ℕ) (version : UInt8) : Option WeightState :=
  if s.height ≤ popped then none
  else
    updateNextCumulativeWeightLimit wc
      { s with
        rows := s.rows.take (s.height - popped)
        version := version
        cacheTipHash := nullHash
        cacheRollingMedian := .new wc.longTermBlockWeightsWindow s.cacheRollingMedian.data
        longTermEffectiveMedianBlockWeight := 0 }

/-- A step that throws or is refused leaves the state. -/
def weightStep (s : WeightState) : WeightOp → WeightState
  | .addBlock b nextVersion => (addBlock wc s b nextVersion).getD s
  | .refuseBlock weight => ((getNextLongTermBlockWeight wc s weight).map Prod.snd).getD s
  | .popBlock => (popBlock wc s).getD s
  | .reorganize version => { s with version := version }
  | .restart popped version => (restart wc s popped version).getD s

def WeightState.initial (version : UInt8) (memory : ℕ → UInt64) : WeightState :=
  ⟨[], version, nullHash, .new wc.longTermBlockWeightsWindow memory, 0, 0, 0, []⟩

end XrCoin.Blockchain

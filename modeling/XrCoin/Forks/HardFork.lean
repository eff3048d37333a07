import XrCoin.Cryptonote.Basic
import XrCoin.Cryptonote.Difficulty
import XrCoin.Data.Window

/-!
The class `HardFork`: a table of forks, a window of votes over the last blocks and
the fork that is in force.

The object keeps the vote of each block of the window and a counter for each
version. It is moved on by `add`, and built again from the database by
`reorganize_from_block_height` and by `rescan_from_block_height`.
-/

namespace XrCoin.Forks

open Cryptonote Data

/-! ### State -/

structure Params where
  version : UInt8
  threshold : UInt8
  height : ℕ
  time : ℤ
  diffResetValue : Difficulty
  deriving DecidableEq

structure HardForkConfig where
  originalVersion : UInt8
  windowSize : UInt64
  defaultThresholdPercent : UInt8
  windowSize_pos : 0 < windowSize
  defaultThresholdPercent_le : defaultThresholdPercent ≤ 100

theorem defaultThreshold_le : (80 : UInt8) ≤ 100 := by decide

structure HardFork where
  heights : List Params
  /-- `versions` and `last_versions`. -/
  votes : Window UInt8
  currentForkIndex : ℕ

/-- What the object reads and writes of the database: the headers of the blocks, and
the table `hf_versions`. -/
structure ForkDb where
  blocks : List BlockHeader
  hfVersions : ℕ → Option UInt8

def ForkDb.height (db : ForkDb) : ℕ := db.blocks.length

def ForkDb.setHardForkVersion (db : ForkDb) (height : ℕ) (version : UInt8) : ForkDb :=
  ⟨db.blocks, Function.update db.hfVersions height (some version)⟩

def ForkDb.empty : ForkDb := ⟨[], fun _ => none⟩

/-! ### The table of forks -/

def addFork (version : UInt8) (height : ℕ) (threshold : UInt8) (time : ℤ)
    (diffResetValue : Difficulty) (heights : List Params) : Bool × List Params :=
  let inOrder :=
    match heights.getLast? with
    | none => true
    | some back => back.version < version ∧ back.height < height ∧ back.time < time
  if version ≠ 0 ∧ inOrder = true ∧ threshold ≤ 100 then
    (true, heights ++ [⟨version, threshold, height, time, diffResetValue⟩])
  else (false, heights)

/-- The version of an entry. The index stays inside the table. -/
def versionAt (heights : List Params) (index : ℕ) : UInt8 :=
  (heights[index]?.map Params.version).getD 0

def getEffectiveVersion (heights : List Params) (votingVersion : UInt8) : UInt8 :=
  match heights.getLast? with
  | none => votingVersion
  | some back => if back.version < votingVersion then back.version else votingVersion

def getBlockVote (b : BlockHeader) : UInt8 := if b.minorVersion = 0 then 1 else b.minorVersion

def effectiveVote (heights : List Params) (b : BlockHeader) : UInt8 :=
  getEffectiveVersion heights (getBlockVote b)

/-- `get_ideal_version` of a height: the last entry behind the first that has begun. -/
def getIdealVersion (conf : HardForkConfig) (heights : List Params) (height : ℕ) : UInt8 :=
  match heights.tail.reverse.find? fun p => p.height ≤ height with
  | some p => p.version
  | none => conf.originalVersion

def lastDiffReset (heights : List Params) (height : ℕ) : Option Params :=
  heights.reverse.find? fun p => p.height ≤ height ∧ p.diffResetValue ≠ 0

def getLastDiffResetHeight (heights : List Params) (height : ℕ) : ℕ :=
  ((lastDiffReset heights height).map Params.height).getD 0

def getLastDiffResetValue (heights : List Params) (height : ℕ) : Difficulty :=
  ((lastDiffReset heights height).map Params.diffResetValue).getD 0

/-! ### Voting -/

variable (conf : HardForkConfig)

def votesNeeded (p : Params) : UInt32 :=
  ((conf.windowSize * p.threshold.toUInt64 + 99) / 100).toUInt32

/-- The loop of `get_voted_fork_index`, from entry `n` down to the one behind the
current. -/
def votedForkIndexLoop (heights : List Params) (counts : UInt8 → UInt32) (current height : ℕ) :
    ℕ → UInt32 → ℕ
  | 0, _ => current
  | n + 1, accumulatedVotes =>
      if n + 1 ≤ current then current
      else
        match heights[n + 1]? with
        | none => current
        | some p =>
            let accumulatedVotes := accumulatedVotes + counts p.version
            if p.height ≤ height ∧ votesNeeded conf p ≤ accumulatedVotes then n + 1
            else votedForkIndexLoop heights counts current height n accumulatedVotes

def getVotedForkIndex (hf : HardFork) (height : ℕ) : ℕ :=
  votedForkIndexLoop conf hf.heights hf.votes.counts hf.currentForkIndex height
    (hf.heights.length - 1) 0

/-- The index is read into a byte, and the current one only ever raised. -/
def raiseToVoted (hf : HardFork) (height : ℕ) : HardFork :=
  let voted := (UInt8.ofNat (getVotedForkIndex conf hf height)).toNat
  ⟨hf.heights, hf.votes, if hf.currentForkIndex < voted then voted else hf.currentForkIndex⟩

def getCurrentVersion (hf : HardFork) : UInt8 := versionAt hf.heights hf.currentForkIndex

def check (hf : HardFork) (b : BlockHeader) : Bool :=
  b.majorVersion = getCurrentVersion hf ∧ getCurrentVersion hf ≤ getBlockVote b

def checkForHeight (hf : HardFork) (b : BlockHeader) (height : ℕ) : Bool :=
  let version := versionAt hf.heights (getVotedForkIndex conf hf height)
  b.majorVersion = version ∧ version ≤ getBlockVote b

def add (b : BlockHeader) (height : ℕ) (hf : HardFork) (db : ForkDb) : Bool × HardFork × ForkDb :=
  if check hf b then
    let votes := (hf.votes.trim conf.windowSize.toNat).push (effectiveVote hf.heights b)
    (true, raiseToVoted conf ⟨hf.heights, votes, hf.currentForkIndex⟩ (height + 1),
      db.setHardForkVersion height (getCurrentVersion hf))
  else (false, hf, db)

/-! ### Building the state again -/

/-- The loop that adds the blocks behind the given height, whatever `add` returns. -/
def addRest : List BlockHeader → ℕ → HardFork → ForkDb → HardFork × ForkDb
  | [], _, hf, db => (hf, db)
  | b :: bs, height, hf, db =>
      let added := add conf b height hf db
      addRest bs (height + 1) added.2.1 added.2.2

def lowerForkIndex (heights : List Params) (startVersion : UInt8) : ℕ → ℕ
  | 0 => 0
  | index + 1 =>
      if startVersion < versionAt heights (index + 1) then lowerForkIndex heights startVersion index
      else index + 1

/-- The window of the votes of the blocks from `first` up to `last`. -/
def scanVotes (heights : List Params) (blocks : List BlockHeader) (first last : ℕ) :
    Window UInt8 :=
  .ofList (((blocks.take (last + 1)).drop first).map (effectiveVote heights))

/-- `reorganize_from_block_height`, or nothing when the database has no version at the
height. -/
def reorganizeFromBlockHeight (height : ℕ) (hf : HardFork) (db : ForkDb) :
    Option (Bool × HardFork × ForkDb) :=
  if db.height ≤ height then some (false, hf, db)
  else
    (if height = 0 then some conf.originalVersion else db.hfVersions height).map fun startVersion =>
      let votes := scanVotes hf.heights db.blocks (height - (conf.windowSize.toNat - 1)) height
      let index := lowerForkIndex hf.heights startVersion hf.currentForkIndex
      let hf := raiseToVoted conf ⟨hf.heights, votes, index⟩ (height + 1)
      (true, addRest conf (db.blocks.drop (height + 1)) (height + 1) hf db)

def reorganizeFromChainHeight (height : ℕ) (hf : HardFork) (db : ForkDb) :
    Option (Bool × HardFork × ForkDb) :=
  if height = 0 then some (false, hf, db) else reorganizeFromBlockHeight conf (height - 1) hf db

/-- The loop that looks for the fork of a version, up to the last entry. -/
def findForkIndex (version : UInt8) : List Params → ℕ
  | [] => 0
  | p :: ps => if p.version = version ∨ ps = [] then 0 else findForkIndex version ps + 1

def rescanFromBlockHeight (height : ℕ) (hf : HardFork) (db : ForkDb) :
    Option (Bool × HardFork) :=
  if db.height ≤ height then some (false, hf)
  else
    (db.hfVersions (db.height - 1)).map fun lastVersion =>
      let votes := scanVotes hf.heights db.blocks height (db.height - 1)
      (true, raiseToVoted conf ⟨hf.heights, votes, findForkIndex lastVersion hf.heights⟩ db.height)

def rescanFromChainHeight (height : ℕ) (hf : HardFork) (db : ForkDb) : Option (Bool × HardFork) :=
  if height = 0 then some (false, hf) else rescanFromBlockHeight conf (height - 1) hf db

/-- `init`, on the table that was given. An empty one gets an entry for the original
version. A database without fork versions is gone through from the start. -/
def init (heights : List Params) (db : ForkDb) : Option (HardFork × ForkDb) :=
  let heights := if heights = [] then [⟨conf.originalVersion, 0, 0, 0, 0⟩] else heights
  let hf : HardFork := ⟨heights, .empty, 0⟩
  match db.hfVersions 0 with
  | none =>
      (reorganizeFromChainHeight conf 1 hf db).map fun reorganized =>
        (reorganized.2.1, reorganized.2.2.setHardForkVersion 0 conf.originalVersion)
  | some _ =>
      let height :=
        if conf.windowSize.toNat < db.height then db.height - (conf.windowSize.toNat - 1) else 1
      (rescanFromChainHeight conf height hf db).map fun rescanned => (rescanned.2, db)

end XrCoin.Forks

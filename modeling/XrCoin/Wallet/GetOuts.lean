import XrCoin.Data.Filling
import XrCoin.Wallet.PickOutputs
import XrCoin.Wallet.TransferSelected

/-!
`get_outs`: the rings of the outputs that are spent.

What the daemon answers is a parameter, and so are the database of rings, the arithmetic of keys,
the shares of the outputs from before and after a fork, and all that is drawn. A list of draws that
ends before the loop counts as a throw.
-/

namespace XrCoin.Wallet

open Archive Cryptonote Data

/-! ### Data -/

structure HistogramEntry where
  amount : UInt64
  unlockedInstances : UInt64
  recentInstances : UInt64

structure OutsEntry where
  index : UInt64
  key : PublicKey
  mask : Key
  deriving DecidableEq

structure OutKey where
  key : PublicKey
  mask : Key
  unlocked : Bool

structure Answer extends OutKey where
  index : UInt64

/-- `std::make_tuple` in `tx_add_fake_output` -/
def Answer.entry (a : Answer) : OutsEntry := ⟨a.index, a.key, a.mask⟩

structure OutsEnv where
  isAfterSegregationFork : Bool
  segregationForkHeight : UInt64
  segregatePreForkOutputs : Bool
  keyReuseMitigation2 : Bool
  /-- The outputs of an amount until the fork, and how many of them are recent. -/
  segregationLimit : UInt64 → UInt64 × UInt64
  /-- How many of so many outputs are drawn from before and from after the fork. -/
  forkShares : Bool → ℕ → ℕ × ℕ
  rctDistribution : Option (List UInt64)
  nonrctDistribution : UInt64 → List UInt64
  /-- `get_output_histogram`, for some amounts. -/
  outputHistogram : List UInt64 → List HistogramEntry
  lastBlockReward : UInt64
  ring : KeyImage → Option (List UInt64)
  blackballed : UInt64 × UInt64 → Bool
  /-- `get_outs.bin` -/
  getOutsBin : List (UInt64 × UInt64) → Except String (List OutKey)
  commit : UInt64 → Key → Key
  zeroCommit : UInt64 → Key
  fakeOutputsCount : ℕ

structure Shuffle where
  run : ℕ → List Answer → List Answer
  perm (n : ℕ) (answers : List Answer) : (run n answers).Perm answers

namespace OutsEnv

variable (env : OutsEnv)

/-! ### What is asked for -/

/-- `CRYPTONOTE_MINED_MONEY_UNLOCK_WINDOW - CRYPTONOTE_DEFAULT_TX_SPENDABLE_AGE` -/
def lockedSpares : ℕ := 60 - 10

def baseRequestedOutputsCount : ℕ := (env.fakeOutputsCount + 1) * 3 / 2 + 1

def requestedOutputsCount (td : TransferDetails) : ℕ :=
  env.baseRequestedOutputsCount +
    if td.rct ∨ td.amount ≤ env.lastBlockReward then lockedSpares else 0

def outsAmount (td : TransferDetails) : UInt64 := if td.rct then 0 else td.amount

def hasRctDistribution (tds : List TransferDetails) : Bool :=
  tds.any (fun td => td.rct) && env.rctDistribution.isSome

/-- The histogram is asked for all amounts, except for 0 with the RCT distribution. -/
def histogramAmounts (tds : List TransferDetails) : List UInt64 :=
  (((tds.filter fun td => !td.rct || !env.hasRctDistribution tds).map
    outsAmount).insertionSort (· ≤ ·)).dedup

def histogram (tds : List TransferDetails) : List HistogramEntry :=
  if env.histogramAmounts tds = [] then [] else env.outputHistogram (env.histogramAmounts tds)

def outputIsPreFork (td : TransferDetails) : Bool := td.blockHeight < env.segregationForkHeight

def segregated (td : TransferDetails) : Bool :=
  env.isAfterSegregationFork && env.segregatePreForkOutputs && env.outputIsPreFork td

/-- The numbers of outputs and of recent outputs that are listed for a transfer. -/
def listedOuts (tds : List TransferDetails) (td : TransferDetails) : UInt64 × UInt64 :=
  if env.segregated td then
    env.segregationLimit (outsAmount td)
  else
    match (env.histogram tds).find? fun he => he.amount = outsAmount td with
    | some he => (he.unlockedInstances, he.recentInstances)
    | none => (0, 0)

def useHistogram (tds : List TransferDetails) (td : TransferDetails) : Bool :=
  outsAmount td ≠ 0 || !env.hasRctDistribution tds

/-- `num_outs` when the outputs are asked for, and how many of them are recent. -/
def usableOuts (tds : List TransferDetails) (td : TransferDetails) :
    Except String (UInt64 × UInt64) := do
  let (numOuts, numRecentOuts) := env.listedOuts tds td
  if env.useHistogram tds td then
    throwIf (numOuts = 0) "histogram reports no unlocked outputs"
    throwIf (numOuts < numRecentOuts) "histogram reports more recent outs than outs"
    return (numOuts, numRecentOuts)
  else
    let rctOffsets := env.rctDistribution.getD []
    let numOuts := rctOffsets.getD (rctOffsets.length - 10) 0
    throwIf (numOuts = 0) "histogram reports no unlocked rct outputs, not even ours"
    return (numOuts, numRecentOuts)

/-- How many outputs are drawn from before and from after the fork. -/
def forkCounts (td : TransferDetails) : ℕ × ℕ :=
  if env.segregated td then
    (0, 0)
  else if env.isAfterSegregationFork && env.keyReuseMitigation2 then
    env.forkShares (env.outputIsPreFork td) (env.requestedOutputsCount td)
  else
    (0, 0)

def recentOutputsCount (tds : List TransferDetails) (td : TransferDetails)
    (numOuts numRecentOuts : UInt64) : ℕ :=
  if env.useHistogram tds td then
    let normal := env.requestedOutputsCount td - (env.forkCounts td).1 - (env.forkCounts td).2
    let recent := min (if normal / 2 = 0 then 1 else normal / 2) numRecentOuts.toNat
    if numOuts - numRecentOuts ≤ td.globalOutputIndex ∧ 0 < recent then recent - 1 else recent
  else
    0

def distribution (tds : List TransferDetails) (td : TransferDetails)
    (numOuts numRecentOuts : UInt64) : PickJob.Distribution :=
  let gammaRct := decide (outsAmount td = 0) && env.hasRctDistribution tds
  { gammaRct
    offsets :=
      if gammaRct then env.rctDistribution.getD [] else env.nonrctDistribution (outsAmount td)
    segregationLimit := (env.segregationLimit (outsAmount td)).1
    preForkCount := (env.forkCounts td).1 +
      if gammaRct then env.recentOutputsCount tds td numOuts numRecentOuts else 0
    postForkCount := (env.forkCounts td).2 }

def pickJob (td : TransferDetails) (numOuts : UInt64) : PickJob where
  numOuts := numOuts
  requestedOutputsCount := env.requestedOutputsCount td
  blackballed i := env.blackballed (outsAmount td, i)

def knownRing (td : TransferDetails) : Option (List UInt64) :=
  if td.keyImageKnown ∧ ¬td.keyImagePartial then env.ring td.keyImage else none

def ringOutputs (td : TransferDetails) (numOuts : UInt64) : Except String (List UInt64) :=
  match env.knownRing td with
  | none => .ok []
  | some ring => do
      throwIf (env.fakeOutputsCount + 1 < ring.length)
        "An output in this transaction was previously spent on another chain"
      let used := ring.filter fun out => decide (out < numOuts)
      throwIf (td.globalOutputIndex ∉ used) "Known ring does not include the spent output"
      return used

def requestOne (tds : List TransferDetails) (td : TransferDetails)
    (turns : List (List PickJob.Draw)) : Except String (List UInt64) := do
  let (numOuts, numRecentOuts) ← env.usableOuts tds td
  let used ← env.ringOutputs td numOuts
  let requested := env.requestedOutputsCount td
  if numOuts.toNat ≤ requested ∧ env.knownRing td = none then
    -- The last one again to make up for the shortfall: that is caught after the answer.
    return ((List.range numOuts.toNat).map UInt64.ofNat ++
      List.replicate (requested - numOuts.toNat) (numOuts - 1)).insertionSort (· ≤ ·)
  let job := env.pickJob td numOuts
  let (done, st) ← job.pickOutputs (env.distribution tds td numOuts numRecentOuts) turns
    (job.startPicks (if used = [] then [td.globalOutputIndex] else used))
  throwIf (done = false) "no more draws"
  return (st.outputs ++ List.replicate (requested - st.numFound) 0).insertionSort (· ≤ ·)

def requestAll (tds : List TransferDetails) (draws : ℕ → List (List PickJob.Draw)) :
    ℕ → List TransferDetails → Except String (List (UInt64 × UInt64))
  | _, [] => .ok []
  | n, td :: rest => do
      let outs ← env.requestOne tds td (draws n)
      let request ← requestAll tds draws (n + 1) rest
      return outs.map (fun i => (outsAmount td, i)) ++ request

/-! ### What is answered -/

def parts : List TransferDetails → List Answer → List (TransferDetails × List Answer)
  | [], _ => []
  | td :: rest, answers =>
      (td, answers.take (env.requestedOutputsCount td)) ::
        parts rest (answers.drop (env.requestedOutputsCount td))

def askDaemon (tds : List TransferDetails) (draws : ℕ → List (List PickJob.Draw)) :
    Except String (List (TransferDetails × List Answer)) := do
  throwIf (env.hasRctDistribution tds ∧ (env.rctDistribution.getD []).length ≤ 10)
    "Not enough rct outputs"
  let request ← env.requestAll tds draws 0 tds
  let outs ← env.getOutsBin request
  throwIf (outs.length ≠ request.length)
    "daemon returned wrong response for get_outs.bin, wrong amounts count"
  return env.parts tds (request.zipWith (fun asked out => ⟨out, asked.2⟩) outs)

def ownMask (td : TransferDetails) : Key :=
  if td.rct then env.commit td.amount td.mask else env.zeroCommit td.amount

def txAddFakeOutput (realIndex : UInt64) (ring : List OutsEntry) (a : Answer) : List OutsEntry :=
  if ¬a.unlocked then ring else if a.index = realIndex then ring else addNew ring a.entry

def addKnownRing (td : TransferDetails) (numOuts : UInt64) (answers : List Answer) :
    List UInt64 → List OutsEntry → Except String (List OutsEntry)
  | [], ring => .ok ring
  | out :: outs, ring => do
      if out < numOuts ∧ out ≠ td.globalOutputIndex then
        let a ← orThrow (answers.find? fun a => a.index = out)
          "Falied to find existing ring output in daemon out data"
        addKnownRing td numOuts answers outs (txAddFakeOutput td.globalOutputIndex ring a)
      else
        addKnownRing td numOuts answers outs ring

def addFakeOutputs (realIndex : UInt64) : List Answer → List OutsEntry → List OutsEntry
  | [], ring => ring
  | a :: answers, ring =>
      if ring.length < env.fakeOutputsCount + 1 then
        addFakeOutputs realIndex answers (txAddFakeOutput realIndex ring a)
      else
        ring

/-- The ring of one transfer from its answers. It may be too short. -/
def ringOf (tds : List TransferDetails) (td : TransferDetails) (answers shuffled : List Answer) :
    Except String (List OutsEntry) := do
  let key ← orThrow td.publicKey? "boost::bad_get"
  throwIf (¬∃ a ∈ answers, a.entry = ⟨td.globalOutputIndex, key, env.ownMask td⟩)
    "Daemon response did not include the requested real output"
  let ring ← addKnownRing td (env.listedOuts tds td).1 answers ((env.knownRing td).getD [])
    [⟨td.globalOutputIndex, key, env.ownMask td⟩]
  return env.addFakeOutputs td.globalOutputIndex shuffled ring

def ringsOf (tds : List TransferDetails) (shuffle : Shuffle) :
    ℕ → List (TransferDetails × List Answer) → Except String (List (List OutsEntry))
  | _, [] => .ok []
  | n, (td, answers) :: rest => do
      let ring ← env.ringOf tds td answers (shuffle.run n answers)
      let rings ← ringsOf tds shuffle (n + 1) rest
      return ring :: rings

def realOnly (td : TransferDetails) : Except String (List OutsEntry) := do
  let key ← orThrow td.publicKey? "boost::bad_get"
  return [⟨td.globalOutputIndex, key, env.ownMask td⟩]

def getOuts (tds : List TransferDetails) (draws : ℕ → List (List PickJob.Draw))
    (shuffle : Shuffle) : Except String (List (List OutsEntry)) := do
  if env.fakeOutputsCount = 0 then
    return ← tds.mapM env.realOnly
  let parts ← env.askDaemon tds draws
  let rings ← env.ringsOf tds shuffle 0 parts
  throwIf (∃ ring ∈ rings, ring.length < env.fakeOutputsCount + 1) "not_enough_outs_to_mix"
  return rings.map fun ring => ring.insertionSort fun a b => a.index ≤ b.index

end OutsEnv

end XrCoin.Wallet

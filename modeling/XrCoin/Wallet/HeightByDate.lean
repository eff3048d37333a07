import XrCoin.Data.Throwing

/-!
`get_blockchain_height_by_date`: the height to restore from, found by halving the range of heights.

The blocks are asked of the daemon three at a time: the two ends of the range and its middle. Only
the middle is compared, and the search ends early by one of two margins.
-/

namespace XrCoin.Wallet

open Data

/-! ### The code -/

def makeCoreRpcVersion (major minor : UInt32) : UInt32 := major <<< 16 ||| minor

/-- What is asked of the daemon: its version if it can be reached, its height, and blocks, with
nothing if no answer comes. -/
structure DateDaemon (β : Type) where
  address : String
  version : Option UInt32
  height : Except String UInt64
  getBlocksByHeight : List UInt64 → Option (String × List β)

section

variable {β : Type} (daemon : DateDaemon β) (parse : β → Option UInt64)

def blocksFailure (heights : List UInt64) (reason : String) : String :=
  "failed to get blocks by heights: " ++
    String.join (heights.map fun height => toString height.toNat ++ " ") ++ "\nreason: " ++ reason

def blocksByHeight (heights : List UInt64) : Except String (List β) :=
  match daemon.getBlocksByHeight heights with
  | none => .error (blocksFailure heights "possibly lost connection to daemon")
  | some (status, blocks) =>
      if status = "OK" then .ok blocks
      else if status = "BUSY" then .error (blocksFailure heights "daemon is busy")
      else .error (blocksFailure heights status)

def timestampAt (blocks : List β) (i : ℕ) (height : UInt64) : Except String UInt64 :=
  orThrow (blocks[i]?.bind parse) ("failed to parse blob at height " ++ toString height.toNat)

def timestampsAt (heightMin heightMid heightMax : UInt64) :
    Except String (UInt64 × UInt64 × UInt64) := do
  let blocks ← blocksByHeight daemon [heightMin, heightMid, heightMax]
  throwIf (blocks.length < 3) "Not enough blocks returned from daemon"
  let timestampMin ← timestampAt parse blocks 0 heightMin
  let timestampMid ← timestampAt parse blocks 1 heightMid
  let timestampMax ← timestampAt parse blocks 2 heightMax
  .ok (timestampMin, timestampMid, timestampMax)

/-- The loop, and nothing if it is still going when the fuel is spent. -/
def bisectHeight (timestampTarget : UInt64) :
    ℕ → UInt64 → UInt64 → Option (Except String UInt64)
  | 0, _, _ => none
  | fuel + 1, heightMin, heightMax =>
      let heightMid := (heightMin + heightMax) / 2
      match timestampsAt daemon parse heightMin heightMid heightMax with
      | .error e => some (.error e)
      | .ok (timestampMin, timestampMid, timestampMax) =>
          if ¬(timestampMin ≤ timestampMid ∧ timestampMid ≤ timestampMax) then
            some (.ok (min heightMin (min heightMid heightMax)))
          else if timestampMax < timestampTarget then
            some (.error "specified date is in the future")
          else if timestampTarget ≤ timestampMin + 2 * 24 * 60 * 60 then some (.ok heightMin)
          else
            let bounds := if timestampTarget ≤ timestampMid then (heightMin, heightMid)
              else (heightMid, heightMax)
            if bounds.2 - bounds.1 ≤ 2 * 24 * 30 then some (.ok bounds.1)
            else bisectHeight timestampTarget fuel bounds.1 bounds.2

/-- `get_blockchain_height_by_date`. What `mktime` makes of a date depends on the time zone. -/
def getBlockchainHeightByDate (mktime : UInt16 → UInt8 → UInt8 → UInt64) (fuel : ℕ)
    (year : UInt16) (month day : UInt8) : Option (Except String UInt64) :=
  match daemon.version with
  | none => some (.error ("failed to connect to daemon: " ++ daemon.address))
  | some version =>
      if version < makeCoreRpcVersion 1 6 then
        some (.error "this function requires RPC version 1.6 or higher")
      else if month < 1 ∨ 12 < month ∨ day < 1 ∨ 31 < day then
        some (.error "month or day out of range")
      else
        match daemon.height with
        | .error _ => some (.error "failed to get blockchain height")
        | .ok height => bisectHeight daemon parse (mktime year month day) fuel 0 (height - 1)

end

/-- `on_get_blocks_by_height` of the daemon: the status, and the blocks up to the first that is not
there. -/
def onGetBlocksByHeight {β : Type} (chain : List β) :
    List UInt64 → List β → String × List β
  | [], blocks => ("OK", blocks)
  | height :: heights, blocks =>
      match chain[height.toNat]? with
      | none => ("Error retrieving block at height " ++ toString height.toNat, blocks)
      | some block => onGetBlocksByHeight chain heights (blocks ++ [block])

def dateDaemonOf {β : Type} (chain : List β) : DateDaemon β :=
  { address := "localhost:18081"
    version := some (makeCoreRpcVersion 1 6)
    height := .ok (UInt64.ofNat chain.length)
    getBlocksByHeight := fun heights => some (onGetBlocksByHeight chain heights []) }

/-! ### The chain behind the daemon -/

/-- The timestamps of a chain. The tables of the daemon are mapped into memory, with more than two
bytes for each block. -/
structure DatedChain where
  timestamps : List UInt64
  length_le : timestamps.length ≤ 2 ^ 63

structure Serves {β : Type} (daemon : DateDaemon β) (parse : β → Option UInt64)
    (chain : DatedChain) : Prop where
  version : ∃ version, daemon.version = some version ∧ ¬version < makeCoreRpcVersion 1 6
  height : daemon.height = .ok (UInt64.ofNat chain.timestamps.length)
  blocks : ∀ heights timestamps,
    List.Forall₂ (fun height timestamp => chain.timestamps[UInt64.toNat height]? = some timestamp)
      heights timestamps →
    ∃ blocks, daemon.getBlocksByHeight heights = some ("OK", blocks) ∧
      blocks.map parse = timestamps.map some

theorem onGetBlocksByHeight_eq {β : Type} {parse : β → Option UInt64} {chain : List β}
    {timestamps : List UInt64} (hparse : chain.map parse = timestamps.map some)
    {heights served : List UInt64}
    (h : List.Forall₂ (fun height timestamp =>
      timestamps[UInt64.toNat height]? = some timestamp) heights served) (blocks : List β) :
    ∃ more, onGetBlocksByHeight chain heights blocks = ("OK", blocks ++ more) ∧
      more.map parse = served.map some := by
  induction h generalizing blocks with
  | nil => exact ⟨[], by rw [onGetBlocksByHeight, List.append_nil], rfl⟩
  | @cons height timestamp heights served hheight hrest ih =>
      have hmap : (chain.map parse)[height.toNat]? = some (some timestamp) := by
        rw [hparse, List.getElem?_map, hheight]
        rfl
      rw [List.getElem?_map, Option.map_eq_some_iff] at hmap
      obtain ⟨block, hblock, hparsed⟩ := hmap
      obtain ⟨more, hmore, hmap⟩ := ih (blocks ++ [block])
      refine ⟨block :: more, ?_, by rw [List.map_cons, List.map_cons, hparsed, hmap]⟩
      rw [onGetBlocksByHeight, hblock]
      simp only [hmore, List.append_assoc, List.singleton_append]

theorem serves_dateDaemonOf {β : Type} {parse : β → Option UInt64} {blocks : List β}
    {chain : DatedChain} (hparse : blocks.map parse = chain.timestamps.map some) :
    Serves (dateDaemonOf blocks) parse chain := by
  refine ⟨⟨makeCoreRpcVersion 1 6, rfl, by decide⟩, ?_, fun heights timestamps h => ?_⟩
  · have hlength := congrArg List.length hparse
    rw [List.length_map, List.length_map] at hlength
    rw [dateDaemonOf, hlength]
  · obtain ⟨more, hmore, hmap⟩ := onGetBlocksByHeight_eq hparse h []
    refine ⟨more, ?_, hmap⟩
    rw [dateDaemonOf]
    simp only [hmore, List.nil_append]

/-! ### One turn -/

section

variable {β : Type} {daemon : DateDaemon β} {parse : β → Option UInt64} {chain : DatedChain}

theorem Serves.timestampsAt_eq (hserves : Serves daemon parse chain)
    {heightMin heightMid heightMax timestampMin timestampMid timestampMax : UInt64}
    (hmin : chain.timestamps[heightMin.toNat]? = some timestampMin)
    (hmid : chain.timestamps[heightMid.toNat]? = some timestampMid)
    (hmax : chain.timestamps[heightMax.toNat]? = some timestampMax) :
    timestampsAt daemon parse heightMin heightMid heightMax =
      .ok (timestampMin, timestampMid, timestampMax) := by
  obtain ⟨blocks, hblocks, hmap⟩ := hserves.blocks [heightMin, heightMid, heightMax]
    [timestampMin, timestampMid, timestampMax] (.cons hmin (.cons hmid (.cons hmax .nil)))
  have hlength := congrArg List.length hmap
  rw [List.length_map] at hlength
  match blocks, hlength, hmap with
  | [b₀, b₁, b₂], _, hmap =>
      simp only [List.map_cons, List.map_nil, List.cons.injEq, and_true] at hmap
      obtain ⟨h₀, h₁, h₂⟩ := hmap
      rw [timestampsAt, blocksByHeight, hblocks]
      simp [timestampAt, orThrow, throwIf, bind, Except.bind, h₀, h₁, h₂]

/-! ### The bounds -/

/-- What the bounds are known to be: nothing from the target on stands below them, and the upper
one is such a block. -/
structure Bounds (chain : DatedChain) (target heightMin heightMax : UInt64) : Prop where
  le : heightMin.toNat ≤ heightMax.toNat
  before : heightMin = 0 ∨ ∀ t, chain.timestamps[heightMin.toNat]? = some t → t < target
  reached : ∃ t, chain.timestamps[heightMax.toNat]? = some t ∧ target ≤ t

structure RestoresFrom (chain : DatedChain) (target height : UInt64) : Prop where
  skipsNone : ∀ i t, chain.timestamps[i]? = some t → target ≤ t → height.toNat ≤ i
  near : (∃ t, chain.timestamps[height.toNat]? = some t ∧
      target.toNat ≤ t.toNat + 2 * 24 * 60 * 60) ∨
    ∃ i t, chain.timestamps[i]? = some t ∧ target ≤ t ∧
      (∀ j < i, ∀ t', chain.timestamps[j]? = some t' → t' < target) ∧ i ≤ height.toNat + 2 * 24 * 30

theorem DatedChain.timestamps_le (hsorted : chain.timestamps.Pairwise (· ≤ ·)) {i j : ℕ}
    {t t' : UInt64} (hi : chain.timestamps[i]? = some t) (hj : chain.timestamps[j]? = some t')
    (hle : i ≤ j) : t ≤ t' := by
  obtain ⟨hiLt, rfl⟩ := List.getElem?_eq_some_iff.mp hi
  obtain ⟨hjLt, rfl⟩ := List.getElem?_eq_some_iff.mp hj
  rcases Nat.eq_or_lt_of_le hle with rfl | hlt
  · exact UInt64.le_refl _
  · exact List.pairwise_iff_getElem.mp hsorted i j hiLt hjLt hlt

variable {target heightMin heightMax : UInt64}

/-- The middle is within the bounds: their sum has room. -/
theorem Bounds.toNat_mid (h : Bounds chain target heightMin heightMax) :
    ((heightMin + heightMax) / 2).toNat = (heightMin.toNat + heightMax.toNat) / 2 := by
  obtain ⟨t, hmax, -⟩ := h.reached
  have hlt := (List.getElem?_eq_some_iff.mp hmax).1
  have hle := h.le
  have hlength := chain.length_le
  rw [UInt64.toNat_div, UInt64.toNat_add, Nat.mod_eq_of_lt (by omega)]
  rfl

theorem Bounds.skipsNone (h : Bounds chain target heightMin heightMax)
    (hsorted : chain.timestamps.Pairwise (· ≤ ·)) {i : ℕ} {t : UInt64}
    (hi : chain.timestamps[i]? = some t) (ht : target ≤ t) : heightMin.toNat ≤ i := by
  rcases h.before with rfl | hbefore
  · exact Nat.zero_le _
  · by_contra hlt
    obtain ⟨t', hmax, -⟩ := h.reached
    have hmaxLt := (List.getElem?_eq_some_iff.mp hmax).1
    have hmin := List.getElem?_eq_getElem (h.le.trans_lt hmaxLt)
    have hle := DatedChain.timestamps_le hsorted hi hmin (by omega)
    exact absurd (hbefore _ hmin) (UInt64.not_lt.mpr (UInt64.le_trans ht hle))

theorem Bounds.exists_first (h : Bounds chain target heightMin heightMax) :
    ∃ i t, chain.timestamps[i]? = some t ∧ target ≤ t ∧
      (∀ j < i, ∀ t', chain.timestamps[j]? = some t' → t' < target) ∧ i ≤ heightMax.toNat := by
  have hexists : ∃ i, ∃ t, chain.timestamps[i]? = some t ∧ target ≤ t := ⟨_, h.reached⟩
  classical
  obtain ⟨t, ht, hle⟩ := Nat.find_spec hexists
  refine ⟨Nat.find hexists, t, ht, hle, fun j hj t' ht' => ?_, Nat.find_min' hexists h.reached⟩
  by_contra hnot
  exact Nat.find_min hexists hj ⟨t', ht', UInt64.not_lt.mp hnot⟩

theorem Bounds.next (h : Bounds chain target heightMin heightMax) {heightMid timestampMid : UInt64}
    (hheight : heightMid.toNat = (heightMin.toNat + heightMax.toNat) / 2)
    (hmid : chain.timestamps[heightMid.toNat]? = some timestampMid) :
    let bounds := if target ≤ timestampMid then (heightMin, heightMid) else (heightMid, heightMax)
    Bounds chain target bounds.1 bounds.2 := by
  have hle := h.le
  split_ifs with htarget
  · exact ⟨show heightMin.toNat ≤ heightMid.toNat by omega, h.before, timestampMid, hmid, htarget⟩
  · refine ⟨show heightMid.toNat ≤ heightMax.toNat by omega, .inr fun t ht => ?_, h.reached⟩
    rw [← Option.some.inj (hmid.symm.trans ht)]
    exact UInt64.not_le.mp htarget

/-! ### The search -/

theorem bisectHeight_spec (hserves : Serves daemon parse chain)
    (hsorted : chain.timestamps.Pairwise (· ≤ ·))
    (hsmall : ∀ t ∈ chain.timestamps, t.toNat < 2 ^ 63) {fuel : ℕ}
    (h : Bounds chain target heightMin heightMax)
    (hfuel : heightMax.toNat - heightMin.toNat < fuel) :
    ∃ height, bisectHeight daemon parse target fuel heightMin heightMax = some (.ok height) ∧
      RestoresFrom chain target height := by
  induction fuel generalizing heightMin heightMax with
  | zero => exact absurd hfuel (Nat.not_lt_zero _)
  | succ fuel ih =>
      have hmidHeight := h.toNat_mid
      obtain ⟨timestampMax, hmax, htargetMax⟩ := h.reached
      have hle := h.le
      have hmaxLt := (List.getElem?_eq_some_iff.mp hmax).1
      obtain ⟨timestampMin, hmin⟩ : ∃ t, chain.timestamps[heightMin.toNat]? = some t :=
        ⟨_, List.getElem?_eq_getElem (by omega)⟩
      obtain ⟨timestampMid, hmid⟩ :
          ∃ t, chain.timestamps[((heightMin + heightMax) / 2).toNat]? = some t :=
        ⟨_, List.getElem?_eq_getElem (by omega)⟩
      have hordered : timestampMin ≤ timestampMid ∧ timestampMid ≤ timestampMax :=
        ⟨DatedChain.timestamps_le hsorted hmin hmid (by omega),
          DatedChain.timestamps_le hsorted hmid hmax (by omega)⟩
      rw [bisectHeight]
      simp only [hserves.timestampsAt_eq hmin hmid hmax]
      rw [if_neg (not_not.mpr hordered), if_neg (UInt64.not_lt.mpr htargetMax)]
      -- two days have room behind the timestamp
      have hbuffer : (timestampMin + 2 * 24 * 60 * 60).toNat =
          timestampMin.toNat + 2 * 24 * 60 * 60 := by
        have hlt := hsmall _ (List.mem_of_getElem? hmin)
        rw [UInt64.toNat_add, Nat.mod_eq_of_lt]
        · rfl
        · show timestampMin.toNat + 172800 < 2 ^ 64
          omega
      by_cases hnear : target ≤ timestampMin + 2 * 24 * 60 * 60
      · rw [if_pos hnear]
        refine ⟨heightMin, rfl, fun i t hi ht => h.skipsNone hsorted hi ht, .inl ⟨_, hmin, ?_⟩⟩
        rw [← hbuffer]
        exact hnear
      rw [if_neg hnear]
      have hnext := h.next hmidHeight hmid
      have hwidth : let bounds := if target ≤ timestampMid then
            (heightMin, (heightMin + heightMax) / 2) else ((heightMin + heightMax) / 2, heightMax)
          bounds.2.toNat - bounds.1.toNat ≤ (heightMax.toNat - heightMin.toNat + 1) / 2 := by
        split_ifs
        · simp only
          omega
        · simp only
          omega
      simp only at hnext hwidth ⊢
      generalize (if target ≤ timestampMid then (heightMin, (heightMin + heightMax) / 2)
        else ((heightMin + heightMax) / 2, heightMax)) = bounds at hnext hwidth ⊢
      have hdifference : (bounds.2 - bounds.1).toNat = bounds.2.toNat - bounds.1.toNat :=
        UInt64.toNat_sub_of_le _ _ hnext.le
      by_cases hfine : bounds.2 - bounds.1 ≤ 2 * 24 * 30
      · rw [if_pos hfine]
        have hfew : bounds.2.toNat - bounds.1.toNat ≤ 2 * 24 * 30 := by
          rw [← hdifference]
          exact hfine
        obtain ⟨i, t, hi, ht, hfirst, hbelow⟩ := hnext.exists_first
        exact ⟨bounds.1, rfl, fun i t hi ht => hnext.skipsNone hsorted hi ht,
          .inr ⟨i, t, hi, ht, hfirst, by omega⟩⟩
      · rw [if_neg hfine]
        have hmany : 2 * 24 * 30 < bounds.2.toNat - bounds.1.toNat := by
          rw [← hdifference]
          exact UInt64.not_le.mp hfine
        exact ih hnext (by omega)

theorem Bounds.start {last : UInt64} (hlast : chain.timestamps.getLast? = some last)
    (htarget : target ≤ last) :
    Bounds chain target 0 (UInt64.ofNat chain.timestamps.length - 1) ∧
      (UInt64.ofNat chain.timestamps.length - 1).toNat = chain.timestamps.length - 1 := by
  have hlength := chain.length_le
  have hpos : 0 < chain.timestamps.length :=
    List.length_pos_of_ne_nil fun hnil => by simp [hnil] at hlast
  have hnat : (UInt64.ofNat chain.timestamps.length).toNat = chain.timestamps.length :=
    UInt64.toNat_ofNat_of_lt' (show chain.timestamps.length < 2 ^ 64 by omega)
  have hmax : (UInt64.ofNat chain.timestamps.length - 1).toNat = chain.timestamps.length - 1 := by
    have hone : (1 : UInt64).toNat ≤ (UInt64.ofNat chain.timestamps.length).toNat := by
      rw [hnat]
      exact hpos
    rw [UInt64.toNat_sub_of_le _ _ hone, hnat]
    rfl
  refine ⟨⟨Nat.zero_le _, .inl rfl, last, ?_, htarget⟩, hmax⟩
  rw [hmax, ← hlast, List.getLast?_eq_getElem?]

/-- No block from the target on is skipped, and not much is read before it. -/
theorem getBlockchainHeightByDate_spec (hserves : Serves daemon parse chain)
    (hsorted : chain.timestamps.Pairwise (· ≤ ·))
    (hsmall : ∀ t ∈ chain.timestamps, t.toNat < 2 ^ 63)
    (mktime : UInt16 → UInt8 → UInt8 → UInt64) {year : UInt16} {month day : UInt8}
    (hdate : ¬(month < 1 ∨ 12 < month ∨ day < 1 ∨ 31 < day)) {last : UInt64}
    (hlast : chain.timestamps.getLast? = some last) (htarget : mktime year month day ≤ last)
    {fuel : ℕ} (hfuel : chain.timestamps.length ≤ fuel) :
    ∃ height, getBlockchainHeightByDate daemon parse mktime fuel year month day =
        some (.ok height) ∧
      RestoresFrom chain (mktime year month day) height := by
  obtain ⟨version, hversion, hrecent⟩ := hserves.version
  obtain ⟨hbounds, hmax⟩ := Bounds.start hlast htarget
  obtain ⟨t, hreached, -⟩ := hbounds.reached
  have hlt := (List.getElem?_eq_some_iff.mp hreached).1
  rw [getBlockchainHeightByDate, hversion, hserves.height]
  simp only
  rw [if_neg hrecent, if_neg hdate]
  exact bisectHeight_spec hserves hsorted hsmall hbounds (show _ - 0 < fuel by omega)

end

/-- Three blocks, the first two a week apart. -/
def sampleChain : DatedChain := ⟨[1000, 605800, 605900], by decide⟩

theorem getBlockchainHeightByDate_sample : ∃ height,
    getBlockchainHeightByDate (dateDaemonOf sampleChain.timestamps) some (fun _ _ _ => 605850) 3
        2020 1 8 = some (.ok height) ∧
      RestoresFrom sampleChain 605850 height :=
  getBlockchainHeightByDate_spec (serves_dateDaemonOf rfl) (by decide)
    (by simp [sampleChain]) (fun _ _ _ => 605850) (by decide) rfl (by decide) (by decide)

example : getBlockchainHeightByDate (dateDaemonOf sampleChain.timestamps) some
    (fun _ _ _ => 605850) 3 2020 1 8 = some (.ok 1) := by
  rfl

end XrCoin.Wallet

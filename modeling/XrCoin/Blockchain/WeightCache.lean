import Mathlib
import XrCoin.Blockchain.LongTermWeights
import XrCoin.Data.Runs

/-!
The cache of the long-term median is right under the id that it carries: it has the last
weights of the chain that ends in that block, whether or not the chain is the main one now.
A block from before the long-term version that is too heavy for it is the exception.
-/

namespace XrCoin.Blockchain

open Cryptonote Epee Data

attribute [local instance] weightOrder

/-! ### The median of the cache -/

theorem rollingMedian_median {m : RollingMedian UInt64} (h : m.WellFormed) (hsz : 0 < m.sz) :
    m.median = median m.window := by
  obtain ⟨below, above, hsorted, hlength, hlast⟩ := h.sorted_window hsz
  have hmin := h.counted.minCt
  have hmax := h.counted.maxCt
  have hwindow := m.window_length
  have hmiddle : (m.window.insertionSort (· ≤ ·)).getD (m.sz / 2) 0 = m.value 0 := by
    rw [hsorted, List.getD_append_right _ _ _ _ (by omega), hlength, Nat.sub_self]
    rfl
  have hnil : m.window ≠ [] := List.length_pos_iff.mp (by omega)
  rw [RollingMedian.median, median, if_neg hnil, hwindow]
  by_cases hone : m.sz = 1
  · rw [if_neg (show ¬m.minCt < m.maxCt by omega), if_pos hone, ← hmiddle, hone]
    obtain ⟨a, ha⟩ := List.length_eq_one_iff.mp (hwindow.trans hone)
    rw [ha]
    rfl
  rw [if_neg hone]
  by_cases hodd : m.sz % 2 = 1
  · rw [if_neg (show ¬m.minCt < m.maxCt by omega), if_pos hodd, hmiddle]
  · obtain ⟨rest, hrest⟩ := hlast (by omega)
    have hbefore : (m.window.insertionSort (· ≤ ·)).getD (m.sz / 2 - 1) 0 = m.value (-1) := by
      have hrestLength : rest.length + 1 = m.sz / 2 := by
        rw [← hlength, hrest, List.length_append, List.length_singleton]
      rw [hsorted, hrest, List.append_assoc, List.getD_append_right _ _ _ _ (by omega),
        ← hrestLength, Nat.add_sub_cancel, Nat.sub_self]
      rfl
    rw [if_pos (show m.minCt < m.maxCt by omega), if_neg hodd, hmiddle, hbefore,
      UInt64.add_comm]

/-! ### Chains -/

variable (wc : WeightConfig)

/-- The long-term weight of a block above blocks with some long-term weights. -/
def nextWeight (below : List UInt64) (b : WeighedBlock) : UInt64 :=
  if b.majorVersion < wc.hfVersionLongTermBlockWeight then b.weight
  else min b.weight (shortTermConstraint wc (median (below.rtake wc.longTermBlockWeightsWindow)))

def chainWeights (blocks : List WeighedBlock) : List UInt64 :=
  blocks.foldl (fun weights b => weights ++ [nextWeight wc weights b]) []

theorem chainWeights_concat (blocks : List WeighedBlock) (b : WeighedBlock) :
    chainWeights wc (blocks ++ [b]) =
      chainWeights wc blocks ++ [nextWeight wc (chainWeights wc blocks) b] := by
  rw [chainWeights, List.foldl_append]
  rfl

theorem chainWeights_length (blocks : List WeighedBlock) :
    (chainWeights wc blocks).length = blocks.length := by
  induction blocks using List.reverseRecOn with
  | nil => rfl
  | append_singleton blocks b ih =>
      rw [chainWeights_concat, List.length_append, List.length_append, ih, List.length_singleton,
        List.length_singleton]

theorem chainWeights_take (blocks : List WeighedBlock) (n : ℕ) :
    (chainWeights wc blocks).take n = chainWeights wc (blocks.take n) := by
  induction blocks using List.reverseRecOn with
  | nil =>
      rw [List.take_nil]
      exact List.take_nil
  | append_singleton blocks b ih =>
      by_cases hn : n ≤ blocks.length
      · rw [chainWeights_concat, List.take_append_of_le_length, ih,
          List.take_append_of_le_length hn]
        rw [chainWeights_length]
        exact hn
      · rw [List.take_of_length_le, List.take_of_length_le]
        · rw [List.length_append, List.length_singleton]
          omega
        · rw [chainWeights_length, List.length_append, List.length_singleton]
          omega

def tipId (blocks : List WeighedBlock) : Hash :=
  (blocks.getLast?.map WeighedBlock.id).getD nullHash

@[simp] theorem tipId_concat (blocks : List WeighedBlock) (b : WeighedBlock) :
    tipId (blocks ++ [b]) = b.id := by
  rw [tipId, List.getLast?_concat]
  rfl

/-- Every block names the one below it. -/
def Linked (blocks : List WeighedBlock) : Prop :=
  ∀ below b, below ++ [b] <+: blocks → b.prevId = tipId below

theorem Linked.of_prefix {blocks part : List WeighedBlock} (h : Linked blocks)
    (hpart : part <+: blocks) : Linked part := by
  intro below b hbelow
  exact h below b (hbelow.trans hpart)

theorem Linked.concat {blocks : List WeighedBlock} {b : WeighedBlock} (h : Linked blocks)
    (hb : b.prevId = tipId blocks) : Linked (blocks ++ [b]) := by
  intro below c hc
  rcases List.prefix_concat_iff.mp hc with heq | hc
  · obtain ⟨rfl, hlast⟩ := List.append_inj' heq rfl
    rw [List.singleton_inj.mp hlast]
    exact hb
  · exact h below c hc

structure Distinct (known : WeighedBlock → Prop) : Prop where
  eq_of_id : ∀ b b', known b → known b' → b.id = b'.id → b = b'
  id_ne_null : ∀ b, known b → b.id ≠ nullHash

theorem Linked.eq_of_tipId {known : WeighedBlock → Prop} (hknown : Distinct known)
    {blocks chain : List WeighedBlock} (h : Linked blocks) (hchain : Linked chain)
    (hblocks : ∀ b ∈ blocks, known b) (hchains : ∀ b ∈ chain, known b)
    (htip : tipId blocks = tipId chain) : blocks = chain := by
  induction blocks using List.reverseRecOn generalizing chain with
  | nil =>
      rcases List.eq_nil_or_concat' chain with rfl | ⟨rest, c, rfl⟩
      · rfl
      · rw [tipId_concat] at htip
        exact absurd htip.symm (hknown.id_ne_null c (hchains c (by simp)))
  | append_singleton blocks b ih =>
      rw [tipId_concat] at htip
      rcases List.eq_nil_or_concat' chain with rfl | ⟨rest, c, rfl⟩
      · exact absurd htip (hknown.id_ne_null b (hblocks b (by simp)))
      · rw [tipId_concat] at htip
        obtain rfl := hknown.eq_of_id b c (hblocks b (by simp)) (hchains c (by simp)) htip
        have hrest : blocks = rest := by
          apply ih (h.of_prefix (List.prefix_append _ _))
            (hchain.of_prefix (List.prefix_append _ _))
          · intro b' hb'
            exact hblocks b' (List.mem_append_left _ hb')
          · intro b' hb'
            exact hchains b' (List.mem_append_left _ hb')
          · rw [← h blocks b List.prefix_rfl, hchain rest b List.prefix_rfl]
        rw [hrest]

/-! ### The invariant -/

structure CacheRight (known : WeighedBlock → Prop) (tip : Hash) (rolling : RollingMedian UInt64) :
    Prop where
  wellFormed : rolling.WellFormed
  capacity : rolling.capacity = wc.longTermBlockWeightsWindow
  chain : tip = nullHash ∨
    ∃ blocks, Linked blocks ∧ (∀ b ∈ blocks, known b) ∧ tipId blocks = tip ∧
      rolling.window = (chainWeights wc blocks).rtake wc.longTermBlockWeightsWindow

namespace WeightState

def blocks (s : WeightState) : List WeighedBlock := s.rows.map WeightRow.block

structure Right (known : WeighedBlock → Prop) (s : WeightState) : Prop where
  linked : Linked s.blocks
  blocks_known : ∀ b ∈ s.blocks, known b
  weights : s.rows.map WeightRow.longTermBlockWeight = chainWeights wc s.blocks
  cache : CacheRight wc known s.cacheTipHash s.cacheRollingMedian
  answers : ∀ c ∈ s.calls, c.answer = median c.stored

variable {wc} {known : WeighedBlock → Prop} {s : WeightState}

theorem blockHash_eq (s : WeightState) {h : ℕ} (hh : h < s.height) :
    s.blockHash h = tipId (s.blocks.take (h + 1)) := by
  rw [height] at hh
  have hget : s.rows[h]? = some s.rows[h] := List.getElem?_eq_getElem hh
  rw [blockHash, tipId, blocks, ← List.map_take, List.take_succ_eq_append_getElem hh,
    List.map_append, List.map_singleton, List.getLast?_concat, hget]
  rfl

def windowAt (wc : WeightConfig) (s : WeightState) (h : ℕ) : List UInt64 :=
  (chainWeights wc (s.blocks.take (h + 1))).rtake wc.longTermBlockWeightsWindow

theorem blocks_length (s : WeightState) : s.blocks.length = s.height := by
  rw [blocks, List.length_map, height]

theorem windowAt_length (s : WeightState) {h : ℕ} (hh : h < s.height) :
    (s.windowAt wc h).length = min wc.longTermBlockWeightsWindow (h + 1) := by
  have hlength := s.blocks_length
  rw [windowAt, List.rtake, List.length_drop, chainWeights_length, List.length_take]
  omega

theorem Right.windowAt_succ (hs : s.Right wc known) {h : ℕ} (hh : h < s.height) :
    chainWeights wc (s.blocks.take (h + 1)) =
      chainWeights wc (s.blocks.take h) ++ [s.blockLongTermWeight h] := by
  have hrow : s.rows[h]? = some s.rows[h] := List.getElem?_eq_getElem hh
  rw [← chainWeights_take, ← chainWeights_take, ← hs.weights, blockLongTermWeight, hrow,
    List.take_succ_eq_append_getElem (by rw [List.length_map]; exact hh), List.getElem_map]
  rfl

theorem Right.cacheRight_at (hs : s.Right wc known) {h : ℕ} (hh : h < s.height)
    {rolling : RollingMedian UInt64} (hwf : rolling.WellFormed)
    (hcapacity : rolling.capacity = wc.longTermBlockWeightsWindow)
    (hwindow : rolling.window = s.windowAt wc h) :
    CacheRight wc known (s.blockHash h) rolling := by
  refine ⟨hwf, hcapacity, .inr ⟨s.blocks.take (h + 1), ?_, ?_, (s.blockHash_eq hh).symm, hwindow⟩⟩
  · exact hs.linked.of_prefix (List.take_prefix _ _)
  · intro b hb
    exact hs.blocks_known b (List.mem_of_mem_take hb)

/-- An id of the main chain tells what is in the cache. -/
theorem Right.window_of_tip (hs : s.Right wc known) (hknown : Distinct known) {h : ℕ}
    (hh : h < s.height) (htip : s.blockHash h = s.cacheTipHash) :
    s.cacheRollingMedian.window = s.windowAt wc h := by
  have hhash := s.blockHash_eq hh
  have htake : ∀ b ∈ s.blocks.take (h + 1), known b :=
    fun b hb => hs.blocks_known b (List.mem_of_mem_take hb)
  rcases hs.cache.chain with hnull | ⟨chain, hlinked, hchain, hchainTip, hwindow⟩
  · -- the empty chain would have the same id
    have hnil : s.blocks.take (h + 1) = [] := by
      apply Linked.eq_of_tipId hknown (hs.linked.of_prefix (List.take_prefix _ _))
        (hs.linked.of_prefix List.nil_prefix) htake
      · intro b hb
        exact absurd hb List.not_mem_nil
      · rw [← hhash, htip, hnull]
        rfl
    have hlength := congrArg List.length hnil
    have hblocks := s.blocks_length
    rw [List.length_take, List.length_nil] at hlength
    omega
  · rw [hwindow, windowAt, Linked.eq_of_tipId hknown
      (hs.linked.of_prefix (List.take_prefix (h + 1) s.blocks)) hlinked htake hchain]
    rw [← hhash, htip, hchainTip]

theorem Right.longTermBlockWeights_eq (hs : s.Right wc known) {h : ℕ} (hh : h < s.height) :
    s.longTermBlockWeights (h + 1 - min wc.longTermBlockWeightsWindow (h + 1))
        (min wc.longTermBlockWeightsWindow (h + 1)) = s.windowAt wc h := by
  have hlength := s.blocks_length
  rw [longTermBlockWeights, hs.weights, windowAt, ← chainWeights_take, List.rtake,
    List.length_take, chainWeights_length, hlength, List.drop_take]
  congr 1
  · omega
  · congr 1
    omega

end WeightState

/-! ### The median -/

section Median

variable {wc} {known : WeighedBlock → Prop} {s : WeightState}

theorem CacheRight.refill {tip : Hash} {rolling : RollingMedian UInt64}
    (h : CacheRight wc known tip rolling) (weights : List UInt64)
    (hlength : weights.length ≤ wc.longTermBlockWeightsWindow) :
    (weights.foldl RollingMedian.insert rolling.clear).WellFormed ∧
      (weights.foldl RollingMedian.insert rolling.clear).capacity =
        wc.longTermBlockWeightsWindow ∧
      (weights.foldl RollingMedian.insert rolling.clear).window = weights := by
  have hcapacity : rolling.clear.capacity = wc.longTermBlockWeightsWindow := h.capacity
  have hempty : rolling.clear.window = ([] : List UInt64).rtake rolling.clear.capacity := by
    rw [List.rtake_nil]
    rfl
  obtain ⟨hwf, hcap, hwindow⟩ :=
    (RollingMedian.wellFormed_clear h.wellFormed.capacity_pos).foldl_insert weights hempty
  refine ⟨hwf, hcap.trans hcapacity, ?_⟩
  rw [hwindow, List.nil_append, hcapacity, List.rtake,
    Nat.sub_eq_zero_of_le hlength, List.drop_zero]

theorem median_of_window {s : WeightState} {h : ℕ} {rolling : RollingMedian UInt64}
    (hwindowPos : 0 < wc.longTermBlockWeightsWindow) (hh : h < s.height)
    (hwf : rolling.WellFormed) (hwindow : rolling.window = s.windowAt wc h) :
    rolling.median = median (s.windowAt wc h) := by
  have hsz := rolling.window_length
  rw [hwindow, s.windowAt_length hh] at hsz
  rw [rollingMedian_median hwf (by omega), hwindow]

theorem WeightState.Right.getLongTermBlockWeightMedian (hs : s.Right wc known)
    (hknown : Distinct known) (hwindowPos : 0 < wc.longTermBlockWeightsWindow) {h : ℕ}
    (hh : h < s.height) :
    ∃ tip rolling,
      getLongTermBlockWeightMedian s (h + 1 - min wc.longTermBlockWeightsWindow (h + 1))
          (min wc.longTermBlockWeightsWindow (h + 1)) =
        some (median (s.windowAt wc h),
          { s with cacheTipHash := tip, cacheRollingMedian := rolling }) ∧
      CacheRight wc known tip rolling ∧ rolling.window = s.windowAt wc h := by
  have hstored := hs.longTermBlockWeights_eq hh
  have hlength : (s.windowAt wc h).length = _ := s.windowAt_length hh
  generalize hcount : min wc.longTermBlockWeightsWindow (h + 1) = count at hstored hlength ⊢
  have htip : h + 1 - count + count - 1 = h := by omega
  simp only [Blockchain.getLongTermBlockWeightMedian, htip]
  rw [if_neg (show ¬count = 0 by omega)]
  by_cases hcached : (h < s.height ∧ count = s.cacheRollingMedian.size) ∧
      (if h < s.height ∧ count = s.cacheRollingMedian.size then s.blockHash h else nullHash) =
        s.cacheTipHash
  · have heq := hcached.2
    rw [if_pos hcached.1] at heq
    have hwindow := hs.window_of_tip hknown hh heq
    refine ⟨s.cacheTipHash, s.cacheRollingMedian, ?_, hs.cache, hwindow⟩
    rw [if_pos hcached, median_of_window hwindowPos hh hs.cache.wellFormed hwindow]
  rw [if_neg hcached]
  by_cases hnext : 0 < h ∧ (h < s.height ∧ count = s.cacheRollingMedian.size) ∧
      s.blockHash (h - 1) = s.cacheTipHash
  · have hold := hs.window_of_tip hknown (show h - 1 < s.height by omega) hnext.2.2
    rw [WeightState.windowAt, Nat.sub_add_cancel hnext.1, ← hs.cache.capacity] at hold
    have hwf := (hs.cache.wellFormed.insert (s.blockLongTermWeight h)).1
    have hcapacity := hs.cache.wellFormed.capacity_insert (s.blockLongTermWeight h)
    have hwindow := hs.cache.wellFormed.window_insert (s.blockLongTermWeight h) hold
    rw [← hs.windowAt_succ hh, hs.cache.capacity] at hwindow
    refine ⟨s.blockHash h, _, ?_,
      hs.cacheRight_at hh hwf (hcapacity.trans hs.cache.capacity) hwindow, hwindow⟩
    rw [if_pos hnext, if_pos hnext.2.1, median_of_window hwindowPos hh hwf hwindow]
  rw [if_neg hnext, if_neg (show ¬s.height ≤ h + 1 - count by omega), hstored]
  obtain ⟨hwf, hcapacity, hwindow⟩ := hs.cache.refill (s.windowAt wc h) (by omega)
  refine ⟨if h < s.height ∧ count = s.cacheRollingMedian.size then s.blockHash h else nullHash,
    _, ?_, ?_, hwindow⟩
  · rw [median_of_window hwindowPos hh hwf hwindow]
  · split
    · exact hs.cacheRight_at hh hwf hcapacity hwindow
    · exact ⟨hwf, hcapacity, .inl rfl⟩

theorem WeightState.Right.callMedian (hs : s.Right wc known) (hknown : Distinct known)
    (hwindowPos : 0 < wc.longTermBlockWeightsWindow) {h : ℕ} (hh : h < s.height) :
    ∃ s', callMedian s (h + 1 - min wc.longTermBlockWeightsWindow (h + 1))
        (min wc.longTermBlockWeightsWindow (h + 1)) = some (median (s.windowAt wc h), s') ∧
      s'.Right wc known ∧ s'.rows = s.rows ∧ s'.version = s.version ∧
      s'.cacheRollingMedian.window = s.windowAt wc h := by
  obtain ⟨tip, rolling, hmedian, hcache, hwindow⟩ :=
    hs.getLongTermBlockWeightMedian hknown hwindowPos hh
  rw [Blockchain.callMedian, hmedian]
  refine ⟨_, rfl, ⟨hs.linked, hs.blocks_known, hs.weights, hcache, ?_⟩, rfl, rfl, hwindow⟩
  intro c hc
  rcases List.mem_append.mp hc with hold | hnew
  · exact hs.answers c hold
  · rw [List.mem_singleton.mp hnew, hs.longTermBlockWeights_eq hh]

/-! ### The next weight -/

theorem WeightState.windowAt_top (hpos : 0 < s.height) : s.windowAt wc (s.height - 1) =
    (chainWeights wc s.blocks).rtake wc.longTermBlockWeightsWindow := by
  rw [windowAt, Nat.sub_add_cancel hpos, List.take_of_length_le]
  rw [s.blocks_length]

theorem WeightState.Right.getNextLongTermBlockWeight (hs : s.Right wc known)
    (hknown : Distinct known) (hwindowPos : 0 < wc.longTermBlockWeightsWindow)
    {blockWeight : UInt64} {r : UInt64 × WeightState}
    (hr : getNextLongTermBlockWeight wc s blockWeight = some r) :
    r.2.Right wc known ∧ r.2.rows = s.rows ∧ r.2.version = s.version ∧
      ∀ b : WeighedBlock, b.majorVersion = s.version → b.weight = blockWeight →
        r.1 = nextWeight wc (chainWeights wc s.blocks) b := by
  rw [Blockchain.getNextLongTermBlockWeight] at hr
  by_cases hversion : s.version < wc.hfVersionLongTermBlockWeight
  · simp only [hversion, if_true, Option.some.injEq] at hr
    subst hr
    refine ⟨hs, rfl, rfl, ?_⟩
    intro b hb hweight
    rw [nextWeight, hb, if_pos hversion, hweight]
  simp only [hversion, if_false] at hr
  by_cases hempty : s.height = 0
  · -- nothing is asked below the genesis block
    rw [hempty, Nat.min_zero, Blockchain.callMedian, Blockchain.getLongTermBlockWeightMedian,
      if_pos rfl] at hr
    exact absurd hr (by simp)
  obtain ⟨s', hcall, hs', hrows, hversion', -⟩ :=
    hs.callMedian hknown hwindowPos (show s.height - 1 < s.height by omega)
  rw [Nat.sub_add_cancel (by omega)] at hcall
  rw [hcall, Option.map_some, Option.some.injEq] at hr
  subst hr
  refine ⟨hs', hrows, hversion', ?_⟩
  intro b hb hweight
  rw [nextWeight, hb, if_neg hversion, hweight, s.windowAt_top (by omega)]

end Median

/-! ### The limit -/

/-- A block from before the long-term version is the last one when the limit is set under that
version, and is heavier than the weight that the version would give it. -/
def HeavyBeforeFork (below : List WeightRow) (top : WeighedBlock) (version : UInt8) : Prop :=
  ¬version < wc.hfVersionLongTermBlockWeight ∧ below ≠ [] ∧
    top.majorVersion < wc.hfVersionLongTermBlockWeight ∧
    shortTermConstraint wc (median ((below.map WeightRow.longTermBlockWeight).rtake
      wc.longTermBlockWeightsWindow)) < top.weight

instance (below : List WeightRow) (top : WeighedBlock) (version : UInt8) :
    Decidable (HeavyBeforeFork wc below top version) :=
  inferInstanceAs (Decidable (_ ∧ _ ∧ _ ∧ _))

/-- The last of some blocks is such a block. -/
def HeavyTop (rows : List WeightRow) (version : UInt8) : Prop :=
  ∃ top ∈ rows.getLast?, HeavyBeforeFork wc rows.dropLast top.block version

instance (rows : List WeightRow) (version : UInt8) : Decidable (HeavyTop wc rows version) :=
  inferInstanceAs (Decidable (∃ top ∈ rows.getLast?, _))

section Limit

variable {wc} {known : WeighedBlock → Prop} {s : WeightState}

theorem WeightState.Right.of_same {s' : WeightState} (hs : s.Right wc known)
    (hrows : s'.rows = s.rows) (hcalls : s'.calls = s.calls)
    (hcache : CacheRight wc known s'.cacheTipHash s'.cacheRollingMedian) : s'.Right wc known := by
  have hblocks : s'.blocks = s.blocks := by rw [blocks, blocks, hrows]
  refine ⟨?_, ?_, ?_, hcache, ?_⟩
  · rw [hblocks]
    exact hs.linked
  · rw [hblocks]
    exact hs.blocks_known
  · rw [hblocks, hrows]
    exact hs.weights
  · rw [hcalls]
    exact hs.answers

theorem WeightState.Right.weights_concat (hs : s.Right wc known) {below : List WeightRow}
    {top : WeightRow} (hrows : s.rows = below ++ [top]) :
    below.map WeightRow.longTermBlockWeight = chainWeights wc (below.map WeightRow.block) ∧
      top.longTermBlockWeight =
        nextWeight wc (chainWeights wc (below.map WeightRow.block)) top.block := by
  have hweights := hs.weights
  rw [blocks, hrows, List.map_append, List.map_append, List.map_singleton, List.map_singleton,
    chainWeights_concat] at hweights
  obtain ⟨hbelow, htop⟩ := List.append_inj' hweights rfl
  exact ⟨hbelow, List.singleton_inj.mp htop⟩

theorem WeightState.Right.nextWeight_top (hs : s.Right wc known) {below : List WeightRow}
    {top : WeightRow} (hrows : s.rows = below ++ [top]) (hbelow : below ≠ [])
    (hversion : ¬s.version < wc.hfVersionLongTermBlockWeight)
    (hheavy : ¬HeavyBeforeFork wc below top.block s.version) :
    min top.block.weight (shortTermConstraint wc
        (median ((below.map WeightRow.longTermBlockWeight).rtake
          wc.longTermBlockWeightsWindow))) = top.longTermBlockWeight := by
  obtain ⟨hweights, htop⟩ := hs.weights_concat hrows
  rw [htop, nextWeight, hweights]
  by_cases hold : top.block.majorVersion < wc.hfVersionLongTermBlockWeight
  · rw [if_pos hold]
    apply min_eq_left
    apply UInt64.not_lt.mp
    intro hlt
    rw [← hweights] at hlt
    exact hheavy ⟨hversion, hbelow, hold, hlt⟩
  · rw [if_neg hold]

theorem WeightState.Right.cachedWeight_eq (hs : s.Right wc known) (hheight : 2 ≤ s.height)
    (hversion : ¬s.version < wc.hfVersionLongTermBlockWeight)
    (hheavy : ¬HeavyTop wc s.rows s.version) :
    min (s.blockWeight (s.height - 1))
        (shortTermConstraint wc (median (s.windowAt wc (s.height - 2)))) =
      s.blockLongTermWeight (s.height - 1) := by
  rw [height] at hheight
  obtain ⟨below, top, hrows⟩ : ∃ below top, s.rows = below ++ [top] := by
    rcases List.eq_nil_or_concat' s.rows with hnil | hconcat
    · rw [hnil, List.length_nil] at hheight
      omega
    · exact hconcat
  have hlength : s.height = below.length + 1 := by
    rw [height, hrows, List.length_append, List.length_singleton]
  have hlast : s.rows[s.height - 1]? = some top := by
    rw [hrows, hlength, Nat.add_sub_cancel, List.getElem?_concat_length]
  have hbelow : below ≠ [] := List.length_pos_iff.mp (by rw [height] at hlength; omega)
  have htop := hs.nextWeight_top hrows hbelow hversion (by
    intro h
    apply hheavy
    refine ⟨top, by simp [hrows], ?_⟩
    rw [hrows, List.dropLast_concat]
    exact h)
  rw [blockWeight, blockLongTermWeight, hlast, Option.map_some, Option.map_some,
    Option.getD_some, Option.getD_some, ← htop, windowAt, (hs.weights_concat hrows).1, blocks,
    ← List.map_take, hrows, show s.height - 2 + 1 = below.length by rw [height] at *; omega,
    List.take_left]

theorem WeightState.Right.cacheRight_insert (hs : s.Right wc known) (hheight : 2 ≤ s.height)
    (hwindow : s.cacheRollingMedian.window = s.windowAt wc (s.height - 2)) :
    CacheRight wc known (s.blockHash (s.height - 1))
      (s.cacheRollingMedian.insert (s.blockLongTermWeight (s.height - 1))) := by
  have hlt : s.height - 1 < s.height := by omega
  rw [windowAt, show s.height - 2 + 1 = s.height - 1 by omega, ← hs.cache.capacity] at hwindow
  have hnew := hs.cache.wellFormed.window_insert (s.blockLongTermWeight (s.height - 1)) hwindow
  rw [← hs.windowAt_succ hlt, hs.cache.capacity] at hnew
  exact hs.cacheRight_at hlt (hs.cache.wellFormed.insert _).1
    ((hs.cache.wellFormed.capacity_insert _).trans hs.cache.capacity) hnew

theorem WeightState.Right.updateNextCumulativeWeightLimit (hs : s.Right wc known)
    (hknown : Distinct known) (hwindowPos : 0 < wc.longTermBlockWeightsWindow)
    (hheavy : ¬HeavyTop wc s.rows s.version) {s' : WeightState}
    (hs' : updateNextCumulativeWeightLimit wc s = some s') : s'.Right wc known := by
  rw [Blockchain.updateNextCumulativeWeightLimit] at hs'
  by_cases hversion : s.version < wc.hfVersionLongTermBlockWeight
  · rw [if_pos hversion, Option.some.injEq] at hs'
    subst hs'
    exact hs.of_same rfl rfl hs.cache
  rw [if_neg hversion] at hs'
  by_cases hempty : s.height = 0
  · rw [if_pos hempty] at hs'
    exact absurd hs' (by simp)
  rw [if_neg hempty] at hs'
  by_cases hone : s.height = 1
  · simp only [hone, if_true, Option.some.injEq] at hs'
    subst hs'
    exact hs.of_same rfl rfl hs.cache
  simp only [hone, if_false] at hs'
  have hnblocks : (if min wc.longTermBlockWeightsWindow s.height = s.height then
        min wc.longTermBlockWeightsWindow s.height - 1
      else min wc.longTermBlockWeightsWindow s.height) =
      min wc.longTermBlockWeightsWindow (s.height - 2 + 1) := by
    split <;> omega
  obtain ⟨r, hcall, hr, hrows, hrversion, hwindow⟩ :=
    hs.callMedian hknown hwindowPos (show s.height - 2 < s.height by omega)
  rw [hnblocks, show s.height - min wc.longTermBlockWeightsWindow (s.height - 2 + 1) - 1 =
    s.height - 2 + 1 - min wc.longTermBlockWeightsWindow (s.height - 2 + 1) by omega, hcall,
    Option.map_some, Option.some.injEq] at hs'
  subst hs'
  -- the rows are the same after the call
  have hheight : s.height = r.height := by rw [height, height, hrows]
  have hwindowAt : s.windowAt wc (s.height - 2) = r.windowAt wc (r.height - 2) := by
    rw [windowAt, windowAt, blocks, blocks, hrows, hheight]
  have hweight : s.blockWeight (s.height - 1) = r.blockWeight (r.height - 1) := by
    rw [blockWeight, blockWeight, hrows, hheight]
  refine hr.of_same rfl rfl ?_
  change CacheRight wc known (r.blockHash (s.height - 1)) (r.cacheRollingMedian.insert
    (min (s.blockWeight (s.height - 1))
      (shortTermConstraint wc (median (s.windowAt wc (s.height - 2))))))
  rw [hweight, hwindowAt, hheight,
    hr.cachedWeight_eq (by omega) (by rw [hrversion]; exact hversion)
      (by rw [hrows, hrversion]; exact hheavy)]
  apply hr.cacheRight_insert (by omega)
  rw [hwindow, hwindowAt]

end Limit

/-! ### Runs -/

/-- The step does not set the limit over such a block. -/
def SparesHeavyTop (op : WeightOp) (s : WeightState) : Prop :=
  match op with
  | .addBlock b nextVersion =>
      b.prevId = s.tailId ∧ b.majorVersion = s.version →
        ¬HeavyBeforeFork wc s.rows b nextVersion
  | .refuseBlock _ => True
  | .popBlock => ¬HeavyTop wc s.rows.dropLast s.version
  | .reorganize _ => True
  | .restart popped version => ¬HeavyTop wc (s.rows.take (s.height - popped)) version

instance (op : WeightOp) (s : WeightState) : Decidable (SparesHeavyTop wc op s) :=
  match op with
  | .addBlock _ _ => inferInstanceAs (Decidable (_ → _))
  | .refuseBlock _ => inferInstanceAs (Decidable True)
  | .popBlock => inferInstanceAs (Decidable ¬_)
  | .reorganize _ => inferInstanceAs (Decidable True)
  | .restart _ _ => inferInstanceAs (Decidable ¬_)

def WeightOp.block : WeightOp → Option WeighedBlock
  | .addBlock b _ => some b
  | _ => none

section Steps

variable {wc} {known : WeighedBlock → Prop} {s : WeightState}

theorem cacheRight_new (hwindowPos : 0 < wc.longTermBlockWeightsWindow) (memory : ℕ → UInt64) :
    CacheRight wc known nullHash (.new wc.longTermBlockWeightsWindow memory) :=
  ⟨RollingMedian.wellFormed_clear hwindowPos, rfl, .inl rfl⟩

/-- Blocks are taken from the top, and the cache may be another one. -/
theorem WeightState.Right.of_take {s' : WeightState} {n : ℕ} (hs : s.Right wc known)
    (hrows : s'.rows = s.rows.take n) (hcalls : s'.calls = s.calls)
    (hcache : CacheRight wc known s'.cacheTipHash s'.cacheRollingMedian) : s'.Right wc known := by
  have hblocks : s'.blocks = s.blocks.take n := by rw [blocks, blocks, hrows, List.map_take]
  refine ⟨?_, ?_, ?_, hcache, ?_⟩
  · rw [hblocks]
    exact hs.linked.of_prefix (List.take_prefix _ _)
  · rw [hblocks]
    intro b hb
    exact hs.blocks_known b (List.mem_of_mem_take hb)
  · rw [hblocks, hrows, List.map_take, hs.weights, chainWeights_take]
  · rw [hcalls]
    exact hs.answers

theorem WeightState.tailId_eq (s : WeightState) : s.tailId = tipId s.blocks := by
  rw [tailId, tipId, blocks, List.getLast?_map, Option.map_map]
  rfl

/-- A block goes on top of the chain. -/
theorem WeightState.Right.concat {s' : WeightState} {b : WeighedBlock} {weight : UInt64}
    (hs : s.Right wc known) (hb : known b) (hprev : b.prevId = s.tailId)
    (hweight : weight = nextWeight wc (chainWeights wc s.blocks) b)
    (hrows : s'.rows = s.rows ++ [⟨b, weight⟩]) (hcalls : s'.calls = s.calls)
    (hcache : CacheRight wc known s'.cacheTipHash s'.cacheRollingMedian) : s'.Right wc known := by
  have hblocks : s'.blocks = s.blocks ++ [b] := by
    rw [blocks, hrows, List.map_append, List.map_singleton]
    rfl
  refine ⟨?_, ?_, ?_, hcache, ?_⟩
  · rw [hblocks]
    exact hs.linked.concat (by rw [hprev, s.tailId_eq])
  · rw [hblocks]
    intro c hc
    rcases List.mem_append.mp hc with hold | hnew
    · exact hs.blocks_known c hold
    · rw [List.mem_singleton.mp hnew]
      exact hb
  · rw [hblocks, hrows, List.map_append, List.map_singleton, hs.weights, chainWeights_concat,
      hweight]
  · rw [hcalls]
    exact hs.answers

theorem WeightState.Right.addBlock (hs : s.Right wc known) (hknown : Distinct known)
    (hwindowPos : 0 < wc.longTermBlockWeightsWindow) {b : WeighedBlock} {nextVersion : UInt8}
    (hb : known b) (hspares : SparesHeavyTop wc (.addBlock b nextVersion) s) {s' : WeightState}
    (hs' : addBlock wc s b nextVersion = some s') : s'.Right wc known := by
  rw [Blockchain.addBlock] at hs'
  by_cases hfits : b.prevId = s.tailId ∧ b.majorVersion = s.version
  · rw [if_pos hfits, Option.bind_eq_some_iff] at hs'
    obtain ⟨r, hr, hupdate⟩ := hs'
    obtain ⟨hright, hrows, hversion, hweight⟩ :=
      hs.getNextLongTermBlockWeight hknown hwindowPos hr
    have hblocks : r.2.blocks = s.blocks := by rw [blocks, blocks, hrows]
    have htail : r.2.tailId = s.tailId := by rw [tailId, tailId, hrows]
    have hstored : WeightState.Right wc known
        { r.2 with rows := r.2.rows ++ [⟨b, r.1⟩], version := nextVersion } := by
      refine hright.concat hb (hfits.1.trans htail.symm) ?_ rfl rfl hright.cache
      rw [hblocks]
      exact hweight b hfits.2 rfl
    apply hstored.updateNextCumulativeWeightLimit hknown hwindowPos _ hupdate
    -- the block is the last one now
    rintro ⟨top, htop, hheavy⟩
    rw [List.getLast?_concat, Option.mem_some_iff] at htop
    rw [List.dropLast_concat, hrows, ← htop] at hheavy
    exact hspares hfits hheavy
  · rw [if_neg hfits] at hs'
    exact absurd hs' (by simp)

theorem WeightState.Right.weightStep (hs : s.Right wc known) (hknown : Distinct known)
    (hwindowPos : 0 < wc.longTermBlockWeightsWindow) {op : WeightOp}
    (hop : ∀ b ∈ op.block, known b) (hspares : SparesHeavyTop wc op s) :
    (weightStep wc s op).Right wc known := by
  -- what throws or is refused leaves the state
  have hgetD : ∀ o : Option WeightState, (∀ s', o = some s' → s'.Right wc known) →
      (o.getD s).Right wc known := by
    intro o ho
    cases o with
    | none => exact hs
    | some s' => exact ho s' rfl
  cases op with
  | addBlock b nextVersion =>
      apply hgetD
      intro s' hs'
      exact hs.addBlock hknown hwindowPos (hop b rfl) hspares hs'
  | refuseBlock weight =>
      apply hgetD
      intro s' hs'
      obtain ⟨r, hr, rfl⟩ := Option.map_eq_some_iff.mp hs'
      exact (hs.getNextLongTermBlockWeight hknown hwindowPos hr).1
  | popBlock =>
      apply hgetD
      intro s' hs'
      rw [popBlock] at hs'
      split at hs'
      · exact absurd hs' (by simp)
      · refine WeightState.Right.updateNextCumulativeWeightLimit ?_ hknown hwindowPos ?_ hs'
        · exact hs.of_take List.dropLast_eq_take rfl hs.cache
        · exact hspares
  | reorganize version => exact hs.of_same rfl rfl hs.cache
  | restart popped version =>
      apply hgetD
      intro s' hs'
      rw [restart] at hs'
      split at hs'
      · exact absurd hs' (by simp)
      · refine WeightState.Right.updateNextCumulativeWeightLimit ?_ hknown hwindowPos ?_ hs'
        · exact hs.of_take rfl rfl (cacheRight_new hwindowPos _)
        · exact hspares

theorem right_initial (hwindowPos : 0 < wc.longTermBlockWeightsWindow) (version : UInt8)
    (memory : ℕ → UInt64) : (WeightState.initial wc version memory).Right wc known where
  linked := by
    intro below b hb
    exact absurd (List.prefix_nil.mp hb) (by simp)
  blocks_known b hb := absurd hb List.not_mem_nil
  weights := rfl
  cache := cacheRight_new hwindowPos memory
  answers c hc := absurd hc List.not_mem_nil

end Steps

/-- The median that a node takes of the long-term weights is that of the weights in its
database, in every run that does not set the limit over a block from before the long-term
version that is too heavy for it. -/
theorem medianCalls_agree (hwindowPos : 0 < wc.longTermBlockWeightsWindow) (version : UInt8)
    (memory : ℕ → UInt64) (ops : List WeightOp)
    (hdistinct : ∀ b ∈ ops.filterMap WeightOp.block, ∀ b' ∈ ops.filterMap WeightOp.block,
      b.id = b'.id → b = b')
    (hnull : ∀ b ∈ ops.filterMap WeightOp.block, b.id ≠ nullHash)
    (hspares : Throughout (weightStep wc) (SparesHeavyTop wc)
      (WeightState.initial wc version memory) ops) :
    ∀ c ∈ (run (weightStep wc) (WeightState.initial wc version memory) ops).calls,
      c.answer = median c.stored := by
  have hknown : Distinct (· ∈ ops.filterMap WeightOp.block) :=
    ⟨fun b b' hb hb' => hdistinct b hb b' hb', hnull⟩
  have hright : (run (weightStep wc) (WeightState.initial wc version memory) ops).Right wc
      (· ∈ ops.filterMap WeightOp.block) := by
    apply hspares.invariant _ (right_initial hwindowPos version memory)
    intro s op hop hs hop'
    apply hs.weightStep hknown hwindowPos _ hop'
    intro b hb
    exact List.mem_filterMap.mpr ⟨op, hop, hb⟩
  exact hright.answers

/-! ### A chain that crosses to the long-term version -/

def forkWeights : WeightConfig :=
  { smallRewards with
    blockGrantedFullRewardZoneV1 := 30000
    longTermBlockWeightsWindow := 100000
    shortTermBlockWeightSurgeFactor := 20
    hfVersionLongTermBlockWeight := 10 }

def forkGenesis : WeighedBlock := ⟨hashOfNat 1, nullHash, 9, 100⟩

def beforeFork (weight : UInt64) : WeighedBlock := ⟨hashOfNat 2, hashOfNat 1, 9, weight⟩

def afterFork (id : ℕ) (weight : UInt64) : WeighedBlock :=
  ⟨hashOfNat id, hashOfNat 2, 10, weight⟩

/-- A block follows the fork, is taken back, and another one follows. -/
def crossingRun (weight : UInt64) : List WeightOp :=
  [.addBlock forkGenesis 9, .addBlock (beforeFork weight) 10, .addBlock (afterFork 3 200) 10,
    .popBlock, .addBlock (afterFork 4 300) 10, .refuseBlock 500]

def crossingState (weight : UInt64) : WeightState :=
  run (weightStep forkWeights) (WeightState.initial forkWeights 9 fun _ => 0) (crossingRun weight)

/-- A block of weight 30000 has this weight on both sides of the fork. -/
theorem medianCalls_agree_crossing :
    (crossingState 30000).calls.length = 7 ∧
      ∀ c ∈ (crossingState 30000).calls, c.answer = median c.stored :=
  ⟨by decide, medianCalls_agree forkWeights (by decide) 9 (fun _ => 0)
    (crossingRun 30000) (by decide) (by decide) (by decide)⟩

/-- A block of weight 40000 is stored with it and goes into the cache with 31200. -/
theorem medianCalls_disagree :
    ¬∀ c ∈ (crossingState 40000).calls, c.answer = median c.stored := by
  decide

end XrCoin.Blockchain

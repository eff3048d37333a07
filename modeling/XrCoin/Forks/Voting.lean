import Mathlib
import XrCoin.Data.Descending
import XrCoin.Data.WindowCounts
import XrCoin.Forks.Runs

/-!
The votes that a fork is activated by: `get_voted_fork_index` and `get_voting_info`.

The first adds up the votes for the versions in the table, the second those for all versions from
one on. A vote for a version between two entries is in the second sum only.
-/

namespace XrCoin.Forks

open Cryptonote Data

/-! ### What is reported -/

structure VotingInfo where
  enabled : Bool
  window : UInt32
  votes : UInt32
  threshold : UInt32
  earliestHeight : ℕ
  voting : UInt8
  deriving DecidableEq

def getEarliestIdealHeightForVersion (heights : List Params) (version : UInt8) : ℕ :=
  ((heights.reverse.takeWhile fun p => version ≤ p.version).getLast?.map Params.height).getD
    (2 ^ 64 - 1)

def versionsFrom (version : UInt8) : List UInt8 :=
  (List.range' version.toNat (256 - version.toNat)).map UInt8.ofNat

def getVotingInfo (hf : HardFork) (version : UInt8) : VotingInfo where
  enabled := version ≤ getCurrentVersion hf
  window := hf.votes.items.length.toUInt32
  votes := ((versionsFrom version).map hf.votes.counts).sum
  threshold :=
    let threshold := (hf.heights[hf.currentForkIndex]?.map Params.threshold).getD 0
    (hf.votes.items.length.toUInt32 * threshold.toUInt32 + 99) / 100
  earliestHeight := getEarliestIdealHeightForVersion hf.heights version
  voting := versionAt hf.heights (hf.heights.length - 1)

/-! ### What is expected -/

def votesFrom (hf : HardFork) (version : UInt8) : ℕ :=
  hf.votes.items.countP fun v => version ≤ v

def tableVotes (hf : HardFork) (index : ℕ) : ℕ :=
  hf.votes.items.countP fun v => v ∈ (hf.heights.drop index).map Params.version

variable (conf : HardForkConfig)

/-- So many votes are the percentage of the window that a fork asks for. -/
def Enough (p : Params) (votes : ℕ) : Prop :=
  conf.windowSize.toNat * p.threshold.toNat ≤ 100 * votes

instance instDecidableEnough (p : Params) (votes : ℕ) : Decidable (Enough conf p votes) :=
  inferInstanceAs (Decidable (_ ≤ _))

/-- An entry has begun, and the votes for its version or a later one are enough. -/
def Activated (hf : HardFork) (height index : ℕ) : Prop :=
  ∃ p, hf.heights[index]? = some p ∧ p.height ≤ height ∧ Enough conf p (votesFrom hf p.version)

/-- An entry has begun, and the votes for its version and the later ones of the table pass the
threshold as it is computed. -/
def TableActivated (hf : HardFork) (height index : ℕ) : Prop :=
  ∃ p, hf.heights[index]? = some p ∧ p.height ≤ height ∧
    (votesNeeded conf p).toNat ≤ tableVotes hf index

/-- The voted fork is the last one that is activated behind the current one, and the votes that
are reported for a version of the table are those it is activated by. -/
structure CountsVotes (hf : HardFork) (height : ℕ) : Prop where
  voted : IsGreatest (candidates hf.currentForkIndex (hf.heights.length - 1)
    (Activated conf hf height)) (getVotedForkIndex conf hf height)
  reported : ∀ p ∈ hf.heights, (getVotingInfo hf p.version).votes.toNat = votesFrom hf p.version

/-! ### The sums -/

theorem mem_versionsFrom {version v : UInt8} : v ∈ versionsFrom version ↔ version ≤ v := by
  have hv := v.toNat_lt
  rw [versionsFrom, List.mem_map, UInt8.le_iff_toNat_le]
  constructor
  · rintro ⟨n, hn, rfl⟩
    rw [List.mem_range'_1] at hn
    rw [UInt8.toNat_ofNat']
    omega
  · intro hle
    refine ⟨v.toNat, ?_, UInt8.ofNat_toNat⟩
    rw [List.mem_range'_1]
    omega

theorem versionsFrom_nodup (version : UInt8) : (versionsFrom version).Nodup := by
  apply List.Nodup.map_on _ List.nodup_range'
  intro m hm n hn heq
  have hmod := congrArg UInt8.toNat heq
  rw [List.mem_range'_1] at hm hn
  rw [UInt8.toNat_ofNat', UInt8.toNat_ofNat'] at hmod
  omega

variable {conf} {hf : HardFork}

theorem getVotingInfo_votes (hcounted : hf.votes.Counted) (version : UInt8) :
    (getVotingInfo hf version).votes = UInt32.ofNat (votesFrom hf version) := by
  have hsum := hcounted.sum_counts (versionsFrom_nodup version)
  simp only [mem_versionsFrom] at hsum
  exact hsum

theorem Ordered.versions_nodup {heights : List Params} (h : Ordered heights) :
    (heights.map Params.version).Nodup := by
  rw [List.Nodup, List.pairwise_map]
  exact h.imp fun hlt => UInt8.ne_of_lt hlt.1

/-- The votes for an entry come on top of those for the later ones. -/
theorem tableVotes_eq (hordered : Ordered hf.heights) {n : ℕ} (hn : n < hf.heights.length) :
    tableVotes hf n = hf.votes.items.count hf.heights[n].version + tableVotes hf (n + 1) := by
  have hnodup := Ordered.versions_nodup (hordered.sublist (List.drop_sublist n hf.heights))
  have hnodup' := Ordered.versions_nodup (hordered.sublist (List.drop_sublist (n + 1) hf.heights))
  rw [tableVotes, tableVotes, ← sum_count_eq_countP hnodup, ← sum_count_eq_countP hnodup',
    List.drop_eq_getElem_cons hn, List.map_cons, List.map_cons, List.sum_cons]

/-- The later entries have later versions. -/
theorem tableVotes_le (hordered : Ordered hf.heights) {n : ℕ} (hn : n < hf.heights.length) :
    tableVotes hf n ≤ votesFrom hf hf.heights[n].version := by
  apply List.countP_mono_left
  intro v _ hv
  rw [decide_eq_true_eq, List.mem_map] at hv
  obtain ⟨p, hp, rfl⟩ := hv
  rw [decide_eq_true_eq]
  rw [List.drop_eq_getElem_cons hn, List.mem_cons] at hp
  rcases hp with rfl | hp
  · exact UInt8.le_refl _
  · obtain ⟨i, hi, rfl⟩ := List.getElem_of_mem hp
    rw [List.getElem_drop]
    rw [List.length_drop] at hi
    exact UInt8.le_of_lt (List.pairwise_iff_getElem.mp hordered n (n + 1 + i) hn (by omega)
      (by omega)).1

/-! ### The loop -/

theorem votedForkIndexLoop_spec (hordered : Ordered hf.heights) (hcounted : hf.votes.Counted)
    (height : ℕ) (hfits : ∀ n < hf.heights.length, tableVotes hf n < 2 ^ 32) {n : ℕ}
    (hn : n < hf.heights.length) {accumulatedVotes : UInt32}
    (hvotes : accumulatedVotes = UInt32.ofNat (tableVotes hf (n + 1))) :
    IsGreatest (candidates hf.currentForkIndex n (TableActivated conf hf height))
      (votedForkIndexLoop conf hf.heights hf.votes.counts hf.currentForkIndex height n
        accumulatedVotes) := by
  induction n generalizing accumulatedVotes with
  | zero => exact isGreatest_candidates_start (Nat.zero_le _)
  | succ n ih =>
      rw [votedForkIndexLoop]
      split
      · rename_i hle
        exact isGreatest_candidates_start hle
      · rename_i hbehind
        have hsum : accumulatedVotes + hf.votes.counts hf.heights[n + 1].version =
            UInt32.ofNat (tableVotes hf (n + 1)) := by
          rw [hvotes, hcounted, ← UInt32.ofNat_add, tableVotes_eq hordered hn, Nat.add_comm]
        have hactivated : TableActivated conf hf height (n + 1) ↔
            hf.heights[n + 1].height ≤ height ∧ votesNeeded conf hf.heights[n + 1] ≤
              accumulatedVotes + hf.votes.counts hf.heights[n + 1].version := by
          rw [hsum, UInt32.le_iff_toNat_le, UInt32.toNat_ofNat', Nat.mod_eq_of_lt (hfits _ hn),
            TableActivated, List.getElem?_eq_getElem hn]
          simp only [Option.some.injEq, exists_eq_left']
        rw [List.getElem?_eq_getElem hn]
        simp only
        split
        · rename_i hstop
          exact isGreatest_candidates_hit (not_le.mp hbehind) (hactivated.mpr hstop)
        · rename_i hpass
          rw [candidates_pass (mt hactivated.mp hpass)]
          exact ih (by omega) hsum

theorem getVotedForkIndex_spec (htable : Table hf.heights) (hcounted : hf.votes.Counted)
    (height : ℕ) (hfits : ∀ p ∈ hf.heights, votesFrom hf p.version < 2 ^ 32) :
    IsGreatest (candidates hf.currentForkIndex (hf.heights.length - 1)
      (TableActivated conf hf height)) (getVotedForkIndex conf hf height) := by
  have hpos := List.length_pos_of_ne_nil htable.nonempty
  apply votedForkIndexLoop_spec htable.ordered hcounted height _ (by omega)
  · -- behind the table there are no votes
    rw [tableVotes, Nat.sub_add_cancel hpos, List.drop_length]
    simp
  · intro n hn
    exact (tableVotes_le htable.ordered hn).trans_lt (hfits _ (List.getElem_mem hn))

/-! ### When the two counts agree -/

variable (conf hf) in
/-- For every fork behind the current one, the votes for the versions of the table activate it just
when all votes from its version on do, or both activate a later one. -/
def GapsDecideNothing (height : ℕ) : Prop :=
  ∀ n, hf.currentForkIndex < n → n ≤ hf.heights.length - 1 →
    (TableActivated conf hf height n ↔ Activated conf hf height n) ∨
      ∃ m, n < m ∧ m ≤ hf.heights.length - 1 ∧ TableActivated conf hf height m ∧
        Activated conf hf height m

theorem reported_iff (hcounted : hf.votes.Counted) (version : UInt8) :
    (getVotingInfo hf version).votes.toNat = votesFrom hf version ↔
      votesFrom hf version < 2 ^ 32 := by
  rw [getVotingInfo_votes hcounted, UInt32.toNat_ofNat']
  constructor
  · intro heq
    rw [← heq]
    exact Nat.mod_lt _ (by norm_num)
  · exact Nat.mod_eq_of_lt

/-- The forks are activated by all votes from their version on, and these are the votes reported,
exactly when the counters hold them and the votes between the versions of the table decide
nothing. -/
theorem countsVotes_iff (htable : Table hf.heights) (hcounted : hf.votes.Counted) (height : ℕ) :
    CountsVotes conf hf height ↔
      (∀ p ∈ hf.heights, votesFrom hf p.version < 2 ^ 32) ∧ GapsDecideNothing conf hf height := by
  constructor
  · intro hcounts
    have hfits : ∀ p ∈ hf.heights, votesFrom hf p.version < 2 ^ 32 := fun p hp =>
      (reported_iff hcounted p.version).mp (hcounts.reported p hp)
    exact ⟨hfits, (isGreatest_candidates_iff
      (getVotedForkIndex_spec htable hcounted height hfits)).mp hcounts.voted⟩
  · rintro ⟨hfits, hgaps⟩
    exact ⟨(isGreatest_candidates_iff
      (getVotedForkIndex_spec htable hcounted height hfits)).mpr hgaps,
      fun p hp => (reported_iff hcounted p.version).mpr (hfits p hp)⟩

/-! ### A gap in a table -/

theorem Run.extend {heights : List Params} {db : ForkDb} (h : Run conf heights hf db)
    (b : BlockHeader) :
    Run conf heights (extend conf b hf db).2.1 (extend conf b hf db).2.2 :=
  .step (.add b) h rfl

def gapForks : List Params := [⟨1, 80, 0, 1, 0⟩, ⟨3, 80, 1, 2, 0⟩, ⟨5, 80, 100, 3, 0⟩]

theorem filled_gapForks : Filled gapForks :=
  .addFork 5 100 80 3 0 (.addFork 3 1 80 2 0 (.addFork 1 0 80 1 0 .nil))

/-- Three blocks vote for a version between the second entry and the third. The second fork has
begun, but it is not activated. -/
theorem gapForks_not_countsVotes :
    ∃ hf db, Run (smallConf 1) gapForks hf db ∧ hf.votes.items = [4, 4, 4] ∧
      ¬CountsVotes (smallConf 1) hf db.height := by
  have hrun := (((Run.init filled_gapForks (init_empty gapForks) :
    Run (smallConf 1) gapForks _ _).extend (header 1 4)).extend (header 1 4)).extend (header 1 4)
  refine ⟨_, _, hrun, by decide, fun hcounts => ?_⟩
  have hactivated : (1 : ℕ) ≤ getVotedForkIndex (smallConf 1) _ _ :=
    hcounts.voted.2 (.inr ⟨by decide, by decide, ⟨3, 80, 1, 2, 0⟩, by decide, by decide, by decide⟩)
  exact absurd hactivated (by decide)

/-- The votes for the version after the gap are counted in full. -/
theorem gapForks_countsVotes :
    CountsVotes (smallConf 1) ⟨gapForks, .ofList [5, 5, 5], 0⟩ 3 := by
  refine (countsVotes_iff ⟨by decide, filled_gapForks.ordered⟩ (Window.counted_ofList _) 3).mpr
    ⟨?_, ?_⟩
  · show ∀ p ∈ gapForks, _
    decide
  · rintro n hbehind htop
    have hn : n = 1 ∨ n = 2 := by
      have hlt : n ≤ 2 := htop
      have hpos : 0 < n := hbehind
      omega
    rcases hn with rfl | rfl
    · exact .inl (iff_of_true ⟨_, rfl, by decide, by decide⟩ ⟨_, rfl, by decide, by decide⟩)
    · refine .inl (iff_of_false ?_ ?_) <;>
        (rintro ⟨p, hp, hheight, -⟩; obtain rfl := Option.some.inj hp; exact absurd hheight (by decide))

end XrCoin.Forks

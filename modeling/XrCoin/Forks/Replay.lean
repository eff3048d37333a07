import Mathlib
import XrCoin.Forks.HardFork

/-!
What the state of the hard fork object is for: it is the state that the chain gives
when its blocks are added one after another. `stateAt` is this state below a
height, as a function of the table and of the blocks alone.
-/

namespace XrCoin.Forks

open Cryptonote Data

/-! ### Tables -/

/-- What `add_fork` keeps: the entries are in order. -/
def Ordered (heights : List Params) : Prop :=
  heights.Pairwise fun p q => p.version < q.version ∧ p.height < q.height

structure Table (heights : List Params) : Prop where
  nonempty : heights ≠ []
  ordered : Ordered heights

theorem ordered_addFork {version : UInt8} {height : ℕ} {threshold : UInt8} {time : ℤ}
    {diffResetValue : Difficulty} {heights : List Params} (h : Ordered heights) :
    Ordered (addFork version height threshold time diffResetValue heights).2 := by
  rw [addFork]
  rcases List.eq_nil_or_concat heights with rfl | ⟨front, back, rfl⟩
  · simp only [List.getLast?_nil]
    split
    · exact List.pairwise_singleton _ _
    · exact h
  · simp only [List.concat_eq_append, List.getLast?_concat, decide_eq_true_eq] at h ⊢
    split
    · rename_i hok
      obtain ⟨-, ⟨hversion, hheight, -⟩, -⟩ := hok
      refine List.pairwise_append.mpr ⟨h, List.pairwise_singleton _ _, ?_⟩
      intro p hp q hq
      rw [List.mem_singleton.mp hq]
      rcases List.mem_append.mp hp with hp | hp
      · -- the entries in front are below the last one
        have hlt := (List.pairwise_append.mp h).2.2 p hp back (List.mem_singleton_self back)
        exact ⟨UInt8.lt_trans hlt.1 hversion, hlt.2.trans hheight⟩
      · rw [List.mem_singleton.mp hp]
        exact ⟨hversion, hheight⟩
    · exact h

section

variable {heights : List Params}

theorem versionAt_eq {i : ℕ} (hi : i < heights.length) : versionAt heights i = heights[i].version := by
  rw [versionAt, List.getElem?_eq_getElem hi]
  rfl

theorem Ordered.versionAt_lt (h : Ordered heights) {i j : ℕ} (hij : i < j)
    (hj : j < heights.length) : versionAt heights i < versionAt heights j := by
  rw [versionAt_eq hj, versionAt_eq (hij.trans hj)]
  exact (List.pairwise_iff_getElem.mp h i j (hij.trans hj) hj hij).1

theorem Ordered.versionAt_inj (h : Ordered heights) {i j : ℕ} (hi : i < heights.length)
    (hj : j < heights.length) (heq : versionAt heights i = versionAt heights j) : i = j := by
  rcases lt_trichotomy i j with hij | hij | hij
  · exact absurd (heq ▸ h.versionAt_lt hij hj) (UInt8.lt_irrefl _)
  · exact hij
  · exact absurd (heq ▸ h.versionAt_lt hij hi) (UInt8.lt_irrefl _)

/-- There are not more entries than versions, so an index fits into a byte. -/
theorem Ordered.length_le (h : Ordered heights) : heights.length ≤ 256 := by
  have hnodup : (heights.map fun p => p.version.toFin).Nodup := by
    rw [List.Nodup, List.pairwise_map]
    refine List.Pairwise.imp (fun {p q} hpq heq => ?_) h
    exact absurd (UInt8.toFin_inj.mp heq) (UInt8.ne_of_lt hpq.1)
  have hcard := List.Nodup.length_le_card hnodup
  rwa [List.length_map, Fintype.card_fin] at hcard

theorem Ordered.lowerForkIndex (h : Ordered heights) {i j : ℕ} (hij : i ≤ j)
    (hj : j < heights.length) : lowerForkIndex heights (versionAt heights i) j = i := by
  induction j with
  | zero =>
      rw [Forks.lowerForkIndex]
      omega
  | succ j ih =>
      rw [Forks.lowerForkIndex]
      rcases Nat.lt_or_ge i (j + 1) with hlt | hge
      · rw [if_pos (h.versionAt_lt hlt hj)]
        exact ih (by omega) (by omega)
      · obtain rfl : i = j + 1 := by omega
        rw [if_neg (UInt8.lt_irrefl _)]

theorem lowerForkIndex_eq_zero {version : UInt8} {j : ℕ} (hj : j < heights.length)
    (h : ∀ p ∈ heights.tail, version < p.version) : lowerForkIndex heights version j = 0 := by
  induction j with
  | zero => rfl
  | succ j ih =>
      have hlt : version < versionAt heights (j + 1) := by
        rw [versionAt_eq hj]
        apply h
        rw [← List.getElem_tail (i := j) (h := by rw [List.length_tail]; omega)]
        exact List.getElem_mem _
      rw [Forks.lowerForkIndex, if_pos hlt]
      exact ih (by omega)

theorem Ordered.findForkIndex (h : Ordered heights) {i : ℕ} (hi : i < heights.length) :
    findForkIndex (versionAt heights i) heights = i := by
  induction heights generalizing i with
  | nil => exact absurd hi (by simp)
  | cons p ps ih =>
      rw [Forks.findForkIndex]
      cases i with
      | zero => rw [if_pos (.inl rfl)]
      | succ i =>
          have hi' : i < ps.length := by simpa using hi
          have hne : ¬(p.version = versionAt (p :: ps) (i + 1) ∨ ps = []) := by
            rintro (heq | rfl)
            · exact absurd (heq ▸ h.versionAt_lt (Nat.succ_pos i) hi) (UInt8.lt_irrefl _)
            · exact absurd hi' (by simp)
          have hat : versionAt (p :: ps) (i + 1) = versionAt ps i := by
            rw [versionAt, versionAt, List.getElem?_cons_succ]
          rw [if_neg hne, hat, ih (List.pairwise_cons.mp h).2 hi']

end

/-! ### The state that a chain gives -/

variable (conf : HardForkConfig) (heights : List Params)

def votesAt (blocks : List BlockHeader) (height : ℕ) : List UInt8 :=
  ((blocks.take height).map (effectiveVote heights)).rtake conf.windowSize.toNat

def forkIndexAt (blocks : List BlockHeader) : ℕ → ℕ
  | 0 => 0
  | height + 1 =>
      (raiseToVoted conf ⟨heights, .ofList (votesAt conf heights blocks (height + 1)),
        forkIndexAt blocks height⟩ (height + 1)).currentForkIndex

def stateAt (blocks : List BlockHeader) (height : ℕ) : HardFork :=
  ⟨heights, .ofList (votesAt conf heights blocks height), forkIndexAt conf heights blocks height⟩

/-- Each block is one that its ancestors' state lets in. -/
def Accepted (blocks : List BlockHeader) : Prop :=
  ∀ height b, blocks[height]? = some b → check (stateAt conf heights blocks height) b = true

/-- The versions that the chain gives from a height on, written over those stored. -/
def recordFrom (height : ℕ) (db : ForkDb) : ForkDb :=
  ⟨db.blocks, fun n => if height ≤ n ∧ n < db.height then
    some (getCurrentVersion (stateAt conf heights db.blocks n)) else db.hfVersions n⟩

/-- The database has the versions that the chain gives. -/
def Recorded (db : ForkDb) : Prop :=
  ∀ n < db.height, db.hfVersions n = some (getCurrentVersion (stateAt conf heights db.blocks n))

variable {conf heights} {blocks blocks' : List BlockHeader} {height : ℕ}

theorem windowSize_pos : 0 < conf.windowSize.toNat := by
  have hpos := conf.windowSize_pos
  rwa [UInt64.lt_iff_toNat_lt] at hpos

theorem stateAt_congr (h : blocks.take height = blocks'.take height) :
    stateAt conf heights blocks height = stateAt conf heights blocks' height := by
  have hvotes : ∀ n ≤ height, votesAt conf heights blocks n = votesAt conf heights blocks' n := by
    intro n hn
    have htake : blocks.take n = blocks'.take n := by
      rw [← min_eq_left hn, ← List.take_take, h, List.take_take]
    rw [votesAt, votesAt, htake]
  have hindex : ∀ n ≤ height,
      forkIndexAt conf heights blocks n = forkIndexAt conf heights blocks' n := by
    intro n
    induction n with
    | zero => exact fun _ => rfl
    | succ n ih =>
        intro hn
        rw [forkIndexAt, forkIndexAt, hvotes (n + 1) hn, ih (by omega)]
  rw [stateAt, stateAt, hvotes height le_rfl, hindex height le_rfl]

theorem stateAt_zero (blocks : List BlockHeader) :
    stateAt conf heights blocks 0 = ⟨heights, .empty, 0⟩ := by
  have hvotes : votesAt conf heights blocks 0 = [] := by
    rw [votesAt, List.take_zero, List.map_nil, List.rtake_nil]
  rw [stateAt, hvotes]
  rfl

theorem stateAt_append (b : BlockHeader) (h : height ≤ blocks.length) :
    stateAt conf heights (blocks ++ [b]) height = stateAt conf heights blocks height :=
  stateAt_congr (List.take_append_of_le_length h)

theorem votesAt_succ {b : BlockHeader} (h : blocks[height]? = some b) (w : Window UInt8)
    (hw : w.items = votesAt conf heights blocks height) :
    ((w.trim conf.windowSize.toNat).push (effectiveVote heights b)).items =
      votesAt conf heights blocks (height + 1) := by
  rw [votesAt, List.take_add_one, h, Option.toList_some, List.map_append]
  exact Window.slide_items windowSize_pos (effectiveVote heights b) hw

theorem add_stateAt {b : BlockHeader} (h : blocks[height]? = some b)
    (hcheck : check (stateAt conf heights blocks height) b = true) (db : ForkDb) :
    add conf b height (stateAt conf heights blocks height) db =
      (true, stateAt conf heights blocks (height + 1),
        db.setHardForkVersion height (getCurrentVersion (stateAt conf heights blocks height))) := by
  have hvotes : ((Window.ofList (votesAt conf heights blocks height)).trim
      conf.windowSize.toNat).push (effectiveVote heights b) =
        .ofList (votesAt conf heights blocks (height + 1)) := by
    apply Window.Counted.ext
    · exact ((Window.counted_ofList _).trim _).push _
    · exact Window.counted_ofList _
    · rw [votesAt_succ h _ (Window.ofList_items _), Window.ofList_items]
  rw [add, if_pos hcheck]
  show (true, raiseToVoted conf ⟨heights, ((Window.ofList (votesAt conf heights blocks height)).trim
    conf.windowSize.toNat).push (effectiveVote heights b), forkIndexAt conf heights blocks height⟩
    (height + 1), _) = _
  rw [hvotes]
  rfl

theorem addRest_stateAt (haccepted : Accepted conf heights blocks) {n : ℕ} (hn : n ≤ blocks.length)
    (db : ForkDb) (hdb : db.blocks = blocks) :
    addRest conf (blocks.drop n) n (stateAt conf heights blocks n) db =
      (stateAt conf heights blocks blocks.length, recordFrom conf heights n db) := by
  -- on the number of blocks that are left, from the database as it is by then
  induction hk : blocks.length - n generalizing n db with
  | zero =>
      obtain rfl : n = blocks.length := by omega
      rw [List.drop_length, addRest, recordFrom]
      have hnone : ∀ m, ¬(blocks.length ≤ m ∧ m < db.height) := by
        intro m hm
        rw [ForkDb.height, hdb] at hm
        omega
      simp only [hnone, if_false]
  | succ k ih =>
      have hlt : n < blocks.length := by omega
      have hget : blocks[n]? = some blocks[n] := List.getElem?_eq_getElem hlt
      rw [List.drop_eq_getElem_cons hlt, addRest, add_stateAt hget (haccepted n _ hget)]
      simp only
      rw [ih (n := n + 1) (by omega) (db.setHardForkVersion n _) hdb (by omega)]
      congr 1
      rw [recordFrom, recordFrom, ForkDb.setHardForkVersion, ForkDb.mk.injEq]
      refine ⟨rfl, ?_⟩
      funext m
      simp only [ForkDb.height, hdb]
      by_cases hm : m = n
      · have hno : ¬(n + 1 ≤ m ∧ m < blocks.length) := by omega
        have hyes : n ≤ m ∧ m < blocks.length := by omega
        rw [if_neg hno, if_pos hyes, hm, Function.update_self]
      · rw [Function.update_of_ne hm]
        congr 1
        rw [eq_iff_iff]
        omega

theorem recordFrom_eq_self {db : ForkDb} (h : Recorded conf heights db) (n : ℕ) :
    recordFrom conf heights n db = db := by
  rw [recordFrom, ForkDb.mk.injEq]
  refine ⟨rfl, ?_⟩
  funext m
  split
  · rename_i hm
    exact (h m hm.2).symm
  · rfl

/-! ### The index -/

theorem votedForkIndexLoop_cases (counts : UInt8 → UInt32) (current height n : ℕ)
    (accumulatedVotes : UInt32) :
    votedForkIndexLoop conf heights counts current height n accumulatedVotes = current ∨
      votedForkIndexLoop conf heights counts current height n accumulatedVotes <
        heights.length := by
  induction n generalizing accumulatedVotes with
  | zero => exact .inl rfl
  | succ n ih =>
      rw [votedForkIndexLoop]
      split
      · exact .inl rfl
      · split
        · exact .inl rfl
        · rename_i p hp
          simp only
          split
          · exact .inr (List.getElem?_eq_some_iff.mp hp).1
          · exact ih _

theorem votedForkIndexLoop_begun (conf : HardForkConfig) (heights : List Params)
    (counts : UInt8 → UInt32) (current height n : ℕ) (accumulatedVotes : UInt32) :
    votedForkIndexLoop conf heights counts current height n accumulatedVotes = current ∨
      ∃ p, heights[votedForkIndexLoop conf heights counts current height n accumulatedVotes]? =
        some p ∧ p.height ≤ height := by
  induction n generalizing accumulatedVotes with
  | zero => exact .inl rfl
  | succ n ih =>
      rw [votedForkIndexLoop]
      split
      · exact .inl rfl
      · split
        · exact .inl rfl
        · rename_i p hp
          simp only
          split
          · rename_i hbegun
            exact .inr ⟨p, hp, hbegun.1⟩
          · exact ih _

theorem Table.raiseToVoted_begun (conf : HardForkConfig) {hf : HardFork} (h : Table hf.heights) (height : ℕ) :
    (raiseToVoted conf hf height).currentForkIndex = hf.currentForkIndex ∨
      ∃ p, hf.heights[(raiseToVoted conf hf height).currentForkIndex]? = some p ∧
        p.height ≤ height := by
  rw [raiseToVoted]
  simp only
  split
  · rcases votedForkIndexLoop_begun conf hf.heights hf.votes.counts
      hf.currentForkIndex height (hf.heights.length - 1) 0 with hsame | ⟨p, hp, hbegun⟩
    · rename_i hlt
      rw [getVotedForkIndex, hsame] at hlt
      exact absurd hlt (not_lt.mpr (Nat.mod_le _ _))
    · -- the index fits into a byte
      have hsmall := (List.getElem?_eq_some_iff.mp hp).1.trans_le h.ordered.length_le
      rw [← getVotedForkIndex] at hp hsmall
      rw [UInt8.toNat_ofNat', Nat.mod_eq_of_lt hsmall]
      exact .inr ⟨p, hp, hbegun⟩
  · exact .inl rfl

theorem le_raiseToVoted (hf : HardFork) (height : ℕ) :
    hf.currentForkIndex ≤ (raiseToVoted conf hf height).currentForkIndex := by
  rw [raiseToVoted]
  simp only
  split
  · rename_i hlt
    exact hlt.le
  · exact le_rfl

theorem raiseToVoted_lt {hf : HardFork} (hindex : hf.currentForkIndex < hf.heights.length)
    (height : ℕ) : (raiseToVoted conf hf height).currentForkIndex < hf.heights.length := by
  rw [raiseToVoted]
  simp only
  split
  · have hvoted : getVotedForkIndex conf hf height < hf.heights.length := by
      rcases votedForkIndexLoop_cases hf.votes.counts hf.currentForkIndex height
        (hf.heights.length - 1) 0 with hsame | hlt
      · rw [getVotedForkIndex, hsame]
        exact hindex
      · exact hlt
    exact (Nat.mod_le _ _).trans_lt hvoted
  · exact hindex

theorem forkIndexAt_mono {m n : ℕ} (h : m ≤ n) :
    forkIndexAt conf heights blocks m ≤ forkIndexAt conf heights blocks n := by
  induction n with
  | zero => rw [Nat.le_zero.mp h]
  | succ n ih =>
      rcases Nat.le_succ_iff.mp h with hle | rfl
      · exact (ih hle).trans (le_raiseToVoted ⟨heights,
          .ofList (votesAt conf heights blocks (n + 1)), forkIndexAt conf heights blocks n⟩ (n + 1))
      · exact le_rfl

theorem Table.forkIndexAt_begun (h : Table heights) {m n : ℕ} (hle : m ≤ n) :
    forkIndexAt conf heights blocks n = forkIndexAt conf heights blocks m ∨
      ∃ p, heights[forkIndexAt conf heights blocks n]? = some p ∧ p.height ≤ n := by
  induction n with
  | zero => rw [Nat.le_zero.mp hle]; exact .inl rfl
  | succ n ih =>
      rcases Nat.le_succ_iff.mp hle with hle | rfl
      · let hf : HardFork := ⟨heights, .ofList (votesAt conf heights blocks (n + 1)),
          forkIndexAt conf heights blocks n⟩
        have htable : Table hf.heights := h
        rcases htable.raiseToVoted_begun conf (n + 1) with hsame | hbegun
        · have heq : forkIndexAt conf heights blocks (n + 1) = forkIndexAt conf heights blocks n :=
            hsame
          rw [heq]
          refine (ih hle).imp_right ?_
          rintro ⟨p, hp, hbegun⟩
          exact ⟨p, hp, hbegun.trans (Nat.le_succ n)⟩
        · exact .inr hbegun
      · exact .inl rfl

theorem Accepted.take (h : Accepted conf heights blocks) (n : ℕ) :
    Accepted conf heights (blocks.take n) := by
  intro height b hb
  have hlt := (List.getElem?_eq_some_iff.mp hb).1
  rw [List.length_take] at hlt
  have hsame : (blocks.take n).take height = blocks.take height := by
    rw [List.take_take, min_eq_left (by omega)]
  rw [stateAt_congr hsame]
  rw [List.getElem?_take_of_lt (by omega)] at hb
  exact h height b hb

theorem Table.forkIndexAt_lt (h : Table heights) (height : ℕ) :
    forkIndexAt conf heights blocks height < heights.length := by
  induction height with
  | zero => exact List.length_pos_of_ne_nil h.nonempty
  | succ height ih =>
      let hf : HardFork := ⟨heights, .ofList (votesAt conf heights blocks (height + 1)),
        forkIndexAt conf heights blocks height⟩
      have hindex : hf.currentForkIndex < hf.heights.length := ih
      exact raiseToVoted_lt hindex (height + 1)

/-! ### Building the state again -/

theorem scanVotes_window (last : ℕ) (hlast : last < blocks.length) :
    scanVotes heights blocks (last - (conf.windowSize.toNat - 1)) last =
      .ofList (votesAt conf heights blocks (last + 1)) := by
  have hpos : 0 < conf.windowSize.toNat := windowSize_pos
  rw [scanVotes, votesAt, List.rtake, List.length_map, List.length_take, List.map_drop]
  congr 2
  omega

theorem reorganizeFromBlockHeight_stateAt (htable : Table heights) {hf : HardFork} {db : ForkDb}
    (haccepted : Accepted conf heights db.blocks) (hlt : height < db.height)
    (hheights : hf.heights = heights)
    (hindex : forkIndexAt conf heights db.blocks height ≤ hf.currentForkIndex)
    (hindex_lt : hf.currentForkIndex < heights.length)
    (horiginal : height = 0 → ∀ p ∈ heights.tail, conf.originalVersion < p.version)
    (hversion : height ≠ 0 → db.hfVersions height =
      some (getCurrentVersion (stateAt conf heights db.blocks height))) :
    reorganizeFromBlockHeight conf height hf db =
      some (true, stateAt conf heights db.blocks db.height,
        recordFrom conf heights (height + 1) db) := by
  obtain ⟨startVersion, hstart, hlower⟩ : ∃ startVersion,
      (if height = 0 then some conf.originalVersion else db.hfVersions height) =
        some startVersion ∧ lowerForkIndex heights startVersion hf.currentForkIndex =
          forkIndexAt conf heights db.blocks height := by
    by_cases hzero : height = 0
    · refine ⟨conf.originalVersion, if_pos hzero, ?_⟩
      rw [lowerForkIndex_eq_zero hindex_lt (horiginal hzero), hzero, forkIndexAt]
    · refine ⟨_, (if_neg hzero).trans (hversion hzero), ?_⟩
      exact htable.ordered.lowerForkIndex hindex hindex_lt
  rw [reorganizeFromBlockHeight, if_neg (not_le.mpr hlt), hstart, Option.map_some, hheights,
    scanVotes_window height hlt, hlower]
  have hrest := addRest_stateAt haccepted (n := height + 1) hlt db rfl
  rw [← ForkDb.height] at hrest
  rw [← hrest]
  rfl

theorem rescanFromBlockHeight_stateAt (htable : Table heights) {hf : HardFork} {db : ForkDb}
    (hpos : 0 < db.height) (hheights : hf.heights = heights)
    (hversion : db.hfVersions (db.height - 1) =
      some (getCurrentVersion (stateAt conf heights db.blocks (db.height - 1)))) :
    rescanFromBlockHeight conf (db.height - conf.windowSize.toNat) hf db =
      some (true, stateAt conf heights db.blocks db.height) := by
  have hwindow : 0 < conf.windowSize.toNat := windowSize_pos
  obtain ⟨n, hn⟩ : ∃ n, db.height = n + 1 := ⟨db.height - 1, by omega⟩
  have hlt : n < db.blocks.length := by
    rw [ForkDb.height] at hn
    omega
  have hscan : scanVotes heights db.blocks (n - (conf.windowSize.toNat - 1)) n =
      .ofList (votesAt conf heights db.blocks (n + 1)) := scanVotes_window n hlt
  have hfirst : n + 1 - conf.windowSize.toNat = n - (conf.windowSize.toNat - 1) := by omega
  rw [hn, Nat.add_sub_cancel] at hversion
  rw [rescanFromBlockHeight, hn, Nat.add_sub_cancel, if_neg (by omega), hversion, Option.map_some,
    hheights, hfirst, hscan]
  have hfind : findForkIndex (getCurrentVersion (stateAt conf heights db.blocks n)) heights =
      forkIndexAt conf heights db.blocks n :=
    htable.ordered.findForkIndex (htable.forkIndexAt_lt n)
  rw [hfind]
  rfl

end XrCoin.Forks

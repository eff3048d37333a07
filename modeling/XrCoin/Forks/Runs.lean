import XrCoin.Forks.Replay

/-!
Runs of the hard fork object. The table is filled by `add_fork`, then `init`, `add`
and the two functions that reorganize come in any order. As long as the first entry
of the table is where the original version ends, the object is at every moment in
the state that its chain gives.
-/

namespace XrCoin.Forks

open Cryptonote Data

/-! ### Runs -/

inductive Filled : List Params → Prop
  | nil : Filled []
  | addFork {heights : List Params} (version : UInt8) (height : ℕ) (threshold : UInt8) (time : ℤ)
      (diffResetValue : Difficulty) (h : Filled heights) :
      Filled (addFork version height threshold time diffResetValue heights).2

inductive Op
  | init
  | add (b : BlockHeader)
  | reorganizeFromBlockHeight (height : ℕ)
  | reorganizeFromChainHeight (height : ℕ)

/-- A block that `add` takes becomes the top of the chain. -/
def extend (conf : HardForkConfig) (b : BlockHeader) (hf : HardFork) (db : ForkDb) :
    Bool × HardFork × ForkDb :=
  let added := add conf b db.height hf db
  (added.1, added.2.1,
    if added.1 then ⟨added.2.2.blocks ++ [b], added.2.2.hfVersions⟩ else added.2.2)

def Op.apply (conf : HardForkConfig) (op : Op) (hf : HardFork) (db : ForkDb) :
    Option (HardFork × ForkDb) :=
  match op with
  | .init => Forks.init conf hf.heights db
  | .add b => some (extend conf b hf db).2
  | .reorganizeFromBlockHeight height =>
      (Forks.reorganizeFromBlockHeight conf height hf db).map Prod.snd
  | .reorganizeFromChainHeight height =>
      (Forks.reorganizeFromChainHeight conf height hf db).map Prod.snd

inductive Run (conf : HardForkConfig) (heights : List Params) : HardFork → ForkDb → Prop
  | init {hf : HardFork} {db : ForkDb} (hfilled : Filled heights)
      (h : Forks.init conf heights .empty = some (hf, db)) : Run conf heights hf db
  | step {hf hf' : HardFork} {db db' : ForkDb} (op : Op) (hrun : Run conf heights hf db)
      (h : op.apply conf hf db = some (hf', db')) : Run conf heights hf' db'

/-- Adding blocks one after another, as far as they are taken. -/
def extendAll (conf : HardForkConfig) : List BlockHeader → HardFork → ForkDb → HardFork × ForkDb
  | [], hf, db => (hf, db)
  | b :: bs, hf, db =>
      let extended := extend conf b hf db
      extendAll conf bs extended.2.1 extended.2.2

def feed (conf : HardForkConfig) :
    List BlockHeader → HardFork → ForkDb → Option (HardFork × ForkDb)
  | [], hf, db => some (hf, db)
  | b :: bs, hf, db =>
      let extended := extend conf b hf db
      if extended.1 then feed conf bs extended.2.1 extended.2.2 else none

theorem Filled.ordered {heights : List Params} (h : Filled heights) : Ordered heights := by
  induction h with
  | nil => exact List.Pairwise.nil
  | addFork version height threshold time diffResetValue _ ih => exact ordered_addFork ih

/-- The table that `init` goes on with. -/
def initTable (conf : HardForkConfig) (heights : List Params) : List Params :=
  if heights = [] then [⟨conf.originalVersion, 0, 0, 0, 0⟩] else heights

theorem Filled.table {heights : List Params} (h : Filled heights) (conf : HardForkConfig) :
    Table (initTable conf heights) := by
  rw [initTable]
  split
  · exact ⟨by simp, List.pairwise_singleton _ _⟩
  · rename_i hne
    exact ⟨hne, h.ordered⟩

/-! ### The state of a run -/

structure Settled (conf : HardForkConfig) (hf : HardFork) (db : ForkDb) : Prop where
  table : Table hf.heights
  accepted : Accepted conf hf.heights db.blocks
  recorded : Recorded conf hf.heights db
  state : hf = stateAt conf hf.heights db.blocks db.height

def OriginalFirst (conf : HardForkConfig) (heights : List Params) : Prop :=
  ∀ p ∈ heights.tail, conf.originalVersion < p.version

section

variable {conf : HardForkConfig} {hf hf' : HardFork} {db db' : ForkDb}

theorem init_empty (heights : List Params) :
    init conf heights .empty = some (⟨initTable conf heights, .empty, 0⟩,
      ForkDb.empty.setHardForkVersion 0 conf.originalVersion) := rfl

theorem settled_init {heights : List Params} (hfilled : Filled heights)
    (h : init conf heights .empty = some (hf, db)) : Settled conf hf db := by
  rw [init_empty] at h
  obtain ⟨rfl, rfl⟩ := Prod.mk.inj (Option.some.inj h)
  refine ⟨hfilled.table conf, ?_, ?_, (stateAt_zero _).symm⟩
  · intro height b hb
    exact absurd hb (by simp [ForkDb.empty, ForkDb.setHardForkVersion])
  · intro n hn
    exact absurd hn (by simp [ForkDb.empty, ForkDb.setHardForkVersion, ForkDb.height])

/-- A step of `add`: the object and the chain move on together, or nothing does. -/
theorem Settled.extend (h : Settled conf hf db) (b : BlockHeader) :
    Settled conf (extend conf b hf db).2.1 (extend conf b hf db).2.2 ∧
      (extend conf b hf db).2.1.heights = hf.heights := by
  obtain ⟨heights, votes, index⟩ := hf
  rw [Forks.extend]
  by_cases hcheck : check ⟨heights, votes, index⟩ b = true
  · have hget : (db.blocks ++ [b])[db.height]? = some b := by
      rw [ForkDb.height, List.getElem?_concat_length]
    have hstate : (⟨heights, votes, index⟩ : HardFork) =
        stateAt conf heights (db.blocks ++ [b]) db.height := by
      have hsame : stateAt conf heights (db.blocks ++ [b]) db.height =
          stateAt conf heights db.blocks db.height := stateAt_append b le_rfl
      rw [hsame]
      exact h.state
    have hadd := add_stateAt hget (hstate ▸ hcheck) db
    rw [← hstate] at hadd
    simp only [hadd, if_true]
    refine ⟨⟨h.table, ?_, ?_, ?_⟩, rfl⟩
    · intro n c hc
      show check (stateAt conf heights (db.blocks ++ [b]) n) c = true
      rcases Nat.lt_or_ge n db.height with hn | hn
      · rw [stateAt_append b hn.le]
        have hc' : (db.blocks ++ [b])[n]? = some c := hc
        rw [List.getElem?_append_left hn] at hc'
        exact h.accepted n c hc'
      · have hlen := (List.getElem?_eq_some_iff.mp hc).1
        obtain rfl : n = db.height := by
          rw [ForkDb.height] at hn ⊢
          simp only [ForkDb.setHardForkVersion, List.length_append, List.length_singleton] at hlen
          omega
        obtain rfl : b = c := Option.some.inj (hget.symm.trans hc)
        exact hstate ▸ hcheck
    · intro n hn
      show Function.update db.hfVersions db.height _ n =
        some (getCurrentVersion (stateAt conf heights (db.blocks ++ [b]) n))
      by_cases heq : n = db.height
      · rw [heq, Function.update_self, ← hstate]
      · have hlt : n < db.height := by
          simp only [ForkDb.height, ForkDb.setHardForkVersion, List.length_append,
            List.length_singleton] at hn heq ⊢
          omega
        rw [Function.update_of_ne heq, stateAt_append b hlt.le]
        exact h.recorded n hlt
    · show stateAt conf heights (db.blocks ++ [b]) (db.height + 1) =
        stateAt conf heights (db.blocks ++ [b]) (db.blocks ++ [b]).length
      rw [List.length_append, List.length_singleton, ForkDb.height]
  · have hadd : add conf b db.height ⟨heights, votes, index⟩ db =
        (false, ⟨heights, votes, index⟩, db) := by
      rw [add, if_neg hcheck]
    rw [hadd]
    exact ⟨h, rfl⟩

/-- Reorganizing gives back the object and the database, also from an object that is
left at a later fork of the same chain. -/
theorem Settled.reorganizeFromBlockHeight (h : Settled conf hf db)
    (horiginal : OriginalFirst conf hf.heights) (hheights : hf'.heights = hf.heights)
    (hle : hf.currentForkIndex ≤ hf'.currentForkIndex)
    (hlt : hf'.currentForkIndex < hf'.heights.length) {height : ℕ} (hheight : height < db.height) :
    reorganizeFromBlockHeight conf height hf' db = some (true, hf, db) := by
  have hindex : forkIndexAt conf hf.heights db.blocks height ≤ hf'.currentForkIndex := by
    have hcurrent : hf.currentForkIndex = forkIndexAt conf hf.heights db.blocks db.height :=
      congrArg HardFork.currentForkIndex h.state
    exact (forkIndexAt_mono hheight.le).trans (hcurrent ▸ hle)
  rw [reorganizeFromBlockHeight_stateAt h.table h.accepted hheight hheights hindex
    (hheights ▸ hlt) (fun _ => horiginal) (fun _ => h.recorded height hheight),
    recordFrom_eq_self h.recorded, ← h.state]

theorem Settled.index_lt (h : Settled conf hf db) : hf.currentForkIndex < hf.heights.length := by
  have hcurrent : hf.currentForkIndex = forkIndexAt conf hf.heights db.blocks db.height :=
    congrArg HardFork.currentForkIndex h.state
  rw [hcurrent]
  exact h.table.forkIndexAt_lt db.height

/-- `init` on the table and the database of the object gives the object again. -/
theorem Settled.init (h : Settled conf hf db) (hversion : (db.hfVersions 0).isSome = true) :
    init conf hf.heights db = some (hf, db) := by
  obtain ⟨version, hversion⟩ := Option.isSome_iff_exists.mp hversion
  have hwindow : 0 < conf.windowSize.toNat := windowSize_pos
  rw [Forks.init, if_neg h.table.nonempty]
  simp only [hversion]
  have hchain : (if conf.windowSize.toNat < db.height then
      db.height - (conf.windowSize.toNat - 1) else 1) - 1 = db.height - conf.windowSize.toNat := by
    split <;> omega
  rw [rescanFromChainHeight, if_neg (by split <;> omega), hchain]
  rcases Nat.eq_zero_or_pos db.height with hzero | hpos
  · -- nothing to scan: the object is as it was cleared
    have hstate : hf = ⟨hf.heights, .empty, 0⟩ := by
      have hstate := h.state
      rwa [hzero, stateAt_zero] at hstate
    rw [rescanFromBlockHeight, if_pos (by omega), Option.map_some, ← hstate]
  · have hrescan : rescanFromBlockHeight conf (db.height - conf.windowSize.toNat)
        ⟨hf.heights, .empty, 0⟩ db = some (true, stateAt conf hf.heights db.blocks db.height) :=
      rescanFromBlockHeight_stateAt h.table hpos rfl (h.recorded _ (by omega))
    rw [hrescan, Option.map_some, ← h.state]

theorem extend_hfVersions (b : BlockHeader) (h : (db.hfVersions 0).isSome = true) :
    ((extend conf b hf db).2.2.hfVersions 0).isSome = true := by
  rw [Forks.extend, add]
  split
  · show (Function.update db.hfVersions db.height _ 0).isSome = true
    rw [Function.update_apply]
    split
    · rfl
    · exact h
  · exact h

/-- What a call does in a settled state: `add` may move it on, all others return and
leave it as it is. -/
theorem Settled.apply (h : Settled conf hf db) (hversion : (db.hfVersions 0).isSome = true)
    (horiginal : OriginalFirst conf hf.heights) (op : Op) :
    ∃ hf' db', op.apply conf hf db = some (hf', db') ∧ Settled conf hf' db' ∧
      (db'.hfVersions 0).isSome = true ∧ hf'.heights = hf.heights := by
  cases op with
  | init => exact ⟨hf, db, h.init hversion, h, hversion, rfl⟩
  | add b =>
      exact ⟨_, _, rfl, (h.extend b).1, extend_hfVersions b hversion, (h.extend b).2⟩
  | reorganizeFromBlockHeight height =>
      refine ⟨hf, db, ?_, h, hversion, rfl⟩
      rw [Op.apply]
      rcases Nat.lt_or_ge height db.height with hlt | hge
      · rw [h.reorganizeFromBlockHeight horiginal rfl le_rfl h.index_lt hlt, Option.map_some]
      · rw [Forks.reorganizeFromBlockHeight, if_pos hge, Option.map_some]
  | reorganizeFromChainHeight height =>
      refine ⟨hf, db, ?_, h, hversion, rfl⟩
      rw [Op.apply, Forks.reorganizeFromChainHeight]
      split
      · rw [Option.map_some]
      · rcases Nat.lt_or_ge (height - 1) db.height with hlt | hge
        · rw [h.reorganizeFromBlockHeight horiginal rfl le_rfl h.index_lt hlt, Option.map_some]
        · rw [Forks.reorganizeFromBlockHeight, if_pos hge, Option.map_some]

theorem OriginalFirst.initTable {heights : List Params} (h : OriginalFirst conf heights) :
    OriginalFirst conf (initTable conf heights) := by
  rw [Forks.initTable]
  split
  · intro p hp
    exact absurd hp (by simp)
  · exact h

theorem Run.settled {heights : List Params} (hrun : Run conf heights hf db)
    (horiginal : OriginalFirst conf heights) :
    Settled conf hf db ∧ (db.hfVersions 0).isSome = true ∧ hf.heights = initTable conf heights := by
  induction hrun with
  | init hfilled h =>
      refine ⟨settled_init hfilled h, ?_⟩
      rw [init_empty] at h
      obtain ⟨rfl, rfl⟩ := Prod.mk.inj (Option.some.inj h)
      exact ⟨rfl, rfl⟩
  | step op _ h ih =>
      obtain ⟨hsettled, hversion, hheights⟩ := ih
      obtain ⟨hf₁, db₁, happly, hsettled₁, hversion₁, hheights₁⟩ :=
        hsettled.apply hversion (hheights ▸ horiginal.initTable) op
      obtain ⟨rfl, rfl⟩ := Prod.mk.inj (Option.some.inj (happly.symm.trans h))
      exact ⟨hsettled₁, hversion₁, hheights₁.trans hheights⟩

/-- A step of `add` does not lower the index nor lead it out of the table. -/
theorem extend_index (conf : HardForkConfig) (db : ForkDb) (b : BlockHeader)
    (h : hf.currentForkIndex < hf.heights.length) :
    hf.currentForkIndex ≤ (extend conf b hf db).2.1.currentForkIndex ∧
      (extend conf b hf db).2.1.currentForkIndex < hf.heights.length ∧
      (extend conf b hf db).2.1.heights = hf.heights := by
  rw [Forks.extend, add]
  split
  · let voted : HardFork := ⟨hf.heights,
      (hf.votes.trim conf.windowSize.toNat).push (effectiveVote hf.heights b), hf.currentForkIndex⟩
    have hvoted : voted.currentForkIndex < voted.heights.length := h
    exact ⟨le_raiseToVoted voted _, raiseToVoted_lt hvoted _, rfl⟩
  · exact ⟨le_rfl, h, rfl⟩

theorem extendAll_index (bs : List BlockHeader) (h : hf.currentForkIndex < hf.heights.length) :
    hf.currentForkIndex ≤ (extendAll conf bs hf db).1.currentForkIndex ∧
      (extendAll conf bs hf db).1.currentForkIndex < hf.heights.length := by
  induction bs generalizing hf db with
  | nil => exact ⟨le_rfl, h⟩
  | cons b bs ih =>
      obtain ⟨hle, hlt, hheights⟩ := extend_index conf db b h
      obtain ⟨hle', hlt'⟩ := @ih (extend conf b hf db).2.1 (extend conf b hf db).2.2
        (hheights.symm ▸ hlt)
      exact ⟨hle.trans hle', hheights ▸ hlt'⟩

/-- In every run of a table whose original version ends with the first entry, the
window has the votes of the last blocks of the chain and the counters count them,
up to their 32 bits; every call returns; and blocks that are added never lower the
index nor lead it out of the table. -/
theorem run_votes {heights : List Params} (hrun : Run conf heights hf db)
    (horiginal : OriginalFirst conf heights) :
    hf.votes.items.length ≤ conf.windowSize.toNat ∧
      hf.votes.items =
        (db.blocks.map (effectiveVote hf.heights)).rtake
          (min db.height conf.windowSize.toNat) ∧
      (∀ v, hf.votes.counts v = UInt32.ofNat (hf.votes.items.count v)) ∧
      (hf.votes.items.length < 2 ^ 32 →
        ∀ v, (hf.votes.counts v).toNat = hf.votes.items.count v) ∧
      (∀ op : Op, (op.apply conf hf db).isSome = true) ∧
      ∀ bs, hf.currentForkIndex ≤ (extendAll conf bs hf db).1.currentForkIndex ∧
        (extendAll conf bs hf db).1.currentForkIndex < hf.heights.length := by
  obtain ⟨hsettled, hversion, hheights⟩ := hrun.settled horiginal
  have hvotes : hf.votes = .ofList (votesAt conf hf.heights db.blocks db.height) :=
    congrArg HardFork.votes hsettled.state
  have hitems : hf.votes.items =
      (db.blocks.map (effectiveVote hf.heights)).rtake (min db.height conf.windowSize.toNat) := by
    rw [hvotes, Window.ofList_items, votesAt, ForkDb.height, List.take_length, List.rtake,
      List.rtake, List.length_map]
    congr 1
    omega
  have hlength : hf.votes.items.length ≤ conf.windowSize.toNat := by
    rw [hitems, List.rtake, List.length_drop, List.length_map, ForkDb.height]
    omega
  have hcounted : hf.votes.Counted := hvotes ▸ Window.counted_ofList _
  refine ⟨hlength, hitems, hcounted, fun hsize v => ?_, fun op => ?_,
    fun bs => extendAll_index bs hsettled.index_lt⟩
  · have hlt : hf.votes.items.count v < 2 ^ 32 :=
      List.count_le_length.trans_lt hsize
    rw [hcounted v, UInt32.toNat_ofNat', Nat.mod_eq_of_lt hlt]
  · obtain ⟨hf', db', happly, -⟩ :=
      hsettled.apply hversion (hheights ▸ horiginal.initTable) op
    rw [happly, Option.isSome_some]

theorem Settled.feed {bs : List BlockHeader} (h : Settled conf hf db)
    (hversion : (db.hfVersions 0).isSome = true) (hfeed : feed conf bs hf db = some (hf', db')) :
    Settled conf hf' db' ∧ (db'.hfVersions 0).isSome = true ∧ hf'.heights = hf.heights ∧
      db'.blocks = db.blocks ++ bs := by
  induction bs generalizing hf db with
  | nil =>
      obtain ⟨rfl, rfl⟩ := Prod.mk.inj (Option.some.inj hfeed)
      exact ⟨h, hversion, rfl, (List.append_nil _).symm⟩
  | cons b bs ih =>
      rw [Forks.feed] at hfeed
      split at hfeed
      · rename_i htaken
        obtain ⟨hsettled, hheights⟩ := h.extend b
        obtain ⟨hsettled', hversion', hheights', hblocks⟩ :=
          ih hsettled (extend_hfVersions b hversion) hfeed
        refine ⟨hsettled', hversion', hheights'.trans hheights, ?_⟩
        have hextended : (Forks.extend conf b hf db).2.2.blocks = db.blocks ++ [b] := by
          have hcheck : check hf b = true := by
            rw [Forks.extend, add] at htaken
            split at htaken
            · assumption
            · exact absurd htaken (by simp)
          rw [Forks.extend, add, if_pos hcheck]
          rfl
        rw [hblocks, hextended, List.append_assoc, List.singleton_append]
      · exact absurd hfeed (by simp)

theorem OriginalFirst.of_head {heights : List Params} (h : Ordered heights)
    (hfirst : ∀ p ∈ heights.head?, p.version = conf.originalVersion) :
    OriginalFirst conf heights := by
  cases heights with
  | nil =>
      intro p hp
      exact absurd hp (by simp)
  | cons first rest =>
      intro p hp
      rw [← hfirst first rfl]
      exact ((List.pairwise_cons.mp h).1 p hp).1

/-- Once a chain was fed block by block to a fresh object, reorganizing from any
height, or `init` of another object on its database, gives the same window,
counters, index and stored versions. -/
theorem feed_rebuilt {heights : List Params} {bs : List BlockHeader} (hfilled : Filled heights)
    (hfirst : ∀ p ∈ heights.head?, p.version = conf.originalVersion)
    (hinit : Forks.init conf heights .empty = some (hf, db))
    (hfeed : feed conf bs hf db = some (hf', db')) :
    db'.blocks = bs ∧
      (∀ height, 1 ≤ height → height ≤ db'.height →
        reorganizeFromChainHeight conf height hf' db' = some (true, hf', db')) ∧
      Forks.init conf heights db' = some (hf', db') := by
  have hempty := hinit
  rw [init_empty] at hempty
  obtain ⟨rfl, rfl⟩ := Prod.mk.inj (Option.some.inj hempty)
  obtain ⟨hsettled, hversion, hheights, hblocks⟩ :=
    (settled_init hfilled hinit).feed rfl hfeed
  have horiginal : OriginalFirst conf hf'.heights := by
    rw [hheights]
    exact (OriginalFirst.of_head hfilled.ordered hfirst).initTable
  refine ⟨hblocks, fun height hpos hle => ?_, ?_⟩
  · rw [reorganizeFromChainHeight, if_neg (by omega)]
    exact hsettled.reorganizeFromBlockHeight horiginal rfl le_rfl hsettled.index_lt (by omega)
  · have hinit' := hsettled.init hversion
    rw [hheights] at hinit'
    -- `init` fills an empty table itself, so a filled one makes no difference
    rw [← hinit']
    by_cases hnil : heights = []
    · rw [hnil]
      rfl
    · have hsame : Forks.initTable conf heights = heights := if_neg hnil
      show Forks.init conf heights db' = Forks.init conf (Forks.initTable conf heights) db'
      rw [hsame]

end

/-! ### Small chains -/

def header (version vote : UInt8) : BlockHeader := ⟨version, vote, 0, List.Vector.replicate 32 0, 0⟩

def smallConf (originalVersion : UInt8) : HardForkConfig :=
  ⟨originalVersion, 3, 80, by decide, defaultThreshold_le⟩

def twoForks : List Params := [⟨1, 0, 0, 1, 0⟩, ⟨2, 0, 2, 2, 0⟩]

theorem filled_twoForks : Filled twoForks :=
  .addFork 2 2 0 2 0 (.addFork 1 0 0 1 0 .nil)

def smallChain : List BlockHeader := [header 1 1, header 1 2, header 2 2]

def smallRun (originalVersion : UInt8) (ops : List Op) : Option (HardFork × ForkDb) :=
  ops.foldl (fun s op => s.bind fun s => op.apply (smallConf originalVersion) s.1 s.2)
    (init (smallConf originalVersion) twoForks .empty)

theorem run_smallRun {originalVersion : UInt8} {ops : List Op} {hf : HardFork} {db : ForkDb}
    (h : smallRun originalVersion ops = some (hf, db)) :
    Run (smallConf originalVersion) twoForks hf db := by
  induction ops using List.reverseRecOn generalizing hf db with
  | nil => exact .init filled_twoForks h
  | append_singleton ops op ih =>
      rw [smallRun, List.foldl_append, List.foldl_cons, List.foldl_nil] at h
      obtain ⟨s, hs, happly⟩ := Option.bind_eq_some_iff.mp h
      exact .step op (ih hs) happly

/-- When the original version does not end with the first entry, going back to the
first block leaves the object at the later fork, and the block behind it falls out of
the window. -/
theorem smallChain_vote_lost :
    ∃ hf db, Run (smallConf 2) twoForks hf db ∧ db.blocks = smallChain ∧
      hf.votes.items = [1, 2] ∧
      (db.blocks.map (effectiveVote hf.heights)).rtake
        (min db.height (smallConf 2).windowSize.toNat) = [1, 2, 2] := by
  have hrun : (smallRun 2 (smallChain.map .add ++ [.reorganizeFromBlockHeight 0])).map
      (fun s => (s.2.blocks, s.1.votes.items, (s.2.blocks.map (effectiveVote s.1.heights)).rtake
        (min s.2.height (smallConf 2).windowSize.toNat))) =
      some (smallChain, [1, 2], [1, 2, 2]) := by decide
  obtain ⟨⟨hf, db⟩, hs, heq⟩ := Option.map_eq_some_iff.mp hrun
  simp only [Prod.mk.injEq] at heq
  exact ⟨hf, db, run_smallRun hs, heq⟩

theorem run_votes_smallChain :
    ∃ hf db, Run (smallConf 1) twoForks hf db ∧ db.blocks = smallChain ∧
      hf.votes.items = (db.blocks.map (effectiveVote hf.heights)).rtake
        (min db.height (smallConf 1).windowSize.toNat) := by
  have hrun : (smallRun 1 (smallChain.map .add ++ [.reorganizeFromBlockHeight 0])).map
      (fun s => s.2.blocks) = some smallChain := by decide
  obtain ⟨⟨hf, db⟩, hs, heq⟩ := Option.map_eq_some_iff.mp hrun
  have horiginal : OriginalFirst (smallConf 1) twoForks := by
    unfold OriginalFirst
    decide
  exact ⟨hf, db, run_smallRun hs, heq, (run_votes (run_smallRun hs) horiginal).2.1⟩

theorem feed_rebuilt_smallChain :
    ∃ hf db, db.blocks = smallChain ∧
      reorganizeFromChainHeight (smallConf 1) 2 hf db = some (true, hf, db) := by
  have hfeed : (feed (smallConf 1) smallChain ⟨initTable (smallConf 1) twoForks, .empty, 0⟩
      (ForkDb.empty.setHardForkVersion 0 1)).map (fun s => s.2.height) = some 3 := by
    decide
  obtain ⟨⟨hf, db⟩, hs, heq⟩ := Option.map_eq_some_iff.mp hfeed
  have hfirst : ∀ p ∈ twoForks.head?, p.version = (smallConf 1).originalVersion := by
    intro p hp
    obtain rfl := Option.some.inj hp
    rfl
  have hrebuilt := feed_rebuilt filled_twoForks hfirst rfl hs
  refine ⟨hf, db, hrebuilt.1, hrebuilt.2.1 2 (by decide) ?_⟩
  have hheight : db.height = 3 := heq
  omega

end XrCoin.Forks

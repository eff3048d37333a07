import Mathlib
import XrCoin.BlockchainDb.Chain

/-!
How two nodes find where their chains part: `get_short_chain_history` picks hashes of the
own chain, densely at the top and ever more sparsely below, and `find_blockchain_supplement`
of the other node looks for the first of them on its chain.

Both read two tables of the database only: `block_info`, which has the hash for a height,
and `block_heights`, which has the height for a hash.
-/

namespace XrCoin.BlockchainDb

open Archive Cryptonote Lmdb

/-! ### The two functions -/

/-- `get_block_hash_from_height`; without a value it throws. -/
def Db.getBlockHashFromHeight (db : Db) (height : UInt64) : Option Hash :=
  (db.blockInfo.get height.toNat).map BlockInfo.hash

def Db.blockExists (db : Db) (h : Hash) : Option ℕ := db.blockHeights h

/-- The loop of `get_short_chain_history`, for at most as many rounds as given. It has the
hashes collected so far and tells whether the genesis block is among them. -/
def historyLoop (db : Db) (sz : UInt64) :
    ℕ → UInt64 → UInt64 → UInt64 → Bool → List Hash → Option (Bool × List Hash)
  | 0, _, _, currentBackOffset, genesisIncluded, ids =>
      if currentBackOffset < sz then none else some (genesisIncluded, ids)
  | n + 1, i, currentMultiplier, currentBackOffset, genesisIncluded, ids =>
      if currentBackOffset < sz then do
        let h ← db.getBlockHashFromHeight (sz - currentBackOffset)
        let genesisIncluded := if sz - currentBackOffset = 0 then true else genesisIncluded
        if i < 10 then
          historyLoop db sz n (i + 1) currentMultiplier (currentBackOffset + 1) genesisIncluded
            (ids ++ [h])
        else
          let currentMultiplier := currentMultiplier * 2
          historyLoop db sz n (i + 1) currentMultiplier (currentBackOffset + currentMultiplier)
            genesisIncluded (ids ++ [h])
      else some (genesisIncluded, ids)

def getShortChainHistory (db : Db) : Option (List Hash) :=
  let sz := UInt64.ofNat db.height
  if sz = 0 then some []
  else do
    let (genesisIncluded, ids) ← historyLoop db sz db.height 0 1 1 false []
    if !genesisIncluded then
      let genesis ← db.getBlockHashFromHeight 0
      some (ids ++ [genesis])
    else some ids

/-- The height of the split, where the other node knows the genesis block. -/
def findBlockchainSupplement (db : Db) (qblockIds : List Hash) : Option ℕ :=
  match qblockIds.getLast? with
  | none => none
  | some last => do
      let genHash ← db.getBlockHashFromHeight 0
      if last ≠ genHash then none else qblockIds.findSome? db.blockExists

/-! ### The hashes in the database -/

structure HashesStored (ids : List Hash) (db : Db) : Prop where
  height : db.height = ids.length
  hash_at : ∀ n, (db.blockInfo.get n).map BlockInfo.hash = ids[n]?
  height_of : ∀ h n, db.blockHeights h = some n ↔ ids[n]? = some h

theorem hashesStored_empty : HashesStored [] .empty where
  height := rfl
  hash_at _ := rfl
  height_of _ _ := by simp [Db.empty]

section

variable {ops : CryptoOps} {cfg : Config}

theorem addTransactions_blockTables {txs : List (Hash × Transaction)} {numRctOuts : UInt64}
    {db db' : Db} (hrestorable : ∀ p ∈ txs, TxRestorable ops cfg p.2)
    (h : addTransactions ops cfg txs db = .ok numRctOuts db') :
    db'.blocks = db.blocks ∧ db'.blockInfo = db.blockInfo ∧
      db'.blockHeights = db.blockHeights := by
  induction txs generalizing numRctOuts db with
  | nil =>
      obtain ⟨-, rfl⟩ := EStateM.Result.ok.inj h
      exact ⟨rfl, rfl, rfl⟩
  | cons p txs ih =>
      obtain ⟨txHash, tx⟩ := p
      obtain ⟨_, db1, hadd, h1⟩ := bind_eq_ok.mp h
      obtain ⟨n, _, hloop, hpure⟩ := bind_eq_ok.mp h1
      obtain ⟨-, rfl⟩ := EStateM.Result.ok.inj hpure
      have htx : TxRestorable ops cfg tx := hrestorable (txHash, tx) List.mem_cons_self
      have hadded := addTransaction_eq_ok htx.supported hadd
      obtain ⟨hblocks, hinfo, hheights⟩ :=
        ih (fun p hmem => hrestorable p (List.mem_cons_of_mem _ hmem)) hloop
      exact ⟨hblocks.trans hadded.blocks, hinfo.trans hadded.blockInfo,
        hheights.trans hadded.blockHeights⟩

theorem HashesStored.addBlock {ids : List Hash} {b : Block} {m : BlockMeta}
    {txs : List Transaction} {height : ℕ} {db db' : Db} (hstored : HashesStored ids db)
    (hrestorable : BlockRestorable ops cfg b txs)
    (h : addBlock ops cfg b m txs db = .ok height db') :
    HashesStored (ids ++ [blockHashOrNull ops cfg b]) db' := by
  obtain ⟨hsize, numRctOuts, db1, db2, hminer, htxs, hput⟩ := addBlock_eq_ok h
  have hzip : ∀ p ∈ b.txHashes.toList.zip txs, TxRestorable ops cfg p.2 :=
    fun p hmem => hrestorable.txs p.2 (List.of_mem_zip hmem).2
  have hadded := addTransaction_eq_ok hrestorable.minerTx.supported hminer
  obtain ⟨hblocks, hinfo, hheights⟩ := addTransactions_blockTables hzip htxs
  have hheight : db2.height = ids.length := by
    rw [Db.height, hblocks, hadded.blocks, ← Db.height, hstored.height]
  have hheight' := height_putBlock hput
  obtain ⟨hnew, blocks, blockInfo, cumRct, -, hinfo', rfl⟩ := putBlock_eq_ok hput
  rw [hheights, hadded.blockHeights] at hnew
  rw [hheight] at hinfo'
  constructor
  · rw [hheight', hheight, List.length_append, List.length_singleton]
  · intro n
    change (blockInfo.get n).map BlockInfo.hash = _
    by_cases hn : n = ids.length
    · rw [hn, Table.get_append hinfo', List.getElem?_concat_length]
      rfl
    · rw [Table.get_append_of_ne hinfo' hn, hinfo, hadded.blockInfo, hstored.hash_at,
        List.getElem?_append]
      split_ifs with hlt
      · rfl
      · rw [List.getElem?_eq_none (by omega), List.getElem?_eq_none (by
          rw [List.length_singleton]
          omega)]
  · intro hash n
    change Function.update db2.blockHeights _ (some db2.height) hash = some n ↔ _
    rw [hheight, hheights, hadded.blockHeights, Function.update_apply, List.getElem?_append]
    split_ifs with hsame hlt hlt
    · -- the new hash is not at a lower height
      rw [hsame, Option.some.injEq, ← hstored.height_of, hnew]
      exact iff_of_false (by omega) (by simp)
    · rw [hsame, Option.some.injEq, List.getElem?_singleton]
      split_ifs with hzero
      · exact iff_of_true (by omega) rfl
      · exact iff_of_false (by omega) (by simp)
    · exact hstored.height_of hash n
    · rw [hstored.height_of, List.getElem?_eq_none (by omega), List.getElem?_singleton]
      split_ifs
      · exact iff_of_false (by simp) fun h => hsame (Option.some.inj h).symm
      · rfl

/-- After any run of added and popped blocks the tables hold the hashes of the chain. -/
theorem Reach.hashesStored {chain : List ChainEntry} {db : Db} (h : Reach ops cfg chain db) :
    HashesStored (chain.map fun e => blockHashOrNull ops cfg e.block) db := by
  have hbuilt := h.built
  clear h
  induction hbuilt with
  | empty => exact hashesStored_empty
  | add _ hrestorable hadd ih =>
      rw [List.map_append]
      exact ih.addBlock hrestorable hadd

end

/-- A database with the hashes of a chain. Each block takes more than two bytes of a file that
is mapped into memory, so that there are fewer than `2 ^ 63` of them. -/
structure StoredChain where
  ids : List Hash
  db : Db
  stored : HashesStored ids db
  length_lt : ids.length < 2 ^ 63

theorem HashesStored.getBlockHashFromHeight {ids : List Hash} {db : Db} (h : HashesStored ids db)
    (height : UInt64) : db.getBlockHashFromHeight height = ids[height.toNat]? :=
  h.hash_at height.toNat

/-! ### The heights of the history -/

/-- How far below the end of the chain the loop is in a round: one further in each of the
first ten, then by ever doubled steps. -/
def backOffset (i : ℕ) : ℕ := if i < 10 then i + 1 else 9 + 2 ^ (i - 9)

theorem backOffset_succ_of_lt {i : ℕ} (h : i < 10) : backOffset (i + 1) = backOffset i + 1 := by
  rw [backOffset, backOffset, if_pos h]
  split_ifs with hlt
  · rfl
  · obtain rfl : i = 9 := by omega
    rfl

theorem backOffset_succ_of_le {i : ℕ} (h : 10 ≤ i) :
    backOffset (i + 1) = backOffset i + 2 ^ (i - 9) := by
  rw [backOffset, backOffset, if_neg (by omega), if_neg (by omega),
    show i + 1 - 9 = (i - 9) + 1 by omega, pow_succ]
  omega

theorem backOffset_strictMono : StrictMono backOffset := by
  apply strictMono_nat_of_lt_succ
  intro i
  by_cases h : i < 10
  · rw [backOffset_succ_of_lt h]
    omega
  · rw [backOffset_succ_of_le (by omega)]
    have hpos : 0 < 2 ^ (i - 9) := Nat.two_pow_pos _
    omega

theorem lt_backOffset (i : ℕ) : i < backOffset i := by
  rw [backOffset]
  split_ifs with h
  · omega
  · have hlt : i - 9 < 2 ^ (i - 9) := Nat.lt_two_pow_self
    omega

/-- The heights that the loop visits from a round on, for at most as many rounds as given. -/
def visitedHeights (sz : ℕ) : ℕ → ℕ → List ℕ
  | 0, _ => []
  | n + 1, i =>
      if backOffset i < sz then (sz - backOffset i) :: visitedHeights sz n (i + 1) else []

theorem mem_visitedHeights {sz n i height : ℕ} :
    height ∈ visitedHeights sz n i ↔
      ∃ j, i ≤ j ∧ j < i + n ∧ backOffset j < sz ∧ height = sz - backOffset j := by
  induction n generalizing i with
  | zero =>
      rw [visitedHeights]
      refine iff_of_false List.not_mem_nil ?_
      rintro ⟨j, hij, hji, -⟩
      omega
  | succ n ih =>
      rw [visitedHeights]
      split_ifs with hlt
      · rw [List.mem_cons, ih]
        constructor
        · rintro (rfl | ⟨j, hij, hji, hj, rfl⟩)
          · exact ⟨i, le_rfl, by omega, hlt, rfl⟩
          · exact ⟨j, by omega, by omega, hj, rfl⟩
        · rintro ⟨j, hij, hji, hj, rfl⟩
          rcases hij.eq_or_lt with rfl | hlt'
          · exact Or.inl rfl
          · exact Or.inr ⟨j, hlt', by omega, hj, rfl⟩
      · -- the offsets only grow
        refine iff_of_false List.not_mem_nil ?_
        rintro ⟨j, hij, -, hj, -⟩
        have hmono := backOffset_strictMono.monotone hij
        omega

theorem visitedHeights_pairwise (sz n i : ℕ) : (visitedHeights sz n i).Pairwise (· > ·) := by
  induction n generalizing i with
  | zero => exact List.Pairwise.nil
  | succ n ih =>
      rw [visitedHeights]
      split_ifs with hlt
      · refine List.pairwise_cons.mpr ⟨?_, ih (i + 1)⟩
        intro height hheight
        obtain ⟨j, hij, -, hj, rfl⟩ := mem_visitedHeights.mp hheight
        have hmono := backOffset_strictMono hij
        omega
      · exact List.Pairwise.nil

def historyHeights (sz : ℕ) : List ℕ := visitedHeights sz sz 0 ++ [0]

theorem historyHeights_pairwise (sz : ℕ) : (historyHeights sz).Pairwise (· > ·) := by
  rw [historyHeights, List.pairwise_append]
  refine ⟨visitedHeights_pairwise sz sz 0, List.pairwise_singleton _ _, ?_⟩
  intro height hheight last hlast
  obtain ⟨j, -, -, hj, rfl⟩ := mem_visitedHeights.mp hheight
  rw [List.mem_singleton.mp hlast]
  omega

theorem historyHeights_head {sz : ℕ} (hpos : 0 < sz) :
    (historyHeights sz).head? = some (sz - 1) := by
  obtain ⟨sz, rfl⟩ : ∃ n, sz = n + 1 := ⟨sz - 1, by omega⟩
  have hfirst : backOffset 0 = 1 := rfl
  rw [historyHeights, visitedHeights, hfirst]
  split_ifs with hlt
  · rfl
  · obtain rfl : sz = 0 := by omega
    rfl

theorem mem_historyHeights_of_near {sz height : ℕ} (hlt : height < sz) (hnear : sz ≤ height + 11) :
    height ∈ historyHeights sz := by
  rw [historyHeights, List.mem_append, List.mem_singleton]
  rcases Nat.eq_zero_or_pos height with rfl | hpos
  · exact Or.inr rfl
  · refine Or.inl (mem_visitedHeights.mpr ⟨sz - height - 1, Nat.zero_le _, by omega, ?_⟩)
    have hoff : backOffset (sz - height - 1) = sz - height := by
      by_cases hten : sz - height - 1 < 10
      · rw [backOffset, if_pos hten]
        omega
      · have heq : sz - height - 1 = 10 := by omega
        rw [heq]
        have heleven : backOffset 10 = 11 := rfl
        omega
    rw [hoff]
    exact ⟨by omega, by omega⟩

/-! ### The loop -/

structure AtRound (i : ℕ) (round currentMultiplier currentBackOffset : UInt64) : Prop where
  round : round.toNat = i
  multiplier : currentMultiplier.toNat = 2 ^ (i - 10)
  offset : currentBackOffset.toNat = backOffset i

section Rounds

variable {i : ℕ} {round currentMultiplier currentBackOffset : UInt64}

theorem AtRound.near (h : AtRound i round currentMultiplier currentBackOffset) (hi : i < 10) :
    AtRound (i + 1) (round + 1) currentMultiplier (currentBackOffset + 1) where
  round := by
    rw [UInt64.toNat_add, h.round, UInt64.toNat_one]
    omega
  multiplier := by rw [h.multiplier, show i + 1 - 10 = i - 10 by omega]
  offset := by
    have hoff : backOffset i = i + 1 := by rw [backOffset, if_pos hi]
    rw [UInt64.toNat_add, h.offset, UInt64.toNat_one, backOffset_succ_of_lt hi]
    omega

/-- The offset at most doubles, so it does not wrap around below `2 ^ 63`. -/
theorem AtRound.far (h : AtRound i round currentMultiplier currentBackOffset) (hi : ¬i < 10)
    (hlt : backOffset i < 2 ^ 63) :
    AtRound (i + 1) (round + 1) (currentMultiplier * 2)
      (currentBackOffset + currentMultiplier * 2) := by
  have hoff : backOffset i = 9 + 2 ^ (i - 9) := by rw [backOffset, if_neg hi]
  have hround := lt_backOffset i
  have hdouble : (currentMultiplier * 2).toNat = 2 ^ (i - 9) := by
    have htwo : (2 : UInt64).toNat = 2 := rfl
    rw [UInt64.toNat_mul, h.multiplier, htwo, ← pow_succ, show i - 10 + 1 = i - 9 by omega]
    omega
  constructor
  · rw [UInt64.toNat_add, h.round, UInt64.toNat_one]
    omega
  · rw [hdouble, show i + 1 - 10 = i - 9 by omega]
  · rw [UInt64.toNat_add, h.offset, hdouble, backOffset_succ_of_le (by omega)]
    omega

/-- From a round on, the loop collects the hashes at the heights it visits, and never comes
to the genesis block. -/
theorem historyLoop_spec (c : StoredChain) {n : ℕ}
    (hat : AtRound i round currentMultiplier currentBackOffset) (hfuel : c.ids.length ≤ i + n)
    (ids : List Hash) :
    ∃ hashes, historyLoop c.db (UInt64.ofNat c.ids.length) n round currentMultiplier
        currentBackOffset false ids = some (false, ids ++ hashes) ∧
      hashes.map some = (visitedHeights c.ids.length n i).map fun height => c.ids[height]? := by
  have hlength := c.length_lt
  have hsz : (UInt64.ofNat c.ids.length).toNat = c.ids.length :=
    UInt64.toNat_ofNat_of_lt' (by rw [UInt64.size]; omega)
  induction n generalizing i round currentMultiplier currentBackOffset ids with
  | zero =>
      have hge := lt_backOffset i
      rw [historyLoop, if_neg (by rw [UInt64.lt_iff_toNat_lt, hsz, hat.offset]; omega)]
      exact ⟨[], by rw [List.append_nil], rfl⟩
  | succ n ih =>
      have hlt_iff : currentBackOffset < UInt64.ofNat c.ids.length ↔
          backOffset i < c.ids.length := by
        rw [UInt64.lt_iff_toNat_lt, hsz, hat.offset]
      rw [historyLoop, visitedHeights]
      by_cases hlt : backOffset i < c.ids.length
      · rw [if_pos (hlt_iff.mpr hlt), if_pos hlt]
        have hindex : (UInt64.ofNat c.ids.length - currentBackOffset).toNat =
            c.ids.length - backOffset i := by
          rw [UInt64.toNat_sub_of_le _ _ (UInt64.le_of_lt (hlt_iff.mpr hlt)), hsz, hat.offset]
        have hpos := lt_backOffset i
        have hget : c.db.getBlockHashFromHeight (UInt64.ofNat c.ids.length - currentBackOffset) =
            some c.ids[c.ids.length - backOffset i] := by
          rw [c.stored.getBlockHashFromHeight, hindex, List.getElem?_eq_getElem]
        have hnotGenesis : ¬UInt64.ofNat c.ids.length - currentBackOffset = 0 := by
          rw [← UInt64.toNat_inj, hindex, UInt64.toNat_zero]
          omega
        have hten : round < 10 ↔ i < 10 := by
          rw [UInt64.lt_iff_toNat_lt, hat.round]
          rfl
        -- the rest of the loop, with this hash collected
        set hash := c.ids[c.ids.length - backOffset i] with hhash
        obtain ⟨hashes, hloop, hhashes⟩ : ∃ hashes, (if i < 10 then
            historyLoop c.db (UInt64.ofNat c.ids.length) n (round + 1) currentMultiplier
              (currentBackOffset + 1) false (ids ++ [hash])
            else historyLoop c.db (UInt64.ofNat c.ids.length) n (round + 1)
              (currentMultiplier * 2) (currentBackOffset + currentMultiplier * 2) false
              (ids ++ [hash])) = some (false, ids ++ [hash] ++ hashes) ∧
            hashes.map some =
              (visitedHeights c.ids.length n (i + 1)).map fun height => c.ids[height]? := by
          by_cases hi : i < 10
          · rw [if_pos hi]
            exact ih (hat.near hi) (by omega) _
          · rw [if_neg hi]
            exact ih (hat.far hi (by omega)) (by omega) _
        refine ⟨hash :: hashes, ?_, ?_⟩
        · rw [hget, Option.bind_eq_bind, Option.bind_some]
          simp only [hnotGenesis, if_false, hten]
          rw [hloop, List.append_assoc]
          rfl
        · rw [List.map_cons, List.map_cons, hhashes, List.getElem?_eq_getElem]
      · rw [if_neg (by rw [hlt_iff]; exact hlt), if_neg hlt]
        exact ⟨[], by rw [List.append_nil], rfl⟩

end Rounds

theorem getShortChainHistory_spec (c : StoredChain) (hne : c.ids ≠ []) :
    ∃ history, getShortChainHistory c.db = some history ∧
      history.map some = (historyHeights c.ids.length).map fun height => c.ids[height]? := by
  have hpos := List.length_pos_iff.mpr hne
  have hlength := c.length_lt
  have hsz : (UInt64.ofNat c.ids.length).toNat = c.ids.length :=
    UInt64.toNat_ofNat_of_lt' (by rw [UInt64.size]; omega)
  have hnot : ¬UInt64.ofNat c.ids.length = 0 := by
    rw [← UInt64.toNat_inj, hsz, UInt64.toNat_zero]
    omega
  obtain ⟨hashes, hloop, hhashes⟩ := historyLoop_spec c (n := c.ids.length)
    (⟨rfl, rfl, rfl⟩ : AtRound 0 0 1 1) (by omega) []
  have hgenesis : c.db.getBlockHashFromHeight 0 = some c.ids[0] := by
    rw [c.stored.getBlockHashFromHeight]
    exact List.getElem?_eq_getElem hpos
  refine ⟨hashes ++ [c.ids[0]], ?_, ?_⟩
  · simp only [getShortChainHistory, c.stored.height, hnot, if_false, hloop, List.nil_append,
      Option.bind_eq_bind, Option.bind_some, Bool.not_false, if_true, hgenesis]
  · rw [historyHeights, List.map_append, List.map_append, hhashes, List.map_singleton,
      List.map_singleton, List.getElem?_eq_getElem hpos]

/-! ### The split -/

/-- The second chain has the blocks of the first up to a height, and no others of it. -/
structure SharesUpTo (ids ids' : List Hash) (f : ℕ) : Prop where
  lt : f < ids.length
  same : ∀ n ≤ f, ids'[n]? = ids[n]?
  apart : ∀ n, f < n → ∀ h, ids[n]? = some h → h ∉ ids'

/-- The other node knows a hash of the history exactly up to the last common height, and at
the same height. -/
theorem SharesUpTo.blockExists {ids : List Hash} {d : StoredChain} {f : ℕ}
    (hshares : SharesUpTo ids d.ids f) {n : ℕ} {h : Hash} (hn : ids[n]? = some h) :
    d.db.blockExists h = if n ≤ f then some n else none := by
  rw [Db.blockExists]
  split_ifs with hle
  · rw [d.stored.height_of, hshares.same n hle, hn]
  · cases hexists : d.db.blockHeights h with
    | none => rfl
    | some m =>
        have hmem := List.mem_of_getElem? ((d.stored.height_of h m).mp hexists)
        exact absurd hmem (hshares.apart n (not_le.mp hle) h hn)

/-- Among decreasing heights, the first one not above a bound is the greatest such. -/
theorem find_le_of_pairwise {heights : List ℕ} (hsorted : heights.Pairwise (· > ·)) {f split : ℕ}
    (hfind : heights.find? (fun height => decide (height ≤ f)) = some split) :
    ∀ height ∈ heights, height ≤ f → height ≤ split := by
  induction heights with
  | nil => cases hfind
  | cons first rest ih =>
      rw [List.pairwise_cons] at hsorted
      intro height hmem hle
      rw [List.find?_cons] at hfind
      by_cases hfirst : first ≤ f
      · rw [decide_eq_true hfirst] at hfind
        obtain rfl := Option.some.inj hfind
        rcases List.mem_cons.mp hmem with rfl | hmem
        · exact le_rfl
        · exact (hsorted.1 height hmem).le
      · rw [decide_eq_false hfirst] at hfind
        rcases List.mem_cons.mp hmem with rfl | hmem
        · exact absurd hle hfirst
        · exact ih hsorted.2 hfind height hmem hle

theorem SharesUpTo.findSome_blockExists {ids : List Hash} {d : StoredChain} {f : ℕ}
    (hshares : SharesUpTo ids d.ids f) {heights : List ℕ} {history : List Hash}
    (hhistory : history.map some = heights.map fun height => ids[height]?) :
    history.findSome? d.db.blockExists =
      heights.find? fun height => decide (height ≤ f) := by
  induction heights generalizing history with
  | nil =>
      rw [List.map_nil, List.map_eq_nil_iff] at hhistory
      rw [hhistory]
      rfl
  | cons height heights ih =>
      obtain ⟨h, history, rfl⟩ : ∃ h rest, history = h :: rest := by
        cases history with
        | nil => cases hhistory
        | cons h rest => exact ⟨h, rest, rfl⟩
      rw [List.map_cons, List.map_cons, List.cons.injEq] at hhistory
      rw [List.findSome?_cons, List.find?_cons, hshares.blockExists hhistory.1.symm,
        ih hhistory.2]
      by_cases hle : height ≤ f
      · rw [if_pos hle, decide_eq_true hle]
      · rw [if_neg hle, decide_eq_false hle]

theorem SharesUpTo.findBlockchainSupplement {ids : List Hash} {d : StoredChain} {f : ℕ}
    (hshares : SharesUpTo ids d.ids f) {heights : List ℕ} {history : List Hash}
    (hhistory : history.map some = heights.map fun height => ids[height]?)
    (hlast : heights.getLast? = some 0) :
    findBlockchainSupplement d.db history =
      heights.find? fun height => decide (height ≤ f) := by
  have hpos : 0 < ids.length := by
    have hlt := hshares.lt
    omega
  have hgenesis : d.db.getBlockHashFromHeight 0 = some ids[0] := by
    rw [d.stored.getBlockHashFromHeight]
    exact (hshares.same 0 (Nat.zero_le f)).trans (List.getElem?_eq_getElem hpos)
  have hend : history.getLast? = some ids[0] := by
    have hmap := congrArg List.getLast? hhistory
    rw [List.getLast?_map, List.getLast?_map, hlast, Option.map_some,
      List.getElem?_eq_getElem hpos] at hmap
    obtain ⟨h, hh, heq⟩ := Option.map_eq_some_iff.mp hmap
    rw [hh, heq]
  rw [BlockchainDb.findBlockchainSupplement, hend]
  simp only [hgenesis, Option.bind_eq_bind, Option.bind_some, ne_eq, not_true_eq_false, if_false]
  exact hshares.findSome_blockExists hhistory

/-- The history of a chain goes down from the top block to the genesis block without
repetition, and a node whose chain parts from it above height `f` answers with the greatest
height of the history that is not above `f`. Near the top that is `f` itself. -/
theorem shortChainHistory_finds_split (c : StoredChain) (hne : c.ids ≠ []) :
    ∃ (heights : List ℕ) (history : List Hash), getShortChainHistory c.db = some history ∧
      history.map some = heights.map (fun height => c.ids[height]?) ∧
      heights.Pairwise (· > ·) ∧
      heights.head? = some (c.ids.length - 1) ∧ heights.getLast? = some 0 ∧
      ∀ (d : StoredChain) (f : ℕ), SharesUpTo c.ids d.ids f →
        ∃ split, findBlockchainSupplement d.db history = some split ∧
          split ∈ heights ∧ split ≤ f ∧ (∀ height ∈ heights, height ≤ f → height ≤ split) ∧
          (c.ids.length - 1 ≤ f + 10 → split = f) := by
  obtain ⟨history, hhistory, hhashes⟩ := getShortChainHistory_spec c hne
  have hpos := List.length_pos_iff.mpr hne
  have hlast : (historyHeights c.ids.length).getLast? = some 0 := List.getLast?_concat
  have hzero : 0 ∈ historyHeights c.ids.length := List.mem_of_getLast? hlast
  have hsorted := historyHeights_pairwise c.ids.length
  refine ⟨historyHeights c.ids.length, history, hhistory, hhashes, hsorted,
    historyHeights_head hpos, hlast, ?_⟩
  intro d f hshares
  obtain ⟨split, hsplit⟩ : ∃ split, (historyHeights c.ids.length).find?
      (fun height => decide (height ≤ f)) = some split := by
    rw [← Option.isSome_iff_exists, List.find?_isSome]
    exact ⟨0, hzero, decide_eq_true (Nat.zero_le f)⟩
  have hgreatest := find_le_of_pairwise hsorted hsplit
  have hle : split ≤ f := by simpa using List.find?_some hsplit
  refine ⟨split, by rw [hshares.findBlockchainSupplement hhashes hlast, hsplit],
    List.mem_of_find?_eq_some hsplit, hle, hgreatest, fun hnear => ?_⟩
  have hmem := mem_historyHeights_of_near hshares.lt (by omega)
  exact le_antisymm hle (hgreatest f hmem le_rfl)

/-! ### Two chains of twenty blocks -/

def tableOf {α : Type} (n : ℕ) (f : ℕ → α) : Lmdb.Table α where
  entries := (List.range n).map fun i => (i, f i)
  sorted := List.pairwise_map.mpr List.pairwise_lt_range

theorem get_tableOf {α : Type} (n : ℕ) (f : ℕ → α) (i : ℕ) :
    (tableOf n f).get i = if i < n then some (f i) else none := by
  change ((List.range n).map fun i => (i, f i)).lookup i = _
  induction n with
  | zero => rfl
  | succ n ih =>
      rw [List.range_succ, List.map_append, List.lookup_append, ih]
      rcases Nat.lt_trichotomy i n with hlt | rfl | hgt
      · rw [if_pos hlt, if_pos (Nat.lt_succ_of_lt hlt)]
        rfl
      · rw [if_neg (lt_irrefl i), if_pos (Nat.lt_succ_self i)]
        simp
      · have hne : (i == n) = false := beq_eq_false_iff_ne.mpr (by omega)
        rw [if_neg (by omega), if_neg (by omega)]
        simp [List.lookup, hne]

/-- The block tables of a chain of `n` blocks with these hashes. -/
def hashDb (n : ℕ) (hash : ℕ → Hash) : Db :=
  { Db.empty with
    blocks := tableOf n fun _ => []
    blockInfo := tableOf n fun i => ⟨0, 0, 0, 0, 0, hash i, 0, 0⟩
    blockHeights := fun h => (List.range n).find? fun i => hash i = h }

theorem hashesStored_hashDb {n : ℕ} {hash : ℕ → Hash}
    (hinj : ∀ i < n, ∀ j < n, hash i = hash j → i = j) :
    HashesStored ((List.range n).map hash) (hashDb n hash) where
  height := by simp [hashDb, Db.height, Lmdb.Table.count, tableOf]
  hash_at i := by
    rw [hashDb, get_tableOf, List.getElem?_map]
    split_ifs with hi
    · rw [List.getElem?_range hi]
      rfl
    · rw [List.getElem?_eq_none (by simpa using hi)]
      rfl
  height_of h i := by
    rw [List.getElem?_map]
    constructor
    · intro hfind
      have hlt : i < n := List.mem_range.mp (List.mem_of_find?_eq_some hfind)
      rw [List.getElem?_range hlt, Option.map_some]
      simpa using List.find?_some hfind
    · intro hget
      obtain ⟨j, hj, rfl⟩ := Option.map_eq_some_iff.mp hget
      obtain ⟨hlt, rfl⟩ := List.getElem?_eq_some_iff.mp hj
      rw [List.length_range] at hlt
      rw [List.getElem_range]
      obtain ⟨k, hk⟩ : ∃ k, (hashDb n hash).blockHeights (hash i) = some k := by
        rw [← Option.isSome_iff_exists, hashDb, List.find?_isSome]
        exact ⟨i, List.mem_range.mpr hlt, by simp⟩
      rw [hk]
      exact congrArg some (hinj k (List.mem_range.mp (List.mem_of_find?_eq_some hk)) i hlt
        (by simpa using List.find?_some hk))

/-- The hashes of a chain that has other blocks above the height. -/
def forkedHash (forkHeight i : ℕ) : Hash := hashOfNat (if i ≤ forkHeight then i + 1 else i + 101)

def forkedChain (forkHeight : ℕ)
    (hinj : ∀ i < 20, ∀ j < 20, forkedHash forkHeight i = forkedHash forkHeight j → i = j) :
    StoredChain where
  ids := (List.range 20).map (forkedHash forkHeight)
  db := hashDb 20 (forkedHash forkHeight)
  stored := hashesStored_hashDb hinj
  length_lt := by rw [List.length_map, List.length_range]; decide

theorem forkedHash_inj_top :
    ∀ i < 20, ∀ j < 20, forkedHash 19 i = forkedHash 19 j → i = j := by
  decide +kernel

theorem forkedHash_inj_eight :
    ∀ i < 20, ∀ j < 20, forkedHash 8 i = forkedHash 8 j → i = j := by
  decide +kernel

theorem sharesUpTo_forkedChain :
    SharesUpTo (forkedChain 19 forkedHash_inj_top).ids (forkedChain 8 forkedHash_inj_eight).ids 8
    where
  lt := by decide
  same := by decide +kernel
  apart n hn h hget := by
    have hapart : ∀ n < 20, 8 < n → forkedHash 19 n ∉ (List.range 20).map (forkedHash 8) := by
      decide +kernel
    obtain ⟨hlt, rfl⟩ := List.getElem?_eq_some_iff.mp hget
    rw [forkedChain, List.length_map, List.length_range] at hlt
    simp only [forkedChain, List.getElem_map, List.getElem_range]
    exact hapart n hlt hn

/-- The chains part above height 8, which is not in the history. The other node answers with
height 7. -/
theorem shortChainHistory_finds_split_forked :
    ∃ history, getShortChainHistory (forkedChain 19 forkedHash_inj_top).db = some history ∧
      findBlockchainSupplement (forkedChain 8 forkedHash_inj_eight).db history = some 7 := by
  obtain ⟨heights, history, hhistory, hhashes, -, -, -, hsplit⟩ :=
    shortChainHistory_finds_split (forkedChain 19 forkedHash_inj_top) (by decide)
  obtain ⟨split, hfound, hmem, hle, hgreatest, -⟩ :=
    hsplit (forkedChain 8 forkedHash_inj_eight) 8 sharesUpTo_forkedChain
  have hlisted : (getShortChainHistory (forkedChain 19 forkedHash_inj_top).db).map
      (fun history => (decide (forkedHash 19 7 ∈ history), decide (forkedHash 19 8 ∈ history))) =
      some (true, false) := by
    decide +kernel
  rw [hhistory, Option.map_some, Option.some.injEq, Prod.mk.injEq, decide_eq_true_eq,
    decide_eq_false_iff_not] at hlisted
  have hids (n : ℕ) (hn : n < 20) : (forkedChain 19 forkedHash_inj_top).ids[n]? =
      some (forkedHash 19 n) := by
    simp [forkedChain, hn]
  have hiff (n : ℕ) (hn : n < 20) (h : n ∈ heights) : forkedHash 19 n ∈ history := by
    have hsome : some (forkedHash 19 n) ∈ history.map some := by
      rw [hhashes, ← hids n hn]
      exact List.mem_map_of_mem h
    simpa using hsome
  have hseven : 7 ∈ heights := by
    have hsome : some (forkedHash 19 7) ∈ heights.map
        fun height => (forkedChain 19 forkedHash_inj_top).ids[height]? := by
      rw [← hhashes]
      exact List.mem_map_of_mem hlisted.1
    obtain ⟨n, hn, hget⟩ := List.mem_map.mp hsome
    have hlt : n < 20 := by
      have hlength := (List.getElem?_eq_some_iff.mp hget).1
      rwa [forkedChain, List.length_map, List.length_range] at hlength
    rw [hids n hlt] at hget
    rwa [← forkedHash_inj_top n hlt 7 (by decide) (Option.some.inj hget)]
  have hle' := hgreatest 7 hseven (by decide)
  have hne : split ≠ 8 := by
    rintro rfl
    exact hlisted.2 (hiff 8 (by decide) hmem)
  obtain rfl : split = 7 := by omega
  exact ⟨history, hhistory, hfound⟩

end XrCoin.BlockchainDb

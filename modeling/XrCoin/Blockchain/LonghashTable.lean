import XrCoin.Cryptonote.ProofOfWork
import XrCoin.Data.Dealing

/-!
The table of proofs of work that `prepare_handle_incoming_blocks` fills for a batch of
blocks. The blocks are dealt to threads, and each thread counts the heights from where
the thread before it ends.

A block that is left over goes behind the blocks of a thread that has a full share
already, so that it, and all the blocks of the threads behind, get another height than
they will have on the chain.
-/

namespace XrCoin.Blockchain

open Archive Cryptonote Data

/-! ### The model -/

structure PrepareView where
  height : ℕ
  topHash : Hash
  haveBlock : Hash → Bool
  /-- The size of `m_blocks_hash_check`. -/
  hashCheckSize : ℕ
  /-- `get_max_concurrency` of the thread pool. -/
  maxConcurrency : ℕ
  maxPrepareBlocksThreads : ℕ

variable (ops : CryptoOps) (cfg : Config) (view : PrepareView)

/-- The loop that fills the share of one thread, or nothing when the very first block is
not chained to the top. It returns the share, the entries that are left, and whether it
stopped at a block that exists. -/
def dealBatch : Bool → ℕ → List (List UInt8) → Option (List Block × List (List UInt8) × Bool)
  | _, 0, it => some ([], it, false)
  | _, _ + 1, [] => some ([], [], false)
  | first, j + 1, blob :: it =>
      match parseAndValidateBlockFromBlob cfg blob with
      | none => dealBatch false j it
      | some b =>
          if first = true ∧ b.prevId ≠ view.topHash then none
          else if view.haveBlock (blockId ops cfg b) then some ([], blob :: it, true)
          else (dealBatch false j it).map fun dealt => (b :: dealt.1, dealt.2)

def dealBatches (batches : ℕ) : Bool → ℕ → List (List UInt8) →
    Option (List (List Block) × List (List UInt8) × Bool)
  | _, 0, it => some ([], it, false)
  | first, threads + 1, it =>
      (dealBatch ops cfg view first batches it).bind fun dealt =>
        (dealBatches batches false threads dealt.2.1).map fun rest =>
          (dealt.1 :: rest.1, rest.2.1, dealt.2.2 || rest.2.2)

/-- The loop that puts the blocks left over behind the shares of the first threads. -/
def dealExtra : ℕ → List (List UInt8) → List (List Block) → List (List Block) × Bool
  | extra + 1, blob :: it, share :: blocks =>
      match parseAndValidateBlockFromBlob cfg blob with
      | none =>
          let rest := dealExtra extra it blocks
          (share :: rest.1, rest.2)
      | some b =>
          if view.haveBlock (blockId ops cfg b) then (share :: blocks, true)
          else
            let rest := dealExtra extra it blocks
            ((share ++ [b]) :: rest.1, rest.2)
  | _, _, blocks => (blocks, false)

variable (pow : PowOps) (hardfork1Height : ℕ)

def blockLonghashWorker : ℕ → List Block → Option (List (Hash × Hash))
  | _, [] => some []
  | height, b :: blocks =>
      (getBlockLonghash ops cfg pow hardfork1Height b height).bind fun pow' =>
        (blockLonghashWorker (height + 1) blocks).map ((blockId ops cfg b, pow') :: ·)

/-- The workers of all threads, and their maps together. An entry does not replace an
earlier one for the same block. -/
def longhashTable : ℕ → List (List Block) → Option (List (Hash × Hash))
  | _, [] => some []
  | threadHeight, share :: blocks =>
      (blockLonghashWorker ops cfg pow hardfork1Height threadHeight share).bind fun map =>
        (longhashTable (threadHeight + share.length) blocks).map (map ++ ·)

def Threaded (entries : ℕ) : Prop :=
  1 < entries ∧ 1 < view.maxConcurrency ∧ 1 < view.maxPrepareBlocksThreads

instance (entries : ℕ) : Decidable (Threaded view entries) := inferInstanceAs (Decidable (_ ∧ _))

def PrepareView.threads (view : PrepareView) : ℕ :=
  min view.maxConcurrency view.maxPrepareBlocksThreads

/-- What `prepare_handle_incoming_blocks` puts into the table, which the end of the last
batch left empty. Nothing is the end of the process, when a hash cannot be computed. -/
def prepareLonghashTable (blocksEntry : List (List UInt8)) : Option (List (Hash × Hash)) :=
  if blocksEntry = [] ∨ view.height + blocksEntry.length < view.hashCheckSize then some []
  else if Threaded view blocksEntry.length then
    let batches := blocksEntry.length / view.threads
    let extra := blocksEntry.length % view.threads
    match dealBatches ops cfg view batches true view.threads blocksEntry with
    | none => some []
    | some (blocks, it, blocksExist) =>
        if blocksExist then some []
        else
          let dealt := dealExtra ops cfg view extra it blocks
          if dealt.2 then some []
          else longhashTable ops cfg pow hardfork1Height view.height dealt.1
  else some []

/-- The check of `handle_block_to_main_chain` for a block that is not covered by
`m_blocks_hash_check`. -/
def checkProofOfWork (table : List (Hash × Hash)) (b : Block) (height : ℕ)
    (currentDiffic : Difficulty) : Option Bool :=
  let proofOfWork :=
    match table.find? fun entry => entry.1 = blockId ops cfg b with
    | some entry => some entry.2
    | none => getBlockLonghash ops cfg pow hardfork1Height b height
  proofOfWork.map fun hash => checkHash hash currentDiffic

/-! ### How the blocks are dealt -/

/-- What is known of a batch: every entry parses, no block is known, the first one is
chained to the top, the blocks have different hashes, and these can be computed. -/
structure FreshBatch (blocksEntry : List (List UInt8)) (blocks : List Block) : Prop where
  parsed : blocksEntry.map (parseAndValidateBlockFromBlob cfg) = blocks.map some
  unknown : ∀ b ∈ blocks, view.haveBlock (blockId ops cfg b) = false
  chained : ∀ b ∈ blocks.head?, b.prevId = view.topHash
  nodup : (blocks.map (blockId ops cfg)).Nodup
  hashable : ∀ b ∈ blocks, (getBlockHashingBlob ops cfg b).isSome = true

/-- Where the code counts a block of the batch, from the height of the chain on. -/
def dealtOffset (threads entries k : ℕ) : ℕ :=
  let batches := entries / threads
  if k < threads * batches then k + min (k / batches) (entries % threads)
  else (k - threads * batches + 1) * batches + (k - threads * batches)

variable {ops cfg view pow hardfork1Height} {blocksEntry : List (List UInt8)} {blocks : List Block}

theorem dealBatch_fresh {first : Bool}
    (hparsed : blocksEntry.map (parseAndValidateBlockFromBlob cfg) = blocks.map some)
    (hunknown : ∀ b ∈ blocks, view.haveBlock (blockId ops cfg b) = false)
    (hchained : first = true → ∀ b ∈ blocks.head?, b.prevId = view.topHash) (j : ℕ) :
    dealBatch ops cfg view first j blocksEntry =
      some (blocks.take j, blocksEntry.drop j, false) := by
  induction j generalizing blocksEntry blocks first with
  | zero => rfl
  | succ j ih =>
      cases blocksEntry with
      | nil =>
          obtain rfl : blocks = [] := List.map_eq_nil_iff.mp hparsed.symm
          rfl
      | cons blob it =>
          cases blocks with
          | nil => exact absurd hparsed (by simp)
          | cons b blocks =>
              rw [List.map_cons, List.map_cons, List.cons.injEq] at hparsed
              have hchain : ¬(first = true ∧ b.prevId ≠ view.topHash) := by
                rintro ⟨hfirst, hne⟩
                exact hne (hchained hfirst b rfl)
              have hnew : ¬view.haveBlock (blockId ops cfg b) = true := by
                rw [hunknown b List.mem_cons_self]
                exact Bool.false_ne_true
              rw [dealBatch, hparsed.1]
              simp only [if_neg hchain, if_neg hnew]
              rw [ih hparsed.2 (fun b' hb' => hunknown b' (List.mem_cons_of_mem b hb'))
                (fun hfalse => absurd hfalse (by simp))]
              rfl

theorem dealBatches_fresh {first : Bool}
    (hparsed : blocksEntry.map (parseAndValidateBlockFromBlob cfg) = blocks.map some)
    (hunknown : ∀ b ∈ blocks, view.haveBlock (blockId ops cfg b) = false)
    (hchained : first = true → ∀ b ∈ blocks.head?, b.prevId = view.topHash) (batches n : ℕ) :
    dealBatches ops cfg view batches first n blocksEntry =
      some (shares batches n blocks, blocksEntry.drop (n * batches), false) := by
  induction n generalizing blocksEntry blocks first with
  | zero =>
      rw [Nat.zero_mul]
      rfl
  | succ n ih =>
      have hparsed' : (blocksEntry.drop batches).map (parseAndValidateBlockFromBlob cfg) =
          (blocks.drop batches).map some := by
        rw [List.map_drop, List.map_drop, hparsed]
      rw [dealBatches, dealBatch_fresh hparsed hunknown hchained, Option.bind_some,
        ih hparsed' (fun b hb => hunknown b (List.mem_of_mem_drop hb))
          (fun hfalse => absurd hfalse (by simp)), Option.map_some, List.drop_drop, Nat.succ_mul,
        Nat.add_comm (n * batches)]
      rfl

theorem dealExtra_fresh
    (hparsed : blocksEntry.map (parseAndValidateBlockFromBlob cfg) = blocks.map some)
    (hunknown : ∀ b ∈ blocks, view.haveBlock (blockId ops cfg b) = false)
    (dealt : List (List Block)) :
    dealExtra ops cfg view blocks.length blocksEntry dealt = (appendEach blocks dealt, false) := by
  induction blocks generalizing blocksEntry dealt with
  | nil => cases dealt <;> rfl
  | cons b blocks ih =>
      cases blocksEntry with
      | nil => exact absurd hparsed (by simp)
      | cons blob it =>
          rw [List.map_cons, List.map_cons, List.cons.injEq] at hparsed
          cases dealt with
          | nil => rfl
          | cons share dealt =>
              have hnew : ¬view.haveBlock (blockId ops cfg b) = true := by
                rw [hunknown b List.mem_cons_self]
                exact Bool.false_ne_true
              rw [List.length_cons, dealExtra, hparsed.1]
              simp only [if_neg hnew]
              rw [ih hparsed.2 fun b' hb' => hunknown b' (List.mem_cons_of_mem b hb')]
              rfl

/-- A worker goes through two lists as through the first and then the second. -/
theorem blockLonghashWorker_append (height : ℕ) (share rest : List Block) :
    blockLonghashWorker ops cfg pow hardfork1Height height (share ++ rest) =
      (blockLonghashWorker ops cfg pow hardfork1Height height share).bind fun map =>
        (blockLonghashWorker ops cfg pow hardfork1Height (height + share.length) rest).map
          (map ++ ·) := by
  induction share generalizing height with
  | nil =>
      show _ = Option.map (fun map => [] ++ map) _
      simp only [List.nil_append, List.length_nil, Nat.add_zero, Option.map_id_fun']
      rfl
  | cons b share ih =>
      rw [List.cons_append, blockLonghashWorker, blockLonghashWorker, ih (height + 1),
        List.length_cons, Nat.add_right_comm, ← Nat.add_assoc]
      cases getBlockLonghash ops cfg pow hardfork1Height b height with
      | none => rfl
      | some pow' =>
          simp only [Option.bind_some]
          cases blockLonghashWorker ops cfg pow hardfork1Height (height + 1) share with
          | none => rfl
          | some map =>
              simp only [Option.map_some, Option.bind_some, Option.map_map]
              rfl

/-- The heights run on from one thread to the next. -/
theorem longhashTable_eq (height : ℕ) (dealt : List (List Block)) :
    longhashTable ops cfg pow hardfork1Height height dealt =
      blockLonghashWorker ops cfg pow hardfork1Height height dealt.flatten := by
  induction dealt generalizing height with
  | nil => rfl
  | cons share dealt ih =>
      rw [longhashTable, List.flatten_cons, blockLonghashWorker_append]
      simp only [ih]

theorem blockLonghashWorker_get {height : ℕ} {table : List (Hash × Hash)}
    (h : blockLonghashWorker ops cfg pow hardfork1Height height blocks = some table) (n : ℕ) :
    (blocks[n]? = none → table[n]? = none) ∧
      ∀ b, blocks[n]? = some b → ∃ hash,
        getBlockLonghash ops cfg pow hardfork1Height b (height + n) = some hash ∧
          table[n]? = some (blockId ops cfg b, hash) := by
  induction blocks generalizing height table n with
  | nil =>
      obtain rfl := Option.some.inj h
      exact ⟨fun _ => rfl, fun b hb => absurd hb (by simp)⟩
  | cons b blocks ih =>
      obtain ⟨hash, hhash, hrest⟩ := Option.bind_eq_some_iff.mp h
      obtain ⟨table, htable, rfl⟩ := Option.map_eq_some_iff.mp hrest
      cases n with
      | zero =>
          refine ⟨fun hnone => absurd hnone (by simp), ?_⟩
          intro b' hb'
          obtain rfl := Option.some.inj hb'
          exact ⟨hash, hhash, rfl⟩
      | succ n =>
          have hlater := ih htable n
          rw [Nat.add_assoc, Nat.add_comm 1 n] at hlater
          exact hlater

theorem blockLonghashWorker_isSome (height : ℕ)
    (h : ∀ b ∈ blocks, (getBlockHashingBlob ops cfg b).isSome = true) :
    (blockLonghashWorker ops cfg pow hardfork1Height height blocks).isSome = true := by
  induction blocks generalizing height with
  | nil => rfl
  | cons b blocks ih =>
      obtain ⟨bd, hbd⟩ := Option.isSome_iff_exists.mp (h b List.mem_cons_self)
      obtain ⟨table, htable⟩ := Option.isSome_iff_exists.mp
        (ih (height + 1) fun b' hb' => h b' (List.mem_cons_of_mem b hb'))
      rw [blockLonghashWorker, getBlockLonghash, hbd, htable]
      rfl

/-! ### The table of a fresh batch -/

variable (view) in
def Prepared (blocks : List Block) : Prop :=
  view.hashCheckSize ≤ view.height + blocks.length ∧ Threaded view blocks.length

instance : Decidable (Prepared view blocks) := inferInstanceAs (Decidable (_ ∧ _))

variable (view) in
def dealtBlocks (blocks : List Block) : List Block :=
  dealtOut (blocks.length / view.threads) view.threads blocks
    (blocks.drop (view.threads * (blocks.length / view.threads)))

theorem Prepared.threads_pos (h : Prepared view blocks) : 1 < view.threads := by
  rw [PrepareView.threads]
  exact lt_min h.2.2.1 h.2.2.2

theorem length_dropped (threads entries : ℕ) :
    entries - threads * (entries / threads) = entries % threads := by
  have hdiv := Nat.div_add_mod entries threads
  omega

theorem FreshBatch.prepareLonghashTable (h : FreshBatch ops cfg view blocksEntry blocks) :
    prepareLonghashTable ops cfg view pow hardfork1Height blocksEntry =
      if Prepared view blocks then
        blockLonghashWorker ops cfg pow hardfork1Height view.height (dealtBlocks view blocks)
      else some [] := by
  have hlength : blocksEntry.length = blocks.length := by
    have hmaps := congrArg List.length h.parsed
    rwa [List.length_map, List.length_map] at hmaps
  rw [Blockchain.prepareLonghashTable, hlength]
  by_cases hskip : blocksEntry = [] ∨ view.height + blocks.length < view.hashCheckSize
  · have hnot : ¬Prepared view blocks := by
      rintro ⟨hcovered, hmany, -⟩
      rcases hskip with rfl | hlt
      · rw [List.length_nil] at hlength
        omega
      · omega
    rw [if_pos hskip, if_neg hnot]
  · rw [if_neg hskip]
    by_cases hthreaded : Threaded view blocks.length
    · have hprepared : Prepared view blocks := ⟨by omega, hthreaded⟩
      -- what is left for the second loop
      have hparsed : (blocksEntry.drop (view.threads * (blocks.length / view.threads))).map
          (parseAndValidateBlockFromBlob cfg) =
            (blocks.drop (view.threads * (blocks.length / view.threads))).map some := by
        rw [List.map_drop, List.map_drop, h.parsed]
      have hextra : (blocks.drop (view.threads * (blocks.length / view.threads))).length =
          blocks.length % view.threads := by
        rw [List.length_drop, length_dropped]
      have hdealt := dealExtra_fresh hparsed (fun b hb => h.unknown b (List.mem_of_mem_drop hb))
        (shares (blocks.length / view.threads) view.threads blocks)
      rw [hextra] at hdealt
      rw [if_pos hthreaded, if_pos hprepared]
      simp only [dealBatches_fresh h.parsed h.unknown (fun _ => h.chained), hdealt,
        Bool.false_eq_true, if_false]
      rw [longhashTable_eq]
      rfl
    · rw [if_neg hthreaded, if_neg fun hprepared => hthreaded hprepared.2]

theorem Prepared.dealtBlocks_get (h : Prepared view blocks) {k : ℕ} (hk : k < blocks.length) :
    (dealtBlocks view blocks)[dealtOffset view.threads blocks.length k]? = blocks[k]? := by
  have hpos := h.threads_pos
  have hle : view.threads * (blocks.length / view.threads) ≤ blocks.length := Nat.mul_div_le _ _
  have hextra : (blocks.drop (view.threads * (blocks.length / view.threads))).length =
      blocks.length % view.threads := by
    rw [List.length_drop, length_dropped]
  have hmod : blocks.length % view.threads < view.threads := Nat.mod_lt _ (by omega)
  rw [dealtBlocks, dealtOffset]
  generalize hbatches : blocks.length / view.threads = batches at hle hextra ⊢
  split
  · rename_i hshare
    -- the block is in a full share
    have hbatch : 0 < batches := by
      rcases Nat.eq_zero_or_pos batches with rfl | hbatch
      · omega
      · exact hbatch
    have hi : k / batches < view.threads := by
      rwa [Nat.div_lt_iff_lt_mul hbatch]
    have hplace := dealtOut_share (blocks.drop (view.threads * batches)) hle hi
      (Nat.mod_lt k hbatch)
    rw [hextra, Nat.add_right_comm, Nat.mul_comm (k / batches), Nat.div_add_mod] at hplace
    exact hplace
  · rename_i hleft
    have hi : k - view.threads * batches < (blocks.drop (view.threads * batches)).length := by
      rw [List.length_drop]
      omega
    have hplace := dealtOut_item hle hi (by rw [hextra]; omega)
    rw [hplace, List.getElem?_drop]
    congr 1
    omega

theorem Prepared.dealtBlocks_perm (h : Prepared view blocks) :
    (dealtBlocks view blocks).Perm blocks := by
  have hpos := h.threads_pos
  have hitems : (blocks.drop (view.threads * (blocks.length / view.threads))).length ≤
      view.threads := by
    rw [List.length_drop, length_dropped]
    exact (Nat.mod_lt _ (by omega)).le
  have hperm : (dealtBlocks view blocks).Perm
      (blocks.take (view.threads * (blocks.length / view.threads)) ++
        blocks.drop (view.threads * (blocks.length / view.threads))) := dealtOut_perm hitems
  rwa [List.take_append_drop] at hperm

/-! ### Precomputed and direct proofs of work -/

/-- The height does not matter beyond the side of the fork, and only below version 2. -/
theorem getBlockLonghash_congr {b : Block} {height height' : ℕ}
    (h : b.majorVersion < 2 → (hardfork1Height ≤ height ↔ hardfork1Height ≤ height')) :
    getBlockLonghash ops cfg pow hardfork1Height b height =
      getBlockLonghash ops cfg pow hardfork1Height b height' := by
  have hside : (hardfork1Height ≤ height ∨ 2 ≤ b.majorVersion) ↔
      (hardfork1Height ≤ height' ∨ 2 ≤ b.majorVersion) := by
    by_cases hversion : 2 ≤ b.majorVersion
    · exact iff_of_true (.inr hversion) (.inr hversion)
    · rw [h (UInt8.not_le.mp hversion)]
  rw [getBlockLonghash, getBlockLonghash]
  simp only [hside]

variable (ops cfg view hardfork1Height) in
/-- Every entry has the proof of work of its block at the height where the block will be
connected, and the check there says the same with the table and without it. -/
def PrecomputedRight (pow : PowOps) (blocksEntry : List (List UInt8)) (blocks : List Block) :
    Prop :=
  ∃ table, prepareLonghashTable ops cfg view pow hardfork1Height blocksEntry = some table ∧
    (∀ entry ∈ table, ∀ k b, blocks[k]? = some b → blockId ops cfg b = entry.1 →
      getBlockLonghash ops cfg pow hardfork1Height b (view.height + k) = some entry.2) ∧
    ∀ k b currentDiffic, blocks[k]? = some b →
      checkProofOfWork ops cfg pow hardfork1Height table b (view.height + k) currentDiffic =
        checkProofOfWork ops cfg pow hardfork1Height [] b (view.height + k) currentDiffic

variable (view) in
/-- No block below version 2 is counted on another side of the fork than it will be. -/
def CountedOnSide (hardfork1Height : ℕ) (blocks : List Block) : Prop :=
  Prepared view blocks → ∀ k b, blocks[k]? = some b → b.majorVersion < 2 →
    (hardfork1Height ≤ view.height + dealtOffset view.threads blocks.length k ↔
      hardfork1Height ≤ view.height + k)

theorem FreshBatch.precomputed (h : FreshBatch ops cfg view blocksEntry blocks)
    (hside : CountedOnSide view hardfork1Height blocks) :
    PrecomputedRight ops cfg view hardfork1Height pow blocksEntry blocks := by
  -- a lookup that finds something finds the direct proof of work
  have hlookup : ∀ table : List (Hash × Hash),
      (∀ entry ∈ table, ∀ k b, blocks[k]? = some b → blockId ops cfg b = entry.1 →
        getBlockLonghash ops cfg pow hardfork1Height b (view.height + k) = some entry.2) →
      ∀ k b currentDiffic, blocks[k]? = some b →
        checkProofOfWork ops cfg pow hardfork1Height table b (view.height + k) currentDiffic =
          checkProofOfWork ops cfg pow hardfork1Height [] b (view.height + k) currentDiffic := by
    intro table hright k b currentDiffic hb
    rw [checkProofOfWork, checkProofOfWork]
    cases hfind : table.find? fun entry => entry.1 = blockId ops cfg b with
    | none => rfl
    | some entry =>
        have hid := List.find?_some hfind
        rw [decide_eq_true_eq] at hid
        have hpow := hright entry (List.mem_of_find?_eq_some hfind) k b hb hid.symm
        simp only [List.find?_nil, hpow]
  rw [PrecomputedRight, h.prepareLonghashTable]
  by_cases hprepared : Prepared view blocks
  · rw [if_pos hprepared]
    have hhashable : ∀ b ∈ dealtBlocks view blocks, (getBlockHashingBlob ops cfg b).isSome = true :=
      fun b hb => h.hashable b (hprepared.dealtBlocks_perm.mem_iff.mp hb)
    obtain ⟨table, htable⟩ := Option.isSome_iff_exists.mp
      (blockLonghashWorker_isSome view.height hhashable)
    have hright : ∀ entry ∈ table, ∀ k b, blocks[k]? = some b → blockId ops cfg b = entry.1 →
        getBlockLonghash ops cfg pow hardfork1Height b (view.height + k) = some entry.2 := by
      intro entry hentry k b hb hid
      obtain ⟨n, hn⟩ := List.getElem?_of_mem hentry
      have hget := blockLonghashWorker_get htable n
      cases hdealt : (dealtBlocks view blocks)[n]? with
      | none => exact absurd ((hget.1 hdealt).symm.trans hn) (by simp)
      | some b' =>
          obtain ⟨hash, hhash, hentry'⟩ := hget.2 b' hdealt
          obtain rfl := Option.some.inj (hn.symm.trans hentry')
          -- the hashes differ, so this is the place where the block was dealt to
          have hplace := hprepared.dealtBlocks_get (List.getElem?_eq_some_iff.mp hb).1
          rw [hb] at hplace
          have hnodup : ((dealtBlocks view blocks).map (blockId ops cfg)).Nodup :=
            (hprepared.dealtBlocks_perm.map _).nodup_iff.mpr h.nodup
          have hsame : dealtOffset view.threads blocks.length k = n := by
            apply (List.getElem?_inj ?_ hnodup).mp
            · rw [List.getElem?_map, List.getElem?_map, hplace, hdealt, Option.map_some,
                Option.map_some, hid]
            · rw [List.length_map]
              exact (List.getElem?_eq_some_iff.mp hplace).1
          obtain rfl : b = b' := by
            rw [hsame, hdealt] at hplace
            exact (Option.some.inj hplace).symm
          rw [← hhash, ← hsame]
          exact getBlockLonghash_congr fun hversion => (hside hprepared k b hb hversion).symm
    exact ⟨table, htable, hright, hlookup table hright⟩
  · rw [if_neg hprepared]
    have hright : ∀ entry ∈ ([] : List (Hash × Hash)), ∀ k b, blocks[k]? = some b →
        blockId ops cfg b = entry.1 →
        getBlockLonghash ops cfg pow hardfork1Height b (view.height + k) = some entry.2 :=
      fun entry hentry => absurd hentry (by simp)
    exact ⟨[], rfl, hright, hlookup [] hright⟩

def lightPow : PowOps := ⟨fun _ => nullHash, fun _ light _ => if light then hashOfNat 1 else nullHash⟩

theorem FreshBatch.countedOnSide (h : FreshBatch ops cfg view blocksEntry blocks)
    (hright : PrecomputedRight ops cfg view hardfork1Height lightPow blocksEntry blocks) :
    CountedOnSide view hardfork1Height blocks := by
  intro hprepared k b hb hversion
  obtain ⟨table, htable, hentries, -⟩ := hright
  rw [h.prepareLonghashTable, if_pos hprepared] at htable
  have hplace := hprepared.dealtBlocks_get (List.getElem?_eq_some_iff.mp hb).1
  rw [hb] at hplace
  obtain ⟨hash, hhash, hentry⟩ := (blockLonghashWorker_get htable _).2 b hplace
  have hdirect := hentries _ (List.mem_of_getElem? hentry) k b hb rfl
  obtain ⟨bd, hbd⟩ := Option.isSome_iff_exists.mp (h.hashable b (List.mem_of_getElem? hb))
  have hold : ¬8 ≤ b.majorVersion := fun hle =>
    absurd (UInt8.lt_of_lt_of_le hversion (UInt8.le_trans (by decide) hle)) (UInt8.lt_irrefl _)
  have hsame := hhash.trans hdirect.symm
  have hne : hashOfNat 1 ≠ nullHash := by decide
  simp only [getBlockLonghash, hbd, Option.map_some, if_neg hold, lightPow, Option.some.injEq,
    UInt8.not_le.mpr hversion, or_false, decide_eq_true_eq] at hsame
  by_cases hcounted : hardfork1Height ≤ view.height + dealtOffset view.threads blocks.length k
  · by_cases hconnected : hardfork1Height ≤ view.height + k
    · exact iff_of_true hcounted hconnected
    · rw [if_pos hcounted, if_neg hconnected] at hsame
      exact absurd hsame hne
  · by_cases hconnected : hardfork1Height ≤ view.height + k
    · rw [if_neg hcounted, if_pos hconnected] at hsame
      exact absurd hsame.symm hne
    · exact iff_of_false hcounted hconnected

/-- The table agrees with the direct proof of work, whatever the hash functions are,
exactly when no old block is counted on the other side of the fork. -/
theorem precomputedRight_iff (h : FreshBatch ops cfg view blocksEntry blocks) :
    (∀ pow, PrecomputedRight ops cfg view hardfork1Height pow blocksEntry blocks) ↔
      CountedOnSide view hardfork1Height blocks := by
  constructor
  · intro hright
    exact h.countedOnSide (hright lightPow)
  · intro hside pow
    exact h.precomputed hside

/-! ### Three blocks for two threads -/

def minerTxAt (height : UInt64) : Transaction :=
  ⟨⟨1, 0, height + 60, ⟨[.gen height], by simp⟩, .nil, .nil⟩, ⟨[.nil], by simp⟩, default, default⟩

def emptyBlockAt (height : UInt64) (prevId : Hash) : Block :=
  ⟨⟨1, 0, 240 * height, prevId, 0⟩, minerTxAt height, .nil⟩

def tenthId : Hash := hashOfNat 0x3be1bec942c5597698deeb9e0e5e1d3badba26aafdcb5e59d22c3ee1d3bef9bf

def eleventhId : Hash :=
  hashOfNat 0xabefc1357cb0f56879218e1666753d37dfa3adcfb81727e31869d64990ad877c

def threeBlocks : List Block :=
  [emptyBlockAt 10 nullHash, emptyBlockAt 11 tenthId, emptyBlockAt 12 eleventhId]

/-- The Keccak hashes of the messages of a block: its miner transaction, its hashing blob
and its whole blob. -/
def blockHashes (b : Block) (miner id blob : Hash) (m : List UInt8) : Option Hash :=
  if m = txToBlob currentConfig b.minerTx then some miner
  else if m = stringMessage ((saveBlockHeader b.toBlockHeader).bytes ++
      (miner.val ++ writeVarint 1)) then some id
  else if m = blockToBlob currentConfig b then some blob
  else none

def threeHash (m : List UInt8) : Hash :=
  ((blockHashes (emptyBlockAt 10 nullHash)
      (hashOfNat 0x9c62cc2b88b039d3c3c7eea5f0626a773ae0c2a0c79f48931fb153747271438b) tenthId
      (hashOfNat 0x6d5de34524e8e08d9d6871211c7aa5e1f0d27750a9317e9d732b86e4c0a6a8ec) m).or
    ((blockHashes (emptyBlockAt 11 tenthId)
        (hashOfNat 0x1d999992e71f33d34e42ba17844f3cf4b087fc267328b1237b723f3dbb27e080) eleventhId
        (hashOfNat 0x505b1e5d44f7aa6769a8acc475e4fe22b54a95eff8db86504ca4af4d00f2ff88) m).or
      (blockHashes (emptyBlockAt 12 eleventhId)
        (hashOfNat 0x5e414104e187bf9c1466a43a1eab1fd41df3b85070ff90778e3feb018ca175a1)
        (hashOfNat 0x02615baaac21ae4d3d115a2953e2f9908b95526e41fdea6f857e9851cc355d1b)
        (hashOfNat 0xb392f07268a224fef33af9c5451f67509e43d9a2700f24c514d07a9c24f376a2) m))).getD
    nullHash

def threeOps : CryptoOps := ⟨threeHash, fun _ => none, fun _ => default⟩

def twoThreads : PrepareView := ⟨10, nullHash, fun _ => false, 0, 2, 4⟩

def threeEntries : List (List UInt8) := threeBlocks.map (blockToBlob currentConfig)

theorem fresh_threeBlocks :
    FreshBatch threeOps currentConfig twoThreads threeEntries threeBlocks where
  parsed := by decide +kernel
  unknown := fun _ _ => rfl
  chained := by
    intro b hb
    obtain rfl := Option.some.inj hb
    rfl
  nodup := by decide
  hashable := by decide

/-- The block of height 11 is counted at height 12. With the fork there, the table has a
hash of the light variant for it, and its proof of work is judged by that. -/
theorem threeBlocks_counted_behind :
    FreshBatch threeOps currentConfig twoThreads threeEntries threeBlocks ∧
      threeBlocks[1]? = some (emptyBlockAt 11 tenthId) ∧
      (∃ table, prepareLonghashTable threeOps currentConfig twoThreads lightPow 12 threeEntries =
          some table ∧
        (eleventhId, hashOfNat 1) ∈ table ∧
        checkProofOfWork threeOps currentConfig lightPow 12 table (emptyBlockAt 11 tenthId) 11 256 =
          some false) ∧
      getBlockLonghash threeOps currentConfig lightPow 12 (emptyBlockAt 11 tenthId) 11 =
        some nullHash ∧
      checkProofOfWork threeOps currentConfig lightPow 12 [] (emptyBlockAt 11 tenthId) 11 256 =
        some true := by
  refine ⟨fresh_threeBlocks, rfl, ?_, ?_, ?_⟩
  · refine ⟨(prepareLonghashTable threeOps currentConfig twoThreads lightPow 12 threeEntries).getD [],
      ?_, ?_, ?_⟩
    · decide +kernel
    · decide +kernel
    · decide +kernel
  · decide
  · decide +kernel

theorem precomputedRight_iff_threeBlocks :
    threeEntries.length = 3 ∧
      ∀ pow, PrecomputedRight threeOps currentConfig twoThreads 0 pow threeEntries threeBlocks := by
  refine ⟨by decide, ?_⟩
  apply (precomputedRight_iff fresh_threeBlocks).mpr
  intro _ k b _ _
  exact iff_of_true (Nat.zero_le _) (Nat.zero_le _)

end XrCoin.Blockchain

import Mathlib
import XrCoin.TxPool.InputCache
import XrCoin.TxPool.TemplateRatio

/-!
Failures that `is_transaction_ready_to_go` records while the chain grows.

A failure is kept with the height and the id of the tip at that time. A later call compares the id
with that of the block which is at this height then, and it is the same one for every longer chain.
-/

namespace XrCoin.TxPool

open Archive Cryptonote Blockchain Data

/-! ### A chain and its prefixes -/

structure GrowingChain where
  ids : List Hash
  inputs : ℕ → InputsView
  precompiled : ℕ → Bool
  height_inputs : ∀ n, (inputs n).height = n
  short : ids.length < 2 ^ 64

namespace GrowingChain

def first (g : GrowingChain) (n : ℕ) : InputChain :=
  ⟨g.inputs n, fun height => g.ids.getD height nullHash, g.precompiled n⟩

def blockIdByHeight (g : GrowingChain) (n : ℕ) (height : UInt64) : Hash :=
  (g.ids.take n).getD height.toNat nullHash

/-- `Blockchain::have_tx_keyimges_as_spent`, which takes an input of another kind for spent. -/
def haveTxKeyimgesAsSpent (g : GrowingChain) (n : ℕ) (tx : Transaction) : Bool :=
  tx.vin.toList.any fun txin =>
    match getToKey txin with
    | none => true
    | some inToKey => (g.inputs n).haveTxKeyimgAsSpent inToKey.kImage

theorem blockIdByHeight_of_lt (g : GrowingChain) {n : ℕ} {height : UInt64}
    (hheight : height.toNat < n) :
    g.blockIdByHeight n height = g.ids.getD height.toNat nullHash := by
  rw [blockIdByHeight, List.getD_eq_getElem?_getD, List.getD_eq_getElem?_getD,
    List.getElem?_take_of_lt hheight]

end GrowingChain

/-! ### Calls -/

section Calls

variable (rules : InputRules) (sigs : SignatureOps) (c : TemplateCall) (g : GrowingChain)

/-- The check of `is_transaction_ready_to_go`, which parses the transaction only when there is no
answer in the cache. -/
def readyCheck (chain : InputChain) (cache : InputCache) (txid : Hash) (txblob : List UInt8)
    (used : UInt64 × Hash) : Option Bool × UInt64 × Hash :=
  match cache txid with
  | some cached => (some cached.ret, cached.maxUsedBlockHeight, cached.maxUsedBlockId)
  | none =>
      match parseAndValidateTxFromBlob c.ops c.cfg txblob with
      | none => (none, used)
      | some tx =>
          let checked := (checkTxInputs rules sigs c.ops c.cfg chain cache
            ⟨tx, txid, used.2, false⟩).1
          (some checked.ret, checked.maxUsedBlockHeight, checked.maxUsedBlockId)

/-- A call when the chain had so many blocks, with the cache at that time. -/
def callAt (n : ℕ) (cache : InputCache) : TemplateCall :=
  { c with
    view := { c.view with
      height := n.toUInt64
      blockIdByHeight := g.blockIdByHeight n
      checkTxInputs := readyCheck rules sigs c (g.first n) cache
      haveTxKeyimgesAsSpent := g.haveTxKeyimgesAsSpent n } }

@[simp] theorem callAt_checkTxInputs (n : ℕ) (cache : InputCache) (txid : Hash)
    (txblob : List UInt8) (used : UInt64 × Hash) :
    (callAt rules sigs c g n cache).view.checkTxInputs txid txblob used =
      readyCheck rules sigs c (g.first n) cache txid txblob used := rfl

/-- `max_used_block_height` and `max_used_block_id` after the check in `add_tx`. -/
def CheckedInputs.used (checked : CheckedInputs) : Option (UInt64 × Hash) :=
  if checked.ret then some (checked.maxUsedBlockHeight, checked.maxUsedBlockId) else none

/-- The metadata with which a transaction came into the pool, on some blocks of the chain. -/
def Entered (tx : Transaction) (txd : TxpoolMeta) : Prop :=
  ∃ (args : AddTxArgs) (fee now : UInt64) (doubleSpendSeen : Bool) (n : ℕ),
    n ≤ g.ids.length ∧ txd = args.info fee now
      (blockchainCheckTxInputs rules sigs c.ops c.cfg (g.first n) tx nullHash
        args.keptByBlock).used doubleSpendSeen

structure EarlierCall (txOf : Hash → Transaction) where
  n : ℕ
  cache : InputCache
  pos : 0 < n
  le : n ≤ g.ids.length
  agrees : CacheAgrees rules sigs c.ops c.cfg txOf (g.first n) cache

variable {rules sigs c g} in
def readyStep {txOf : Hash → Transaction} (txid : Hash) (txblob : List UInt8) (txd : TxpoolMeta)
    (call : EarlierCall rules sigs c g txOf) : TxpoolMeta :=
  (isTransactionReadyToGo (callAt rules sigs c g call.n call.cache) txd txid txblob).2

/-- The block at the height of a recorded failure has the recorded id. Without a block id from a
successful check the record also has to be one. -/
def FailureStands (txd : TxpoolMeta) : Prop :=
  txd.lastFailedId = g.blockIdByHeight g.ids.length txd.lastFailedHeight ∧
    (txd.maxUsedBlockId = nullHash →
      txd.lastFailedId ≠ nullHash ∧ txd.lastFailedHeight.toNat < g.ids.length)

/-! ### What a call leaves -/

theorem blockchainCheckTxInputs_height {n : ℕ} {tx : Transaction} {id : Hash} {kept : Bool}
    (hn : n ≤ g.ids.length)
    (h : (blockchainCheckTxInputs rules sigs c.ops c.cfg (g.first n) tx id kept).ret = true)
    (hid : (blockchainCheckTxInputs rules sigs c.ops c.cfg (g.first n) tx id
      kept).maxUsedBlockId ≠ nullHash) :
    (blockchainCheckTxInputs rules sigs c.ops c.cfg (g.first n) tx id
      kept).maxUsedBlockHeight.toNat < g.ids.length := by
  have hshort := g.short
  revert h hid
  rw [blockchainCheckTxInputs]
  split
  · exact fun _ hid => absurd rfl hid
  · split
    · intro h
      cases h
    · split
      case isTrue hheight =>
          intro _ _
          have hlt : _ < n := (g.height_inputs n) ▸ hheight
          have hfits := (hlt.trans_le hn).trans hshort
          rw [Nat.toUInt64, UInt64.toNat_ofNat_of_lt' hfits]
          exact hlt.trans_le hn
      case isFalse =>
          intro h
          cases h

/-- The metadata behind a call: as before, or behind a failed check, or behind one that passed. -/
theorem readyToGo_meta (d : TemplateCall) (txd : TxpoolMeta) (txid : Hash) (txblob : List UInt8)
    {checked : Option Bool × UInt64 × Hash}
    (hchecked : d.view.checkTxInputs txid txblob (txd.maxUsedBlockHeight, txd.maxUsedBlockId) =
      checked) :
    (isTransactionReadyToGo d txd txid txblob).2 = txd ∨
      (checked.1 = some false ∧ (isTransactionReadyToGo d txd txid txblob).2 =
        failedMeta d { txd with maxUsedBlockHeight := checked.2.1, maxUsedBlockId := checked.2.2 }) ∨
      (checked.1 ≠ some false ∧ ∃ seen, (isTransactionReadyToGo d txd txid txblob).2 =
        { txd with
          maxUsedBlockHeight := checked.2.1
          maxUsedBlockId := checked.2.2
          doubleSpendSeen := seen }) := by
  have hready : (checkReadyInputs d txd txid txblob).2 = txd ∨
      (checked.1 = some false ∧ (checkReadyInputs d txd txid txblob).2 =
        failedMeta d { txd with maxUsedBlockHeight := checked.2.1, maxUsedBlockId := checked.2.2 }) ∨
      (checked.1 ≠ some false ∧ ∃ seen, (checkReadyInputs d txd txid txblob).2 =
        { txd with
          maxUsedBlockHeight := checked.2.1
          maxUsedBlockId := checked.2.2
          doubleSpendSeen := seen }) := by
    rw [checkReadyInputs, hchecked]
    obtain ⟨answer, height, id⟩ := checked
    cases answer with
    | none => exact .inr (.inr ⟨by simp, txd.doubleSpendSeen, rfl⟩)
    | some accepted =>
        cases accepted with
        | false => exact .inr (.inl ⟨rfl, rfl⟩)
        | true =>
            refine .inr (.inr ⟨by simp, ?_⟩)
            dsimp only
            split
            · exact ⟨txd.doubleSpendSeen, rfl⟩
            · split
              · exact ⟨true, rfl⟩
              · exact ⟨txd.doubleSpendSeen, rfl⟩
  rw [isTransactionReadyToGo]
  split
  · split
    · exact .inl rfl
    · exact hready
  · split
    · exact .inl rfl
    · split
      · exact .inl rfl
      · exact hready

/-! ### Runs -/

/-- A block id comes with the height of a block, unless a failure is recorded at one. -/
def Placed (txd : TxpoolMeta) : Prop :=
  txd.maxUsedBlockId ≠ nullHash →
    txd.maxUsedBlockHeight.toNat < g.ids.length ∨
      txd.lastFailedId = g.blockIdByHeight g.ids.length txd.lastFailedHeight

variable {rules sigs c g}

theorem Entered.placed {tx : Transaction} {txd : TxpoolMeta}
    (h : Entered rules sigs c g tx txd) : Placed g txd := by
  obtain ⟨args, fee, now, seen, n, hn, rfl⟩ := h
  intro hid
  left
  simp only [AddTxArgs.info, CheckedInputs.used] at hid ⊢
  split at hid
  case isFalse => exact absurd rfl hid
  case isTrue hret =>
      rw [if_pos hret]
      exact blockchainCheckTxInputs_height rules sigs c g hn hret hid

theorem readyCheck_of_parse {txOf : Hash → Transaction}
    (call : EarlierCall rules sigs c g txOf) {txid : Hash} {txblob : List UInt8}
    (hparse : parseAndValidateTxFromBlob c.ops c.cfg txblob = some (txOf txid))
    (used : UInt64 × Hash) :
    ∃ checked : CheckedInputs,
      readyCheck rules sigs c (g.first call.n) call.cache txid txblob used =
        (some checked.ret, checked.maxUsedBlockHeight, checked.maxUsedBlockId) ∧
      ∀ id, checked.Same (blockchainCheckTxInputs rules sigs c.ops c.cfg (g.first call.n)
        (txOf txid) id false) := by
  rw [readyCheck]
  cases hcached : call.cache txid with
  | some cached => exact ⟨cached, rfl, call.agrees txid cached hcached⟩
  | none =>
      rw [hparse]
      refine ⟨_, rfl, fun id => ?_⟩
      rw [checkTxInputs, if_neg (by simp)]
      simp only [hcached]
      exact blockchainCheckTxInputs_same ..

/-- A call keeps the height of the greatest ring member in range. -/
theorem readyStep_placed {txOf : Hash → Transaction} {txid : Hash} {txblob : List UInt8}
    {txd : TxpoolMeta} (h : Placed g txd)
    (hparse : parseAndValidateTxFromBlob c.ops c.cfg txblob = some (txOf txid))
    (call : EarlierCall rules sigs c g txOf) : Placed g (readyStep txid txblob txd call) := by
  obtain ⟨checked, hchecked, hsame⟩ := readyCheck_of_parse call hparse
    (txd.maxUsedBlockHeight, txd.maxUsedBlockId)
  obtain ⟨hret, -, hheight⟩ := hsame nullHash
  have hle := call.le
  have hshort := g.short
  rcases readyToGo_meta (callAt rules sigs c g call.n call.cache) txd txid txblob hchecked with
    hkept | ⟨-, hfailed⟩ | ⟨hpassed, seen, hstored⟩
  · rw [readyStep, hkept]
    exact h
  · -- the failure is recorded at the tip of that time
    rw [readyStep, hfailed]
    intro _
    right
    have htip : ((callAt rules sigs c g call.n call.cache).view.height - 1).toNat =
        call.n - 1 := by
      have hpos := call.pos
      show (call.n.toUInt64 - 1).toNat = _
      have hn : call.n.toUInt64.toNat = call.n :=
        UInt64.toNat_ofNat_of_lt' (hle.trans_lt hshort)
      rw [UInt64.toNat_sub_of_le _ _ (UInt64.le_iff_toNat_le.mpr (by rw [hn]; exact hpos)), hn]
      rfl
    have hpos := call.pos
    show g.blockIdByHeight call.n ((callAt rules sigs c g call.n call.cache).view.height - 1) =
      g.blockIdByHeight g.ids.length ((callAt rules sigs c g call.n call.cache).view.height - 1)
    rw [g.blockIdByHeight_of_lt (by rw [htip]; omega), g.blockIdByHeight_of_lt (by rw [htip]; omega)]
  · -- the check has passed, since it has an answer
    rw [readyStep, hstored]
    intro hid
    left
    have haccepted : checked.ret = true := by
      cases hc : checked.ret with
      | true => rfl
      | false => exact absurd (by rw [hc]) hpassed
    rw [haccepted] at hret
    obtain ⟨hheights, hids⟩ := hheight hret.symm
    rw [hheights]
    apply blockchainCheckTxInputs_height rules sigs c g hle hret.symm
    rwa [← hids]

/-- For metadata that earlier calls on the chain have left, and a transaction that the chain now
accepts: it is ready exactly when no recorded failure stands. -/
theorem ready_iff_no_failure (rules : InputRules) (sigs : SignatureOps) (c : TemplateCall)
    (g : GrowingChain) (txOf : Hash → Transaction) (txid : Hash) (txblob : List UInt8)
    (entered : TxpoolMeta) (calls : List (EarlierCall rules sigs c g txOf))
    (now : EarlierCall rules sigs c g txOf)
    (hparse : parseAndValidateTxFromBlob c.ops c.cfg txblob = some (txOf txid))
    (hentered : Entered rules sigs c g (txOf txid) entered) (hnow : now.n = g.ids.length)
    (haccepts : (blockchainCheckTxInputs rules sigs c.ops c.cfg (g.first g.ids.length)
      (txOf txid) nullHash false).ret = true)
    (hunspent : g.haveTxKeyimgesAsSpent g.ids.length (txOf txid) = false) :
    (isTransactionReadyToGo (callAt rules sigs c g g.ids.length now.cache)
        (run (readyStep txid txblob) entered calls) txid txblob).1 = some (txOf txid) ↔
      ¬FailureStands g (run (readyStep txid txblob) entered calls) := by
  have hplaced : Placed g (run (readyStep txid txblob) entered calls) :=
    run_invariant _ hentered.placed (fun txd call h => readyStep_placed h hparse call) calls
  generalize run (readyStep txid txblob) entered calls = txd at hplaced ⊢
  obtain ⟨checked, hchecked, hsame⟩ := readyCheck_of_parse now hparse
    (txd.maxUsedBlockHeight, txd.maxUsedBlockId)
  have hret : checked.ret = true := by
    rw [(hsame nullHash).1, hnow]
    exact haccepts
  rw [hnow, hret] at hchecked
  have hready : (checkReadyInputs (callAt rules sigs c g g.ids.length now.cache) txd txid
      txblob).1 = some (txOf txid) := by
    have hview : (callAt rules sigs c g g.ids.length now.cache).view.checkTxInputs txid txblob
        (txd.maxUsedBlockHeight, txd.maxUsedBlockId) =
          (some true, checked.maxUsedBlockHeight, checked.maxUsedBlockId) := hchecked
    have hparsed : parseAndValidateTxFromBlob (callAt rules sigs c g g.ids.length now.cache).ops
        (callAt rules sigs c g g.ids.length now.cache).cfg txblob = some (txOf txid) := hparse
    have hspent : (callAt rules sigs c g g.ids.length now.cache).view.haveTxKeyimgesAsSpent
        (txOf txid) = false := hunspent
    rw [checkReadyInputs, hview]
    simp only [hparsed, hspent]
    rfl
  have hlength : (g.ids.length.toUInt64).toNat = g.ids.length :=
    UInt64.toNat_ofNat_of_lt' g.short
  have hheight (height : UInt64) : height < g.ids.length.toUInt64 ↔
      height.toNat < g.ids.length := by
    rw [UInt64.lt_iff_toNat_lt, hlength]
  rw [isTransactionReadyToGo]
  show (if txd.maxUsedBlockId = nullHash then
      if txd.lastFailedId ≠ nullHash ∧ txd.lastFailedHeight < g.ids.length.toUInt64 ∧
        txd.lastFailedId = g.blockIdByHeight g.ids.length txd.lastFailedHeight then (none, txd)
      else checkReadyInputs (callAt rules sigs c g g.ids.length now.cache) txd txid txblob
    else if g.ids.length.toUInt64 ≤ txd.maxUsedBlockHeight then (none, txd)
    else if txd.lastFailedId = g.blockIdByHeight g.ids.length txd.lastFailedHeight then (none, txd)
    else checkReadyInputs (callAt rules sigs c g g.ids.length now.cache) txd txid txblob).1 =
      some (txOf txid) ↔ _
  rw [FailureStands]
  by_cases hnull : txd.maxUsedBlockId = nullHash
  · rw [if_pos hnull]
    split
    case isTrue h =>
        refine iff_of_false (by simp) fun hnot => hnot ⟨h.2.2, fun _ => ⟨h.1, ?_⟩⟩
        exact (hheight _).mp h.2.1
    case isFalse h =>
        refine iff_of_true hready fun hstands => ?_
        obtain ⟨hsome, hlt⟩ := hstands.2 hnull
        exact h ⟨hsome, (hheight _).mpr hlt, hstands.1⟩
  · rw [if_neg hnull]
    by_cases hstands : txd.lastFailedId = g.blockIdByHeight g.ids.length txd.lastFailedHeight
    · refine iff_of_false ?_ fun hnot => hnot ⟨hstands, fun h => absurd h hnull⟩
      rw [if_pos hstands]
      split <;> simp
    · -- the block with the greatest ring member is there
      have hbelow := (hplaced hnull).resolve_right hstands
      rw [if_neg (by rw [UInt64.not_le, hheight]; exact hbelow), if_neg hstands]
      exact iff_of_true hready fun h => hstands h.1

end Calls

/-! ### A ring that is too young at first -/

/-- Ten blocks. The ring members are in the first one, and have the age to be spent from the tenth
block on. -/
def tenBlocks : GrowingChain where
  ids := (List.range 10).map fun n => ⟨leBytes 32 (n + 1), leBytes_length 32 _⟩
  inputs n := { tenOutputs with height := n }
  precompiled _ := false
  height_inputs _ := rfl
  short := by decide

def youngTx : Transaction := (twoRingsTx threeOffsets threeOffsets).kept.serialised

def youngBlob : List UInt8 := txToBlob currentConfig (twoRingsTx threeOffsets threeOffsets)

theorem parse_youngBlob :
    parseAndValidateTxFromBlob templateCall.ops templateCall.cfg youngBlob = some youngTx := by
  have hok : (saveTransaction currentConfig (twoRingsTx threeOffsets threeOffsets)).ok = true := by
    decide +kernel
  rw [parseAndValidateTxFromBlob, youngBlob, txToBlob]
  show (deserialize (loadTransaction currentConfig) _).bind _ = _
  rw [deserialize_of_readsBack (readsBack_transaction currentConfig _) hok]
  rfl

/-- The transaction came with a block on a branch, when there were five blocks. -/
def youngEntered : TxpoolMeta :=
  AddTxArgs.info ⟨youngTx, ringTxId, 500, true, true, false, 7⟩ 0 1540000000 none false

/-- A call when there were so many blocks, with nothing in the cache. -/
def youngCall (n : ℕ) (pos : 0 < n) (le : n ≤ tenBlocks.ids.length) :
    EarlierCall fixedRules signedRings templateCall tenBlocks fun _ => youngTx :=
  ⟨n, fun _ => none, pos, le, fun _ _ h => by cases h⟩

theorem check_fiveBlocks (id : Hash) (kept : Bool) :
    blockchainCheckTxInputs fixedRules signedRings templateCall.ops templateCall.cfg
      (tenBlocks.first 5) youngTx id kept = ⟨false, some .refused, 0, id⟩ := by
  cases kept <;> rfl

theorem entered_youngEntered :
    Entered fixedRules signedRings templateCall tenBlocks youngTx youngEntered := by
  refine ⟨⟨youngTx, ringTxId, 500, true, true, false, 7⟩, 0, 1540000000, false, 5, by decide, ?_⟩
  rw [check_fiveBlocks]
  rfl

/-- The transaction failed when there were five blocks. The ten blocks accept it, but it is not
ready. -/
theorem youngRing_not_ready :
    Entered fixedRules signedRings templateCall tenBlocks youngTx youngEntered ∧
      (blockchainCheckTxInputs fixedRules signedRings templateCall.ops templateCall.cfg
        (tenBlocks.first 10) youngTx nullHash false).ret = true ∧
      tenBlocks.haveTxKeyimgesAsSpent 10 youngTx = false ∧
      (isTransactionReadyToGo
        (callAt fixedRules signedRings templateCall tenBlocks 10 fun _ => none)
        (run (readyStep ringTxId youngBlob) youngEntered
          [youngCall 5 (by decide) (by decide)]) ringTxId youngBlob).1 = none := by
  refine ⟨entered_youngEntered, rfl, rfl, ?_⟩
  have hfailed : run (readyStep ringTxId youngBlob) youngEntered
      [youngCall 5 (by decide) (by decide)] =
        failedMeta (callAt fixedRules signedRings templateCall tenBlocks 5 fun _ => none)
          youngEntered := by
    show (isTransactionReadyToGo (callAt fixedRules signedRings templateCall tenBlocks 5
      fun _ => none) youngEntered ringTxId youngBlob).2 = _
    rw [isTransactionReadyToGo, if_pos (show youngEntered.maxUsedBlockId = nullHash from rfl),
      if_neg (fun h => h.1 rfl), checkReadyInputs]
    have hcheck (used : UInt64 × Hash) : (callAt fixedRules signedRings templateCall tenBlocks 5
        fun _ => none).view.checkTxInputs ringTxId youngBlob used = (some false, 0, used.2) := by
      rw [callAt_checkTxInputs, readyCheck]
      simp only [parse_youngBlob, checkTxInputs, check_fiveBlocks]
      rfl
    rw [hcheck]
    rfl
  have hnull : (failedMeta (callAt fixedRules signedRings templateCall tenBlocks 5 fun _ => none)
      youngEntered).maxUsedBlockId = nullHash := rfl
  rw [hfailed, isTransactionReadyToGo, if_pos hnull, if_pos]
  refine ⟨?_, ?_, rfl⟩ <;> decide +kernel

theorem youngRing_ready_iff :
    (isTransactionReadyToGo
        (callAt fixedRules signedRings templateCall tenBlocks 10 fun _ => none)
        (run (readyStep ringTxId youngBlob) youngEntered
          [youngCall 5 (by decide) (by decide)]) ringTxId youngBlob).1 = some youngTx ↔
      ¬FailureStands tenBlocks (run (readyStep ringTxId youngBlob) youngEntered
        [youngCall 5 (by decide) (by decide)]) :=
  ready_iff_no_failure fixedRules signedRings templateCall tenBlocks (fun _ => youngTx) ringTxId
    youngBlob youngEntered _ (youngCall 10 (by decide) (by decide)) parse_youngBlob
    entered_youngEntered rfl rfl rfl

end XrCoin.TxPool

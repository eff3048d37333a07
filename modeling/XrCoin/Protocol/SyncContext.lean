import XrCoin.Blockchain.HashOfHashes
import XrCoin.Protocol.BlockQueue

/-!
The part of `cryptonote_protocol_handler` that asks a peer for the chain: the context of one
connection over the messages that the peer sends.

The core, the queue of spans and the clock are shared with other connections. A step reads
them as they are at its moment. The loop of `try_add_next_blocks` works on the core and on
the queue, and a step is told how it ended. Speeds are not modelled, so whether another
connection should be overtaken is part of what a step reads.
-/

namespace XrCoin.Protocol

open Cryptonote Blockchain

variable {β : Type}

/-! ### What is read of the queue -/

namespace BlockQueue

def getStartGapSpan (q : BlockQueue β) : UInt64 × UInt64 :=
  match q.blocks.elems with
  | i :: j :: _ =>
      if isBlockchainPlaceholder i then
        let currentHeight := i.startBlockHeight + i.nblocks - 1
        if j.startBlockHeight ≤ currentHeight + 1 then (0, 0)
        else (currentHeight + 1, j.startBlockHeight - currentHeight - 1)
      else (0, 0)
  | _ => (0, 0)

def nextSpan (q : BlockQueue β) : Option (Span β) :=
  match q.blocks.elems with
  | [] => none
  | i :: rest => if isBlockchainPlaceholder i then rest.head? else some i

def getNextSpanIfScheduled (q : BlockQueue β) : (UInt64 × UInt64) × List Hash :=
  match q.nextSpan with
  | none => ((0, 0), [])
  | some i =>
      if i.blocks.isEmpty then ((i.startBlockHeight, i.nblocks), i.hashes) else ((0, 0), [])

def getNumFilledSpans (q : BlockQueue β) : ℕ :=
  (q.blocks.elems.filter fun i => !i.blocks.isEmpty).length

def getDataSize (q : BlockQueue β) : UInt64 := (q.blocks.elems.map Span.size).sum

end BlockQueue

/-! ### The context -/

inductive ConnectionState
  | beforeHandshake
  | synchronizing
  | standby
  | idle
  | normal
  deriving DecidableEq

structure SyncContext where
  connectionId : Uuid
  state : ConnectionState
  neededObjects : List Hash
  requestedObjects : Finset Hash
  remoteBlockchainHeight : UInt64
  lastResponseHeight : UInt64
  lastKnownHash : Hash

structure SyncView (β : Type) where
  chain : List Hash
  blocksHashCheck : List Hash
  haveBlock : Hash → Bool
  queue : BlockQueue β
  liveConnections : List Uuid
  /-- Whether `m_sync_lock` is free. -/
  ownsSyncLock : Bool
  shouldDownloadNextSpan : Bool
  /-- `get_block_sync_size`. -/
  countLimit : UInt64
  shortChainHistory : List Hash
  time : Option ℤ

inductive Sent
  | requestGetObjects (blocks : List Hash)
  | requestChain (blockIds : List Hash)
  deriving DecidableEq

structure Requested where
  ok : Bool
  context : SyncContext
  sent : List Sent

namespace SyncContext

def forget (c : SyncContext) : SyncContext :=
  { c with neededObjects := [], lastResponseHeight := 0 }

def firstHeight (c : SyncContext) : UInt64 :=
  c.lastResponseHeight - UInt64.ofNat c.neededObjects.length + 1

/-- The end of `request_missing_objects`, from the label `skip` on. -/
def requestChain (v : SyncView β) (c : SyncContext) : Requested :=
  let c := { c with neededObjects := [] }
  if c.lastResponseHeight < c.remoteBlockchainHeight - 1 then
    if v.shortChainHistory = [] then ⟨false, c, []⟩
    else ⟨true, c, [.requestChain v.shortChainHistory]⟩
  else if c.lastResponseHeight = c.remoteBlockchainHeight - 1 ∧ c.requestedObjects = ∅ then
    ⟨true, { c with state := .normal }, []⟩
  else ⟨false, c, []⟩

def requestNext (c : SyncContext) (hashes : List Hash) : Requested :=
  ⟨true, { c with requestedObjects := BlockQueue.insertHashes c.requestedObjects hashes },
    [.requestGetObjects hashes]⟩

def requestSpan (c : SyncContext) (span : UInt64 × UInt64) : Requested :=
  let skip := span.1 - c.firstHeight
  if UInt64.ofNat c.neededObjects.length < skip then ⟨false, c, []⟩
  else
    let c := { c with neededObjects := c.neededObjects.drop skip.toNat }
    if UInt64.ofNat c.neededObjects.length < span.2 then ⟨false, c, []⟩
    else
      let blocks := c.neededObjects.take span.2.toNat
      ⟨true,
        { c with
          neededObjects := c.neededObjects.drop span.2.toNat
          requestedObjects := BlockQueue.insertHashes c.requestedObjects blocks },
        [.requestGetObjects blocks]⟩

/-- Blocks that the node has are taken out. The last one of all is recorded. -/
def dropKnown (v : SyncView β) (c : SyncContext) : SyncContext :=
  let rest := c.neededObjects.dropWhile v.haveBlock
  { c with
    neededObjects := rest
    lastKnownHash :=
      if rest = [] then c.neededObjects.getLast?.getD c.lastKnownHash else c.lastKnownHash }

/-- The needed objects without the hashes of a span that another connection waits for. -/
def eraseEach (needed hashes : List Hash) : List Hash :=
  hashes.foldl (fun needed h => needed.erase h) needed

/-- The objects are asked for when there is no gap at the start of the queue. -/
def requestObjects (v : SyncView β) (queue : BlockQueue β) (forceNextSpan : Bool)
    (c : SyncContext) : Requested :=
  let next := queue.getNextSpanIfScheduled
  if forceNextSpan ∧ 0 < next.1.2 then c.requestNext next.2
  else if c.lastResponseHeight + 1 < UInt64.ofNat c.neededObjects.length then
    c.forget.requestChain v
  else
    let c := c.dropKnown v
    let span := (queue.reserveSpan c.firstHeight c.lastResponseHeight v.countLimit c.connectionId
      c.neededObjects v.time).1
    if 0 < span.2 then c.requestSpan span
    else if forceNextSpan = false ∧ 0 < next.1.2 then
      { c with neededObjects := eraseEach c.neededObjects next.2 }.requestNext next.2
    else c.requestChain v

def queueFull (q : BlockQueue β) : Bool :=
  decide (10 ≤ q.getNumFilledSpans) && decide (100 * 1024 * 1024 ≤ q.getDataSize)

def requestMissingObjects (v : SyncView β) (forceNextSpan : Bool) (c : SyncContext) :
    Requested :=
  let queue := v.queue.flushStaleSpans v.liveConnections
  let wait := forceNextSpan = false ∧ queueFull queue ∧ v.ownsSyncLock = false
  if wait ∧ v.shouldDownloadNextSpan = false then ⟨true, { c with state := .standby }, []⟩
  else
    let c := if forceNextSpan then c else { c with state := .synchronizing }
    let forceNextSpan := forceNextSpan || decide wait
    if c.neededObjects = [] ∧ forceNextSpan = false then c.requestChain v
    else
      let gap := queue.getStartGapSpan
      if 0 < gap.2 then
        let lastNeeded := gap.1 + min gap.2 v.countLimit - 1
        if gap.1 < c.firstHeight ∨ c.lastResponseHeight < lastNeeded then c.forget.requestChain v
        else c.requestSpan gap
      else c.requestObjects v queue forceNextSpan

/-! ### The messages -/

variable (ops : CryptoOps) (pre : PrecomputedHashes)

structure ChainEntry where
  startHeight : UInt64
  totalHeight : UInt64
  blockIds : HashVector

structure EntryCall where
  startHeight : UInt64
  blockIds : List Hash
  nUseBlocks : UInt64
  context : SyncContext

/-- The loop that appends the ids, with the number of those it has appended. -/
def pushNeeded (nUseBlocks : UInt64) : UInt64 → List Hash → List Hash → List Hash
  | _, [], needed => needed
  | added, id :: ids, needed =>
      if added + 1 = nUseBlocks then needed ++ [id]
      else pushNeeded nUseBlocks (added + 1) ids (needed ++ [id])

/-- `handle_response_chain_entry` up to its call of `request_missing_objects`: the context of
the call, or the one with which the connection is dropped. -/
def enterChain (v : SyncView β) (arg : ChainEntry) (c : SyncContext) : SyncContext ⊕ EntryCall :=
  let ids := arg.blockIds.toList
  let size := UInt64.ofNat ids.length
  if ids = [] then .inl c
  else if arg.totalHeight < size ∨ arg.totalHeight - size < arg.startHeight then .inl c
  else
    let c := { c with
      remoteBlockchainHeight := arg.totalHeight
      lastResponseHeight := arg.startHeight + size - 1 }
    if c.remoteBlockchainHeight < c.lastResponseHeight then .inl c
    else
      let nUseBlocks := (prevalidateBlockHashes ops pre v.chain arg.startHeight arg.blockIds
        v.blocksHashCheck).1
      if nUseBlocks + UInt64.ofNat pre.step ≤ size then .inl c
      else
        .inr ⟨arg.startHeight, ids, nUseBlocks,
          { c with
            neededObjects := pushNeeded nUseBlocks 0 ids c.neededObjects
            lastResponseHeight := c.lastResponseHeight - (size - nUseBlocks) }⟩

def handleResponseChainEntry (v : SyncView β) (arg : ChainEntry) (c : SyncContext) :
    SyncContext :=
  match enterChain ops pre v arg c with
  | .inl c => c
  | .inr call => (call.context.requestMissingObjects v false).context

inductive AddEnd
  /-- The node stops, or a block was refused. -/
  | gaveUp
  /-- Another connection adds blocks. -/
  | noLock
  /-- A block has a parent that nobody asked for. -/
  | unknownParent
  | drained
  deriving DecidableEq

def tryAddNextBlocks (v : SyncView β) (ended : AddEnd) (c : SyncContext) : SyncContext :=
  match ended with
  | .gaveUp => c
  | .noLock => (c.requestMissingObjects v false).context
  | .unknownParent => (c.forget.requestMissingObjects v false).context
  | .drained =>
      if v.shouldDownloadNextSpan then (c.forget.requestMissingObjects v true).context
      else (c.requestMissingObjects v false).context

/-- `NOTIFY_RESPONSE_GET_OBJECTS`: the ids of the blocks, up to one that does not pass. -/
structure Objects where
  currentBlockchainHeight : UInt64
  blocks : List Hash
  allPass : Bool

/-- The blocks are struck from the requested objects, up to one that was not requested. -/
def strikeObjects : List Hash → Finset Hash → Bool × Finset Hash
  | [], requested => (true, requested)
  | h :: blocks, requested =>
      if h ∈ requested then strikeObjects blocks (requested.erase h) else (false, requested)

def handleResponseGetObjects (v : SyncView β) (arg : Objects) (ended : AddEnd)
    (c : SyncContext) : SyncContext :=
  if arg.currentBlockchainHeight < c.lastResponseHeight then c
  else
    let struck := strikeObjects arg.blocks c.requestedObjects
    let c := { c with
      remoteBlockchainHeight := arg.currentBlockchainHeight
      requestedObjects := struck.2 }
    if struck.1 = false ∨ arg.allPass = false ∨ struck.2 ≠ ∅ then c
    else
      match arg.blocks.getLast? with
      | none => c.tryAddNextBlocks v ended
      | some last =>
          if v.haveBlock last then c.tryAddNextBlocks v ended
          else { c with lastKnownHash := last }.tryAddNextBlocks v ended

end SyncContext

open SyncContext

inductive SyncOp (β : Type)
  | chainEntry (v : SyncView β) (arg : ChainEntry)
  | objects (v : SyncView β) (arg : Objects) (ended : AddEnd)
  /-- The callback of a connection that waits. -/
  | callback (v : SyncView β) (ended : AddEnd)
  /-- The handlers of other messages, which leave the hashes and their height. -/
  | other (state : ConnectionState) (requested : Finset Hash) (remoteHeight : UInt64)
      (lastKnown : Hash)

variable (ops : CryptoOps) (pre : PrecomputedHashes)

def syncStep (c : SyncContext) : SyncOp β → SyncContext
  | .chainEntry v arg => handleResponseChainEntry ops pre v arg c
  | .objects v arg ended => handleResponseGetObjects v arg ended c
  | .callback v ended => tryAddNextBlocks v ended c
  | .other state requested remoteHeight lastKnown =>
      { c with
        state := state
        requestedObjects := requested
        remoteBlockchainHeight := remoteHeight
        lastKnownHash := lastKnown }

/-- The call of `request_missing_objects` that a chain entry leads to. -/
def entryCall (c : SyncContext) : SyncOp β → Option EntryCall
  | .chainEntry v arg => (enterChain ops pre v arg c).getRight?
  | _ => none

/-- The needed objects are the usable ids of the message, and the last height is the one of
the last of them. -/
structure SyncContext.EntryCall.Consistent (call : EntryCall) : Prop where
  needed : call.context.neededObjects = call.blockIds.take call.nUseBlocks.toNat
  last : call.context.lastResponseHeight.toNat + 1 =
    call.startHeight.toNat + call.context.neededObjects.length
  /-- The height of every element, counted from the last one. -/
  heights : ∀ j < call.context.neededObjects.length,
    call.context.neededObjects.length ≤ call.context.lastResponseHeight.toNat + 1 ∧
      call.context.lastResponseHeight.toNat + 1 - call.context.neededObjects.length + j =
        call.startHeight.toNat + j

/-! ### The context of a chain entry -/

theorem toNat_ofNat_of_lt {n : ℕ} (h : n < 2 ^ 64) : (UInt64.ofNat n).toNat = n :=
  UInt64.toNat_ofNat_of_lt' h

theorem pushNeeded_eq (nUseBlocks : UInt64) (added : ℕ) (ids needed : List Hash)
    (hlt : added + ids.length < 2 ^ 64) (hle : nUseBlocks.toNat ≤ added → nUseBlocks = 0) :
    pushNeeded nUseBlocks (UInt64.ofNat added) ids needed =
      needed ++ if nUseBlocks = 0 then ids else ids.take (nUseBlocks.toNat - added) := by
  induction ids generalizing added needed with
  | nil => simp [pushNeeded]
  | cons id ids ih =>
      rw [List.length_cons] at hlt
      have hadded : (UInt64.ofNat added + 1).toNat = added + 1 := by
        rw [UInt64.toNat_add, toNat_ofNat_of_lt (by omega), UInt64.toNat_one,
          Nat.mod_eq_of_lt (by omega)]
      have hnext : UInt64.ofNat added + 1 = UInt64.ofNat (added + 1) := (UInt64.ofNat_add _ _).symm
      rw [pushNeeded]
      by_cases hlast : UInt64.ofNat added + 1 = nUseBlocks
      · have hne : nUseBlocks ≠ 0 := by
          intro hzero
          rw [← hlast] at hzero
          rw [hzero] at hadded
          exact absurd hadded (by simp)
        rw [if_pos hlast, if_neg hne, ← hlast, hadded, Nat.add_sub_cancel_left, List.take_one,
          List.head?_cons, Option.toList_some]
      · have hne : nUseBlocks.toNat ≠ added + 1 := by
          intro heq
          rw [← hadded, UInt64.toNat_inj] at heq
          exact hlast heq.symm
        rw [if_neg hlast, hnext, ih (added + 1) (needed ++ [id]) (by omega) (by
          intro hle'
          exact hle (by omega)), List.append_assoc, List.singleton_append]
        by_cases hzero : nUseBlocks = 0
        · rw [if_pos hzero, if_pos hzero]
        · have hmore : added + 1 < nUseBlocks.toNat := by
            by_contra hnot
            exact hzero (hle (by omega))
          rw [if_neg hzero, if_neg hzero,
            show nUseBlocks.toNat - added = nUseBlocks.toNat - (added + 1) + 1 by omega,
            List.take_succ_cons]

/-- A chain entry that reaches the request appends its usable ids to what is needed already.
With none usable, it appends all of them. -/
theorem enterChain_eq {v : SyncView β} {arg : ChainEntry} {c : SyncContext} {call : EntryCall}
    (h : enterChain ops pre v arg c = .inr call) :
    call.startHeight = arg.startHeight ∧ call.blockIds = arg.blockIds.toList ∧
      call.blockIds ≠ [] ∧ call.startHeight.toNat + call.blockIds.length < 2 ^ 64 ∧
      call.nUseBlocks = (prevalidateBlockHashes ops pre v.chain arg.startHeight arg.blockIds
        v.blocksHashCheck).1 ∧
      call.nUseBlocks.toNat ≤ call.blockIds.length ∧
      call.context.neededObjects = c.neededObjects ++
        (if call.nUseBlocks = 0 then call.blockIds
          else call.blockIds.take call.nUseBlocks.toNat) ∧
      (call.nUseBlocks ≠ 0 → call.context.lastResponseHeight.toNat + 1 =
        call.startHeight.toNat + call.nUseBlocks.toNat) := by
  have hsize := arg.blockIds.size_lt
  have hcount : (UInt64.ofNat arg.blockIds.toList.length).toNat = arg.blockIds.toList.length :=
    toNat_ofNat_of_lt (by omega)
  have huse : (prevalidateBlockHashes ops pre v.chain arg.startHeight arg.blockIds
      v.blocksHashCheck).1.toNat ≤ arg.blockIds.toList.length :=
    prevalidateBlockHashes_le v.chain arg.startHeight arg.blockIds v.blocksHashCheck
  simp only [enterChain] at h
  split_ifs at h with hids hover hremote hstep
  have hfits : arg.startHeight.toNat + arg.blockIds.toList.length ≤ arg.totalHeight.toNat := by
    rw [not_or, UInt64.not_lt, UInt64.not_lt] at hover
    have hle := UInt64.le_iff_toNat_le.mp hover.2
    rw [UInt64.toNat_sub_of_le _ _ hover.1, hcount] at hle
    have hle' := UInt64.le_iff_toNat_le.mp hover.1
    omega
  have htotal := arg.totalHeight.toNat_lt
  obtain rfl := Sum.inr.inj h
  set nUse := (prevalidateBlockHashes ops pre v.chain arg.startHeight arg.blockIds
    v.blocksHashCheck).1 with hnUse
  refine ⟨rfl, rfl, hids, Nat.lt_of_le_of_lt hfits htotal, rfl, huse, ?_, ?_⟩
  · have hpush := pushNeeded_eq nUse 0 arg.blockIds.toList c.neededObjects (by omega)
      (fun hle => UInt64.toNat_inj.mp (Nat.le_zero.mp hle))
    rw [Nat.sub_zero] at hpush
    exact hpush
  · intro hne
    have hpos : nUse.toNat ≠ 0 := fun hzero => hne (UInt64.toNat_inj.mp hzero)
    -- The two subtractions wrap for no usable id at height 0 only.
    show (arg.startHeight + UInt64.ofNat arg.blockIds.toList.length - 1 -
      (UInt64.ofNat arg.blockIds.toList.length - nUse)).toNat + 1 = _
    simp only [UInt64.toNat_sub, UInt64.toNat_add, hcount, UInt64.toNat_one]
    omega

/-- The calls for which the context is what the heights of the queue are counted from. -/
theorem consistent_iff {v : SyncView β} {arg : ChainEntry} {c : SyncContext} {call : EntryCall}
    (h : enterChain ops pre v arg c = .inr call) :
    call.Consistent ↔ c.neededObjects = [] ∧ (prevalidateBlockHashes ops pre v.chain
      arg.startHeight arg.blockIds v.blocksHashCheck).1 ≠ 0 := by
  obtain ⟨-, -, hids, hfits, huse, hle, hneeded, hlast⟩ := enterChain_eq ops pre h
  rw [← huse]
  constructor
  · intro hcons
    have hlen := congrArg List.length (hneeded.symm.trans hcons.needed)
    rw [List.length_append, List.length_take, Nat.min_eq_left hle] at hlen
    by_cases hzero : call.nUseBlocks = 0
    · rw [if_pos hzero, hzero] at hlen
      have hnone : call.blockIds.length = 0 := Nat.eq_zero_of_add_eq_zero_left hlen
      exact absurd (List.length_eq_zero_iff.mp hnone) hids
    · rw [if_neg hzero, List.length_take, Nat.min_eq_left hle] at hlen
      exact ⟨List.length_eq_zero_iff.mp (by omega), hzero⟩
  · rintro ⟨hempty, hne⟩
    rw [hempty, if_neg hne, List.nil_append] at hneeded
    have hlen : call.context.neededObjects.length = call.nUseBlocks.toNat := by
      rw [hneeded, List.length_take, Nat.min_eq_left hle]
    have hheight := hlast hne
    exact ⟨hneeded, by rw [hlen, hheight], fun j hj => by omega⟩

/-! ### What is left needed -/

/-! ### Every run of messages -/

/-- A chain entry that reaches the request finds no object that is still needed, and some of
its ids are usable. -/
def EntryInTurn (op : SyncOp β) (c : SyncContext) : Prop :=
  match op with
  | .chainEntry v arg => (enterChain ops pre v arg c).isRight →
      c.neededObjects = [] ∧ (prevalidateBlockHashes ops pre v.chain arg.startHeight arg.blockIds
        v.blocksHashCheck).1 ≠ 0
  | _ => True

theorem entryCall_consistent_iff (c : SyncContext) (op : SyncOp β) :
    (∀ call ∈ entryCall ops pre c op, call.Consistent) ↔ EntryInTurn ops pre op c := by
  cases op with
  | chainEntry v arg =>
      cases hcall : enterChain ops pre v arg c with
      | inl c' => simp [entryCall, EntryInTurn, hcall]
      | inr call =>
          have hiff := consistent_iff ops pre hcall
          simpa [entryCall, EntryInTurn, hcall] using hiff
  | objects v arg ended => simp [entryCall, EntryInTurn]
  | callback v ended => simp [entryCall, EntryInTurn]
  | other state requested remoteHeight lastKnown => simp [entryCall, EntryInTurn]

/-- Whatever the peer sends in whatever order, the calls of `request_missing_objects` find the
hashes of their own message exactly when every chain entry comes in turn. -/
theorem entryCalls_consistent (c : SyncContext) (msgs : List (SyncOp β)) :
    (∀ done op, done ++ [op] <+: msgs →
        ∀ call ∈ entryCall ops pre (Data.run (syncStep ops pre) c done) op, call.Consistent) ↔
      ∀ done op, done ++ [op] <+: msgs →
        EntryInTurn ops pre op (Data.run (syncStep ops pre) c done) := by
  constructor
  · intro hall done op hdone
    exact (entryCall_consistent_iff ops pre _ op).mp (hall done op hdone)
  · intro hall done op hdone
    exact (entryCall_consistent_iff ops pre _ op).mpr (hall done op hdone)

def noHashes : PrecomputedHashes := ⟨256, [], by decide, by decide⟩

/-- A node with an empty queue that asks for one block at a time. -/
def startView : SyncView Unit where
  chain := []
  blocksHashCheck := []
  haveBlock := fun _ => false
  queue := BlockQueue.empty
  liveConnections := []
  ownsSyncLock := true
  shouldDownloadNextSpan := false
  countLimit := 1
  shortChainHistory := []
  time := none

def startContext : SyncContext := ⟨nilUuid, .synchronizing, [], ∅, 0, 0, nullHash⟩

def twoBlocks : ChainEntry :=
  ⟨0, 2, ⟨[nullHash, List.Vector.replicate 32 1], by decide⟩⟩

theorem twoBlocks_needed :
    (syncStep pairOps noHashes startContext (.chainEntry startView twoBlocks)).neededObjects =
      [List.Vector.replicate 32 1] := by
  decide

/-- The same message twice: the second one finds an id of the first. -/
theorem repeated_entry_inconsistent :
    ∃ call ∈ entryCall pairOps noHashes
        (Data.run (syncStep pairOps noHashes) startContext [.chainEntry startView twoBlocks])
        (.chainEntry startView twoBlocks), ¬ call.Consistent := by
  by_contra hnone
  push Not at hnone
  have hturn := (entryCall_consistent_iff pairOps noHashes _ _).mp hnone
  have hneeded := (hturn (by decide)).1
  rw [Data.run, List.foldl_cons, List.foldl_nil, twoBlocks_needed] at hneeded
  exact List.cons_ne_nil _ _ hneeded

end XrCoin.Protocol

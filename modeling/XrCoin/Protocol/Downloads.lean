import XrCoin.Protocol.FluffyBlock
import XrCoin.Protocol.Requested

/-!
`handle_response_get_objects`: the blocks that a peer delivers, and the span of the queue that
they come into.

A run keeps beside the state of the node which hashes every connection was asked for, and from
which height on. The code keeps only their set, and takes the height from the blocks that come.
The loop of `try_add_next_blocks` and the handlers of other messages are steps of their own.
-/

namespace XrCoin.Protocol

open Cryptonote Data

abbrev DownloadQueue : Type := BlockQueue BlockCompleteEntry

/-! ### Requests -/

namespace SyncContext

variable {β : Type}

def requestObjectsSpan (v : SyncView β) (queue : BlockQueue β) (forceNextSpan : Bool)
    (c : SyncContext) : UInt64 × BlockQueue β :=
  let next := queue.getNextSpanIfScheduled
  if forceNextSpan ∧ 0 < next.1.2 then (next.1.1, queue)
  else if c.lastResponseHeight + 1 < UInt64.ofNat c.neededObjects.length then (0, queue)
  else
    let c := c.dropKnown v
    let reserved := queue.reserveSpan c.firstHeight c.lastResponseHeight v.countLimit
      c.connectionId c.neededObjects v.time
    if 0 < reserved.1.2 then (reserved.1.1, reserved.2)
    else if forceNextSpan = false ∧ 0 < next.1.2 then (next.1.1, reserved.2)
    else (0, reserved.2)

/-- The height of the span that `request_missing_objects` asks for, and the queue it leaves. -/
def requestMissingSpan (v : SyncView β) (forceNextSpan : Bool) (c : SyncContext) :
    UInt64 × BlockQueue β :=
  let queue := v.queue.flushStaleSpans v.liveConnections
  let wait := forceNextSpan = false ∧ queueFull queue ∧ v.ownsSyncLock = false
  if wait ∧ v.shouldDownloadNextSpan = false then (0, queue)
  else
    let forceNextSpan := forceNextSpan || decide wait
    if c.neededObjects = [] ∧ forceNextSpan = false then (0, queue)
    else
      let gap := queue.getStartGapSpan
      if 0 < gap.2 then (gap.1, queue)
      else c.requestObjectsSpan v queue forceNextSpan

end SyncContext

structure ObjectRequest where
  startHeight : UInt64
  hashes : List Hash

def objectRequests (startHeight : UInt64) (sent : List Sent) : List ObjectRequest :=
  sent.filterMap fun
    | .requestGetObjects blocks => some ⟨startHeight, blocks⟩
    | .requestChain _ => none

/-! ### Responses -/

/-- `NOTIFY_RESPONSE_GET_OBJECTS`. The transactions of their own and the missed ids count for
the speed only. -/
structure GetObjectsResponse where
  blocks : List BlockCompleteEntry
  currentBlockchainHeight : UInt64

structure ResponseView where
  stopping : Bool
  haveBlock : Hash → Bool
  rate : Float

/-- The context and the queue that the handler leaves, before a drop of the connection. -/
structure ResponseResult where
  context : SyncContext
  queue : DownloadQueue
  dropped : Bool
  /-- The height with which `add_blocks` was called. -/
  added : Option UInt64

/-- `std::numeric_limits<uint64_t>::max()`. -/
def noHeight : UInt64 := 0xffffffffffffffff

def emptyBlock : Block :=
  ⟨⟨0, 0, 0, nullHash, 0⟩, ⟨⟨1, 0, 0, .nil, .nil, .nil⟩, .nil, default, default⟩, .nil⟩

/-- The height that a block with exactly one input, a `txin_gen`, declares. -/
def genHeight (b : Block) : Option UInt64 :=
  match b.minerTx.vin.toList with
  | [.gen height] => some height
  | _ => none

def blobSize (blob : List UInt8) : UInt64 := UInt64.ofNat blob.length

def blocksSize (blocks : List BlockCompleteEntry) : UInt64 :=
  (blocks.map fun element => blobSize element.block + (element.txs.map blobSize).sum).sum

section

variable (ops : CryptoOps) (cfg : Config)

def blockId (b : Block) : Hash := (getBlockHash ops cfg b).getD nullHash

/-- The loop over the blocks: what is still requested after it, the height it starts from and
the last block. None where the connection is dropped. -/
def receiveBlocks : UInt64 → Finset Hash → Block → List BlockCompleteEntry →
    Finset Hash × Option (UInt64 × Block)
  | startHeight, requested, b, [] => (requested, some (startHeight, b))
  | startHeight, requested, _, blockEntry :: blocks =>
      match parseAndValidateBlockFromBlob cfg blockEntry.block with
      | none => (requested, none)
      | some b =>
          match genHeight b with
          | none => (requested, none)
          | some height =>
              let startHeight := if startHeight = noHeight then height else startHeight
              if blockId ops cfg b ∉ requested then (requested, none)
              else if b.txHashes.toList.length ≠ blockEntry.txs.length then (requested, none)
              else receiveBlocks startHeight (requested.erase (blockId ops cfg b)) b blocks

/-- The handler up to its call of `try_add_next_blocks`. -/
def receiveObjects (view : ResponseView) (arg : GetObjectsResponse) (q : DownloadQueue)
    (c : SyncContext) : ResponseResult :=
  if arg.currentBlockchainHeight < c.lastResponseHeight then ⟨c, q, true, none⟩
  else
    let c := { c with remoteBlockchainHeight := arg.currentBlockchainHeight }
    if view.stopping ∧ arg.blocks ≠ [] then ⟨c, q, false, none⟩
    else
      let received := receiveBlocks ops cfg noHeight c.requestedObjects emptyBlock arg.blocks
      let c := { c with requestedObjects := received.1 }
      match received.2 with
      | none => ⟨c, q, true, none⟩
      | some (startHeight, b) =>
          if received.1 ≠ ∅ then ⟨c, q, true, none⟩
          else
            let lastBlockHash := blockId ops cfg b
            if view.haveBlock lastBlockHash then
              ⟨c, q.removeSpans c.connectionId startHeight, false, none⟩
            else
              ⟨{ c with lastKnownHash := lastBlockHash },
                q.addBlocks startHeight arg.blocks c.connectionId view.rate
                  (blocksSize arg.blocks), false, some startHeight⟩

end

/-! ### Runs -/

structure Downloads where
  queue : DownloadQueue
  contexts : Uuid → SyncContext
  dropped : Finset Uuid
  outstanding : Uuid → List ObjectRequest

inductive DownloadOp
  /-- `request_missing_objects`. -/
  | request (connectionId : Uuid) (v : SyncView BlockCompleteEntry) (forceNextSpan : Bool)
  | response (connectionId : Uuid) (view : ResponseView) (arg : GetObjectsResponse)
  /-- The handlers of other messages, which leave the requested objects. -/
  | other (connectionId : Uuid) (state : ConnectionState) (neededObjects : List Hash)
      (remoteBlockchainHeight lastResponseHeight : UInt64) (lastKnownHash : Hash)
  /-- The loop of `try_add_next_blocks` is done with a span. -/
  | done (spanConnectionId : Uuid) (startHeight : UInt64)
  /-- The connection is dropped for another reason. -/
  | close (connectionId : Uuid) (flushAllSpans : Bool)

namespace Downloads

def drop (s : Downloads) (connectionId : Uuid) (flushAllSpans : Bool) : Downloads :=
  { s with
    queue := s.queue.flushSpans connectionId flushAllSpans
    dropped := insert connectionId s.dropped }

def setContext (s : Downloads) (connectionId : Uuid) (c : SyncContext) : Downloads :=
  { s with contexts := Function.update s.contexts connectionId c }

def setOutstanding (s : Downloads) (connectionId : Uuid) (requests : List ObjectRequest) :
    Downloads :=
  { s with outstanding := Function.update s.outstanding connectionId requests }

/-- A request of a connection, which is dropped where the request fails. -/
def request (s : Downloads) (connectionId : Uuid) (v : SyncView BlockCompleteEntry)
    (forceNextSpan : Bool) : Downloads :=
  let v := { v with queue := s.queue }
  let c := s.contexts connectionId
  let r := c.requestMissingObjects v forceNextSpan
  let span := c.requestMissingSpan v forceNextSpan
  let s := { (s.setContext connectionId r.context) with queue := span.2 }
  let s := s.setOutstanding connectionId
    (s.outstanding connectionId ++ objectRequests span.1 r.sent)
  if r.ok then s else s.drop connectionId false

variable (ops : CryptoOps) (cfg : Config)

/-- A response. When all that is on record has come, nothing is outstanding. -/
def handleResponseGetObjects (s : Downloads) (connectionId : Uuid) (view : ResponseView)
    (arg : GetObjectsResponse) : Downloads :=
  let r := receiveObjects ops cfg view arg s.queue (s.contexts connectionId)
  let s := { (s.setContext connectionId r.context) with queue := r.queue }
  let s := if r.context.requestedObjects = ∅ then s.setOutstanding connectionId [] else s
  if r.dropped then s.drop connectionId false else s

def step (s : Downloads) : DownloadOp → Downloads
  | .request connectionId v forceNextSpan =>
      if connectionId ∈ s.dropped then s else s.request connectionId v forceNextSpan
  | .response connectionId view arg =>
      if connectionId ∈ s.dropped then s
      else s.handleResponseGetObjects ops cfg connectionId view arg
  | .other connectionId state neededObjects remoteBlockchainHeight lastResponseHeight
      lastKnownHash =>
      s.setContext connectionId
        { s.contexts connectionId with
          state, neededObjects, remoteBlockchainHeight, lastResponseHeight, lastKnownHash }
  | .done spanConnectionId startHeight =>
      { s with queue := s.queue.removeSpans spanConnectionId startHeight }
  | .close connectionId flushAllSpans => s.drop connectionId flushAllSpans

/-- Nothing is queued, and nothing was asked for. -/
def start : Downloads where
  queue := .empty
  contexts connectionId := ⟨connectionId, .synchronizing, [], ∅, 0, 0, nullHash⟩
  dropped := ∅
  outstanding _ := []

end Downloads

/-! ### What is recorded of a request -/

namespace SyncContext

variable {β : Type}

def Records (startHeight : UInt64) (c : SyncContext) (r : Requested) : Prop :=
  (∀ h, h ∈ r.context.requestedObjects ↔ h ∈ c.requestedObjects ∨
    ∃ request ∈ objectRequests startHeight r.sent, h ∈ request.hashes) ∧
  r.context.connectionId = c.connectionId

theorem records_nothing {startHeight : UInt64} {c : SyncContext} {r : Requested}
    (hreq : r.context.requestedObjects = c.requestedObjects)
    (hconn : r.context.connectionId = c.connectionId)
    (hsent : objectRequests startHeight r.sent = []) : Records startHeight c r := by
  refine ⟨fun h => ?_, hconn⟩
  rw [hreq, hsent]
  simp

theorem records_blocks {startHeight : UInt64} {c : SyncContext} {r : Requested}
    {blocks : List Hash}
    (hreq : r.context.requestedObjects = BlockQueue.insertHashes c.requestedObjects blocks)
    (hconn : r.context.connectionId = c.connectionId)
    (hsent : r.sent = [.requestGetObjects blocks]) : Records startHeight c r := by
  refine ⟨fun h => ?_, hconn⟩
  rw [hreq, hsent, BlockQueue.mem_insertHashes]
  simp [objectRequests]

theorem requestChain_records (startHeight : UInt64) (v : SyncView β) (c : SyncContext) :
    Records startHeight c (c.requestChain v) := by
  rw [requestChain]
  split_ifs <;> exact records_nothing rfl rfl rfl

theorem requestNext_records (startHeight : UInt64) (hashes : List Hash) (c : SyncContext) :
    Records startHeight c (c.requestNext hashes) :=
  records_blocks rfl rfl rfl

theorem requestSpan_records (startHeight : UInt64) (span : UInt64 × UInt64) (c : SyncContext) :
    Records startHeight c (c.requestSpan span) := by
  simp only [requestSpan]
  split_ifs
  · exact records_nothing rfl rfl rfl
  · exact records_nothing rfl rfl rfl
  · exact records_blocks rfl rfl rfl

theorem requestObjects_records (startHeight : UInt64) (v : SyncView β) (queue : BlockQueue β)
    (forceNextSpan : Bool) (c : SyncContext) :
    Records startHeight c (c.requestObjects v queue forceNextSpan) := by
  simp only [requestObjects]
  split_ifs
  · exact requestNext_records startHeight _ c
  · exact requestChain_records startHeight v c.forget
  · exact requestSpan_records startHeight _ (c.dropKnown v)
  · exact requestNext_records startHeight _ { c.dropKnown v with neededObjects := _ }
  · exact requestChain_records startHeight v (c.dropKnown v)

theorem requestMissingObjects_records (startHeight : UInt64) (v : SyncView β)
    (forceNextSpan : Bool) (c : SyncContext) :
    Records startHeight c (c.requestMissingObjects v forceNextSpan) := by
  have hsame : ∀ c' : SyncContext,
      (if forceNextSpan then c else { c with state := .synchronizing }) = c' →
      ∀ r, Records startHeight c' r → Records startHeight c r := by
    rintro _ rfl r hr
    split_ifs at hr <;> exact hr
  simp only [requestMissingObjects]
  generalize hc : (if forceNextSpan then c else { c with state := .synchronizing }) = c'
  have hrec := hsame c' hc
  split_ifs
  · exact records_nothing rfl rfl rfl
  · exact hrec _ (requestChain_records startHeight v c')
  · exact hrec _ (requestChain_records startHeight v c'.forget)
  · exact hrec _ (requestSpan_records startHeight _ c')
  · exact hrec _ (requestObjects_records startHeight v _ _ c')

end SyncContext

/-! ### The queue -/

namespace BlockQueue

variable {β : Type}

theorem mem_removeSpan {q : BlockQueue β} {height : UInt64} {t : Span β} :
    t ∈ (q.removeSpan height).2.blocks ↔ t ∈ q.blocks ∧ t.startBlockHeight ≠ height := by
  rw [removeSpan]
  cases hfind : q.blocks.elems.find? fun i => decide (i.startBlockHeight = height) with
  | none =>
      refine ⟨fun ht => ⟨ht, fun hstart => ?_⟩, And.left⟩
      exact absurd (decide_eq_true hstart) (List.find?_eq_none.mp hfind t ht)
  | some i =>
      have hstart : i.startBlockHeight = height := by simpa using List.find?_some hfind
      change t ∈ q.blocks.erase i ↔ _
      rw [← hstart, OrderedSet.mem_erase, ne_eq, Span.key_eq_iff]

/-- The filled span is in the queue, and it is the only one at its height. -/
theorem addBlocks_spec (q : BlockQueue β) (height : UInt64) (bcel : List β)
    (connectionId : Uuid) (rate : Float) (size : UInt64) :
    (∃ t ∈ (q.addBlocks height bcel connectionId rate size).blocks,
      t.startBlockHeight = height) ∧
    ∀ t ∈ (q.addBlocks height bcel connectionId rate size).blocks,
      t.startBlockHeight = height → t.connectionId = connectionId ∧ t.blocks = bcel := by
  set filled : Span β := .filled height bcel connectionId rate size with hfilled
  have hmem : ∀ t, t ∈ (q.removeSpan height).2.blocks.insert filled ↔
      (t ∈ q.blocks ∧ t.startBlockHeight ≠ height) ∨ t = filled := by
    intro t
    rw [OrderedSet.mem_insert, mem_removeSpan]
    refine or_congr_right (and_iff_left ?_)
    intro s hs hkey
    exact (mem_removeSpan.mp hs).2 (Span.key_eq_iff.mp hkey)
  have hin : filled ∈ (q.removeSpan height).2.blocks.insert filled := (hmem filled).mpr (Or.inr rfl)
  have honly : ∀ t ∈ (q.removeSpan height).2.blocks.insert filled,
      t.startBlockHeight = height → t = filled := by
    intro t ht hstart
    exact ((hmem t).mp ht).resolve_left fun hold => hold.2 hstart
  rw [addBlocks]
  cases hremoved : (q.removeSpan height).1 with
  | none =>
      refine ⟨⟨filled, hin, rfl⟩, fun t ht hstart => ?_⟩
      rw [honly t ht hstart]
      exact ⟨rfl, rfl⟩
  | some hashes =>
      dsimp only
      rcases setSpanHashes_cases
          ⟨(q.removeSpan height).2.blocks.insert filled,
            insertHashes (q.removeSpan height).2.requestedHashes hashes⟩
          height connectionId hashes with
        ⟨-, hnone⟩ | ⟨i, hi, histart, -, hblocks, -⟩
      · exact absurd rfl (hnone filled hin rfl)
      · obtain rfl := honly i hi histart
        refine ⟨⟨_, (hblocks _).mpr (Or.inr rfl), rfl⟩, fun t ht hstart => ?_⟩
        rcases (hblocks t).mp ht with ⟨-, hother⟩ | rfl
        · exact absurd hstart hother
        · exact ⟨rfl, rfl⟩

/-- The walk that erases leaves the queue as it is where nothing is to be erased. -/
theorem removeSpans_eq_self_iff {q : BlockQueue β} {connectionId : Uuid}
    {startBlockHeight : UInt64} :
    q.removeSpans connectionId startBlockHeight = q ↔
      ∀ t ∈ q.blocks, t.connectionId = connectionId → startBlockHeight < t.startBlockHeight := by
  constructor
  · intro heq t ht hconn
    by_contra hle
    rw [UInt64.not_lt] at hle
    rw [← heq, removeSpans, (eraseSpans_spec _ q q.blocks.elems).1] at ht
    exact ht.2 t ht.1 (by simp [hconn, hle]) rfl
  · intro hnone
    have hwalk : ∀ spans : List (Span β), (∀ t ∈ spans, t.connectionId = connectionId →
        startBlockHeight < t.startBlockHeight) →
        eraseSpans (fun j => decide (j.connectionId = connectionId) &&
          decide (j.startBlockHeight ≤ startBlockHeight)) q spans = q := by
      intro spans hspans
      induction spans with
      | nil => rfl
      | cons t spans ih =>
          have hkept : ¬(decide (t.connectionId = connectionId) &&
              decide (t.startBlockHeight ≤ startBlockHeight)) = true := by
            rw [Bool.and_eq_true, decide_eq_true_eq, decide_eq_true_eq]
            rintro ⟨hconn, hle⟩
            exact UInt64.not_lt.mpr hle (hspans t List.mem_cons_self hconn)
          rw [eraseSpans, List.foldl_cons, if_neg hkept]
          exact ih fun u hu => hspans u (List.mem_cons_of_mem t hu)
    exact hwalk _ hnone

end BlockQueue

/-! ### The loop over the blocks -/

section

variable (ops : CryptoOps) (cfg : Config)

/-- An element of a response in which the loop finds no fault. -/
structure EntryPasses (blockEntry : BlockCompleteEntry) (b : Block) : Prop where
  parsed : parseAndValidateBlockFromBlob cfg blockEntry.block = some b
  height : (genHeight b).isSome = true
  txs : b.txHashes.toList.length = blockEntry.txs.length

def declaredHeight (bs : List Block) : UInt64 :=
  ((bs.filterMap genHeight).find? fun height => decide (height ≠ noHeight)).getD noHeight

structure Passes (view : ResponseView) (arg : GetObjectsResponse) (c : SyncContext)
    (bs : List Block) : Prop where
  height : c.lastResponseHeight ≤ arg.currentBlockchainHeight
  running : ¬(view.stopping = true ∧ arg.blocks ≠ [])
  entries : List.Forall₂ (EntryPasses cfg) arg.blocks bs
  nodup : (bs.map (blockId ops cfg)).Nodup
  all : (bs.map (blockId ops cfg)).toFinset = c.requestedObjects

variable {ops cfg}

theorem declaredHeight_cons {b : Block} {bs : List Block} {height : UInt64}
    (h : genHeight b = some height) :
    declaredHeight (b :: bs) = if height = noHeight then declaredHeight bs else height := by
  rw [declaredHeight, List.filterMap_cons_some h, List.find?_cons]
  by_cases hno : height = noHeight
  · simp [hno, declaredHeight]
  · simp [hno]

theorem receiveBlocks_iff {startHeight startHeight' : UInt64} {requested : Finset Hash}
    {b b' : Block} {blocks : List BlockCompleteEntry} :
    receiveBlocks ops cfg startHeight requested b blocks = (∅, some (startHeight', b')) ↔
      ∃ bs, List.Forall₂ (EntryPasses cfg) blocks bs ∧
        ((bs.map (blockId ops cfg)).Nodup ∧ (bs.map (blockId ops cfg)).toFinset = requested) ∧
        startHeight' = (if startHeight = noHeight then declaredHeight bs else startHeight) ∧
        b' = bs.getLastD b := by
  induction blocks generalizing startHeight requested b with
  | nil =>
      rw [receiveBlocks, Prod.mk.injEq, Option.some.injEq, Prod.mk.injEq]
      constructor
      · rintro ⟨rfl, rfl, rfl⟩
        refine ⟨[], .nil, ⟨List.nodup_nil, rfl⟩, ?_, rfl⟩
        split_ifs with hno
        · exact hno
        · rfl
      · rintro ⟨bs, hentries, ⟨-, hall⟩, hstart, hlast⟩
        cases hentries
        refine ⟨hall.symm, ?_, hlast.symm⟩
        rw [hstart]
        split_ifs with hno
        · exact hno
        · rfl
  | cons blockEntry blocks ih =>
      rw [receiveBlocks]
      cases hparse : parseAndValidateBlockFromBlob cfg blockEntry.block with
      | none =>
          refine iff_of_false (fun h => by simp at h) ?_
          rintro ⟨bs, hentries, -⟩
          cases hentries with
          | cons hentry _ => exact nomatch hparse.symm.trans hentry.parsed
      | some first =>
          dsimp only
          have hfirst : ∀ {x : Block} {bs : List Block},
              List.Forall₂ (EntryPasses cfg) (blockEntry :: blocks) (x :: bs) → x = first := by
            intro x bs hentries
            have hparsed := (List.forall₂_cons.mp hentries).1.parsed
            rw [hparse, Option.some.injEq] at hparsed
            exact hparsed.symm
          cases hgen : genHeight first with
          | none =>
              refine iff_of_false (fun h => by simp at h) ?_
              rintro ⟨bs, hentries, -⟩
              cases hentries with
              | @cons _ x _ bs hentry hrest =>
                  have hheight := hentry.height
                  rw [hfirst (.cons hentry hrest), hgen] at hheight
                  cases hheight
          | some height =>
              dsimp only
              by_cases hmem : blockId ops cfg first ∉ requested
              · rw [if_pos hmem]
                refine iff_of_false (fun h => by simp at h) ?_
                rintro ⟨bs, hentries, hall, -⟩
                cases hentries with
                | @cons _ x _ bs hentry hrest =>
                    rw [hfirst (.cons hentry hrest), List.map_cons, struck_iff] at hall
                    exact hmem hall.1
              by_cases htxs : first.txHashes.toList.length ≠ blockEntry.txs.length
              · rw [if_neg hmem, if_pos htxs]
                refine iff_of_false (fun h => by simp at h) ?_
                rintro ⟨bs, hentries, -⟩
                cases hentries with
                | @cons _ x _ bs hentry hrest =>
                    have hcount := hentry.txs
                    rw [hfirst (.cons hentry hrest)] at hcount
                    exact htxs hcount
              rw [not_not] at hmem htxs
              rw [if_neg (not_not.mpr hmem), if_neg (not_not.mpr htxs), ih]
              -- The height is fixed by the first block that declares one.
              have hstart : ∀ bs, (if (if startHeight = noHeight then height else startHeight) =
                  noHeight then declaredHeight bs
                  else if startHeight = noHeight then height else startHeight) =
                  if startHeight = noHeight then declaredHeight (first :: bs) else startHeight := by
                intro bs
                rw [declaredHeight_cons hgen]
                split_ifs <;> simp_all
              constructor
              · rintro ⟨bs, hentries, hall, heq, hlast⟩
                refine ⟨first :: bs, .cons ⟨hparse, by rw [hgen]; rfl, htxs⟩ hentries, ?_, ?_, ?_⟩
                · rw [List.map_cons, struck_iff]
                  exact ⟨hmem, hall⟩
                · rw [heq, hstart]
                · rw [hlast, List.getLastD_cons]
              · rintro ⟨bs, hentries, hall, heq, hlast⟩
                cases hentries with
                | @cons _ x _ bs hentry hrest =>
                    obtain rfl := hfirst (.cons hentry hrest)
                    rw [List.map_cons, struck_iff] at hall
                    refine ⟨bs, hrest, hall.2, ?_, ?_⟩
                    · rw [heq, hstart]
                    · rw [hlast, List.getLastD_cons]

/-! ### One response -/

/-- What the handler does with a response that delivers what is on record. -/
theorem receiveObjects_of_passes {view : ResponseView} {arg : GetObjectsResponse}
    {q : DownloadQueue} {c : SyncContext} {bs : List Block} (h : Passes ops cfg view arg c bs) :
    (receiveObjects ops cfg view arg q c).dropped = false ∧
      (receiveObjects ops cfg view arg q c).context.requestedObjects = ∅ ∧
      if view.haveBlock (blockId ops cfg (bs.getLastD emptyBlock)) then
        (receiveObjects ops cfg view arg q c).queue =
          q.removeSpans c.connectionId (declaredHeight bs) ∧
        (receiveObjects ops cfg view arg q c).added = none
      else
        (receiveObjects ops cfg view arg q c).queue =
          q.addBlocks (declaredHeight bs) arg.blocks c.connectionId view.rate
            (blocksSize arg.blocks) ∧
        (receiveObjects ops cfg view arg q c).added = some (declaredHeight bs) := by
  have hreceived : receiveBlocks ops cfg noHeight c.requestedObjects emptyBlock arg.blocks =
      (∅, some (declaredHeight bs, bs.getLastD emptyBlock)) := by
    apply receiveBlocks_iff.mpr
    exact ⟨bs, h.entries, ⟨h.nodup, h.all⟩, by rw [if_pos rfl], rfl⟩
  rw [receiveObjects, if_neg (UInt64.not_lt.mpr h.height), if_neg h.running]
  simp only [hreceived, ne_eq, not_true_eq_false, if_false]
  split_ifs
  · exact ⟨rfl, rfl, rfl, rfl⟩
  · exact ⟨rfl, rfl, rfl, rfl⟩

/-- Any other response leaves the queue to the drop of the connection. -/
theorem receiveObjects_of_not_passes {view : ResponseView} {arg : GetObjectsResponse}
    (q : DownloadQueue) {c : SyncContext} (h : ∀ bs, ¬Passes ops cfg view arg c bs) :
    (receiveObjects ops cfg view arg q c).queue = q ∧
      (receiveObjects ops cfg view arg q c).added = none ∧
      ((receiveObjects ops cfg view arg q c).dropped = false →
        (receiveObjects ops cfg view arg q c).context.requestedObjects = c.requestedObjects) := by
  rw [receiveObjects]
  split_ifs with hheight hstop
  · exact ⟨rfl, rfl, fun hdrop => by cases hdrop⟩
  · exact ⟨rfl, rfl, fun _ => rfl⟩
  dsimp only
  cases hreceived :
      receiveBlocks ops cfg noHeight c.requestedObjects emptyBlock arg.blocks with
  | mk rest last =>
      cases last with
      | none => exact ⟨rfl, rfl, fun hdrop => by cases hdrop⟩
      | some last =>
          dsimp only
          by_cases hrest : rest = ∅
          · subst hrest
            obtain ⟨bs, hentries, ⟨hnodup, hall⟩, -⟩ := receiveBlocks_iff.mp hreceived
            exact absurd ⟨UInt64.not_lt.mp hheight, hstop, hentries, hnodup, hall⟩ (h bs)
          · rw [if_pos hrest]
            exact ⟨rfl, rfl, fun hdrop => by cases hdrop⟩

theorem receiveObjects_connectionId (view : ResponseView) (arg : GetObjectsResponse)
    (q : DownloadQueue) (c : SyncContext) :
    (receiveObjects ops cfg view arg q c).context.connectionId = c.connectionId := by
  rw [receiveObjects]
  split_ifs
  · rfl
  · rfl
  dsimp only
  split
  · rfl
  · split_ifs <;> rfl

/-! ### What is on record -/

namespace Downloads

@[simp] theorem drop_contexts (s : Downloads) (connectionId : Uuid) (all : Bool) :
    (s.drop connectionId all).contexts = s.contexts := rfl

@[simp] theorem drop_outstanding (s : Downloads) (connectionId : Uuid) (all : Bool) :
    (s.drop connectionId all).outstanding = s.outstanding := rfl

@[simp] theorem drop_dropped (s : Downloads) (connectionId : Uuid) (all : Bool) :
    (s.drop connectionId all).dropped = insert connectionId s.dropped := rfl

/-- The record of a connection is the set of the hashes that it still has to deliver. -/
def OnRecord (s : Downloads) (connectionId : Uuid) : Prop :=
  ∀ h, h ∈ (s.contexts connectionId).requestedObjects ↔
    ∃ request ∈ s.outstanding connectionId, h ∈ request.hashes

structure Consistent (s : Downloads) : Prop where
  connectionId : ∀ connectionId, (s.contexts connectionId).connectionId = connectionId
  onRecord : ∀ connectionId, connectionId ∉ s.dropped → s.OnRecord connectionId

theorem consistent_start : start.Consistent := by
  refine ⟨fun _ => rfl, fun connectionId _ h => ?_⟩
  simp [start]

/-- Only the context and the requests of one connection change. -/
theorem Consistent.of_update {s s' : Downloads} (hs : s.Consistent) {connectionId : Uuid}
    {c : SyncContext} {requests : List ObjectRequest}
    (hcontexts : s'.contexts = Function.update s.contexts connectionId c)
    (houtstanding : s'.outstanding = Function.update s.outstanding connectionId requests)
    (hdropped : s.dropped ⊆ s'.dropped) (hconn : c.connectionId = connectionId)
    (hrecord : connectionId ∉ s'.dropped →
      ∀ h, h ∈ c.requestedObjects ↔ ∃ request ∈ requests, h ∈ request.hashes) :
    s'.Consistent := by
  constructor
  · intro id
    rw [hcontexts]
    by_cases hid : id = connectionId
    · rw [hid, Function.update_self, hconn]
    · rw [Function.update_of_ne hid, hs.connectionId]
  · intro id hnot
    rw [OnRecord, hcontexts, houtstanding]
    by_cases hid : id = connectionId
    · rw [hid, Function.update_self, Function.update_self]
      exact hrecord (hid ▸ hnot)
    · rw [Function.update_of_ne hid, Function.update_of_ne hid]
      exact hs.onRecord id fun hin => hnot (hdropped hin)

theorem Consistent.request {s : Downloads} (hs : s.Consistent) {connectionId : Uuid}
    (hlive : connectionId ∉ s.dropped) (v : SyncView BlockCompleteEntry) (force : Bool) :
    (s.request connectionId v force).Consistent := by
  set v' := { v with queue := s.queue } with hv
  set c := s.contexts connectionId with hc
  set r := c.requestMissingObjects v' force with hr
  set startHeight := (c.requestMissingSpan v' force).1 with hstart
  obtain ⟨hrecords, hconn⟩ :=
    SyncContext.requestMissingObjects_records startHeight v' force c
  have hcontexts : (s.request connectionId v force).contexts =
      Function.update s.contexts connectionId r.context := by
    simp only [Downloads.request]
    split_ifs <;> rfl
  have houtstanding : (s.request connectionId v force).outstanding =
      Function.update s.outstanding connectionId
        (s.outstanding connectionId ++ objectRequests startHeight r.sent) := by
    simp only [Downloads.request]
    split_ifs <;> rfl
  have hdropped : s.dropped ⊆ (s.request connectionId v force).dropped := by
    simp only [Downloads.request]
    split_ifs
    · exact Finset.Subset.refl _
    · exact Finset.subset_insert _ _
  refine hs.of_update hcontexts houtstanding hdropped ?_ fun _ h => ?_
  · rw [hr, hconn, hs.connectionId]
  · rw [hr, hrecords h, hc, hs.onRecord connectionId hlive h]
    simp only [List.mem_append, or_and_right, exists_or]

theorem Consistent.handleResponseGetObjects {s : Downloads} (hs : s.Consistent)
    {connectionId : Uuid} (hlive : connectionId ∉ s.dropped) (view : ResponseView)
    (arg : GetObjectsResponse) :
    (s.handleResponseGetObjects ops cfg connectionId view arg).Consistent := by
  set r := receiveObjects ops cfg view arg s.queue (s.contexts connectionId) with hr
  have hcontexts : (s.handleResponseGetObjects ops cfg connectionId view arg).contexts =
      Function.update s.contexts connectionId r.context := by
    simp only [Downloads.handleResponseGetObjects]
    split_ifs <;> rfl
  have houtstanding : (s.handleResponseGetObjects ops cfg connectionId view arg).outstanding =
      Function.update s.outstanding connectionId
        (if r.context.requestedObjects = ∅ then [] else s.outstanding connectionId) := by
    simp only [Downloads.handleResponseGetObjects, ← hr]
    split_ifs <;> simp [setOutstanding, setContext]
  have hdropped : s.dropped ⊆ (s.handleResponseGetObjects ops cfg connectionId view arg).dropped ∧
      (r.dropped = true →
        connectionId ∈ (s.handleResponseGetObjects ops cfg connectionId view arg).dropped) := by
    simp only [Downloads.handleResponseGetObjects, ← hr]
    split_ifs with hdrop <;> simp [hdrop, setOutstanding, setContext]
  refine hs.of_update hcontexts houtstanding hdropped.1 ?_ fun hkept h => ?_
  · rw [hr, receiveObjects_connectionId, hs.connectionId]
  · have hdrop : r.dropped = false := by
      rw [← Bool.not_eq_true]
      exact fun hdrop => hkept (hdropped.2 hdrop)
    by_cases hempty : r.context.requestedObjects = ∅
    · rw [if_pos hempty, hempty]
      simp
    · rw [if_neg hempty]
      by_cases hpass : ∃ bs, Passes ops cfg view arg (s.contexts connectionId) bs
      · obtain ⟨bs, hpass⟩ := hpass
        exact absurd (receiveObjects_of_passes hpass).2.1 hempty
      · have hsame := (receiveObjects_of_not_passes s.queue (not_exists.mp hpass)).2.2 hdrop
        rw [hr, hsame]
        exact hs.onRecord connectionId hlive h

theorem Consistent.step {s : Downloads} (hs : s.Consistent) (op : DownloadOp) :
    (s.step ops cfg op).Consistent := by
  cases op with
  | request connectionId v force =>
      rw [Downloads.step]
      split_ifs with hdropped
      · exact hs
      · exact hs.request hdropped v force
  | response connectionId view arg =>
      rw [Downloads.step]
      split_ifs with hdropped
      · exact hs
      · exact hs.handleResponseGetObjects hdropped view arg
  | other connectionId state neededObjects remoteHeight lastResponseHeight lastKnownHash =>
      have hsame : s.outstanding =
          Function.update s.outstanding connectionId (s.outstanding connectionId) :=
        (Function.update_eq_self _ _).symm
      exact hs.of_update rfl hsame (Finset.Subset.refl _) (hs.connectionId connectionId)
        (hs.onRecord connectionId)
  | done spanConnectionId startHeight => exact ⟨hs.connectionId, hs.onRecord⟩
  | close connectionId all =>
      refine ⟨hs.connectionId, fun id hnot => ?_⟩
      exact hs.onRecord id fun hin => hnot (Finset.mem_insert_of_mem hin)

end Downloads

/-! ### What is delivered -/

/-- The hash was asked for as the one of the block at this height. -/
def RequestedAt (requests : List ObjectRequest) (height : ℕ) (h : Hash) : Prop :=
  ∃ request ∈ requests, ∃ j, request.hashes[j]? = some h ∧
    request.startHeight.toNat + j = height

/-- Hashes that were asked for as those of consecutive heights. -/
def InTurn (requests : List ObjectRequest) (height : ℕ) (ids : List Hash) : Prop :=
  ids ≠ [] ∧ ∀ i h, ids[i]? = some h → RequestedAt requests (height + i) h

variable (ops cfg)

def HaveIds (blocks : List BlockCompleteEntry) (ids : List Hash) : Prop :=
  blocks.map (fun blockEntry => (parseAndValidateBlockFromBlob cfg blockEntry.block).map
    (blockId ops cfg)) = ids.map some

variable {ops cfg}

theorem entries_unique {blocks : List BlockCompleteEntry} {bs bs' : List Block}
    (h : List.Forall₂ (EntryPasses cfg) blocks bs)
    (h' : List.Forall₂ (EntryPasses cfg) blocks bs') : bs = bs' := by
  apply List.right_unique_forall₂' _ h h'
  intro blockEntry b b' hentry hentry'
  exact Option.some.inj (hentry.parsed.symm.trans hentry'.parsed)

theorem haveIds_of_entries {blocks : List BlockCompleteEntry} {bs : List Block}
    (h : List.Forall₂ (EntryPasses cfg) blocks bs) :
    HaveIds ops cfg blocks (bs.map (blockId ops cfg)) := by
  induction h with
  | nil => rfl
  | cons hentry _ ih =>
      rw [HaveIds, List.map_cons, List.map_cons, List.map_cons, hentry.parsed]
      exact congrArg (some _ :: ·) ih

theorem HaveIds.unique {blocks : List BlockCompleteEntry} {ids ids' : List Hash}
    (h : HaveIds ops cfg blocks ids) (h' : HaveIds ops cfg blocks ids') : ids = ids' :=
  List.map_injective_iff.mpr (Option.some_injective Hash) (h.symm.trans h')

namespace Downloads

variable (ops cfg)

/-- The contract of a response: a span that it fills holds the blocks that the connection was
asked for at these heights, and what does not deliver such blocks leaves the queue. The spans
that a dropped connection still owes are given back by the drop. -/
structure Delivers (s : Downloads) (connectionId : Uuid) (view : ResponseView)
    (arg : GetObjectsResponse) : Prop where
  span : ∀ height ∈ (receiveObjects ops cfg view arg s.queue (s.contexts connectionId)).added,
    ∀ t ∈ (receiveObjects ops cfg view arg s.queue (s.contexts connectionId)).queue.blocks,
      t.startBlockHeight = height → t.connectionId = connectionId ∧
        (∃ ids, HaveIds ops cfg t.blocks ids ∧
          InTurn (s.outstanding connectionId) t.startBlockHeight.toNat ids) ∧
        t.startBlockHeight.toNat + t.blocks.length < 2 ^ 64
  unchanged : (∀ height ids, HaveIds ops cfg arg.blocks ids →
      ¬InTurn (s.outstanding connectionId) height ids) →
    (receiveObjects ops cfg view arg s.queue (s.contexts connectionId)).queue = s.queue

/-- The response delivers all that the connection was asked for and nothing else, in any
order: nothing of nothing, for one. -/
structure DeliversOutstanding (s : Downloads) (connectionId : Uuid) (view : ResponseView)
    (arg : GetObjectsResponse) (bs : List Block) : Prop where
  height : (s.contexts connectionId).lastResponseHeight ≤ arg.currentBlockchainHeight
  running : ¬(view.stopping = true ∧ arg.blocks ≠ [])
  entries : List.Forall₂ (EntryPasses cfg) arg.blocks bs
  nodup : (bs.map (blockId ops cfg)).Nodup
  all : ∀ h, h ∈ bs.map (blockId ops cfg) ↔
    ∃ request ∈ s.outstanding connectionId, h ∈ request.hashes

/-- A response that delivers all has its blocks in turn, from the height that the first of them
declares. Where the node has the last one already, it is in turn from some height or declares
a height below those of the spans of the connection. -/
def KeepsTurn (s : Downloads) (connectionId : Uuid) (view : ResponseView)
    (arg : GetObjectsResponse) : Prop :=
  ∀ bs, DeliversOutstanding ops cfg s connectionId view arg bs →
    if view.haveBlock (blockId ops cfg (bs.getLastD emptyBlock)) then
      (∃ height, InTurn (s.outstanding connectionId) height (bs.map (blockId ops cfg))) ∨
        ∀ t ∈ s.queue.blocks, t.connectionId = connectionId →
          declaredHeight bs < t.startBlockHeight
    else
      InTurn (s.outstanding connectionId) (declaredHeight bs).toNat (bs.map (blockId ops cfg)) ∧
        (declaredHeight bs).toNat + bs.length < 2 ^ 64

variable {ops cfg}

theorem deliversOutstanding_iff {s : Downloads} (hs : s.Consistent) {connectionId : Uuid}
    (hlive : connectionId ∉ s.dropped) {view : ResponseView} {arg : GetObjectsResponse}
    {bs : List Block} : DeliversOutstanding ops cfg s connectionId view arg bs ↔
      Passes ops cfg view arg (s.contexts connectionId) bs := by
  constructor
  · intro h
    refine ⟨h.height, h.running, h.entries, h.nodup, ?_⟩
    ext x
    rw [List.mem_toFinset, h.all, hs.onRecord connectionId hlive]
  · intro h
    refine ⟨h.height, h.running, h.entries, h.nodup, fun x => ?_⟩
    rw [← hs.onRecord connectionId hlive, ← h.all, List.mem_toFinset]

theorem delivers_iff {s : Downloads} (hs : s.Consistent) {connectionId : Uuid}
    (hlive : connectionId ∉ s.dropped) (view : ResponseView) (arg : GetObjectsResponse) :
    Delivers ops cfg s connectionId view arg ↔ KeepsTurn ops cfg s connectionId view arg := by
  by_cases hpass : ∃ bs, Passes ops cfg view arg (s.contexts connectionId) bs
  · obtain ⟨bs, hpass⟩ := hpass
    have hids : HaveIds ops cfg arg.blocks (bs.map (blockId ops cfg)) :=
      haveIds_of_entries hpass.entries
    have hlength : bs.length = arg.blocks.length := hpass.entries.length_eq.symm
    have honly : ∀ bs', DeliversOutstanding ops cfg s connectionId view arg bs' ↔ bs' = bs := by
      intro bs'
      rw [deliversOutstanding_iff hs hlive]
      constructor
      · intro hpass'
        exact entries_unique hpass'.entries hpass.entries
      · rintro rfl
        exact hpass
    obtain ⟨-, -, hqueue⟩ := receiveObjects_of_passes (q := s.queue) hpass
    rw [hs.connectionId] at hqueue
    simp only [KeepsTurn, honly, forall_eq]
    by_cases hold : view.haveBlock (blockId ops cfg (bs.getLastD emptyBlock)) = true
    · rw [if_pos hold] at hqueue ⊢
      obtain ⟨hremoved, hadded⟩ := hqueue
      have hspan : ∀ height ∈ (receiveObjects ops cfg view arg s.queue
          (s.contexts connectionId)).added, False := by
        rw [hadded]
        intro height hheight
        cases hheight
      rw [← BlockQueue.removeSpans_eq_self_iff, ← hremoved]
      constructor
      · intro h
        by_cases hturn : ∃ height, InTurn (s.outstanding connectionId) height
            (bs.map (blockId ops cfg))
        · exact Or.inl hturn
        · refine Or.inr (h.unchanged fun height ids hhave hin => ?_)
          rw [hhave.unique hids] at hin
          exact hturn ⟨height, hin⟩
      · rintro h
        refine ⟨fun height hheight => (hspan height hheight).elim, fun hnone => ?_⟩
        rcases h with ⟨height, hin⟩ | hsame
        · exact absurd hin (hnone height _ hids)
        · exact hsame
    · rw [if_neg hold] at hqueue ⊢
      obtain ⟨hfilled, hadded⟩ := hqueue
      obtain ⟨⟨t, ht, htstart⟩, hspans⟩ := s.queue.addBlocks_spec (declaredHeight bs) arg.blocks
        connectionId view.rate (blocksSize arg.blocks)
      rw [← hfilled] at ht hspans
      constructor
      · intro h
        obtain ⟨-, ⟨ids, hhave, hin⟩, hfits⟩ := h.span _ hadded t ht htstart
        rw [(hspans t ht htstart).2] at hhave hfits
        rw [hhave.unique hids, htstart] at hin
        rw [htstart, ← hlength] at hfits
        exact ⟨hin, hfits⟩
      · rintro ⟨hin, hfits⟩
        refine ⟨fun height hheight u hu hustart => ?_, fun hnone => absurd hin (hnone _ _ hids)⟩
        rw [hadded, Option.mem_some_iff] at hheight
        subst hheight
        obtain ⟨hconn, hblocks⟩ := hspans u hu hustart
        rw [hblocks, hustart, ← hlength]
        exact ⟨hconn, ⟨_, hids, hin⟩, hfits⟩
  · obtain ⟨hqueue, hadded, -⟩ :=
      receiveObjects_of_not_passes s.queue (not_exists.mp hpass)
    refine iff_of_true ⟨?_, fun _ => hqueue⟩ fun bs hbs => ?_
    · rw [hadded]
      intro height hheight
      cases hheight
    · exact absurd ⟨bs, (deliversOutstanding_iff hs hlive).mp hbs⟩ hpass

/-! ### Every run of requests and responses -/

variable (ops cfg)

/-- What is promised of a step: it is a response of a connection that is still there. -/
def ResponseDelivers (op : DownloadOp) (s : Downloads) : Prop :=
  match op with
  | .response connectionId view arg =>
      connectionId ∉ s.dropped → Delivers ops cfg s connectionId view arg
  | _ => True

def ResponseKeepsTurn (op : DownloadOp) (s : Downloads) : Prop :=
  match op with
  | .response connectionId view arg =>
      connectionId ∉ s.dropped → KeepsTurn ops cfg s connectionId view arg
  | _ => True

theorem responseDelivers_iff {s : Downloads} (hs : s.Consistent) (op : DownloadOp) :
    ResponseDelivers ops cfg op s ↔ ResponseKeepsTurn ops cfg op s := by
  cases op with
  | request connectionId v force => exact Iff.rfl
  | response connectionId view arg =>
      exact forall_congr' fun hlive => delivers_iff hs hlive view arg
  | other connectionId state needed remoteHeight lastResponseHeight lastKnown => exact Iff.rfl
  | done spanConnectionId startHeight => exact Iff.rfl
  | close connectionId all => exact Iff.rfl

theorem consistent_run (msgs : List DownloadOp) :
    (Data.run (step ops cfg) start msgs).Consistent :=
  Data.run_invariant (step ops cfg) consistent_start (fun _ op hs => hs.step op) msgs

/-- Whatever the peers ask and answer in whatever order, the spans that come into the queue are
those that were asked for exactly when every response that delivers all keeps its turn. -/
theorem responses_deliver (msgs : List DownloadOp) :
    (∀ done op, done ++ [op] <+: msgs →
        ResponseDelivers ops cfg op (Data.run (step ops cfg) start done)) ↔
      ∀ done op, done ++ [op] <+: msgs →
        ResponseKeepsTurn ops cfg op (Data.run (step ops cfg) start done) := by
  constructor
  · intro hall done op hdone
    exact (responseDelivers_iff ops cfg (consistent_run ops cfg done) op).mp (hall done op hdone)
  · intro hall done op hdone
    exact (responseDelivers_iff ops cfg (consistent_run ops cfg done) op).mpr (hall done op hdone)

def emptyResponse : DownloadOp :=
  .response 1 ⟨false, fun _ => false, 0⟩ ⟨[], 0⟩

/-- A response without blocks fills an empty span at the greatest height. -/
theorem emptyResponse_not_delivers :
    ¬∀ done op, done ++ [op] <+: [emptyResponse] →
      ResponseDelivers sampleOps currentConfig op
        (Data.run (step sampleOps currentConfig) start done) := by
  intro hall
  have hturn := (responseDelivers_iff sampleOps currentConfig consistent_start emptyResponse).mp
    (hall [] emptyResponse (List.prefix_refl _))
  have hempty : DeliversOutstanding sampleOps currentConfig start 1 ⟨false, fun _ => false, 0⟩
      ⟨[], 0⟩ [] :=
    ⟨UInt64.le_refl 0, by simp, .nil, List.nodup_nil, by simp [start]⟩
  have hin := hturn (Finset.notMem_empty 1) [] hempty
  exact hin.1.1 rfl

end Downloads

end

end XrCoin.Protocol

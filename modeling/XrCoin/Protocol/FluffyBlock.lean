import XrCoin.Cryptonote.Hashes
import XrCoin.Protocol.SyncContext

/-!
`handle_notify_new_fluffy_block`: a block without its transactions, and the request for those
that the node has in neither its pool nor its chain.

The core is the parameter of the handler's template. A message finds it in any state, as the
pool is also filled by other connections.
-/

namespace XrCoin.Protocol

open Cryptonote

structure BlockCompleteEntry where
  block : List UInt8
  txs : List (List UInt8)
  deriving DecidableEq

structure NewFluffyBlock where
  b : BlockCompleteEntry
  currentBlockchainHeight : UInt64

structure BlockVerification (σ : Type) where
  verifivationFailed : Bool
  addedToMainChain : Bool
  markedAsOrphaned : Bool
  core : σ

structure FluffyCore (σ : Type) where
  poolHasTx : σ → Hash → Bool
  /-- None where the call fails or the verification of the transaction does. -/
  handleIncomingTx : σ → List UInt8 → Option σ
  getPoolTransaction : σ → Hash → Option (List UInt8)
  /-- The answer, the transactions and the ids that are missing. -/
  getTransactions : σ → List Hash → Bool × List Transaction × List Hash
  /-- The block between its preparation and its cleanup. None where the cleanup fails. -/
  handleIncomingBlock : σ → BlockCompleteEntry → Option (BlockVerification σ)
  getShortChainHistory : σ → List Hash

structure FluffyOp (σ : Type) where
  isSynchronized : Bool
  core : σ
  arg : NewFluffyBlock

/-- What the handler posts: requests to the peer, a new block to the others. -/
inductive FluffySent
  | requestFluffyMissingTx (blockHash : Hash) (currentBlockchainHeight : UInt64)
      (missingTxIndices : List UInt64)
  | newBlock (b : BlockCompleteEntry) (currentBlockchainHeight : UInt64)
  | requestChain (blockIds : List Hash)
  deriving DecidableEq

structure FluffyPeer where
  context : SyncContext
  dropped : Bool
  sent : List FluffySent

namespace FluffyPeer

def drop (p : FluffyPeer) : FluffyPeer := { p with dropped := true }

def post (p : FluffyPeer) (m : FluffySent) : FluffyPeer := { p with sent := p.sent ++ [m] }

def setRequested (p : FluffyPeer) (requested : Finset Hash) : FluffyPeer :=
  { p with context := { p.context with requestedObjects := requested } }

def setState (p : FluffyPeer) (state : ConnectionState) : FluffyPeer :=
  { p with context := { p.context with state } }

end FluffyPeer

section

variable {σ : Type} (ops : CryptoOps) (cfg : Config) (core : FluffyCore σ)

/-- The loop over the transactions of the message: what is still requested after it, and the
state of the core. None where the connection is dropped. -/
def takeTxs : σ → Finset Hash → List (List UInt8) → Finset Hash × Option σ
  | s, requested, [] => (requested, some s)
  | s, requested, txBlob :: txs =>
      match (parseAndValidateTxFromBlob ops cfg txBlob).bind (calculateTransactionHash ops cfg) with
      | none => (requested, none)
      | some txHash =>
          if requested ≠ ∅ ∧ txHash ∉ requested then (requested, none)
          else if core.poolHasTx s txHash then takeTxs s (requested.erase txHash) txs
          else
            match core.handleIncomingTx s txBlob with
            | none => (requested.erase txHash, none)
            | some s => takeTxs s (requested.erase txHash) txs

inductive TxLookup
  | have (txblob : List UInt8)
  | missing
  /-- One transaction was asked for, and none or many came without one missing. -/
  | odd
  deriving DecidableEq

def lookUpTx (s : σ) (txHash : Hash) : TxLookup :=
  match core.getPoolTransaction s txHash with
  | some txblob => .have txblob
  | none =>
      match core.getTransactions s [txHash] with
      | (true, [tx], []) => .have (txToBlob cfg tx)
      | (true, _, []) => .odd
      | _ => .missing

/-- The loop over the hashes of the block: the transactions, and the indices of those to ask
for. None where a lookup was odd. -/
def gatherTxs (s : σ) : UInt64 → List Hash → Option (List (List UInt8) × List UInt64)
  | _, [] => some ([], [])
  | txIdx, txHash :: txHashes =>
      match lookUpTx cfg core s txHash with
      | .have txblob => (gatherTxs s (txIdx + 1) txHashes).map fun r => (txblob :: r.1, r.2)
      | .missing => (gatherTxs s (txIdx + 1) txHashes).map fun r => (r.1, txIdx :: r.2)
      | .odd => none

def addFluffyBlock (s : σ) (arg : NewFluffyBlock) (haveTx : List (List UInt8)) (p : FluffyPeer) :
    FluffyPeer :=
  let b : BlockCompleteEntry := ⟨arg.b.block, haveTx⟩
  match core.handleIncomingBlock s b with
  | none => p
  | some bvc =>
      if bvc.verifivationFailed then p.drop
      else if bvc.addedToMainChain then p.post (.newBlock b arg.currentBlockchainHeight)
      else if bvc.markedAsOrphaned then
        (p.setState .synchronizing).post (.requestChain (core.getShortChainHistory bvc.core))
      else p

/-- The handler once the transactions of the message are in the pool. -/
def completeFluffyBlock (s : σ) (arg : NewFluffyBlock) (newBlock : Block) (p : FluffyPeer) :
    FluffyPeer :=
  match gatherTxs cfg core s 0 newBlock.txHashes.toList with
  | none => p
  | some (haveTx, needTxIndices) =>
      if needTxIndices ≠ [] then
        p.post (.requestFluffyMissingTx ((getBlockHash ops cfg newBlock).getD nullHash)
          arg.currentBlockchainHeight needTxIndices)
      else addFluffyBlock core s arg haveTx p

def handleNotifyNewFluffyBlock (op : FluffyOp σ) (p : FluffyPeer) : FluffyPeer :=
  if p.context.state ≠ .normal ∨ op.isSynchronized = false then p
  else
    match parseAndValidateBlockFromBlob cfg op.arg.b.block with
    | none => p.drop
    | some newBlock =>
        let requested := p.context.requestedObjects
        if requested ≠ ∅ ∧ requested.card ≠ op.arg.b.txs.length then p.drop
        else
          let taken := takeTxs ops cfg core op.core requested op.arg.b.txs
          let p := p.setRequested taken.1
          match taken.2 with
          | none => p.drop
          | some s =>
              if taken.1 ≠ ∅ then p.drop
              else completeFluffyBlock ops cfg core s op.arg newBlock p

/-- A message. Nothing of a dropped connection is read any more. -/
def fluffyStep (p : FluffyPeer) (op : FluffyOp σ) : FluffyPeer :=
  if p.dropped then p else handleNotifyNewFluffyBlock ops cfg core op p

/-! ### When a request is sent -/

def FluffyPeer.asked (id : Hash) (p : FluffyPeer) : ℕ :=
  p.sent.countP fun
    | .requestFluffyMissingTx blockHash _ _ => decide (blockHash = id)
    | _ => false

inductive Accepted : σ → List (List UInt8 × Hash) → σ → Prop
  | nil (s : σ) : Accepted s [] s
  | known {s s' : σ} {txBlob : List UInt8} {txHash : Hash} {txs : List (List UInt8 × Hash)} :
      core.poolHasTx s txHash = true → Accepted s txs s' → Accepted s ((txBlob, txHash) :: txs) s'
  | added {s t s' : σ} {txBlob : List UInt8} {txHash : Hash} {txs : List (List UInt8 × Hash)} :
      core.poolHasTx s txHash = false → core.handleIncomingTx s txBlob = some t →
        Accepted t txs s' → Accepted s ((txBlob, txHash) :: txs) s'

/-- The message delivers transactions with these hashes. -/
def Delivers (txs : List (List UInt8)) (hashes : List Hash) : Prop :=
  txs.map (fun txBlob => (parseAndValidateTxFromBlob ops cfg txBlob).bind
    (calculateTransactionHash ops cfg)) = hashes.map some

/-- The block has this id, every lookup of one of its transactions is sound, and one of them is
in neither the pool nor the chain. -/
def Incomplete (id : Hash) (s : σ) (newBlock : Block) : Prop :=
  (getBlockHash ops cfg newBlock).getD nullHash = id ∧
    (∀ txHash ∈ newBlock.txHashes.toList, lookUpTx cfg core s txHash ≠ .odd) ∧
    ∃ txHash ∈ newBlock.txHashes.toList, lookUpTx cfg core s txHash = .missing

/-- The message is about a block that it leaves incomplete: it delivers what is on record as
requested, if anything is, and the pool takes it, and still a transaction is missing. -/
structure LeavesMissing (id : Hash) (op : FluffyOp σ) (c : SyncContext) : Prop where
  normal : c.state = .normal
  synchronized : op.isSynchronized = true
  incomplete : ∃ newBlock hashes s,
    parseAndValidateBlockFromBlob cfg op.arg.b.block = some newBlock ∧
    Delivers ops cfg op.arg.b.txs hashes ∧
    (c.requestedObjects = ∅ ∨ hashes.Nodup ∧ hashes.toFinset = c.requestedObjects) ∧
    Accepted core op.core (op.arg.b.txs.zip hashes) s ∧
    Incomplete ops cfg core id s newBlock

/-! ### The loops -/

variable {ops cfg core}

theorem delivers_cons {txBlob : List UInt8} {txs : List (List UInt8)} {hashes : List Hash} :
    Delivers ops cfg (txBlob :: txs) hashes ↔ ∃ txHash rest, hashes = txHash :: rest ∧
      (parseAndValidateTxFromBlob ops cfg txBlob).bind (calculateTransactionHash ops cfg) =
        some txHash ∧ Delivers ops cfg txs rest := by
  cases hashes with
  | nil => simp [Delivers]
  | cons txHash rest =>
      constructor
      · intro h
        obtain ⟨hhash, hrest⟩ := List.cons.inj h
        exact ⟨txHash, rest, rfl, hhash, hrest⟩
      · rintro ⟨_, _, heq, hhash, hrest⟩
        obtain ⟨rfl, rfl⟩ := List.cons.inj heq
        exact congrArg₂ List.cons hhash hrest

theorem Delivers.length {txs : List (List UInt8)} {hashes : List Hash}
    (h : Delivers ops cfg txs hashes) : hashes.length = txs.length := by
  have hlen := congrArg List.length h
  rw [List.length_map, List.length_map] at hlen
  exact hlen.symm

theorem struck_iff {requested : Finset Hash} {h : Hash} {rest : List Hash} :
    (h :: rest).Nodup ∧ (h :: rest).toFinset = requested ↔
      h ∈ requested ∧ rest.Nodup ∧ rest.toFinset = requested.erase h := by
  rw [List.nodup_cons, List.toFinset_cons]
  constructor
  · rintro ⟨⟨hnot, hnodup⟩, rfl⟩
    rw [Finset.erase_insert (by simpa using hnot)]
    exact ⟨Finset.mem_insert_self _ _, hnodup, rfl⟩
  · rintro ⟨hmem, hnodup, heq⟩
    refine ⟨⟨fun hin => ?_, hnodup⟩, ?_⟩
    · have herased := List.mem_toFinset.mpr hin
      rw [heq] at herased
      exact Finset.notMem_erase _ _ herased
    · rw [heq, Finset.insert_erase hmem]

/-- The first of the hashes on record, if there are any, leaves the rest to be struck. -/
theorem struck_cons {requested : Finset Hash} {txHash : Hash} {rest : List Hash}
    (hcard : requested = ∅ ∨ requested.card = rest.length + 1)
    (hmem : requested = ∅ ∨ txHash ∈ requested) :
    (requested = ∅ ∨ (txHash :: rest).Nodup ∧ (txHash :: rest).toFinset = requested) ↔
      (requested.erase txHash = ∅ ∨ rest.Nodup ∧ rest.toFinset = requested.erase txHash) := by
  rcases hmem with rfl | hmem
  · simp
  have hne : requested ≠ ∅ := Finset.ne_empty_of_mem hmem
  rw [or_iff_right hne, struck_iff, and_iff_right hmem, iff_or_self]
  intro hempty
  have hcard' : (requested.erase txHash).card = rest.length := by
    rw [Finset.card_erase_of_mem hmem, hcard.resolve_left hne, Nat.add_sub_cancel]
  rw [hempty, Finset.card_empty, eq_comm, List.length_eq_zero_iff] at hcard'
  rw [hcard', hempty]
  exact ⟨List.nodup_nil, rfl⟩

theorem accepted_cons {s s' : σ} {txBlob : List UInt8} {txHash : Hash}
    {txs : List (List UInt8 × Hash)} :
    Accepted core s ((txBlob, txHash) :: txs) s' ↔
      if core.poolHasTx s txHash then Accepted core s txs s'
      else ∃ t, core.handleIncomingTx s txBlob = some t ∧ Accepted core t txs s' := by
  constructor
  · intro h
    cases h with
    | known hpool h => rwa [if_pos hpool]
    | added hpool htake h =>
        rw [if_neg (by rw [hpool]; decide)]
        exact ⟨_, htake, h⟩
  · intro h
    cases hpool : core.poolHasTx s txHash with
    | true =>
        rw [if_pos hpool] at h
        exact .known hpool h
    | false =>
        rw [if_neg (by rw [hpool]; decide)] at h
        obtain ⟨t, htake, h⟩ := h
        exact .added hpool htake h

/-- The loop takes a message whose transactions are those on record, where some are. -/
theorem takeTxs_iff {s s' : σ} {requested : Finset Hash} {txs : List (List UInt8)}
    (hcard : requested = ∅ ∨ requested.card = txs.length) :
    takeTxs ops cfg core s requested txs = (∅, some s') ↔
      ∃ hashes, Delivers ops cfg txs hashes ∧
        (requested = ∅ ∨ hashes.Nodup ∧ hashes.toFinset = requested) ∧
        Accepted core s (txs.zip hashes) s' := by
  induction txs generalizing s requested with
  | nil =>
      have hempty : requested = ∅ := hcard.elim id fun h => Finset.card_eq_zero.mp h
      rw [takeTxs, Prod.mk.injEq, Option.some.injEq]
      constructor
      · rintro ⟨-, rfl⟩
        exact ⟨[], rfl, Or.inl hempty, .nil s⟩
      · rintro ⟨hashes, hdel, -, hacc⟩
        rw [List.zip_nil_left] at hacc
        cases hacc
        exact ⟨hempty, rfl⟩
  | cons txBlob txs ih =>
      rw [takeTxs]
      cases hhash : (parseAndValidateTxFromBlob ops cfg txBlob).bind
          (calculateTransactionHash ops cfg) with
      | none =>
          refine iff_of_false (fun h => by simp at h) ?_
          rintro ⟨hashes, hdel, -⟩
          obtain ⟨txHash, rest, -, hsome, -⟩ := delivers_cons.mp hdel
          rw [hhash] at hsome
          cases hsome
      | some txHash =>
          dsimp only
          by_cases hwrong : requested ≠ ∅ ∧ txHash ∉ requested
          · rw [if_pos hwrong]
            refine iff_of_false (fun h => by simp at h) ?_
            rintro ⟨hashes, hdel, hstruck, -⟩
            obtain ⟨h, rest, rfl, hsome, -⟩ := delivers_cons.mp hdel
            rw [hhash, Option.some.injEq] at hsome
            subst hsome
            apply hwrong.2
            rw [← (hstruck.resolve_left hwrong.1).2]
            simp
          · have hmem : requested = ∅ ∨ txHash ∈ requested := by
              rw [not_and_or, not_not, not_not] at hwrong
              exact hwrong
            have hcard' : requested.erase txHash = ∅ ∨
                (requested.erase txHash).card = txs.length := by
              rcases hmem with rfl | hmem
              · exact Or.inl (Finset.erase_empty _)
              · right
                rw [Finset.card_erase_of_mem hmem, hcard.resolve_left (Finset.ne_empty_of_mem hmem),
                  List.length_cons, Nat.add_sub_cancel]
            -- Both ways of taking the transaction strike its hash and go on.
            have hgoal : (∃ hashes, Delivers ops cfg (txBlob :: txs) hashes ∧
                (requested = ∅ ∨ hashes.Nodup ∧ hashes.toFinset = requested) ∧
                Accepted core s ((txBlob :: txs).zip hashes) s') ↔
                ∃ rest, Delivers ops cfg txs rest ∧
                  (requested.erase txHash = ∅ ∨
                    rest.Nodup ∧ rest.toFinset = requested.erase txHash) ∧
                  Accepted core s ((txBlob, txHash) :: txs.zip rest) s' := by
              constructor
              · rintro ⟨hashes, hdel, hstruck, hacc⟩
                obtain ⟨h, rest, rfl, hsome, hrest⟩ := delivers_cons.mp hdel
                rw [hhash, Option.some.injEq] at hsome
                subst hsome
                rw [List.length_cons, ← hrest.length] at hcard
                exact ⟨rest, hrest, (struck_cons hcard hmem).mp hstruck, hacc⟩
              · rintro ⟨rest, hrest, hstruck, hacc⟩
                rw [List.length_cons, ← hrest.length] at hcard
                exact ⟨txHash :: rest, delivers_cons.mpr ⟨txHash, rest, rfl, hhash, hrest⟩,
                  (struck_cons hcard hmem).mpr hstruck, hacc⟩
            rw [if_neg hwrong, hgoal]
            cases hpool : core.poolHasTx s txHash with
            | true => simp [accepted_cons, hpool, ih hcard']
            | false =>
                cases htake : core.handleIncomingTx s txBlob with
                | none => simp [accepted_cons, hpool, htake]
                | some t => simp [accepted_cons, hpool, htake, ih hcard']

/-- The loop over the hashes asks exactly where a transaction is missing. -/
theorem gatherTxs_spec (s : σ) (txIdx : UInt64) (txHashes : List Hash) :
    match gatherTxs cfg core s txIdx txHashes with
    | none => ∃ txHash ∈ txHashes, lookUpTx cfg core s txHash = .odd
    | some r => (∀ txHash ∈ txHashes, lookUpTx cfg core s txHash ≠ .odd) ∧
        (r.2 ≠ [] ↔ ∃ txHash ∈ txHashes, lookUpTx cfg core s txHash = .missing) := by
  induction txHashes generalizing txIdx with
  | nil => simp [gatherTxs]
  | cons txHash txHashes ih =>
      rw [gatherTxs]
      have hrest := ih (txIdx + 1)
      cases hlook : lookUpTx cfg core s txHash with
      | odd => exact ⟨txHash, List.mem_cons_self, hlook⟩
      | «have» txblob =>
          cases hgather : gatherTxs cfg core s (txIdx + 1) txHashes with
          | none =>
              rw [hgather] at hrest
              obtain ⟨h, hmem, hodd⟩ := hrest
              exact ⟨h, List.mem_cons_of_mem _ hmem, hodd⟩
          | some r =>
              rw [hgather] at hrest
              simpa [hlook] using hrest
      | missing =>
          cases hgather : gatherTxs cfg core s (txIdx + 1) txHashes with
          | none =>
              rw [hgather] at hrest
              obtain ⟨h, hmem, hodd⟩ := hrest
              exact ⟨h, List.mem_cons_of_mem _ hmem, hodd⟩
          | some r =>
              rw [hgather] at hrest
              simpa [hlook] using hrest.1

/-! ### One message -/

namespace FluffyPeer

@[simp] theorem asked_drop (id : Hash) (p : FluffyPeer) : p.drop.asked id = p.asked id := rfl

@[simp] theorem asked_setRequested (id : Hash) (requested : Finset Hash) (p : FluffyPeer) :
    (p.setRequested requested).asked id = p.asked id := rfl

@[simp] theorem asked_setState (id : Hash) (state : ConnectionState) (p : FluffyPeer) :
    (p.setState state).asked id = p.asked id := rfl

@[simp] theorem asked_post_request (id blockHash : Hash) (height : UInt64)
    (indices : List UInt64) (p : FluffyPeer) :
    (p.post (.requestFluffyMissingTx blockHash height indices)).asked id =
      p.asked id + if blockHash = id then 1 else 0 := by
  simp [asked, post, List.countP_append, List.countP_cons]

@[simp] theorem asked_post_newBlock (id : Hash) (b : BlockCompleteEntry) (height : UInt64)
    (p : FluffyPeer) : (p.post (.newBlock b height)).asked id = p.asked id := by
  simp [asked, post, List.countP_append]

@[simp] theorem asked_post_requestChain (id : Hash) (blockIds : List Hash) (p : FluffyPeer) :
    (p.post (.requestChain blockIds)).asked id = p.asked id := by
  simp [asked, post, List.countP_append]

end FluffyPeer

theorem addFluffyBlock_asked (id : Hash) (s : σ) (arg : NewFluffyBlock)
    (haveTx : List (List UInt8)) (p : FluffyPeer) :
    (addFluffyBlock core s arg haveTx p).asked id = p.asked id := by
  rw [addFluffyBlock]
  split
  · rfl
  · split_ifs <;> simp

theorem completeFluffyBlock_of_incomplete {id : Hash} {s : σ} {newBlock : Block}
    (h : Incomplete ops cfg core id s newBlock) (arg : NewFluffyBlock) (p : FluffyPeer) :
    (completeFluffyBlock ops cfg core s arg newBlock p).asked id = p.asked id + 1 ∧
      (completeFluffyBlock ops cfg core s arg newBlock p).dropped = p.dropped := by
  obtain ⟨hid, hodd, hmissing⟩ := h
  have hspec := @gatherTxs_spec σ cfg core s 0 newBlock.txHashes.toList
  rw [completeFluffyBlock]
  cases hgather : gatherTxs cfg core s 0 newBlock.txHashes.toList with
  | none =>
      rw [hgather] at hspec
      obtain ⟨txHash, hmem, hlook⟩ := hspec
      exact absurd hlook (hodd txHash hmem)
  | some r =>
      rw [hgather] at hspec
      have hneed := hspec.2.mpr hmissing
      dsimp only
      rw [if_pos hneed, FluffyPeer.asked_post_request, if_pos hid]
      exact ⟨rfl, rfl⟩

theorem completeFluffyBlock_of_complete {id : Hash} {s : σ} {newBlock : Block}
    (h : ¬Incomplete ops cfg core id s newBlock) (arg : NewFluffyBlock) (p : FluffyPeer) :
    (completeFluffyBlock ops cfg core s arg newBlock p).asked id = p.asked id := by
  have hspec := @gatherTxs_spec σ cfg core s 0 newBlock.txHashes.toList
  rw [completeFluffyBlock]
  cases hgather : gatherTxs cfg core s 0 newBlock.txHashes.toList with
  | none => rfl
  | some r =>
      rw [hgather] at hspec
      dsimp only
      by_cases hneed : r.2 ≠ []
      · have hid : (getBlockHash ops cfg newBlock).getD nullHash ≠ id := by
          intro hid
          exact h ⟨hid, hspec.1, hspec.2.mp hneed⟩
        rw [if_pos hneed, FluffyPeer.asked_post_request, if_neg hid, Nat.add_zero]
      · rw [if_neg hneed, addFluffyBlock_asked]

theorem handleNotifyNewFluffyBlock_eq {op : FluffyOp σ} {p : FluffyPeer} {newBlock : Block}
    {hashes : List Hash} {s : σ} (hnormal : p.context.state = .normal)
    (hsync : op.isSynchronized = true)
    (hparse : parseAndValidateBlockFromBlob cfg op.arg.b.block = some newBlock)
    (hdel : Delivers ops cfg op.arg.b.txs hashes)
    (hstruck : p.context.requestedObjects = ∅ ∨
      hashes.Nodup ∧ hashes.toFinset = p.context.requestedObjects)
    (hacc : Accepted core op.core (op.arg.b.txs.zip hashes) s) :
    handleNotifyNewFluffyBlock ops cfg core op p =
      completeFluffyBlock ops cfg core s op.arg newBlock (p.setRequested ∅) := by
  have hcard : p.context.requestedObjects = ∅ ∨
      p.context.requestedObjects.card = op.arg.b.txs.length := by
    refine hstruck.imp_right ?_
    rintro ⟨hnodup, heq⟩
    rw [← heq, List.toFinset_card_of_nodup hnodup, hdel.length]
  have htaken := (takeTxs_iff hcard).mpr ⟨hashes, hdel, hstruck, hacc⟩
  have hsize : ¬(p.context.requestedObjects ≠ ∅ ∧
      p.context.requestedObjects.card ≠ op.arg.b.txs.length) := by tauto
  simp [handleNotifyNewFluffyBlock, hnormal, hsync, hparse, if_neg hsize, htaken]

theorem handleNotifyNewFluffyBlock_of_leavesMissing {id : Hash} {op : FluffyOp σ}
    {p : FluffyPeer} (h : LeavesMissing ops cfg core id op p.context) :
    (handleNotifyNewFluffyBlock ops cfg core op p).asked id = p.asked id + 1 ∧
      (handleNotifyNewFluffyBlock ops cfg core op p).dropped = p.dropped := by
  obtain ⟨hnormal, hsync, newBlock, hashes, s, hparse, hdel, hstruck, hacc, hinc⟩ := h
  rw [handleNotifyNewFluffyBlock_eq hnormal hsync hparse hdel hstruck hacc]
  exact completeFluffyBlock_of_incomplete hinc op.arg (p.setRequested ∅)

theorem handleNotifyNewFluffyBlock_asked {id : Hash} {op : FluffyOp σ} {p : FluffyPeer}
    (h : ¬LeavesMissing ops cfg core id op p.context) :
    (handleNotifyNewFluffyBlock ops cfg core op p).asked id = p.asked id := by
  rw [handleNotifyNewFluffyBlock]
  split_ifs with hstate
  · rfl
  rw [not_or, not_not, Bool.not_eq_false] at hstate
  cases hparse : parseAndValidateBlockFromBlob cfg op.arg.b.block with
  | none => rfl
  | some newBlock =>
      dsimp only
      by_cases hsize : p.context.requestedObjects ≠ ∅ ∧
          p.context.requestedObjects.card ≠ op.arg.b.txs.length
      · rw [if_pos hsize, FluffyPeer.asked_drop]
      have hcard : p.context.requestedObjects = ∅ ∨
          p.context.requestedObjects.card = op.arg.b.txs.length := by tauto
      rw [if_neg hsize]
      cases htaken : takeTxs ops cfg core op.core p.context.requestedObjects op.arg.b.txs with
      | mk rest taken =>
          cases taken with
          | none => rfl
          | some s =>
              dsimp only
              split_ifs with hrest
              · rfl
              rw [not_not] at hrest
              subst hrest
              obtain ⟨hashes, hdel, hstruck, hacc⟩ := (takeTxs_iff hcard).mp htaken
              have hcomplete : ¬Incomplete ops cfg core id s newBlock := by
                intro hinc
                exact h
                  ⟨hstate.1, hstate.2, newBlock, hashes, s, hparse, hdel, hstruck, hacc, hinc⟩
              rw [completeFluffyBlock_of_complete hcomplete, FluffyPeer.asked_setRequested]

/-! ### Runs of messages -/

variable (ops cfg core)

/-- A message asks once more exactly where it leaves the block incomplete, whatever was asked
before. Its peer stays connected. -/
theorem fluffyStep_asked (id : Hash) (op : FluffyOp σ) (p : FluffyPeer) :
    (p.dropped = false ∧ LeavesMissing ops cfg core id op p.context →
      (fluffyStep ops cfg core p op).asked id = p.asked id + 1 ∧
        (fluffyStep ops cfg core p op).dropped = false) ∧
    (¬(p.dropped = false ∧ LeavesMissing ops cfg core id op p.context) →
      (fluffyStep ops cfg core p op).asked id = p.asked id) := by
  rw [fluffyStep]
  cases hdrop : p.dropped with
  | true => simp
  | false =>
      rw [if_neg (by decide)]
      constructor
      · rintro ⟨-, hleaves⟩
        have hstep := handleNotifyNewFluffyBlock_of_leavesMissing hleaves
        rw [hdrop] at hstep
        exact hstep
      · intro hnot
        exact handleNotifyNewFluffyBlock_asked fun hleaves => hnot ⟨rfl, hleaves⟩

def FluffyPeer.start (c : SyncContext) : FluffyPeer := ⟨c, false, []⟩

/-- No block is asked for twice, and a peer that was asked and leaves the block incomplete is
dropped. -/
def AskedOnce (id : Hash) (c : SyncContext) (msgs : List (FluffyOp σ)) : Prop :=
  (∀ done, done <+: msgs →
    (Data.run (fluffyStep ops cfg core) (.start c) done).asked id ≤ 1) ∧
  ∀ done op, done ++ [op] <+: msgs →
    0 < (Data.run (fluffyStep ops cfg core) (.start c) done).asked id →
    LeavesMissing ops cfg core id op
      (Data.run (fluffyStep ops cfg core) (.start c) done).context →
    (Data.run (fluffyStep ops cfg core) (.start c) (done ++ [op])).dropped = true

/-- The requests for a block are bounded exactly in the runs in which no message of a connected
peer that was asked for it leaves it incomplete. -/
theorem askedOnce_iff (id : Hash) (c : SyncContext) (msgs : List (FluffyOp σ)) :
    AskedOnce ops cfg core id c msgs ↔
      ∀ done op, done ++ [op] <+: msgs →
        (Data.run (fluffyStep ops cfg core) (.start c) done).dropped = false →
        LeavesMissing ops cfg core id op
          (Data.run (fluffyStep ops cfg core) (.start c) done).context →
        (Data.run (fluffyStep ops cfg core) (.start c) done).asked id = 0 := by
  have hiff := Data.every_state_iff (fluffyStep ops cfg core)
    (P := fun p => p.asked id ≤ 1)
    (C := fun op p => p.dropped = false → LeavesMissing ops cfg core id op p.context →
      p.asked id = 0) (s := .start c) (Nat.zero_le 1) (by
    intro p op hp
    obtain ⟨hasks, hkeeps⟩ := fluffyStep_asked ops cfg core id op p
    by_cases hleaves : p.dropped = false ∧ LeavesMissing ops cfg core id op p.context
    · rw [(hasks hleaves).1]
      constructor
      · intro hle _ _
        omega
      · intro hzero
        rw [hzero hleaves.1 hleaves.2]
    · rw [hkeeps hleaves]
      exact iff_of_true hp fun hdrop hmiss => absurd ⟨hdrop, hmiss⟩ hleaves) msgs
  rw [AskedOnce, hiff, and_iff_left_iff_imp]
  intro hturn done op hdone hpos hleaves
  rw [Data.run_concat]
  cases hdrop : (Data.run (fluffyStep ops cfg core) (.start c) done).dropped with
  | true => rw [fluffyStep, if_pos hdrop, hdrop]
  | false => exact absurd (hturn done op hdone hdrop hleaves) (Nat.pos_iff_ne_zero.mp hpos)

/-- A core with an empty pool that has nothing of a block. -/
def emptyCore : FluffyCore Unit where
  poolHasTx _ _ := false
  handleIncomingTx s _ := some s
  getPoolTransaction _ _ := none
  getTransactions _ ids := (true, [], ids)
  handleIncomingBlock _ _ := none
  getShortChainHistory _ := []

def bareBlock : FluffyOp Unit where
  isSynchronized := true
  core := ()
  arg := ⟨⟨blockToBlob currentConfig (sampleBlock 0), []⟩, 2⟩

/-- A peer that answers with the same message is asked again. -/
theorem bareBlock_asked_twice :
    ¬AskedOnce sampleOps currentConfig emptyCore sampleId
      { startContext with state := .normal } [bareBlock, bareBlock] := by
  intro hbound
  have hasked : (Data.run (fluffyStep sampleOps currentConfig emptyCore)
      (.start { startContext with state := .normal }) [bareBlock, bareBlock]).asked sampleId =
        2 := by
    decide +kernel
  have hle := hbound.1 [bareBlock, bareBlock] (List.prefix_refl _)
  omega

end

end XrCoin.Protocol

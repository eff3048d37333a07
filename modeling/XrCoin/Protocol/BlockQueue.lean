import Mathlib
import XrCoin.Cryptonote.Basic
import XrCoin.Data.OrderedSet

/-!
The queue of spans that the synchronisation of the chain works through: `block_queue`.

A span is a run of heights that one connection is to deliver. It is scheduled at first,
and filled when the blocks have come. The hashes that some span is to deliver are also
kept in a set of their own, `requested_hashes`.

The methods that only read the queue, `requested` apart, stand with the handler that uses
them. The lock is left out.
-/

namespace XrCoin.Protocol

open Cryptonote Data

abbrev Uuid : Type := BitVec 128

def nilUuid : Uuid := 0

structure Span (β : Type) where
  startBlockHeight : UInt64
  hashes : List Hash
  blocks : List β
  connectionId : Uuid
  nblocks : UInt64
  rate : Float
  size : UInt64
  /-- The time of the request in microseconds, or no time at all. -/
  time : Option ℤ

variable {β : Type}

namespace Span

def key (s : Span β) : ℕ := s.startBlockHeight.toNat

def filled (startBlockHeight : UInt64) (blocks : List β) (connectionId : Uuid) (rate : Float)
    (size : UInt64) : Span β :=
  ⟨startBlockHeight, [], blocks, connectionId, UInt64.ofNat blocks.length, rate, size, none⟩

def scheduled (startBlockHeight nblocks : UInt64) (connectionId : Uuid) (time : Option ℤ) :
    Span β :=
  ⟨startBlockHeight, [], [], connectionId, nblocks, 0, 0, time⟩

theorem key_eq_iff {s t : Span β} :
    s.key = t.key ↔ s.startBlockHeight = t.startBlockHeight :=
  UInt64.toNat_inj

end Span

structure BlockQueue (β : Type) where
  blocks : OrderedSet (Span.key (β := β))
  requestedHashes : Finset Hash

namespace BlockQueue

def empty : BlockQueue β := ⟨∅, ∅⟩

def requestedInternal (q : BlockQueue β) (hash : Hash) : Bool :=
  decide (hash ∈ q.requestedHashes)

def requested (q : BlockQueue β) (hash : Hash) : Bool := q.requestedInternal hash

def isBlockchainPlaceholder (s : Span β) : Bool := decide (s.connectionId = nilUuid)

/-! ### Operations -/

def insertHashes (requested : Finset Hash) (hashes : List Hash) : Finset Hash :=
  hashes.foldl (fun r h => insert h r) requested

def eraseHashes (requested : Finset Hash) (hashes : List Hash) : Finset Hash :=
  hashes.foldl (fun r h => r.erase h) requested

def eraseBlock (q : BlockQueue β) (j : Span β) : BlockQueue β :=
  ⟨q.blocks.erase j, eraseHashes q.requestedHashes j.hashes⟩

def eraseSpans (p : Span β → Bool) (q : BlockQueue β) (spans : List (Span β)) : BlockQueue β :=
  spans.foldl (fun q j => if p j then q.eraseBlock j else q) q

def flushSpans (q : BlockQueue β) (connectionId : Uuid) (all : Bool) : BlockQueue β :=
  eraseSpans (fun j => decide (j.connectionId = connectionId) && (all || j.blocks.isEmpty)) q
    q.blocks.elems

/-- Whether the span waits for blocks of a connection that is gone. -/
def isStale (liveConnections : List Uuid) (j : Span β) : Bool :=
  decide (j.connectionId ∉ liveConnections) && j.blocks.isEmpty

def flushStaleSpans (q : BlockQueue β) (liveConnections : List Uuid) : BlockQueue β :=
  match q.blocks.elems with
  | [] => q
  | i :: rest =>
      -- the walk starts behind the placeholder
      eraseSpans (isStale liveConnections) q
        (if isBlockchainPlaceholder i then rest else i :: rest)

def removeSpan (q : BlockQueue β) (startBlockHeight : UInt64) :
    Option (List Hash) × BlockQueue β :=
  match q.blocks.elems.find? fun i => decide (i.startBlockHeight = startBlockHeight) with
  | some i => (some i.hashes, q.eraseBlock i)
  | none => (none, q)

def removeSpans (q : BlockQueue β) (connectionId : Uuid) (startBlockHeight : UInt64) :
    BlockQueue β :=
  eraseSpans (fun j => decide (j.connectionId = connectionId) &&
    decide (j.startBlockHeight ≤ startBlockHeight)) q q.blocks.elems

def setSpanHashes (q : BlockQueue β) (startHeight : UInt64) (connectionId : Uuid)
    (hashes : List Hash) : BlockQueue β :=
  match q.blocks.elems.find? fun i =>
      decide (i.startBlockHeight = startHeight) && decide (i.connectionId = connectionId) with
  | some i =>
      let q := q.eraseBlock i
      ⟨q.blocks.insert { i with hashes }, insertHashes q.requestedHashes hashes⟩
  | none => q

def addBlocks (q : BlockQueue β) (height : UInt64) (bcel : List β) (connectionId : Uuid)
    (rate : Float) (size : UInt64) : BlockQueue β :=
  let removed := q.removeSpan height
  let q := { removed.2 with
    blocks := removed.2.blocks.insert (.filled height bcel connectionId rate size) }
  match removed.1 with
  | some hashes =>
      setSpanHashes { q with requestedHashes := insertHashes q.requestedHashes hashes } height
        connectionId hashes
  | none => q

/-- `add_blocks` with a number of blocks, which throws for an empty span. -/
def addBlocksSpan (q : BlockQueue β) (height nblocks : UInt64) (connectionId : Uuid)
    (time : Option ℤ) : Option (BlockQueue β) :=
  if 0 < nblocks then
    some { q with blocks := q.blocks.insert (.scheduled height nblocks connectionId time) }
  else none

/-- The first loop of `reserve_span`: what is requested already is passed over. -/
def skipRequested (q : BlockQueue β) (spanStartHeight : UInt64) :
    List Hash → UInt64 × List Hash
  | [] => (spanStartHeight, [])
  | h :: rest =>
      if q.requestedInternal h then skipRequested q (spanStartHeight + 1) rest
      else (spanStartHeight, h :: rest)

def collectSpan (maxBlocks : UInt64) (spanLength : UInt64) (hashes : List Hash) :
    List Hash → UInt64 × List Hash
  | [] => (spanLength, hashes)
  | h :: rest =>
      if spanLength < maxBlocks then
        collectSpan maxBlocks (spanLength + 1) (hashes ++ [h]) rest
      else (spanLength, hashes)

def reserveSpan (q : BlockQueue β) (firstBlockHeight lastBlockHeight maxBlocks : UInt64)
    (connectionId : Uuid) (blockHashes : List Hash) (time : Option ℤ) :
    (UInt64 × UInt64) × BlockQueue β :=
  if lastBlockHeight < firstBlockHeight ∨ maxBlocks = 0 then ((0, 0), q)
  else
    let skipped := skipRequested q (lastBlockHeight - UInt64.ofNat blockHashes.length + 1)
      blockHashes
    let collected := collectSpan maxBlocks 0 [] skipped.2
    if collected.1 = 0 then ((0, 0), q)
    else
      match q.addBlocksSpan skipped.1 collected.1 connectionId time with
      | some q =>
          ((skipped.1, collected.1), q.setSpanHashes skipped.1 connectionId collected.2)
      | none => ((0, 0), q)

/-! ### The set of hashes -/

@[simp] theorem mem_insertHashes {r : Finset Hash} {l : List Hash} {h : Hash} :
    h ∈ insertHashes r l ↔ h ∈ r ∨ h ∈ l := by
  induction l generalizing r with
  | nil => simp [insertHashes]
  | cons x l ih =>
      rw [insertHashes, List.foldl_cons, ← insertHashes, ih, Finset.mem_insert, List.mem_cons]
      tauto

@[simp] theorem mem_eraseHashes {r : Finset Hash} {l : List Hash} {h : Hash} :
    h ∈ eraseHashes r l ↔ h ∈ r ∧ h ∉ l := by
  induction l generalizing r with
  | nil => simp [eraseHashes]
  | cons x l ih =>
      rw [eraseHashes, List.foldl_cons, ← eraseHashes, ih, Finset.mem_erase, List.mem_cons]
      tauto

/-! ### The loops of `reserve_span` -/

/-- What is left of a list of hashes when those requested already are passed over. -/
def unrequested (q : BlockQueue β) (blockHashes : List Hash) : List Hash :=
  blockHashes.dropWhile q.requested

/-- The height of the first hash that is left, for a list that ends at a height. -/
def spanStart (q : BlockQueue β) (lastBlockHeight : UInt64) (blockHashes : List Hash) : UInt64 :=
  lastBlockHeight - UInt64.ofNat blockHashes.length + 1 +
    UInt64.ofNat (blockHashes.takeWhile q.requested).length

theorem skipRequested_eq (q : BlockQueue β) (spanStartHeight : UInt64) (l : List Hash) :
    skipRequested q spanStartHeight l =
      (spanStartHeight + UInt64.ofNat (l.takeWhile q.requested).length,
        l.dropWhile q.requested) := by
  induction l generalizing spanStartHeight with
  | nil => simp [skipRequested]
  | cons h rest ih =>
      rw [skipRequested, ← requested]
      by_cases hreq : q.requested h = true
      · rw [if_pos hreq, ih, List.takeWhile_cons_of_pos hreq, List.dropWhile_cons_of_pos hreq,
          List.length_cons, UInt64.ofNat_add]
        congr 1
        change spanStartHeight + 1 + _ = spanStartHeight + (_ + 1)
        rw [UInt64.add_assoc, UInt64.add_comm 1]
      · rw [if_neg hreq, List.takeWhile_cons_of_neg hreq, List.dropWhile_cons_of_neg hreq]
        simp

theorem collectSpan_eq (maxBlocks spanLength : UInt64) (hashes l : List Hash)
    (h : spanLength ≤ maxBlocks) :
    collectSpan maxBlocks spanLength hashes l =
      (spanLength + UInt64.ofNat (l.take (maxBlocks.toNat - spanLength.toNat)).length,
        hashes ++ l.take (maxBlocks.toNat - spanLength.toNat)) := by
  induction l generalizing spanLength hashes with
  | nil => simp [collectSpan]
  | cons x rest ih =>
      rw [collectSpan]
      by_cases hlt : spanLength < maxBlocks
      · have hnat : spanLength.toNat < maxBlocks.toNat := UInt64.lt_iff_toNat_lt.mp hlt
        have hmax := maxBlocks.toNat_lt
        have hsucc : (spanLength + 1).toNat = spanLength.toNat + 1 := by
          rw [UInt64.toNat_add, UInt64.toNat_one]
          omega
        have hle : spanLength + 1 ≤ maxBlocks := by
          rw [UInt64.le_iff_toNat_le, hsucc]
          omega
        have htake : maxBlocks.toNat - spanLength.toNat =
            (maxBlocks.toNat - (spanLength + 1).toNat) + 1 := by
          omega
        rw [if_pos hlt, ih _ _ hle, htake, List.take_succ_cons, List.length_cons,
          UInt64.ofNat_add]
        congr 1
        · change spanLength + 1 + _ = spanLength + (_ + 1)
          rw [UInt64.add_assoc, UInt64.add_comm 1]
        · rw [List.append_assoc]
          rfl
      · have hnat : maxBlocks.toNat ≤ spanLength.toNat := by
          rw [UInt64.lt_iff_toNat_lt] at hlt
          omega
        rw [if_neg hlt, Nat.sub_eq_zero_of_le hnat]
        simp

theorem reserveSpan_eq (q : BlockQueue β) (firstBlockHeight lastBlockHeight maxBlocks : UInt64)
    (connectionId : Uuid) (blockHashes : List Hash) (time : Option ℤ) :
    q.reserveSpan firstBlockHeight lastBlockHeight maxBlocks connectionId blockHashes time =
      if lastBlockHeight < firstBlockHeight ∨ maxBlocks = 0 ∨ q.unrequested blockHashes = [] then
        ((0, 0), q)
      else
        let hashes := (q.unrequested blockHashes).take maxBlocks.toNat
        let start := q.spanStart lastBlockHeight blockHashes
        let scheduled := .scheduled start (UInt64.ofNat hashes.length) connectionId time
        ((start, UInt64.ofNat hashes.length),
          setSpanHashes { q with blocks := q.blocks.insert scheduled } start connectionId
            hashes) := by
  have hskip : skipRequested q (lastBlockHeight - UInt64.ofNat blockHashes.length + 1)
      blockHashes = (q.spanStart lastBlockHeight blockHashes, q.unrequested blockHashes) :=
    skipRequested_eq _ _ _
  have hcollect : collectSpan maxBlocks 0 [] (q.unrequested blockHashes) =
      (UInt64.ofNat ((q.unrequested blockHashes).take maxBlocks.toNat).length,
        (q.unrequested blockHashes).take maxBlocks.toNat) := by
    have hzero : (0 : UInt64) ≤ maxBlocks := by
      rw [UInt64.le_iff_toNat_le]
      exact Nat.zero_le _
    rw [collectSpan_eq _ _ _ _ hzero]
    simp
  simp only [reserveSpan, hskip, hcollect]
  by_cases hearly : lastBlockHeight < firstBlockHeight ∨ maxBlocks = 0
  · rw [if_pos hearly, if_pos (by tauto)]
  · rw [if_neg hearly]
    have hmax : 0 < maxBlocks.toNat := by
      have hne : maxBlocks ≠ 0 := fun h => hearly (Or.inr h)
      rw [Nat.pos_iff_ne_zero, ne_eq, ← UInt64.toNat_zero, UInt64.toNat_inj]
      exact hne
    have hlength : ((q.unrequested blockHashes).take maxBlocks.toNat).length < 2 ^ 64 :=
      (List.length_take_le _ _).trans_lt maxBlocks.toNat_lt
    by_cases hempty : q.unrequested blockHashes = []
    · rw [if_pos (Or.inr (Or.inr hempty)), hempty]
      simp
    · have hne : UInt64.ofNat ((q.unrequested blockHashes).take maxBlocks.toNat).length ≠ 0 := by
        rw [ne_eq, ← UInt64.toNat_inj, UInt64.toNat_ofNat_of_lt' hlength, UInt64.toNat_zero,
          List.length_eq_zero_iff, List.take_eq_nil_iff]
        exact not_or.mpr ⟨hmax.ne', hempty⟩
      have hpos : 0 < UInt64.ofNat ((q.unrequested blockHashes).take maxBlocks.toNat).length :=
        UInt64.pos_iff_ne_zero.mpr hne
      rw [if_neg hne, if_neg (by tauto), addBlocksSpan, if_pos hpos]

end BlockQueue

end XrCoin.Protocol

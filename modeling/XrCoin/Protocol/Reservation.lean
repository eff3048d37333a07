import Mathlib
import XrCoin.Protocol.Requested

/-!
What `reserve_span` promises to the connection that asks for blocks.

The heights it returns are those of the first hashes of the list that nobody was asked for.
The span for them comes into the queue, unless another one starts at the same height: then
the insertion is ignored, and the connection is told to fetch blocks it has no span for.
-/

namespace XrCoin.Protocol

open Cryptonote Data

variable {β : Type}

namespace BlockQueue

/-- The hash for a height, in a list whose last hash is the one for `lastBlockHeight`. -/
def hashAt (lastBlockHeight : UInt64) (blockHashes : List Hash) (height : ℕ) : Option Hash :=
  if lastBlockHeight.toNat + 1 ≤ height + blockHashes.length then
    blockHashes[height + blockHashes.length - (lastBlockHeight.toNat + 1)]?
  else none

/-- The hash for the height is in the list and not requested, all before it are. -/
def FirstUnrequested (q : BlockQueue β) (lastBlockHeight : UInt64) (blockHashes : List Hash)
    (height : ℕ) : Prop :=
  (∃ h, hashAt lastBlockHeight blockHashes height = some h ∧ q.requested h = false) ∧
    ∀ k < height, ∀ h, hashAt lastBlockHeight blockHashes k = some h → q.requested h = true

/-- The contract: `r` is the result of a call with the queue it leaves behind. -/
def Reserves (q : BlockQueue β) (lastBlockHeight maxBlocks : UInt64) (connectionId : Uuid)
    (blockHashes : List Hash) (r : (UInt64 × UInt64) × BlockQueue β) : Prop :=
  (0 < r.1.2 →
    (∃ s ∈ r.2.blocks, s.startBlockHeight = r.1.1 ∧ s.nblocks = r.1.2 ∧
      s.connectionId = connectionId ∧
      s.hashes.map some = (List.range r.1.2.toNat).map
        fun i => hashAt lastBlockHeight blockHashes (r.1.1.toNat + i)) ∧
    r.1.2 ≤ maxBlocks ∧ FirstUnrequested q lastBlockHeight blockHashes r.1.1.toNat) ∧
  (r.1.2 = 0 → ∀ h ∈ blockHashes, q.requested h = true)

/-- A span that starts where the reservation is to start is the one of the connection, and
as long as the reservation. -/
def Unoccupied (q : BlockQueue β) (lastBlockHeight maxBlocks : UInt64) (connectionId : Uuid)
    (blockHashes : List Hash) : Prop :=
  ∀ t ∈ q.blocks, FirstUnrequested q lastBlockHeight blockHashes t.startBlockHeight.toNat →
    t.connectionId = connectionId ∧
      t.nblocks.toNat = min maxBlocks.toNat (lastBlockHeight.toNat + 1 - t.startBlockHeight.toNat)

/-! ### Heights and hashes -/

theorem firstUnrequested_unique {q : BlockQueue β} {lastBlockHeight : UInt64}
    {blockHashes : List Hash} {k l : ℕ} (hk : FirstUnrequested q lastBlockHeight blockHashes k)
    (hl : FirstUnrequested q lastBlockHeight blockHashes l) : k = l := by
  obtain ⟨⟨h, hh, hnot⟩, hbefore⟩ := hk
  obtain ⟨⟨h', hh', hnot'⟩, hbefore'⟩ := hl
  rcases Nat.lt_trichotomy k l with hlt | heq | hgt
  · rw [hbefore' k hlt h hh] at hnot
    cases hnot
  · exact heq
  · rw [hbefore l hgt h' hh'] at hnot'
    cases hnot'

theorem hashAt_of_le {lastBlockHeight : UInt64} {blockHashes : List Hash}
    (hlength : blockHashes.length ≤ lastBlockHeight.toNat + 1) (k : ℕ) :
    hashAt lastBlockHeight blockHashes (lastBlockHeight.toNat + 1 - blockHashes.length + k) =
      blockHashes[k]? := by
  rw [hashAt, if_pos (by omega)]
  congr 1
  omega

theorem exists_of_hashAt {lastBlockHeight : UInt64} {blockHashes : List Hash}
    (hlength : blockHashes.length ≤ lastBlockHeight.toNat + 1) {height : ℕ} {h : Hash}
    (hh : hashAt lastBlockHeight blockHashes height = some h) :
    ∃ k, height = lastBlockHeight.toNat + 1 - blockHashes.length + k ∧
      blockHashes[k]? = some h := by
  rw [hashAt] at hh
  split at hh
  · exact ⟨_, by omega, hh⟩
  · cases hh

/-- The hashes passed over, as a number of heights. -/
theorem spanStart_toNat {q : BlockQueue β} {lastBlockHeight : UInt64} {blockHashes : List Hash}
    (hlength : blockHashes.length ≤ lastBlockHeight.toNat + 1)
    (hleft : q.unrequested blockHashes ≠ []) :
    (q.spanStart lastBlockHeight blockHashes).toNat =
      lastBlockHeight.toNat + 1 - blockHashes.length +
        (blockHashes.takeWhile q.requested).length := by
  have hsplit : (blockHashes.takeWhile q.requested).length + (q.unrequested blockHashes).length =
      blockHashes.length := by
    rw [← List.length_append, unrequested, List.takeWhile_append_dropWhile]
  have hpos := List.length_pos_iff.mpr hleft
  have hlast := lastBlockHeight.toNat_lt
  rw [spanStart, UInt64.toNat_add, UInt64.toNat_add, UInt64.toNat_sub, UInt64.toNat_ofNat',
    UInt64.toNat_ofNat', UInt64.toNat_one]
  omega

theorem firstUnrequested_spanStart {q : BlockQueue β} {lastBlockHeight : UInt64}
    {blockHashes : List Hash} (hlength : blockHashes.length ≤ lastBlockHeight.toNat + 1)
    (hleft : q.unrequested blockHashes ≠ []) :
    FirstUnrequested q lastBlockHeight blockHashes
      (q.spanStart lastBlockHeight blockHashes).toNat := by
  set passed := blockHashes.takeWhile q.requested with hpassed
  have hsplit : passed ++ q.unrequested blockHashes = blockHashes :=
    List.takeWhile_append_dropWhile
  rw [spanStart_toNat hlength hleft]
  constructor
  · obtain ⟨h, rest, hrest⟩ := List.exists_cons_of_ne_nil hleft
    refine ⟨h, ?_, ?_⟩
    · rw [hashAt_of_le hlength, ← hpassed, ← hsplit, List.getElem?_append_right le_rfl, hrest]
      simp
    · have hdrop : blockHashes.dropWhile q.requested = h :: rest := hrest
      have hhead := List.head?_dropWhile_not q.requested blockHashes
      rw [hdrop] at hhead
      exact hhead
  · intro k hk h hh
    obtain ⟨j, rfl, hj⟩ := exists_of_hashAt hlength hh
    rw [← hpassed] at hk
    have hlt : j < passed.length := by omega
    rw [← hsplit, List.getElem?_append_left hlt] at hj
    exact List.mem_takeWhile_imp (List.mem_of_getElem? hj)

theorem taken_hashes {q : BlockQueue β} {lastBlockHeight : UInt64} {blockHashes : List Hash}
    (hlength : blockHashes.length ≤ lastBlockHeight.toNat + 1)
    (hleft : q.unrequested blockHashes ≠ []) (n : ℕ) :
    ((q.unrequested blockHashes).take n).map some =
      (List.range ((q.unrequested blockHashes).take n).length).map fun i =>
        hashAt lastBlockHeight blockHashes
          ((q.spanStart lastBlockHeight blockHashes).toNat + i) := by
  set passed := blockHashes.takeWhile q.requested with hpassed
  have hsplit : passed ++ q.unrequested blockHashes = blockHashes :=
    List.takeWhile_append_dropWhile
  apply List.ext_getElem
  · simp
  · intro i hi hi'
    rw [List.length_map, List.length_take] at hi
    rw [List.getElem_map, List.getElem_map, List.getElem_range, List.getElem_take,
      spanStart_toNat hlength hleft, Nat.add_assoc, hashAt_of_le hlength, ← hpassed]
    conv_rhs => rw [← hsplit]
    rw [List.getElem?_append_right (Nat.le_add_right _ _), Nat.add_sub_cancel_left,
      List.getElem?_eq_getElem (by omega)]

/-- The number of blocks is cut at `max_blocks` and at the end of the list. -/
theorem taken_length {q : BlockQueue β} {lastBlockHeight maxBlocks : UInt64}
    {blockHashes : List Hash} (hlength : blockHashes.length ≤ lastBlockHeight.toNat + 1)
    (hleft : q.unrequested blockHashes ≠ []) :
    (UInt64.ofNat ((q.unrequested blockHashes).take maxBlocks.toNat).length).toNat =
      min maxBlocks.toNat
        (lastBlockHeight.toNat + 1 - (q.spanStart lastBlockHeight blockHashes).toNat) := by
  have hsplit : (blockHashes.takeWhile q.requested).length + (q.unrequested blockHashes).length =
      blockHashes.length := by
    rw [← List.length_append, unrequested, List.takeWhile_append_dropWhile]
  have hmax := maxBlocks.toNat_lt
  have hlt : ((q.unrequested blockHashes).take maxBlocks.toNat).length < 2 ^ 64 :=
    (List.length_take_le _ _).trans_lt hmax
  rw [UInt64.toNat_ofNat_of_lt' hlt, List.length_take, spanStart_toNat hlength hleft]
  omega

theorem requested_of_unrequested_nil {q : BlockQueue β} {blockHashes : List Hash}
    (hnone : q.unrequested blockHashes = []) : ∀ h ∈ blockHashes, q.requested h = true :=
  List.dropWhile_eq_nil_iff.mp hnone

theorem mem_of_hashAt {lastBlockHeight : UInt64} {blockHashes : List Hash} {height : ℕ} {h : Hash}
    (hh : hashAt lastBlockHeight blockHashes height = some h) : h ∈ blockHashes := by
  rw [hashAt] at hh
  split at hh
  · exact List.mem_of_getElem? hh
  · cases hh

/-! ### The span in the queue -/

theorem exists_setSpanHashes_iff {q : BlockQueue β} {startHeight n : UInt64} {connectionId : Uuid}
    {hashes : List Hash} :
    (∃ s ∈ (q.setSpanHashes startHeight connectionId hashes).blocks,
      s.startBlockHeight = startHeight ∧ s.nblocks = n ∧ s.connectionId = connectionId ∧
        s.hashes = hashes) ↔
      ∃ i ∈ q.blocks, i.startBlockHeight = startHeight ∧ i.nblocks = n ∧
        i.connectionId = connectionId := by
  rcases setSpanHashes_cases q startHeight connectionId hashes with
    ⟨heq, hnone⟩ | ⟨i, hi, hstart, hconn, hblocks, -⟩
  · rw [heq]
    constructor
    · rintro ⟨s, hs, hstart, -, hconn, -⟩
      exact absurd hconn (hnone s hs hstart)
    · rintro ⟨s, hs, hstart, -, hconn⟩
      exact absurd hconn (hnone s hs hstart)
  · constructor
    · rintro ⟨s, hs, hsstart, hn, -, -⟩
      rcases (hblocks s).mp hs with ⟨-, hother⟩ | rfl
      · exact absurd hsstart hother
      · exact ⟨i, hi, hstart, hn, hconn⟩
    · rintro ⟨j, hj, hjstart, hn, -⟩
      have hji : j = i :=
        OrderedSet.eq_of_key_eq hj hi (Span.key_eq_iff.mpr (hjstart.trans hstart.symm))
      subst hji
      exact ⟨_, (hblocks _).mpr (Or.inr rfl), hstart, hn, hconn, rfl⟩

/-- The scheduled span comes in, unless its height is taken. -/
theorem exists_insert_scheduled_iff {q : BlockQueue β} {start n : UInt64} {connectionId : Uuid}
    {time : Option ℤ} :
    (∃ i ∈ q.blocks.insert (.scheduled start n connectionId time),
      i.startBlockHeight = start ∧ i.nblocks = n ∧ i.connectionId = connectionId) ↔
      ∀ t ∈ q.blocks, t.startBlockHeight = start → t.connectionId = connectionId ∧
        t.nblocks = n := by
  constructor
  · rintro ⟨i, hi, hstart, hn, hconn⟩ t ht htstart
    rcases OrderedSet.mem_insert.mp hi with hi | ⟨rfl, hfree⟩
    · have hti : t = i :=
        OrderedSet.eq_of_key_eq ht hi (Span.key_eq_iff.mpr (htstart.trans hstart.symm))
      rw [hti]
      exact ⟨hconn, hn⟩
    · exact absurd (Span.key_eq_iff.mpr htstart) (hfree t ht)
  · intro hall
    by_cases htaken : ∃ t ∈ q.blocks, t.startBlockHeight = start
    · obtain ⟨t, ht, hstart⟩ := htaken
      obtain ⟨hconn, hn⟩ := hall t ht hstart
      exact ⟨t, OrderedSet.mem_insert.mpr (Or.inl ht), hstart, hn, hconn⟩
    · refine ⟨_, OrderedSet.mem_insert.mpr (Or.inr ⟨rfl, fun t ht hkey => ?_⟩), rfl, rfl, rfl⟩
      exact htaken ⟨t, ht, Span.key_eq_iff.mp hkey⟩

/-- `reserve_span` meets its contract exactly when no other span starts where the
reservation starts. -/
theorem reserveSpan_reserves_iff (q : BlockQueue β)
    (firstBlockHeight lastBlockHeight maxBlocks : UInt64) (connectionId : Uuid)
    (blockHashes : List Hash) (time : Option ℤ)
    (hlength : blockHashes.length ≤ lastBlockHeight.toNat + 1)
    (hheights : firstBlockHeight ≤ lastBlockHeight) (hmax : 0 < maxBlocks) :
    Reserves q lastBlockHeight maxBlocks connectionId blockHashes
        (q.reserveSpan firstBlockHeight lastBlockHeight maxBlocks connectionId blockHashes time) ↔
      Unoccupied q lastBlockHeight maxBlocks connectionId blockHashes := by
  have hmax' : maxBlocks ≠ 0 := UInt64.pos_iff_ne_zero.mp hmax
  rw [reserveSpan_eq]
  by_cases hnone : q.unrequested blockHashes = []
  · have hall := requested_of_unrequested_nil hnone
    rw [if_pos (Or.inr (Or.inr hnone))]
    refine iff_of_true ⟨fun hpos => absurd hpos (UInt64.lt_irrefl 0), fun _ => hall⟩ ?_
    rintro t - ⟨⟨h, hh, hnot⟩, -⟩
    rw [hall h (mem_of_hashAt hh)] at hnot
    cases hnot
  · have hnotEarly : ¬(lastBlockHeight < firstBlockHeight ∨ maxBlocks = 0 ∨
        q.unrequested blockHashes = []) := by
      rintro (hlt | hzero | hempty)
      · exact UInt64.not_lt.mpr hheights hlt
      · exact hmax' hzero
      · exact hnone hempty
    rw [if_neg hnotEarly]
    set hashes := (q.unrequested blockHashes).take maxBlocks.toNat with hhashes
    set start := q.spanStart lastBlockHeight blockHashes with hstart
    have hfirst : FirstUnrequested q lastBlockHeight blockHashes start.toNat :=
      firstUnrequested_spanStart hlength hnone
    have hcount : (UInt64.ofNat hashes.length).toNat =
        min maxBlocks.toNat (lastBlockHeight.toNat + 1 - start.toNat) :=
      taken_length hlength hnone
    have hlt : hashes.length < 2 ^ 64 := (List.length_take_le _ _).trans_lt maxBlocks.toNat_lt
    have hpos : 0 < UInt64.ofNat hashes.length := by
      rw [UInt64.lt_iff_toNat_lt, UInt64.toNat_ofNat_of_lt' hlt, UInt64.toNat_zero,
        List.length_pos_iff, ne_eq, hhashes, List.take_eq_nil_iff, not_or]
      exact ⟨(UInt64.lt_iff_toNat_lt.mp hmax).ne', hnone⟩
    have hle : UInt64.ofNat hashes.length ≤ maxBlocks := by
      rw [UInt64.le_iff_toNat_le, hcount]
      exact Nat.min_le_left _ _
    have hsame : ∀ l : List Hash, l.map some = (List.range (UInt64.ofNat hashes.length).toNat).map
        (fun i => hashAt lastBlockHeight blockHashes (start.toNat + i)) ↔ l = hashes := by
      intro l
      rw [UInt64.toNat_ofNat_of_lt' hlt, ← taken_hashes hlength hnone,
        (List.map_injective_iff.mpr (Option.some_injective Hash)).eq_iff]
    have hne : UInt64.ofNat hashes.length ≠ 0 := UInt64.pos_iff_ne_zero.mp hpos
    simp only [Reserves, Unoccupied, hpos, hle, hfirst, and_true, forall_const, hsame, hne,
      false_implies, exists_setSpanHashes_iff, exists_insert_scheduled_iff]
    refine forall₂_congr fun t ht => ⟨fun himp hunreq => ?_, fun himp htstart => ?_⟩
    · have htstart : t.startBlockHeight = start :=
        UInt64.toNat_inj.mp (firstUnrequested_unique hunreq hfirst)
      obtain ⟨hconn, hn⟩ := himp htstart
      rw [hn, hcount, htstart]
      exact ⟨hconn, rfl⟩
    · rw [htstart] at himp
      obtain ⟨hconn, hn⟩ := himp hfirst
      exact ⟨hconn, UInt64.toNat_inj.mp (hn.trans hcount.symm)⟩

def oneSpan : BlockQueue Unit :=
  run step empty [.reserveSpan 1 2 10 1 [hashOfNat 1, hashOfNat 2] none]

/-- A second connection, on another chain, is told to fetch the heights 1 and 2, and no span
of it is in the queue. -/
theorem oneSpan_not_reserved :
    ¬Reserves oneSpan 2 10 2 [hashOfNat 11, hashOfNat 12]
      (oneSpan.reserveSpan 1 2 10 2 [hashOfNat 11, hashOfNat 12] none) := by
  rintro ⟨hpos, -⟩
  obtain ⟨⟨s, hs, -, -, hconn, -⟩, -, -⟩ := hpos (by decide)
  have hall : ((oneSpan.reserveSpan 1 2 10 2 [hashOfNat 11, hashOfNat 12] none).2.blocks.elems.all
      fun s => decide (s.connectionId = 1)) = true := by
    decide
  have hone := List.all_eq_true.mp hall s hs
  rw [hconn] at hone
  exact absurd hone (by decide)

/-- A second connection on the same chain is sent on to the height behind the span. -/
theorem reserveSpan_reserves_iff_oneSpan :
    ([hashOfNat 1, hashOfNat 2, hashOfNat 3].length ≤ (3 : UInt64).toNat + 1 ∧
      (1 : UInt64) ≤ 3 ∧ (0 : UInt64) < 10) ∧
    (Reserves oneSpan 3 10 2 [hashOfNat 1, hashOfNat 2, hashOfNat 3]
        (oneSpan.reserveSpan 1 3 10 2 [hashOfNat 1, hashOfNat 2, hashOfNat 3] none) ↔
      Unoccupied oneSpan 3 10 2 [hashOfNat 1, hashOfNat 2, hashOfNat 3]) :=
  ⟨by decide, reserveSpan_reserves_iff oneSpan 1 3 10 2
    [hashOfNat 1, hashOfNat 2, hashOfNat 3] none (by decide) (by decide) (by decide)⟩

end BlockQueue

end XrCoin.Protocol

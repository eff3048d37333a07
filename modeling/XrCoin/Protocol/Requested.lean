import XrCoin.Protocol.BlockQueue
import XrCoin.Cryptonote.Hashes
import XrCoin.Data.Runs

/-!
Whether `requested_hashes` holds exactly the hashes of the queued spans.

Spans of different connections may overlap, and the erasing of one span takes its hashes
out of the set, also those that another span still has to deliver. So the bookkeeping is
right in a run exactly when no step erases a span with such a hash.
-/

namespace XrCoin.Protocol

open Cryptonote Data

variable {β : Type}

namespace BlockQueue

/-- The set of requested hashes is the union of the hashes of the spans. -/
def Recorded (q : BlockQueue β) : Prop :=
  ∀ h, q.requested h = true ↔ ∃ s ∈ q.blocks, h ∈ s.hashes

theorem requested_iff {q : BlockQueue β} {h : Hash} :
    q.requested h = true ↔ h ∈ q.requestedHashes := by
  rw [requested, requestedInternal, decide_eq_true_iff]

theorem recorded_empty : Recorded (empty : BlockQueue β) := by
  intro h
  simp [requested_iff, empty]

/-! ### What the operations do -/

theorem eraseSpans_spec (p : Span β → Bool) (q : BlockQueue β) (spans : List (Span β)) :
    (∀ t, t ∈ (eraseSpans p q spans).blocks ↔
      t ∈ q.blocks ∧ ∀ s ∈ spans, p s = true → t.key ≠ s.key) ∧
    ∀ h, h ∈ (eraseSpans p q spans).requestedHashes ↔
      h ∈ q.requestedHashes ∧ ∀ s ∈ spans, p s = true → h ∉ s.hashes := by
  induction spans generalizing q with
  | nil => simp [eraseSpans]
  | cons s spans ih =>
      rw [eraseSpans, List.foldl_cons, ← eraseSpans]
      obtain ⟨hblocks, hhashes⟩ := ih (if p s then q.eraseBlock s else q)
      by_cases hp : p s = true
      · rw [if_pos hp] at hblocks hhashes ⊢
        constructor
        · intro t
          rw [hblocks, eraseBlock, OrderedSet.mem_erase, List.forall_mem_cons]
          tauto
        · intro h
          rw [hhashes, eraseBlock, mem_eraseHashes, List.forall_mem_cons]
          tauto
      · rw [if_neg hp] at hblocks hhashes ⊢
        constructor
        · intro t
          rw [hblocks, List.forall_mem_cons]
          tauto
        · intro h
          rw [hhashes, List.forall_mem_cons]
          tauto

/-- No hash of a span of the kind is in a span that is not. -/
def Apart (q : BlockQueue β) (p : Span β → Prop) : Prop :=
  ∀ s ∈ q.blocks, p s → ∀ t ∈ q.blocks, ¬p t → ∀ h ∈ s.hashes, h ∉ t.hashes

/-- How the bookkeeping fares when the spans of a kind are erased. -/
theorem recorded_erased_iff {q q' : BlockQueue β} {p : Span β → Prop} (hq : Recorded q)
    (hblocks : ∀ t, t ∈ q'.blocks ↔ t ∈ q.blocks ∧ ¬p t)
    (hhashes : ∀ h, h ∈ q'.requestedHashes ↔
      h ∈ q.requestedHashes ∧ ∀ s ∈ q.blocks, p s → h ∉ s.hashes) :
    Recorded q' ↔ Apart q p := by
  constructor
  · intro hq' s hs hps t ht hpt h hhs hht
    have hreq := (hq' h).mpr ⟨t, (hblocks t).mpr ⟨ht, hpt⟩, hht⟩
    rw [requested_iff, hhashes] at hreq
    exact hreq.2 s hs hps hhs
  · intro hapart h
    rw [requested_iff, hhashes, ← requested_iff, hq h]
    constructor
    · rintro ⟨⟨t, ht, hht⟩, hnone⟩
      exact ⟨t, (hblocks t).mpr ⟨ht, fun hpt => hnone t ht hpt hht⟩, hht⟩
    · rintro ⟨t, ht, hht⟩
      obtain ⟨ht, hpt⟩ := (hblocks t).mp ht
      exact ⟨⟨t, ht, hht⟩, fun s hs hps hhs => hapart s hs hps t ht hpt h hhs hht⟩

theorem recorded_eraseSpans_iff {q : BlockQueue β} {p : Span β → Bool} {r : Span β → Prop}
    {spans : List (Span β)} (hq : Recorded q)
    (hspans : ∀ s, s ∈ spans ∧ p s = true ↔ s ∈ q.blocks ∧ r s) :
    Recorded (eraseSpans p q spans) ↔ Apart q r := by
  obtain ⟨hblocks, hhashes⟩ := eraseSpans_spec p q spans
  apply recorded_erased_iff hq
  · intro t
    rw [hblocks]
    constructor
    · rintro ⟨ht, hkeys⟩
      refine ⟨ht, fun hr => ?_⟩
      obtain ⟨hmem, hp⟩ := (hspans t).mpr ⟨ht, hr⟩
      exact hkeys t hmem hp rfl
    · rintro ⟨ht, hr⟩
      refine ⟨ht, fun s hs hp hkey => ?_⟩
      obtain ⟨hmem, hrs⟩ := (hspans s).mp ⟨hs, hp⟩
      rw [OrderedSet.eq_of_key_eq ht hmem hkey] at hr
      exact hr hrs
  · intro h
    rw [hhashes]
    have hiff : (∀ s ∈ spans, p s = true → h ∉ s.hashes) ↔
        ∀ s ∈ q.blocks, r s → h ∉ s.hashes := by
      constructor
      · intro hall s hs hr
        obtain ⟨hmem, hp⟩ := (hspans s).mpr ⟨hs, hr⟩
        exact hall s hmem hp
      · intro hall s hs hp
        obtain ⟨hmem, hr⟩ := (hspans s).mp ⟨hs, hp⟩
        exact hall s hmem hr
    rw [hiff]

theorem recorded_removeSpan_iff {q : BlockQueue β} {startBlockHeight : UInt64} (hq : Recorded q) :
    Recorded (q.removeSpan startBlockHeight).2 ↔
      Apart q fun s => s.startBlockHeight = startBlockHeight := by
  rw [removeSpan]
  cases hfind : q.blocks.elems.find? fun i => decide (i.startBlockHeight = startBlockHeight) with
  | none =>
      refine iff_of_true hq fun s hs hstart => ?_
      exact absurd (decide_eq_true hstart) (List.find?_eq_none.mp hfind s hs)
  | some i =>
      have hi : i ∈ q.blocks := List.mem_of_find?_eq_some hfind
      have hstart : i.startBlockHeight = startBlockHeight := by
        simpa using List.find?_some hfind
      subst hstart
      change Recorded (q.eraseBlock i) ↔ _
      apply recorded_erased_iff hq
      · intro t
        rw [eraseBlock, OrderedSet.mem_erase, ne_eq, Span.key_eq_iff]
      · intro h
        rw [eraseBlock, mem_eraseHashes]
        refine and_congr_right fun _ => ⟨fun hnot s hs hkey => ?_, fun hall => hall i hi rfl⟩
        rw [OrderedSet.eq_of_key_eq hs hi (Span.key_eq_iff.mpr hkey)]
        exact hnot

theorem setSpanHashes_cases (q : BlockQueue β) (startHeight : UInt64) (connectionId : Uuid)
    (hashes : List Hash) :
    (q.setSpanHashes startHeight connectionId hashes = q ∧
      ∀ s ∈ q.blocks, s.startBlockHeight = startHeight → s.connectionId ≠ connectionId) ∨
    ∃ i ∈ q.blocks, i.startBlockHeight = startHeight ∧ i.connectionId = connectionId ∧
      (∀ t, t ∈ (q.setSpanHashes startHeight connectionId hashes).blocks ↔
        (t ∈ q.blocks ∧ t.startBlockHeight ≠ startHeight) ∨ t = { i with hashes }) ∧
      ∀ h, h ∈ (q.setSpanHashes startHeight connectionId hashes).requestedHashes ↔
        (h ∈ q.requestedHashes ∧ h ∉ i.hashes) ∨ h ∈ hashes := by
  rw [setSpanHashes]
  cases hfind : q.blocks.elems.find? fun i =>
      decide (i.startBlockHeight = startHeight) && decide (i.connectionId = connectionId) with
  | none =>
      refine Or.inl ⟨rfl, fun s hs hstart hconn => ?_⟩
      have hnot := List.find?_eq_none.mp hfind s hs
      simp [hstart, hconn] at hnot
  | some i =>
      have hi : i ∈ q.blocks := List.mem_of_find?_eq_some hfind
      obtain ⟨hstart, hconn⟩ : i.startBlockHeight = startHeight ∧
          i.connectionId = connectionId := by
        simpa using List.find?_some hfind
      refine Or.inr ⟨i, hi, hstart, hconn, fun t => ?_, fun h => ?_⟩
      · have hkey : ({ i with hashes } : Span β).key = i.key := rfl
        rw [← hstart]
        change t ∈ (q.blocks.erase i).insert { i with hashes } ↔ _
        rw [OrderedSet.mem_insert_erase hkey, ne_eq, Span.key_eq_iff]
      · change h ∈ insertHashes (eraseHashes q.requestedHashes i.hashes) hashes ↔ _
        rw [mem_insertHashes, mem_eraseHashes]

/-- The hashes that the span at this height loses are in no other span. -/
def Replaceable (q : BlockQueue β) (startHeight : UInt64) (connectionId : Uuid)
    (hashes : List Hash) : Prop :=
  ∀ s ∈ q.blocks, s.startBlockHeight = startHeight → s.connectionId = connectionId →
    ∀ t ∈ q.blocks, t.startBlockHeight ≠ startHeight →
      ∀ h ∈ s.hashes, h ∉ hashes → h ∉ t.hashes

theorem recorded_setSpanHashes_iff {q : BlockQueue β} {startHeight : UInt64} {connectionId : Uuid}
    {hashes : List Hash} (hq : Recorded q) :
    Recorded (q.setSpanHashes startHeight connectionId hashes) ↔
      Replaceable q startHeight connectionId hashes := by
  rcases setSpanHashes_cases q startHeight connectionId hashes with
    ⟨heq, hnone⟩ | ⟨i, hi, hstart, hconn, hblocks, hhashes⟩
  · rw [heq]
    exact iff_of_true hq fun s hs hstart hconn => absurd hconn (hnone s hs hstart)
  · constructor
    · intro hq' s hs hstart' hconn' t ht hother h hhs hnew hht
      have hsi : s = i :=
        OrderedSet.eq_of_key_eq hs hi (Span.key_eq_iff.mpr (hstart'.trans hstart.symm))
      subst hsi
      have hreq := (hq' h).mpr ⟨t, (hblocks t).mpr (Or.inl ⟨ht, hother⟩), hht⟩
      rw [requested_iff, hhashes] at hreq
      rcases hreq with ⟨-, hnot⟩ | hnew'
      · exact hnot hhs
      · exact hnew hnew'
    · intro hrep h
      rw [requested_iff, hhashes, ← requested_iff, hq h]
      constructor
      · rintro (⟨⟨t, ht, hht⟩, hnot⟩ | hnew)
        · have hother : t.startBlockHeight ≠ startHeight := by
            intro hsame
            have hti : t = i :=
              OrderedSet.eq_of_key_eq ht hi (Span.key_eq_iff.mpr (hsame.trans hstart.symm))
            subst hti
            exact hnot hht
          exact ⟨t, (hblocks t).mpr (Or.inl ⟨ht, hother⟩), hht⟩
        · exact ⟨_, (hblocks _).mpr (Or.inr rfl), hnew⟩
      · rintro ⟨t, ht, hht⟩
        rcases (hblocks t).mp ht with ⟨ht, hother⟩ | rfl
        · by_cases hnew : h ∈ hashes
          · exact Or.inr hnew
          · exact Or.inl ⟨⟨t, ht, hht⟩,
              fun hhi => hrep i hi hstart hconn t ht hother h hhi hnew hht⟩
        · exact Or.inr hht

/-- A span that comes without hashes does not touch the bookkeeping. -/
theorem recorded_insert_iff {q : BlockQueue β} {s : Span β} (hs : s.hashes = []) :
    Recorded { q with blocks := q.blocks.insert s } ↔ Recorded q := by
  have hiff : ∀ h, (∃ t ∈ q.blocks.insert s, h ∈ t.hashes) ↔ ∃ t ∈ q.blocks, h ∈ t.hashes := by
    intro h
    constructor
    · rintro ⟨t, ht, hht⟩
      rcases OrderedSet.mem_insert.mp ht with ht | ⟨rfl, -⟩
      · exact ⟨t, ht, hht⟩
      · rw [hs] at hht
        exact absurd hht List.not_mem_nil
    · rintro ⟨t, ht, hht⟩
      exact ⟨t, OrderedSet.mem_insert.mpr (Or.inl ht), hht⟩
  constructor
  · intro hq h
    rw [← hiff h]
    exact hq h
  · intro hq h
    rw [hiff h]
    exact hq h

theorem recorded_addBlocksSpan {q q' : BlockQueue β} {height nblocks : UInt64}
    {connectionId : Uuid} {time : Option ℤ} (hq : Recorded q)
    (h : q.addBlocksSpan height nblocks connectionId time = some q') : Recorded q' := by
  rw [addBlocksSpan] at h
  split at h
  · rw [Option.some.injEq] at h
    subst h
    exact (recorded_insert_iff rfl).mpr hq
  · cases h

/-- A filled span takes over the hashes of the one it replaces. -/
theorem recorded_addBlocks {q : BlockQueue β} (hq : Recorded q) (height : UInt64) (bcel : List β)
    (connectionId : Uuid) (rate : Float) (size : UInt64) :
    Recorded (q.addBlocks height bcel connectionId rate size) := by
  simp only [addBlocks, removeSpan]
  cases hfind : q.blocks.elems.find? fun i => decide (i.startBlockHeight = height) with
  | none => exact (recorded_insert_iff rfl).mpr hq
  | some i =>
      have hi : i ∈ q.blocks := List.mem_of_find?_eq_some hfind
      have hstart : i.startBlockHeight = height := by simpa using List.find?_some hfind
      set filled : Span β := .filled height bcel connectionId rate size
      set q' : BlockQueue β := ⟨(q.blocks.erase i).insert filled,
        insertHashes (eraseHashes q.requestedHashes i.hashes) i.hashes⟩ with hq'
      change Recorded (q'.setSpanHashes height connectionId i.hashes)
      have hkey : filled.key = i.key := Span.key_eq_iff.mpr hstart.symm
      have hmem : ∀ t, t ∈ q'.blocks ↔ t ∈ q.blocks ∧ t.startBlockHeight ≠ height ∨ t = filled := by
        intro t
        rw [hq', OrderedSet.mem_insert_erase hkey, ne_eq, Span.key_eq_iff, hstart]
      have hfilled : filled ∈ q'.blocks := (hmem filled).mpr (Or.inr rfl)
      rcases setSpanHashes_cases q' height connectionId i.hashes with
        ⟨-, hnone⟩ | ⟨j, hj, hjstart, -, hblocks, hhashes⟩
      · exact absurd rfl (hnone filled hfilled rfl)
      · -- the span whose hashes are set is the one just inserted, which has none
        have hjf : j = filled := OrderedSet.eq_of_key_eq hj hfilled (Span.key_eq_iff.mpr hjstart)
        subst hjf
        intro h
        rw [requested_iff, hhashes, hq', mem_insertHashes, mem_eraseHashes]
        have hset : ((((h ∈ q.requestedHashes ∧ h ∉ i.hashes) ∨ h ∈ i.hashes) ∧
            h ∉ filled.hashes) ∨ h ∈ i.hashes) ↔ h ∈ q.requestedHashes ∨ h ∈ i.hashes := by
          have hnil : h ∉ filled.hashes := List.not_mem_nil
          tauto
        rw [hset, ← requested_iff, hq h]
        constructor
        · rintro (⟨t, ht, hht⟩ | hhi)
          · by_cases hsame : t.startBlockHeight = height
            · have hti : t = i :=
                OrderedSet.eq_of_key_eq ht hi (Span.key_eq_iff.mpr (hsame.trans hstart.symm))
              subst hti
              exact ⟨_, (hblocks _).mpr (Or.inr rfl), hht⟩
            · exact ⟨t, (hblocks t).mpr (Or.inl ⟨(hmem t).mpr (Or.inl ⟨ht, hsame⟩), hsame⟩), hht⟩
          · exact ⟨_, (hblocks _).mpr (Or.inr rfl), hhi⟩
        · rintro ⟨t, ht, hht⟩
          rcases (hblocks t).mp ht with ⟨ht, hother⟩ | rfl
          · rcases (hmem t).mp ht with ⟨ht, -⟩ | rfl
            · exact Or.inl ⟨t, ht, hht⟩
            · exact absurd rfl hother
          · exact Or.inr hht

/-- The condition on the spans is not touched by one that has no hashes. -/
theorem replaceable_insert_iff {q : BlockQueue β} {s : Span β} (hs : s.hashes = [])
    {startHeight : UInt64} {connectionId : Uuid} {hashes : List Hash} :
    Replaceable { q with blocks := q.blocks.insert s } startHeight connectionId hashes ↔
      Replaceable q startHeight connectionId hashes := by
  constructor
  · intro h t ht hstart hconn u hu
    exact h t (OrderedSet.mem_insert.mpr (Or.inl ht)) hstart hconn u
      (OrderedSet.mem_insert.mpr (Or.inl hu))
  · intro h t ht hstart hconn u hu hother x hxt hnew hxu
    rcases OrderedSet.mem_insert.mp ht with ht | ⟨rfl, -⟩
    · rcases OrderedSet.mem_insert.mp hu with hu | ⟨rfl, -⟩
      · exact h t ht hstart hconn u hu hother x hxt hnew hxu
      · rw [hs] at hxu
        exact List.not_mem_nil hxu
    · rw [hs] at hxt
      exact List.not_mem_nil hxt

end BlockQueue

/-! ### Runs -/

inductive QueueOp (β : Type)
  | addBlocks (height : UInt64) (bcel : List β) (connectionId : Uuid) (rate : Float)
      (size : UInt64)
  | addBlocksSpan (height nblocks : UInt64) (connectionId : Uuid) (time : Option ℤ)
  | reserveSpan (firstBlockHeight lastBlockHeight maxBlocks : UInt64) (connectionId : Uuid)
      (blockHashes : List Hash) (time : Option ℤ)
  | setSpanHashes (startHeight : UInt64) (connectionId : Uuid) (hashes : List Hash)
  | removeSpan (startBlockHeight : UInt64)
  | removeSpans (connectionId : Uuid) (startBlockHeight : UInt64)
  | flushSpans (connectionId : Uuid) (all : Bool)
  | flushStaleSpans (liveConnections : List Uuid)

namespace BlockQueue

def step (q : BlockQueue β) : QueueOp β → BlockQueue β
  | .addBlocks height bcel connectionId rate size => q.addBlocks height bcel connectionId rate size
  | .addBlocksSpan height nblocks connectionId time =>
      (q.addBlocksSpan height nblocks connectionId time).getD q
  | .reserveSpan firstBlockHeight lastBlockHeight maxBlocks connectionId blockHashes time =>
      (q.reserveSpan firstBlockHeight lastBlockHeight maxBlocks connectionId blockHashes time).2
  | .setSpanHashes startHeight connectionId hashes => q.setSpanHashes startHeight connectionId hashes
  | .removeSpan startBlockHeight => (q.removeSpan startBlockHeight).2
  | .removeSpans connectionId startBlockHeight => q.removeSpans connectionId startBlockHeight
  | .flushSpans connectionId all => q.flushSpans connectionId all
  | .flushStaleSpans liveConnections => q.flushStaleSpans liveConnections

/-- The spans that `flush_stale_spans` erases. -/
def Flushed (q : BlockQueue β) (liveConnections : List Uuid) (s : Span β) : Prop :=
  isStale liveConnections s = true ∧
    ¬(isBlockchainPlaceholder s = true ∧ q.blocks.elems.head?.map Span.key = some s.key)

/-- No hash that the operation strikes out belongs to a span that stays. -/
def StrikesOwn : QueueOp β → BlockQueue β → Prop
  | .addBlocks .., _ => True
  | .addBlocksSpan .., _ => True
  | .reserveSpan firstBlockHeight lastBlockHeight maxBlocks connectionId blockHashes _, q =>
      firstBlockHeight ≤ lastBlockHeight → maxBlocks ≠ 0 → q.unrequested blockHashes ≠ [] →
        Replaceable q (q.spanStart lastBlockHeight blockHashes) connectionId
          ((q.unrequested blockHashes).take maxBlocks.toNat)
  | .setSpanHashes startHeight connectionId hashes, q =>
      Replaceable q startHeight connectionId hashes
  | .removeSpan startBlockHeight, q => Apart q fun s => s.startBlockHeight = startBlockHeight
  | .removeSpans connectionId startBlockHeight, q =>
      Apart q fun s => s.connectionId = connectionId ∧ s.startBlockHeight ≤ startBlockHeight
  | .flushSpans connectionId all, q =>
      Apart q fun s => s.connectionId = connectionId ∧ (all = true ∨ s.blocks = [])
  | .flushStaleSpans liveConnections, q => Apart q (q.Flushed liveConnections)

theorem recorded_flushStaleSpans_iff {q : BlockQueue β} (hq : Recorded q)
    (liveConnections : List Uuid) :
    Recorded (q.flushStaleSpans liveConnections) ↔ Apart q (q.Flushed liveConnections) := by
  rw [flushStaleSpans]
  cases helems : q.blocks.elems with
  | nil =>
      refine iff_of_true hq fun s hs => ?_
      rw [OrderedSet.mem_def, helems] at hs
      exact absurd hs List.not_mem_nil
  | cons i rest =>
      have hi : i ∈ q.blocks := by
        rw [OrderedSet.mem_def, helems]
        exact List.mem_cons_self
      have hsorted := q.blocks.sorted
      rw [helems, List.pairwise_cons] at hsorted
      have hfirst : ∀ s ∈ q.blocks, q.blocks.elems.head?.map Span.key = some s.key → s = i := by
        intro s hs hkey
        rw [helems, List.head?_cons, Option.map_some, Option.some.injEq] at hkey
        exact OrderedSet.eq_of_key_eq hs hi hkey.symm
      apply recorded_eraseSpans_iff hq
      intro s
      rw [OrderedSet.mem_def, helems, Flushed]
      by_cases hplaceholder : isBlockchainPlaceholder i = true
      · rw [if_pos hplaceholder]
        constructor
        · rintro ⟨hs, hstale⟩
          refine ⟨List.mem_cons_of_mem i hs, hstale, fun hhead => ?_⟩
          have hsi : s = i := by
            apply hfirst s _ hhead.2
            rw [OrderedSet.mem_def, helems]
            exact List.mem_cons_of_mem i hs
          exact (hsorted.1 s hs).ne (by rw [hsi])
        · rintro ⟨hs, hstale, hnot⟩
          refine ⟨(List.mem_cons.mp hs).resolve_left ?_, hstale⟩
          rintro rfl
          exact hnot ⟨hplaceholder, by rw [helems]; rfl⟩
      · rw [if_neg hplaceholder]
        refine and_congr_right fun hs => ⟨fun hstale => ⟨hstale, fun hhead => ?_⟩, And.left⟩
        have hsi : s = i := by
          apply hfirst s _ hhead.2
          rw [OrderedSet.mem_def, helems]
          exact hs
        rw [hsi] at hhead
        exact hplaceholder hhead.1

/-- One operation keeps the bookkeeping right exactly when it strikes out what is only in
the spans it erases. -/
theorem recorded_step_iff (q : BlockQueue β) (op : QueueOp β) (hq : Recorded q) :
    Recorded (q.step op) ↔ StrikesOwn op q := by
  cases op with
  | addBlocks height bcel connectionId rate size =>
      exact iff_of_true (recorded_addBlocks hq _ _ _ _ _) trivial
  | addBlocksSpan height nblocks connectionId time =>
      refine iff_of_true ?_ trivial
      rw [step]
      cases hadd : q.addBlocksSpan height nblocks connectionId time with
      | none => exact hq
      | some q' => exact recorded_addBlocksSpan hq hadd
  | reserveSpan firstBlockHeight lastBlockHeight maxBlocks connectionId blockHashes time =>
      rw [step, StrikesOwn, reserveSpan_eq]
      split_ifs with hearly
      · refine iff_of_true hq fun hle hmax hleft => ?_
        rcases hearly with hlt | hzero | hnone
        · exact absurd hlt (UInt64.not_lt.mpr hle)
        · exact absurd hzero hmax
        · exact absurd hnone hleft
      · simp only [not_or, UInt64.not_lt] at hearly
        rw [recorded_setSpanHashes_iff ((recorded_insert_iff rfl).mpr hq),
          replaceable_insert_iff rfl]
        exact ⟨fun h _ _ _ => h, fun h => h hearly.1 hearly.2.1 hearly.2.2⟩
  | setSpanHashes startHeight connectionId hashes => exact recorded_setSpanHashes_iff hq
  | removeSpan startBlockHeight => exact recorded_removeSpan_iff hq
  | removeSpans connectionId startBlockHeight =>
      apply recorded_eraseSpans_iff hq
      intro s
      rw [Bool.and_eq_true, decide_eq_true_iff, decide_eq_true_iff]
      rfl
  | flushSpans connectionId all =>
      apply recorded_eraseSpans_iff hq
      intro s
      rw [Bool.and_eq_true, decide_eq_true_iff, Bool.or_eq_true, List.isEmpty_iff]
      rfl
  | flushStaleSpans liveConnections => exact recorded_flushStaleSpans_iff hq liveConnections

/-- In a run from the empty queue, the requested hashes are those of the queued spans after
every step, exactly when each step strikes out only hashes that no other span has. -/
theorem requestedHashes_recorded_iff (ops : List (QueueOp β)) :
    (∀ done, done <+: ops → Recorded (run step empty done)) ↔
      ∀ done op, done ++ [op] <+: ops → StrikesOwn op (run step empty done) :=
  every_state_iff step recorded_empty recorded_step_iff ops

/-- Two connections with overlapping spans, the first of which goes away. -/
def overlapRun : List (QueueOp β) :=
  [.reserveSpan 2 3 10 1 [hashOfNat 2, hashOfNat 3] none,
    .reserveSpan 1 3 10 2 [hashOfNat 1, hashOfNat 2, hashOfNat 3] none,
    .flushSpans 1 true]

/-- The span of the second connection is still to deliver the block, which nobody seems to
have requested. -/
theorem overlapRun_unrequested :
    ¬∀ done, done <+: (overlapRun : List (QueueOp Unit)) → Recorded (run step empty done) := by
  intro hall
  have hreq : (run step empty (overlapRun : List (QueueOp Unit))).requested (hashOfNat 2) =
      false := by
    decide
  have hany : ((run step empty (overlapRun : List (QueueOp Unit))).blocks.elems.any
      fun s => decide (hashOfNat 2 ∈ s.hashes)) = true := by
    decide
  obtain ⟨s, hs, hmem⟩ := List.any_eq_true.mp hany
  have hyes := (hall overlapRun List.prefix_rfl (hashOfNat 2)).mpr ⟨s, hs, of_decide_eq_true hmem⟩
  rw [hreq] at hyes
  cases hyes

end BlockQueue

end XrCoin.Protocol

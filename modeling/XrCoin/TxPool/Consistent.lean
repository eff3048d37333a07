import XrCoin.TxPool.Containers

/-!
What the pool keeps consistent: every stored blob is that of a transaction, the
spent key images are those of the stored transactions, and the sorted container
holds their ids.

Transactions that were not kept by a block share no key image with each other.
This is what lets `init` insert them all again.
-/

namespace XrCoin.TxPool

open Archive Cryptonote Data

section

variable {ρ : Type} (ops : CryptoOps) (cfg : Config)

/-- The row holds a transaction the pool can take out again. -/
structure Holds (row : PoolRow) (tx : Transaction) : Prop where
  parsed : parseAndValidateTxFromBlob ops cfg row.blob = some tx
  inputs : ToKeyInputs tx.vin.toList
  weighed : (getTransactionWeight tx row.blob.length).isSome = true

/-- The stored transaction has an input with the key image. -/
def Spends (row : PoolRow) (ki : KeyImage) : Prop :=
  ∃ tx, parseAndValidateTxFromBlob ops cfg row.blob = some tx ∧ ki ∈ keyImages tx.vin.toList

/-- The id is that of a stored transaction with the key image. -/
def SpentBy (rows : List PoolRow) (ki : KeyImage) (id : Hash) : Prop :=
  ∃ row ∈ rows, row.txid = id ∧ Spends ops cfg row ki

/-- No two transactions that are not kept by a block share a key image. -/
def Disjoint (rows : List PoolRow) : Prop :=
  ∀ row ∈ rows, ∀ row' ∈ rows, row.info.keptByBlock = false → row'.info.keptByBlock = false →
    ∀ ki, Spends ops cfg row ki → Spends ops cfg row' ki → row = row'

structure Indexed (p : Pool ρ) : Prop where
  held : ∀ row ∈ p.txpool.rows, ∃ tx, Holds ops cfg row tx
  images : Represents p.spentKeyImages (SpentBy ops cfg p.txpool.rows)
  disjoint : Disjoint ops cfg p.txpool.rows

structure Consistent (p : Pool ρ) : Prop extends Indexed ops cfg p where
  ids : (p.sorted.map SortedEntry.id).Perm (p.txpool.rows.map PoolRow.txid)

def Weighed (p : Pool ρ) : Prop := p.txpoolWeight = totalWeight p.txpool.rows

variable {ops cfg} {p : Pool ρ} {row : PoolRow} {tx : Transaction}

theorem consistent_empty (maxWeight : UInt64) : Consistent ops cfg (Pool.empty ρ maxWeight) where
  held row hrow := absurd hrow List.not_mem_nil
  images := Represents.empty.congr fun ki id => by simp [SpentBy, Pool.empty, Txpool.empty]
  disjoint row hrow := absurd hrow List.not_mem_nil
  ids := List.Perm.refl _

theorem Holds.spends_iff (h : Holds ops cfg row tx) {ki : KeyImage} :
    Spends ops cfg row ki ↔ ki ∈ keyImages tx.vin.toList := by
  constructor
  · rintro ⟨tx', hparse, hki⟩
    rw [h.parsed] at hparse
    obtain rfl := Option.some.inj hparse
    exact hki
  · intro hki
    exact ⟨tx, h.parsed, hki⟩

theorem Holds.parsePrefix (h : Holds ops cfg row tx) :
    parseAndValidateTxPrefixFromBlob cfg row.blob = some tx.toTransactionPrefix :=
  parsePrefix_of_parse h.parsed

theorem Disjoint.sublist {rows rows' : List PoolRow} (h : Disjoint ops cfg rows)
    (hsub : ∀ row ∈ rows', row ∈ rows) : Disjoint ops cfg rows' :=
  fun row hrow row' hrow' => h row (hsub row hrow) row' (hsub row' hrow')

theorem Consistent.sorted_nodup (h : Consistent ops cfg p) :
    (p.sorted.map SortedEntry.id).Nodup :=
  h.ids.nodup_iff.mpr p.txpool.ids_nodup

theorem Consistent.find_sorted (h : Consistent ops cfg p) {s : SortedEntry ρ}
    (hs : s ∈ p.sorted) : ∃ row ∈ p.txpool.rows, row.txid = s.id ∧ p.txpool.find s.id = some row := by
  obtain ⟨row, hrow, hid⟩ := List.mem_map.mp (h.ids.subset (List.mem_map_of_mem hs))
  refine ⟨row, hrow, hid, ?_⟩
  rw [← hid]
  exact Txpool.find_of_mem hrow

/-! ### Removing one transaction -/

theorem spentBy_remove (hrow : row ∈ p.txpool.rows) (htx : Holds ops cfg row tx) (ki : KeyImage)
    (id : Hash) : SpentBy ops cfg (p.txpool.remove row.txid).rows ki id ↔
      SpentBy ops cfg p.txpool.rows ki id ∧ ¬(ki ∈ keyImages tx.vin.toList ∧ id = row.txid) := by
  constructor
  · rintro ⟨other, hmem, rfl, hspends⟩
    obtain ⟨hother, hne⟩ := Txpool.mem_remove.mp hmem
    exact ⟨⟨other, hother, rfl, hspends⟩, fun h => hne h.2⟩
  · rintro ⟨⟨other, hother, rfl, hspends⟩, hnot⟩
    refine ⟨other, Txpool.mem_remove.mpr ⟨hother, ?_⟩, rfl, hspends⟩
    intro heq
    obtain rfl := Txpool.eq_of_txid hother hrow heq
    exact hnot ⟨htx.spends_iff.mp hspends, rfl⟩

theorem Indexed.drop (h : Indexed ops cfg p) (hrow : row ∈ p.txpool.rows)
    (htx : Holds ops cfg row tx) (weight : UInt64) :
    Indexed ops cfg (p.drop row.txid tx.vin.toList weight) where
  held other hother := h.held other (Txpool.mem_remove.mp hother).1
  images := by
    obtain ⟨-, hrep⟩ := removeTransactionKeyimages_spec h.images htx.inputs
      fun ki hki => ⟨row, hrow, rfl, htx.spends_iff.mpr hki⟩
    exact hrep.congr fun ki id => (spentBy_remove hrow htx ki id).symm
  disjoint := h.disjoint.sublist fun other hother => (Txpool.mem_remove.mp hother).1

/-- A transaction taken out of the tables, the key images and the sorted
container. -/
theorem Consistent.drop (h : Consistent ops cfg p) (hrow : row ∈ p.txpool.rows)
    (htx : Holds ops cfg row tx) (weight : UInt64) :
    Consistent ops cfg ((p.drop row.txid tx.vin.toList weight).withSorted
      (eraseId row.txid p.sorted)) where
  toIndexed := by
    obtain ⟨hheld, himages, hdisjoint⟩ := h.toIndexed.drop hrow htx weight
    exact ⟨hheld, himages, hdisjoint⟩
  ids := by
    show ((eraseId row.txid p.sorted).map SortedEntry.id).Perm
      ((p.txpool.remove row.txid).rows.map PoolRow.txid)
    rw [eraseId_ids, Txpool.remove_ids]
    exact h.ids.erase row.txid

theorem Weighed.drop (h : Weighed p) (hrow : row ∈ p.txpool.rows) (vin : List Txin)
    {weight : UInt64} (hweight : weight = row.info.weight) :
    Weighed (p.drop row.txid vin weight) := by
  show p.txpoolWeight - weight = totalWeight (p.txpool.remove row.txid).rows
  rw [h, hweight, Txpool.remove, totalWeight_filter p.txpool.ids_nodup hrow]

/-! ### Taking and pruning -/

theorem Consistent.takeTx (h : Consistent ops cfg p) (id : Hash) :
    Consistent ops cfg (takeTx ops cfg id p).2 ∧
      (Weighed p → Weighed (TxPool.takeTx ops cfg id p).2) := by
  rw [TxPool.takeTx]
  split
  · split
    · exact ⟨h, fun hw => hw⟩
    · rename_i row hfind
      obtain ⟨hrow, rfl⟩ := Txpool.find_eq_some hfind
      split
      · exact ⟨h, fun hw => hw⟩
      · rename_i tx hparse
        obtain ⟨tx', htx⟩ := h.held row hrow
        obtain rfl : tx' = tx := Option.some.inj (htx.parsed.symm.trans hparse)
        exact ⟨h.drop hrow htx _, fun hw => hw.drop hrow tx'.vin.toList rfl⟩
  · exact ⟨h, fun hw => hw⟩

/-- What `prune` removes would be weighed right: the receive time of every entry
that it can remove is its weight. -/
def PrunesExactly (p : Pool ρ) (entries : List (SortedEntry ρ)) : Prop :=
  ∀ s ∈ entries, ∀ row ∈ p.txpool.rows, row.txid = s.id → row.info.keptByBlock = false →
    s.receiveTime = row.info.weight

variable [DecidableEq ρ]

theorem pruneLoop_consistent (bytes : UInt64) {entries : List (SortedEntry ρ)}
    (h : Consistent ops cfg p) (hnodup : (entries.map SortedEntry.id).Nodup)
    (hsub : ∀ s ∈ entries, s ∈ p.sorted) :
    Consistent ops cfg (pruneLoop cfg bytes entries p) ∧
      (Weighed p → PrunesExactly p entries → Weighed (pruneLoop cfg bytes entries p)) := by
  induction entries generalizing p with
  | nil => exact ⟨h, fun hw _ => hw⟩
  | cons s rest ih =>
      rw [List.map_cons, List.nodup_cons] at hnodup
      obtain ⟨row, hrow, hid, hfind⟩ := h.find_sorted (hsub s (by simp))
      obtain ⟨tx, htx⟩ := h.held row hrow
      have hrest : ∀ s ∈ rest, s ∈ p.sorted := fun s hs => hsub s (List.mem_cons_of_mem _ hs)
      rw [pruneLoop]
      split
      · exact ⟨h, fun hw _ => hw⟩
      · simp only [hfind, htx.parsePrefix]
        split
        · obtain ⟨hc, hw⟩ := ih h hnodup.2 hrest
          exact ⟨hc, fun hweighed hexact => hw hweighed
            fun s hs => hexact s (List.mem_cons_of_mem _ hs)⟩
        · rename_i hkept
          have hentry : p.sorted.erase s = eraseId row.txid p.sorted := by
            rw [hid]
            exact erase_eq_eraseId h.sorted_nodup (hsub s (by simp))
          rw [hentry, ← hid]
          have hstays : ∀ s ∈ rest, s ∈ eraseId row.txid p.sorted := by
            intro s' hs'
            rw [← hentry]
            refine (List.mem_erase_of_ne ?_).mpr (hrest s' hs')
            rintro rfl
            exact hnodup.1 (List.mem_map_of_mem hs')
          obtain ⟨hc, hw⟩ := ih (h.drop hrow htx s.receiveTime) hnodup.2 hstays
          refine ⟨hc, fun hweighed hexact => hw ?_ ?_⟩
          · exact hweighed.drop hrow tx.vin.toList
              (hexact s (by simp) row hrow hid (by simpa using hkept))
          · intro s' hs' row' hrow'
            exact hexact s' (List.mem_cons_of_mem _ hs') row' (Txpool.mem_remove.mp hrow').1

theorem pruneLoop_of_le {bytes : UInt64} (entries : List (SortedEntry ρ))
    (h : p.txpoolWeight ≤ bytes) : pruneLoop cfg bytes entries p = p := by
  cases entries with
  | nil => rfl
  | cons s rest => rw [pruneLoop, if_pos h]

def pruneLimit (bytes : UInt64) (p : Pool ρ) : UInt64 :=
  if bytes = 0 then p.txpoolMaxWeight else bytes

theorem Consistent.prune (h : Consistent ops cfg p) (bytes : UInt64) :
    Consistent ops cfg (prune cfg bytes p) ∧
      (Weighed p → (p.txpoolWeight ≤ pruneLimit bytes p ∨ PrunesExactly p p.sorted.tail) →
        Weighed (TxPool.prune cfg bytes p)) := by
  have hnodup : (p.sorted.tail.reverse.map SortedEntry.id).Nodup := by
    rw [List.map_reverse, List.nodup_reverse]
    exact ((List.tail_sublist _).map _).nodup h.sorted_nodup
  obtain ⟨hc, hw⟩ := pruneLoop_consistent (pruneLimit bytes p) h hnodup
    fun s hs => List.mem_of_mem_tail (List.mem_reverse.mp hs)
  refine ⟨hc, fun hweighed hcond => ?_⟩
  rcases hcond with hle | hexact
  · rw [TxPool.prune, ← pruneLimit, pruneLoop_of_le _ hle]
    exact hweighed
  · exact hw hweighed fun s hs => hexact s (List.mem_reverse.mp hs)

/-! ### Timing out -/

omit [DecidableEq ρ] in
theorem foldl_timeOut (rows : List PoolRow) (p : Pool ρ) :
    (rows.foldl Pool.timeOut p).txpool = p.txpool ∧
      (rows.foldl Pool.timeOut p).spentKeyImages = p.spentKeyImages ∧
      (rows.foldl Pool.timeOut p).txpoolWeight = p.txpoolWeight ∧
      (rows.foldl Pool.timeOut p).sorted.map SortedEntry.id =
        (p.sorted.map SortedEntry.id).diff (rows.map PoolRow.txid) := by
  induction rows generalizing p with
  | nil => exact ⟨rfl, rfl, rfl, rfl⟩
  | cons row rows ih =>
      obtain ⟨htxpool, himages, hweight, hids⟩ := ih (p.timeOut row)
      refine ⟨htxpool, himages, hweight, ?_⟩
      rw [List.map_cons, List.diff_cons, ← eraseId_ids]
      exact hids

omit [DecidableEq ρ] in
theorem Indexed.foldl_dropStuck {rows : List PoolRow} (h : Indexed ops cfg p)
    (hnodup : (rows.map PoolRow.txid).Nodup) (hsub : ∀ row ∈ rows, row ∈ p.txpool.rows) :
    Indexed ops cfg (rows.foldl (Pool.dropStuck cfg) p) ∧
      (rows.foldl (Pool.dropStuck cfg) p).sorted = p.sorted ∧
      (rows.foldl (Pool.dropStuck cfg) p).txpool.rows.map PoolRow.txid =
        (p.txpool.rows.map PoolRow.txid).diff (rows.map PoolRow.txid) ∧
      (Weighed p → Weighed (rows.foldl (Pool.dropStuck cfg) p)) := by
  induction rows generalizing p with
  | nil => exact ⟨h, rfl, rfl, fun hw => hw⟩
  | cons row rows ih =>
      rw [List.map_cons, List.nodup_cons] at hnodup
      have hrow := hsub row (by simp)
      obtain ⟨tx, htx⟩ := h.held row hrow
      have hstep : p.dropStuck cfg row = p.drop row.txid tx.vin.toList row.info.weight := by
        rw [Pool.dropStuck, Txpool.find_of_mem hrow]
        simp only [htx.parsePrefix]
      have hstays : ∀ r ∈ rows, r ∈ (p.drop row.txid tx.vin.toList row.info.weight).txpool.rows := by
        intro r hr
        refine Txpool.mem_remove.mpr ⟨hsub r (List.mem_cons_of_mem _ hr), ?_⟩
        intro heq
        exact hnodup.1 (heq ▸ List.mem_map_of_mem hr)
      obtain ⟨hindexed, hsorted, hids, hw⟩ := ih (h.drop hrow htx row.info.weight) hnodup.2 hstays
      rw [List.foldl_cons, hstep]
      refine ⟨hindexed, hsorted, ?_, fun hweighed => hw (hweighed.drop hrow _ rfl)⟩
      rw [hids, List.map_cons, List.diff_cons, ← Txpool.remove_ids]
      rfl

omit [DecidableEq ρ] in
theorem Consistent.removeStuckTransactions (h : Consistent ops cfg p) (conf : PoolConfig)
    (view : ChainView) :
    Consistent ops cfg (removeStuckTransactions cfg conf view p) ∧
      (Weighed p → Weighed (TxPool.removeStuckTransactions cfg conf view p)) := by
  -- the sorted container loses the ids first, the tables and the key images afterwards
  have hsub : (p.txpool.rows.filter fun row => isStuck conf view row.info).Sublist p.txpool.rows :=
    List.filter_sublist
  rw [TxPool.removeStuckTransactions]
  generalize p.txpool.rows.filter (fun row => isStuck conf view row.info) = rows at hsub
  obtain ⟨htxpool, himages, hweight, hsorted⟩ := foldl_timeOut rows p
  have hindexed : Indexed ops cfg (rows.foldl Pool.timeOut p) := by
    refine ⟨?_, ?_, ?_⟩
    · rw [htxpool]
      exact h.held
    · rw [htxpool, himages]
      exact h.images
    · rw [htxpool]
      exact h.disjoint
  obtain ⟨hdropped, hkeep, hids, hw⟩ := hindexed.foldl_dropStuck
    ((hsub.map _).nodup p.txpool.ids_nodup) (by rw [htxpool]; exact fun row hrow => hsub.subset hrow)
  refine ⟨⟨hdropped, ?_⟩, fun hweighed => hw ?_⟩
  · rw [hids, hkeep, hsorted, htxpool]
    exact h.ids.diff_right _
  · rw [Weighed, htxpool, hweight]
    exact hweighed

/-! ### Validating -/

def ValidatesExactly (ops : CryptoOps) (cfg : Config) (p : Pool ρ) (ids : List Hash) : Prop :=
  ∀ row ∈ p.txpool.rows, row.txid ∈ ids → ∀ tx,
    parseAndValidateTxFromBlob ops cfg row.blob = some tx →
      getTransactionWeight tx row.blob.length = some row.info.weight.toNat

omit [DecidableEq ρ] in
theorem Consistent.foldl_removeInvalid {ids : List Hash} (n : ℕ) (h : Consistent ops cfg p)
    (hnodup : ids.Nodup) (hsub : ∀ id ∈ ids, id ∈ p.txpool.rows.map PoolRow.txid) :
    Consistent ops cfg (ids.foldl (removeInvalid ops cfg) (n, p)).2 ∧
      (Weighed p → ValidatesExactly ops cfg p ids →
        Weighed (ids.foldl (removeInvalid ops cfg) (n, p)).2) := by
  induction ids generalizing n p with
  | nil => exact ⟨h, fun hw _ => hw⟩
  | cons id ids ih =>
      rw [List.nodup_cons] at hnodup
      obtain ⟨row, hrow, rfl⟩ := List.mem_map.mp (hsub id (by simp))
      obtain ⟨tx, htx⟩ := h.held row hrow
      obtain ⟨weight, hweight⟩ := Option.isSome_iff_exists.mp htx.weighed
      have hstep : removeInvalid ops cfg (n, p) row.txid =
          (n + 1, (p.drop row.txid tx.vin.toList weight.toUInt64).withSorted
            (eraseId row.txid p.sorted)) := by
        rw [removeInvalid, Txpool.find_of_mem hrow]
        simp only [htx.parsed, hweight]
      have hstays : ∀ id ∈ ids, id ∈ (p.txpool.remove row.txid).rows.map PoolRow.txid := by
        intro id hid
        rw [Txpool.remove_ids]
        refine (List.mem_erase_of_ne ?_).mpr (hsub id (List.mem_cons_of_mem _ hid))
        rintro rfl
        exact hnodup.1 hid
      obtain ⟨hc, hw⟩ := ih (n + 1) (h.drop hrow htx weight.toUInt64) hnodup.2 hstays
      rw [List.foldl_cons, hstep]
      refine ⟨hc, fun hweighed hexact => hw ?_ ?_⟩
      · refine hweighed.drop hrow tx.vin.toList ?_
        have hrecorded := hexact row hrow (by simp) tx htx.parsed
        obtain rfl := Option.some.inj (hweight.symm.trans hrecorded)
        exact UInt64.ofNat_toNat
      · intro other hother hid
        exact hexact other (Txpool.mem_remove.mp hother).1 (List.mem_cons_of_mem _ hid)

omit [DecidableEq ρ] in
theorem Consistent.validate (h : Consistent ops cfg p) (view : ChainView) (version : UInt8)
    {order : List Hash → List Hash} (horder : ∀ ids, (order ids).Perm ids) :
    Consistent ops cfg (validate ops cfg view version order p).2 ∧
      (ValidatesExactly ops cfg p
          ((p.txpool.rows.filter (isInvalid view version)).map PoolRow.txid) →
        Weighed (TxPool.validate ops cfg view version order p).2) := by
  rw [TxPool.validate]
  have hsub : ((p.txpool.rows.filter (isInvalid view version)).map PoolRow.txid).Sublist
      (p.txpool.rows.map PoolRow.txid) := List.filter_sublist.map _
  generalize (p.txpool.rows.filter (isInvalid view version)).map PoolRow.txid = ids at hsub
  have hperm := horder ids
  obtain ⟨hheld, himages, hdisjoint⟩ := h.toIndexed
  obtain ⟨hc, hw⟩ := Consistent.foldl_removeInvalid 0
    (p := ⟨p.txpool, p.spentKeyImages, p.sorted, p.timedOutTransactions,
      totalWeight p.txpool.rows, p.txpoolMaxWeight⟩)
    ⟨⟨hheld, himages, hdisjoint⟩, h.ids⟩ (hperm.nodup_iff.mpr (hsub.nodup p.txpool.ids_nodup))
    fun id hid => hsub.subset (hperm.subset hid)
  refine ⟨hc, fun hexact => hw rfl ?_⟩
  intro row hrow hid
  exact hexact row hrow (hperm.subset hid)

/-! ### Starting -/

def passRows (kept : Bool) (rows : List PoolRow) : List PoolRow :=
  rows.filter fun row => row.info.keptByBlock = kept

theorem passRows_perm (rows : List PoolRow) :
    (passRows false rows ++ passRows true rows).Perm rows := by
  have hnot : passRows true rows =
      rows.filter fun row => !decide (row.info.keptByBlock = false) := by
    refine List.filter_congr fun row _ => ?_
    cases row.info.keptByBlock <;> rfl
  rw [hnot]
  exact List.filter_append_perm _ rows

theorem totalWeight_passRows (rows : List PoolRow) :
    totalWeight (passRows false rows) + totalWeight (passRows true rows) = totalWeight rows := by
  induction rows with
  | nil => rfl
  | cons row rows ih =>
      rw [totalWeight_cons, ← ih]
      cases hkept : row.info.keptByBlock
      · have h0 : passRows false (row :: rows) = row :: passRows false rows :=
          List.filter_cons_of_pos (by simp [hkept])
        have h1 : passRows true (row :: rows) = passRows true rows :=
          List.filter_cons_of_neg (by simp [hkept])
        rw [h0, h1, totalWeight_cons, UInt64.add_assoc]
      · have h0 : passRows false (row :: rows) = passRows false rows :=
          List.filter_cons_of_neg (by simp [hkept])
        have h1 : passRows true (row :: rows) = row :: passRows true rows :=
          List.filter_cons_of_pos (by simp [hkept])
        rw [h0, h1, totalWeight_cons, ← UInt64.add_assoc, ← UInt64.add_assoc,
          UInt64.add_comm row.info.weight]

theorem spentBy_cons (row : PoolRow) (rows : List PoolRow) (ki : KeyImage) (id : Hash) :
    SpentBy ops cfg (row :: rows) ki id ↔
      (Spends ops cfg row ki ∧ id = row.txid) ∨ SpentBy ops cfg rows ki id := by
  constructor
  · rintro ⟨other, hother, rfl, hspends⟩
    rcases List.mem_cons.mp hother with rfl | hother
    · exact .inl ⟨hspends, rfl⟩
    · exact .inr ⟨other, hother, rfl, hspends⟩
  · rintro (⟨hspends, rfl⟩ | ⟨other, hother, rfl, hspends⟩)
    · exact ⟨row, by simp, rfl, hspends⟩
    · exact ⟨other, List.mem_cons_of_mem _ hother, rfl, hspends⟩

structure Inserted (ops : CryptoOps) (cfg : Config) (R : KeyImage → Hash → Prop)
    (rows : List PoolRow) (p p' : Pool ρ) : Prop where
  txpool : p'.txpool = p.txpool
  images : Represents p'.spentKeyImages fun ki id => R ki id ∨ SpentBy ops cfg rows ki id
  ids : (p'.sorted.map SortedEntry.id).Perm
    (rows.map PoolRow.txid ++ p.sorted.map SortedEntry.id)
  weight : p'.txpoolWeight = totalWeight rows + p.txpoolWeight

omit [DecidableEq ρ] in
/-- A pass of `init` inserts all its rows when their ids are new and, for those
not kept by a block, their key images are as well. -/
theorem initPass_spec (fr : FeeRate ρ) (kept : Bool) {rows : List PoolRow} (remove : List Hash)
    {R : KeyImage → Hash → Prop} (himages : Represents p.spentKeyImages R)
    (hheld : ∀ row ∈ rows, ∃ tx, Holds ops cfg row tx) (hnodup : (rows.map PoolRow.txid).Nodup)
    (hdisjoint : Disjoint ops cfg rows)
    (hnew : ∀ row ∈ passRows kept rows,
      row.txid ∉ p.sorted.map SortedEntry.id ∧ ∀ ki, ¬R ki row.txid)
    (hfree : kept = false → ∀ row ∈ passRows kept rows, ∀ ki, Spends ops cfg row ki →
      ∀ id, ¬R ki id) :
    ∃ p', initPass fr cfg kept rows (remove, p) = (true, remove, p') ∧
      Inserted ops cfg R (passRows kept rows) p p' := by
  induction rows generalizing p R with
  | nil =>
      refine ⟨p, rfl, rfl, himages.congr fun ki id => ?_, List.Perm.refl _, ?_⟩
      · simp [SpentBy, passRows]
      · exact (UInt64.zero_add _).symm
  | cons row rows ih =>
      rw [List.map_cons, List.nodup_cons] at hnodup
      have hheld' : ∀ row ∈ rows, ∃ tx, Holds ops cfg row tx :=
        fun row hrow => hheld row (List.mem_cons_of_mem _ hrow)
      have hdisjoint' : Disjoint ops cfg rows :=
        hdisjoint.sublist fun row hrow => List.mem_cons_of_mem _ hrow
      by_cases hkept : row.info.keptByBlock = kept
      · have hpass : passRows kept (row :: rows) = row :: passRows kept rows :=
          List.filter_cons_of_pos (by simpa using hkept)
        rw [hpass] at hnew hfree ⊢
        obtain ⟨tx, htx⟩ := hheld row (by simp)
        obtain ⟨hid, hR⟩ := hnew row (by simp)
        obtain ⟨hok, hrep⟩ := insertKeyImages_spec row.txid row.info.keptByBlock himages htx.inputs
          (fun ki _ => hR ki) fun hfalse ki hki =>
            hfree (hkept.symm.trans hfalse) row (by simp) ki (htx.spends_iff.mpr hki)
        have hperm := (emplace_perm fr (e := ⟨fr.rate row.info.fee row.info.weight,
          row.info.receiveTime, row.txid⟩) hid).map SortedEntry.id
        have hother : ∀ other ∈ rows, other.txid ≠ row.txid :=
          fun other hrow heq => hnodup.1 (heq ▸ List.mem_map_of_mem hrow)
        rw [initPass, if_neg (not_not.mpr hkept)]
        simp only [htx.parsePrefix, hok, if_true]
        obtain ⟨p', hp', hins⟩ := ih
          (p := ⟨p.txpool, (insertKeyImages row.txid row.info.keptByBlock tx.vin.toList
              p.spentKeyImages).2,
            emplace fr ⟨fr.rate row.info.fee row.info.weight, row.info.receiveTime, row.txid⟩
              p.sorted,
            p.timedOutTransactions, p.txpoolWeight + row.info.weight, p.txpoolMaxWeight⟩)
          hrep hheld' hnodup.2 hdisjoint'
          (by
            intro other hrow
            have hne := hother other (List.mem_of_mem_filter hrow)
            obtain ⟨hid', hR'⟩ := hnew other (List.mem_cons_of_mem _ hrow)
            constructor
            · rw [hperm.mem_iff, List.map_cons, List.mem_cons, not_or]
              exact ⟨hne, hid'⟩
            · rintro ki (hki | ⟨-, heq⟩)
              · exact hR' ki hki
              · exact hne heq)
          (by
            intro hfalse other hrow ki hspends id hki
            rcases hki with hki | ⟨hki, -⟩
            · exact hfree hfalse other (List.mem_cons_of_mem _ hrow) ki hspends id hki
            · have hmem := List.mem_of_mem_filter hrow
              have hkept' : other.info.keptByBlock = kept := by
                simpa using List.of_mem_filter hrow
              exact hother other hmem (congrArg PoolRow.txid (hdisjoint other
                (List.mem_cons_of_mem _ hmem) row (by simp) (hkept'.trans hfalse)
                (hkept.trans hfalse) ki hspends (htx.spends_iff.mpr hki))))
        refine ⟨p', hp', hins.txpool, hins.images.congr fun ki id => ?_, ?_, ?_⟩
        · rw [spentBy_cons, htx.spends_iff, or_assoc]
        · exact (hins.ids.trans (hperm.append_left _)).trans List.perm_middle
        · rw [hins.weight, totalWeight_cons, UInt64.add_comm p.txpoolWeight, ← UInt64.add_assoc,
            UInt64.add_comm row.info.weight]
      · have hpass : passRows kept (row :: rows) = passRows kept rows :=
          List.filter_cons_of_neg (by simpa using hkept)
        rw [hpass] at hnew hfree ⊢
        rw [initPass, if_pos hkept]
        exact ih himages hheld' hnodup.2 hdisjoint' hnew hfree

theorem spentBy_passRows (rows : List PoolRow) (ki : KeyImage) (id : Hash) :
    SpentBy ops cfg (passRows false rows) ki id ∨ SpentBy ops cfg (passRows true rows) ki id ↔
      SpentBy ops cfg rows ki id := by
  constructor
  · rintro (⟨row, hrow, hid, hspends⟩ | ⟨row, hrow, hid, hspends⟩)
    · exact ⟨row, List.mem_of_mem_filter hrow, hid, hspends⟩
    · exact ⟨row, List.mem_of_mem_filter hrow, hid, hspends⟩
  · rintro ⟨row, hrow, hid, hspends⟩
    rcases List.mem_append.mp ((passRows_perm rows).symm.subset hrow) with hmem | hmem
    · exact .inl ⟨row, hmem, hid, hspends⟩
    · exact .inr ⟨row, hmem, hid, hspends⟩

theorem passRows_ne {t : Txpool} {row row' : PoolRow} (hrow : row ∈ passRows true t.rows)
    (hrow' : row' ∈ passRows false t.rows) : row'.txid ≠ row.txid := by
  intro heq
  obtain rfl := Txpool.eq_of_txid (List.mem_of_mem_filter hrow') (List.mem_of_mem_filter hrow) heq
  have htrue : row'.info.keptByBlock = true := by simpa using List.of_mem_filter hrow
  have hfalse : row'.info.keptByBlock = false := by simpa using List.of_mem_filter hrow'
  exact absurd (htrue.symm.trans hfalse) (by simp)

omit [DecidableEq ρ] in
theorem Indexed.init (h : Indexed ops cfg p) (fr : FeeRate ρ) (conf : PoolConfig)
    (maxTxpoolWeight : UInt64) :
    Consistent ops cfg (init fr cfg conf maxTxpoolWeight p).2 ∧
      Weighed (TxPool.init fr cfg conf maxTxpoolWeight p).2 := by
  obtain ⟨p₁, hpass₁, hins₁⟩ := initPass_spec fr false []
    (p := ⟨p.txpool, fun _ => none, [], p.timedOutTransactions, 0,
      if maxTxpoolWeight = 0 then conf.defaultTxpoolMaxWeight else maxTxpoolWeight⟩)
    Represents.empty h.held p.txpool.ids_nodup h.disjoint
    (fun row _ => ⟨List.not_mem_nil, fun _ hfalse => hfalse⟩) (fun _ _ _ _ _ _ hfalse => hfalse)
  have hids₁ : (p₁.sorted.map SortedEntry.id).Perm
      ((passRows false p.txpool.rows).map PoolRow.txid) := by
    rw [← List.append_nil ((passRows false p.txpool.rows).map PoolRow.txid)]
    exact hins₁.ids
  have hnew : ∀ row ∈ passRows true p.txpool.rows, row.txid ∉ p₁.sorted.map SortedEntry.id ∧
      ∀ ki, ¬(False ∨ SpentBy ops cfg (passRows false p.txpool.rows) ki row.txid) := by
    intro row hrow
    constructor
    · rw [hids₁.mem_iff]
      intro hmem
      obtain ⟨row', hrow', heq⟩ := List.mem_map.mp hmem
      exact passRows_ne hrow hrow' heq
    · rintro ki (hfalse | ⟨row', hrow', heq, -⟩)
      · exact hfalse
      · exact passRows_ne hrow hrow' heq
  obtain ⟨p₂, hpass₂, hins₂⟩ := initPass_spec fr true [] hins₁.images h.held p.txpool.ids_nodup
    h.disjoint hnew (fun hfalse => absurd hfalse (by simp))
  have htxpool : p₂.txpool = p.txpool := hins₂.txpool.trans hins₁.txpool
  have hinit : (TxPool.init fr cfg conf maxTxpoolWeight p).2 = removeCorrupt [] p₂ := by
    rw [TxPool.init, hpass₁]
    simp only [hpass₂]
  rw [hinit]
  refine ⟨⟨⟨?_, ?_, ?_⟩, ?_⟩, ?_⟩
  · show ∀ row ∈ p₂.txpool.rows, ∃ tx, Holds ops cfg row tx
    rw [htxpool]
    exact h.held
  · show Represents p₂.spentKeyImages (SpentBy ops cfg p₂.txpool.rows)
    rw [htxpool]
    refine hins₂.images.congr fun ki id => ?_
    rw [false_or, spentBy_passRows]
  · show Disjoint ops cfg p₂.txpool.rows
    rw [htxpool]
    exact h.disjoint
  · show (p₂.sorted.map SortedEntry.id).Perm (p₂.txpool.rows.map PoolRow.txid)
    rw [htxpool]
    refine (hins₂.ids.trans (hids₁.append_left _)).trans ?_
    rw [← List.map_append]
    exact (List.perm_append_comm.trans (passRows_perm p.txpool.rows)).map PoolRow.txid
  · show p₂.txpoolWeight = totalWeight p₂.txpool.rows
    rw [htxpool, hins₂.weight, hins₁.weight, UInt64.add_zero, UInt64.add_comm,
      totalWeight_passRows]

end

end XrCoin.TxPool

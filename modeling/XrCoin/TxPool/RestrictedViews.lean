import Mathlib
import XrCoin.TxPool.Runs

/-!
The views of the pool for restricted callers, and what they say of transactions that were not
relayed yet.

Which transactions `for_all_txpool_txes` goes over is a parameter, and so are the order of the
container of key images and the JSON text. Ids stand for their hexadecimal digits. Where a call
fails, what it had filled in is left out.
-/

namespace XrCoin.TxPool

open Archive Cryptonote Data

structure TxInfo where
  idHash : Hash
  txBlob : List UInt8
  txJson : String
  blobSize : ℕ
  weight : UInt64
  fee : UInt64
  keptByBlock : Bool
  maxUsedBlockHeight : UInt64
  maxUsedBlockIdHash : Hash
  lastFailedHeight : UInt64
  lastFailedIdHash : Hash
  receiveTime : UInt64
  relayed : Bool
  lastRelayedTime : UInt64
  doNotRelay : Bool
  doubleSpendSeen : Bool

structure TxInPool where
  txHash : Hash
  tx : Transaction
  blobSize : ℕ
  info : TxpoolMeta

section Views

variable {ρ : Type} (ops : CryptoOps) (cfg : Config) (toJson : Transaction → String)
  (visible : TxpoolMeta → Bool)

def forAllTxpoolTxes (includeUnrelayedTxes : Bool) (p : Pool ρ) : List PoolRow :=
  p.txpool.rows.filter fun row => includeUnrelayedTxes || visible row.info

/-- What is told of a transaction. The times are left out for a restricted caller. -/
def txInfo (includeSensitiveData : Bool) (row : PoolRow) : Option TxInfo :=
  (parseAndValidateTxFromBlob ops cfg row.blob).map fun tx =>
    { idHash := row.txid
      txBlob := row.blob
      txJson := toJson tx
      blobSize := row.blob.length
      weight := row.info.weight
      fee := row.info.fee
      keptByBlock := row.info.keptByBlock
      maxUsedBlockHeight := row.info.maxUsedBlockHeight
      maxUsedBlockIdHash := row.info.maxUsedBlockId
      lastFailedHeight := row.info.lastFailedHeight
      lastFailedIdHash := row.info.lastFailedId
      receiveTime := if includeSensitiveData then row.info.receiveTime else 0
      relayed := row.info.relayed
      lastRelayedTime := if includeSensitiveData then row.info.lastRelayedTime else 0
      doNotRelay := row.info.doNotRelay
      doubleSpendSeen := row.info.doubleSpendSeen }

def txInPool (row : PoolRow) : Option TxInPool :=
  (parseAndValidateTxFromBlob ops cfg row.blob).map fun tx =>
    ⟨row.txid, tx, row.blob.length, row.info⟩

def isRelayed (p : Pool ρ) (id : Hash) : Bool :=
  match p.txpool.find id with
  | none => false
  | some row => row.info.relayed

def idsUnder (p : Pool ρ) (kImage : KeyImage) : Finset Hash := (p.spentKeyImages kImage).getD ∅

/-- The loop over the key images. For a restricted caller it fails at an id without metadata. -/
def spentKeyImageInfos (includeSensitiveData : Bool) (p : Pool ρ) :
    List KeyImage → Option (List (KeyImage × Finset Hash))
  | [] => some []
  | kImage :: order =>
      if includeSensitiveData = false ∧ ∃ id ∈ idsUnder p kImage, p.txpool.find id = none then none
      else
        let txsHashes := (idsUnder p kImage).filter fun id =>
          includeSensitiveData || isRelayed p id
        (spentKeyImageInfos includeSensitiveData p order).map fun infos =>
          if txsHashes = ∅ then infos else (kImage, txsHashes) :: infos

def getTransactionsAndSpentKeysInfo (includeSensitiveData : Bool) (p : Pool ρ)
    (order : List KeyImage) : Option (List TxInfo × List (KeyImage × Finset Hash)) :=
  (spentKeyImageInfos includeSensitiveData p order).map fun keyImageInfos =>
    ((forAllTxpoolTxes visible includeSensitiveData p).filterMap
      (txInfo ops cfg toJson includeSensitiveData), keyImageInfos)

def getPoolForRpc (p : Pool ρ) (order : List KeyImage) :
    List TxInPool × List (KeyImage × Finset Hash) :=
  ((forAllTxpoolTxes visible false p).filterMap (txInPool ops cfg),
    order.map fun kImage => (kImage, idsUnder p kImage))

/-! ### Two pools -/

structure Enumerates (p : Pool ρ) (order : List KeyImage) : Prop where
  nodup : order.Nodup
  mem_iff : ∀ kImage, kImage ∈ order ↔ (p.spentKeyImages kImage).isSome = true

/-- The same transactions were relayed, with the same metadata. -/
def AgreeOnRelayed (p q : Pool ρ) : Prop :=
  (p.txpool.rows.filter fun row => row.info.relayed).Perm
    (q.txpool.rows.filter fun row => row.info.relayed)

instance AgreeOnRelayed.decidable (p q : Pool ρ) : Decidable (AgreeOnRelayed p q) :=
  inferInstanceAs (Decidable (List.Perm _ _))

structure SameRestrictedViews (p : Pool ρ) (order : List KeyImage) (q : Pool ρ)
    (order' : List KeyImage) : Prop where
  spentKeys : ∃ infos infos',
    getTransactionsAndSpentKeysInfo ops cfg toJson visible false p order = some infos ∧
      getTransactionsAndSpentKeysInfo ops cfg toJson visible false q order' = some infos' ∧
      infos.1.Perm infos'.1 ∧ infos.2.Perm infos'.2
  rpcTxs : (getPoolForRpc ops cfg visible p order).1.Perm
    (getPoolForRpc ops cfg visible q order').1
  rpcKeyImages : (getPoolForRpc ops cfg visible p order).2.Perm
    (getPoolForRpc ops cfg visible q order').2

/-- The ids under a key image whose transactions were not relayed. -/
def unrelayedUnder (p : Pool ρ) (kImage : KeyImage) : Finset Hash :=
  (idsUnder p kImage).filter fun id => isRelayed p id = false

def relayedUnder (p : Pool ρ) (kImage : KeyImage) : Finset Hash :=
  (idsUnder p kImage).filter fun id => isRelayed p id = true

variable {ops cfg visible} {p q : Pool ρ}

theorem relayedUnder_union_unrelayedUnder (p : Pool ρ) (kImage : KeyImage) :
    relayedUnder p kImage ∪ unrelayedUnder p kImage = idsUnder p kImage := by
  ext id
  simp only [relayedUnder, unrelayedUnder, Finset.mem_union, Finset.mem_filter]
  cases isRelayed p id <;> simp

/-- An id under a key image is that of a stored transaction. -/
theorem Indexed.find_isSome (hp : Indexed ops cfg p) {kImage : KeyImage} {id : Hash}
    (hid : id ∈ idsUnder p kImage) : p.txpool.find id ≠ none := by
  obtain ⟨row, hrow, rfl, -⟩ := (hp.images.mem_iff kImage id).mp hid
  rw [Txpool.find_of_mem hrow]
  exact Option.some_ne_none row

theorem Indexed.mem_relayedUnder (hp : Indexed ops cfg p) {kImage : KeyImage} {id : Hash} :
    id ∈ relayedUnder p kImage ↔
      SpentBy ops cfg (p.txpool.rows.filter fun row => row.info.relayed) kImage id := by
  rw [relayedUnder, Finset.mem_filter, idsUnder, hp.images.mem_iff]
  constructor
  · rintro ⟨⟨row, hrow, rfl, hspends⟩, hrelayed⟩
    rw [isRelayed, Txpool.find_of_mem hrow] at hrelayed
    exact ⟨row, List.mem_filter.mpr ⟨hrow, hrelayed⟩, rfl, hspends⟩
  · rintro ⟨row, hrow, rfl, hspends⟩
    obtain ⟨hmem, hrelayed⟩ := List.mem_filter.mp hrow
    refine ⟨⟨row, hmem, rfl, hspends⟩, ?_⟩
    rw [isRelayed, Txpool.find_of_mem hmem]
    exact hrelayed

theorem relayedUnder_eq (hp : Indexed ops cfg p) (hq : Indexed ops cfg q)
    (h : AgreeOnRelayed p q) (kImage : KeyImage) :
    relayedUnder p kImage = relayedUnder q kImage := by
  ext id
  rw [hp.mem_relayedUnder, hq.mem_relayedUnder]
  constructor
  · rintro ⟨row, hrow, hid, hspends⟩
    exact ⟨row, h.mem_iff.mp hrow, hid, hspends⟩
  · rintro ⟨row, hrow, hid, hspends⟩
    exact ⟨row, h.mem_iff.mpr hrow, hid, hspends⟩

/-- The loop of a restricted caller shows the relayed ids, where there are any. -/
theorem spentKeyImageInfos_restricted (hp : Indexed ops cfg p) (order : List KeyImage) :
    spentKeyImageInfos false p order =
      some ((order.filter fun kImage => relayedUnder p kImage ≠ ∅).map fun kImage =>
        (kImage, relayedUnder p kImage)) := by
  induction order with
  | nil => rfl
  | cons kImage order ih =>
      have hfound : ¬(false = false ∧ ∃ id ∈ idsUnder p kImage, p.txpool.find id = none) := by
        rintro ⟨-, id, hid, hnone⟩
        exact hp.find_isSome hid hnone
      have hshown : ((idsUnder p kImage).filter fun id => false || isRelayed p id) =
          relayedUnder p kImage := by
        simp only [Bool.false_or]
        rfl
      rw [spentKeyImageInfos, if_neg hfound, ih]
      simp only [hshown, Option.map_some]
      by_cases hempty : relayedUnder p kImage = ∅
      · rw [if_pos hempty, List.filter_cons_of_neg (by simpa using hempty)]
      · rw [if_neg hempty, List.filter_cons_of_pos (by simpa using hempty), List.map_cons]

theorem restrictedInfo_eq (hp : Indexed ops cfg p) (order : List KeyImage) :
    getTransactionsAndSpentKeysInfo ops cfg toJson visible false p order =
      some ((forAllTxpoolTxes visible false p).filterMap (txInfo ops cfg toJson false),
        (order.filter fun kImage => relayedUnder p kImage ≠ ∅).map fun kImage =>
          (kImage, relayedUnder p kImage)) := by
  rw [getTransactionsAndSpentKeysInfo, spentKeyImageInfos_restricted hp, Option.map_some]

/-- Two pools have one table exactly when they have the same ids under each key image. -/
theorem spentKeyImages_eq_iff (hp : Indexed ops cfg p) (hq : Indexed ops cfg q)
    (kImage : KeyImage) :
    p.spentKeyImages kImage = q.spentKeyImages kImage ↔
      idsUnder p kImage = idsUnder q kImage := by
  constructor
  · intro h
    rw [idsUnder, idsUnder, h]
  · intro h
    have hne := hp.images.ne_empty kImage
    have hne' := hq.images.ne_empty kImage
    rw [idsUnder, idsUnder] at h
    cases hm : p.spentKeyImages kImage <;> cases hm' : q.spentKeyImages kImage <;> simp_all

theorem Enumerates.idsUnder_eq {order : List KeyImage} (h : Enumerates p order)
    {kImage : KeyImage} (hnot : kImage ∉ order) : idsUnder p kImage = ∅ := by
  rw [h.mem_iff, Bool.not_eq_true, Option.isSome_eq_false_iff, Option.isNone_iff_eq_none] at hnot
  rw [idsUnder, hnot]
  rfl

/-- For pools that agree on what was relayed: a restricted caller sees the same exactly when the
transactions that were not relayed have the same ids under each key image. -/
theorem restrictedViews_iff (ops : CryptoOps) (cfg : Config) (toJson : Transaction → String)
    {visible : TxpoolMeta → Bool} (hvisible : ∀ info, visible info = info.relayed)
    {p q : Pool ρ} (hp : Indexed ops cfg p) (hq : Indexed ops cfg q) (h : AgreeOnRelayed p q)
    {order order' : List KeyImage} (horder : Enumerates p order) (horder' : Enumerates q order') :
    SameRestrictedViews ops cfg toJson visible p order q order' ↔
      ∀ kImage, unrelayedUnder p kImage = unrelayedUnder q kImage := by
  have hshown := relayedUnder_eq hp hq h
  have hrows : (forAllTxpoolTxes visible false p).Perm (forAllTxpoolTxes visible false q) := by
    rw [AgreeOnRelayed] at h
    simpa only [forAllTxpoolTxes, Bool.false_or, hvisible] using h
  have hrpc : (getPoolForRpc ops cfg visible p order).2.Perm
      (getPoolForRpc ops cfg visible q order').2 ↔
        ∀ kImage, idsUnder p kImage = idsUnder q kImage := by
    rw [getPoolForRpc, getPoolForRpc, entries_perm_iff horder.nodup horder'.nodup]
    constructor
    · intro hall kImage
      by_cases hmem : kImage ∈ order
      · exact (hall kImage).2 hmem
      · rw [horder.idsUnder_eq hmem, horder'.idsUnder_eq fun hmem' => hmem ((hall kImage).1.mpr hmem')]
    · intro hall kImage
      refine ⟨?_, fun _ => hall kImage⟩
      rw [horder.mem_iff, horder'.mem_iff, (spentKeyImages_eq_iff hp hq kImage).mpr (hall kImage)]
  constructor
  · intro hviews kImage
    have hids := hrpc.mp hviews.rpcKeyImages kImage
    have hdisjoint (p : Pool ρ) : unrelayedUnder p kImage =
        idsUnder p kImage \ relayedUnder p kImage := by
      ext id
      simp only [unrelayedUnder, relayedUnder, Finset.mem_sdiff, Finset.mem_filter]
      cases isRelayed p id <;> simp
    rw [hdisjoint, hdisjoint, hids, hshown]
  · intro hhidden
    have hids (kImage : KeyImage) : idsUnder p kImage = idsUnder q kImage := by
      rw [← relayedUnder_union_unrelayedUnder, ← relayedUnder_union_unrelayedUnder, hshown,
        hhidden]
    refine ⟨⟨_, _, restrictedInfo_eq toJson hp order, restrictedInfo_eq toJson hq order', ?_, ?_⟩,
      hrows.filterMap _, hrpc.mpr hids⟩
    · exact hrows.filterMap _
    · rw [entries_perm_iff (horder.nodup.filter _) (horder'.nodup.filter _)]
      intro kImage
      refine ⟨?_, fun _ => hshown kImage⟩
      rw [List.mem_filter, List.mem_filter, hshown, horder.mem_iff, horder'.mem_iff,
        (spentKeyImages_eq_iff hp hq kImage).mpr (hids kImage)]

end Views

/-! ### A payment that was not relayed -/

theorem indexed_onePayment : Indexed paymentOps currentConfig onePayment :=
  (Run.step paymentView (addPayment 0x51) (.empty 200) given_first :
    Run fractionRate paymentOps currentConfig paymentConf (Admissible paymentOps currentConfig)
      onePayment).consistent.toIndexed

theorem enumerates_onePayment :
    Enumerates onePayment [List.Vector.replicate 32 0x51] where
  nodup := List.nodup_singleton _
  mem_iff kImage := by
    rw [List.mem_singleton]
    constructor
    · rintro rfl
      decide
    · intro hsome
      by_contra hne
      have hnone : onePayment.spentKeyImages kImage = none := Function.update_of_ne hne _ _
      rw [hnone] at hsome
      cases hsome

/-- A pool with a payment that was not relayed agrees with an empty one, but `get_pool_for_rpc`
tells of its key image. -/
theorem onePayment_seen :
    Indexed paymentOps currentConfig onePayment ∧
      Indexed paymentOps currentConfig (.empty (ℕ × ℕ) 200) ∧
      AgreeOnRelayed onePayment (.empty (ℕ × ℕ) 200) ∧
      ¬SameRestrictedViews paymentOps currentConfig (fun _ => "") TxpoolMeta.relayed onePayment
        [List.Vector.replicate 32 0x51] (.empty (ℕ × ℕ) 200) [] := by
  refine ⟨indexed_onePayment, (consistent_empty 200).toIndexed, by decide, fun hviews => ?_⟩
  have hperm := hviews.rpcKeyImages
  exact absurd hperm.length_eq (by decide)

/-! ### Two payments, of which one was relayed -/

def mixedArgs (tag : UInt8) : AddTxArgs := { paymentArgs tag with relayed := tag = 0x51 }

def mixedPool (tags : List UInt8) : Pool (ℕ × ℕ) :=
  tags.foldl (fun p tag => (PoolOp.addTx (mixedArgs tag) default).apply fractionRate paymentOps
    currentConfig paymentConf paymentView p) (.empty (ℕ × ℕ) 648000000)

theorem given_mixedArgs {tag : UInt8} (htag : tag = 0x51 ∨ tag = 0x52) {p : Pool (ℕ × ℕ)}
    (hfresh : (mixedArgs tag).id ∉ p.txpool.rows.map PoolRow.txid) :
    (mixedArgs tag).Given paymentOps currentConfig p where
  parsed := by
    rcases htag with rfl | rfl
    · exact ⟨txToBlob currentConfig (paymentTx 0x51), by decide +kernel⟩
    · exact ⟨txToBlob currentConfig (paymentTx 0x52), by decide +kernel⟩
  id_eq := rfl
  weighed := by rcases htag with rfl | rfl <;> decide
  inputs := by rcases htag with rfl | rfl <;> exact ⟨by decide, by decide⟩
  fresh := hfresh

theorem indexed_mixedPool {tag tag' : UInt8} (htag : tag = 0x51 ∨ tag = 0x52)
    (htag' : tag' = 0x51 ∨ tag' = 0x52)
    (hfresh : (mixedArgs tag').id ∉ (mixedPool [tag]).txpool.rows.map PoolRow.txid) :
    Indexed paymentOps currentConfig (mixedPool [tag, tag']) := by
  have hfirst : Run fractionRate paymentOps currentConfig paymentConf
      (Admissible paymentOps currentConfig) (mixedPool [tag]) :=
    .step paymentView (.addTx (mixedArgs tag) default) (.empty 648000000)
      (given_mixedArgs htag List.not_mem_nil)
  have hsecond := Run.step paymentView (.addTx (mixedArgs tag') default) hfirst
    (given_mixedArgs htag' hfresh)
  exact hsecond.consistent.toIndexed

theorem spentKeyImages_mixedPool : (mixedPool [0x51, 0x52]).spentKeyImages =
    Function.update (Function.update (fun _ => none) (List.Vector.replicate 32 0x51)
      (some {(mixedArgs 0x51).id})) (List.Vector.replicate 32 0x52)
      (some {(mixedArgs 0x52).id}) := rfl

theorem spentKeyImages_mixedPool_comm :
    (mixedPool [0x52, 0x51]).spentKeyImages = (mixedPool [0x51, 0x52]).spentKeyImages := by
  rw [spentKeyImages_mixedPool, Function.update_comm (by decide)]
  rfl

theorem enumerates_mixedPool : Enumerates (mixedPool [0x51, 0x52])
    [List.Vector.replicate 32 0x51, List.Vector.replicate 32 0x52] where
  nodup := by decide
  mem_iff kImage := by
    rw [spentKeyImages_mixedPool, List.mem_pair, Function.update_apply, Function.update_apply]
    split_ifs with hsecond hfirst
    · exact iff_of_true (.inr hsecond) rfl
    · exact iff_of_true (.inl hfirst) rfl
    · exact iff_of_false (not_or.mpr ⟨hfirst, hsecond⟩) Bool.false_ne_true

theorem unrelayedUnder_mixedPool (kImage : KeyImage) :
    unrelayedUnder (mixedPool [0x51, 0x52]) kImage =
      unrelayedUnder (mixedPool [0x52, 0x51]) kImage := by
  by_cases hfirst : kImage = List.Vector.replicate 32 0x51
  · rw [hfirst]
    decide +kernel
  by_cases hsecond : kImage = List.Vector.replicate 32 0x52
  · rw [hsecond]
    decide +kernel
  have hnone : (mixedPool [0x51, 0x52]).spentKeyImages kImage = none := by
    rw [spentKeyImages_mixedPool, Function.update_of_ne hsecond, Function.update_of_ne hfirst]
  rw [unrelayedUnder, unrelayedUnder, idsUnder, idsUnder, spentKeyImages_mixedPool_comm, hnone,
    Option.getD_none, Finset.filter_empty, Finset.filter_empty]

/-- The order in which the payments came is not seen, and what was not relayed is. -/
theorem restrictedViews_iff_mixedPool :
    SameRestrictedViews paymentOps currentConfig (fun _ => "") TxpoolMeta.relayed
        (mixedPool [0x51, 0x52]) [List.Vector.replicate 32 0x51, List.Vector.replicate 32 0x52]
        (mixedPool [0x52, 0x51]) [List.Vector.replicate 32 0x52, List.Vector.replicate 32 0x51] ∧
      (SameRestrictedViews paymentOps currentConfig (fun _ => "") TxpoolMeta.relayed onePayment
          [List.Vector.replicate 32 0x51] (.empty (ℕ × ℕ) 200) [] ↔
        ∀ kImage, unrelayedUnder onePayment kImage =
          unrelayedUnder (.empty (ℕ × ℕ) 200) kImage) := by
  have hreversed : Enumerates (mixedPool [0x52, 0x51])
      [List.Vector.replicate 32 0x52, List.Vector.replicate 32 0x51] :=
    ⟨by decide, fun kImage => by
      rw [spentKeyImages_mixedPool_comm, ← enumerates_mixedPool.mem_iff, List.mem_pair,
        List.mem_pair, or_comm]⟩
  constructor
  · exact (restrictedViews_iff paymentOps currentConfig (fun _ => "") (fun _ => rfl)
      (indexed_mixedPool (.inl rfl) (.inr rfl) (by decide +kernel))
      (indexed_mixedPool (.inr rfl) (.inl rfl) (by decide +kernel)) (by decide +kernel)
      enumerates_mixedPool hreversed).mpr unrelayedUnder_mixedPool
  · exact restrictedViews_iff paymentOps currentConfig (fun _ => "") (fun _ => rfl)
      indexed_onePayment (consistent_empty 200).toIndexed (by decide) enumerates_onePayment
      ⟨List.nodup_nil, fun _ => by simp [Pool.empty]⟩

end XrCoin.TxPool

import Mathlib
import XrCoin.Data.Bins
import XrCoin.TxPool.Pool

/-!
`get_transaction_stats`: the statistics of the pool and the histogram of the ages.

The ages are kept in a map, and put into ten bins. With fifty transactions or more, the oldest two
of a hundred go into the last bin: an iterator is moved down from the end of the map, once for each
of these transactions, and not for each age. The product with `0.02` is the division by fifty for
all numbers of 32 bits.
-/

namespace XrCoin.TxPool

open Data

/-! ### The statistics -/

structure TxpoolHisto where
  txs : UInt32
  bytes : UInt64
  deriving DecidableEq

instance instAddTxpoolHisto : Add TxpoolHisto := ⟨fun a b => ⟨a.txs + b.txs, a.bytes + b.bytes⟩⟩

instance instZeroTxpoolHisto : Zero TxpoolHisto := ⟨⟨0, 0⟩⟩

structure TxpoolStats where
  bytesTotal : UInt64
  bytesMin : UInt32
  bytesMax : UInt32
  bytesMed : UInt32
  feeTotal : UInt64
  oldest : UInt64
  txsTotal : UInt32
  numFailing : UInt32
  num10m : UInt32
  numNotRelayed : UInt32
  histo98pc : UInt64
  histo : List TxpoolHisto
  numDoubleSpends : UInt32
  deriving DecidableEq

def TxpoolStats.empty : TxpoolStats := ⟨0, 0, 0, 0, 0, 0, 0, 0, 0, 0, 0, [], 0⟩

abbrev AgeBytes : Type := OrderedMap UInt64.toNat TxpoolHisto

/-- `epee::misc_utils::median` of 32-bit values. The mean of the middle two may wrap. -/
def medianWeight (v : List UInt32) : UInt32 :=
  if v = [] then 0
  else if v.length = 1 then v.getD 0 0
  else
    let n := v.length / 2
    let sorted := v.insertionSort (· ≤ ·)
    if v.length % 2 = 1 then sorted.getD n 0
    else (sorted.getD (n - 1) 0 + sorted.getD n 0) / 2

def ageOf (now receiveTime : UInt64) : UInt64 :=
  now - receiveTime + if now = receiveTime then 1 else 0

def TxpoolStats.count (now : UInt64) (stats : TxpoolStats) (info : TxpoolMeta) : TxpoolStats :=
  { stats with
    bytesTotal := stats.bytesTotal + info.weight
    bytesMin :=
      if stats.bytesMin = 0 ∨ info.weight < stats.bytesMin.toUInt64 then info.weight.toUInt32
      else stats.bytesMin
    bytesMax :=
      if stats.bytesMax.toUInt64 < info.weight then info.weight.toUInt32 else stats.bytesMax
    numNotRelayed := if info.relayed then stats.numNotRelayed else stats.numNotRelayed + 1
    feeTotal := stats.feeTotal + info.fee
    oldest :=
      if stats.oldest = 0 ∨ info.receiveTime < stats.oldest then info.receiveTime else stats.oldest
    num10m := if info.receiveTime < now - 600 then stats.num10m + 1 else stats.num10m
    numFailing := if info.lastFailedHeight = 0 then stats.numFailing else stats.numFailing + 1
    numDoubleSpends :=
      if info.doubleSpendSeen then stats.numDoubleSpends + 1 else stats.numDoubleSpends }

def countAge (now : UInt64) (agebytes : AgeBytes) (info : TxpoolMeta) : AgeBytes :=
  OrderedMap.tally agebytes (ageOf now info.receiveTime) ⟨1, info.weight⟩

def binOf (factor delta age : UInt64) : ℕ := ((age * factor - 1) / delta).toNat

/-- The ages with their bins: up to the iterator by their size, and from there on in the last. -/
def placed (factor delta : UInt64) (ages rest : List (UInt64 × TxpoolHisto)) :
    List (ℕ × TxpoolHisto) :=
  (ages.map fun p => (binOf factor delta p.1, p.2)) ++ rest.map fun p => (factor.toNat, p.2)

def countAll (now : UInt64) (infos : List TxpoolMeta) : TxpoolStats :=
  { infos.foldl (TxpoolStats.count now) { TxpoolStats.empty with txsTotal := infos.length.toUInt32 }
    with bytesMed := medianWeight (infos.map fun info => info.weight.toUInt32) }

def ageBytes (now : UInt64) (infos : List TxpoolMeta) : AgeBytes :=
  infos.foldl (countAge now) ∅

def lastBinTxs (stats : TxpoolStats) : ℕ := stats.txsTotal.toNat / 50

def binFactor (stats : TxpoolStats) : UInt64 :=
  if 9 < stats.txsTotal then 10 else stats.txsTotal.toUInt64

def binDelta (now : UInt64) (stats : TxpoolStats) : UInt64 :=
  if now - stats.oldest = 0 then 1 else now - stats.oldest

/-- The histogram with `histo_98pc`, or nothing when the iterator leaves the map or an index the
vector. -/
def fillHisto (now : UInt64) (stats : TxpoolStats) (ages : List (UInt64 × TxpoolHisto)) :
    Option (UInt64 × List TxpoolHisto) :=
  if lastBinTxs stats = 0 then
    (addAll (placed (binFactor stats) (binDelta now stats) ages [])
      (List.replicate (binFactor stats).toNat 0)).map fun histo => (0, histo)
  else if ages.length < lastBinTxs stats + 1 then none
  else
    let first := ages.take (ages.length - (lastBinTxs stats + 1))
    let rest := ages.drop (ages.length - (lastBinTxs stats + 1))
    rest.head?.bind fun it =>
      (addAll (placed 9 (if it.1 = 0 then 1 else it.1) first rest) (List.replicate 10 0)).map
        fun histo => (it.1, histo)

/-- `get_transaction_stats`, on the rows that are counted. -/
def getTransactionStats (now : UInt64) (infos : List TxpoolMeta) : Option TxpoolStats :=
  let stats := countAll now infos
  if stats.txsTotal ≤ 1 then some stats
  else
    (fillHisto now stats (ageBytes now infos).elems).map fun histo =>
      { stats with histo98pc := histo.1, histo := histo.2 }

/-- The rows that are counted in the pool, and those that are gone through. -/
def statsOf (now : UInt64) (includeUnrelayedTxes : Bool) (t : Txpool) : Option TxpoolStats :=
  getTransactionStats now ((t.rows.map PoolRow.info).filter fun info =>
    includeUnrelayedTxes || !info.doNotRelay)

/-! ### The histogram that is expected -/

def HistoComplete (now : UInt64) (infos : List TxpoolMeta) : Prop :=
  ∃ stats, getTransactionStats now infos = some stats ∧
    (stats.histo.map TxpoolHisto.txs).sum = stats.txsTotal ∧
    (stats.histo.map TxpoolHisto.bytes).sum = stats.bytesTotal

variable {now : UInt64} {infos : List TxpoolMeta}

/-! ### The sums -/

section

open scoped UInt32.CommRing UInt64.CommRing

theorem age_injective : Function.Injective UInt64.toNat := fun _ _ => UInt64.toNat.inj

theorem sum_foldl_countAge {N : Type} [AddCommMonoid N] {μ : TxpoolHisto → N}
    (hμ : ∀ a b, μ (a + b) = μ a + μ b) (hzero : μ 0 = 0) (infos : List TxpoolMeta)
    (agebytes : AgeBytes) :
    ((infos.foldl (countAge now) agebytes).elems.map fun p => μ p.2).sum =
      (agebytes.elems.map fun p => μ p.2).sum +
        (infos.map fun info => μ ⟨1, info.weight⟩).sum := by
  induction infos generalizing agebytes with
  | nil => simp
  | cons info infos ih =>
      rw [List.foldl_cons, ih, countAge, OrderedMap.sum_tally age_injective hμ hzero, List.map_cons,
        List.sum_cons, add_assoc]

theorem sum_ones (infos : List TxpoolMeta) :
    (infos.map fun _ => (1 : UInt32)).sum = infos.length.toUInt32 := by
  induction infos with
  | nil => rfl
  | cons info infos ih =>
      have hsucc : UInt32.ofNat (infos.length + 1) = UInt32.ofNat infos.length + 1 :=
        UInt32.ofNat_add _ _
      rw [List.map_cons, List.sum_cons, ih, add_comm]
      exact hsucc.symm

theorem sum_txs (now : UInt64) (infos : List TxpoolMeta) :
    ((ageBytes now infos).elems.map fun p => p.2.txs).sum = infos.length.toUInt32 := by
  have hsum := @sum_foldl_countAge now _ _ TxpoolHisto.txs (fun _ _ => rfl) rfl infos ∅
  rw [ageBytes, hsum, sum_ones]
  exact zero_add _

theorem sum_bytes (now : UInt64) (infos : List TxpoolMeta) :
    ((ageBytes now infos).elems.map fun p => p.2.bytes).sum =
      (infos.map TxpoolMeta.weight).sum := by
  have hsum := @sum_foldl_countAge now _ _ TxpoolHisto.bytes (fun _ _ => rfl) rfl infos ∅
  rw [ageBytes, hsum]
  exact zero_add _

theorem foldl_count (infos : List TxpoolMeta) (stats : TxpoolStats) :
    (infos.foldl (TxpoolStats.count now) stats).txsTotal = stats.txsTotal ∧
      (infos.foldl (TxpoolStats.count now) stats).histo = stats.histo ∧
      (infos.foldl (TxpoolStats.count now) stats).bytesTotal =
        stats.bytesTotal + (infos.map TxpoolMeta.weight).sum := by
  induction infos generalizing stats with
  | nil => exact ⟨rfl, rfl, (add_zero _).symm⟩
  | cons info infos ih =>
      obtain ⟨htxs, hhisto, hbytes⟩ := ih (stats.count now info)
      rw [List.foldl_cons, List.map_cons, List.sum_cons, ← add_assoc]
      exact ⟨htxs, hhisto, hbytes⟩

theorem countAll_txsTotal : (countAll now infos).txsTotal = infos.length.toUInt32 :=
  (foldl_count infos _).1

theorem countAll_histo : (countAll now infos).histo = [] := (foldl_count infos _).2.1

theorem countAll_bytesTotal : (countAll now infos).bytesTotal = (infos.map TxpoolMeta.weight).sum :=
  (foldl_count infos _).2.2.trans (zero_add _)

/-- Whatever the bins are, they add up to the ages that were put into them. -/
theorem sum_placed {N : Type} [AddCommMonoid N] {μ : TxpoolHisto → N}
    (hμ : ∀ a b, μ (a + b) = μ a + μ b) (hzero : μ 0 = 0) {factor delta : UInt64} {n : ℕ}
    {ages rest : List (UInt64 × TxpoolHisto)} {histo : List TxpoolHisto}
    (h : addAll (placed factor delta ages rest) (List.replicate n 0) = some histo) :
    (histo.map μ).sum = ((ages ++ rest).map fun p => μ p.2).sum := by
  rw [sum_addAll hμ h, List.map_replicate, hzero, List.sum_replicate, smul_zero, zero_add, placed,
    List.map_append, List.map_map, List.map_map, List.map_append]
  rfl

theorem fillHisto_sum {N : Type} [AddCommMonoid N] {μ : TxpoolHisto → N}
    (hμ : ∀ a b, μ (a + b) = μ a + μ b) (hzero : μ 0 = 0) {stats : TxpoolStats}
    {ages : List (UInt64 × TxpoolHisto)} {histo : UInt64 × List TxpoolHisto}
    (h : fillHisto now stats ages = some histo) :
    (histo.2.map μ).sum = (ages.map fun p => μ p.2).sum := by
  rw [fillHisto] at h
  split at h
  · obtain ⟨bins, hbins, rfl⟩ := Option.map_eq_some_iff.mp h
    rw [sum_placed hμ hzero hbins, List.append_nil]
  · split at h
    · cases h
    · obtain ⟨it, -, h⟩ := Option.bind_eq_some_iff.mp h
      obtain ⟨bins, hbins, rfl⟩ := Option.map_eq_some_iff.mp h
      rw [sum_placed hμ hzero hbins, List.take_append_drop]

theorem fillHisto_txs {histo : UInt64 × List TxpoolHisto}
    (h : fillHisto now (countAll now infos) (ageBytes now infos).elems = some histo) :
    (histo.2.map TxpoolHisto.txs).sum = (countAll now infos).txsTotal := by
  rw [countAll_txsTotal, ← sum_txs now infos]
  exact @fillHisto_sum now _ _ TxpoolHisto.txs (fun _ _ => rfl) rfl _ _ _ h

theorem fillHisto_bytes {histo : UInt64 × List TxpoolHisto}
    (h : fillHisto now (countAll now infos) (ageBytes now infos).elems = some histo) :
    (histo.2.map TxpoolHisto.bytes).sum = (countAll now infos).bytesTotal := by
  rw [countAll_bytesTotal, ← sum_bytes now infos]
  exact @fillHisto_sum now _ _ TxpoolHisto.bytes (fun _ _ => rfl) rfl _ _ _ h

end

/-! ### The ages -/

theorem ageOf_ne_zero (now receiveTime : UInt64) : ageOf now receiveTime ≠ 0 := by
  rw [ageOf]
  split
  · rename_i heq
    rw [heq, UInt64.sub_self]
    decide
  · rename_i hne
    rw [UInt64.add_zero]
    intro hzero
    have hsum := UInt64.sub_add_cancel now receiveTime
    rw [hzero, UInt64.zero_add] at hsum
    exact hne hsum.symm

theorem mem_foldl_countAge {age : UInt64} (infos : List TxpoolMeta) (agebytes : AgeBytes) :
    age ∈ (infos.foldl (countAge now) agebytes).elems.map Prod.fst ↔
      (∃ info ∈ infos, ageOf now info.receiveTime = age) ∨ age ∈ agebytes.elems.map Prod.fst := by
  induction infos generalizing agebytes with
  | nil => simp
  | cons info infos ih =>
      rw [List.foldl_cons, ih, countAge, OrderedMap.mem_keys_tally age_injective, List.exists_mem_cons_iff]
      constructor
      · rintro (h | rfl | h)
        · exact .inl (.inr h)
        · exact .inl (.inl rfl)
        · exact .inr h
      · rintro ((rfl | h) | h)
        · exact .inr (.inl rfl)
        · exact .inl h
        · exact .inr (.inr h)

theorem mem_ages {age : UInt64} : age ∈ (ageBytes now infos).elems.map Prod.fst ↔
    ∃ info ∈ infos, ageOf now info.receiveTime = age := by
  rw [ageBytes, mem_foldl_countAge]
  exact or_iff_left List.not_mem_nil

theorem forall_ages (P : UInt64 → Prop) :
    (∀ p ∈ (ageBytes now infos).elems, P p.1) ↔
      ∀ info ∈ infos, P (ageOf now info.receiveTime) := by
  constructor
  · intro hall info hinfo
    obtain ⟨p, hp, hage⟩ := List.mem_map.mp (mem_ages.mpr ⟨info, hinfo, rfl⟩)
    exact hage ▸ hall p hp
  · intro hall p hp
    obtain ⟨info, hinfo, hage⟩ := mem_ages.mp (List.mem_map_of_mem (f := Prod.fst) hp)
    exact hage ▸ hall info hinfo

def distinctAges (now : UInt64) (infos : List TxpoolMeta) : ℕ :=
  (infos.map fun info => ageOf now info.receiveTime).dedup.length

theorem length_ages : (ageBytes now infos).elems.length = distinctAges now infos := by
  have hnodup : ((ageBytes now infos).elems.map Prod.fst).Nodup := by
    rw [List.Nodup, List.pairwise_map]
    exact (ageBytes now infos).sorted.imp fun hlt heq => hlt.ne (congrArg UInt64.toNat heq)
  have hperm : ((ageBytes now infos).elems.map Prod.fst).Perm
      (infos.map fun info => ageOf now info.receiveTime).dedup := by
    refine (List.perm_ext_iff_of_nodup hnodup (List.nodup_dedup _)).mpr fun age => ?_
    rw [mem_ages, List.mem_dedup, List.mem_map]
  rw [distinctAges, ← hperm.length_eq, List.length_map]

/-! ### The bins -/

theorem mul_nine_mod_pos {a : ℕ} (hpos : 0 < a) (hlt : a < 2 ^ 64) : 0 < a * 9 % 2 ^ 64 := by
  by_contra hzero
  have hdvd : 2 ^ 64 ∣ a * 9 := Nat.dvd_of_mod_eq_zero (Nat.eq_zero_of_not_pos hzero)
  have hcoprime : Nat.Coprime (2 ^ 64) 9 := by decide
  exact absurd (Nat.le_of_dvd hpos (hcoprime.dvd_of_dvd_mul_right hdvd)) (not_le.mpr hlt)

theorem binOf_nine_lt {delta age : UInt64} (hage : age ≠ 0) (hlt : age.toNat < delta.toNat) :
    binOf 9 delta age < 9 := by
  have hpos : 0 < age.toNat := Nat.pos_of_ne_zero fun hzero => hage (UInt64.toNat.inj hzero)
  have hmul : (age * 9).toNat = age.toNat * 9 % 2 ^ 64 := by
    simp only [UInt64.toNat_mul, UInt64.reduceToNat]
  have hproduct : 1 ≤ (age * 9).toNat := by
    rw [hmul]
    exact mul_nine_mod_pos hpos age.toNat_lt
  have hless : (age * 9 - 1).toNat = (age * 9).toNat - 1 :=
    UInt64.toNat_sub_of_le _ _ (UInt64.le_iff_toNat_le.mpr hproduct)
  rw [binOf, UInt64.toNat_div, hless]
  apply Nat.div_lt_of_lt_mul
  have hle : (age * 9).toNat ≤ age.toNat * 9 := by
    rw [hmul]
    exact Nat.mod_le _ _
  generalize (age * 9).toNat = product at hproduct hle
  omega

/-- From fifty transactions on, all ages find a bin when the iterator stays in the map. -/
theorem fillHisto_many (stats : TxpoolStats) (hmany : lastBinTxs stats ≠ 0) :
    (fillHisto now stats (ageBytes now infos).elems).isSome = true ↔
      lastBinTxs stats < distinctAges now infos := by
  rw [fillHisto, if_neg hmany, ← length_ages]
  generalize hages : (ageBytes now infos).elems = ages
  split
  · rename_i hfew
    simp only [Option.isSome_none, Bool.false_eq_true, false_iff]
    omega
  rename_i henough
  refine iff_of_true ?_ (by omega)
  simp only
  -- the iterator stands on an age
  have hsplit : ages.length - (lastBinTxs stats + 1) < ages.length := by omega
  generalize ages.length - (lastBinTxs stats + 1) = k at hsplit
  rw [List.head?_drop, List.getElem?_eq_getElem hsplit, Option.bind_some, Option.isSome_map,
    addAll_isSome_iff]
  have hnonzero : ∀ p ∈ ages, p.1 ≠ 0 := by
    rw [← hages]
    exact (forall_ages (· ≠ 0)).mpr fun info _ => ageOf_ne_zero now info.receiveTime
  rw [if_neg (hnonzero _ (List.getElem_mem hsplit))]
  intro e he
  rw [List.length_replicate]
  rcases List.mem_append.mp he with he | he
  · obtain ⟨p, hp, rfl⟩ := List.mem_map.mp he
    have hpages : p ∈ ages := List.mem_of_mem_take hp
    have hlt : p.1.toNat < ages[k].1.toNat := by
      obtain ⟨i, hi, rfl⟩ := List.mem_take_iff_getElem.mp hp
      have hsorted : ages.Pairwise fun p q => p.1.toNat < q.1.toNat := by
        rw [← hages]
        exact (ageBytes now infos).sorted
      exact List.pairwise_iff_getElem.mp hsorted i k (by omega) hsplit (by omega)
    exact (binOf_nine_lt (hnonzero p hpages) hlt).trans (by decide)
  · obtain ⟨p, -, rfl⟩ := List.mem_map.mp he
    exact (by decide : (9 : ℕ) < 10)

/-- Below fifty transactions, the bin of each age has to be there. -/
theorem fillHisto_few (stats : TxpoolStats) (hfew : lastBinTxs stats = 0) :
    (fillHisto now stats (ageBytes now infos).elems).isSome = true ↔
      ∀ info ∈ infos, binOf (binFactor stats) (binDelta now stats) (ageOf now info.receiveTime) <
        (binFactor stats).toNat := by
  rw [fillHisto, if_pos hfew, Option.isSome_map, addAll_isSome_iff, placed, List.map_nil,
    List.append_nil, List.forall_mem_map, List.length_replicate]
  exact forall_ages fun age =>
    binOf (binFactor stats) (binDelta now stats) age < (binFactor stats).toNat

/-! ### The histogram -/

def txCount (infos : List TxpoolMeta) : ℕ := infos.length % 2 ^ 32

theorem toNat_txsTotal : (countAll now infos).txsTotal.toNat = txCount infos := by
  rw [countAll_txsTotal, Nat.toUInt32, UInt32.toNat_ofNat', txCount]

theorem histoComplete_of_filled (hmore : 1 < txCount infos) :
    HistoComplete now infos ↔
      (fillHisto now (countAll now infos) (ageBytes now infos).elems).isSome = true := by
  have hbranch : ¬(countAll now infos).txsTotal ≤ 1 := by
    rw [UInt32.le_iff_toNat_le, toNat_txsTotal]
    exact not_le.mpr hmore
  have hstats : getTransactionStats now infos =
      (fillHisto now (countAll now infos) (ageBytes now infos).elems).map fun histo =>
        { countAll now infos with histo98pc := histo.1, histo := histo.2 } := if_neg hbranch
  rw [HistoComplete, hstats]
  constructor
  · rintro ⟨stats, hsome, -⟩
    obtain ⟨histo, hhisto, -⟩ := Option.map_eq_some_iff.mp hsome
    rw [hhisto, Option.isSome_some]
  · intro hsome
    obtain ⟨histo, hhisto⟩ := Option.isSome_iff_exists.mp hsome
    refine ⟨_, by rw [hhisto, Option.map_some], ?_, ?_⟩
    · exact fillHisto_txs hhisto
    · exact fillHisto_bytes hhisto

theorem histoComplete_of_none (hfew : txCount infos ≤ 1) :
    HistoComplete now infos ↔ txCount infos = 0 ∧ (infos.map TxpoolMeta.weight).sum = 0 := by
  have hbranch : (countAll now infos).txsTotal ≤ 1 := by
    rw [UInt32.le_iff_toNat_le, toNat_txsTotal]
    exact hfew
  have hstats : getTransactionStats now infos = some (countAll now infos) := if_pos hbranch
  have htxs : (0 : UInt32) = (countAll now infos).txsTotal ↔ txCount infos = 0 := by
    rw [← @toNat_txsTotal now, ← UInt32.toNat_inj]
    exact eq_comm
  have hbytes : (0 : UInt64) = (countAll now infos).bytesTotal ↔
      (infos.map TxpoolMeta.weight).sum = 0 := by
    rw [countAll_bytesTotal]
    exact eq_comm
  rw [HistoComplete, hstats, ← htxs, ← hbytes]
  constructor
  · rintro ⟨stats, hsome, hsums⟩
    obtain rfl := Option.some.inj hsome
    rwa [countAll_histo] at hsums
  · intro hsums
    refine ⟨_, rfl, ?_⟩
    rw [countAll_histo]
    exact hsums

/-- The histogram is complete exactly when the pool is empty, when it has at least two transactions
and fewer than fifty, each with an age that has a bin, or when it has fifty or more and more
different ages than the last bin has transactions. -/
theorem histoComplete_iff (now : UInt64) (infos : List TxpoolMeta) :
    HistoComplete now infos ↔
      (txCount infos = 0 ∧ (infos.map TxpoolMeta.weight).sum = 0) ∨
      (1 < txCount infos ∧ txCount infos < 50 ∧ ∀ info ∈ infos,
        binOf (binFactor (countAll now infos)) (binDelta now (countAll now infos))
          (ageOf now info.receiveTime) < (binFactor (countAll now infos)).toNat) ∨
      (50 ≤ txCount infos ∧ txCount infos / 50 < distinctAges now infos) := by
  have hlast : lastBinTxs (countAll now infos) = txCount infos / 50 := by
    rw [lastBinTxs, toNat_txsTotal]
  rcases Nat.lt_or_ge 1 (txCount infos) with hmore | hnone
  · rw [histoComplete_of_filled hmore]
    rcases Nat.lt_or_ge (txCount infos) 50 with hfew | hmany
    · rw [fillHisto_few _ (by omega)]
      constructor
      · exact fun hbins => .inr (.inl ⟨hmore, hfew, hbins⟩)
      · rintro (⟨hzero, -⟩ | ⟨-, -, hbins⟩ | ⟨hmany, -⟩)
        · omega
        · exact hbins
        · omega
    · rw [fillHisto_many _ (by omega), hlast]
      constructor
      · exact fun hages => .inr (.inr ⟨hmany, hages⟩)
      · rintro (⟨hzero, -⟩ | ⟨-, hfew, -⟩ | ⟨-, hages⟩)
        · omega
        · omega
        · exact hages
  · rw [histoComplete_of_none hnone]
    constructor
    · exact .inl
    · rintro (hempty | ⟨hmore, -⟩ | ⟨hmany, -⟩)
      · exact hempty
      · omega
      · omega

/-! ### Ordinary pools -/

/-! ### Fifty transactions of one age -/

def statsInfo : TxpoolMeta :=
  ⟨Cryptonote.nullHash, Cryptonote.nullHash, 1000, 10, 0, 0, 1540000000, 0, false, true, false, false⟩

/-- There is one age, and the iterator is moved down twice. -/
theorem fiftyOfOneAge_not_histoComplete :
    ¬HistoComplete 1540000100 (List.replicate 50 statsInfo) := by
  have hcount : txCount (List.replicate 50 statsInfo) = 50 := by decide
  rw [histoComplete_of_filled (by omega), fillHisto_many _ (by rw [lastBinTxs, toNat_txsTotal]; omega),
    lastBinTxs, toNat_txsTotal, hcount]
  decide

end XrCoin.TxPool

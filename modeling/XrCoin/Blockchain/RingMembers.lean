import XrCoin.Blockchain.ScanAgreement

/-!
The members of a ring: whether they are distinct, and which of them is the youngest.

An input has the offsets of its ring members as differences. From version 6 on, no
difference after the first may be zero. The differences are added up in 64 bits, so the
members are in order, and the last is the youngest, exactly when the sum does not wrap
around.
-/

namespace XrCoin.Blockchain

open Archive Cryptonote BlockchainDb

def checkTxInputsRingMembersDiff (version : UInt8) (tx : TransactionPrefix) : Bool :=
  if 6 ≤ version then
    tx.vin.toList.all fun txin =>
      match getToKey txin with
      | some tokeyIn => tokeyIn.keyOffsets.tail.all fun offset => decide (offset ≠ 0)
      | none => false
  else true

/-! ### What is expected of a ring -/

def OutputsView.InChainOrder (db : OutputsView) : Prop :=
  ∀ amount i j a b, i ≤ j → db.getOutputKey amount i = some a → db.getOutputKey amount j = some b →
    a.height ≤ b.height

def ringHeights (db : OutputsView) (txin : TxinToKey) : List ℕ :=
  txin.absoluteOffsets.filterMap fun o =>
    (db.getOutputKey txin.amount o.toNat).map OutputData.height

def ReadsDatabase (table : ScanTable) (db : OutputsView) (txPrefixHash : Hash)
    (txin : TxinToKey) : Prop :=
  ∀ vis pmax, scanOutputkeysForIndexes table db txPrefixHash txin vis pmax =
    scanOutputkeysForIndexes [] db txPrefixHash txin vis pmax

/-- The members are in order and distinct, the last one is the youngest, and a scan that
succeeds raises the height it is given to the greatest one of the members. -/
structure RingSound (txin : TxinToKey) : Prop where
  increasing : txin.absoluteOffsets.Pairwise (· < ·)
  distinct : txin.absoluteOffsets.Nodup
  youngest : ∀ db : OutputsView, db.InChainOrder → ∀ last ∈ txin.absoluteOffsets.getLast?,
    ∀ o ∈ txin.absoluteOffsets, ∀ a b, db.getOutputKey txin.amount o.toNat = some a →
      db.getOutputKey txin.amount last.toNat = some b → a.height ≤ b.height
  reported : ∀ db : OutputsView, db.InChainOrder → ∀ table txPrefixHash,
    ReadsDatabase table db txPrefixHash txin → ∀ vis height,
      (scanOutputkeysForIndexes table db txPrefixHash txin vis (some height)).success = true →
        (scanOutputkeysForIndexes table db txPrefixHash txin vis
          (some height)).maxRelatedBlockHeight = some ((ringHeights db txin).foldl max height)

/-! ### Stored chains -/

section

variable {ops : CryptoOps} {cfg : Config}

theorem outputsFrom_height {height : ℕ} {tx : Transaction} {txHash : Hash} {i : ℕ}
    {outs : List TxOut} {o : ChainOut} (ho : o ∈ outputsFrom ops height tx txHash i outs) :
    o.height = height := by
  induction outs generalizing i with
  | nil => exact absurd ho List.not_mem_nil
  | cons out outs ih =>
      rw [outputsFrom] at ho
      split at ho
      · rcases List.mem_cons.mp ho with rfl | ho
        · rfl
        · exact ih ho
      · exact ih ho

theorem txsOutputs_height {height : ℕ} {txs : List (Hash × Transaction)} {o : ChainOut}
    (ho : o ∈ txsOutputs ops height txs) : o.height = height := by
  rw [txsOutputs, List.mem_flatMap] at ho
  obtain ⟨p, -, hp⟩ := ho
  exact outputsFrom_height hp

theorem chainOutputs_inOrder (chain : List ChainEntry) :
    (∀ o ∈ chainOutputs ops cfg chain, o.height < chain.length) ∧
      (chainOutputs ops cfg chain).Pairwise fun a b => a.height ≤ b.height := by
  induction chain using List.reverseRecOn with
  | nil => exact ⟨fun _ ho => absurd ho List.not_mem_nil, List.Pairwise.nil⟩
  | append_singleton chain e ih =>
      rw [chainOutputs_concat, List.length_append, List.length_singleton]
      constructor
      · intro o ho
        rcases List.mem_append.mp ho with ho | ho
        · exact (ih.1 o ho).trans (Nat.lt_succ_self _)
        · rw [txsOutputs_height ho]
          exact Nat.lt_succ_self _
      · refine List.pairwise_append.mpr ⟨ih.2, ?_, ?_⟩
        · apply List.pairwise_of_forall_mem_list
          intro a ha b hb
          rw [txsOutputs_height ha, txsOutputs_height hb]
        · intro a ha b hb
          rw [txsOutputs_height hb]
          exact (ih.1 a ha).le

theorem outputsView_inChainOrder (zeroCommit : UInt64 → Key) {chain : List ChainEntry} {db : Db}
    (h : ChainStored ops cfg chain db) :
    (outputsView zeroCommit (chainOutputs ops cfg chain) db h.outputs).InChainOrder := by
  intro amount i j a b hij ha hb
  have hpairs : (outKeysOf amount (chainOutputs ops cfg chain).zipIdx).Pairwise
      fun k l => k.height ≤ l.height := by
    have hzip : ((chainOutputs ops cfg chain).zipIdx.map Prod.fst).Pairwise
        fun a b => a.height ≤ b.height := by
      rw [List.zipIdx_map_fst]
      exact (chainOutputs_inOrder chain).2
    rw [List.pairwise_map] at hzip
    rw [outKeysOf, List.pairwise_map]
    exact hzip.filter _
  have hkey : ∀ n, (outputsView zeroCommit (chainOutputs ops cfg chain) db
      h.outputs).getOutputKey amount n = getOutputKey zeroCommit db amount n := fun _ => rfl
  simp only [hkey, getOutputKey, Lmdb.Table.get, h.outputs.outputAmounts, lookup_indexed] at ha hb
  obtain ⟨k, hk, rfl⟩ := Option.map_eq_some_iff.mp ha
  obtain ⟨l, hl, rfl⟩ := Option.map_eq_some_iff.mp hb
  rcases hij.eq_or_lt with rfl | hlt
  · rw [hk] at hl
    rw [Option.some.inj hl]
  · obtain ⟨hi, rfl⟩ := List.getElem?_eq_some_iff.mp hk
    obtain ⟨hj, rfl⟩ := List.getElem?_eq_some_iff.mp hl
    exact List.pairwise_iff_getElem.mp hpairs i j hi hj hlt

end

/-! ### The offsets -/

theorem lt_add_iff {a b : UInt64} (hb : b ≠ 0) : a < a + b ↔ a.toNat + b.toNat < 2 ^ 64 := by
  have hpos : b.toNat ≠ 0 := by
    rw [ne_eq, ← UInt64.toNat_zero, UInt64.toNat_inj]
    exact hb
  have ha := a.toNat_lt
  have hb' := b.toNat_lt
  rw [UInt64.lt_iff_toNat_lt, UInt64.toNat_add]
  omega

/-- The sums only grow exactly when the last one does not wrap around. -/
theorem addUpOffsets_pairwise_iff {last : UInt64} {offsets : List UInt64}
    (hnonzero : ∀ o ∈ offsets, o ≠ 0) :
    (last :: addUpOffsets last offsets).Pairwise (· < ·) ↔
      last.toNat + (offsets.map UInt64.toNat).sum < 2 ^ 64 := by
  induction offsets generalizing last with
  | nil =>
      refine iff_of_true (List.pairwise_singleton _ _) ?_
      simpa using last.toNat_lt
  | cons o offsets ih =>
      rw [List.forall_mem_cons] at hnonzero
      rw [addUpOffsets, List.map_cons, List.sum_cons, List.pairwise_cons]
      constructor
      · rintro ⟨hfirst, hrest⟩
        have hstep := (lt_add_iff hnonzero.1).mp (hfirst _ List.mem_cons_self)
        have hsum := (ih hnonzero.2).mp hrest
        rw [UInt64.toNat_add] at hsum
        omega
      · intro hsum
        have hstep : last < last + o := (lt_add_iff hnonzero.1).mpr (by omega)
        have hrest : ((last + o) :: addUpOffsets (last + o) offsets).Pairwise (· < ·) := by
          rw [ih hnonzero.2, UInt64.toNat_add]
          omega
        refine ⟨?_, hrest⟩
        intro p hp
        rcases List.mem_cons.mp hp with rfl | hp
        · exact hstep
        · exact UInt64.lt_trans hstep ((List.pairwise_cons.mp hrest).1 p hp)

theorem absoluteOffsets_pairwise_iff {txin : TxinToKey} (hnonzero : ∀ o ∈ txin.keyOffsets.tail, o ≠ 0) :
    txin.absoluteOffsets.Pairwise (· < ·) ↔
      (txin.keyOffsets.map UInt64.toNat).sum < 2 ^ 64 := by
  rw [TxinToKey.absoluteOffsets, relativeOutputOffsetsToAbsolute]
  cases hoffsets : txin.keyOffsets with
  | nil => exact iff_of_true List.Pairwise.nil (by decide)
  | cons o offsets =>
      rw [hoffsets, List.tail_cons] at hnonzero
      rw [addUpOffsets, UInt64.zero_add, addUpOffsets_pairwise_iff hnonzero, List.map_cons,
        List.sum_cons]

/-! ### The heights -/

theorem le_last_of_pairwise {offsets : List UInt64} (h : offsets.Pairwise (· < ·)) {last o : UInt64}
    (hlast : offsets.getLast? = some last) (ho : o ∈ offsets) : o.toNat ≤ last.toNat := by
  obtain ⟨front, rfl⟩ := List.getLast?_eq_some_iff.mp hlast
  rw [List.pairwise_append] at h
  rcases List.mem_append.mp ho with hfront | hend
  · exact (UInt64.lt_iff_toNat_lt.mp (h.2.2 o hfront last (List.mem_singleton.mpr rfl))).le
  · rw [List.mem_singleton.mp hend]

/-- A walk over all members raises the height to that of the last one. -/
theorem visitOutputs_height {vis : List Visit → Bool} {get : ℕ → Option OutputData}
    {offsets : List UInt64} {visited : List Visit} {height : ℕ} {last : UInt64}
    (hlast : offsets.getLast? = some last)
    (hsuccess : (visitOutputs vis get offsets [] visited (some height)).success = true) :
    ∃ data, get last.toNat = some data ∧
      (visitOutputs vis get offsets [] visited (some height)).maxRelatedBlockHeight =
        some (max height data.height) := by
  induction offsets generalizing visited with
  | nil => cases hlast
  | cons o offsets ih =>
      rw [visitOutputs, List.head?_nil, Option.none_or, List.tail_nil] at hsuccess ⊢
      cases hget : get o.toNat with
      | none =>
          rw [hget] at hsuccess
          cases hsuccess
      | some data =>
          rw [hget] at hsuccess
          simp only at hsuccess ⊢
          split at hsuccess
          · rename_i hvis
            rw [if_pos hvis]
            by_cases hend : offsets = []
            · subst hend
              obtain rfl := Option.some.inj hlast
              rw [if_pos rfl, visitOutputs]
              exact ⟨data, hget, rfl⟩
            · rw [if_neg hend] at hsuccess ⊢
              have hlast' : offsets.getLast? = some last := by
                obtain ⟨p, rest, rfl⟩ := List.exists_cons_of_ne_nil hend
                rw [← hlast, List.getLast?_cons_cons]
              exact ih hlast' hsuccess
          · cases hsuccess

theorem foldl_max_of_le {l : List ℕ} {m : ℕ} (h : ∀ n ∈ l, n ≤ m) : l.foldl max m = m := by
  induction l with
  | nil => rfl
  | cons n l ih =>
      rw [List.forall_mem_cons] at h
      rw [List.foldl_cons, max_eq_left h.1, ih h.2]

/-- The greatest number of a list is what a running maximum ends with. -/
theorem foldl_max_of_mem {l : List ℕ} {m : ℕ} (hmem : m ∈ l) (h : ∀ n ∈ l, n ≤ m) (start : ℕ) :
    l.foldl max start = max start m := by
  induction l generalizing start with
  | nil => exact absurd hmem List.not_mem_nil
  | cons n l ih =>
      rw [List.forall_mem_cons] at h
      rw [List.foldl_cons]
      rcases List.mem_cons.mp hmem with rfl | hmem
      · exact foldl_max_of_le fun k hk => (h.2 k hk).trans (le_max_right _ _)
      · rw [ih hmem h.2, max_assoc, max_eq_right h.1]

theorem scan_height {db : OutputsView} {txPrefixHash : Hash} {txin : TxinToKey}
    {vis : List Visit → Bool} {height : ℕ}
    (hsuccess : (scanOutputkeysForIndexes [] db txPrefixHash txin vis (some height)).success = true) :
    ∃ last data, txin.absoluteOffsets.getLast? = some last ∧
      db.getOutputKey txin.amount last.toNat = some data ∧
      (scanOutputkeysForIndexes [] db txPrefixHash txin vis (some height)).maxRelatedBlockHeight =
        some (max height data.height) := by
  by_cases hkey : txin.keyOffsets = []
  · rw [scanOutputkeysForIndexes, if_pos hkey] at hsuccess
    cases hsuccess
  · rw [scan_of_none hkey rfl] at hsuccess ⊢
    split at hsuccess
    · rename_i hall
      rw [if_pos hall]
      obtain ⟨last, hlast⟩ : ∃ last, txin.absoluteOffsets.getLast? = some last := by
        rw [← Option.isSome_iff_exists, List.getLast?_isSome]
        exact fun hnil => hkey (absoluteOffsets_eq_nil.mp hnil)
      obtain ⟨data, hdata, hheight⟩ := visitOutputs_height hlast hsuccess
      exact ⟨last, data, hlast, hdata, hheight⟩
    · cases hsuccess

/-- With the members in order, the last one is the youngest and its height is reported. -/
theorem ringSound_of_increasing {txin : TxinToKey}
    (hincreasing : txin.absoluteOffsets.Pairwise (· < ·)) : RingSound txin where
  increasing := hincreasing
  distinct := hincreasing.imp fun hlt => UInt64.ne_of_lt hlt
  youngest := by
    intro db horder last hlast o ho a b ha hb
    exact horder _ _ _ a b (le_last_of_pairwise hincreasing hlast ho) ha hb
  reported := by
    intro db horder table txPrefixHash hreads vis height hsuccess
    rw [hreads] at hsuccess ⊢
    obtain ⟨last, data, hlast, hdata, hheight⟩ := scan_height hsuccess
    have hmem : data.height ∈ ringHeights db txin := by
      rw [ringHeights, List.mem_filterMap]
      exact ⟨last, List.mem_of_getLast? hlast, by rw [hdata]; rfl⟩
    have hgreatest : ∀ n ∈ ringHeights db txin, n ≤ data.height := by
      intro n hn
      rw [ringHeights, List.mem_filterMap] at hn
      obtain ⟨o, ho, hmap⟩ := hn
      obtain ⟨a, ha, rfl⟩ := Option.map_eq_some_iff.mp hmap
      exact horder _ _ _ a data (le_last_of_pairwise hincreasing hlast ho) ha hdata
    rw [hheight, foldl_max_of_mem hmem hgreatest]

/-- For the inputs of a transaction that passes the check from version 6 on, the ring is as
expected exactly when its offsets add up to less than `2 ^ 64`. -/
theorem ringSound_iff {version : UInt8} {tx : TransactionPrefix} (hversion : 6 ≤ version)
    (hcheck : checkTxInputsRingMembersDiff version tx = true) {txin : TxinToKey}
    (htxin : some txin ∈ tx.vin.toList.map getToKey) :
    RingSound txin ↔ (txin.keyOffsets.map UInt64.toNat).sum < 2 ^ 64 := by
  have hnonzero : ∀ o ∈ txin.keyOffsets.tail, o ≠ 0 := by
    rw [checkTxInputsRingMembersDiff, if_pos hversion, List.all_eq_true] at hcheck
    obtain ⟨input, hinput, hget⟩ := List.mem_map.mp htxin
    have hall := hcheck input hinput
    rw [hget, List.all_eq_true] at hall
    exact fun o ho => of_decide_eq_true (hall o ho)
  rw [← absoluteOffsets_pairwise_iff hnonzero]
  exact ⟨RingSound.increasing, ringSound_of_increasing⟩

/-- An input with three members, the differences of which are these. -/
def ringOf (offsets : List UInt64) (h : offsets.length < 2 ^ 64) : TransactionPrefix :=
  ⟨2, 0, 0, ⟨[.toKey 0 ⟨offsets, h⟩ (List.Vector.replicate 32 0x51)], by simp⟩, .nil, .nil⟩

/-- The differences 5, `2 ^ 64 - 4` and 1 pass the check, and stand for the members 5, 1 and
2, the last of which is not the youngest. -/
theorem wrappedRing_passes :
    checkTxInputsRingMembersDiff 6 (ringOf [5, 18446744073709551612, 1] (by decide)) = true ∧
      ∃ txin, some txin ∈
          (ringOf [5, 18446744073709551612, 1] (by decide)).vin.toList.map getToKey ∧
        txin.absoluteOffsets = [5, 1, 2] ∧ ¬RingSound txin := by
  refine ⟨by decide, ⟨0, [5, 18446744073709551612, 1], List.Vector.replicate 32 0x51⟩, by decide,
    by decide, ?_⟩
  intro hsound
  have hincreasing := hsound.increasing
  revert hincreasing
  decide

/-- The differences 5, 4 and 1 are those of a ring as expected. -/
theorem ringSound_iff_small :
    (6 ≤ (6 : UInt8) ∧ checkTxInputsRingMembersDiff 6 (ringOf [5, 4, 1] (by decide)) = true ∧
      some ⟨0, [5, 4, 1], List.Vector.replicate 32 0x51⟩ ∈
        (ringOf [5, 4, 1] (by decide)).vin.toList.map getToKey) ∧
      RingSound ⟨0, [5, 4, 1], List.Vector.replicate 32 0x51⟩ := by
  have hcheck : checkTxInputsRingMembersDiff 6 (ringOf [5, 4, 1] (by decide)) = true := by decide
  have htxin : some ⟨0, [5, 4, 1], List.Vector.replicate 32 0x51⟩ ∈
      (ringOf [5, 4, 1] (by decide)).vin.toList.map getToKey := by decide
  exact ⟨⟨by decide, hcheck, htxin⟩, (ringSound_iff (by decide) hcheck htxin).mpr (by decide)⟩

end XrCoin.Blockchain

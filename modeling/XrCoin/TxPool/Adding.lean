import XrCoin.TxPool.Consistent

/-!
`add_tx`: when it stores a transaction, and what the pool is afterwards.
-/

namespace XrCoin.TxPool

open Archive Cryptonote Data

section

variable {ρ : Type} {fr : FeeRate ρ} {ops : CryptoOps} {cfg : Config} {p : Pool ρ}

/-! ### Marking double spends -/

theorem totalWeight_updateInfo {rows : List PoolRow} {g : PoolRow → PoolRow}
    (hg : ∀ row, (g row).info.weight = row.info.weight) :
    totalWeight (rows.map g) = totalWeight rows := by
  simp only [totalWeight, List.map_map, Function.comp_def, hg]

theorem Consistent.markDoubleSpend (h : Consistent ops cfg p) (vin : List Txin) :
    Consistent ops cfg (p.markDoubleSpend vin) ∧
      (Weighed p → Weighed (p.markDoubleSpend vin)) := by
  obtain ⟨g, hrows, hg⟩ : ∃ g : PoolRow → PoolRow,
      (p.markDoubleSpend vin).txpool.rows = p.txpool.rows.map g ∧
        ∀ row, (g row).txid = row.txid ∧ (g row).blob = row.blob ∧
          (g row).info.keptByBlock = row.info.keptByBlock ∧
          (g row).info.weight = row.info.weight := by
    refine ⟨_, rfl, fun row => ?_⟩
    split <;> exact ⟨rfl, rfl, rfl, rfl⟩
  have hspends : ∀ row ki, Spends ops cfg (g row) ki ↔ Spends ops cfg row ki := by
    intro row ki
    rw [Spends, (hg row).2.1, ← Spends]
  refine ⟨⟨⟨?_, ?_, ?_⟩, ?_⟩, ?_⟩
  · rw [hrows]
    intro marked hmarked
    obtain ⟨row, hrow, rfl⟩ := List.mem_map.mp hmarked
    obtain ⟨tx, htx⟩ := h.held row hrow
    have hblob := (hg row).2.1
    exact ⟨tx, hblob ▸ htx.parsed, htx.inputs, hblob ▸ htx.weighed⟩
  · rw [hrows]
    refine h.images.congr fun ki id => ⟨?_, ?_⟩
    · rintro ⟨row, hrow, hid, hki⟩
      exact ⟨g row, List.mem_map_of_mem hrow, (hg row).1.trans hid, (hspends row ki).mpr hki⟩
    · rintro ⟨marked, hmarked, hid, hki⟩
      obtain ⟨row, hrow, rfl⟩ := List.mem_map.mp hmarked
      exact ⟨row, hrow, (hg row).1.symm.trans hid, (hspends row ki).mp hki⟩
  · rw [hrows]
    intro marked hmarked marked' hmarked' hkept hkept' ki hki hki'
    obtain ⟨row, hrow, rfl⟩ := List.mem_map.mp hmarked
    obtain ⟨row', hrow', rfl⟩ := List.mem_map.mp hmarked'
    have heq := h.disjoint row hrow row' hrow' ((hg row).2.2.1.symm.trans hkept)
      ((hg row').2.2.1.symm.trans hkept') ki ((hspends row ki).mp hki) ((hspends row' ki).mp hki')
    rw [heq]
  · rw [hrows, List.map_map]
    have hids : PoolRow.txid ∘ g = PoolRow.txid := funext fun row => (hg row).1
    rw [hids]
    exact h.ids
  · intro hweighed
    rw [Weighed, hrows, totalWeight_updateInfo fun row => (hg row).2.2.2]
    exact hweighed

/-! ### Storing -/

theorem haveTxKeyimgesAsSpent_eq_false {vin : List Txin}
    (h : p.haveTxKeyimgesAsSpent vin = false) : ∀ ki ∈ keyImages vin, p.spentKeyImages ki = none := by
  intro ki hki
  obtain ⟨txin, htxin, himage⟩ := List.mem_filterMap.mp hki
  have hfalse := List.any_eq_false.mp h txin htxin
  rw [himage] at hfalse
  simpa using hfalse

def newRow (ops : CryptoOps) (cfg : Config) (tx : Transaction) (info : TxpoolMeta) : PoolRow :=
  ⟨getTransactionHash ops cfg tx, info, txToBlob cfg tx⟩

def newEntry (fr : FeeRate ρ) (id : Hash) (info : TxpoolMeta) : SortedEntry ρ :=
  ⟨fr.rate info.fee info.weight, info.receiveTime, id⟩

theorem Consistent.store (h : Consistent ops cfg p) {tx : Transaction} {info : TxpoolMeta}
    (htx : Holds ops cfg (newRow ops cfg tx info) tx)
    (hfresh : getTransactionHash ops cfg tx ∉ p.txpool.rows.map PoolRow.txid)
    (hfree : info.keptByBlock = false → ∀ ki ∈ keyImages tx.vin.toList,
      p.spentKeyImages ki = none) (fr : FeeRate ρ) :
    ∃ stored, p.store fr ops cfg tx (getTransactionHash ops cfg tx)
        (getTransactionHash ops cfg tx) info = (true, stored) ∧
      Consistent ops cfg stored ∧
      stored.txpool.rows = p.txpool.rows ++ [newRow ops cfg tx info] ∧
      stored.sorted = emplace fr (newEntry fr (getTransactionHash ops cfg tx) info) p.sorted ∧
      stored.txpoolWeight = p.txpoolWeight ∧ stored.txpoolMaxWeight = p.txpoolMaxWeight := by
  have hrows : (p.txpool.put (newRow ops cfg tx info)).rows =
      p.txpool.rows ++ [newRow ops cfg tx info] := Txpool.put_rows hfresh
  have hmiss : ∀ ki, ¬SpentBy ops cfg p.txpool.rows ki (getTransactionHash ops cfg tx) := by
    rintro ki ⟨row, hrow, heq, -⟩
    exact hfresh (heq ▸ List.mem_map_of_mem hrow)
  have hunspent : info.keptByBlock = false → ∀ ki ∈ keyImages tx.vin.toList, ∀ id,
      ¬SpentBy ops cfg p.txpool.rows ki id := by
    intro hkept ki hki id hspent
    obtain ⟨set, hset, -⟩ := h.images.exists_entry hspent
    rw [hfree hkept ki hki] at hset
    exact absurd hset (by simp)
  obtain ⟨hok, hrep⟩ := insertKeyImages_spec (getTransactionHash ops cfg tx) info.keptByBlock
    h.images htx.inputs (fun ki _ => hmiss ki) hunspent
  have hperm := (emplace_perm fr (e := newEntry fr (getTransactionHash ops cfg tx) info)
    (fun hmem => hfresh (h.ids.subset hmem))).map SortedEntry.id
  refine ⟨⟨p.txpool.put (newRow ops cfg tx info),
    (insertKeyImages (getTransactionHash ops cfg tx) info.keptByBlock tx.vin.toList
      p.spentKeyImages).2,
    emplace fr (newEntry fr (getTransactionHash ops cfg tx) info) p.sorted,
    p.timedOutTransactions, p.txpoolWeight, p.txpoolMaxWeight⟩, if_pos hok,
    ⟨⟨?_, ?_, ?_⟩, ?_⟩, hrows, rfl, rfl, rfl⟩
  · show ∀ row ∈ (p.txpool.put (newRow ops cfg tx info)).rows, ∃ tx, Holds ops cfg row tx
    rw [hrows]
    intro row hrow
    rcases List.mem_append.mp hrow with hrow | hrow
    · exact h.held row hrow
    · rw [List.mem_singleton.mp hrow]
      exact ⟨tx, htx⟩
  · show Represents _ (SpentBy ops cfg (p.txpool.put (newRow ops cfg tx info)).rows)
    refine hrep.congr fun ki id => ?_
    have hsplit : SpentBy ops cfg (p.txpool.put (newRow ops cfg tx info)).rows ki id ↔
        SpentBy ops cfg (newRow ops cfg tx info :: p.txpool.rows) ki id := by
      rw [hrows, SpentBy, SpentBy]
      refine exists_congr fun row => and_congr_left fun _ => ?_
      rw [List.mem_append, List.mem_singleton, List.mem_cons, or_comm]
    rw [hsplit, spentBy_cons, htx.spends_iff, or_comm]
    rfl
  · show Disjoint ops cfg (p.txpool.put (newRow ops cfg tx info)).rows
    rw [hrows]
    intro row hrow row' hrow' hkept hkept' ki hki hki'
    rcases List.mem_append.mp hrow with hrow | hrow <;>
      rcases List.mem_append.mp hrow' with hrow' | hrow'
    · exact h.disjoint row hrow row' hrow' hkept hkept' ki hki hki'
    · obtain rfl := List.mem_singleton.mp hrow'
      exact absurd ⟨row, hrow, rfl, hki⟩ (hunspent hkept' ki (htx.spends_iff.mp hki') row.txid)
    · obtain rfl := List.mem_singleton.mp hrow
      exact absurd ⟨row', hrow', rfl, hki'⟩ (hunspent hkept ki (htx.spends_iff.mp hki) row'.txid)
    · rw [List.mem_singleton.mp hrow, List.mem_singleton.mp hrow']
  · show ((emplace fr (newEntry fr (getTransactionHash ops cfg tx) info) p.sorted).map
      SortedEntry.id).Perm ((p.txpool.put (newRow ops cfg tx info)).rows.map PoolRow.txid)
    rw [hrows, List.map_append, List.map_singleton]
    exact hperm.trans ((h.ids.cons _).trans (List.perm_append_singleton _ _).symm)

/-! ### Accepting -/

/-- What the callers of `add_tx` see to: the transaction was parsed, its id was
computed from it, its weight can be, and it is not in the pool. -/
structure AddTxArgs.Given (ops : CryptoOps) (cfg : Config) (args : AddTxArgs) (p : Pool ρ) :
    Prop where
  parsed : ∃ blob, parseAndValidateTxFromBlob ops cfg blob = some args.tx
  id_eq : args.id = getTransactionHash ops cfg args.tx
  weighed : (getTransactionWeight args.tx (txToBlob cfg args.tx).length).isSome = true
  inputs : ToKeyInputs args.tx.vin.toList
  fresh : args.id ∉ p.txpool.rows.map PoolRow.txid

structure Accepts (view : ChainView) (args : AddTxArgs) (tvc : TxVerificationContext)
    (p : Pool ρ) (fee : UInt64) : Prop where
  version : args.tx.version ≠ 0
  supported : checkInputsTypesSupported args.tx = true
  fee_eq : transactionFee args.tx tvc = .ok fee
  outputs : view.checkTxOutputs args.tx = true
  relayed : args.keptByBlock = false →
    args.id ∉ p.timedOutTransactions ∧ view.checkFee args.txWeight fee = true ∧
      args.txWeight ≤ view.transactionWeightLimit args.version ∧
      p.haveTxKeyimgesAsSpent args.tx.vin.toList = false ∧
      (view.checkTxInputs args.tx false).isSome = true

variable [DecidableEq ρ] {args : AddTxArgs}

theorem finishAdd_of_stored {stored : Pool ρ} (tvc : TxVerificationContext) :
    (finishAdd cfg args tvc (true, stored)).2.2 =
      prune cfg stored.txpoolMaxWeight (stored.addWeight args.txWeight) := rfl

theorem addTx_cases (fr : FeeRate ρ) (ops : CryptoOps) (cfg : Config) (view : ChainView)
    (args : AddTxArgs) (tvc : TxVerificationContext) (p : Pool ρ) :
    (∃ fee, Accepts view args tvc p fee) ∨
      (addTx fr ops cfg view args tvc p).1 = false ∧
        ((addTx fr ops cfg view args tvc p).2.2 = p ∨
          (addTx fr ops cfg view args tvc p).2.2 = p.markDoubleSpend args.tx.vin.toList) := by
  rw [addTx]
  split
  · exact .inr ⟨rfl, .inl rfl⟩
  rename_i hversion
  split
  · exact .inr ⟨rfl, .inl rfl⟩
  rename_i htimedOut
  split
  · exact .inr ⟨rfl, .inl rfl⟩
  rename_i hsupported
  split
  · exact .inr ⟨rfl, .inl rfl⟩
  rename_i fee hfee
  split
  · exact .inr ⟨rfl, .inl rfl⟩
  rename_i hcheckFee
  split
  · exact .inr ⟨rfl, .inl rfl⟩
  rename_i hlimit
  split
  · exact .inr ⟨rfl, .inr rfl⟩
  rename_i hspent
  split
  · exact .inr ⟨rfl, .inl rfl⟩
  rename_i houtputs
  -- only the inputs can still fail the transaction, and not when a block has it
  by_cases hinputs : args.keptByBlock = false → (view.checkTxInputs args.tx false).isSome = true
  · refine .inl ⟨fee, hversion, by simpa using hsupported, hfee, by simpa using houtputs, ?_⟩
    intro hkept
    refine ⟨fun hmem => htimedOut ⟨hkept, hmem⟩, ?_, ?_, ?_, hinputs hkept⟩
    · simpa [hkept] using hcheckFee
    · simpa [hkept] using hlimit
    · simpa [hkept] using hspent
  · obtain ⟨hkept, hnone⟩ := Classical.not_imp.mp hinputs
    have hnone' : view.checkTxInputs args.tx args.keptByBlock = none := by
      rw [hkept]
      simpa using hnone
    have hnot : ¬args.keptByBlock = true := by simp [hkept]
    simp only [hnone', addFailedInputs, if_neg hnot]
    exact .inr ⟨trivial, .inl trivial⟩

theorem addTx_of_accepts {view : ChainView} {tvc : TxVerificationContext} {fee : UInt64}
    (h : Accepts view args tvc p fee) (fr : FeeRate ρ) (ops : CryptoOps) (cfg : Config) :
    addTx fr ops cfg view args tvc p =
      match view.checkTxInputs args.tx args.keptByBlock with
      | none => addFailedInputs fr ops cfg view args fee tvc p
      | some used => addCheckedInputs fr ops cfg view args fee used tvc p := by
  have hkept : args.keptByBlock = false ∨ args.keptByBlock = true := by
    cases args.keptByBlock <;> simp
  rw [addTx, if_neg h.version]
  rcases hkept with hkept | hkept
  · obtain ⟨htimedOut, hfee, hlimit, hspent, -⟩ := h.relayed hkept
    have hlimit' : ¬view.transactionWeightLimit args.version < args.txWeight := by
      rw [UInt64.not_lt]
      exact hlimit
    cases hinputs : view.checkTxInputs args.tx false <;>
      simp only [hkept, hinputs, htimedOut, h.supported, h.fee_eq, hfee, hlimit', hspent,
        h.outputs, Bool.true_eq_false, Bool.false_eq_true, and_false, if_false]
  · cases hinputs : view.checkTxInputs args.tx true <;>
      simp only [hkept, hinputs, h.supported, h.fee_eq, h.outputs, Bool.true_eq_false, false_and,
        if_false]

theorem addTx_pool_of_accepts (h : args.Given ops cfg p) {view : ChainView}
    {tvc : TxVerificationContext} {fee : UInt64} (haccepts : Accepts view args tvc p fee)
    (fr : FeeRate ρ) :
    ∃ used seen, ∀ stored,
      p.store fr ops cfg args.tx (getTransactionHash ops cfg args.tx)
          (getTransactionHash ops cfg args.tx) (args.info fee view.now used seen) =
        (true, stored) →
      (addTx fr ops cfg view args tvc p).2.2 =
        prune cfg stored.txpoolMaxWeight (stored.addWeight args.txWeight) := by
  rw [addTx_of_accepts haccepts]
  split
  · rename_i hinputs
    have hkept : args.keptByBlock = true := by
      by_contra hfalse
      rw [Bool.not_eq_true] at hfalse
      have hsome := (haccepts.relayed hfalse).2.2.2.2
      rw [← hfalse, hinputs] at hsome
      exact absurd hsome (by simp)
    refine ⟨none, p.haveTxKeyimgesAsSpent args.tx.vin.toList, fun stored hstored => ?_⟩
    rw [addFailedInputs, if_pos hkept]
    simp only [h.id_eq, hstored]
    exact finishAdd_of_stored _
  · rename_i used hinputs
    refine ⟨some used, false, fun stored hstored => ?_⟩
    have hfresh := h.fresh
    rw [h.id_eq] at hfresh
    rw [addCheckedInputs]
    simp only [h.id_eq, Txpool.remove_eq_self hfresh, hstored]
    exact finishAdd_of_stored _

theorem addTx_pool (h : args.Given ops cfg p) (fr : FeeRate ρ) (view : ChainView)
    (tvc : TxVerificationContext) :
    (addTx fr ops cfg view args tvc p).2.2 = p ∨
      (addTx fr ops cfg view args tvc p).2.2 = p.markDoubleSpend args.tx.vin.toList ∨
      ∃ fee used seen, Accepts view args tvc p fee ∧ ∀ stored,
        p.store fr ops cfg args.tx (getTransactionHash ops cfg args.tx)
            (getTransactionHash ops cfg args.tx) (args.info fee view.now used seen) =
          (true, stored) →
        (addTx fr ops cfg view args tvc p).2.2 =
          prune cfg stored.txpoolMaxWeight (stored.addWeight args.txWeight) := by
  rcases addTx_cases fr ops cfg view args tvc p with ⟨fee, haccepts⟩ | ⟨-, hsame | hmarked⟩
  · obtain ⟨used, seen, hresult⟩ := addTx_pool_of_accepts h haccepts fr
    exact .inr (.inr ⟨fee, used, seen, haccepts, hresult⟩)
  · exact .inl hsame
  · exact .inr (.inl hmarked)

/-- What `add_tx` prunes would be weighed right: the new weight is within the
limit, or the receive time of every entry that can be removed is its weight. -/
def AddsExactly (fr : FeeRate ρ) (view : ChainView) (args : AddTxArgs) (p : Pool ρ)
    (fee : UInt64) : Prop :=
  p.txpoolWeight + args.txWeight ≤ p.txpoolMaxWeight ∨
    ∀ s ∈ (emplace fr ⟨fr.rate fee args.txWeight, view.now, args.id⟩ p.sorted).tail,
      (s.id = args.id → args.keptByBlock = false → s.receiveTime = args.txWeight) ∧
        ∀ row ∈ p.txpool.rows, row.txid = s.id → row.info.keptByBlock = false →
          s.receiveTime = row.info.weight

theorem Consistent.addTx (hp : Consistent ops cfg p) (h : args.Given ops cfg p) (fr : FeeRate ρ)
    (view : ChainView) (tvc : TxVerificationContext) :
    Consistent ops cfg (addTx fr ops cfg view args tvc p).2.2 ∧
      (Weighed p → (∀ fee, Accepts view args tvc p fee → AddsExactly fr view args p fee) →
        Weighed (TxPool.addTx fr ops cfg view args tvc p).2.2) := by
  rcases addTx_pool h fr view tvc with heq | heq | ⟨fee, used, seen, haccepts, hresult⟩
  · rw [heq]
    exact ⟨hp, fun hw _ => hw⟩
  · rw [heq]
    obtain ⟨hc, hw⟩ := hp.markDoubleSpend args.tx.vin.toList
    exact ⟨hc, fun hweighed _ => hw hweighed⟩
  · obtain ⟨blob, hblob⟩ := h.parsed
    have hfresh := h.fresh
    rw [h.id_eq] at hfresh
    have htx : Holds ops cfg (newRow ops cfg args.tx (args.info fee view.now used seen)) args.tx :=
      ⟨parse_txToBlob hblob, h.inputs, h.weighed⟩
    obtain ⟨stored, hstored, hcons, hrows, hsorted, hweight, hmax⟩ := hp.store htx hfresh
      (fun hkept => haveTxKeyimgesAsSpent_eq_false (haccepts.relayed hkept).2.2.2.1) fr
    have hadded : Consistent ops cfg (stored.addWeight args.txWeight) := by
      obtain ⟨⟨hheld, himages, hdisjoint⟩, hids⟩ := hcons
      exact ⟨⟨hheld, himages, hdisjoint⟩, hids⟩
    obtain ⟨hc, hw⟩ := hadded.prune stored.txpoolMaxWeight
    rw [hresult stored hstored]
    refine ⟨hc, fun hweighed hexact => hw ?_ ?_⟩
    · show stored.txpoolWeight + args.txWeight = totalWeight stored.txpool.rows
      rw [hweight, hrows, hweighed]
      simp only [totalWeight, List.map_append, List.sum_append, List.map_singleton,
        List.sum_singleton]
      rfl
    · rcases hexact fee haccepts with hle | hentries
      · refine .inl ?_
        show stored.txpoolWeight + args.txWeight ≤ pruneLimit stored.txpoolMaxWeight stored
        rw [pruneLimit, hweight, hmax, ite_self]
        exact hle
      · refine .inr ?_
        show PrunesExactly stored stored.sorted.tail
        rw [hsorted]
        intro s hs row hrow hid hkept
        have hentry : newEntry fr (getTransactionHash ops cfg args.tx)
            (args.info fee view.now used seen) =
              ⟨fr.rate fee args.txWeight, view.now, args.id⟩ := by
          rw [h.id_eq]
          rfl
        rw [hentry] at hs
        rw [hrows] at hrow
        obtain ⟨hnew, hold⟩ := hentries s hs
        rcases List.mem_append.mp hrow with hrow | hrow
        · exact hold row hrow hid hkept
        · obtain rfl := List.mem_singleton.mp hrow
          exact hnew (hid.symm.trans h.id_eq.symm) hkept

/-! ### The stored rows -/

/-- The rows agree in all but the marks that the pool sets later. -/
structure SameTx (row old : PoolRow) : Prop where
  txid : row.txid = old.txid
  blob : row.blob = old.blob
  weight : row.info.weight = old.info.weight
  fee : row.info.fee = old.info.fee

theorem pruneLoop_rows {bytes : UInt64} {entries : List (SortedEntry ρ)} {row : PoolRow}
    (h : row ∈ (pruneLoop cfg bytes entries p).txpool.rows) : row ∈ p.txpool.rows := by
  induction entries generalizing p with
  | nil => exact h
  | cons s rest ih =>
      rw [pruneLoop] at h
      split at h
      · exact h
      · split at h
        · exact h
        · split at h
          · exact ih h
          · split at h
            · exact h
            · exact (Txpool.mem_remove.mp (ih h)).1

omit [DecidableEq ρ] in
theorem markDoubleSpend_rows {vin : List Txin} {row : PoolRow}
    (h : row ∈ (p.markDoubleSpend vin).txpool.rows) : ∃ old ∈ p.txpool.rows, SameTx row old := by
  obtain ⟨old, hold, rfl⟩ := List.mem_map.mp h
  refine ⟨old, hold, ?_⟩
  split <;> exact ⟨rfl, rfl, rfl, rfl⟩

theorem put_subset {t : Txpool} {new row : PoolRow} (h : row ∈ (t.put new).rows) :
    row ∈ t.rows ∨ row = new := by
  rcases List.mem_append.mp h with hold | hnew
  · exact .inl (Txpool.mem_remove.mp hold).1
  · exact .inr (List.mem_singleton.mp hnew)

theorem finishAdd_rows {tvc : TxVerificationContext} {stored : Bool × Pool ρ} {row : PoolRow}
    (h : row ∈ (finishAdd cfg args tvc stored).2.2.txpool.rows) : row ∈ stored.2.txpool.rows := by
  rw [finishAdd] at h
  split at h
  · exact pruneLoop_rows (p := stored.2.addWeight args.txWeight) h
  · exact h

omit [DecidableEq ρ] in
theorem store_txpool (fr : FeeRate ρ) (ops : CryptoOps) (cfg : Config) (tx : Transaction)
    (imagesId id : Hash) (info : TxpoolMeta) (p : Pool ρ) :
    (p.store fr ops cfg tx imagesId id info).2.txpool = p.txpool.put (newRow ops cfg tx info) := by
  rw [Pool.store]
  split <;> rfl

theorem addTx_rows {fr : FeeRate ρ} {view : ChainView} {tvc : TxVerificationContext}
    {row : PoolRow} (h : row ∈ (addTx fr ops cfg view args tvc p).2.2.txpool.rows) :
    (∃ old ∈ p.txpool.rows, SameTx row old) ∨
      ∃ fee used seen, transactionFee args.tx tvc = .ok fee ∧
        row = newRow ops cfg args.tx (args.info fee view.now used seen) := by
  have hsame : ∀ {row}, row ∈ p.txpool.rows → ∃ old ∈ p.txpool.rows, SameTx row old :=
    fun {row} hrow => ⟨row, hrow, rfl, rfl, rfl, rfl⟩
  rcases addTx_cases fr ops cfg view args tvc p with ⟨fee, haccepts⟩ | ⟨-, heq | heq⟩
  · rw [addTx_of_accepts haccepts] at h
    split at h
    · rw [addFailedInputs] at h
      split at h
      · have hrow := finishAdd_rows h
        rw [store_txpool] at hrow
        rcases put_subset hrow with hold | hnew
        · exact .inl (hsame hold)
        · exact .inr ⟨fee, _, _, haccepts.fee_eq, hnew⟩
      · exact .inl (hsame h)
    · rw [addCheckedInputs] at h
      have hrow := finishAdd_rows h
      rw [store_txpool] at hrow
      rcases put_subset hrow with hold | hnew
      · exact .inl (hsame (Txpool.mem_remove.mp hold).1)
      · exact .inr ⟨fee, _, _, haccepts.fee_eq, hnew⟩
  · rw [heq] at h
    exact .inl (hsame h)
  · rw [heq] at h
    exact .inl (markDoubleSpend_rows h)

theorem addTx_fst_of_accepts {view : ChainView} {tvc : TxVerificationContext} {fee : UInt64}
    (h : Accepts view args tvc p fee) (hid : args.id = getTransactionHash ops cfg args.tx)
    (fr : FeeRate ρ) :
    (addTx fr ops cfg view args tvc p).1 =
      (insertKeyImages args.id args.keptByBlock args.tx.vin.toList p.spentKeyImages).1 := by
  have hstore : ∀ (q : Pool ρ) info tvc', q.spentKeyImages = p.spentKeyImages →
      info.keptByBlock = args.keptByBlock →
      (finishAdd cfg args tvc' (q.store fr ops cfg args.tx args.id args.id info)).1 =
        (insertKeyImages args.id args.keptByBlock args.tx.vin.toList p.spentKeyImages).1 := by
    intro q info tvc' himages hkept
    rw [Pool.store, himages, hkept]
    cases hok : (insertKeyImages args.id args.keptByBlock args.tx.vin.toList p.spentKeyImages).1 <;>
      simp [finishAdd]
  rw [addTx_of_accepts h]
  split
  · rename_i hinputs
    have hkept : args.keptByBlock = true := by
      by_contra hfalse
      rw [Bool.not_eq_true] at hfalse
      have hsome := (h.relayed hfalse).2.2.2.2
      rw [← hfalse, hinputs] at hsome
      exact absurd hsome (by simp)
    rw [addFailedInputs, if_pos hkept]
    exact hstore p _ _ rfl rfl
  · rw [addCheckedInputs, ← hid]
    exact hstore _ _ _ rfl rfl

theorem addTx_tvc {fr : FeeRate ρ} {view : ChainView} {tvc : TxVerificationContext}
    (h : (addTx fr ops cfg view args tvc p).1 = true) :
    (addTx fr ops cfg view args tvc p).2.1.verifivationFailed = false := by
  have hfinish : ∀ tvc' (stored : Bool × Pool ρ), (finishAdd cfg args tvc' stored).1 = true →
      (finishAdd cfg args tvc' stored).2.1.verifivationFailed = false := by
    intro tvc' stored hok
    rw [finishAdd] at hok ⊢
    split at hok
    · rename_i hstored
      rw [if_pos hstored]
    · exact absurd hok (by simp)
  rcases addTx_cases fr ops cfg view args tvc p with ⟨fee, haccepts⟩ | ⟨hfalse, -⟩
  · rw [addTx_of_accepts haccepts] at h ⊢
    split at h
    · rename_i hinputs
      rw [addFailedInputs] at h ⊢
      split at h
      · rename_i hkept
        rw [if_pos hkept]
        exact hfinish _ _ h
      · exact absurd h (by simp)
    · exact hfinish _ _ h
  · exact absurd (hfalse.symm.trans h) (by simp)

/-- A transaction kept by a block that one pool takes is taken by every consistent pool
that does not have it. -/
theorem addTx_of_kept {p₀ : Pool ρ} {fr : FeeRate ρ} {view : ChainView}
    {tvc : TxVerificationContext} (hkept : args.keptByBlock = true)
    (hid : args.id = getTransactionHash ops cfg args.tx)
    (h : (addTx fr ops cfg view args tvc p₀).1 = true) (hp : Consistent ops cfg p)
    (hfresh : args.id ∉ p.txpool.rows.map PoolRow.txid) :
    (addTx fr ops cfg view args tvc p).1 = true := by
  rcases addTx_cases fr ops cfg view args tvc p₀ with ⟨fee, haccepts⟩ | ⟨hfalse, -⟩
  · rw [addTx_fst_of_accepts haccepts hid] at h
    have haccepts' : Accepts view args tvc p fee :=
      ⟨haccepts.version, haccepts.supported, haccepts.fee_eq, haccepts.outputs,
        fun hnot => absurd (hkept.symm.trans hnot) (by simp)⟩
    rw [addTx_fst_of_accepts haccepts' hid]
    refine (insertKeyImages_spec args.id args.keptByBlock hp.images
      (toKeyInputs_of_insertKeyImages h).1 ?_ ?_).1
    · rintro ki - ⟨row, hrow, heq, -⟩
      exact hfresh (heq ▸ List.mem_map_of_mem hrow)
    · intro hnot
      exact absurd (hkept.symm.trans hnot) (by simp)
  · exact absurd (hfalse.symm.trans h) (by simp)

end

end XrCoin.TxPool

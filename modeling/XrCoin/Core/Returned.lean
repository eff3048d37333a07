import XrCoin.Core.BlockWeight

/-!
Transactions that a popped block gives back to the pool. One that `add_tx` takes stays
there, with its weight and its fee, until it is taken: the others that go back, and those
that are taken, do not touch it, and the pruning spares it.
-/

namespace XrCoin.Core

open Archive Cryptonote TxPool

section

variable {ρ : Type} (ops : CryptoOps) (cfg : Config)

def returnedWeight (tx : Transaction) : UInt64 :=
  ((getTransactionWeight tx (txToBlob cfg tx).length).getD 0).toUInt64

def returnedFee (tx : Transaction) : UInt64 :=
  match transactionFee tx default with
  | .ok fee => fee
  | .error _ => 0

structure Held (p : Pool ρ) (tx : Transaction) : Prop where
  sorted : (p.sorted.any fun e => e.id = getTransactionHash ops cfg tx) = true
  row : ∃ row, p.txpool.find (getTransactionHash ops cfg tx) = some row ∧
    row.blob = txToBlob cfg tx ∧ row.info.keptByBlock = true ∧
    row.info.weight = returnedWeight cfg tx ∧ row.info.fee = returnedFee tx

def Parsed (tx : Transaction) : Prop := ∃ blob, parseAndValidateTxFromBlob ops cfg blob = some tx

def Named (p : Pool ρ) : Prop :=
  ∀ row ∈ p.txpool.rows, ∀ tx, parseAndValidateTxFromBlob ops cfg row.blob = some tx →
    getTransactionHash ops cfg tx = row.txid

variable {ops cfg} {p : Pool ρ} {tx : Transaction}

/-! ### Taking -/

theorem Held.takeTx (h : Held ops cfg p tx) (hparsed : Parsed ops cfg tx) :
    ∃ taken, (takeTx ops cfg (getTransactionHash ops cfg tx) p).1 = some taken ∧ taken.tx = tx ∧
      taken.txWeight = returnedWeight cfg tx ∧ taken.fee = returnedFee tx := by
  obtain ⟨row, hfind, hblob, -, hweight, hfee⟩ := h.row
  obtain ⟨blob, hparse⟩ := hparsed
  rw [TxPool.takeTx, if_pos h.sorted, hfind]
  simp only
  rw [hblob, parse_txToBlob hparse]
  exact ⟨_, rfl, rfl, hweight, hfee⟩

theorem Held.takeTx_of_ne (h : Held ops cfg p tx) {id : Hash}
    (hne : getTransactionHash ops cfg tx ≠ id) :
    Held ops cfg (TxPool.takeTx ops cfg id p).2 tx := by
  rcases takeTx_cases ops cfg id p with heq | ⟨htxpool, hsorted⟩
  · rw [heq]
    exact h
  · refine ⟨?_, ?_⟩
    · rw [hsorted, any_eraseId_of_ne hne]
      exact h.sorted
    · rw [htxpool, find_remove_of_ne hne]
      exact h.row

theorem Named.takeTx (h : Named ops cfg p) (id : Hash) :
    Named ops cfg (TxPool.takeTx ops cfg id p).2 := by
  rcases takeTx_cases ops cfg id p with heq | ⟨htxpool, -⟩
  · rw [heq]
    exact h
  · intro row hrow
    rw [htxpool, Txpool.mem_remove] at hrow
    exact h row hrow.1

theorem takeTx_of_none {id : Hash} (h : (takeTx ops cfg id p).1 = none) :
    (takeTx ops cfg id p).2 = p := by
  rw [takeTx] at h ⊢
  split
  · rename_i hsorted
    rw [if_pos hsorted] at h
    cases hfind : p.txpool.find id with
    | none => rfl
    | some row =>
        rw [hfind] at h
        cases hparse : parseAndValidateTxFromBlob ops cfg row.blob with
        | none => simp only [hparse]
        | some tx =>
            simp only [hparse] at h
            exact absurd h (by simp)
  · rfl

theorem Named.taken (h : Named ops cfg p) {id : Hash} {taken : TakenTx}
    (htaken : (TxPool.takeTx ops cfg id p).1 = some taken) :
    getTransactionHash ops cfg taken.tx = id ∧ Parsed ops cfg taken.tx := by
  obtain ⟨row, hrow, hid, hparse, -, -⟩ := takeTx_eq_some htaken
  exact ⟨(h row hrow _ hparse).trans hid, _, hparse⟩

/-! ### Pruning -/

variable [DecidableEq ρ] {id : Hash}

/-- An entry of a transaction that a block keeps is not removed. -/
theorem pruneLoop_kept {bytes : UInt64} {entries : List (SortedEntry ρ)} {row : PoolRow}
    (hfind : p.txpool.find id = some row) (hkept : row.info.keptByBlock = true)
    (hsorted : (p.sorted.any fun e => e.id = id) = true) :
    (pruneLoop cfg bytes entries p).txpool.find id = some row ∧
      ((pruneLoop cfg bytes entries p).sorted.any fun e => e.id = id) = true := by
  induction entries generalizing p with
  | nil => exact ⟨hfind, hsorted⟩
  | cons s rest ih =>
      rw [pruneLoop]
      split
      · exact ⟨hfind, hsorted⟩
      · split
        · exact ⟨hfind, hsorted⟩
        · rename_i row' hfind'
          split
          · exact ih hfind hsorted
          · rename_i hnot
            split
            · exact ⟨hfind, hsorted⟩
            · -- the entry is that of another transaction
              have hne : id ≠ s.id := by
                rintro rfl
                rw [hfind] at hfind'
                obtain rfl := Option.some.inj hfind'
                exact hnot hkept
              apply ih
              · show (p.txpool.remove s.id).find id = some row
                rw [find_remove_of_ne hne, hfind]
              · show ((p.sorted.erase s).any fun e => e.id = id) = true
                rw [List.any_eq_true] at hsorted ⊢
                obtain ⟨e, he, heq⟩ := hsorted
                have hes : e ≠ s := by
                  rintro rfl
                  exact hne (of_decide_eq_true heq).symm
                exact ⟨e, (List.mem_erase_of_ne hes).mpr he, heq⟩

/-! ### Giving back -/

omit [DecidableEq ρ] in
theorem any_emplace (fr : FeeRate ρ) (e : SortedEntry ρ) (sorted : List (SortedEntry ρ))
    (id : Hash) :
    ((emplace fr e sorted).any fun x => x.id = id) =
      (decide (e.id = id) || sorted.any fun x => x.id = id) := by
  induction sorted with
  | nil => rfl
  | cons x xs ih =>
      rw [emplace]
      split
      · rfl
      · split
        · rw [List.any_cons, ih, List.any_cons]
          cases decide (x.id = id) <;> simp
        · -- the entry that is there has the same id
          rename_i hex hxe
          rw [Bool.not_eq_true] at hex hxe
          rw [id_eq_of_txCompare fr hex hxe, List.any_cons, ← Bool.or_assoc, Bool.or_self]

theorem find_put_self {t : Txpool} {row : PoolRow} : (t.put row).find row.txid = some row := by
  apply Txpool.find_of_mem
  exact List.mem_append_right _ (List.mem_singleton_self row)

theorem find_put_of_ne {t : Txpool} {row : PoolRow} (hne : id ≠ row.txid) :
    (t.put row).find id = t.find id := by
  have hrow : List.find? (fun r : PoolRow => r.txid = id) [row] = none := by
    rw [List.find?_singleton, if_neg (by simpa using hne.symm)]
  have hfind : (t.put row).find id = ((t.remove row.txid).rows ++ [row]).find? fun r => r.txid = id :=
    rfl
  rw [hfind, List.find?_append, hrow, Option.or_none]
  exact find_remove_of_ne hne

theorem addTx_kept {args : AddTxArgs} (hkept : args.keptByBlock = true)
    (hid : args.id = getTransactionHash ops cfg args.tx) (fr : FeeRate ρ) (view : ChainView)
    (tvc : TxVerificationContext) (p : Pool ρ) :
    ((addTx fr ops cfg view args tvc p).1 = false ∧ (addTx fr ops cfg view args tvc p).2.2 = p) ∨
      ∃ (q : Pool ρ) (fee : UInt64) (used : Option (UInt64 × Hash)) (seen : Bool)
        (tvc' : TxVerificationContext), q.sorted = p.sorted ∧
        (∀ id ≠ args.id, q.txpool.find id = p.txpool.find id) ∧
        transactionFee args.tx tvc = .ok fee ∧
        addTx fr ops cfg view args tvc p = finishAdd cfg args tvc'
          (q.store fr ops cfg args.tx args.id args.id (args.info fee view.now used seen)) := by
  by_cases haccepted : ∃ fee, Accepts view args tvc p fee
  · right
    obtain ⟨fee, haccepts⟩ := haccepted
    have heq := addTx_of_accepts haccepts fr ops cfg
    cases hinputs : view.checkTxInputs args.tx args.keptByBlock with
    | none =>
        rw [hinputs] at heq
        simp only [addFailedInputs, if_pos hkept] at heq
        exact ⟨p, fee, none, _, _, rfl, fun _ _ => rfl, haccepts.fee_eq, heq⟩
    | some used =>
        rw [hinputs] at heq
        simp only [addCheckedInputs, ← hid] at heq
        exact ⟨⟨p.txpool.remove args.id, p.spentKeyImages, p.sorted, p.timedOutTransactions,
            p.txpoolWeight, p.txpoolMaxWeight⟩, fee, some used, false, _, rfl,
          fun id hne => find_remove_of_ne hne, haccepts.fee_eq, heq⟩
  · left
    have hnot : ∀ c : Prop, ¬(args.keptByBlock = false ∧ c) := by simp [hkept]
    rw [addTx]
    simp only [if_neg (hnot _)]
    split
    · exact ⟨rfl, rfl⟩
    · rename_i hversion
      split
      · exact ⟨rfl, rfl⟩
      · rename_i hsupported
        split
        · exact ⟨rfl, rfl⟩
        · rename_i fee hfee
          split
          · exact ⟨rfl, rfl⟩
          · rename_i houtputs
            exact absurd ⟨fee, hversion, by simpa using hsupported, hfee, by simpa using houtputs,
              fun hfalse => absurd (hkept.symm.trans hfalse) (by simp)⟩ haccepted

/-- What is found after the storing is still found after the pruning, when a block keeps
it and it is in the sorted container or comes into it. -/
theorem finishAdd_store {args : AddTxArgs} (fr : FeeRate ρ) (tvc : TxVerificationContext)
    (q : Pool ρ) (info : TxpoolMeta) {row : PoolRow}
    (hfind : (q.txpool.put (newRow ops cfg args.tx info)).find id = some row)
    (hkept : row.info.keptByBlock = true) {r : Bool × TxVerificationContext × Pool ρ}
    (hr : finishAdd cfg args tvc (q.store fr ops cfg args.tx args.id args.id info) = r)
    (hsorted : r.1 = true ∧ args.id = id ∨ (q.sorted.any fun e => e.id = id) = true) :
    r.2.2.txpool.find id = some row ∧ (r.2.2.sorted.any fun e => e.id = id) = true := by
  rw [Pool.store] at hr
  split at hr
  · rw [← hr] at hsorted ⊢
    apply pruneLoop_kept hfind hkept
    show ((emplace fr _ q.sorted).any fun e => e.id = id) = true
    rw [any_emplace, Bool.or_eq_true, decide_eq_true_eq]
    exact hsorted.imp_left And.right
  · rw [← hr] at hsorted ⊢
    refine ⟨hfind, hsorted.resolve_left ?_⟩
    simp [finishAdd]

theorem Held.addTx_of_ne {args : AddTxArgs} (h : Held ops cfg p tx)
    (hkept : args.keptByBlock = true) (hid : args.id = getTransactionHash ops cfg args.tx)
    (hne : getTransactionHash ops cfg tx ≠ args.id) (fr : FeeRate ρ) (view : ChainView)
    (tvc : TxVerificationContext) :
    Held ops cfg (addTx fr ops cfg view args tvc p).2.2 tx := by
  rcases addTx_kept hkept hid fr view tvc p with ⟨-, heq⟩ | ⟨q, fee, used, seen, tvc', hsorted,
    hothers, -, heq⟩
  · rw [heq]
    exact h
  · obtain ⟨row, hfind, hrow⟩ := h.row
    have hfindq : (q.txpool.put (newRow ops cfg args.tx (args.info fee view.now used seen))).find
        (getTransactionHash ops cfg tx) = some row := by
      rw [find_put_of_ne (by rw [hid] at hne; exact hne), hothers _ hne, hfind]
    have hsortedq : (q.sorted.any fun e => e.id = getTransactionHash ops cfg tx) = true := by
      rw [hsorted]
      exact h.sorted
    obtain ⟨hfind', hsorted'⟩ := finishAdd_store fr tvc' q _ hfindq hrow.2.1 heq.symm
      (.inr hsortedq)
    exact ⟨hsorted', row, hfind', hrow⟩

theorem held_addTx {args : AddTxArgs} (hkept : args.keptByBlock = true)
    (hid : args.id = getTransactionHash ops cfg args.tx)
    (hweight : args.txWeight = returnedWeight cfg args.tx) (fr : FeeRate ρ) (view : ChainView)
    (hadded : (addTx fr ops cfg view args default p).1 = true) :
    Held ops cfg (addTx fr ops cfg view args default p).2.2 args.tx := by
  rcases addTx_kept hkept hid fr view default p with ⟨hfalse, -⟩ | ⟨q, fee, used, seen, tvc', -, -,
    hfee, heq⟩
  · exact absurd (hfalse.symm.trans hadded) (by simp)
  · have hrow : (newRow ops cfg args.tx (args.info fee view.now used seen)).txid = args.id := hid.symm
    have hfind : (q.txpool.put (newRow ops cfg args.tx (args.info fee view.now used seen))).find
        args.id = some (newRow ops cfg args.tx (args.info fee view.now used seen)) := by
      rw [← hrow]
      exact find_put_self
    obtain ⟨hfind', hsorted'⟩ := finishAdd_store fr tvc' q _ hfind hkept heq.symm
      (.inl ⟨hadded, rfl⟩)
    refine ⟨by rwa [← hid], _, by rwa [← hid], rfl, hkept, hweight, ?_⟩
    show fee = returnedFee args.tx
    rw [returnedFee, hfee]

theorem Named.addTx {args : AddTxArgs} (h : Named ops cfg p) (hparsed : Parsed ops cfg args.tx)
    (fr : FeeRate ρ) (view : ChainView) (tvc : TxVerificationContext) :
    Named ops cfg (addTx fr ops cfg view args tvc p).2.2 := by
  intro row hrow tx' hparse
  rcases addTx_rows hrow with ⟨old, hold, hsame⟩ | ⟨fee, used, seen, -, rfl⟩
  · rw [hsame.blob] at hparse
    rw [hsame.txid]
    exact h old hold tx' hparse
  · obtain ⟨blob, hblob⟩ := hparsed
    have hback : parseAndValidateTxFromBlob ops cfg (txToBlob cfg args.tx) = some args.tx :=
      parse_txToBlob hblob
    obtain rfl := Option.some.inj (hback.symm.trans hparse)
    rfl

end

end XrCoin.Core

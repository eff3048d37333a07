import XrCoin.Core.Intake
import XrCoin.TxPool.Runs

/-!
A node that relays transactions, and then gets one of them with a block.

What it has marked as bad is kept by hash alone, while the verdict also depends
on the weight limit and on whether a block has the transaction. So a relay that
fails can make the node refuse what a fresh node takes; relays that pass cannot.
-/

namespace XrCoin.Core

open Archive Cryptonote TxPool

section

variable {ρ : Type} [DecidableEq ρ] {conf : CoreConfig} {crypto : CoreCrypto} {ops : CryptoOps}
  {cfg : Config} {view : CoreView} {fr : FeeRate ρ} {flags : TxFlags}

/-! ### One blob -/

theorem batch_singleton_of_none {keepedByBlock : Bool} {e : Incoming} {bad : BadSemanticsTxes}
    (h : e.pending = none) :
    handleIncomingTxAccumulatedBatch conf crypto cfg view keepedByBlock [e] bad =
      (true, bad, [e]) := by
  have hdelayed : delayed [e] = [] := by
    rw [delayed, List.filterMap_cons_none (by simp only [h]), List.filterMap_nil]
  have hcheck : checkEach conf crypto cfg view keepedByBlock [e] bad = (true, bad, [e]) := by
    simp only [checkEach, h]
  rw [handleIncomingTxAccumulatedBatch]
  split
  · rfl
  · simp only [hcheck, hdelayed, List.all_nil, Bool.true_eq_false, and_false, if_false]

theorem delayed_singleton {e : Incoming} {tx : Transaction} {hash : Hash}
    (h : e.pending = some (tx, hash)) :
    delayed [e] = if 2 ≤ tx.version ∧ tx.rctSignatures.type = rctTypeBulletproof then
      [tx.rctSignatures] else [] := by
  by_cases hcond : 2 ≤ tx.version ∧ tx.rctSignatures.type = rctTypeBulletproof
  · rw [delayed, List.filterMap_cons_some (b := tx.rctSignatures) (by simp only [h, if_pos hcond]),
      List.filterMap_nil, if_pos hcond]
  · rw [delayed, List.filterMap_cons_none (by simp only [h, if_neg hcond]), List.filterMap_nil,
      if_neg hcond]

theorem batch_singleton_of_passes {keepedByBlock : Bool} {e : Incoming} {bad : BadSemanticsTxes}
    {tx : Transaction} {hash : Hash} (h : e.pending = some (tx, hash))
    (hpass : keepedByBlock = true ∧ view.isWithinCompiledBlockHashArea = true ∨
      PassesSemantics conf crypto cfg view keepedByBlock tx) :
    handleIncomingTxAccumulatedBatch conf crypto cfg view keepedByBlock [e] bad =
      (true, bad, [e]) := by
  rw [handleIncomingTxAccumulatedBatch]
  split
  · rfl
  · rename_i harea
    obtain ⟨hsemantic, hrct, hver⟩ := hpass.resolve_left harea
    have hcheck : checkEach conf crypto cfg view keepedByBlock [e] bad = (true, bad, [e]) := by
      simp only [checkEach, h, hsemantic, hrct, Bool.and_self, if_true]
    have hall : (delayed [e]).all crypto.verRctSemanticsSimple = true := by
      rw [delayed_singleton h]
      split
      · rename_i hcond
        rw [List.all_cons, hver hcond, List.all_nil, Bool.and_true]
      · rfl
    simp only [hcheck, hall, Bool.true_eq_false, and_false, if_false]

theorem batch_singleton_of_fails {keepedByBlock : Bool} {e : Incoming} {tx : Transaction}
    {hash : Hash} (h : e.pending = some (tx, hash))
    (hfail : ¬(keepedByBlock = true ∧ view.isWithinCompiledBlockHashArea = true ∨
      PassesSemantics conf crypto cfg view keepedByBlock tx)) (bad : BadSemanticsTxes) :
    (handleIncomingTxAccumulatedBatch conf crypto cfg view keepedByBlock [e] bad).1 = false ∨
      ∃ bad', handleIncomingTxAccumulatedBatch conf crypto cfg view keepedByBlock [e] bad =
        (true, bad', [e.fail]) := by
  obtain ⟨harea, hnot⟩ := not_or.mp hfail
  rw [handleIncomingTxAccumulatedBatch, if_neg harea]
  cases hsemantic : checkTxSemantic conf crypto cfg view tx keepedByBlock with
  | none =>
      have hcheck : checkEach conf crypto cfg view keepedByBlock [e] bad = (false, bad, [e]) := by
        simp only [checkEach, h, hsemantic]
      simp only [hcheck, Bool.false_eq_true, false_and, if_false]
      exact .inl trivial
  | some semantic =>
      by_cases hpass : (semantic && checkRctSemantic conf crypto tx) = true
      · -- only the delayed verification is left to fail
        have hcheck : checkEach conf crypto cfg view keepedByBlock [e] bad = (true, bad, [e]) := by
          simp only [checkEach, h, hsemantic, hpass, if_true]
        rw [Bool.and_eq_true] at hpass
        have hcond : (2 ≤ tx.version ∧ tx.rctSignatures.type = rctTypeBulletproof) ∧
            crypto.verRctSemanticsSimple tx.rctSignatures = false := by
          by_contra hcond
          refine hnot ⟨by rw [hsemantic, hpass.1], hpass.2, fun hbp => ?_⟩
          by_contra hver
          exact hcond ⟨hbp, by simpa using hver⟩
        have hdelayed : delayed [e] = [tx.rctSignatures] := by
          rw [delayed_singleton h, if_pos hcond.1]
        refine .inr ⟨setSemanticsFailed hash bad, ?_⟩
        simp only [hcheck, hdelayed, List.all_cons, hcond.2, Bool.false_and, and_self, if_true,
          verifyEach, h, hcond.1.2, List.length_singleton, decide_true, true_or]
      · have hcheck : checkEach conf crypto cfg view keepedByBlock [e] bad =
            (true, setSemanticsFailed hash bad, [e.fail]) := by
          rw [Bool.not_eq_true] at hpass
          simp only [checkEach, h, hsemantic, hpass, Bool.false_eq_true, if_false]
        have hdelayed : delayed [e.fail] = [] := by
          rw [delayed, List.filterMap_cons_none (by simp only [pending_fail]), List.filterMap_nil]
        refine .inr ⟨setSemanticsFailed hash bad, ?_⟩
        simp only [hcheck, hdelayed, List.all_nil, Bool.true_eq_false, and_false, if_false]

/-- The call takes all that it was given: it returns `true`, and no transaction has
failed. -/
def Admits (result : Bool × List TxVerificationContext × CoreState ρ) : Prop :=
  result.1 = true ∧ ∀ tvc ∈ result.2.1, tvc.verifivationFailed = false

instance (result : Bool × List TxVerificationContext × CoreState ρ) : Decidable (Admits result) :=
  inferInstanceAs (Decidable (_ ∧ _))

def PoolAdmits (ops : CryptoOps) (cfg : Config) (view : CoreView) (fr : FeeRate ρ)
    (flags : TxFlags) (tx : Transaction) (weight : ℕ) (p : Pool ρ) : Prop :=
  (addTx fr ops cfg view.toChainView ⟨tx, getTransactionHash ops cfg tx, weight.toUInt64,
    flags.keepedByBlock, flags.relayed, flags.doNotRelay, view.currentHardForkVersion⟩ default
    p).1 = true

omit [DecidableEq ρ] in
theorem handleIncomingTxPre_tvc {c : CoreState ρ} {blob : List UInt8} {tx : Transaction}
    {hash : Hash} (h : (handleIncomingTxPre conf ops cfg view c blob).2 = some (tx, hash)) :
    (handleIncomingTxPre conf ops cfg view c blob).1 = default := by
  rw [handleIncomingTxPre] at h ⊢
  split at h
  · exact absurd h (by simp)
  rename_i hsize
  rw [if_neg hsize]
  split at h
  · exact absurd h (by simp)
  simp only at h ⊢
  split at h
  · exact absurd h (by simp)
  rename_i hpass
  rw [if_neg hpass]

theorem handleIncomingTxs_singleton {c : CoreState ρ} {blob : List UInt8} {e : Incoming}
    {bad : BadSemanticsTxes}
    (h : handleIncomingTxAccumulatedBatch conf crypto cfg view flags.keepedByBlock
      [incoming conf ops cfg view c blob] c.badSemanticsTxes = (true, bad, [e])) :
    handleIncomingTxs conf crypto ops cfg view fr flags [blob] c =
      addEach ops cfg view fr flags [e] ⟨c.mempool, bad, c.blocksTxsCheck⟩ := by
  simp only [handleIncomingTxs, List.map_cons, List.map_nil, h, if_true]

theorem addEach_singleton_of_parsed {c : CoreState ρ} {blob : List UInt8}
    {tvc : TxVerificationContext} {tx : Transaction} {hash : Hash} {weight : ℕ}
    (hweight : getTransactionWeight tx blob.length = some weight)
    (hhave : (haveTxInPool c.mempool hash || view.haveTx hash) = false) :
    Admits (addEach ops cfg view fr flags [⟨blob, tvc, some (tx, hash), false⟩] c) ↔
      (addTx fr ops cfg view.toChainView ⟨tx, hash, weight.toUInt64, flags.keepedByBlock,
        flags.relayed, flags.doNotRelay, view.currentHardForkVersion⟩ tvc c.mempool).1 = true := by
  simp only [Admits, addEach, hweight, addNewTx, hhave, Bool.false_eq_true, if_false,
    Bool.and_true, List.mem_singleton, forall_eq]
  exact ⟨fun hadmits => hadmits.1, fun hok => ⟨hok, addTx_tvc hok⟩⟩

/-- When one transaction is admitted: it is known already, or it passes the semantic
checks, has a weight and is taken by the pool. -/
theorem admits_singleton_iff {c : CoreState ρ} {blob : List UInt8} :
    Admits (handleIncomingTxs conf crypto ops cfg view fr flags [blob] c) ↔
      ∃ tx hash, (handleIncomingTxPre conf ops cfg view c blob).2 = some (tx, hash) ∧
        ((haveTxInPool c.mempool hash || view.haveTx hash) = true ∨
          (flags.keepedByBlock = true ∧ view.isWithinCompiledBlockHashArea = true ∨
            PassesSemantics conf crypto cfg view flags.keepedByBlock tx) ∧
          ∃ weight, getTransactionWeight tx blob.length = some weight ∧
            PoolAdmits ops cfg view fr flags tx weight c.mempool) := by
  cases hpre : (handleIncomingTxPre conf ops cfg view c blob).2 with
  | none =>
      have hentry : incoming conf ops cfg view c blob =
          ⟨blob, (handleIncomingTxPre conf ops cfg view c blob).1, none, false⟩ := by
        simp only [incoming, hpre]
      have hpending : (incoming conf ops cfg view c blob).pending = none := by
        rw [hentry]
        rfl
      rw [handleIncomingTxs_singleton (batch_singleton_of_none hpending), hentry]
      constructor
      · rintro ⟨hok, -⟩
        exact absurd hok (by simp [addEach])
      · rintro ⟨tx, hash, hfalse, -⟩
        exact absurd hfalse (by simp)
  | some parsed =>
      obtain ⟨tx, hash⟩ := parsed
      obtain ⟨-, hhash, -⟩ := handleIncomingTxPre_eq_some hpre
      have hentry : incoming conf ops cfg view c blob = ⟨blob, default, some (tx, hash),
          haveTxInPool c.mempool hash || view.haveTx hash⟩ := by
        simp only [incoming, hpre, handleIncomingTxPre_tvc hpre]
      have hunique : ∀ {Q : Transaction → Hash → Prop},
          (∃ tx' hash', some (tx, hash) = some (tx', hash') ∧ Q tx' hash') ↔ Q tx hash := by
        intro Q
        constructor
        · rintro ⟨tx', hash', heq, hQ⟩
          obtain ⟨rfl, rfl⟩ := Prod.mk.inj (Option.some.inj heq)
          exact hQ
        · intro hQ
          exact ⟨tx, hash, rfl, hQ⟩
      rw [hunique]
      cases hhave : haveTxInPool c.mempool hash || view.haveTx hash with
      | true =>
          have hpending : (incoming conf ops cfg view c blob).pending = none := by
            rw [hentry, hhave]
            rfl
          rw [handleIncomingTxs_singleton (batch_singleton_of_none hpending), hentry, hhave]
          refine iff_of_true ⟨rfl, fun tvc htvc => ?_⟩ (.inl rfl)
          rw [List.mem_singleton.mp htvc]
          rfl
      | false =>
          have hpending : (incoming conf ops cfg view c blob).pending = some (tx, hash) := by
            rw [hentry, hhave]
            rfl
          by_cases hpass : flags.keepedByBlock = true ∧
              view.isWithinCompiledBlockHashArea = true ∨
              PassesSemantics conf crypto cfg view flags.keepedByBlock tx
          · rw [handleIncomingTxs_singleton (batch_singleton_of_passes hpending hpass), hentry,
              hhave]
            cases hweight : getTransactionWeight tx blob.length with
            | none =>
                constructor
                · rintro ⟨hok, -⟩
                  exact absurd hok (by simp [addEach, hweight])
                · rintro (hfalse | ⟨-, weight, hfalse, -⟩)
                  · exact absurd hfalse (by simp)
                  · exact absurd hfalse (by simp)
            | some weight =>
                rw [addEach_singleton_of_parsed hweight hhave, hhash]
                constructor
                · intro hok
                  exact .inr ⟨hpass, weight, rfl, hok⟩
                · rintro (hfalse | ⟨-, weight', heq, hok⟩)
                  · exact absurd hfalse (by simp)
                  · obtain rfl := Option.some.inj heq
                    exact hok
          · constructor
            · rintro ⟨hok, -⟩
              rcases batch_singleton_of_fails hpending hpass c.badSemanticsTxes with
                hend | ⟨bad, hfail⟩
              · exact absurd hok (by simp [handleIncomingTxs, hend])
              · rw [handleIncomingTxs_singleton hfail, hentry, hhave] at hok
                exact absurd hok (by simp [addEach, Incoming.fail])
            · rintro (hfalse | ⟨hpass', -⟩)
              · exact absurd hfalse (by simp)
              · exact absurd hpass' hpass

/-! ### Runs of relays -/

omit [DecidableEq ρ] in
theorem of_checkTxSemantic {tx : Transaction}
    (h : checkTxSemantic conf crypto cfg view tx false = some true) :
    ToKeyInputs tx.vin.toList ∧
      (getTransactionWeight tx (txToBlob cfg tx).length).isSome = true := by
  rw [checkTxSemantic] at h
  iterate 6
    split at h
    · exact absurd h (by simp)
  simp only [Bool.false_eq_true, if_false] at h
  split at h
  · exact absurd h (by simp)
  · exact absurd h (by simp)
  · rename_i hsize
    obtain ⟨weight, hweight, -⟩ := Option.map_eq_some_iff.mp hsize
    have hdiff := Option.some.inj h
    rw [Bool.and_eq_true, Bool.and_eq_true, checkTxInputsKeyimagesDiff, Bool.and_eq_true,
      decide_eq_true_eq, checkInputsTypesSupported, List.all_eq_true] at hdiff
    exact ⟨hdiff.1.1, by rw [hweight, Option.isSome_some]⟩

/-- The nodes that relays make of a fresh one. Before each call, whose chain may be
another, `ok` holds. -/
inductive Relays (conf : CoreConfig) (crypto : CoreCrypto) (ops : CryptoOps) (cfg : Config)
    (fr : FeeRate ρ) (ok : CoreView → List (List UInt8) → CoreState ρ → Prop) :
    CoreState ρ → Prop
  | fresh (maxWeight : UInt64) : Relays conf crypto ops cfg fr ok (.fresh ρ maxWeight)
  | step {c : CoreState ρ} (view : CoreView) (relayed doNotRelay : Bool)
      (txBlobs : List (List UInt8)) (hrun : Relays conf crypto ops cfg fr ok c)
      (hok : ok view txBlobs c) :
      Relays conf crypto ops cfg fr ok
        (handleIncomingTxs conf crypto ops cfg view fr ⟨false, relayed, doNotRelay⟩ txBlobs c).2.2

/-- A transaction with this hash that comes to the semantic checks passes them. -/
def PassesWhenRelayed (conf : CoreConfig) (crypto : CoreCrypto) (ops : CryptoOps) (cfg : Config)
    (hash : Hash) (view : CoreView) (txBlobs : List (List UInt8)) (c : CoreState ρ) : Prop :=
  ∀ blob ∈ txBlobs, ∀ tx, (handleIncomingTxPre conf ops cfg view c blob).2 = some (tx, hash) →
    haveTxInPool c.mempool hash = false → view.haveTx hash = false →
      PassesSemantics conf crypto cfg view false tx

theorem addNewTx_badSemanticsTxes (tx : Transaction) (hash : Hash) (weight : UInt64)
    (tvc : TxVerificationContext) (c : CoreState ρ) :
    (addNewTx ops cfg view fr tx hash weight tvc flags c).2.2.badSemanticsTxes =
      c.badSemanticsTxes := by
  rw [addNewTx]
  split <;> rfl

theorem addNewTx_consistent {c : CoreState ρ} {blob : List UInt8} {tx : Transaction}
    {weight : UInt64} {tvc : TxVerificationContext} (hc : Consistent ops cfg c.mempool)
    (hparse : parseAndValidateTxFromBlob ops cfg blob = some tx)
    (hsemantic : checkTxSemantic conf crypto cfg view tx false = some true) :
    Consistent ops cfg (addNewTx ops cfg view fr tx (getTransactionHash ops cfg tx) weight tvc
      flags c).2.2.mempool := by
  rw [addNewTx]
  split
  · exact hc
  · rename_i hhave
    rw [Bool.or_eq_true, not_or, Bool.not_eq_true, haveTxInPool_eq_false] at hhave
    obtain ⟨hinputs, hweighed⟩ := of_checkTxSemantic hsemantic
    exact (hc.addTx ⟨⟨blob, hparse⟩, rfl, hweighed, hinputs, hhave.1⟩ fr view.toChainView tvc).1

theorem Relays.consistent_unmarked {c : CoreState ρ} {hash : Hash}
    (h : Relays conf crypto ops cfg fr (PassesWhenRelayed conf crypto ops cfg hash) c) :
    Consistent ops cfg c.mempool ∧ ¬Marked hash c.badSemanticsTxes := by
  induction h with
  | fresh maxWeight => exact ⟨consistent_empty maxWeight, by simp [Marked, CoreState.fresh]⟩
  | @step c view relayed doNotRelay txBlobs _ hok ih =>
      obtain ⟨hconsistent, hunmarked⟩ := ih
      have hparsed : ∀ e ∈ txBlobs.map (incoming conf ops cfg view c), Pending (fun blob tx _ =>
          parseAndValidateTxFromBlob ops cfg blob = some tx ∧ tx.version ≠ 0) e := by
        intro e he
        refine (incoming_pending c txBlobs e he).mono fun blob tx txHash hpre => ?_
        obtain ⟨hparse, -, -, hversion, -⟩ := handleIncomingTxPre_eq_some hpre.2.1
        exact ⟨hparse, hversion⟩
      refine handleIncomingTxs_state
        (S := fun c => Consistent ops cfg c.mempool ∧ ¬Marked hash c.badSemanticsTxes)
        ⟨hconsistent, ?_⟩ ?_
      · refine batch_unmarked hparsed (fun e he => ?_) hunmarked
        refine (incoming_pending c txBlobs e he).mono fun blob tx txHash hpre heq => ?_
        obtain ⟨hblob, hpre, hpool, hchain⟩ := hpre
        subst heq
        exact hok blob hblob tx hpre hpool hchain
      · intro blob _ tx tvc weight c' hparse _ hsemantic _ hc'
        refine ⟨addNewTx_consistent hc'.1 hparse (hsemantic rfl), ?_⟩
        rw [addNewTx_badSemanticsTxes]
        exact hc'.2

/-- Whatever a node relayed: when every relay of a transaction passed the semantic
checks, the node admits the transaction with a block if a fresh node does. -/
theorem relays_admit {c : CoreState ρ} {tx : Transaction} {blob : List UInt8} {maxWeight : UInt64}
    (hkept : flags.keepedByBlock = true)
    (hparse : parseAndValidateTxFromBlob ops cfg blob = some tx)
    (hrun : Relays conf crypto ops cfg fr
      (PassesWhenRelayed conf crypto ops cfg (getTransactionHash ops cfg tx)) c)
    (hfresh : Admits (handleIncomingTxs conf crypto ops cfg view fr flags [blob]
      (.fresh ρ maxWeight))) :
    Admits (handleIncomingTxs conf crypto ops cfg view fr flags [blob] c) := by
  obtain ⟨hconsistent, hunmarked⟩ := hrun.consistent_unmarked
  obtain ⟨tx', hash, hpre, hadmits⟩ := admits_singleton_iff.mp hfresh
  obtain ⟨hparse', rfl, -⟩ := handleIncomingTxPre_eq_some hpre
  obtain rfl : tx = tx' := Option.some.inj (hparse.symm.trans hparse')
  have hpre' := handleIncomingTxPre_of_unmarked hpre (fun hmem => hunmarked (.inl hmem))
    (fun hmem => hunmarked (.inr hmem))
  refine admits_singleton_iff.mpr ⟨tx, getTransactionHash ops cfg tx, by rw [hpre', hpre], ?_⟩
  rw [Bool.or_eq_true]
  by_cases hhave : haveTxInPool c.mempool (getTransactionHash ops cfg tx) = true
  · exact .inl (.inl hhave)
  rcases hadmits with hknown | ⟨hsemantic, weight, hweight, hpool⟩
  · -- a fresh pool has nothing, so the chain has it
    exact .inl (.inr hknown)
  · refine .inr ⟨hsemantic, weight, hweight, ?_⟩
    rw [Bool.not_eq_true, haveTxInPool_eq_false] at hhave
    exact addTx_of_kept hkept rfl hpool hconsistent hhave

end

/-! ### A payment that is heavier than the limit for relays -/

def paymentCoreConf : CoreConfig := ⟨1000000, by decide, 4, 600, 16⟩

def paymentCrypto : CoreCrypto := ⟨fun _ => true, fun _ => true, fun _ => true, fun _ => true⟩

def limitedView (limit : UInt64) : CoreView :=
  ⟨paymentView, 0, 1, limit, fun _ => true, 0, [], by decide⟩

def paymentBlob : List UInt8 := txToBlob currentConfig (paymentTx 0x51)

def handPayment (limit : UInt64) (flags : TxFlags) (c : CoreState (ℕ × ℕ)) :
    Bool × List TxVerificationContext × CoreState (ℕ × ℕ) :=
  handleIncomingTxs paymentCoreConf paymentCrypto paymentOps currentConfig (limitedView limit)
    fractionRate flags [paymentBlob] c

def relayedPayment (limit : UInt64) : CoreState (ℕ × ℕ) :=
  (handPayment limit ⟨false, true, false⟩ (.fresh (ℕ × ℕ) 648000000)).2.2

/-- In a chain whose limit is 700 the relayed payment fails, and is refused with a
block that a fresh node would take it with. -/
theorem payment_refused_after_relay :
    Relays paymentCoreConf paymentCrypto paymentOps currentConfig fractionRate
        (fun _ _ _ => True) (relayedPayment 700) ∧
      Admits (handPayment 700 ⟨true, true, false⟩ (.fresh (ℕ × ℕ) 648000000)) ∧
      ¬Admits (handPayment 700 ⟨true, true, false⟩ (relayedPayment 700)) := by
  refine ⟨?_, by decide +kernel, by decide +kernel⟩
  rw [relayedPayment, handPayment]
  exact .step (limitedView 700) true false [paymentBlob] (.fresh 648000000) trivial

theorem relays_admit_payment :
    Admits (handPayment 300000 ⟨true, true, false⟩ (relayedPayment 300000)) := by
  have hparse : parseAndValidateTxFromBlob paymentOps currentConfig paymentBlob =
      some (paymentTx 0x51) := by decide +kernel
  have hpass : PassesSemantics paymentCoreConf paymentCrypto currentConfig (limitedView 300000)
      false (paymentTx 0x51) :=
    ⟨by decide +kernel, by decide +kernel, fun hbp => absurd hbp.1 (by decide)⟩
  have hfresh : Admits (handPayment 300000 ⟨true, true, false⟩ (.fresh (ℕ × ℕ) 648000000)) := by
    decide +kernel
  rw [handPayment] at hfresh ⊢
  refine relays_admit rfl hparse ?_ hfresh
  rw [relayedPayment, handPayment]
  refine .step (limitedView 300000) true false [paymentBlob] (.fresh 648000000) ?_
  intro blob hblob tx hpre _ _
  obtain ⟨hparse', -⟩ := handleIncomingTxPre_eq_some hpre
  rw [List.mem_singleton.mp hblob, hparse] at hparse'
  obtain rfl := Option.some.inj hparse'
  exact hpass

end XrCoin.Core

import XrCoin.TxPool.Adding

/-!
Whole runs of the pool, from an empty one.

The key images and the sorted container follow the stored transactions in every
run. The weight does not: `prune` subtracts the time at which a transaction was
received, and `validate` subtracts the weight of the stored blob, which need not
be the recorded one.
-/

namespace XrCoin.TxPool

open Archive Cryptonote Data

section

variable {ρ : Type} (fr : FeeRate ρ) (ops : CryptoOps) (cfg : Config)

/-- The calls that runs are made of: transactions are given as the callers of
`add_tx` give them, and `prune` is not called on an empty pool. -/
def Admissible (_ : ChainView) : PoolOp → Pool ρ → Prop
  | .addTx args _, p => args.Given ops cfg p
  | .prune _, p => p.txpool.rows ≠ []
  | .validate _ order, _ => ∀ ids, (order ids).Perm ids
  | _, _ => True

/-- Where the weight is changed, it is by the recorded weights: a call of `prune`,
alone or at the end of `add_tx`, finds the pool within the limit or removes only
what was received at the time that its weight is, and what `validate` removes
has the recorded weight. -/
def WeighsExactly (view : ChainView) : PoolOp → Pool ρ → Prop
  | .addTx args tvc, p => ∀ fee, Accepts view args tvc p fee → AddsExactly fr view args p fee
  | .prune bytes, p => p.txpoolWeight ≤ pruneLimit bytes p ∨ PrunesExactly p p.sorted.tail
  | .validate version _, p => ValidatesExactly ops cfg p
      ((p.txpool.rows.filter (isInvalid view version)).map PoolRow.txid)
  | _, _ => True

variable {fr ops cfg} {p : Pool ρ}

variable [DecidableEq ρ]

theorem Consistent.apply (h : Consistent ops cfg p) {view : ChainView} {op : PoolOp}
    (hop : Admissible ops cfg view op p) (fr : FeeRate ρ) (conf : PoolConfig) :
    Consistent ops cfg (op.apply fr ops cfg conf view p) ∧
      (Weighed p → WeighsExactly fr ops cfg view op p →
        Weighed (op.apply fr ops cfg conf view p)) := by
  cases op with
  | addTx args tvc => exact h.addTx hop fr view tvc
  | takeTx id => exact ⟨(h.takeTx id).1, fun hw _ => (h.takeTx id).2 hw⟩
  | prune bytes => exact h.prune bytes
  | removeStuckTransactions =>
      obtain ⟨hc, hw⟩ := h.removeStuckTransactions conf view
      exact ⟨hc, fun hweighed _ => hw hweighed⟩
  | validate version order =>
      obtain ⟨hc, hw⟩ := h.validate view version hop
      exact ⟨hc, fun _ => hw⟩
  | init maxTxpoolWeight =>
      obtain ⟨hc, hw⟩ := h.toIndexed.init fr conf maxTxpoolWeight
      exact ⟨hc, fun _ _ => hw⟩

variable {conf : PoolConfig}

theorem Run.mono {ok ok' : ChainView → PoolOp → Pool ρ → Prop} (hok : ∀ view op p, ok view op p →
    ok' view op p) (h : Run fr ops cfg conf ok p) : Run fr ops cfg conf ok' p := by
  induction h with
  | empty maxWeight => exact .empty maxWeight
  | step view op _ hop ih => exact .step view op ih (hok _ _ _ hop)

theorem Run.consistent (h : Run fr ops cfg conf (Admissible ops cfg) p) : Consistent ops cfg p := by
  induction h with
  | empty maxWeight => exact consistent_empty maxWeight
  | step view op _ hop ih => exact (ih.apply hop fr conf).1

theorem Run.weighed (h : Run fr ops cfg conf
    (fun view op p => Admissible ops cfg view op p ∧ WeighsExactly fr ops cfg view op p) p) :
    Consistent ops cfg p ∧ Weighed p := by
  induction h with
  | empty maxWeight => exact ⟨consistent_empty maxWeight, rfl⟩
  | step view op _ hop ih =>
      obtain ⟨hc, hw⟩ := ih.1.apply hop.1 fr conf
      exact ⟨hc, hw ih.2 hop.2⟩

theorem totalWeight_toNat (rows : List PoolRow) :
    (totalWeight rows).toNat = (rows.map fun row => row.info.weight.toNat).sum % 2 ^ 64 := by
  induction rows with
  | nil => rfl
  | cons row rows ih =>
      rw [totalWeight_cons, UInt64.toNat_add, ih, List.map_cons, List.sum_cons, Nat.add_mod_mod]

/-- In every run there is an entry for a key image exactly when a stored transaction
spends it, and the entry is the set of the ids of those that do. -/
theorem run_spentKeyImages (h : Run fr ops cfg conf (Admissible ops cfg) p) (ki : KeyImage) :
    (∀ row ∈ p.txpool.rows, (parseAndValidateTxFromBlob ops cfg row.blob).isSome = true) ∧
      ((p.spentKeyImages ki).isSome = true ↔ ∃ row ∈ p.txpool.rows, Spends ops cfg row ki) ∧
      ∀ set, p.spentKeyImages ki = some set →
        set.Nonempty ∧ ∀ id, id ∈ set ↔ ∃ row ∈ p.txpool.rows, row.txid = id ∧
          Spends ops cfg row ki := by
  have hp := h.consistent
  refine ⟨?_, ?_, fun set hset => hp.images.of_eq_some hset⟩
  · intro row hrow
    obtain ⟨tx, htx⟩ := hp.held row hrow
    rw [htx.parsed]
    rfl
  · rw [hp.images.isSome_iff]
    constructor
    · rintro ⟨id, row, hrow, -, hspends⟩
      exact ⟨row, hrow, hspends⟩
    · rintro ⟨row, hrow, hspends⟩
      exact ⟨row.txid, row, hrow, rfl, hspends⟩

/-- In every run whose steps weigh exactly, the weight of the pool is the sum of the
recorded weights, and the sorted container holds the stored ids, each once. -/
theorem run_txpoolWeight (h : Run fr ops cfg conf
    (fun view op p => Admissible ops cfg view op p ∧ WeighsExactly fr ops cfg view op p) p) :
    p.txpoolWeight.toNat = (p.txpool.rows.map fun row => row.info.weight.toNat).sum % 2 ^ 64 ∧
      (p.sorted.map SortedEntry.id).Nodup ∧
      ∀ id, id ∈ p.sorted.map SortedEntry.id ↔ id ∈ p.txpool.rows.map PoolRow.txid := by
  obtain ⟨hc, hw⟩ := h.weighed
  refine ⟨?_, hc.sorted_nodup, fun id => hc.ids.mem_iff⟩
  rw [hw, totalWeight_toNat]

end

/-! ### Two payments in a small pool -/

def singleVector {α : Type} (a : α) : StdVector α := ⟨[a], single_fits a⟩

/-- A version 1 transaction that spends one key image and pays a fee of 1. -/
def paymentTx (tag : UInt8) : Transaction :=
  ⟨⟨1, 0, 0, singleVector (.toKey 2 (singleVector 7) (List.Vector.replicate 32 tag)),
    singleVector ⟨1, .toKey (List.Vector.replicate 32 tag)⟩, .nil⟩,
    singleVector (singleVector (List.Vector.replicate 64 0)), default, default⟩

def paymentHash (m : List UInt8) : Hash :=
  if m = txToBlob currentConfig (paymentTx 0x51) then
    hashOfNat 0xb3f49c0e237f85238915245c40286b531c3d35c0571d632d4cc9aa602165c794
  else if m = txToBlob currentConfig (paymentTx 0x52) then
    hashOfNat 0x62fcbe61308e887c3af77b9db8487fc40582ae785d5931a35c3721cad979274e
  else nullHash

def paymentOps : CryptoOps := ⟨paymentHash, fun _ => none, fun _ => default⟩

def fractionRate : FeeRate (ℕ × ℕ) :=
  ⟨fun fee weight => (fee.toNat, weight.toNat), fun a b => a.1 * b.2 < b.1 * a.2⟩

def paymentView : ChainView where
  checkFee _ _ := true
  checkTxOutputs _ := true
  checkTxInputs _ _ := some (0, nullHash)
  haveTx _ := false
  transactionWeightLimit _ := 149400
  now := 1540000000

def paymentConf : PoolConfig := ⟨648000000, 86400, 604800⟩

def paymentArgs (tag : UInt8) : AddTxArgs :=
  ⟨paymentTx tag, getTransactionHash paymentOps currentConfig (paymentTx tag), 139, false, false,
    false, 1⟩

def addPayment (tag : UInt8) : PoolOp := .addTx (paymentArgs tag) default

def onePayment : Pool (ℕ × ℕ) :=
  (addPayment 0x51).apply fractionRate paymentOps currentConfig paymentConf paymentView
    (.empty (ℕ × ℕ) 200)

def twoPayments : Pool (ℕ × ℕ) :=
  (addPayment 0x52).apply fractionRate paymentOps currentConfig paymentConf paymentView onePayment

theorem given_first : (paymentArgs 0x51).Given paymentOps currentConfig (.empty (ℕ × ℕ) 200) where
  parsed := ⟨txToBlob currentConfig (paymentTx 0x51), by decide +kernel⟩
  id_eq := rfl
  weighed := by decide
  inputs := ⟨by decide, by decide⟩
  fresh := by decide

theorem given_second : (paymentArgs 0x52).Given paymentOps currentConfig onePayment where
  parsed := ⟨txToBlob currentConfig (paymentTx 0x52), by decide +kernel⟩
  id_eq := rfl
  weighed := by decide
  inputs := ⟨by decide, by decide⟩
  fresh := by decide

/-- The second payment exceeds the limit, the first is pruned, and 1540000000 is
subtracted from the weight. -/
theorem twoPayments_weight_wraps :
    Run fractionRate paymentOps currentConfig paymentConf (Admissible paymentOps currentConfig)
        twoPayments ∧
      twoPayments.txpool.rows.map (fun row => row.info.weight.toNat) = [139] ∧
      twoPayments.txpoolWeight.toNat = 2 ^ 64 + 278 - 1540000000 :=
  ⟨.step paymentView (addPayment 0x52)
      (.step paymentView (addPayment 0x51) (.empty 200) given_first) given_second,
    by decide +kernel, by decide +kernel⟩

/-! ### A key image that two transactions spend -/

/-- Another payment that spends the key image of the first. -/
def sharedImageTx : Transaction :=
  { paymentTx 0x51 with vout := singleVector ⟨1, .toKey (List.Vector.replicate 32 0x54)⟩ }

def sharedImageHash (m : List UInt8) : Hash :=
  if m = txToBlob currentConfig sharedImageTx then
    hashOfNat 0xb0866e5a3676e5a6cf49eaadebf090faf6d45d95af0935c6a6ff85c7b658780d
  else paymentHash m

def sharedImageOps : CryptoOps := ⟨sharedImageHash, fun _ => none, fun _ => default⟩

def sharedImageArgs (tx : Transaction) (keptByBlock : Bool) : AddTxArgs :=
  ⟨tx, getTransactionHash sharedImageOps currentConfig tx, 139, keptByBlock, false, false, 1⟩

/-- Three payments come in, the last of them with a block. The first is taken, and the second is
stuck after more than a day. -/
def sharedImageSteps : List (ChainView × PoolOp) :=
  [(paymentView, .addTx (sharedImageArgs (paymentTx 0x51) false) default),
    (paymentView, .addTx (sharedImageArgs (paymentTx 0x52) false) default),
    (paymentView, .addTx (sharedImageArgs sharedImageTx true) default),
    (paymentView, .takeTx (getTransactionHash sharedImageOps currentConfig (paymentTx 0x51))),
    ({ paymentView with now := 1540086500 }, .removeStuckTransactions)]

def sharedImagePool (n : ℕ) : Pool (ℕ × ℕ) :=
  (sharedImageSteps.take n).foldl (fun p step =>
    step.2.apply fractionRate sharedImageOps currentConfig paymentConf step.1 p)
    (.empty (ℕ × ℕ) 648000000)

def WeighedStep (view : ChainView) (op : PoolOp) (p : Pool (ℕ × ℕ)) : Prop :=
  Admissible sharedImageOps currentConfig view op p ∧
    WeighsExactly fractionRate sharedImageOps currentConfig view op p

theorem weighedStep_addTx (tx : Transaction) (keptByBlock : Bool) {p : Pool (ℕ × ℕ)}
    (hparsed : parseAndValidateTxFromBlob sharedImageOps currentConfig
      (txToBlob currentConfig tx) = some tx)
    (hweighed : (getTransactionWeight tx (txToBlob currentConfig tx).length).isSome = true)
    (hinputs : ToKeyInputs tx.vin.toList)
    (hfresh : getTransactionHash sharedImageOps currentConfig tx ∉ p.txpool.rows.map PoolRow.txid)
    (hroom : p.txpoolWeight + 139 ≤ p.txpoolMaxWeight) (view : ChainView) :
    WeighedStep view (.addTx (sharedImageArgs tx keptByBlock) default) p :=
  ⟨⟨⟨_, hparsed⟩, rfl, hweighed, hinputs, hfresh⟩, fun _ _ => .inl hroom⟩

theorem run_sharedImagePool_succ {n : ℕ} {step : ChainView × PoolOp}
    (h : Run fractionRate sharedImageOps currentConfig paymentConf WeighedStep (sharedImagePool n))
    (hstep : sharedImageSteps[n]? = some step)
    (hok : WeighedStep step.1 step.2 (sharedImagePool n)) :
    Run fractionRate sharedImageOps currentConfig paymentConf WeighedStep
      (sharedImagePool (n + 1)) := by
  have hnext : sharedImagePool (n + 1) = step.2.apply fractionRate sharedImageOps currentConfig
      paymentConf step.1 (sharedImagePool n) := by
    rw [sharedImagePool, List.take_add_one, hstep, List.foldl_append]
    rfl
  rw [hnext]
  exact .step _ _ h hok

theorem run_sharedImagePool :
    Run fractionRate sharedImageOps currentConfig paymentConf WeighedStep (sharedImagePool 5) := by
  have hone := run_sharedImagePool_succ (n := 0) (.empty 648000000) rfl
    (weighedStep_addTx (paymentTx 0x51) false (by decide +kernel) (by decide)
      ⟨by decide, by decide⟩ (by decide) (by decide) _)
  have htwo := run_sharedImagePool_succ hone rfl
    (weighedStep_addTx (paymentTx 0x52) false (by decide +kernel) (by decide)
      ⟨by decide, by decide⟩ (by decide +kernel) (by decide +kernel) _)
  have hthree := run_sharedImagePool_succ htwo rfl
    (weighedStep_addTx sharedImageTx true (by decide +kernel) (by decide)
      ⟨by decide, by decide⟩ (by decide +kernel) (by decide +kernel) _)
  have htaken := run_sharedImagePool_succ hthree rfl ⟨trivial, trivial⟩
  exact run_sharedImagePool_succ htaken rfl ⟨trivial, trivial⟩

theorem run_spentKeyImages_sharedImage :
    (sharedImagePool 5).txpool.rows.map PoolRow.txid =
        [getTransactionHash sharedImageOps currentConfig sharedImageTx] ∧
      ((sharedImagePool 5).spentKeyImages (List.Vector.replicate 32 0x51)).isSome = true ∧
      (∃ row ∈ (sharedImagePool 5).txpool.rows,
        Spends sharedImageOps currentConfig row (List.Vector.replicate 32 0x51)) ∧
      ¬∃ row ∈ (sharedImagePool 5).txpool.rows,
        Spends sharedImageOps currentConfig row (List.Vector.replicate 32 0x52) := by
  have hrun := Run.mono (fun _ _ _ h => h.1) run_sharedImagePool
  have hkept : ((sharedImagePool 5).spentKeyImages (List.Vector.replicate 32 0x51)).isSome =
      true := by decide +kernel
  have hgone : ¬((sharedImagePool 5).spentKeyImages (List.Vector.replicate 32 0x52)).isSome =
      true := by decide +kernel
  exact ⟨by decide +kernel, hkept, (run_spentKeyImages hrun _).2.1.mp hkept,
    (run_spentKeyImages hrun _).2.1.not.mp hgone⟩

theorem run_txpoolWeight_sharedImage :
    (sharedImagePool 4).txpoolWeight = 278 ∧ (sharedImagePool 5).txpoolWeight.toNat =
        ((sharedImagePool 5).txpool.rows.map fun row => row.info.weight.toNat).sum % 2 ^ 64 ∧
      (sharedImagePool 5).txpoolWeight = 139 := by
  exact ⟨by decide +kernel, (run_txpoolWeight run_sharedImagePool).1, by decide +kernel⟩

end XrCoin.TxPool

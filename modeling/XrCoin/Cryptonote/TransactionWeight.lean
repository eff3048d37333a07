import XrCoin.Cryptonote.Hashes
import XrCoin.Cryptonote.Canonical
import XrCoin.Cryptonote.Reparse

/-!
Weights of transactions that were read from blobs. The weight of a transaction with
bulletproofs adds what their size saves against single proofs, and throws when they save
nothing. Reading makes sure that no proof is too small or too large for its shift count.
The one large proof that `expand_transaction_1` asks for always saves something, but miner
transactions are not expanded, and many small proofs save nothing.
-/

namespace XrCoin.Cryptonote

open Archive

/-! ### Sizes -/

def lSizes (tx : Transaction) : List ℕ :=
  tx.rctSignatures.p.bulletproofs.toList.map fun bp => bp.l.toList.length

/-- What a proof with so many elements in `L` saves: 368 bytes for each output that it has
room for, but for 64 bytes for each element. -/
def saved : ℕ → ℤ
  | 6 => -16
  | 7 => 288
  | 8 => 960
  | 9 => 2368
  | 10 => 5248
  | _ => 0

/-- The weight is defined and not below the size. -/
def WeightTotal (tx : Transaction) (blobSize : ℕ) : Prop :=
  ∃ weight, getTransactionWeight tx blobSize = some weight ∧ blobSize ≤ weight

/-- The shift counts of the sizes of `L` are those of 32-bit words. -/
def ShiftsFit (tx : Transaction) : Prop := ∀ size ∈ lSizes tx, 6 ≤ size ∧ size - 6 < 32

/-- The weight adds nothing, or the proofs together save their fixed part. -/
def Saves (tx : Transaction) : Prop :=
  tx.version < 2 ∨ tx.rctSignatures.type ≠ rctTypeBulletproof ∨ tx.vout.toList.length ≤ 2 ∨
    288 ≤ ((lSizes tx).map saved).sum

/-! ### What is read -/

/-- Where the count is not zero, every proof has a size in range, and room for a power of two. -/
theorem nBulletproofMaxAmountsLoop_spec {n : ℕ} {proofs : List Bulletproof} (hn : n < 2 ^ 32)
    (hpos : 0 < nBulletproofMaxAmountsLoop n proofs) :
    (∀ proof ∈ proofs, 6 ≤ proof.l.toList.length ∧ proof.l.toList.length ≤ 10) ∧
      nBulletproofMaxAmountsLoop n proofs =
        n + (proofs.map fun proof => 2 ^ (proof.l.toList.length - 6)).sum ∧
      nBulletproofMaxAmountsLoop n proofs < 2 ^ 32 := by
  induction proofs generalizing n with
  | nil => exact ⟨by simp, by simp [nBulletproofMaxAmountsLoop], hn⟩
  | cons proof proofs ih =>
      rw [nBulletproofMaxAmountsLoop] at hpos ⊢
      split at hpos
      · rename_i hlt
        split at hpos
        · exact absurd hpos (by simp)
        · rename_i hne
          rw [if_pos hlt, if_neg hne]
          obtain ⟨hall, hsum, hlt'⟩ := ih (by omega) hpos
          have hsize : (6 ≤ proof.l.toList.length ∧ proof.l.toList.length ≤ 10) ∧
              nBulletproofMaxAmounts proof = 2 ^ (proof.l.toList.length - 6) := by
            rw [nBulletproofMaxAmounts] at hne ⊢
            split at hne
            · rename_i hrange
              rw [if_pos hrange, Nat.one_shiftLeft]
              exact ⟨⟨hrange.1, hrange.2.2⟩, rfl⟩
            · exact absurd rfl hne
          refine ⟨List.forall_mem_cons.mpr ⟨hsize.1, hall⟩, ?_, hlt'⟩
          rw [hsum, List.map_cons, List.sum_cons, hsize.2]
          omega
      · exact absurd hpos (by simp)

/-- The proofs have room for the outputs, and there is no proof without outputs. -/
def RoomForOutputs (outputs : ℕ) (bulletproofs : StdVector Bulletproof) : Prop :=
  outputs ≤ nBulletproofMaxAmountsAll bulletproofs ∧
    (outputs = 0 → bulletproofs.toList = [])

theorem loadBulletproofs_room {outputs : UInt64} {bulletproofs : StdVector Bulletproof}
    {s s' : InStream} (h : loadBulletproofs outputs s = some (bulletproofs, s')) :
    RoomForOutputs outputs.toNat bulletproofs := by
  obtain ⟨nbp, s₁, -, h⟩ := Reader.bind_eq_some.mp h
  obtain ⟨u, s₂, hcount, h⟩ := Reader.bind_eq_some.mp h
  obtain ⟨proofs, s₃, hproofs, h⟩ := Reader.bind_eq_some.mp h
  obtain ⟨u, s₄, hroom, h⟩ := Reader.bind_eq_some.mp h
  obtain ⟨rfl, -⟩ := Reader.pure_eq_some.mp h
  refine ⟨(Reader.require_eq_some.mp hroom).1, fun hzero => ?_⟩
  have hle := (Reader.require_eq_some.mp hcount).1
  have hsize := loadArray_size hproofs
  rw [UInt64.le_iff_toNat_le, hzero, ← hsize, StdVector.size_toNat] at hle
  exact List.length_eq_zero_iff.mp (Nat.le_zero.mp hle)

def ProofsChecked (type : UInt8) (outputs : ℕ) (bulletproofs : StdVector Bulletproof) : Prop :=
  if type = rctTypeBulletproof then RoomForOutputs outputs bulletproofs
  else bulletproofs.toList = []

theorem loadRctSigPrunable_checked {type : UInt8} {inputs outputs mixin : UInt64}
    {p : RctSigPrunable} {s s' : InStream}
    (h : loadRctSigPrunable type inputs outputs mixin s = some (p, s')) :
    ProofsChecked type outputs.toNat p.bulletproofs := by
  rw [loadRctSigPrunable] at h
  split at h
  · rename_i hnull
    obtain ⟨rfl, -⟩ := Reader.pure_eq_some.mp h
    rw [hnull]
    rfl
  · obtain ⟨u, s₁, -, h⟩ := Reader.bind_eq_some.mp h
    obtain ⟨bulletproofs, s₂, hproofs, h⟩ := Reader.bind_eq_some.mp h
    obtain ⟨rangeSigs, s₃, -, h⟩ := Reader.bind_eq_some.mp h
    obtain ⟨mgs, s₄, -, h⟩ := Reader.bind_eq_some.mp h
    obtain ⟨pseudoOuts, s₅, -, h⟩ := Reader.bind_eq_some.mp h
    obtain ⟨rfl, -⟩ := Reader.pure_eq_some.mp h
    rw [Reader.loadIf] at hproofs
    rw [ProofsChecked]
    split at hproofs
    · rename_i htype
      rw [if_pos htype]
      exact loadBulletproofs_room hproofs
    · rename_i htype
      obtain ⟨rfl, -⟩ := Reader.pure_eq_some.mp hproofs
      rw [if_neg htype]
      rfl

theorem loadRctSig_checked {vin : StdVector Txin} {vout : StdVector TxOut} {rv : RctSig}
    {s s' : InStream} (h : loadRctSig vin vout s = some (rv, s')) :
    ProofsChecked rv.type vout.toList.length rv.p.bulletproofs := by
  obtain ⟨base, s₁, -, h⟩ := Reader.bind_eq_some.mp h
  obtain ⟨p, s₂, hp, h⟩ := Reader.bind_eq_some.mp h
  obtain ⟨rfl, -⟩ := Reader.pure_eq_some.mp h
  rw [Reader.loadIf] at hp
  split at hp
  · rw [← StdVector.size_toNat]
    exact loadRctSigPrunable_checked hp
  · rename_i hnull
    obtain ⟨rfl, -⟩ := Reader.pure_eq_some.mp hp
    show ProofsChecked base.type _ _
    rw [not_not.mp hnull]
    rfl

theorem loadTransaction_checked {cfg : Config} {tx : Transaction} {s s' : InStream}
    (h : loadTransaction cfg s = some (tx, s')) :
    ProofsChecked tx.rctSignatures.type tx.vout.toList.length tx.rctSignatures.p.bulletproofs := by
  obtain ⟨pre, s₁, -, h⟩ := Reader.bind_eq_some.mp h
  rw [loadTransactionOf] at h
  split at h
  · split at h
    · obtain ⟨signatures, s₂, -, h⟩ := Reader.bind_eq_some.mp h
      obtain ⟨rfl, -⟩ := Reader.pure_eq_some.mp h
      rfl
    · obtain ⟨borromean, s₂, -, h⟩ := Reader.bind_eq_some.mp h
      obtain ⟨rfl, -⟩ := Reader.pure_eq_some.mp h
      rfl
  · split at h
    · obtain ⟨rfl, -⟩ := Reader.pure_eq_some.mp h
      rfl
    · obtain ⟨rv, s₂, hrv, h⟩ := Reader.bind_eq_some.mp h
      obtain ⟨rfl, -⟩ := Reader.pure_eq_some.mp h
      exact loadRctSig_checked hrv

/-! ### Weights -/

variable {tx : Transaction}

theorem saved_eq {size : ℕ} (hsize : 6 ≤ size ∧ size ≤ 10) :
    saved size = 368 * 2 ^ (size - 6) - 64 * size := by
  obtain ⟨hlow, hhigh⟩ := hsize
  interval_cases size <;> rfl

theorem sum_saved {sizes : List ℕ} (hsizes : ∀ size ∈ sizes, 6 ≤ size ∧ size ≤ 10) :
    (sizes.map saved).sum = 368 * ((sizes.map fun size => 2 ^ (size - 6)).sum : ℕ) -
      32 * ((sizes.map fun size => size * 2).sum : ℕ) := by
  induction sizes with
  | nil => rfl
  | cons size sizes ih =>
      obtain ⟨hsize, hrest⟩ := List.forall_mem_cons.mp hsizes
      rw [List.map_cons, List.sum_cons, ih hrest, saved_eq hsize, List.map_cons, List.sum_cons,
        List.map_cons, List.sum_cons]
      push_cast
      ring

/-- The sizes of proofs that were read are in range, and their powers of two add up. -/
theorem lSizes_spec
    (h : RoomForOutputs tx.vout.toList.length tx.rctSignatures.p.bulletproofs) :
    (∀ size ∈ lSizes tx, 6 ≤ size ∧ size ≤ 10) ∧
      (0 < tx.vout.toList.length → nBulletproofMaxAmountsAll tx.rctSignatures.p.bulletproofs =
        ((lSizes tx).map fun size => 2 ^ (size - 6)).sum ∧
        nBulletproofMaxAmountsAll tx.rctSignatures.p.bulletproofs < 2 ^ 32) := by
  rcases Nat.eq_zero_or_pos tx.vout.toList.length with hzero | hpos
  · -- there is no output, and so no proof
    refine ⟨?_, fun hpos => absurd hpos (by omega)⟩
    rw [lSizes, h.2 hzero]
    simp
  · obtain ⟨hall, hsum, hlt⟩ := nBulletproofMaxAmountsLoop_spec (by decide)
      (Nat.lt_of_lt_of_le hpos h.1)
    refine ⟨List.forall_mem_map.mpr hall, fun _ => ⟨?_, hlt⟩⟩
    rw [nBulletproofMaxAmountsAll, hsum, Nat.zero_add, lSizes, List.map_map]
    rfl

theorem getTransactionWeight_of_bulletproofs {blobSize : ℕ}
    (hadds : ¬(tx.version < 2 ∨ tx.rctSignatures.type ≠ rctTypeBulletproof ∨
      tx.vout.toList.length ≤ 2)) :
    getTransactionWeight tx blobSize =
      if 32 * (9 + ((lSizes tx).map fun size => size * 2).sum) ≤
          368 * nBulletproofMaxAmountsAll tx.rctSignatures.p.bulletproofs ∧
        (368 * nBulletproofMaxAmountsAll tx.rctSignatures.p.bulletproofs -
          32 * (9 + ((lSizes tx).map fun size => size * 2).sum)) * 4 / 5 ≤ 2 ^ 64 - 1 - blobSize
      then some (blobSize + (368 * nBulletproofMaxAmountsAll tx.rctSignatures.p.bulletproofs -
          32 * (9 + ((lSizes tx).map fun size => size * 2).sum)) * 4 / 5)
      else none := by
  rw [getTransactionWeight, if_neg hadds, lSizes, List.map_map]
  rfl

theorem weightTotal_iff_of_checked (h : ProofsChecked tx.rctSignatures.type tx.vout.toList.length
      tx.rctSignatures.p.bulletproofs) {blobSize : ℕ} (hsize : blobSize < 2 ^ 63) :
    ShiftsFit tx ∧ (WeightTotal tx blobSize ↔ Saves tx) := by
  constructor
  · by_cases htype : tx.rctSignatures.type = rctTypeBulletproof
    · rw [ProofsChecked, if_pos htype] at h
      intro size hmem
      have hrange := (lSizes_spec h).1 size hmem
      omega
    · rw [ProofsChecked, if_neg htype] at h
      rw [ShiftsFit, lSizes, h]
      simp
  · by_cases hadds : tx.version < 2 ∨ tx.rctSignatures.type ≠ rctTypeBulletproof ∨
        tx.vout.toList.length ≤ 2
    · refine iff_of_true ⟨blobSize, if_pos hadds, le_rfl⟩ ?_
      exact hadds.imp_right (Or.imp_right .inl)
    · have htype : tx.rctSignatures.type = rctTypeBulletproof := by tauto
      rw [ProofsChecked, if_pos htype] at h
      obtain ⟨hsizes, hsum⟩ := lSizes_spec h
      obtain ⟨hsum, hlt⟩ := hsum (by omega)
      have hsaves : Saves tx ↔ 288 ≤ ((lSizes tx).map saved).sum := by
        rw [Saves]
        tauto
      rw [hsaves, sum_saved hsizes, ← hsum, WeightTotal,
        getTransactionWeight_of_bulletproofs hadds]
      generalize nBulletproofMaxAmountsAll tx.rctSignatures.p.bulletproofs = n at hlt ⊢
      generalize ((lSizes tx).map fun size => size * 2).sum = m
      constructor
      · rintro ⟨weight, hweight, -⟩
        split at hweight
        · omega
        · cases hweight
      · intro hcond
        exact ⟨_, if_pos ⟨by omega, by omega⟩, by omega⟩

/-! ### Expansion -/

theorem expandTransaction1_same {ops : CryptoOps} {loaded : Transaction}
    (h : expandTransaction1 ops loaded = some tx) :
    tx.vout = loaded.vout ∧ tx.rctSignatures.type = loaded.rctSignatures.type ∧
      tx.rctSignatures.p.bulletproofs.map Bulletproof.serialised =
        loaded.rctSignatures.p.bulletproofs.map Bulletproof.serialised := by
  rw [expandTransaction1] at h
  split at h
  · obtain ⟨rv, hrv, h⟩ := Option.bind_eq_some_iff.mp h
    obtain rfl := Option.some.inj h
    rw [expandRctSig] at hrv
    split at hrv
    · obtain ⟨outPk, -, hrv⟩ := Option.bind_eq_some_iff.mp hrv
      obtain ⟨bulletproofs, hbp, hrv⟩ := Option.bind_eq_some_iff.mp hrv
      obtain rfl := Option.some.inj hrv
      exact ⟨rfl, rfl, expandBulletproofs_serialised hbp⟩
    · exact absurd hrv (by simp)
  · obtain rfl := Option.some.inj h
    exact ⟨rfl, rfl, rfl⟩

theorem ProofsChecked.congr {type : UInt8} {outputs : ℕ} {bulletproofs loaded : StdVector Bulletproof}
    (h : ProofsChecked type outputs loaded)
    (hsame : bulletproofs.map Bulletproof.serialised = loaded.map Bulletproof.serialised) :
    ProofsChecked type outputs bulletproofs := by
  have hmax : ∀ proofs : StdVector Bulletproof,
      nBulletproofMaxAmountsAll (proofs.map Bulletproof.serialised) =
        nBulletproofMaxAmountsAll proofs := fun proofs => nBulletproofMaxAmountsLoop_serialised 0 _
  have hnil : loaded.toList = [] → bulletproofs.toList = [] := by
    intro hnil
    have hlists := congrArg StdVector.toList hsame
    rw [StdVector.map_toList, StdVector.map_toList, hnil, List.map_nil, List.map_eq_nil_iff] at hlists
    exact hlists
  rw [ProofsChecked] at h ⊢
  split at h
  · rename_i htype
    rw [if_pos htype, RoomForOutputs, ← hmax, hsame, hmax]
    exact ⟨h.1, fun hzero => hnil (h.2 hzero)⟩
  · rename_i htype
    rw [if_neg htype]
    exact hnil h

theorem lSizes_of_expanded {ops : CryptoOps} {loaded : Transaction}
    (h : expandTransaction1 ops loaded = some tx) (hcoinbase : isCoinbase loaded = false)
    (hversion : ¬tx.version < 2) (htype : tx.rctSignatures.type = rctTypeBulletproof) :
    ∃ size, lSizes tx = [size] := by
  rw [expandTransaction1] at h
  split at h
  · obtain ⟨rv, hrv, h⟩ := Option.bind_eq_some_iff.mp h
    obtain rfl := Option.some.inj h
    rw [expandRctSig] at hrv
    split at hrv
    · obtain ⟨outPk, -, hrv⟩ := Option.bind_eq_some_iff.mp hrv
      obtain ⟨bulletproofs, hbp, hrv⟩ := Option.bind_eq_some_iff.mp hrv
      obtain rfl := Option.some.inj hrv
      rw [expandBulletproofs, if_pos (show loaded.rctSignatures.type = _ from htype)] at hbp
      split at hbp
      · split at hbp
        · obtain ⟨v, -, hbp⟩ := Option.bind_eq_some_iff.mp hbp
          obtain rfl := Option.some.inj hbp
          exact ⟨_, rfl⟩
        · exact absurd hbp (by simp)
      · exact absurd hbp (by simp)
    · exact absurd hrv (by simp)
  · rename_i hnot
    obtain rfl := Option.some.inj h
    exact absurd ⟨UInt64.not_lt.mp hversion, hcoinbase⟩ hnot

theorem saves_of_expanded {ops : CryptoOps} {loaded : Transaction}
    (h : expandTransaction1 ops loaded = some tx) (hcoinbase : isCoinbase loaded = false)
    (hchecked : ProofsChecked tx.rctSignatures.type tx.vout.toList.length
      tx.rctSignatures.p.bulletproofs) : Saves tx := by
  by_cases hadds : tx.version < 2 ∨ tx.rctSignatures.type ≠ rctTypeBulletproof ∨
      tx.vout.toList.length ≤ 2
  · exact hadds.imp_right (Or.imp_right .inl)
  · have htype : tx.rctSignatures.type = rctTypeBulletproof := by tauto
    rw [ProofsChecked, if_pos htype] at hchecked
    obtain ⟨hsizes, hsum⟩ := lSizes_spec hchecked
    rw [not_or, not_or, not_not] at hadds
    obtain ⟨size, hsize⟩ := lSizes_of_expanded h hcoinbase hadds.1 htype
    obtain ⟨hmax, -⟩ := hsum (by omega)
    have hroom := hchecked.1
    rw [hmax, hsize, List.map_singleton, List.sum_singleton] at hroom
    obtain ⟨hlow, hhigh⟩ := hsizes size (by simp [hsize])
    refine .inr (.inr (.inr ?_))
    rw [hsize, List.map_singleton, List.sum_singleton]
    -- a proof with room for three outputs has at least eight elements
    have hpow : 2 < 2 ^ (size - 6) := by omega
    interval_cases size <;> first | exact absurd hpow (by decide) | decide

/-! ### Blobs -/

theorem parsedTx_checked {ops : CryptoOps} {cfg : Config} {blob : List UInt8}
    (h : parseAndValidateTxFromBlob ops cfg blob = some tx) :
    ∃ loaded, expandTransaction1 ops loaded = some tx ∧
      ProofsChecked tx.rctSignatures.type tx.vout.toList.length
        tx.rctSignatures.p.bulletproofs := by
  obtain ⟨loaded, hload, hexpand⟩ := Option.bind_eq_some_iff.mp h
  obtain ⟨s, hs, -⟩ := deserialize_eq_some.mp hload
  obtain ⟨hvout, htype, hproofs⟩ := expandTransaction1_same hexpand
  refine ⟨loaded, hexpand, ?_⟩
  rw [hvout, htype]
  exact (loadTransaction_checked hs).congr hproofs

theorem parsedBlock_checked {cfg : Config} {blob : List UInt8} {b : Block}
    (h : parseAndValidateBlockFromBlob cfg blob = some b) :
    ProofsChecked b.minerTx.rctSignatures.type b.minerTx.vout.toList.length
      b.minerTx.rctSignatures.p.bulletproofs := by
  obtain ⟨s, hs, -⟩ := deserialize_eq_some.mp h
  obtain ⟨header, s₁, -, hs⟩ := Reader.bind_eq_some.mp hs
  obtain ⟨minerTx, s₂, hminer, hs⟩ := Reader.bind_eq_some.mp hs
  obtain ⟨txHashes, s₃, -, hs⟩ := Reader.bind_eq_some.mp hs
  obtain ⟨rfl, -⟩ := Reader.pure_eq_some.mp hs
  exact loadTransaction_checked hminer

/-- For what is read from a blob the shift counts fit, and the weight is total exactly when the
proofs save their fixed part. Those of a transaction that is not a miner transaction do. -/
theorem weightTotal_iff (ops : CryptoOps) (cfg : Config) :
    (∀ blob tx, blob.length < 2 ^ 63 → parseAndValidateTxFromBlob ops cfg blob = some tx →
      ShiftsFit tx ∧ (WeightTotal tx blob.length ↔ Saves tx) ∧
        (isCoinbase tx = false → Saves tx)) ∧
    ∀ blob b, (txToBlob cfg b.minerTx).length < 2 ^ 63 →
      parseAndValidateBlockFromBlob cfg blob = some b →
      ShiftsFit b.minerTx ∧
        (WeightTotal b.minerTx (txToBlob cfg b.minerTx).length ↔ Saves b.minerTx) := by
  constructor
  · intro blob tx hsize h
    obtain ⟨loaded, hexpand, hchecked⟩ := parsedTx_checked h
    obtain ⟨hshifts, hiff⟩ := weightTotal_iff_of_checked hchecked hsize
    refine ⟨hshifts, hiff, fun hcoinbase => saves_of_expanded hexpand ?_ hchecked⟩
    rw [isCoinbase, expandTransaction1_prefix hexpand] at hcoinbase
    exact hcoinbase
  · intro blob b hsize h
    exact weightTotal_iff_of_checked (parsedBlock_checked h) hsize

/-! ### Three small proofs -/

def zeroKey : Key := List.Vector.replicate 32 0

def sixKeys : StdVector Key := ⟨List.replicate 6 zeroKey, by simp⟩

def smallProof : Bulletproof :=
  ⟨.nil, zeroKey, zeroKey, zeroKey, zeroKey, zeroKey, zeroKey, sixKeys, sixKeys, zeroKey, zeroKey,
    zeroKey⟩

def oneOutput : TxOut := ⟨0, .toKey zeroKey⟩

def smallProofsTx : Transaction :=
  ⟨⟨2, 0, 60, ⟨[.gen 0], gen_fits⟩, ⟨[oneOutput, oneOutput, oneOutput], by simp⟩, .nil⟩, .nil,
    default, ⟨⟨rctTypeBulletproof, .nil, ⟨List.replicate 3 ⟨zeroKey, zeroKey⟩, by simp⟩,
      ⟨List.replicate 3 ⟨zeroKey, zeroKey⟩, by simp⟩, 0⟩,
      ⟨.nil, ⟨[smallProof, smallProof, smallProof], by simp⟩,
        ⟨[⟨⟨[⟨[zeroKey, zeroKey], by simp⟩], by simp⟩, zeroKey⟩], by simp⟩,
        ⟨[zeroKey], by simp⟩⟩⟩⟩

theorem parse_smallProofsTx (ops : CryptoOps) : parseAndValidateTxFromBlob ops currentConfig
    (txToBlob currentConfig smallProofsTx) = some smallProofsTx := by
  have hload := deserialize_of_readsBack (readsBack_transaction currentConfig smallProofsTx)
    (by decide)
  have hkept : smallProofsTx.kept.serialised = smallProofsTx := by decide
  rw [hkept] at hload
  rw [parseAndValidateTxFromBlob, txToBlob, hload]
  rfl

theorem smallProofsTx_weight_throws :
    parseAndValidateTxFromBlob inertOps currentConfig (txToBlob currentConfig smallProofsTx) =
        some smallProofsTx ∧
      getTransactionWeight smallProofsTx (txToBlob currentConfig smallProofsTx).length = none ∧
      ¬WeightTotal smallProofsTx (txToBlob currentConfig smallProofsTx).length := by
  have hnone : getTransactionWeight smallProofsTx
      (txToBlob currentConfig smallProofsTx).length = none := by decide
  refine ⟨parse_smallProofsTx inertOps, hnone, ?_⟩
  rintro ⟨weight, hweight, -⟩
  rw [hnone] at hweight
  cases hweight

theorem weightTotal_iff_smallProofsTx :
    (WeightTotal smallProofsTx (txToBlob currentConfig smallProofsTx).length ↔
      Saves smallProofsTx) :=
  ((weightTotal_iff inertOps currentConfig).1 _ _ (by decide +kernel)
    (parse_smallProofsTx inertOps)).2.1

end XrCoin.Cryptonote

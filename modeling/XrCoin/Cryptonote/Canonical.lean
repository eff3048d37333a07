import XrCoin.Cryptonote.FormatUtils

/-!
How far the encodings of transactions and blocks are canonical.

Reading what was written gives it back, except that the count of bulletproofs
is cut to 32 bits. Writing what was read gives the same bytes exactly for the
blobs whose varints are well formed, because the reader goes on after a failed
varint.
-/

namespace XrCoin.Cryptonote

open Archive

/-- Crypto operations for runs in which no hash is compared and no point is
multiplied. -/
def inertOps : CryptoOps := ⟨fun _ => nullHash, fun _ => none, fun _ => default⟩

/-! ### Writing what was read -/

theorem parsedTx_bytes_iff {ops : CryptoOps} {cfg : Config} {blob : List UInt8} {tx : Transaction}
    (h : parseAndValidateTxFromBlob ops cfg blob = some tx) :
    txToBlob cfg tx = blob ↔ ∀ p ∈ readsOf (loadTransaction cfg) blob, p.WellFormed := by
  obtain ⟨loaded, hload, hexpand⟩ := Option.bind_eq_some_iff.mp h
  rw [txToBlob, saveTransaction_expand hexpand]
  exact deserialize_bytes_iff (accounts_transaction cfg) hload

theorem parsedBlock_bytes_iff {cfg : Config} {blob : List UInt8} {b : Block}
    (h : parseAndValidateBlockFromBlob cfg blob = some b) :
    blockToBlob cfg b = blob ↔ ∀ p ∈ readsOf (loadBlock cfg) blob, p.WellFormed :=
  deserialize_bytes_iff (accounts_block cfg) h

/-- Every varint of the blob, as the format places them, is well formed: read
without a failure code and not cut off by the end of the blob. -/
def TxVarintsWellFormed (cfg : Config) (blob : List UInt8) : Prop :=
  ∀ p ∈ readsOf (loadTransaction cfg) blob, p.WellFormed

def BlockVarintsWellFormed (cfg : Config) (blob : List UInt8) : Prop :=
  ∀ p ∈ readsOf (loadBlock cfg) blob, p.WellFormed

/-- An accepted blob is what its object is serialised to exactly when its
varints are well formed, and two such blobs of one object are the same. -/
theorem parse_serialise_iff_wellFormed (ops : CryptoOps) (cfg : Config) :
    (∀ blob tx, parseAndValidateTxFromBlob ops cfg blob = some tx →
      (txToBlob cfg tx = blob ↔ TxVarintsWellFormed cfg blob) ∧
      ∀ blob', parseAndValidateTxFromBlob ops cfg blob' = some tx →
        TxVarintsWellFormed cfg blob → TxVarintsWellFormed cfg blob' → blob = blob') ∧
    (∀ blob b, parseAndValidateBlockFromBlob cfg blob = some b →
      (blockToBlob cfg b = blob ↔ BlockVarintsWellFormed cfg blob) ∧
      ∀ blob', parseAndValidateBlockFromBlob cfg blob' = some b →
        BlockVarintsWellFormed cfg blob → BlockVarintsWellFormed cfg blob' → blob = blob') := by
  refine ⟨fun blob tx h => ⟨parsedTx_bytes_iff h, ?_⟩,
    fun blob b h => ⟨parsedBlock_bytes_iff h, ?_⟩⟩
  · intro blob' h' hwf hwf'
    rw [← (parsedTx_bytes_iff h).mpr hwf]
    exact (parsedTx_bytes_iff h').mpr hwf'
  · intro blob' h' hwf hwf'
    rw [← (parsedBlock_bytes_iff h).mpr hwf]
    exact (parsedBlock_bytes_iff h').mpr hwf'

/-- A version 1 transaction without inputs, outputs and extra, its unlock time
in two bytes. -/
def looseBlob : List UInt8 := [1, 0x80, 0, 0, 0, 0]

def emptyTransaction : Transaction :=
  ⟨⟨1, 0, 0, .nil, .nil, .nil⟩, .nil, default, default⟩

theorem looseBlob_not_canonical :
    parseAndValidateTxFromBlob inertOps currentConfig looseBlob = some emptyTransaction ∧
      txToBlob currentConfig emptyTransaction ≠ looseBlob := by
  decide

/-! ### A transaction that spends two outputs -/

/-- Crypto operations that take every key for a point and leave it as it is. -/
def identityOps : CryptoOps := ⟨fun _ => nullHash, some, fun _ => default⟩

theorem seven_fits {α : Type} (a : α) : (List.replicate 7 a).length < 2 ^ 64 := by simp

def tagKey (tag : UInt8) : Key := List.Vector.replicate 32 tag

def pairKeys (tag tag' : UInt8) : StdVector Key := ⟨[tagKey tag, tagKey tag'], pair_fits _ _⟩

def sevenKeys : StdVector Key := ⟨List.replicate 7 (tagKey 7), seven_fits _⟩

def pairProof : Bulletproof :=
  ⟨pairKeys 5 6, tagKey 1, tagKey 2, tagKey 3, tagKey 4, tagKey 5, tagKey 6, sevenKeys, sevenKeys,
    tagKey 8, tagKey 9, tagKey 10⟩

def pairMgSig (tag : UInt8) : MgSig :=
  ⟨⟨[pairKeys tag tag, pairKeys tag tag], pair_fits _ _⟩, tagKey tag⟩

def spentInput (tag : UInt8) : Txin := .toKey 0 ⟨[1, 1], pair_fits _ _⟩ (tagKey tag)

def spendingPrefix (tag : UInt8) : TransactionPrefix :=
  ⟨2, 0, 60, ⟨[spentInput tag, spentInput (tag + 1)], pair_fits _ _⟩,
    ⟨[⟨0, .toKey (tagKey 3)⟩, ⟨0, .toKey (tagKey 4)⟩], pair_fits _ _⟩, ⟨[1, 2], pair_fits _ _⟩⟩

/-- The key images `tag` and `tag + 1` are spent, with two outputs under one bulletproof. -/
def spendingTx (tag : UInt8) (fee : UInt64) : Transaction :=
  ⟨spendingPrefix tag, .nil, default,
    ⟨⟨rctTypeBulletproof, .nil, ⟨[⟨tagKey 1, tagKey 2⟩, ⟨tagKey 3, tagKey 4⟩], pair_fits _ _⟩,
        ⟨[⟨tagKey 3, tagKey 5⟩, ⟨tagKey 4, tagKey 6⟩], pair_fits _ _⟩, fee⟩,
      ⟨.nil, ⟨[pairProof], single_fits _⟩, ⟨[pairMgSig 1, pairMgSig 2], pair_fits _ _⟩,
        pairKeys 1 2⟩⟩⟩

/-- A block of version 8 with two transactions besides that of the miner. -/
def pairBlock : Block :=
  ⟨⟨8, 8, 1540000000, nullHash, 0x123456789⟩,
    ⟨⟨2, 0, 160, ⟨[.gen 100], single_fits _⟩, ⟨[⟨600, .toKey (tagKey 3)⟩], single_fits _⟩, .nil⟩,
      .nil, default, default⟩, pairKeys 1 2⟩

theorem parse_serialise_spending :
    TxVarintsWellFormed currentConfig (txToBlob currentConfig (spendingTx 20 1)) ∧
      ¬TxVarintsWellFormed currentConfig looseBlob ∧
      BlockVarintsWellFormed currentConfig (blockToBlob currentConfig pairBlock) := by
  have hspend := (parse_serialise_iff_wellFormed identityOps currentConfig).1
    (txToBlob currentConfig (spendingTx 20 1)) (spendingTx 20 1) (by decide +kernel)
  have hloose := (parse_serialise_iff_wellFormed identityOps currentConfig).1 looseBlob
    emptyTransaction (by decide)
  have hblock := (parse_serialise_iff_wellFormed identityOps currentConfig).2
    (blockToBlob currentConfig pairBlock) pairBlock (by decide +kernel)
  exact ⟨hspend.1.mp rfl, fun hwf => absurd (hloose.1.mpr hwf) (by decide), hblock.1.mp rfl⟩

/-! ### Reading what was written -/

/-- The proofs that are written can be counted in 32 bits. -/
def Transaction.ProofsFit (tx : Transaction) : Prop :=
  tx.version ≠ 1 → tx.vin.toList ≠ [] → tx.rctSignatures.type = rctTypeBulletproof →
    tx.rctSignatures.p.bulletproofs.toList.length < 2 ^ 32

theorem serialised_proofs_kept {rv : RctSig} (hbp : rv.type = rctTypeBulletproof)
    (h : rv.kept.serialised = rv.serialised) : rv.p.bulletproofs.toList.length < 2 ^ 32 := by
  have hp : rv.kept.p.serialised rv.type = rv.p.serialised rv.type := congrArg RctSig.p h
  have hnull : ¬rv.type = rctTypeNull := by
    rw [hbp]
    decide
  simp only [RctSigPrunable.serialised, if_neg hnull, if_pos hbp] at hp
  have hproofs := congrArg (fun p => p.bulletproofs.toList.length) hp
  simp only [StdVector.map_toList, List.length_map, RctSig.kept, keptBulletproofs_length]
    at hproofs
  omega

theorem kept_serialised_iff (tx : Transaction) :
    tx.kept.serialised = tx.serialised ↔ tx.ProofsFit := by
  constructor
  · intro h hversion hvin hbp
    have hversion' : ¬tx.kept.version = 1 := hversion
    have hvin' : ¬tx.kept.vin.toList = [] := hvin
    rw [Transaction.serialised, Transaction.serialised, if_neg hversion, if_neg hversion',
      if_neg hvin, if_neg hvin'] at h
    exact serialised_proofs_kept hbp (congrArg Transaction.rctSignatures h)
  · intro hfit
    by_cases hproofs : tx.rctSignatures.p.bulletproofs.toList.length < 2 ^ 32
    · have hkept : tx.kept = tx := by
        rw [Transaction.kept, RctSig.kept, keptBulletproofs_of_lt hproofs]
      rw [hkept]
    -- so many proofs are not among what is written
    · have hser : tx.version ≠ 1 → tx.vin.toList ≠ [] →
          tx.rctSignatures.kept.serialised = tx.rctSignatures.serialised := by
        intro hversion hvin
        have hbp : ¬tx.rctSignatures.type = rctTypeBulletproof :=
          fun hbp => hproofs (hfit hversion hvin hbp)
        have hp : tx.rctSignatures.kept.p.serialised tx.rctSignatures.type =
            tx.rctSignatures.p.serialised tx.rctSignatures.type := by
          simp only [RctSigPrunable.serialised, RctSig.kept, if_neg hbp]
        unfold RctSig.serialised
        rw [← hp]
        rfl
      unfold Transaction.serialised
      by_cases hversion : tx.version = 1
      · have hversion' : tx.kept.version = 1 := hversion
        rw [if_pos hversion, if_pos hversion']
        rfl
      · have hversion' : ¬tx.kept.version = 1 := hversion
        rw [if_neg hversion, if_neg hversion']
        by_cases hvin : tx.vin.toList = []
        · have hvin' : tx.kept.vin.toList = [] := hvin
          rw [if_pos hvin, if_pos hvin']
          rfl
        · have hvin' : ¬tx.kept.vin.toList = [] := hvin
          rw [if_neg hvin, if_neg hvin', ← hser hversion hvin]
          rfl

/-- The archive reads a written transaction, and a written block whose nonce is
written whole, back to its serialised part, and leaves nothing unread, exactly
when the bulletproofs can be counted in 32 bits. -/
theorem deserialize_serialise_iff_proofsFit (cfg : Config) :
    (∀ tx, (saveTransaction cfg tx).ok = true →
      (deserialize (loadTransaction cfg) (txToBlob cfg tx) = some tx.serialised ↔
        tx.ProofsFit)) ∧
    (∀ b, (saveBlock cfg b).ok = true → NonceFits b.toBlockHeader →
      (deserialize (loadBlock cfg) (blockToBlob cfg b) = some b.serialised ↔
        b.minerTx.ProofsFit)) := by
  refine ⟨fun tx hok => ?_, fun b hok hnonce => ?_⟩
  · rw [txToBlob, deserialize_of_readsBack (readsBack_transaction cfg tx) hok,
      Option.some.injEq]
    exact kept_serialised_iff tx
  · rw [blockToBlob, deserialize_of_readsBack (readsBack_block cfg hnonce) hok,
      Option.some.injEq, ← kept_serialised_iff]
    constructor
    · exact congrArg Block.minerTx
    · intro h
      simp only [Block.serialised, h]

theorem deserialize_serialise_spending :
    deserialize (loadTransaction currentConfig) (txToBlob currentConfig (spendingTx 20 1)) =
        some (spendingTx 20 1).serialised ∧
      deserialize (loadBlock currentConfig) (blockToBlob currentConfig pairBlock) =
        some pairBlock.serialised := by
  have hspend := (deserialize_serialise_iff_proofsFit currentConfig).1 (spendingTx 20 1)
    (by decide +kernel)
  have hblock := (deserialize_serialise_iff_proofsFit currentConfig).2 pairBlock
    (by decide +kernel) (by decide)
  have hproofs : (spendingTx 20 1).ProofsFit := fun _ _ _ => by decide
  exact ⟨hspend.mpr hproofs, hblock.mpr fun _ _ htype => absurd htype (by decide)⟩

def proofsTransaction (proofs : StdVector Bulletproof) : Transaction :=
  ⟨⟨2, 0, 0, ⟨[.gen 0], gen_fits⟩, .nil, .nil⟩, .nil, default,
    ⟨{ (default : RctSigBase) with type := rctTypeBulletproof },
      { rangeSigs := .nil
        bulletproofs := proofs
        mgs := ⟨[{ ss := ⟨[⟨[default, default], by decide⟩], by decide⟩, cc := default }],
          by decide⟩
        pseudoOuts := ⟨[default], by decide⟩ }⟩⟩

/-- With so many proofs the count that is written is zero. -/
theorem saveBulletproofs_of_length {proofs : StdVector Bulletproof}
    (hlen : proofs.toList.length = 2 ^ 32) : saveBulletproofs 0 proofs = .emit [0, 0, 0, 0] := by
  have hcount : proofs.size.toUInt32 = 0 := by
    apply UInt32.toNat_inj.mp
    rw [size_toUInt32_toNat, hlen]
    rfl
  have hmax : (0 : UInt64).toNat ≤ nBulletproofMaxAmountsAll proofs := Nat.zero_le _
  simp only [saveBulletproofs, hcount]
  rw [Out.require_true hmax]
  rfl

theorem proofsTransaction_ok {proofs : StdVector Bulletproof}
    (hlen : proofs.toList.length = 2 ^ 32) :
    (saveTransaction currentConfig (proofsTransaction proofs)).ok = true := by
  have hproofs := saveBulletproofs_of_length hlen
  have hprunable : (saveRctSigPrunable rctTypeBulletproof 1 0 0
      (proofsTransaction proofs).rctSignatures.p).ok = true := by
    have hnull : ¬rctTypeBulletproof = rctTypeNull := by decide
    have hsave : saveBulletproofs 0 (proofsTransaction proofs).rctSignatures.p.bulletproofs =
        .emit [0, 0, 0, 0] := hproofs
    rw [saveRctSigPrunable, if_neg hnull, hsave]
    rfl
  have hrct : (saveRctSig (proofsTransaction proofs).vin (proofsTransaction proofs).vout
      (proofsTransaction proofs).rctSignatures).ok = true := by
    rw [saveRctSig, Out.append_ok]
    exact ⟨rfl, hprunable⟩
  rw [saveTransaction, Out.append_ok]
  exact ⟨rfl, hrct⟩

theorem proofsTransaction_proofs_lt {proofs : StdVector Bulletproof}
    (h : (proofsTransaction proofs).ProofsFit) : proofs.toList.length < 2 ^ 32 :=
  h (show ¬(2 : UInt64) = 1 by decide) (show ¬[Txin.gen 0] = [] by simp) rfl

theorem replicate_size_lt : (List.replicate (2 ^ 32) (default : Bulletproof)).length < 2 ^ 64 := by
  rw [List.length_replicate]
  omega

def manyProofs : StdVector Bulletproof := ⟨List.replicate (2 ^ 32) default, replicate_size_lt⟩

theorem manyProofs_length : manyProofs.toList.length = 2 ^ 32 := by
  unfold manyProofs
  rw [List.length_replicate]

theorem manyProofs_not_restored :
    (saveTransaction currentConfig (proofsTransaction manyProofs)).ok = true ∧
      deserialize (loadTransaction currentConfig)
        (txToBlob currentConfig (proofsTransaction manyProofs)) ≠
      some (proofsTransaction manyProofs).serialised := by
  have hok := proofsTransaction_ok manyProofs_length
  refine ⟨hok, ?_⟩
  rw [txToBlob, deserialize_of_readsBack (readsBack_transaction _ _) hok, ne_eq,
    Option.some.injEq, kept_serialised_iff]
  intro hfit
  exact absurd (proofsTransaction_proofs_lt hfit) (by rw [manyProofs_length]; exact lt_irrefl _)

end XrCoin.Cryptonote

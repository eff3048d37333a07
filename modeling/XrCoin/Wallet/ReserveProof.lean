import Mathlib
import XrCoin.Cryptonote.Hashes
import XrCoin.Cryptonote.TxExtra
import XrCoin.Data.Throwing

/-!
`wallet2::check_reserve_proof`: a proof of the funds of an address, checked against what a daemon
answers.

The signature checks and the arithmetic of keys are parameters, and so are the answers of the
daemon and the archive inside the text of the proof. The check takes for the amount of a hidden
output what it decodes, and does not ask whether the commitment of the output is made for it.
-/

namespace XrCoin.Wallet

open Archive Cryptonote Data

structure AccountPublicAddress where
  spendPublicKey : PublicKey
  viewPublicKey : PublicKey
  deriving DecidableEq

structure ReserveProofEntry where
  txid : Hash
  indexInTx : UInt64
  sharedSecret : PublicKey
  keyImage : KeyImage
  sharedSecretSig : Signature
  keyImageSig : Signature
  deriving DecidableEq

def ReserveProofEntry.output (proof : ReserveProofEntry) : Hash × UInt64 :=
  (proof.txid, proof.indexInTx)

structure ReserveOps extends CryptoOps where
  /-- `check_tx_proof` of a prefix, a view key, a key of the transaction and a shared secret,
  with no key in place of the base point. -/
  checkTxProof : Hash → PublicKey → PublicKey → PublicKey → Signature → Bool
  /-- `check_ring_signature` with a single member. -/
  checkRingSignature : Hash → KeyImage → PublicKey → Signature → Bool
  checkSignature : Hash → PublicKey → Signature → Bool
  /-- `generate_key_derivation` with the scalar one. -/
  generateKeyDerivation : PublicKey → Option KeyDerivation
  /-- What `derive_subaddress_public_key` leaves in its result, which is not asked for. -/
  deriveSubaddressPublicKey : PublicKey → KeyDerivation → UInt64 → PublicKey
  derivationToScalar : KeyDerivation → UInt64 → SecretKey
  ecdhDecode : EcdhTuple → SecretKey → EcdhTuple

structure TxAnswer where
  inPool : Bool
  asHex : Option (List UInt8)

structure Daemon where
  /-- The version, when the connection stands. -/
  rpcVersion : Option UInt32
  getTransactions : List Hash → Option (List TxAnswer)
  isKeyImageSpent : List KeyImage → Option (List Bool)

structure ReserveProof where
  proofs : List ReserveProofEntry
  subaddrSpendkeys : List (PublicKey × Signature)

def h2d (key : Key) : UInt64 := UInt64.ofNat (leValue (key.val.take 8))

/-! ### The check -/

variable (ops : ReserveOps) (cfg : Config)

/-- The amount of an output, in the clear or decoded. The elements of `ecdhInfo` are read without
a look at their number: where there is none, the behaviour is undefined. -/
def entryAmount (tx : Transaction) (proof : ReserveProofEntry) (derivation : KeyDerivation) :
    Option UInt64 := do
  let out ← tx.vout.toList[proof.indexInTx.toNat]?
  if out.amount ≠ 0 then some out.amount
  else
    let ecdhInfo ← tx.rctSignatures.ecdhInfo.toList[proof.indexInTx.toNat]?
    some (h2d (ops.ecdhDecode ecdhInfo (ops.derivationToScalar derivation proof.indexInTx)).amount)

def entryTransaction (proof : ReserveProofEntry) (answer : TxAnswer) :
    Except String Transaction := do
  throwIf (answer.inPool = true) "Tx is unconfirmed"
  let txData ← orThrow answer.asHex "Failed to parse transaction from daemon"
  let tx ← orThrow (parseAndValidateTxFromBlob ops.toCryptoOps cfg txData)
    "Failed to validate transaction from daemon"
  throwIf (getTransactionHash ops.toCryptoOps cfg tx ≠ proof.txid)
    "Failed to get the right transaction from daemon"
  return tx

def entryOutKey (tx : Transaction) (proof : ReserveProofEntry) : Except String PublicKey := do
  let out ← orThrow tx.vout.toList[proof.indexInTx.toNat]? "index_in_tx is out of bound"
  match out.target with
  | .toKey key => return key
  | _ => throw "Output key wasn't found"

def sharedSecretSigned (prefixHash : Hash) (address : AccountPublicAddress) (tx : Transaction)
    (txPubKey : PublicKey) (proof : ReserveProofEntry) : Bool :=
  let additional := getAdditionalTxPubKeysFromExtra tx.extra.toList
  ops.checkTxProof prefixHash address.viewPublicKey txPubKey proof.sharedSecret
      proof.sharedSecretSig ||
    (decide (additional.length = tx.vout.toList.length) &&
      match additional[proof.indexInTx.toNat]? with
      | some key => ops.checkTxProof prefixHash address.viewPublicKey key proof.sharedSecret
          proof.sharedSecretSig
      | none => false)

/-- The body of the loop: the amount, or nothing for `return false`. -/
def checkEntry (prefixHash : Hash) (address : AccountPublicAddress)
    (subaddrSpendkeys : List (PublicKey × Signature)) (proof : ReserveProofEntry)
    (answer : TxAnswer) : Except String (Option UInt64) := do
  let tx ← entryTransaction ops cfg proof answer
  let outKey ← entryOutKey tx proof
  let txPubKey := getTxPubKeyFromExtra tx.extra.toList 0
  throwIf (txPubKey = nullPkey) "The tx public key isn't found"
  if sharedSecretSigned ops prefixHash address tx txPubKey proof = false then return none
  else if ops.checkRingSignature prefixHash proof.keyImage outKey proof.keyImageSig = false then
    return none
  else
    let derivation ← orThrow (ops.generateKeyDerivation proof.sharedSecret)
      "Failed to generate key derivation"
    throwIf (ops.deriveSubaddressPublicKey outKey derivation proof.indexInTx ∉
        subaddrSpendkeys.map Prod.fst) "The address doesn't seem to have received the fund"
    let amount ← orThrow (entryAmount ops tx proof derivation) "undefined"
    return some amount

structure ReserveItem where
  proof : ReserveProofEntry
  answer : TxAnswer
  spentStatus : Bool

def checkEntries (prefixHash : Hash) (address : AccountPublicAddress)
    (subaddrSpendkeys : List (PublicKey × Signature)) :
    List ReserveItem → UInt64 → UInt64 → Except String (Bool × UInt64 × UInt64)
  | [], total, spent => .ok (true, total, spent)
  | item :: items, total, spent => do
      match ← checkEntry ops cfg prefixHash address subaddrSpendkeys item.proof item.answer with
      | none => return (false, total, spent)
      | some amount =>
          checkEntries prefixHash address subaddrSpendkeys items (total + amount)
            (if item.spentStatus then spent + amount else spent)

def reserveProofHeader : List Char :=
  ['R', 'e', 's', 'e', 'r', 'v', 'e', 'P', 'r', 'o', 'o', 'f', 'V', '1']

/-- The hash over the message, the address and the key images of all entries. -/
def reservePrefixHash (address : AccountPublicAddress) (message : List UInt8)
    (proofs : List ReserveProofEntry) : Hash :=
  ops.cnFastHash (message ++ address.spendPublicKey.val ++ address.viewPublicKey.val ++
    proofs.flatMap fun proof => proof.keyImage.val)

def reserveItems (daemon : Daemon) (proofs : List ReserveProofEntry) :
    Except String (List ReserveItem) := do
  let txs ← orThrow (daemon.getTransactions (proofs.map ReserveProofEntry.txid))
    "Failed to get transaction from daemon"
  throwIf (txs.length ≠ proofs.length) "Failed to get transaction from daemon"
  let spentStatus ← orThrow (daemon.isKeyImageSpent (proofs.map ReserveProofEntry.keyImage))
    "Failed to get key image spent status from daemon"
  throwIf (spentStatus.length ≠ proofs.length) "Failed to get key image spent status from daemon"
  return (proofs.zip (txs.zip spentStatus)).map fun p => ⟨p.1, p.2.1, p.2.2⟩

/-- Whether the proof verifies, with the total and the spent sum. `decodeProof` stands for
`base58::decode` and the loading archive behind it. -/
def checkReserveProof (daemon : Daemon) (decodeProof : List Char → Option ReserveProof)
    (address : AccountPublicAddress) (message : List UInt8) (sigStr : List Char) :
    Except String (Bool × UInt64 × UInt64) := do
  let rpcVersion ← orThrow daemon.rpcVersion "Failed to connect to daemon: "
  throwIf (rpcVersion < 0x10000) "Daemon RPC version is too old"
  throwIf (reserveProofHeader.isPrefixOf sigStr = false) "Signature header check error"
  let sig ← orThrow (decodeProof (sigStr.drop reserveProofHeader.length))
    "Signature decoding error"
  throwIf (address.spendPublicKey ∉ sig.subaddrSpendkeys.map Prod.fst)
    "The given address isn't found in the proof"
  let prefixHash := reservePrefixHash ops address message sig.proofs
  let items ← reserveItems daemon sig.proofs
  match ← checkEntries ops cfg prefixHash address sig.subaddrSpendkeys items 0 0 with
  | (false, total, spent) => return (false, total, spent)
  | (true, total, spent) =>
      return (sig.subaddrSpendkeys.all fun p => ops.checkSignature prefixHash p.1 p.2, total, spent)

/-! ### What is counted -/

/-- The amount that an output has: in the clear, or the one that its commitment is made for. A
transaction that was parsed has a commitment for each output. -/
def heldAmount (committed : Key → UInt64) (tx : Transaction) (indexInTx : UInt64) : UInt64 :=
  if tx.version = 1 ∨ tx.rctSignatures.type = rctTypeNull then
    ((tx.vout.toList[indexInTx.toNat]?).map TxOut.amount).getD 0
  else ((tx.rctSignatures.outPk.toList[indexInTx.toNat]?).map fun pk => committed pk.mask).getD 0

structure CountedOutput where
  output : Hash × UInt64
  amount : UInt64
  added : UInt64
  spent : Bool

def CountedOutput.error (out : CountedOutput) : UInt64 := out.added - out.amount

/-- The output that an entry names, as its transaction has it. -/
def ReserveItem.Counts (committed : Key → UInt64) (item : ReserveItem) (out : CountedOutput) :
    Prop :=
  out.output = item.proof.output ∧ out.spent = item.spentStatus ∧
    ∃ txData tx derivation, item.answer.asHex = some txData ∧
      parseAndValidateTxFromBlob ops.toCryptoOps cfg txData = some tx ∧
      getTransactionHash ops.toCryptoOps cfg tx = item.proof.txid ∧
      ops.generateKeyDerivation item.proof.sharedSecret = some derivation ∧
      entryAmount ops tx item.proof derivation = some out.added ∧
      heldAmount committed tx item.proof.indexInTx = out.amount

/-- The sums are exact, and over outputs of which none comes twice. -/
structure SoundReserve (outs : List CountedOutput) (total spent : UInt64) : Prop where
  once : ∀ output, (outs.map CountedOutput.output).count output ≤ 1
  total_eq : total.toNat = (outs.map fun out => out.amount.toNat).sum
  spent_eq : spent.toNat =
    ((outs.filter CountedOutput.spent).map fun out => out.amount.toNat).sum

/-- What the check takes the outputs for adds up to what they have. -/
def ErrorsCancel (outs : List CountedOutput) : Prop :=
  (outs.map CountedOutput.error).sum = 0 ∧
    ((outs.filter CountedOutput.spent).map CountedOutput.error).sum = 0

variable {ops cfg}

theorem entryTransaction_eq_ok {proof : ReserveProofEntry} {answer : TxAnswer} {tx : Transaction}
    (h : entryTransaction ops cfg proof answer = .ok tx) :
    ∃ txData, answer.asHex = some txData ∧
      parseAndValidateTxFromBlob ops.toCryptoOps cfg txData = some tx ∧
      getTransactionHash ops.toCryptoOps cfg tx = proof.txid := by
  obtain ⟨_, -, h⟩ := bind_eq_ok.mp h
  obtain ⟨txData, hdata, h⟩ := bind_eq_ok.mp h
  obtain ⟨tx', htx, h⟩ := bind_eq_ok.mp h
  obtain ⟨_, hhash, h⟩ := bind_eq_ok.mp h
  obtain rfl : tx' = tx := Except.ok.inj h
  exact ⟨txData, orThrow_eq_ok.mp hdata, orThrow_eq_ok.mp htx,
    not_not.mp (throwIf_eq_ok.mp hhash)⟩

theorem checkEntry_counts (committed : Key → UInt64) {prefixHash : Hash} {address : AccountPublicAddress}
    {keys : List (PublicKey × Signature)} {item : ReserveItem} {amount : UInt64}
    (h : checkEntry ops cfg prefixHash address keys item.proof item.answer = .ok (some amount)) :
    ∃ out, item.Counts ops cfg committed out ∧ out.added = amount := by
  obtain ⟨tx, htx, h⟩ := bind_eq_ok.mp h
  obtain ⟨txData, hdata, hparse, hhash⟩ := entryTransaction_eq_ok htx
  obtain ⟨outKey, -, h⟩ := bind_eq_ok.mp h
  obtain ⟨_, -, h⟩ := bind_eq_ok.mp h
  split_ifs at h
  · cases h
  · cases h
  · obtain ⟨derivation, hderivation, h⟩ := bind_eq_ok.mp h
    obtain ⟨_, -, h⟩ := bind_eq_ok.mp h
    obtain ⟨amount', hamount, h⟩ := bind_eq_ok.mp h
    obtain rfl : amount' = amount := Option.some.inj (Except.ok.inj h)
    exact ⟨⟨item.proof.output, heldAmount committed tx item.proof.indexInTx, amount',
      item.spentStatus⟩, ⟨rfl, rfl, txData, tx, derivation, hdata, hparse, hhash,
        orThrow_eq_ok.mp hderivation, orThrow_eq_ok.mp hamount, rfl⟩, rfl⟩

/-- The loop adds up every entry, modulo the word. -/
theorem checkEntries_counts (committed : Key → UInt64) {prefixHash : Hash} {address : AccountPublicAddress}
    {keys : List (PublicKey × Signature)} {items : List ReserveItem}
    {total₀ spent₀ total spent : UInt64}
    (h : checkEntries ops cfg prefixHash address keys items total₀ spent₀ =
      .ok (true, total, spent)) :
    ∃ outs, List.Forall₂ (ReserveItem.Counts ops cfg committed) items outs ∧
      total = total₀ + (outs.map CountedOutput.added).sum ∧
      spent = spent₀ + ((outs.filter CountedOutput.spent).map CountedOutput.added).sum := by
  induction items generalizing total₀ spent₀ with
  | nil =>
      obtain ⟨rfl, rfl⟩ := Prod.mk.inj (Prod.mk.inj (Except.ok.inj h)).2
      exact ⟨[], .nil, by simp, by simp⟩
  | cons item items ih =>
      obtain ⟨checked, hentry, h⟩ := bind_eq_ok.mp h
      cases checked with
      | none => cases h
      | some amount =>
          obtain ⟨outs, houts, htotal, hspent⟩ := ih h
          obtain ⟨out, hout, rfl⟩ := checkEntry_counts committed hentry
          refine ⟨out :: outs, .cons hout houts, ?_, ?_⟩
          · rw [htotal, List.map_cons, List.sum_cons, UInt64.add_assoc]
          · rw [hspent, List.filter_cons, hout.2.1]
            split_ifs
            · rw [List.map_cons, List.sum_cons, UInt64.add_assoc]
            · rfl

/-! ### Exactness -/

theorem toNat_sum (amounts : List UInt64) :
    amounts.sum.toNat = (amounts.map UInt64.toNat).sum % 2 ^ 64 := by
  induction amounts with
  | nil => rfl
  | cons a amounts ih => simp [ih, UInt64.toNat_add]

theorem toNat_sum_eq_iff (amounts : List UInt64) :
    amounts.sum.toNat = (amounts.map UInt64.toNat).sum ↔
      (amounts.map UInt64.toNat).sum < 2 ^ 64 := by
  rw [toNat_sum]
  exact Nat.mod_eq_iff_lt (by decide)

theorem sum_filter_le (outs : List CountedOutput) :
    ((outs.filter CountedOutput.spent).map fun out => out.amount.toNat).sum ≤
      (outs.map fun out => out.amount.toNat).sum := by
  have hsub : ((outs.filter CountedOutput.spent).map fun out => out.amount.toNat).Sublist
      (outs.map fun out => out.amount.toNat) := List.filter_sublist.map _
  exact hsub.sum_le_sum fun _ _ => Nat.zero_le _

theorem sum_added (outs : List CountedOutput) :
    (outs.map CountedOutput.added).sum =
      (outs.map CountedOutput.amount).sum + (outs.map CountedOutput.error).sum := by
  rw [← List.sum_map_add]
  congr 1
  refine List.map_congr_left fun out _ => ?_
  rw [CountedOutput.error, UInt64.add_comm, UInt64.sub_add_cancel]

theorem toNat_add_eq_sum_iff (amounts : List UInt64) (error : UInt64) :
    (amounts.sum + error).toNat = (amounts.map UInt64.toNat).sum ↔
      (amounts.map UInt64.toNat).sum < 2 ^ 64 ∧ error = 0 := by
  constructor
  · intro h
    have hfits : (amounts.map UInt64.toNat).sum < 2 ^ 64 := h ▸ UInt64.toNat_lt _
    refine ⟨hfits, ?_⟩
    rw [← (toNat_sum_eq_iff amounts).mpr hfits, UInt64.toNat_inj] at h
    simpa using h
  · rintro ⟨hfits, rfl⟩
    rw [UInt64.add_zero]
    exact (toNat_sum_eq_iff amounts).mpr hfits

/-- The sums of the loop are exact when the whole fits into the word and the errors cancel. -/
theorem soundReserve_iff (outs : List CountedOutput) :
    SoundReserve outs (outs.map CountedOutput.added).sum
        ((outs.filter CountedOutput.spent).map CountedOutput.added).sum ↔
      (outs.map CountedOutput.output).Nodup ∧
        (outs.map fun out => out.amount.toNat).sum < 2 ^ 64 ∧ ErrorsCancel outs := by
  have htotal := toNat_add_eq_sum_iff (outs.map CountedOutput.amount)
    (outs.map CountedOutput.error).sum
  have hspent := toNat_add_eq_sum_iff ((outs.filter CountedOutput.spent).map CountedOutput.amount)
    ((outs.filter CountedOutput.spent).map CountedOutput.error).sum
  rw [List.map_map, ← sum_added] at htotal hspent
  constructor
  · rintro ⟨honce, hexact, hexact'⟩
    obtain ⟨hfits, hzero⟩ := htotal.mp hexact
    exact ⟨List.nodup_iff_count_le_one.mpr honce, hfits, hzero, (hspent.mp hexact').2⟩
  · rintro ⟨hnodup, hfits, hzero, hzero'⟩
    exact ⟨List.nodup_iff_count_le_one.mp hnodup, htotal.mpr ⟨hfits, hzero⟩,
      hspent.mpr ⟨(sum_filter_le outs).trans_lt hfits, hzero'⟩⟩

/-- There is nothing to cancel when the check takes each output for what it has. -/
theorem errorsCancel_of_added_eq {outs : List CountedOutput}
    (h : ∀ out ∈ outs, out.added = out.amount) : ErrorsCancel outs := by
  have hzero : ∀ outs' : List CountedOutput, (∀ out ∈ outs', out ∈ outs) →
      (outs'.map CountedOutput.error).sum = 0 := by
    intro outs' hsub
    apply List.sum_eq_zero
    intro error herror
    obtain ⟨out, hout, rfl⟩ := List.mem_map.mp herror
    rw [CountedOutput.error, h out (hsub out hout), UInt64.sub_self]
  exact ⟨hzero outs fun _ hout => hout, hzero _ fun _ hout => List.mem_of_mem_filter hout⟩

theorem output_of_counts {committed : Key → UInt64} {items : List ReserveItem}
    {outs : List CountedOutput}
    (h : List.Forall₂ (ReserveItem.Counts ops cfg committed) items outs) :
    outs.map CountedOutput.output = items.map fun item => item.proof.output := by
  induction h with
  | nil => rfl
  | cons hcounts _ ih => rw [List.map_cons, List.map_cons, ih, hcounts.1]

theorem reserveItems_proofs {daemon : Daemon} {proofs : List ReserveProofEntry}
    {items : List ReserveItem} (h : reserveItems daemon proofs = .ok items) :
    items.map ReserveItem.proof = proofs := by
  obtain ⟨txs, -, h⟩ := bind_eq_ok.mp h
  obtain ⟨_, htxs, h⟩ := bind_eq_ok.mp h
  obtain ⟨spentStatus, -, h⟩ := bind_eq_ok.mp h
  obtain ⟨_, hspent, h⟩ := bind_eq_ok.mp h
  have htxs' := not_not.mp (throwIf_eq_ok.mp htxs)
  have hspent' := not_not.mp (throwIf_eq_ok.mp hspent)
  obtain rfl := Except.ok.inj h
  rw [List.map_map]
  exact List.map_fst_zip (by simp [htxs', hspent'])

/-- An accepted proof: its sums are those of distinct outputs exactly when no two entries name one
output, the amounts fit into the word together, and what is decoded for them adds up to them. The
last is so when each decoded amount is the one that the commitment is made for. -/
theorem checkReserveProof_sound_iff (committed : Key → UInt64) {daemon : Daemon}
    {decodeProof : List Char → Option ReserveProof} {address : AccountPublicAddress}
    {message : List UInt8} {sigStr : List Char} {total spent : UInt64}
    (h : checkReserveProof ops cfg daemon decodeProof address message sigStr =
      .ok (true, total, spent)) :
    ∃ sig items outs, decodeProof (sigStr.drop reserveProofHeader.length) = some sig ∧
      reserveItems daemon sig.proofs = .ok items ∧
      List.Forall₂ (ReserveItem.Counts ops cfg committed) items outs ∧
      (SoundReserve outs total spent ↔
        (sig.proofs.map ReserveProofEntry.output).Nodup ∧
          (outs.map fun out => out.amount.toNat).sum < 2 ^ 64 ∧ ErrorsCancel outs) ∧
      ((∀ out ∈ outs, out.added = out.amount) → ErrorsCancel outs) := by
  obtain ⟨_, -, h⟩ := bind_eq_ok.mp h
  obtain ⟨_, -, h⟩ := bind_eq_ok.mp h
  obtain ⟨_, -, h⟩ := bind_eq_ok.mp h
  obtain ⟨sig, hsig, h⟩ := bind_eq_ok.mp h
  obtain ⟨_, -, h⟩ := bind_eq_ok.mp h
  obtain ⟨items, hitems, h⟩ := bind_eq_ok.mp h
  obtain ⟨⟨good, total', spent'⟩, hloop, h⟩ := bind_eq_ok.mp h
  cases good with
  | false => cases h
  | true =>
      obtain ⟨rfl, rfl⟩ := Prod.mk.inj (Prod.mk.inj (Except.ok.inj h)).2
      obtain ⟨outs, houts, rfl, rfl⟩ := checkEntries_counts committed hloop
      have hnames : outs.map CountedOutput.output =
          sig.proofs.map ReserveProofEntry.output := by
        rw [output_of_counts houts, ← reserveItems_proofs hitems, List.map_map]
        rfl
      refine ⟨sig, items, outs, orThrow_eq_ok.mp hsig, hitems, houts, ?_,
        errorsCancel_of_added_eq⟩
      rw [UInt64.zero_add, UInt64.zero_add, ← hnames]
      exact soundReserve_iff outs

/-! ### A proof with one output twice -/

theorem pubKeyExtra_fits : (1 :: List.replicate 32 (0x22 : UInt8)).length < 2 ^ 64 := by decide

def reserveTx : Transaction :=
  ⟨⟨1, 0, 60, ⟨[.gen 0], gen_fits⟩,
    ⟨[⟨5, .toKey (List.Vector.replicate 32 0x11)⟩, ⟨7, .toKey (List.Vector.replicate 32 0x12)⟩],
      by decide⟩, ⟨1 :: List.replicate 32 0x22, pubKeyExtra_fits⟩⟩, .nil, default, default⟩

def reserveTxid : Hash :=
  hashOfNat 0x757e155eabd2909b3cffcc84cf5e1e5daf65289d525c750ae1e4b5ff0614096b

def reserveOps : ReserveOps where
  cnFastHash := fun m => if m = txToBlob currentConfig reserveTx then reserveTxid else nullHash
  scalarmultInvEight := fun _ => none
  zeroCommit := fun _ => default
  checkTxProof := fun _ _ _ _ _ => true
  checkRingSignature := fun _ _ _ _ => true
  checkSignature := fun _ _ _ => true
  generateKeyDerivation := fun key => some key
  deriveSubaddressPublicKey := fun _ _ _ => List.Vector.replicate 32 0x33
  derivationToScalar := fun derivation _ => derivation
  ecdhDecode := fun tuple _ => tuple

def reserveDaemon : Daemon where
  rpcVersion := some 0x10000
  getTransactions := fun txids =>
    some (txids.map fun _ => ⟨false, some (txToBlob currentConfig reserveTx)⟩)
  isKeyImageSpent := fun images =>
    some (images.map fun image => image = List.Vector.replicate 32 0x77)

def reserveAddress : AccountPublicAddress :=
  ⟨List.Vector.replicate 32 0x33, List.Vector.replicate 32 0x44⟩

def fiveEntry : ReserveProofEntry :=
  ⟨reserveTxid, 0, List.Vector.replicate 32 0x55, List.Vector.replicate 32 0x66, default, default⟩

def sevenEntry : ReserveProofEntry :=
  ⟨reserveTxid, 1, List.Vector.replicate 32 0x56, List.Vector.replicate 32 0x77, default, default⟩

def proofOf (entries : List ReserveProofEntry) : ReserveProof :=
  ⟨entries, [(reserveAddress.spendPublicKey, default)]⟩

theorem counted_reserveTx {committed : Key → UInt64} {proof : ReserveProofEntry} {spent : Bool}
    {out : CountedOutput} (h : ReserveItem.Counts reserveOps currentConfig committed
      ⟨proof, ⟨false, some (txToBlob currentConfig reserveTx)⟩, spent⟩ out)
    (hproof : proof = fiveEntry ∨ proof = sevenEntry) :
    out.added = out.amount ∧ out.amount = if proof = fiveEntry then 5 else 7 := by
  obtain ⟨-, -, txData, tx, derivation, hdata, hparse, -, -, hadded, hamount⟩ := h
  obtain rfl := Option.some.inj hdata
  have htx : (parseAndValidateTxFromBlob reserveOps.toCryptoOps currentConfig
      (txToBlob currentConfig reserveTx)).map (fun tx => (tx.version, tx.vout)) =
        some (1, reserveTx.vout) := by
    decide +kernel
  rw [hparse, Option.map_some, Option.some.injEq, Prod.mk.injEq] at htx
  obtain ⟨hversion, hvout⟩ := htx
  rw [heldAmount, if_pos (.inl hversion), hvout] at hamount
  rw [entryAmount, hvout] at hadded
  rw [← hamount]
  rcases hproof with rfl | rfl
  · exact ⟨(Option.some.inj hadded).symm, rfl⟩
  · exact ⟨(Option.some.inj hadded).symm, rfl⟩

/-- With each output once the total is exact. -/
theorem distinct_entries_sound :
    ∃ outs, List.Forall₂ (ReserveItem.Counts reserveOps currentConfig fun _ => 0)
        [⟨fiveEntry, ⟨false, some (txToBlob currentConfig reserveTx)⟩, false⟩,
          ⟨sevenEntry, ⟨false, some (txToBlob currentConfig reserveTx)⟩, true⟩] outs ∧
      SoundReserve outs 12 7 := by
  have haccepted : checkReserveProof reserveOps currentConfig reserveDaemon
      (fun _ => some (proofOf [fiveEntry, sevenEntry])) reserveAddress [] reserveProofHeader =
        .ok (true, 12, 7) := by
    decide +kernel
  obtain ⟨sig, items, outs, hsig, hitems, houts, hiff, hcancel⟩ :=
    checkReserveProof_sound_iff (fun _ => 0) haccepted
  obtain rfl := Option.some.inj hsig
  obtain rfl := Except.ok.inj hitems
  refine ⟨outs, houts, hiff.mpr ?_⟩
  cases houts with
  | cons hfive hrest =>
      cases hrest with
      | cons hseven hnone =>
          cases hnone
          obtain ⟨hadded, hamount⟩ := counted_reserveTx hfive (.inl rfl)
          obtain ⟨hadded', hamount'⟩ := counted_reserveTx hseven (.inr rfl)
          refine ⟨by decide, ?_, hcancel (by simp [hadded, hadded'])⟩
          simp only [List.map_cons, List.map_nil, hamount, hamount']
          decide

/-- With the entry twice the output of five units counts for ten. -/
theorem repeated_entry_unsound :
    checkReserveProof reserveOps currentConfig reserveDaemon
        (fun _ => some (proofOf [fiveEntry, fiveEntry])) reserveAddress [] reserveProofHeader =
        .ok (true, 10, 0) ∧
      ∀ committed items outs,
        reserveItems reserveDaemon (proofOf [fiveEntry, fiveEntry]).proofs = .ok items →
        List.Forall₂ (ReserveItem.Counts reserveOps currentConfig committed) items outs →
        (∀ out ∈ outs, out.output = fiveEntry.output) ∧ ¬ SoundReserve outs 10 0 := by
  refine ⟨by decide +kernel, fun committed items outs hitems houts => ?_⟩
  have hnames : outs.map CountedOutput.output = [fiveEntry.output, fiveEntry.output] := by
    rw [output_of_counts houts]
    have hproofs := congrArg (List.map ReserveProofEntry.output) (reserveItems_proofs hitems)
    rw [List.map_map] at hproofs
    exact hproofs
  constructor
  · intro out hout
    have hmem := List.mem_map_of_mem (f := CountedOutput.output) hout
    rw [hnames] at hmem
    simpa using hmem
  · intro hsound
    have honce := hsound.once fiveEntry.output
    rw [hnames, List.count_cons_self, List.count_cons_self] at honce
    omega

end XrCoin.Wallet

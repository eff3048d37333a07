import Mathlib
import XrCoin.Wallet.ReserveProof

/-!
`wallet2::sign_multisig_tx`: the part that one signer adds to a set of transactions.

The set comes from another signer. Its transactions are rebuilt by `construct_tx_with_tx_key`,
which is a parameter, as is the arithmetic of scalars. A call is followed with the nonces that go
into signature equations, also where it throws later on. What a call that throws leaves of the
wallet and of the set is not modelled.
-/

namespace XrCoin.Wallet

open Archive Cryptonote Data

/-! ### Calls that use nonces -/

/-- What a call returns or throws, and the nonces it used, each with its transfer. -/
structure Signing (α : Type) where
  result : Except String α
  uses : List (ℕ × Key)

namespace Signing

variable {α β : Type}

protected def pure (a : α) : Signing α := ⟨.ok a, []⟩

protected def bind (x : Signing α) (f : α → Signing β) : Signing β :=
  match x.result with
  | .error e => ⟨.error e, x.uses⟩
  | .ok a => ⟨(f a).result, x.uses ++ (f a).uses⟩

instance : Monad Signing where
  pure := Signing.pure
  bind := Signing.bind

/-- A part that uses no nonce. -/
def lift (x : Except String α) : Signing α := ⟨x, []⟩

def use (nonces : List (ℕ × Key)) : Signing Unit := ⟨.ok (), nonces⟩

structure Follows (x : Signing α) (plan : List (Except String (ℕ × Key))) : Prop where
  uses_start : x.uses.map Except.ok <+: plan
  uses_eq : ∀ a, x.result = .ok a → x.uses.map Except.ok = plan

theorem follows_pure (a : α) : (pure a : Signing α).Follows [] := ⟨List.prefix_rfl, fun _ _ => rfl⟩

theorem follows_lift (x : Except String α) : (lift x).Follows [] := ⟨List.prefix_rfl, fun _ _ => rfl⟩

theorem follows_use (nonces : List (ℕ × Key)) : (use nonces).Follows (nonces.map Except.ok) :=
  ⟨List.prefix_rfl, fun _ _ => rfl⟩

theorem Follows.bind {x : Signing α} {f : α → Signing β} {plan rest : List (Except String (ℕ × Key))}
    (hx : x.Follows plan) (hf : ∀ a, x.result = .ok a → (f a).Follows rest) :
    (x >>= f).Follows (plan ++ rest) := by
  show (Signing.bind x f).Follows _
  cases hresult : x.result with
  | error e =>
      simp only [Signing.bind, hresult]
      exact ⟨hx.uses_start.trans (List.prefix_append plan rest), fun _ h => by cases h⟩
  | ok a =>
      have hfa := hf a hresult
      have hplan := hx.uses_eq a hresult
      simp only [Signing.bind, hresult]
      constructor
      · rw [List.map_append, hplan, List.prefix_append_right_inj]
        exact hfa.uses_start
      · intro b hb
        rw [List.map_append, hplan, hfa.uses_eq b hb]

/-- A part that uses no nonce does not change the plan of the rest. -/
theorem Follows.lift_bind {x : Except String α} {f : α → Signing β}
    {plan : List (Except String (ℕ × Key))} (hf : ∀ a, x = .ok a → (f a).Follows plan) :
    (lift x >>= f).Follows plan :=
  (follows_lift x).bind hf

/-- A call that throws without having used a nonce. -/
theorem follows_error (e : String) (plan : List (Except String (ℕ × Key))) :
    (lift (.error e) : Signing α).Follows plan :=
  ⟨List.nil_prefix, fun _ h => by cases h⟩

theorem bind_result_eq_ok {x : Signing α} {f : α → Signing β} {b : β} :
    (x >>= f).result = .ok b ↔ ∃ a, x.result = .ok a ∧ (f a).result = .ok b := by
  show (Signing.bind x f).result = .ok b ↔ _
  cases hresult : x.result with
  | error e => simp [Signing.bind, hresult]
  | ok a => simp [Signing.bind, hresult]

end Signing

/-! ### Data -/

structure MultisigSig where
  sigs : RctSig
  bsig : BorromeanSignature
  ignore : Finset PublicKey
  usedL : Finset Key
  signingKeys : Finset PublicKey
  /-- `msout.c`. -/
  msoutC : List Key

structure MultisigPendingTx (δ : Type) where
  tx : Transaction
  multisigSigs : List MultisigSig
  /-- `construction_data.selected_transfers`. -/
  selectedTransfers : List ℕ
  txKey : SecretKey
  additionalTxKeys : List SecretKey
  /-- What only the construction looks at. -/
  constructionData : δ

structure MultisigTxSet (δ : Type) where
  ptx : List (MultisigPendingTx δ)
  signers : Finset PublicKey

structure MultisigWallet where
  multisig : Bool
  threshold : ℕ
  spendSecretKey : SecretKey
  multisigKeys : List SecretKey
  storeTxInfo : Bool
  txKeys : List (Hash × SecretKey × List SecretKey)
  /-- `m_multisig_k` of every transfer. -/
  multisigK : List (List Key)

structure ConstructedTx where
  version : UInt64
  prefixHash : Hash
  /-- `real_output` of every source. -/
  indices : List ℕ

structure MultisigOps (δ : Type) extends CryptoOps where
  secretKeyToPublicKey : SecretKey → Option PublicKey
  scalarmultBase : Key → Key
  scAdd : Key → Key → Key
  /-- `sc_mulsub(a, b, c)`: the third less the product of the others. -/
  scMulsub : Key → Key → Key → Key
  constructTxWithTxKey : MultisigWallet → MultisigPendingTx δ → Option ConstructedTx

variable {δ : Type} (ops : MultisigOps δ) (cfg : Config)

/-! ### Keys -/

def getMultisigSigningPublicKey (w : MultisigWallet) (msk : SecretKey) :
    Except String PublicKey := do
  throwIf (w.multisig = false) "Wallet is not multisig"
  orThrow (ops.secretKeyToPublicKey msk) "Failed to derive public key"

def getMultisigSignerPublicKey (w : MultisigWallet) : Except String PublicKey := do
  throwIf (w.multisig = false) "Wallet is not multisig"
  orThrow (ops.secretKeyToPublicKey w.spendSecretKey) "Failed to generate signer public key"

/-- The first nonce of a transfer whose commitment the set names. -/
def getMultisigK (w : MultisigWallet) (idx : ℕ) (usedL : Finset Key) : Except String Key := do
  throwIf (w.multisig = false) "Wallet is not multisig"
  let multisigK ← orThrow w.multisigK[idx]? "idx out of range"
  orThrow (multisigK.find? fun k => decide (ops.scalarmultBase k ∈ usedL))
    "multisig_export_needed"

def getMultisigKs (w : MultisigWallet) (usedL : Finset Key) :
    List ℕ → Except String (List (ℕ × Key))
  | [] => .ok []
  | idx :: selected => do
      let k ← getMultisigK ops w idx usedL
      let ks ← getMultisigKs w usedL selected
      return (idx, k) :: ks

/-- The sum of the keys that have not signed yet, and the keys that have afterwards. -/
def addSigningKeys (w : MultisigWallet) :
    List SecretKey → Key → Finset PublicKey → Except String (Key × Finset PublicKey)
  | [], skey, signingKeys => .ok (skey, signingKeys)
  | msk :: msks, skey, signingKeys => do
      let pmsk ← getMultisigSigningPublicKey ops w msk
      if pmsk ∈ signingKeys then addSigningKeys w msks skey signingKeys
      else addSigningKeys w msks (ops.scAdd skey msk) (insert pmsk signingKeys)

/-! ### The equations -/

def modifyVector {α : Type} (v : StdVector α) (n : ℕ) (f : α → α) : StdVector α :=
  ⟨v.toList.modify n f, by rw [List.length_modify]; exact v.size_lt⟩

/-- The numbers of one equation: the place of the real output, the nonce and the challenge. -/
structure SignRow where
  index : ℕ
  k : Key
  c : Key

def signRows (indices : List ℕ) (k c : List Key) : List SignRow :=
  (indices.zip (k.zip c)).map fun p => ⟨p.1, p.2.1, p.2.2⟩

def SignRow.diff (row : SignRow) (skey : Key) : Key := ops.scMulsub row.c skey row.k

def signMultisigRct (rv : RctSig) (indices : List ℕ) (k c : List Key) (skey : Key) :
    Option RctSig :=
  if KnownRctType rv.type ∧ indices.length = k.length ∧
      k.length = rv.p.mgs.toList.length ∧ k.length = c.length ∧
      (rv.type = rctTypeFull → rv.p.mgs.toList.length = 1) ∧
      ∀ p ∈ indices.zip rv.p.mgs.toList,
        ∃ line ∈ p.2.ss.toList[p.1]?, line.toList ≠ [] then
    let mgs := (signRows indices k c).zipIdx.foldl (fun mgs p =>
      modifyVector mgs p.2 fun mg =>
        { mg with ss := modifyVector mg.ss p.1.index fun line =>
            modifyVector line 0 fun s => ops.scAdd s (p.1.diff ops skey) }) rv.p.mgs
    some { rv with p := { rv.p with mgs := mgs } }
  else none

def signMultisigBorromean (bsig : BorromeanSignature) (indices : List ℕ) (k c : List Key)
    (skey : Key) : Option BorromeanSignature :=
  if indices.length = k.length ∧ k.length = bsig.r.toList.length ∧ k.length = c.length ∧
      ∀ p ∈ indices.zip bsig.r.toList, p.1 < p.2.toList.length then
    let r := (signRows indices k c).zipIdx.foldl (fun r p =>
      modifyVector r p.2 fun row =>
        modifyVector row p.1.index fun s => ops.scAdd s (p.1.diff ops skey)) bsig.r
    some { bsig with r := r }
  else none

/-! ### The call -/

def signAttempt (w : MultisigWallet) (localSigner : PublicKey) (constructed : ConstructedTx)
    (selectedTransfers : List ℕ) (tx : Transaction) (sig : MultisigSig) :
    Signing (Transaction × MultisigSig) :=
  if localSigner ∈ sig.ignore then pure (tx, sig)
  else do
    let ks ← Signing.lift (getMultisigKs ops w sig.usedL selectedTransfers)
    let (skey, signingKeys) ← Signing.lift
      (addSigningKeys ops w w.multisigKeys (List.Vector.replicate 32 0) sig.signingKeys)
    let k := ks.map Prod.snd
    if constructed.version = 2 then
      match signMultisigRct ops sig.sigs constructed.indices k sig.msoutC skey with
      | none => Signing.lift (.error "Failed signing, transaction likely malformed")
      | some sigs => do
          Signing.use ks
          pure ({ tx with rctSignatures := sigs }, { sig with sigs, signingKeys })
    else
      match signMultisigBorromean ops sig.bsig constructed.indices k sig.msoutC skey with
      | none => Signing.lift (.error "Failed signing, transaction likely malformed")
      | some bsig => do
          Signing.use ks
          pure ({ tx with borromeanSignature := bsig }, { sig with bsig, signingKeys })

def signAttempts (w : MultisigWallet) (localSigner : PublicKey) (constructed : ConstructedTx)
    (selectedTransfers : List ℕ) :
    Transaction → List MultisigSig → Signing (Transaction × List MultisigSig)
  | tx, [] => pure (tx, [])
  | tx, sig :: sigs => do
      let (tx, sig) ← signAttempt ops w localSigner constructed selectedTransfers tx sig
      let (tx, sigs) ← signAttempts w localSigner constructed selectedTransfers tx sigs
      pure (tx, sig :: sigs)

/-- The one attempt that all signers took part in is put into the final transaction. -/
def selectFinal (localSigner : PublicKey) (signers : Finset PublicKey) (version : UInt64)
    (tx : Transaction) (sigs : List MultisigSig) : Except String Transaction :=
  match sigs.filter fun sig =>
      decide (localSigner ∉ sig.ignore ∧ ¬ ∃ key ∈ sig.ignore, key ∈ signers) with
  | [] => .error ("Final signed transaction not found: this transaction was likely made " ++
      "without our export data, so we cannot sign it")
  | [sig] =>
      .ok (if version = 2 then { tx with rctSignatures := sig.sigs }
        else { tx with borromeanSignature := sig.bsig })
  | _ => .error "More than one transaction is final"

/-- `m_tx_keys` and `m_additional_tx_keys`, where a hash is inserted once. -/
def insertTxKeys (w : MultisigWallet) (txid : Hash) (ptx : MultisigPendingTx δ) :
    MultisigWallet :=
  if w.storeTxInfo = false ∨ txid ∈ w.txKeys.map Prod.fst then w
  else { w with txKeys := w.txKeys ++ [(txid, ptx.txKey, ptx.additionalTxKeys)] }

def signPendingTx (w : MultisigWallet) (localSigner : PublicKey) (signers : Finset PublicKey)
    (ptx : MultisigPendingTx δ) :
    Signing (MultisigWallet × MultisigPendingTx δ × Option Hash) := do
  Signing.lift (throwIf (ptx.multisigSigs = []) "No signatures found in multisig tx")
  let constructed ← Signing.lift (orThrow (ops.constructTxWithTxKey w ptx) "tx_not_constructed")
  Signing.lift (throwIf (constructed.prefixHash ≠
      getTransactionPrefixHash ops.toCryptoOps cfg ptx.tx.toTransactionPrefix)
    "Transaction prefix does not match data")
  let (tx, multisigSigs) ← signAttempts ops w localSigner constructed ptx.selectedTransfers ptx.tx
    ptx.multisigSigs
  if signers.card + 1 < w.threshold then pure (w, { ptx with tx, multisigSigs }, none)
  else
    let tx ← Signing.lift (selectFinal localSigner signers constructed.version tx multisigSigs)
    let txid := getTransactionHash ops.toCryptoOps cfg tx
    pure (insertTxKeys w txid ptx, { ptx with tx, multisigSigs }, some txid)

def signPendingTxs (localSigner : PublicKey) (signers : Finset PublicKey) :
    MultisigWallet → List (MultisigPendingTx δ) →
      Signing (MultisigWallet × List (MultisigPendingTx δ) × List Hash)
  | w, [] => pure (w, [], [])
  | w, ptx :: ptxs => do
      let (w, ptx, txid) ← signPendingTx ops cfg w localSigner signers ptx
      let (w, ptxs, txids) ← signPendingTxs localSigner signers w ptxs
      pure (w, ptx :: ptxs, txid.toList ++ txids)

def clearMultisigK (multisigK : List (List Key)) (idxs : List ℕ) : List (List Key) :=
  idxs.foldl (fun multisigK idx => multisigK.set idx []) multisigK

/-- The wallet, the set and the hashes of final transactions after a call that returns. -/
def signMultisigTx (w : MultisigWallet) (exportedTxs : MultisigTxSet δ) :
    Signing (MultisigWallet × MultisigTxSet δ × List Hash) := do
  Signing.lift (throwIf (exportedTxs.ptx = []) "No tx found")
  let localSigner ← Signing.lift (getMultisigSignerPublicKey ops w)
  Signing.lift (throwIf (localSigner ∈ exportedTxs.signers)
    "Transaction already signed by this private key")
  Signing.lift (throwIf (w.threshold < exportedTxs.signers.card)
    "Transaction was signed by too many signers")
  Signing.lift (throwIf (exportedTxs.signers.card = w.threshold)
    "Transaction is already fully signed")
  let (w, ptx, txids) ← signPendingTxs ops cfg localSigner exportedTxs.signers w exportedTxs.ptx
  let idxs := exportedTxs.ptx.flatMap MultisigPendingTx.selectedTransfers
  pure ({ w with multisigK := clearMultisigK w.multisigK idxs },
    ⟨ptx, insert localSigner exportedTxs.signers⟩, txids)

/-! ### The nonces that are looked up -/

def attemptLookups (localSigner : PublicKey) (selectedTransfers : List ℕ) (sig : MultisigSig) :
    List (ℕ × Finset Key) :=
  if localSigner ∈ sig.ignore then [] else selectedTransfers.map fun idx => (idx, sig.usedL)

def pendingTxLookups (localSigner : PublicKey) (ptx : MultisigPendingTx δ) :
    List (ℕ × Finset Key) :=
  ptx.multisigSigs.flatMap (attemptLookups localSigner ptx.selectedTransfers)

/-- What `get_multisig_k` is asked for, over all transactions, attempts and inputs. -/
def nonceLookups (localSigner : PublicKey) (ptxs : List (MultisigPendingTx δ)) :
    List (ℕ × Finset Key) :=
  ptxs.flatMap (pendingTxLookups localSigner)

def lookupNonce (w : MultisigWallet) (lookup : ℕ × Finset Key) : Except String (ℕ × Key) :=
  (getMultisigK ops w lookup.1 lookup.2).map fun k => (lookup.1, k)

theorem getMultisigKs_eq_ok {w : MultisigWallet} {usedL : Finset Key} {selected : List ℕ}
    {ks : List (ℕ × Key)} (h : getMultisigKs ops w usedL selected = .ok ks) :
    ks.map Except.ok = (selected.map fun idx => (idx, usedL)).map (lookupNonce ops w) := by
  induction selected generalizing ks with
  | nil =>
      obtain rfl := Except.ok.inj h
      rfl
  | cons idx selected ih =>
      obtain ⟨k, hk, h⟩ := bind_eq_ok.mp h
      obtain ⟨rest, hrest, h⟩ := bind_eq_ok.mp h
      obtain rfl := Except.ok.inj h
      rw [List.map_cons, List.map_cons, List.map_cons, ih hrest]
      simp [lookupNonce, hk, Except.map]

theorem signAttempt_follows (w : MultisigWallet) (localSigner : PublicKey)
    (constructed : ConstructedTx) (selected : List ℕ) (tx : Transaction) (sig : MultisigSig) :
    (signAttempt ops w localSigner constructed selected tx sig).Follows
      ((attemptLookups localSigner selected sig).map (lookupNonce ops w)) := by
  rw [signAttempt, attemptLookups]
  by_cases hignore : localSigner ∈ sig.ignore
  · rw [if_pos hignore, if_pos hignore]
    exact Signing.follows_pure _
  · rw [if_neg hignore, if_neg hignore]
    apply Signing.Follows.lift_bind
    intro ks hks
    apply Signing.Follows.lift_bind
    rintro ⟨skey, signingKeys⟩ -
    rw [← getMultisigKs_eq_ok ops hks]
    dsimp only
    split_ifs
    · cases signMultisigRct ops sig.sigs constructed.indices (ks.map Prod.snd) sig.msoutC skey with
      | none => exact Signing.follows_error _ _
      | some sigs =>
          rw [← List.append_nil (ks.map Except.ok)]
          exact (Signing.follows_use ks).bind fun _ _ => Signing.follows_pure _
    · cases signMultisigBorromean ops sig.bsig constructed.indices (ks.map Prod.snd) sig.msoutC
          skey with
      | none => exact Signing.follows_error _ _
      | some bsig =>
          rw [← List.append_nil (ks.map Except.ok)]
          exact (Signing.follows_use ks).bind fun _ _ => Signing.follows_pure _

theorem signAttempts_follows (w : MultisigWallet) (localSigner : PublicKey)
    (constructed : ConstructedTx) (selected : List ℕ) (tx : Transaction)
    (sigs : List MultisigSig) :
    (signAttempts ops w localSigner constructed selected tx sigs).Follows
      ((sigs.flatMap (attemptLookups localSigner selected)).map (lookupNonce ops w)) := by
  induction sigs generalizing tx with
  | nil => exact Signing.follows_pure _
  | cons sig sigs ih =>
      rw [List.flatMap_cons, List.map_append]
      apply (signAttempt_follows ops w localSigner constructed selected tx sig).bind
      rintro ⟨tx', sig'⟩ -
      rw [← List.append_nil (List.map _ _)]
      apply (ih tx').bind
      rintro ⟨tx'', sigs'⟩ -
      exact Signing.follows_pure _

theorem signPendingTx_follows (w : MultisigWallet) (localSigner : PublicKey)
    (signers : Finset PublicKey) (ptx : MultisigPendingTx δ) :
    (signPendingTx ops cfg w localSigner signers ptx).Follows
      ((pendingTxLookups localSigner ptx).map (lookupNonce ops w)) := by
  apply Signing.Follows.lift_bind
  intro _ _
  apply Signing.Follows.lift_bind
  intro constructed _
  apply Signing.Follows.lift_bind
  intro _ _
  rw [← List.append_nil (List.map _ _)]
  apply (signAttempts_follows ops w localSigner constructed _ _ _).bind
  rintro ⟨tx, multisigSigs⟩ -
  dsimp only
  split_ifs
  · exact Signing.follows_pure _
  · apply Signing.Follows.lift_bind
    intro tx' _
    exact Signing.follows_pure _

theorem signPendingTx_wallet {w w' : MultisigWallet} {localSigner : PublicKey}
    {signers : Finset PublicKey} {ptx ptx' : MultisigPendingTx δ} {txid : Option Hash}
    (h : (signPendingTx ops cfg w localSigner signers ptx).result = .ok (w', ptx', txid)) :
    w'.multisig = w.multisig ∧ w'.multisigK = w.multisigK := by
  obtain ⟨_, -, h⟩ := Signing.bind_result_eq_ok.mp h
  obtain ⟨_, -, h⟩ := Signing.bind_result_eq_ok.mp h
  obtain ⟨_, -, h⟩ := Signing.bind_result_eq_ok.mp h
  obtain ⟨⟨_, _⟩, -, h⟩ := Signing.bind_result_eq_ok.mp h
  dsimp only at h
  split_ifs at h
  · obtain rfl := (Prod.mk.inj (Except.ok.inj h)).1
    exact ⟨rfl, rfl⟩
  · obtain ⟨_, -, h⟩ := Signing.bind_result_eq_ok.mp h
    obtain rfl := (Prod.mk.inj (Except.ok.inj h)).1
    rw [insertTxKeys]
    split_ifs <;> exact ⟨rfl, rfl⟩

theorem lookupNonce_congr {w w' : MultisigWallet} (hmultisig : w'.multisig = w.multisig)
    (hk : w'.multisigK = w.multisigK) : lookupNonce ops w' = lookupNonce ops w := by
  funext lookup
  simp only [lookupNonce, getMultisigK, hmultisig, hk]

theorem signPendingTxs_follows (localSigner : PublicKey) (signers : Finset PublicKey)
    (w : MultisigWallet) (ptxs : List (MultisigPendingTx δ)) :
    (signPendingTxs ops cfg localSigner signers w ptxs).Follows
      ((nonceLookups localSigner ptxs).map (lookupNonce ops w)) := by
  induction ptxs generalizing w with
  | nil => exact Signing.follows_pure _
  | cons ptx ptxs ih =>
      rw [nonceLookups, List.flatMap_cons, List.map_append]
      apply (signPendingTx_follows ops cfg w localSigner signers ptx).bind
      rintro ⟨w', ptx', txid⟩ hresult
      obtain ⟨hmultisig, hk⟩ := signPendingTx_wallet ops cfg hresult
      rw [← lookupNonce_congr ops hmultisig hk, ← List.append_nil (List.map _ _)]
      apply (ih w').bind
      rintro ⟨w'', ptxs', txids⟩ -
      exact Signing.follows_pure _

theorem signPendingTxs_wallet {w w' : MultisigWallet} {localSigner : PublicKey}
    {signers : Finset PublicKey} {ptxs ptxs' : List (MultisigPendingTx δ)} {txids : List Hash}
    (h : (signPendingTxs ops cfg localSigner signers w ptxs).result = .ok (w', ptxs', txids)) :
    w'.multisigK = w.multisigK := by
  induction ptxs generalizing w w' ptxs' txids with
  | nil =>
      obtain rfl := (Prod.mk.inj (Except.ok.inj h)).1
      rfl
  | cons ptx ptxs ih =>
      obtain ⟨⟨w₁, ptx₁, txid⟩, hptx, h⟩ := Signing.bind_result_eq_ok.mp h
      obtain ⟨⟨w₂, ptxs₂, txids₂⟩, hptxs, h⟩ := Signing.bind_result_eq_ok.mp h
      obtain rfl := (Prod.mk.inj (Except.ok.inj h)).1
      rw [ih hptxs, (signPendingTx_wallet ops cfg hptx).2]

/-! ### Nonces of one call -/

structure NonceSafe (w' : MultisigWallet) (uses : List (ℕ × Key)) : Prop where
  once : ∀ k, (uses.map Prod.snd).count k ≤ 1
  erased : ∀ nonce ∈ uses, w'.multisigK[nonce.1]? = some []

/-- No two lookups of the set find the same nonce. -/
def NoncesApart (w : MultisigWallet) (exportedTxs : MultisigTxSet δ) : Prop :=
  ∀ localSigner, getMultisigSignerPublicKey ops w = .ok localSigner →
    (nonceLookups localSigner exportedTxs.ptx).Pairwise fun a b =>
      ∀ k, getMultisigK ops w a.1 a.2 = .ok k → getMultisigK ops w b.1 b.2 ≠ .ok k

theorem lookupNonce_eq_ok {w : MultisigWallet} {lookup : ℕ × Finset Key} {nonce : ℕ × Key} :
    lookupNonce ops w lookup = .ok nonce ↔
      nonce.1 = lookup.1 ∧ getMultisigK ops w lookup.1 lookup.2 = .ok nonce.2 := by
  rw [lookupNonce]
  cases getMultisigK ops w lookup.1 lookup.2 with
  | error e => simp [Except.map]
  | ok k =>
      obtain ⟨idx, k'⟩ := nonce
      simp only [Except.map, Except.ok.injEq, Prod.mk.injEq]
      tauto

/-- Two answers that are not the same nonce. -/
def AnswersApart (x y : Except String (ℕ × Key)) : Prop :=
  ∀ n m, x = .ok n → y = .ok m → n.2 ≠ m.2

theorem pairwise_ok_iff (uses : List (ℕ × Key)) :
    (uses.map Except.ok).Pairwise AnswersApart ↔ (uses.map Prod.snd).Nodup := by
  rw [List.pairwise_map, List.Nodup, List.pairwise_map]
  simp only [AnswersApart, Except.ok.injEq]
  constructor
  · exact fun h => h.imp fun hne => hne _ _ rfl rfl
  · exact fun h => h.imp fun hne n m hn hm => by rwa [← hn, ← hm]

theorem pairwise_lookups_iff (w : MultisigWallet) (lookups : List (ℕ × Finset Key)) :
    (lookups.map (lookupNonce ops w)).Pairwise AnswersApart ↔
      lookups.Pairwise fun a b =>
        ∀ k, getMultisigK ops w a.1 a.2 = .ok k → getMultisigK ops w b.1 b.2 ≠ .ok k := by
  rw [List.pairwise_map]
  simp only [AnswersApart, lookupNonce_eq_ok]
  constructor
  · exact fun h => h.imp fun hne k ha hb => hne (_, k) (_, k) ⟨rfl, ha⟩ ⟨rfl, hb⟩ rfl
  · exact fun h => h.imp fun hne n m hn hm heq => hne n.2 hn.2 (heq ▸ hm.2)

/-- An index that was erased once stays so. -/
theorem clearMultisigK_keeps {multisigK : List (List Key)} {idx : ℕ}
    (h : multisigK[idx]? = some []) (idxs : List ℕ) :
    (clearMultisigK multisigK idxs)[idx]? = some [] := by
  induction idxs generalizing multisigK with
  | nil => exact h
  | cons idx' idxs ih =>
      apply ih
      rw [List.getElem?_set]
      split_ifs with heq hlt
      · rfl
      · rw [← heq, List.getElem?_eq_none (by omega)] at h
        cases h
      · exact h

theorem clearMultisigK_getElem? {multisigK : List (List Key)} {idxs : List ℕ} {idx : ℕ}
    (hmem : idx ∈ idxs) (hlt : idx < multisigK.length) :
    (clearMultisigK multisigK idxs)[idx]? = some [] := by
  induction idxs generalizing multisigK with
  | nil => cases hmem
  | cons idx' idxs ih =>
      rw [clearMultisigK, List.foldl_cons]
      rcases List.mem_cons.mp hmem with rfl | hmem
      · exact clearMultisigK_keeps (by rw [List.getElem?_set_self hlt]) idxs
      · exact ih hmem (by rwa [List.length_set])

/-- A nonce that is found is one of the transfer, and the set names its commitment. -/
theorem getMultisigK_mem {w : MultisigWallet} {idx : ℕ} {usedL : Finset Key} {k : Key}
    (h : getMultisigK ops w idx usedL = .ok k) :
    ∃ multisigK, w.multisigK[idx]? = some multisigK ∧ k ∈ multisigK ∧
      ops.scalarmultBase k ∈ usedL := by
  obtain ⟨_, -, h⟩ := bind_eq_ok.mp h
  obtain ⟨multisigK, hidx, h⟩ := bind_eq_ok.mp h
  have hfound := orThrow_eq_ok.mp h
  have hnamed := List.find?_some hfound
  exact ⟨multisigK, orThrow_eq_ok.mp hidx, List.mem_of_find?_eq_some hfound, by simpa using hnamed⟩

theorem selected_of_lookup {localSigner : PublicKey} {ptxs : List (MultisigPendingTx δ)}
    {lookup : ℕ × Finset Key} (h : lookup ∈ nonceLookups localSigner ptxs) :
    lookup.1 ∈ ptxs.flatMap MultisigPendingTx.selectedTransfers := by
  obtain ⟨ptx, hptx, h⟩ := List.mem_flatMap.mp h
  obtain ⟨sig, -, h⟩ := List.mem_flatMap.mp h
  rw [attemptLookups] at h
  split_ifs at h
  · cases h
  · obtain ⟨idx, hidx, rfl⟩ := List.mem_map.mp h
    exact List.mem_flatMap.mpr ⟨ptx, hptx, hidx⟩

/-- The call up to the loop over the transactions uses no nonce, and what is behind the loop
neither. -/
theorem signMultisigTx_follows {w : MultisigWallet} (exportedTxs : MultisigTxSet δ)
    {localSigner : PublicKey} (hsigner : getMultisigSignerPublicKey ops w = .ok localSigner) :
    (signMultisigTx ops cfg w exportedTxs).Follows
      ((nonceLookups localSigner exportedTxs.ptx).map (lookupNonce ops w)) := by
  apply Signing.Follows.lift_bind
  intro _ _
  apply Signing.Follows.lift_bind
  intro signer hsigner'
  obtain rfl : localSigner = signer := Except.ok.inj (hsigner.symm.trans hsigner')
  apply Signing.Follows.lift_bind
  intro _ _
  apply Signing.Follows.lift_bind
  intro _ _
  apply Signing.Follows.lift_bind
  intro _ _
  rw [← List.append_nil (List.map _ _)]
  apply (signPendingTxs_follows ops cfg localSigner exportedTxs.signers w exportedTxs.ptx).bind
  rintro ⟨w', ptx', txids⟩ -
  exact Signing.follows_pure _

/-- What a call that returns has of the signer and of the nonces that are left. -/
theorem signMultisigTx_eq_ok {w w' : MultisigWallet} {exportedTxs txs' : MultisigTxSet δ}
    {txids : List Hash}
    (h : (signMultisigTx ops cfg w exportedTxs).result = .ok (w', txs', txids)) :
    (∃ localSigner, getMultisigSignerPublicKey ops w = .ok localSigner) ∧
      w'.multisigK = clearMultisigK w.multisigK
        (exportedTxs.ptx.flatMap MultisigPendingTx.selectedTransfers) := by
  obtain ⟨_, -, h⟩ := Signing.bind_result_eq_ok.mp h
  obtain ⟨localSigner, hsigner, h⟩ := Signing.bind_result_eq_ok.mp h
  obtain ⟨_, -, h⟩ := Signing.bind_result_eq_ok.mp h
  obtain ⟨_, -, h⟩ := Signing.bind_result_eq_ok.mp h
  obtain ⟨_, -, h⟩ := Signing.bind_result_eq_ok.mp h
  obtain ⟨⟨w₁, ptx₁, txids₁⟩, hloop, h⟩ := Signing.bind_result_eq_ok.mp h
  obtain rfl := (Prod.mk.inj (Except.ok.inj h)).1
  refine ⟨⟨localSigner, hsigner⟩, ?_⟩
  show clearMultisigK w₁.multisigK _ = _
  rw [signPendingTxs_wallet ops cfg hloop]

theorem signMultisigTx_erases {w w' : MultisigWallet} {exportedTxs txs' : MultisigTxSet δ}
    {txids : List Hash}
    (h : (signMultisigTx ops cfg w exportedTxs).result = .ok (w', txs', txids)) :
    ∀ nonce ∈ (signMultisigTx ops cfg w exportedTxs).uses,
      w'.multisigK[nonce.1]? = some [] := by
  intro nonce hnonce
  obtain ⟨⟨localSigner, hsigner⟩, hk⟩ := signMultisigTx_eq_ok ops cfg h
  have hplan := (signMultisigTx_follows ops cfg exportedTxs hsigner).uses_start
  have hmem := hplan.subset (List.mem_map_of_mem (f := Except.ok) hnonce)
  obtain ⟨lookup, hlookup, hfound⟩ := List.mem_map.mp hmem
  obtain ⟨hidx, hfound⟩ := (lookupNonce_eq_ok ops).mp hfound
  obtain ⟨_, htransfer, -⟩ := getMultisigK_mem ops hfound
  rw [hk, hidx]
  exact clearMultisigK_getElem? (selected_of_lookup hlookup)
    (List.getElem?_eq_some_iff.mp htransfer).1

/-- Of any call, where the lookups are apart no nonce goes into two equations. -/
theorem signMultisigTx_once {w : MultisigWallet} {exportedTxs : MultisigTxSet δ}
    (h : NoncesApart ops w exportedTxs) :
    ((signMultisigTx ops cfg w exportedTxs).uses.map Prod.snd).Nodup := by
  cases hsigner : getMultisigSignerPublicKey ops w with
  | error e =>
      have huses : (signMultisigTx ops cfg w exportedTxs).Follows [] := by
        apply Signing.Follows.lift_bind
        intro _ _
        rw [hsigner]
        exact Signing.follows_error _ _
      rw [List.map_eq_nil_iff.mp (List.prefix_nil.mp huses.uses_start)]
      exact List.nodup_nil
  | ok localSigner =>
      have hplan := (signMultisigTx_follows ops cfg exportedTxs hsigner).uses_start
      have hapart := (pairwise_lookups_iff ops w _).mpr (h localSigner hsigner)
      exact (pairwise_ok_iff _).mp (hapart.sublist hplan.sublist)

/-- A call that returns is safe exactly when no two lookups find the same nonce. Where they do
not, a call that throws uses no nonce twice either. -/
theorem signMultisigTx_nonceSafe_iff (w : MultisigWallet) (exportedTxs : MultisigTxSet δ) :
    (∀ w' txs' txids, (signMultisigTx ops cfg w exportedTxs).result = .ok (w', txs', txids) →
        (NonceSafe w' (signMultisigTx ops cfg w exportedTxs).uses ↔
          NoncesApart ops w exportedTxs)) ∧
      (NoncesApart ops w exportedTxs →
        ∀ k, ((signMultisigTx ops cfg w exportedTxs).uses.map Prod.snd).count k ≤ 1) := by
  refine ⟨fun w' txs' txids hresult => ⟨fun hsafe localSigner hsigner => ?_, fun hapart => ?_⟩,
    fun hapart => List.nodup_iff_count_le_one.mp (signMultisigTx_once ops cfg hapart)⟩
  · have hplan := (signMultisigTx_follows ops cfg exportedTxs hsigner).uses_eq _ hresult
    rw [← pairwise_lookups_iff, ← hplan, pairwise_ok_iff]
    exact List.nodup_iff_count_le_one.mpr hsafe.once
  · exact ⟨List.nodup_iff_count_le_one.mp (signMultisigTx_once ops cfg hapart),
      signMultisigTx_erases ops cfg hresult⟩

/-- The lookups of a set are apart where all nonces of the wallet are different ones and the
lookups of one transfer name no commitment in common. -/
theorem noncesApart_of_disjoint {w : MultisigWallet} {exportedTxs : MultisigTxSet δ}
    (hnonces : ∀ (i j : ℕ) (ki kj : List Key) (k : Key), w.multisigK[i]? = some ki →
      w.multisigK[j]? = some kj → k ∈ ki → k ∈ kj → i = j)
    (hused : ∀ localSigner, (nonceLookups localSigner exportedTxs.ptx).Pairwise fun a b =>
      a.1 = b.1 → Disjoint a.2 b.2) : NoncesApart ops w exportedTxs := by
  intro localSigner _
  apply (hused localSigner).imp
  intro a b hdisjoint k ha hb
  obtain ⟨ka, hka, hina, hLa⟩ := getMultisigK_mem ops ha
  obtain ⟨kb, hkb, hinb, hLb⟩ := getMultisigK_mem ops hb
  have hidx : a.1 = b.1 := hnonces a.1 b.1 ka kb k hka hkb hina hinb
  exact Finset.disjoint_left.mp (hdisjoint hidx) hLa hLb

/-! ### Two attempts with one commitment -/

def scalar (n : ℕ) : Key :=
  ⟨leBytes 32 (n % (2 ^ 252 + 27742317777372353535851937790883648493)), leBytes_length _ _⟩

def scalarPoint (k : Key) : Option Key :=
  if k = scalar 1 then
    some (hashOfNat 0x5866666666666666666666666666666666666666666666666666666666666666)
  else if k = scalar 2 then
    some (hashOfNat 0xc9a3f86aae465f0e56513864510f3997561fa2c9e85ea21dc2292309f3cd6022)
  else if k = scalar 3 then
    some (hashOfNat 0xd4b4f5784868c3020403246717ec169ff79e26608ea126a1ab69ee77d1b16712)
  else none

def multisigTx : Transaction :=
  ⟨⟨2, 0, 0, ⟨[.toKey 0 ⟨[0], offset_fits⟩ (List.Vector.replicate 32 0x77)], by decide⟩,
    ⟨[⟨0, .toKey (List.Vector.replicate 32 0x11)⟩], by decide⟩,
    ⟨1 :: List.replicate 32 0x22, pubKeyExtra_fits⟩⟩, .nil, default, default⟩

def multisigPrefixHash : Hash :=
  hashOfNat 0x3d1629074720a74dce0f3a2475cb111a12ddd5ac4e617fc3874a8362d668bbda

def multisigOps : MultisigOps Unit where
  cnFastHash := fun m =>
    if m = (saveTransactionPrefix currentConfig multisigTx.toTransactionPrefix).bytes then
      multisigPrefixHash
    else nullHash
  scalarmultInvEight := fun _ => none
  zeroCommit := fun _ => default
  secretKeyToPublicKey := scalarPoint
  scalarmultBase := fun k => (scalarPoint k).getD default
  scAdd := fun a b => scalar (leValue a.val + leValue b.val)
  scMulsub := fun a b c => scalar (leValue c.val + (2 ^ 252 + 27742317777372353535851937790883648493 -
    leValue a.val * leValue b.val % (2 ^ 252 + 27742317777372353535851937790883648493)))
  constructTxWithTxKey := fun _ _ => some ⟨2, multisigPrefixHash, [0]⟩

def multisigWallet : MultisigWallet where
  multisig := true
  threshold := 3
  spendSecretKey := scalar 2
  multisigKeys := [scalar 2]
  storeTxInfo := false
  txKeys := []
  multisigK := [[scalar 1]]

def multisigAttempt (c : ℕ) : MultisigSig where
  sigs :=
    ⟨⟨rctTypeSimple, .nil, .nil, .nil, 0⟩,
      ⟨.nil, .nil, ⟨[⟨⟨[⟨[scalar 5, scalar 7], by decide⟩], by decide⟩, default⟩], by decide⟩, .nil⟩⟩
  bsig := default
  ignore := ∅
  usedL := {hashOfNat 0x5866666666666666666666666666666666666666666666666666666666666666}
  signingKeys := ∅
  msoutC := [scalar c]

def multisigSet (challenges : List ℕ) : MultisigTxSet Unit where
  ptx := [⟨multisigTx, challenges.map multisigAttempt, [0], default, [], ()⟩]
  signers := {List.Vector.replicate 32 0x99}

/-- A wallet with two nonces, and two attempts that name the commitment of one each. -/
def pairedWallet : MultisigWallet := { multisigWallet with multisigK := [[scalar 1, scalar 3]] }

def pairedSet : MultisigTxSet Unit where
  ptx := [⟨multisigTx, [multisigAttempt 3, { multisigAttempt 4 with
    usedL := {hashOfNat 0xd4b4f5784868c3020403246717ec169ff79e26608ea126a1ab69ee77d1b16712} }],
    [0], default, [], ()⟩]
  signers := {List.Vector.replicate 32 0x99}

theorem noncesApart_pairedSet : NoncesApart multisigOps pairedWallet pairedSet := by
  apply noncesApart_of_disjoint
  · intro i j ki kj k hi hj _ _
    have hlast (n : ℕ) (ks : List Key) (h : pairedWallet.multisigK[n]? = some ks) : n = 0 :=
      Nat.lt_one_iff.mp (List.getElem?_eq_some_iff.mp h).1
    rw [hlast i ki hi, hlast j kj hj]
  · intro localSigner
    refine List.pairwise_pair.mpr fun _ => ?_
    decide

theorem two_attempts_nonceSafe :
    ∃ w' txs' txids,
      (signMultisigTx multisigOps currentConfig pairedWallet pairedSet).result =
          .ok (w', txs', txids) ∧
        (signMultisigTx multisigOps currentConfig pairedWallet pairedSet).uses =
          [(0, scalar 1), (0, scalar 3)] ∧
        NonceSafe w' (signMultisigTx multisigOps currentConfig pairedWallet pairedSet).uses := by
  have hok : (signMultisigTx multisigOps currentConfig pairedWallet pairedSet).result.isOk =
      true := by decide
  cases hresult : (signMultisigTx multisigOps currentConfig pairedWallet pairedSet).result with
  | error e =>
      rw [hresult] at hok
      cases hok
  | ok out =>
      obtain ⟨w', txs', txids⟩ := out
      have hiff := (signMultisigTx_nonceSafe_iff multisigOps currentConfig pairedWallet
        pairedSet).1 w' txs' txids hresult
      exact ⟨w', txs', txids, rfl, by decide, hiff.mpr noncesApart_pairedSet⟩

/-- With two attempts that name one commitment, the call returns two responses from one
nonce. -/
theorem repeated_commitment_unsafe :
    (signMultisigTx multisigOps currentConfig multisigWallet
        (multisigSet [3, 4])).result.isOk = true ∧
      ∀ w', ¬ NonceSafe w' (signMultisigTx multisigOps currentConfig multisigWallet
        (multisigSet [3, 4])).uses := by
  refine ⟨by decide, fun w' hsafe => ?_⟩
  have huses : (signMultisigTx multisigOps currentConfig multisigWallet
      (multisigSet [3, 4])).uses = [(0, scalar 1), (0, scalar 1)] := by
    decide
  have honce := hsafe.once (scalar 1)
  rw [huses] at honce
  simp at honce

end XrCoin.Wallet

import XrCoin.Wallet.KeyImageHelper
import XrCoin.Wallet.ScanIndex

/-!
The cache that `process_parsed_blocks` fills for a transaction before it is scanned: the fields of
its extra bytes, its keys and their derivations.

With the cache the additional keys go with every public key, without it with the first one only.
-/

namespace XrCoin.Wallet

open Archive Cryptonote Data

/-! ### The cache -/

structure IsOutData where
  pkey : PublicKey
  derivation : KeyDerivation
  received : List (Option (SubaddressIndex × KeyDerivation))

structure TxCacheData where
  txExtraFields : List TxExtraField
  primary : List IsOutData
  additional : List IsOutData

def TxCacheData.empty : TxCacheData := ⟨[], [], []⟩

def isMiner (tx : Transaction) : Bool :=
  match tx.vin.toList with
  | [.gen _] => true
  | _ => false

/-- The entry of a key that is not derived yet. -/
def newOutData (received : ℕ) (pkey : PublicKey) : IsOutData :=
  ⟨pkey, List.Vector.replicate 32 0, List.replicate received none⟩

def recSize (acc : WalletSettings) (tx : Transaction) : ℕ :=
  if isMiner tx = true ∧ acc.refreshType = .optimizeCoinbase then 1 else tx.vout.toList.length

def additionalKeys (fields : List TxExtraField) : List PublicKey :=
  (fields.findSome? TxExtraField.additionalPubKeys?).getD []

def cacheTxData (acc : WalletSettings) (tx : Transaction) : TxCacheData :=
  let fields := (parseTxExtra tx.extra.toList).1
  if (parseTxExtra tx.extra.toList).2 = false then .empty
  else if (isMiner tx = false ∨ acc.refreshType ≠ .noCoinbase) ∧ tx.vout.toList ≠ [] then
    { txExtraFields := fields
      primary := (fields.filterMap TxExtraField.pubKey?).map (newOutData (recSize acc tx))
      additional := (additionalKeys fields).map (newOutData 0) }
  else ⟨fields, [], []⟩

variable {σ : Type} (ops : ScanOps σ) (cfg : Config) (acc : WalletSettings)

def IsOutData.derive (iod : IsOutData) : IsOutData :=
  { iod with derivation := ops.generateKeyDerivation iod.pkey }

def TxCacheData.derive (cache : TxCacheData) : TxCacheData :=
  { cache with
    primary := cache.primary.map (IsOutData.derive ops)
    additional := cache.additional.map (IsOutData.derive ops) }

/-- The cache that a transaction is scanned with. What it says of the outputs is not asked for. -/
def builtCache (tx : Transaction) : TxCacheData := (cacheTxData acc tx).derive ops

/-! ### Scanning with a cache -/

def TxCacheData.fields (cache : TxCacheData) (tx : Transaction) : List TxExtraField :=
  if cache.txExtraFields = [] then (parseTxExtra tx.extra.toList).1 else cache.txExtraFields

def TxCacheData.derivations (cache : TxCacheData) (tx : Transaction) (key : PublicKey × ℕ) :
    Except String (KeyDerivation × List KeyDerivation) :=
  if cache.primary.isEmpty then
    .ok (ops.generateKeyDerivation key.1,
      if key.2 = 0 then (additionalKeys (cache.fields tx)).map ops.generateKeyDerivation else [])
  else
    match cache.primary[key.2]? with
    | none => .error "tx_cache_data is out of sync"
    | some iod =>
        if key.1 ≠ iod.pkey then .error "tx_cache_data is out of sync"
        else .ok (iod.derivation, cache.additional.map IsOutData.derivation)

/-- The rest of the body of the loop over the keys. -/
def receiveDerived (call : TxCall) (derivation : KeyDerivation) (additional : List KeyDerivation)
    (pkIndex : ℕ) (l : KeyLoop) : Throwing (ScanWallet σ) KeyLoop := do
  let w ← Throwing.get
  let (infos, found, money) ← Throwing.lift (scanKey ops acc call.tx call.minerTx w.subaddresses
    derivation additional l.found l.receipts.money)
  if infos = [] then pure ⟨found, ⟨money, l.receipts.total⟩⟩
  else do
    Throwing.throwIf (call.pool = false ∧ call.tx.vout.toList.length ≠ call.oIndices.length)
      "transactions outputs size not match with daemon response size"
    let receipts ← Throwing.loop (receiveOutput ops acc call pkIndex) infos ⟨money, l.receipts.total⟩
    pure ⟨found, receipts⟩

def receiveKeyFrom (cache : TxCacheData) (call : TxCall) (l : KeyLoop) (key : PublicKey × ℕ) :
    Throwing (ScanWallet σ) KeyLoop := do
  let derivations ← Throwing.lift (cache.derivations ops call.tx key)
  receiveDerived ops acc call derivations.1 derivations.2 key.2 l

def receiveOutputsFrom (cache : TxCacheData) (call : TxCall) : Throwing (ScanWallet σ) Receipts :=
  if call.tx.vout.toList = [] then pure ⟨[], 0⟩
  else do
    let keys := (cache.fields call.tx).filterMap TxExtraField.pubKey?
    let l ← Throwing.loop (receiveKeyFrom ops acc cache call) keys.zipIdx ⟨[], ⟨[], 0⟩⟩
    pure l.receipts

theorem length_padded (id : Pod 8) : (id.val ++ List.replicate 24 0).length = 32 := by
  simp

def paymentIdFrom (fields : List TxExtraField) (tx : Transaction) : Hash :=
  match fields.findSome? TxExtraField.nonce? with
  | none => nullHash
  | some nonce =>
      match getEncryptedPaymentIdFromTxExtraNonce nonce with
      | some encrypted =>
          let key := (fields.filterMap TxExtraField.pubKey?).getLast?.getD nullPkey
          if tx.vout.toList = [] ∨ key = nullPkey then nullHash
          else
            match ops.decryptPaymentId encrypted key with
            | some id => ⟨id.val ++ List.replicate 24 0, length_padded id⟩
            | none => nullHash
      | none => (getPaymentIdFromTxExtraNonce nonce).getD nullHash

def recordPaymentsFrom (fields : List TxExtraField) (call : TxCall) (spends : Spends)
    (payments : Money) (w : ScanWallet σ) : ScanWallet σ :=
  let paymentId := paymentIdFrom ops fields call.tx
  if call.pool then
    { w with
      unconfirmedPayments := payments.foldl (fun container p =>
        emplaceOrReplace container paymentId ⟨newPayment call spends p, call.doubleSpendSeen⟩)
        w.unconfirmedPayments }
  else
    { w with
      payments := w.payments + payments.map fun p => (paymentId, newPayment call spends p) }

/-- `process_new_transaction` behind the loop over the keys. -/
def settleReceipts (fields : List TxExtraField) (call : TxCall) (receipts : Receipts) :
    Throwing (ScanWallet σ) Unit := do
  let spends ← Throwing.loop (spendInput call) call.tx.vin.toList ⟨0, none, ∅⟩
  Throwing.when (0 < spends.sum ∧ call.pool = false)
    (Throwing.modify (recordOutgoing call spends receipts.money))
  let payments := incoming spends receipts.money
  Throwing.when (payments ≠ []) do
    Throwing.throwIf (receipts.total ≠ (receipts.money.map Prod.snd).sum)
      "Consistency failure in amounts received"
    Throwing.modify (recordPaymentsFrom ops fields call spends payments)

def processNewTransactionFrom (cache : TxCacheData) (call : TxCall) :
    Throwing (ScanWallet σ) Unit := do
  Throwing.when (call.minerTx = false ∧ call.pool = false)
    (Throwing.modify (processUnconfirmed acc call))
  let receipts ← receiveOutputsFrom ops acc cache call
  settleReceipts ops (cache.fields call.tx) call receipts

/-! ### What a built cache holds -/

theorem fields_empty (tx : Transaction) :
    TxCacheData.empty.fields tx = (parseTxExtra tx.extra.toList).1 := rfl

theorem fields_builtCache (tx : Transaction) :
    (builtCache ops acc tx).fields tx = (parseTxExtra tx.extra.toList).1 := by
  have hfields : (builtCache ops acc tx).txExtraFields = [] ∨
      (builtCache ops acc tx).txExtraFields = (parseTxExtra tx.extra.toList).1 := by
    simp only [builtCache, TxCacheData.derive, cacheTxData]
    split_ifs
    · exact .inl rfl
    · exact .inr rfl
    · exact .inr rfl
  rw [TxCacheData.fields]
  split_ifs with hempty
  · rfl
  · exact hfields.resolve_left hempty

/-- The keys of a cache that has some are those of the transaction, derived. -/
theorem builtCache_of_primary {tx : Transaction} (h : (builtCache ops acc tx).primary ≠ []) :
    (builtCache ops acc tx).primary = ((txPubKeys tx).map (newOutData (recSize acc tx))).map
        (IsOutData.derive ops) ∧
      (builtCache ops acc tx).additional.map IsOutData.derivation =
        (additionalKeys (parseTxExtra tx.extra.toList).1).map ops.generateKeyDerivation := by
  simp only [builtCache, TxCacheData.derive, cacheTxData] at h ⊢
  split_ifs at h ⊢
  · exact absurd rfl h
  · refine ⟨rfl, ?_⟩
    rw [List.map_map, List.map_map]
    rfl
  · exact absurd rfl h

def allDerivations (tx : Transaction) : List KeyDerivation :=
  (additionalKeys (parseTxExtra tx.extra.toList).1).map ops.generateKeyDerivation

theorem derivations_empty (tx : Transaction) (key : PublicKey × ℕ) :
    TxCacheData.empty.derivations ops tx key =
      .ok (ops.generateKeyDerivation key.1, if key.2 = 0 then allDerivations ops tx else []) := rfl

theorem derivations_builtCache {tx : Transaction} {key : PublicKey × ℕ}
    (hkey : key ∈ (txPubKeys tx).zipIdx) :
    (builtCache ops acc tx).derivations ops tx key =
      .ok (ops.generateKeyDerivation key.1,
        if (builtCache ops acc tx).primary ≠ [] ∨ key.2 = 0 then allDerivations ops tx else []) := by
  rw [TxCacheData.derivations]
  by_cases hprimary : (builtCache ops acc tx).primary = []
  · simp only [hprimary, List.isEmpty_nil, if_true, ne_eq, not_true_eq_false, false_or,
      fields_builtCache]
    rfl
  · obtain ⟨hkeys, hadditional⟩ := builtCache_of_primary ops acc hprimary
    have hget : (builtCache ops acc tx).primary[key.2]? =
        some ((newOutData (recSize acc tx) key.1).derive ops) := by
      rw [hkeys, List.getElem?_map, List.getElem?_map, List.mem_zipIdx_iff_getElem?.mp hkey]
      rfl
    have hmatch : ¬key.1 ≠ ((newOutData (recSize acc tx) key.1).derive ops).pkey :=
      not_not.mpr rfl
    have hempty : ¬(builtCache ops acc tx).primary.isEmpty = true := by
      rwa [List.isEmpty_iff]
    rw [if_neg hempty, hget]
    simp only
    rw [if_neg hmatch, if_pos (.inl hprimary), hadditional]
    rfl

theorem receiveKeyFrom_of_derivations {cache : TxCacheData} {call : TxCall} {l : KeyLoop}
    {key : PublicKey × ℕ} {additional : List KeyDerivation}
    (h : cache.derivations ops call.tx key = .ok (ops.generateKeyDerivation key.1, additional)) :
    receiveKeyFrom ops acc cache call l key =
      receiveDerived ops acc call (ops.generateKeyDerivation key.1) additional key.2 l := by
  rw [receiveKeyFrom, h]
  rfl

/-! ### Where the cache makes a difference -/

/-- The outputs that are looked at for a key without additional ones. -/
def examined (call : TxCall) (subaddresses : σ) (derivation : KeyDerivation) (found : List ℕ) :
    List (TxOut × ℕ) :=
  let outs := call.tx.vout.toList.zipIdx
  if call.minerTx = false ∨ acc.refreshType = .full then outs
  else if acc.refreshType = .noCoinbase then []
  else
    match outs with
    | [] => []
    | (out, i) :: _ =>
        match checkAccOutPrecompOnce ops subaddresses derivation [] found i out with
        | .ok (some _) => outs
        | _ => outs.take 1

/-- None of the outputs that are looked at, and were not found before, is for the wallet by its
additional key alone. -/
def NoneByAdditional (call : TxCall) (subaddresses : σ) (derivation : KeyDerivation)
    (found : List ℕ) : Prop :=
  ∀ p ∈ examined ops acc call subaddresses derivation found, p.2 ∉ found → ∀ key additional,
    p.1.key? = some key → (allDerivations ops call.tx)[p.2]? = some additional →
      ops.findSubaddress subaddresses (ops.deriveSubaddressPublicKey key derivation p.2) = none →
        ops.findSubaddress subaddresses (ops.deriveSubaddressPublicKey key additional p.2) = none

/-- At each key after the first, in the state that the keys before it leave. -/
def LateKeysSettled (call : TxCall) : List (PublicKey × ℕ) → KeyLoop → ScanWallet σ → Prop
  | [], _, _ => True
  | key :: keys, l, w =>
      (key.2 ≠ 0 →
        NoneByAdditional ops acc call w.subaddresses (ops.generateKeyDerivation key.1) l.found) ∧
      ∀ l' w', receiveKeyFrom ops acc .empty call l key w = (.ok l', w') →
        LateKeysSettled call keys l' w'

def beforeKeys (call : TxCall) (w : ScanWallet σ) : ScanWallet σ :=
  if call.minerTx = false ∧ call.pool = false then processUnconfirmed acc call w else w

/-- The cache has no keys, or no key after the first finds an output by an additional key. -/
def CacheHarmless (call : TxCall) (w : ScanWallet σ) : Prop :=
  (cacheTxData acc call.tx).primary = [] ∨
    LateKeysSettled ops acc call (txPubKeys call.tx).zipIdx ⟨[], ⟨[], 0⟩⟩ (beforeKeys acc call w)

variable {ops acc}

/-- An output is for the wallet with the additional keys exactly if it is without them. -/
def Agrees (ops : ScanOps σ) (subaddresses : σ) (derivation : KeyDerivation)
    (additional : List KeyDerivation) (found : List ℕ) (p : TxOut × ℕ) : Prop :=
  p.2 ∉ found → ∀ key, p.1.key? = some key →
    isOutToAccPrecomp ops subaddresses key derivation additional p.2 =
      isOutToAccPrecomp ops subaddresses key derivation [] p.2

theorem NoneByAdditional.agrees {call : TxCall} {subaddresses : σ} {derivation : KeyDerivation}
    {found : List ℕ} (h : NoneByAdditional ops acc call subaddresses derivation found)
    {p : TxOut × ℕ} (hp : p ∈ examined ops acc call subaddresses derivation found) :
    Agrees ops subaddresses derivation (allDerivations ops call.tx) found p := by
  intro hfound key hkey
  rw [isOutToAccPrecomp, isOutToAccPrecomp]
  cases hown : ops.findSubaddress subaddresses
      (ops.deriveSubaddressPublicKey key derivation p.2) with
  | some index => rfl
  | none =>
      cases hadditional : (allDerivations ops call.tx)[p.2]? with
      | none => rfl
      | some additional =>
          have hnone := h p hp hfound key additional hkey hadditional hown
          simp [hnone]

theorem Agrees.checkAccOutPrecompOnce_eq {subaddresses : σ} {derivation : KeyDerivation}
    {additional : List KeyDerivation} {found found' : List ℕ} {out : TxOut} {i : ℕ}
    (h : Agrees ops subaddresses derivation additional found (out, i)) (hfound : found ⊆ found') :
    checkAccOutPrecompOnce ops subaddresses derivation additional found' i out =
      checkAccOutPrecompOnce ops subaddresses derivation [] found' i out := by
  rw [checkAccOutPrecompOnce, checkAccOutPrecompOnce]
  split_ifs with hmem
  · rfl
  · cases hkey : out.key? with
    | none => rfl
    | some key =>
        have hnew : i ∉ found := fun hold => hmem (hfound hold)
        exact congrArg Except.ok (h hnew key hkey)

theorem scanOutputs_congr {tx : Transaction} {minerTx : Bool} {subaddresses : σ}
    {derivation : KeyDerivation} {additional : List KeyDerivation} {found : List ℕ}
    {outs : List (TxOut × ℕ)}
    (h : ∀ p ∈ outs, Agrees ops subaddresses derivation additional found p) {found' : List ℕ}
    (hfound : found ⊆ found') (money : Money) :
    scanOutputs ops acc tx minerTx subaddresses derivation additional outs found' money =
      scanOutputs ops acc tx minerTx subaddresses derivation [] outs found' money := by
  induction outs generalizing found' money with
  | nil => rfl
  | cons p outs ih =>
      obtain ⟨out, i⟩ := p
      rw [List.forall_mem_cons] at h
      rw [scanOutputs, scanOutputs, h.1.checkAccOutPrecompOnce_eq hfound]
      have hrest := fun (found₂ : List ℕ) (hsub : found ⊆ found₂) (money : Money) =>
        ih h.2 hsub money
      cases hcheck : checkAccOutPrecompOnce ops subaddresses derivation [] found' i out with
      | error e => rfl
      | ok received =>
          cases received with
          | none => exact hrest found' hfound money
          | some received =>
              simp only [bind, Except.bind]
              cases scanOutput ops acc tx minerTx i out received.1 received.2 money with
              | error e => rfl
              | ok scanned =>
                  simp only [hrest (i :: found') (List.subset_cons_of_subset i hfound)]

theorem scanKey_congr {call : TxCall} {subaddresses : σ} {derivation : KeyDerivation}
    {found : List ℕ} (h : NoneByAdditional ops acc call subaddresses derivation found)
    (money : Money) :
    scanKey ops acc call.tx call.minerTx subaddresses derivation (allDerivations ops call.tx) found
        money =
      scanKey ops acc call.tx call.minerTx subaddresses derivation [] found money := by
  have hagrees := fun p (hp : p ∈ examined ops acc call subaddresses derivation found) =>
    h.agrees hp
  simp only [examined] at hagrees
  simp only [scanKey]
  by_cases hall : call.minerTx = false ∨ acc.refreshType = .full
  · rw [if_pos hall] at hagrees
    rw [if_pos hall, if_pos hall]
    exact scanOutputs_congr hagrees (List.Subset.refl _) money
  rw [if_neg hall] at hagrees
  rw [if_neg hall, if_neg hall]
  by_cases hnone : acc.refreshType = .noCoinbase
  · rw [if_pos hnone, if_pos hnone]
  rw [if_neg hnone] at hagrees
  rw [if_neg hnone, if_neg hnone]
  -- the others are looked at if the first one is for the wallet
  cases houts : call.tx.vout.toList.zipIdx with
  | nil => rfl
  | cons p outs =>
      obtain ⟨out, i⟩ := p
      simp only [houts] at hagrees
      have hfirst : Agrees ops subaddresses derivation (allDerivations ops call.tx) found (out, i) := by
        apply hagrees
        split
        · exact List.mem_cons_self
        · exact List.mem_cons_self
      simp only
      rw [hfirst.checkAccOutPrecompOnce_eq (List.Subset.refl _)]
      cases hcheck : checkAccOutPrecompOnce ops subaddresses derivation [] found i out with
      | error e => rfl
      | ok received =>
          cases received with
          | none => rfl
          | some received =>
              simp only [hcheck] at hagrees
              simp only [bind, Except.bind]
              exact scanOutputs_congr hagrees (List.Subset.refl _) money

theorem receiveDerived_congr {call : TxCall} {derivation : KeyDerivation} {pkIndex : ℕ}
    {l : KeyLoop} {w : ScanWallet σ}
    (h : NoneByAdditional ops acc call w.subaddresses derivation l.found) :
    receiveDerived ops acc call derivation (allDerivations ops call.tx) pkIndex l w =
      receiveDerived ops acc call derivation [] pkIndex l w := by
  rw [receiveDerived, receiveDerived, Throwing.get_bind, Throwing.get_bind,
    scanKey_congr h]

theorem receiveKeys_congr {call : TxCall} {keys : List (PublicKey × ℕ)} {l : KeyLoop}
    {w : ScanWallet σ} (hkeys : ∀ key ∈ keys, key ∈ (txPubKeys call.tx).zipIdx)
    (h : (builtCache ops acc call.tx).primary = [] ∨ LateKeysSettled ops acc call keys l w) :
    Throwing.loop (receiveKeyFrom ops acc (builtCache ops acc call.tx) call) keys l w =
      Throwing.loop (receiveKeyFrom ops acc .empty call) keys l w := by
  induction keys generalizing l w with
  | nil => rfl
  | cons key keys ih =>
      rw [List.forall_mem_cons] at hkeys
      have hsame : receiveKeyFrom ops acc (builtCache ops acc call.tx) call l key w =
          receiveKeyFrom ops acc .empty call l key w := by
        rw [receiveKeyFrom_of_derivations ops acc (derivations_builtCache ops acc hkeys.1),
          receiveKeyFrom_of_derivations ops acc (derivations_empty ops call.tx key)]
        by_cases hindex : key.2 = 0
        · rw [if_pos (.inr hindex), if_pos hindex]
        · rw [if_neg hindex]
          rcases h with hprimary | hsettled
          · rw [if_neg (not_or.mpr ⟨not_not.mpr hprimary, hindex⟩)]
          · split_ifs
            · exact receiveDerived_congr (hsettled.1 hindex)
            · rfl
      rw [Throwing.loop, Throwing.loop]
      rcases hresult : receiveKeyFrom ops acc .empty call l key w with ⟨e | l', w'⟩
      · rw [Throwing.bind_of_error hresult, Throwing.bind_of_error (hsame.trans hresult)]
      · rw [Throwing.bind_of_ok hresult, Throwing.bind_of_ok (hsame.trans hresult)]
        exact ih hkeys.2 (h.imp_right fun hsettled => hsettled.2 l' w' hresult)

theorem primary_builtCache_eq_nil_iff (tx : Transaction) :
    (builtCache ops acc tx).primary = [] ↔ (cacheTxData acc tx).primary = [] :=
  List.map_eq_nil_iff

theorem receiveOutputsFrom_congr {call : TxCall} {w : ScanWallet σ}
    (h : CacheHarmless ops acc call w) :
    receiveOutputsFrom ops acc (builtCache ops acc call.tx) call (beforeKeys acc call w) =
      receiveOutputsFrom ops acc .empty call (beforeKeys acc call w) := by
  rw [receiveOutputsFrom, receiveOutputsFrom]
  split_ifs
  · rfl
  · rw [fields_builtCache, fields_empty]
    apply Throwing.bind_congr_left
    apply receiveKeys_congr fun key hkey => hkey
    exact h.imp_left (primary_builtCache_eq_nil_iff call.tx).mpr

theorem processNewTransactionFrom_eq (cache : TxCacheData) (call : TxCall) (w : ScanWallet σ) :
    processNewTransactionFrom ops acc cache call w =
      (receiveOutputsFrom ops acc cache call >>= settleReceipts ops (cache.fields call.tx) call)
        (beforeKeys acc call w) := by
  rw [processNewTransactionFrom, beforeKeys, Throwing.when]
  split_ifs
  · exact Throwing.modify_bind _ _ _
  · rfl

/-- The cache changes nothing, unless a key after the first finds an output by an additional key. -/
theorem processNewTransaction_cached {call : TxCall} {w : ScanWallet σ}
    (h : CacheHarmless ops acc call w) :
    processNewTransactionFrom ops acc (builtCache ops acc call.tx) call w =
      processNewTransactionFrom ops acc .empty call w := by
  rw [processNewTransactionFrom_eq, processNewTransactionFrom_eq, fields_builtCache, fields_empty]
  exact Throwing.bind_congr_left (receiveOutputsFrom_congr h)

/-! ### When it is harmless -/

theorem lateKeysSettled_of_first {call : TxCall} {keys : List (PublicKey × ℕ)}
    (h : ∀ key ∈ keys, key.2 = 0) (l : KeyLoop) (w : ScanWallet σ) :
    LateKeysSettled ops acc call keys l w := by
  induction keys generalizing l w with
  | nil => trivial
  | cons key keys ih =>
      rw [List.forall_mem_cons] at h
      exact ⟨fun hne => absurd h.1 hne, fun l' w' _ => ih h.2 l' w'⟩

theorem cacheHarmless_of_one_key {call : TxCall} (h : (txPubKeys call.tx).length ≤ 1)
    (w : ScanWallet σ) : CacheHarmless ops acc call w := by
  refine .inr (lateKeysSettled_of_first (fun key hkey => ?_) _ _)
  have hlt := List.snd_lt_of_mem_zipIdx hkey
  omega

/-! ### The scan without caches

`process_new_transaction` of `Scan` is told only whether there is a cache. -/

theorem receiveKey_eq (call : TxCall) (cached : Bool) (l : KeyLoop) (key : PublicKey × ℕ) :
    receiveKey ops acc { call with cached := cached } l key =
      receiveDerived ops acc call (ops.generateKeyDerivation key.1)
        (if cached = true ∨ key.2 = 0 then allDerivations ops call.tx else []) key.2 l := rfl

theorem processNewTransaction_eq (call : TxCall) (cached : Bool) (w : ScanWallet σ) :
    processNewTransaction ops acc { call with cached := cached } w =
      (receiveOutputs ops acc { call with cached := cached } >>=
        settleReceipts ops (parseTxExtra call.tx.extra.toList).1 call) (beforeKeys acc call w) := by
  rw [processNewTransaction, beforeKeys, Throwing.when]
  split_ifs
  · rfl
  · rfl

/-- A cache that has the fields of the transaction, and the derivations of a flag. -/
theorem processNewTransactionFrom_eq_scan {cache : TxCacheData} {call : TxCall} {cached : Bool}
    (hfields : cache.fields call.tx = (parseTxExtra call.tx.extra.toList).1)
    (hderivations : ∀ key ∈ (txPubKeys call.tx).zipIdx, cache.derivations ops call.tx key =
      .ok (ops.generateKeyDerivation key.1,
        if cached = true ∨ key.2 = 0 then allDerivations ops call.tx else []))
    (w : ScanWallet σ) :
    processNewTransactionFrom ops acc cache call w =
      processNewTransaction ops acc { call with cached := cached } w := by
  rw [processNewTransactionFrom_eq, processNewTransaction_eq, hfields, receiveOutputsFrom,
    receiveOutputs, hfields]
  have hloop : Throwing.loop (receiveKeyFrom ops acc cache call) (txPubKeys call.tx).zipIdx =
      Throwing.loop (receiveKey ops acc { call with cached := cached })
        (txPubKeys call.tx).zipIdx := by
    funext l
    refine Throwing.loop_congr (fun key hkey l => ?_) l
    rw [receiveKeyFrom_of_derivations ops acc (hderivations key hkey), receiveKey_eq]
  simp only [txPubKeys] at hloop ⊢
  rw [hloop]

theorem processNewTransactionFrom_builtCache (call : TxCall) (w : ScanWallet σ) :
    processNewTransactionFrom ops acc (builtCache ops acc call.tx) call w =
      processNewTransaction ops acc
        { call with cached := decide ((builtCache ops acc call.tx).primary ≠ []) } w := by
  refine processNewTransactionFrom_eq_scan (fields_builtCache ops acc call.tx)
    (fun key hkey => ?_) w
  simp only [decide_eq_true_eq, derivations_builtCache ops acc hkey]

theorem processNewTransactionFrom_empty (call : TxCall) (w : ScanWallet σ) :
    processNewTransactionFrom ops acc .empty call w =
      processNewTransaction ops acc { call with cached := false } w := by
  refine processNewTransactionFrom_eq_scan (fields_empty call.tx) (fun key _ => ?_) w
  simp only [derivations_empty, Bool.false_eq_true, false_or]

/-! ### Outputs of a block that only the cache finds -/

def derivedKeyOps : ScanOps Unit :=
  { sampleScanOps with
    deriveSubaddressPublicKey := fun key derivation _ => if derivation = key then ownKey 0 else key }

def optimizingSettings : WalletSettings := { sampleSettings with refreshType := .optimizeCoinbase }

/-- A coinbase transaction with outputs of 5, public keys and additional keys. -/
def coinbaseCall (outs keys additional : List UInt8) : TxCall where
  txid := hashOfNat 1
  tx := ⟨⟨2, 0, 0, vectorOf [.gen 5], vectorOf (outs.map fun n => ⟨5, .toKey (plainKey n)⟩),
    vectorOf (keys.flatMap (fun n => 1 :: (plainKey n).toList) ++
      4 :: additional.length.toUInt8 :: additional.flatMap fun n => (plainKey n).toList)⟩, .nil,
      default, default⟩
  oIndices := outs.map fun _ => 0
  height := 5
  ts := 0
  minerTx := true
  pool := false
  doubleSpendSeen := false
  cached := false

/-- Both outputs of a coinbase transaction with one key are found, the second by its additional
key. -/
theorem processNewTransaction_cached_sample :
    processNewTransactionFrom derivedKeyOps optimizingSettings
        (builtCache derivedKeyOps optimizingSettings (coinbaseCall [1, 4] [1] [3, 4]).tx)
        (coinbaseCall [1, 4] [1] [3, 4]) (ScanWallet.empty ()) =
      processNewTransactionFrom derivedKeyOps optimizingSettings .empty
        (coinbaseCall [1, 4] [1] [3, 4]) (ScanWallet.empty ()) :=
  processNewTransaction_cached (cacheHarmless_of_one_key (by decide) _)

/-- With the first output found by the second key, the other is found in the cache only. -/
theorem processNewTransaction_cached_differs :
    processNewTransactionFrom derivedKeyOps optimizingSettings
        (builtCache derivedKeyOps optimizingSettings (coinbaseCall [2, 4] [1, 2] [3, 4]).tx)
        (coinbaseCall [2, 4] [1, 2] [3, 4]) (ScanWallet.empty ()) ≠
      processNewTransactionFrom derivedKeyOps optimizingSettings .empty
        (coinbaseCall [2, 4] [1, 2] [3, 4]) (ScanWallet.empty ()) := by
  intro h
  have htransfers := congrArg (fun result => result.2.transfers.length) h
  revert htransfers
  decide +kernel

end XrCoin.Wallet

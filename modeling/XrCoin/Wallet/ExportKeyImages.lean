import Mathlib
import XrCoin.Wallet.ScanIndex
import XrCoin.Wallet.TransferKeys

/-!
`export_key_images`: the images of the keys of all transfers, each computed again.

The scan keeps the image it computed; the export looks for the key of the transaction and for the
output again, by its own rules. What is found has the same image, since the secret key of an output
is the only one. It may not be found, though the scan found it.
-/

namespace XrCoin.Wallet

open Archive Cryptonote Data

abbrev Signature : Type := Pod 64

variable {σ : Type} (ops : ScanOps σ) (dev : KeyDevice) (ack : AccountKeys)
  (generateRingSignature : Hash → KeyImage → List PublicKey → SecretKey → ℕ → Signature)

/-! ### The export -/

/-- The body of the loop over the transfers. An index beyond the outputs is undefined behaviour. -/
def exportKeyImage (subaddresses : PublicKey → Option SubaddressIndex) (td : TransferDetails) :
    Except String (KeyImage × Signature) := do
  let out ← orThrow td.tx.vout.toList[td.internalOutputIndex]? "undefined"
  let pkey ← orThrow out.key? "Output is not txout_to_key"
  let txPubKey ← getTxPubKeyFromReceivedOuts dev ack subaddresses td
  let (inEphemeral, ki) ← orThrow
    (generateKeyImageHelper dev ack subaddresses pkey txPubKey
      (getAdditionalTxPubKeysFromExtra td.tx.extra.toList) td.internalOutputIndex)
    "Failed to generate key image"
  throwIf (td.keyImageKnown = true ∧ td.keyImagePartial = false ∧ ki ≠ td.keyImage)
    "key_image generated not matched with cached key image"
  throwIf (inEphemeral.pub ≠ pkey)
    "key_image generated ephemeral public key not matched with output_key"
  return (td.keyImage,
    generateRingSignature td.keyImage td.keyImage [pkey] inEphemeral.sec 0)

def exportKeyImages (w : ScanWallet σ) : Except String (List (KeyImage × Signature)) :=
  w.transfers.mapM
    (exportKeyImage dev ack generateRingSignature (ops.findSubaddress w.subaddresses))

/-! ### The scan with a device -/

def deviceOps : ScanOps σ :=
  { ops with
    generateKeyDerivation := recvDerivation dev ack
    deriveSubaddressPublicKey := dev.deriveSubaddressPublicKey
    generateKeyImageHelper := fun key derivation i index =>
      (keyImagePrecomp dev ack key ⟨index, derivation⟩ i).map fun p => (p.1.pub, p.2) }

def OneSecretKey : Prop :=
  ∀ sec sec' pub, dev.secretKeyToPublicKey sec = some pub →
    dev.secretKeyToPublicKey sec' = some pub → sec = sec'

def ImageRecorded (td : TransferDetails) : Prop :=
  ∃ key info i keys, td.publicKey? = some key ∧
    keyImagePrecomp dev ack key info i = some (keys, td.keyImage)

structure ImagesRecorded (w : ScanWallet σ) : Prop where
  recorded : ∀ td ∈ w.transfers, ImageRecorded dev ack td
  pubKeys : ∀ key i, w.pubKeys key = some i →
    ∃ td, w.transfers[i]? = some td ∧ td.publicKey? = some key

variable {ops dev ack generateRingSignature}

theorem keyImagePrecomp_spec (hack : ack.multisigKeys = []) {key : PublicKey}
    {info : SubaddressReceiveInfo} {i : ℕ} {keys : Keypair} {ki : KeyImage}
    (h : keyImagePrecomp dev ack key info i = some (keys, ki)) :
    keys.pub = key ∧ ki = dev.generateKeyImage key keys.sec ∧
      if ack.spendSecretKey = nullSkey then keys.sec = nullSkey
      else dev.secretKeyToPublicKey keys.sec = some key := by
  rw [keyImagePrecomp] at h
  split_ifs at h with hspend
  · obtain ⟨rfl, rfl⟩ := Prod.mk.inj (Option.some.inj h)
    rw [if_pos hspend]
    exact ⟨rfl, rfl, rfl⟩
  all_goals
    dsimp only at h
    rw [ephemeralPublicKey, if_pos hack] at h
    rw [if_neg hspend]
    split at h
    · cases h
    · rename_i pub hpub
      split_ifs at h with hne
      obtain rfl := not_not.mp hne
      obtain ⟨rfl, rfl⟩ := Prod.mk.inj (Option.some.inj h)
      exact ⟨rfl, rfl, hpub⟩

theorem keyImagePrecomp_image (hdev : OneSecretKey dev) (hack : ack.multisigKeys = [])
    {key : PublicKey} {info info' : SubaddressReceiveInfo} {i i' : ℕ} {keys keys' : Keypair}
    {ki ki' : KeyImage} (h : keyImagePrecomp dev ack key info i = some (keys, ki))
    (h' : keyImagePrecomp dev ack key info' i' = some (keys', ki')) : ki = ki' := by
  obtain ⟨-, rfl, hsec⟩ := keyImagePrecomp_spec hack h
  obtain ⟨-, rfl, hsec'⟩ := keyImagePrecomp_spec hack h'
  split_ifs at hsec hsec' with hspend
  · rw [hsec, hsec']
  · rw [hdev _ _ _ hsec hsec']

/-! ### What the scan keeps -/

theorem Scanned.imageRecorded {acc : WalletSettings} (hacc : acc.Full) {tx : Transaction}
    {minerTx : Bool} {info : ScanInfo} (h : Scanned (deviceOps ops dev ack) acc tx minerTx info) :
    tx.vout.toList[info.o]?.bind TxOut.key? = some info.pub ∧
      ∃ received i keys, keyImagePrecomp dev ack info.pub received i = some (keys, info.ki) := by
  obtain ⟨hkey, derivation, index, hopened⟩ := h.opened hacc
  refine ⟨hkey, ⟨index, derivation⟩, info.o, ?_⟩
  obtain ⟨⟨keys, ki⟩, hprecomp, hpair⟩ := Option.map_eq_some_iff.mp hopened
  obtain ⟨-, rfl⟩ := Prod.mk.inj hpair
  exact ⟨keys, hprecomp⟩

theorem ImagesRecorded.modify {w w' : ScanWallet σ} (h : ImagesRecorded dev ack w) {i : ℕ}
    {f : TransferDetails → TransferDetails} (htransfers : w'.transfers = w.transfers.modify i f)
    (hpubKeys : w'.pubKeys = w.pubKeys)
    (hf : ∀ td, w.transfers[i]? = some td →
      (f td).publicKey? = td.publicKey? ∧ (f td).keyImage = td.keyImage) :
    ImagesRecorded dev ack w' := by
  have hat : ∀ (j : ℕ) td, w.transfers[j]? = some td → ∃ td', w'.transfers[j]? = some td' ∧
      td'.publicKey? = td.publicKey? ∧ td'.keyImage = td.keyImage := by
    intro j td htd
    rw [htransfers, List.getElem?_modify, htd]
    by_cases hij : i = j
    · subst hij
      exact ⟨f td, by simp, hf td htd⟩
    · exact ⟨td, by simp [hij], rfl, rfl⟩
  constructor
  · intro td' htd'
    obtain ⟨j, hj⟩ := List.mem_iff_getElem?.mp htd'
    have hlength : j < w.transfers.length := by
      have hlt := (List.getElem?_eq_some_iff.mp hj).1
      rwa [htransfers, List.length_modify] at hlt
    obtain ⟨td, htd, hkey, hki⟩ := hat j _ (List.getElem?_eq_getElem hlength)
    obtain rfl := Option.some.inj (hj.symm.trans htd)
    obtain ⟨key, info, k, keys, hpub, himage⟩ := h.recorded _ (List.getElem_mem hlength)
    exact ⟨key, info, k, keys, hkey.trans hpub, hki ▸ himage⟩
  · intro key j hj
    rw [hpubKeys] at hj
    obtain ⟨td, htd, hkey⟩ := h.pubKeys key j hj
    obtain ⟨td', htd', hkey', -⟩ := hat j td htd
    exact ⟨td', htd', hkey'.trans hkey⟩

theorem imagesRecorded_keptBy {acc : WalletSettings} (hacc : acc.Full) (call : TxCall) :
    KeptBy (deviceOps ops dev ack) acc (ImagesRecorded dev ack) call where
  unconfirmed := by
    intro w _ _ hw
    rw [processUnconfirmed]
    split
    · exact hw
    · exact ⟨hw.recorded, hw.pubKeys⟩
  add := by
    intro w pkIndex info hscanned _ hnew hw
    obtain ⟨hkey, received, i, keys, himage⟩ := hscanned.imageRecorded hacc
    constructor
    · intro td htd
      rcases List.mem_append.mp htd with htd | htd
      · exact hw.recorded td htd
      · obtain rfl := List.mem_singleton.mp htd
        exact ⟨info.pub, received, i, keys, hkey, himage⟩
    · intro key j hj
      simp only [addTransfer] at hj ⊢
      by_cases heq : key = info.pub
      · rw [heq, Function.update_self] at hj
        obtain rfl := Option.some.inj hj
        exact ⟨_, List.getElem?_concat_length, heq ▸ hkey⟩
      · rw [Function.update_of_ne heq] at hj
        obtain ⟨td, htd, htdkey⟩ := hw.pubKeys key j hj
        have hlt := (List.getElem?_eq_some_iff.mp htd).1
        exact ⟨td, by rw [List.getElem?_append_left hlt, htd], htdkey⟩
  replace := by
    intro w pkIndex info i td hscanned _ hknown htd _ _ hw
    obtain ⟨hkey, -⟩ := hscanned.imageRecorded hacc
    refine hw.modify rfl rfl fun td' htd' => ?_
    -- the transfer that is replaced has the same key
    obtain ⟨td₁, htd₁, hkey₁⟩ := hw.pubKeys info.pub i hknown
    obtain rfl := Option.some.inj (htd'.symm.trans htd₁)
    exact ⟨hkey.trans hkey₁.symm, rfl⟩
  spend := by
    intro w amount _ _ i _ _ hw
    refine hw.modify rfl rfl fun td _ => ?_
    have hkeys := setSpentBy_keys call amount td
    exact ⟨congrArg TransferKeys.key hkeys, congrArg TransferKeys.keyImage hkeys⟩
  outgoing := by
    intro w spends money _ hw
    rw [recordOutgoing]
    split
    · exact hw
    · dsimp only
      split_ifs <;> exact ⟨hw.recorded, hw.pubKeys⟩
  payments := by
    intro w spends payments hw
    rw [recordPayments]
    split_ifs <;> exact ⟨hw.recorded, hw.pubKeys⟩

/-! ### What can be exported -/

variable (dev ack) in
/-- What shows an output with a key of its transaction: that key, or else the additional key that
is at the place of the output once those without a derivation are left out. -/
def shownBy (subaddresses : PublicKey → Option SubaddressIndex) (td : TransferDetails)
    (outKey key : PublicKey) : Option SubaddressReceiveInfo :=
  (receiveInfo dev subaddresses outKey td.internalOutputIndex (recvDerivation dev ack key)).or
    (infoOfKey dev ack subaddresses outKey
      (derivableKeys dev ack (getAdditionalTxPubKeysFromExtra td.tx.extra.toList))
      td.internalOutputIndex)

variable (dev ack) in
/-- With a key of its transaction an output is shown, and has the secret key that belongs to it. -/
def Opens (subaddresses : PublicKey → Option SubaddressIndex) (td : TransferDetails)
    (key : PublicKey) : Prop :=
  ∃ outKey info, td.publicKey? = some outKey ∧
    shownBy dev ack subaddresses td outKey key = some info ∧
      (keyImagePrecomp dev ack outKey info td.internalOutputIndex).isSome

variable (dev ack) in
/-- The key of the transaction that is found again opens the output. -/
def Exportable (subaddresses : PublicKey → Option SubaddressIndex) (td : TransferDetails) : Prop :=
  ∃ key, FoundAgain dev ack subaddresses td.tx key ∧ Opens dev ack subaddresses td key

theorem subaddrRecvInfo_eq_shownBy (subaddresses : PublicKey → Option SubaddressIndex)
    (td : TransferDetails) (outKey key : PublicKey) :
    subaddrRecvInfo dev ack subaddresses outKey key
        (getAdditionalTxPubKeysFromExtra td.tx.extra.toList) td.internalOutputIndex =
      shownBy dev ack subaddresses td outKey key := by
  rw [shownBy]
  cases hmain : receiveInfo dev subaddresses outKey td.internalOutputIndex
      (recvDerivation dev ack key) with
  | none => exact subaddrRecvInfo_of_none dev ack subaddresses hmain
  | some info =>
      rw [subaddrRecvInfo, isOutToAcc, hmain]
      rfl

theorem generateKeyImageHelper_eq_some {subaddresses : PublicKey → Option SubaddressIndex}
    {td : TransferDetails} {outKey key : PublicKey} {p : Keypair × KeyImage} :
    generateKeyImageHelper dev ack subaddresses outKey key
        (getAdditionalTxPubKeysFromExtra td.tx.extra.toList) td.internalOutputIndex = some p ↔
      ∃ info, shownBy dev ack subaddresses td outKey key = some info ∧
        keyImagePrecomp dev ack outKey info td.internalOutputIndex = some p := by
  rw [generateKeyImageHelper, subaddrRecvInfo_eq_shownBy]
  cases shownBy dev ack subaddresses td outKey key <;> simp

theorem exportKeyImage_fst {subaddresses : PublicKey → Option SubaddressIndex}
    {td : TransferDetails} {p : KeyImage × Signature}
    (h : exportKeyImage dev ack generateRingSignature subaddresses td = .ok p) :
    p.1 = td.keyImage ∧ Exportable dev ack subaddresses td := by
  obtain ⟨out, hout, h⟩ := bind_eq_ok.mp h
  obtain ⟨pkey, hpkey, h⟩ := bind_eq_ok.mp h
  obtain ⟨txPubKey, hfound, h⟩ := bind_eq_ok.mp h
  obtain ⟨⟨inEphemeral, ki⟩, hhelper, h⟩ := bind_eq_ok.mp h
  obtain ⟨_, -, h⟩ := bind_eq_ok.mp h
  obtain ⟨_, -, h⟩ := bind_eq_ok.mp h
  obtain rfl := Except.ok.inj h
  obtain ⟨info, hshown, hopen⟩ := generateKeyImageHelper_eq_some.mp (orThrow_eq_ok.mp hhelper)
  have hkey : td.publicKey? = some pkey := by
    rw [TransferDetails.publicKey?, orThrow_eq_ok.mp hout]
    exact orThrow_eq_ok.mp hpkey
  exact ⟨rfl, txPubKey, getTxPubKeyFromReceivedOuts_eq_ok.mp hfound, pkey, info, hkey, hshown,
    Option.isSome_iff_exists.mpr ⟨_, hopen⟩⟩

variable (generateRingSignature) in
theorem exportKeyImage_of_exportable (hdev : OneSecretKey dev) (hack : ack.multisigKeys = [])
    {subaddresses : PublicKey → Option SubaddressIndex} {td : TransferDetails}
    (hrecorded : ImageRecorded dev ack td) (h : Exportable dev ack subaddresses td) :
    ∃ p, exportKeyImage dev ack generateRingSignature subaddresses td = .ok p := by
  obtain ⟨txPubKey, hfound, pkey, info, hkey, hshown, hopen⟩ := h
  obtain ⟨⟨keys, ki⟩, hprecomp⟩ := Option.isSome_iff_exists.mp hopen
  obtain ⟨out, hout, hpkey⟩ := Option.bind_eq_some_iff.mp hkey
  -- the image is the one that was recorded
  have hki : ki = td.keyImage := by
    obtain ⟨key, info', i, keys', hkey', himage⟩ := hrecorded
    obtain rfl := Option.some.inj (hkey.symm.trans hkey')
    exact keyImagePrecomp_image hdev hack hprecomp himage
  have hpub : keys.pub = pkey := (keyImagePrecomp_spec hack hprecomp).1
  refine ⟨(td.keyImage, generateRingSignature td.keyImage td.keyImage [pkey] keys.sec 0), ?_⟩
  refine bind_eq_ok.mpr ⟨out, orThrow_eq_ok.mpr hout, ?_⟩
  refine bind_eq_ok.mpr ⟨pkey, orThrow_eq_ok.mpr hpkey, ?_⟩
  refine bind_eq_ok.mpr ⟨txPubKey, getTxPubKeyFromReceivedOuts_eq_ok.mpr hfound, ?_⟩
  refine bind_eq_ok.mpr ⟨(keys, ki), orThrow_eq_ok.mpr ?_, ?_⟩
  · exact generateKeyImageHelper_eq_some.mpr ⟨info, hshown, hprecomp⟩
  · refine bind_eq_ok.mpr ⟨(), throwIf_eq_ok.mpr fun hne => hne.2.2 hki, ?_⟩
    exact bind_eq_ok.mpr ⟨(), throwIf_eq_ok.mpr fun hne => hne hpub, rfl⟩

theorem mapM_exportKeyImage (hdev : OneSecretKey dev) (hack : ack.multisigKeys = [])
    {subaddresses : PublicKey → Option SubaddressIndex} {tds : List TransferDetails}
    (hrecorded : ∀ td ∈ tds, ImageRecorded dev ack td) :
    (∃ ski, tds.mapM (exportKeyImage dev ack generateRingSignature subaddresses) = .ok ski ∧
        ski.map Prod.fst = tds.map TransferDetails.keyImage) ↔
      ∀ td ∈ tds, Exportable dev ack subaddresses td := by
  constructor
  · rintro ⟨ski, hski, -⟩ td htd
    obtain ⟨p, hp⟩ := exists_mapM_eq_ok.mp ⟨ski, hski⟩ td htd
    exact (exportKeyImage_fst hp).2
  · intro h
    obtain ⟨ski, hski⟩ := exists_mapM_eq_ok.mpr fun td htd =>
      exportKeyImage_of_exportable generateRingSignature hdev hack (hrecorded td htd) (h td htd)
    refine ⟨ski, hski, ?_⟩
    have hfst := (mapM_eq_ok.mp hski).imp fun td p hp => (exportKeyImage_fst hp).1.symm
    have himages : List.Forall₂ Eq (tds.map TransferDetails.keyImage) (ski.map Prod.fst) :=
      List.forall₂_map_right_iff.mpr (List.forall₂_map_left_iff.mpr hfst)
    rw [List.forall₂_eq_eq_eq] at himages
    exact himages.symm

/-- The state after a transaction, also where it throws. -/
def scanTransaction (ops : ScanOps σ) (acc : WalletSettings) (w : ScanWallet σ) (call : TxCall) :
    ScanWallet σ := (processNewTransaction ops acc call w).2

theorem imagesRecorded_run {acc : WalletSettings} (hacc : acc.Full) (table : σ)
    (calls : List TxCall) :
    ImagesRecorded dev ack
      (Data.run (scanTransaction (deviceOps ops dev ack) acc) (ScanWallet.empty table) calls) := by
  refine Data.run_invariant _ ⟨by simp [ScanWallet.empty], by simp [ScanWallet.empty]⟩ ?_ calls
  intro w call hw
  exact processNewTransaction_keeps (imagesRecorded_keptBy hacc call) w hw

/-- After every run of a full wallet the images of the scan are exported exactly if of every
transfer the key of the transaction that is found again opens the output. -/
theorem exportKeyImages_iff (hdev : OneSecretKey dev) (hack : ack.multisigKeys = [])
    {acc : WalletSettings} (hacc : acc.Full) (table : σ) (calls : List TxCall) :
    let w := Data.run (scanTransaction (deviceOps ops dev ack) acc) (ScanWallet.empty table) calls
    (∃ ski, exportKeyImages ops dev ack generateRingSignature w = .ok ski ∧
        ski.map Prod.fst = w.transfers.map TransferDetails.keyImage) ↔
      ∀ td ∈ w.transfers, Exportable dev ack (ops.findSubaddress w.subaddresses) td := by
  intro w
  have hw : ImagesRecorded dev ack w := imagesRecorded_run hacc table calls
  exact mapM_exportKeyImage hdev hack hw.recorded

/-! ### An additional key that is none -/

def sampleDeviceOps : ScanOps Unit :=
  { sampleScanOps with findSubaddress := fun _ key => oneSubaddress key }

def noSignature (_ : Hash) (_ : KeyImage) (_ : List PublicKey) (_ : SecretKey) (_ : ℕ) :
    Signature := List.Vector.replicate 64 0

theorem oneSecretKey_plain : OneSecretKey plainDevice := by
  intro sec sec' pub h h'
  exact Option.some.inj (h.trans h'.symm)

/-- A transaction with an output of 5 to the subaddress, public keys and additional keys. -/
def keyedCall (keys additional : List PublicKey) : TxCall where
  txid := hashOfNat 1
  tx := ⟨⟨1, 0, 0, .nil, vectorOf [⟨5, .toKey (plainKey 1)⟩],
    vectorOf (keys.flatMap (fun key => 1 :: key.val) ++
      4 :: additional.length.toUInt8 :: additional.flatMap List.Vector.toList)⟩, .nil, default,
      default⟩
  oIndices := [0]
  height := 5
  ts := 0
  minerTx := false
  pool := false
  doubleSpendSeen := false
  cached := false

def scanOne (keys additional : List PublicKey) : ScanWallet Unit :=
  Data.run (scanTransaction (deviceOps sampleDeviceOps plainDevice plainAccount) sampleSettings)
    (ScanWallet.empty ()) [keyedCall keys additional]

/-- The transfer is exported where the transaction has one public key. -/
theorem exportKeyImages_one :
    (scanOne [plainKey 1] [plainKey 255]).transfers.length = 1 ∧
      ((∃ ski, exportKeyImages sampleDeviceOps plainDevice plainAccount noSignature
          (scanOne [plainKey 1] [plainKey 255]) = .ok ski ∧
          ski.map Prod.fst =
            (scanOne [plainKey 1] [plainKey 255]).transfers.map TransferDetails.keyImage) ↔
        ∀ td ∈ (scanOne [plainKey 1] [plainKey 255]).transfers,
          Exportable plainDevice plainAccount (sampleDeviceOps.findSubaddress
            (scanOne [plainKey 1] [plainKey 255]).subaddresses) td) := by
  constructor
  · decide
  · exact exportKeyImages_iff oneSecretKey_plain rfl ⟨rfl, rfl⟩ ()
      [keyedCall [plainKey 1] [plainKey 255]]

/-- With a second public key the scan finds the output, and the additional key that is no point
stops the export. -/
theorem exportKeyImages_stopped :
    (scanOne [plainKey 1, plainKey 2] [plainKey 255]).transfers.length = 1 ∧
      ¬∃ ski, exportKeyImages sampleDeviceOps plainDevice plainAccount noSignature
        (scanOne [plainKey 1, plainKey 2] [plainKey 255]) = .ok ski ∧
        ski.map Prod.fst =
          (scanOne [plainKey 1, plainKey 2] [plainKey 255]).transfers.map
            TransferDetails.keyImage := by
  constructor
  · decide
  · rintro ⟨ski, hski, -⟩
    have hstopped : (exportKeyImages sampleDeviceOps plainDevice plainAccount noSignature
        (scanOne [plainKey 1, plainKey 2] [plainKey 255])).isOk = false := by decide +kernel
    rw [hski] at hstopped
    cases hstopped

end XrCoin.Wallet

import Mathlib
import XrCoin.Data.Numbering
import XrCoin.Wallet.Payments
import XrCoin.Wallet.TransferKeys

/-!
`import_outputs`: the transfers of a wallet are replaced by those that another wallet exported.

The transfers are cleared first and put back one after the other, while the two indices are only
added to. A throw leaves what was done before it.
-/

namespace XrCoin.Wallet

open Archive Cryptonote Data

structure ImportEnv (σ : Type) where
  dev : KeyDevice
  ack : AccountKeys
  findSubaddress : σ → PublicKey → Option SubaddressIndex
  expandSubaddresses : SubaddressIndex → Throwing σ Unit

namespace ImportEnv

variable {σ : Type} (env : ImportEnv σ)

/-- The key of an output, its ephemeral keys and its image. The index of the output is not
checked: beyond the outputs it is undefined behaviour. -/
def outputKeys (table : σ) (td : TransferDetails) (i : ℕ) :
    Except String (PublicKey × Keypair × KeyImage) := do
  throwIf (td.tx.vout.toList = []) ("tx with no outputs at index " ++ toString i)
  let txPubKey ← getTxPubKeyFromReceivedOuts env.dev env.ack (env.findSubaddress table) td
  let out ← orThrow td.tx.vout.toList[td.internalOutputIndex]? "undefined"
  let outKey ← orThrow out.key? "Unsupported output type"
  let (inEphemeral, keyImage) ← orThrow
    (generateKeyImageHelper env.dev env.ack (env.findSubaddress table) outKey txPubKey
      (getAdditionalTxPubKeysFromExtra td.tx.extra.toList) td.internalOutputIndex)
    "Failed to generate key image"
  return (outKey, inEphemeral, keyImage)

def setKeyImage (keyImage : KeyImage) (td : TransferDetails) : TransferDetails :=
  { td with keyImage, keyImageKnown := true, keyImagePartial := false }

/-- The body of the loop up to the indices: an output with its key image filled in, and its
key. -/
def fillOutput (p : TransferDetails × ℕ) : Throwing σ (PublicKey × TransferDetails) := do
  let table ← Throwing.get
  let (outKey, inEphemeral, keyImage) ← Throwing.lift (env.outputKeys table p.1 p.2)
  env.expandSubaddresses p.1.subaddrIndex
  Throwing.throwIf (inEphemeral.pub ≠ outKey)
    ("key_image generated ephemeral public key not matched with output_key at index " ++
      toString p.2)
  return (outKey, setKeyImage keyImage p.1)

def onSubaddresses {α : Type} (x : Throwing σ α) : Throwing (ScanWallet σ) α := fun w =>
  ((x w.subaddresses).1, { w with subaddresses := (x w.subaddresses).2 })

def pushOutput (p : PublicKey × TransferDetails) (w : ScanWallet σ) : ScanWallet σ :=
  let n := w.transfers.length
  { w with
    keyImages := Function.update w.keyImages p.2.keyImage (some n)
    pubKeys := Function.update w.pubKeys p.1 (some n)
    transfers := w.transfers ++ [p.2] }

def importOutput (_ : Unit) (p : TransferDetails × ℕ) : Throwing (ScanWallet σ) Unit := do
  let filled ← onSubaddresses (env.fillOutput p)
  Throwing.modify (pushOutput filled)

def importOutputs (outputs : List TransferDetails) : Throwing (ScanWallet σ) ℕ := do
  Throwing.modify fun w => { w with transfers := [] }
  Throwing.loop env.importOutput outputs.zipIdx ()
  let w ← Throwing.get
  return w.transfers.length

/-! ### What is imported -/

structure FilledFrom (out td : TransferDetails) : Prop where
  fields : td = setKeyImage td.keyImage out
  image : ∃ table key txPubKey sec, td.publicKey? = some key ∧
    generateKeyImageHelper env.dev env.ack (env.findSubaddress table) key txPubKey
      (getAdditionalTxPubKeysFromExtra td.tx.extra.toList) td.internalOutputIndex =
        some (⟨key, sec⟩, td.keyImage)

structure Imported (outputs : List TransferDetails) (w : ScanWallet σ) : Prop where
  transfers : List.Forall₂ env.FilledFrom outputs w.transfers
  keyImages : (w.transfers.map TransferDetails.publicKey?).Nodup →
    Numbers TransferDetails.keyImage w.transfers w.keyImages
  pubKeys : (w.transfers.map TransferDetails.publicKey?).Nodup →
    ∀ key i, w.pubKeys key = some i ↔ w.transfers[i]?.bind TransferDetails.publicKey? = some key

structure SameTransfers (w w' : ScanWallet σ) : Prop where
  transfers : w'.transfers = w.transfers
  keyImages : w'.keyImages = w.keyImages
  pubKeys : w'.pubKeys = w.pubKeys

/-- An import is exact where it returns and changes no transfer where it throws. -/
def ExactAndAtomic (outputs : List TransferDetails) (w : ScanWallet σ) : Prop :=
  match env.importOutputs outputs w with
  | (.ok n, w') => env.Imported outputs w' ∧ n = outputs.length
  | (.error _, w') => SameTransfers w w'

/-! ### The outputs that are filled in -/

/-- The outputs that are filled in one after the other, and whether none of them throws. -/
def filled (table : σ) : List (TransferDetails × ℕ) → List (PublicKey × TransferDetails) × Bool
  | [] => ([], true)
  | p :: ps =>
      match env.fillOutput p table with
      | (.ok out, table) => (out :: (filled table ps).1, (filled table ps).2)
      | (.error _, _) => ([], false)

def imageOf (p : PublicKey × TransferDetails) : KeyImage := p.2.keyImage

structure Adds (outs : List (PublicKey × TransferDetails)) (w w' : ScanWallet σ) : Prop where
  transfers : w'.transfers = w.transfers ++ outs.map Prod.snd
  keyImages : w'.keyImages = numberFrom imageOf w.transfers.length outs w.keyImages
  pubKeys : w'.pubKeys = numberFrom Prod.fst w.transfers.length outs w.pubKeys

variable {env}

theorem fillOutput_eq_ok {p : TransferDetails × ℕ} {table table' : σ} {key : PublicKey}
    {td : TransferDetails} (h : env.fillOutput p table = (.ok (key, td), table')) :
    td.publicKey? = some key ∧ env.FilledFrom p.1 td := by
  rw [fillOutput, Throwing.get_bind] at h
  obtain ⟨⟨outKey, inEphemeral, keyImage⟩, _, hkeys, h⟩ := Throwing.bind_eq_ok.mp h
  obtain ⟨_, _, -, h⟩ := Throwing.bind_eq_ok.mp h
  obtain ⟨_, _, hpub, h⟩ := Throwing.bind_eq_ok.mp h
  obtain ⟨hpub, -⟩ := Throwing.throwIf_eq_ok.mp hpub
  obtain ⟨rfl, rfl⟩ := Prod.mk.inj (Except.ok.inj (Prod.mk.inj h).1)
  -- the keys of the output
  obtain ⟨_, -, hkeys⟩ := bind_eq_ok.mp (Prod.mk.inj hkeys).1
  obtain ⟨txPubKey, -, hkeys⟩ := bind_eq_ok.mp hkeys
  obtain ⟨out, hout, hkeys⟩ := bind_eq_ok.mp hkeys
  obtain ⟨outKey', hkey, hkeys⟩ := bind_eq_ok.mp hkeys
  obtain ⟨⟨inEphemeral', keyImage'⟩, hhelper, hkeys⟩ := bind_eq_ok.mp hkeys
  obtain ⟨rfl, hpair⟩ := Prod.mk.inj (Except.ok.inj hkeys)
  obtain ⟨rfl, rfl⟩ := Prod.mk.inj hpair
  have hpublic : (setKeyImage keyImage' p.1).publicKey? = some outKey' := by
    show p.1.tx.vout.toList[p.1.internalOutputIndex]?.bind TxOut.key? = _
    rw [orThrow_eq_ok.mp hout]
    exact orThrow_eq_ok.mp hkey
  refine ⟨hpublic, rfl, table, outKey', txPubKey, inEphemeral'.sec, hpublic, ?_⟩
  have heq : inEphemeral' = ⟨outKey', inEphemeral'.sec⟩ := by rw [← not_not.mp hpub]
  rw [← heq]
  exact orThrow_eq_ok.mp hhelper

theorem filled_publicKey {table : σ} {ps : List (TransferDetails × ℕ)} :
    ∀ p ∈ (env.filled table ps).1, p.2.publicKey? = some p.1 := by
  induction ps generalizing table with
  | nil => simp [filled]
  | cons p ps ih =>
      rw [filled]
      rcases hfill : env.fillOutput p table with ⟨e | out, table'⟩
      · simp
      · intro q hq
        rcases List.mem_cons.mp hq with rfl | hq
        · exact (fillOutput_eq_ok hfill).1
        · exact ih q hq

theorem filled_all {table : σ} {ps : List (TransferDetails × ℕ)}
    (hall : (env.filled table ps).2 = true) :
    List.Forall₂ env.FilledFrom (ps.map Prod.fst) ((env.filled table ps).1.map Prod.snd) := by
  induction ps generalizing table with
  | nil => exact .nil
  | cons p ps ih =>
      rw [filled] at hall ⊢
      rcases hfill : env.fillOutput p table with ⟨e | out, table'⟩
      · simp [hfill] at hall
      · rw [hfill] at hall
        exact .cons (fillOutput_eq_ok hfill).2 (ih hall)

theorem loop_importOutput (ps : List (TransferDetails × ℕ)) (w : ScanWallet σ) :
    (Throwing.loop env.importOutput ps () w).1.isOk = (env.filled w.subaddresses ps).2 ∧
      Adds (env.filled w.subaddresses ps).1 w (Throwing.loop env.importOutput ps () w).2 := by
  induction ps generalizing w with
  | nil => exact ⟨rfl, ⟨by simp [filled, Throwing.loop], rfl, rfl⟩⟩
  | cons p ps ih =>
      rw [filled, Throwing.loop]
      rcases hfill : env.fillOutput p w.subaddresses with ⟨e | out, table'⟩
      · have hstep : env.importOutput () p w = (.error e, { w with subaddresses := table' }) := by
          apply Throwing.bind_of_error
          rw [onSubaddresses, hfill]
        rw [Throwing.bind_of_error hstep]
        exact ⟨rfl, ⟨by simp, rfl, rfl⟩⟩
      · have hstep : env.importOutput () p w =
            (.ok (), pushOutput out { w with subaddresses := table' }) := by
          have hout : onSubaddresses (env.fillOutput p) w =
              (.ok out, { w with subaddresses := table' }) := by rw [onSubaddresses, hfill]
          rw [importOutput, Throwing.bind_of_ok hout, Throwing.modify]
        rw [Throwing.bind_of_ok hstep]
        obtain ⟨hok, hadds⟩ := ih (pushOutput out { w with subaddresses := table' })
        refine ⟨hok, ⟨?_, ?_, ?_⟩⟩
        · rw [hadds.transfers]
          simp [pushOutput]
        · rw [hadds.keyImages]
          simp [pushOutput, numberFrom, imageOf]
        · rw [hadds.pubKeys]
          simp [pushOutput, numberFrom]

/-! ### What is left of the indices -/

/-- The indices have nothing that an import of all outputs leaves behind, or that one up to a
throw changes. -/
def Undisturbed (w : ScanWallet σ) (outs : List (PublicKey × TransferDetails)) (all : Bool) :
    Prop :=
  if all then
    (outs.map Prod.fst).Nodup → (outs.map imageOf).Nodup ∧
      (∀ ki, w.keyImages ki ≠ none → ki ∈ outs.map imageOf) ∧
      ∀ key, w.pubKeys key ≠ none → key ∈ outs.map Prod.fst
  else
    w.transfers = outs.map Prod.snd ∧
      (∀ ki i, IsLast imageOf outs ki i → w.keyImages ki = some i) ∧
      ∀ key i, IsLast Prod.fst outs key i → w.pubKeys key = some i

theorem nodup_publicKeys {outs : List (PublicKey × TransferDetails)}
    (houts : ∀ p ∈ outs, p.2.publicKey? = some p.1) :
    ((outs.map Prod.snd).map TransferDetails.publicKey?).Nodup ↔ (outs.map Prod.fst).Nodup := by
  have hsome : (outs.map Prod.snd).map TransferDetails.publicKey? =
      (outs.map Prod.fst).map some := by
    rw [List.map_map, List.map_map]
    exact List.map_congr_left houts
  rw [hsome, List.nodup_map_iff (Option.some_injective _)]

theorem numbers_publicKeys {outs : List (PublicKey × TransferDetails)}
    (houts : ∀ p ∈ outs, p.2.publicKey? = some p.1) (m : PublicKey → Option ℕ) :
    (∀ key i, m key = some i ↔
      (outs.map Prod.snd)[i]?.bind TransferDetails.publicKey? = some key) ↔
        Numbers Prod.fst outs m := by
  have hat : ∀ i : ℕ, (outs.map Prod.snd)[i]?.bind TransferDetails.publicKey? =
      outs[i]?.map Prod.fst := by
    intro i
    rw [List.getElem?_map]
    cases hi : outs[i]? with
    | none => rfl
    | some p => exact houts p (List.mem_of_getElem? hi)
  simp only [hat, Numbers]

theorem numbers_images {outs : List (PublicKey × TransferDetails)} (m : KeyImage → Option ℕ) :
    Numbers TransferDetails.keyImage (outs.map Prod.snd) m ↔ Numbers imageOf outs m := by
  simp only [Numbers, List.getElem?_map, Option.map_map]
  rfl

def cleared (w : ScanWallet σ) : ScanWallet σ := { w with transfers := [] }

theorem imported_iff {outputs : List TransferDetails} {w w' : ScanWallet σ}
    (hall : (env.filled w.subaddresses outputs.zipIdx).2 = true)
    (hadds : Adds (env.filled w.subaddresses outputs.zipIdx).1 (cleared w) w') :
    env.Imported outputs w' ↔
      Undisturbed w (env.filled w.subaddresses outputs.zipIdx).1 true := by
  have hpublic := @filled_publicKey σ env w.subaddresses outputs.zipIdx
  have htransfers := hadds.transfers
  have hforall := filled_all hall
  generalize (env.filled w.subaddresses outputs.zipIdx).1 = outs at *
  simp only [cleared, List.nil_append] at htransfers
  have hlength : List.length (cleared w).transfers = 0 := rfl
  rw [List.zipIdx_map_fst] at hforall
  have hnodup := nodup_publicKeys hpublic
  have hkeyImages : Numbers TransferDetails.keyImage w'.transfers w'.keyImages ↔
      (outs.map imageOf).Nodup ∧ ∀ ki, w.keyImages ki ≠ none → ki ∈ outs.map imageOf := by
    rw [htransfers, numbers_images, hadds.keyImages, hlength, numbers_numberFrom_iff]
    rfl
  have hpubKeys : (∀ key i, w'.pubKeys key = some i ↔
      w'.transfers[i]?.bind TransferDetails.publicKey? = some key) ↔
        (outs.map Prod.fst).Nodup ∧ ∀ key, w.pubKeys key ≠ none → key ∈ outs.map Prod.fst := by
    rw [htransfers, numbers_publicKeys hpublic, hadds.pubKeys, hlength, numbers_numberFrom_iff]
    rfl
  rw [Undisturbed, if_pos rfl, ← hnodup, ← htransfers]
  constructor
  · intro h hdistinct
    obtain ⟨himages, hold⟩ := hkeyImages.mp (h.keyImages hdistinct)
    exact ⟨himages, hold, (hpubKeys.mp (h.pubKeys hdistinct)).2⟩
  · intro h
    refine ⟨htransfers ▸ hforall, fun hdistinct => ?_, fun hdistinct => ?_⟩
    · exact hkeyImages.mpr ⟨(h hdistinct).1, (h hdistinct).2.1⟩
    · exact hpubKeys.mpr ⟨hnodup.mp (htransfers ▸ hdistinct), (h hdistinct).2.2⟩

theorem sameTransfers_iff {outs : List (PublicKey × TransferDetails)} {w w' : ScanWallet σ}
    (hadds : Adds outs (cleared w) w') : SameTransfers w w' ↔ Undisturbed w outs false := by
  have htransfers := hadds.transfers
  have hkeyImages := hadds.keyImages
  have hpubKeys := hadds.pubKeys
  simp only [cleared, List.nil_append, List.length_nil] at htransfers hkeyImages hpubKeys
  rw [Undisturbed, if_neg Bool.false_ne_true, ← numberFrom_eq_self_iff, ← numberFrom_eq_self_iff,
    ← htransfers, ← hkeyImages, ← hpubKeys]
  constructor
  · rintro ⟨htds, hki, hpub⟩
    exact ⟨htds.symm, hki, hpub⟩
  · rintro ⟨htds, hki, hpub⟩
    exact ⟨htds.symm, hki, hpub⟩

/-- An import of outputs is exact exactly if the indices held nothing but the keys and the images
of those outputs, no two of which are the same; and one that throws is undone exactly if the
outputs in front of the one that throws are the transfers, and are in the indices already. -/
theorem exactAndAtomic_iff (env : ImportEnv σ) (outputs : List TransferDetails)
    (w : ScanWallet σ) :
    env.ExactAndAtomic outputs w ↔
      Undisturbed w (env.filled w.subaddresses outputs.zipIdx).1
        (env.filled w.subaddresses outputs.zipIdx).2 := by
  obtain ⟨hok, hadds⟩ := @loop_importOutput σ env outputs.zipIdx (cleared w)
  have hrun : env.importOutputs outputs w =
      (Throwing.loop env.importOutput outputs.zipIdx () >>= fun _ => Throwing.get >>= fun w =>
        pure w.transfers.length) (cleared w) := rfl
  rw [ExactAndAtomic, hrun]
  rcases hloop : Throwing.loop env.importOutput outputs.zipIdx () (cleared w) with ⟨e | u, w'⟩
  · rw [Throwing.bind_of_error hloop]
    rw [hloop] at hok hadds
    have hall : (env.filled w.subaddresses outputs.zipIdx).2 = false := hok.symm
    rw [hall]
    exact sameTransfers_iff hadds
  · rw [Throwing.bind_of_ok hloop, Throwing.get_bind, Throwing.pure_apply]
    rw [hloop] at hok hadds
    have hall : (env.filled w.subaddresses outputs.zipIdx).2 = true := hok.symm
    rw [hall, ← imported_iff hall hadds]
    constructor
    · exact And.left
    · intro himported
      exact ⟨himported, himported.transfers.length_eq.symm⟩

/-! ### A throw empties the wallet -/

/-- A wallet with one subaddress, which is never expanded. -/
def sampleImport : ImportEnv Unit where
  dev := plainDevice
  ack := plainAccount
  findSubaddress _ := oneSubaddress
  expandSubaddresses _ := pure ()

/-- The wallet has one transfer. The output that is imported is of a transaction without a public
key. -/
theorem importOutputs_not_atomic :
    ¬sampleImport.ExactAndAtomic [sampleTransfer 1 7]
      (pushOutput (sampleKey 0, sampleTransfer 0 5) (ScanWallet.empty ())) := by
  intro h
  exact absurd h.transfers (by decide)

end ImportEnv

end XrCoin.Wallet

import Mathlib
import XrCoin.Wallet.Scan

/-!
`generate_key_image_helper`: the keys of an output of the wallet, found through the public key of
the transaction or through the additional one for the output.

The derivations of the additional keys are put in a list as far as they exist, and the list is
read at the place of the output.
-/

namespace XrCoin.Wallet

open Archive Cryptonote

/-- What the functions take from the device. -/
structure KeyDevice where
  generateKeyDerivation : PublicKey → SecretKey → Option KeyDerivation
  /-- What the call leaves in its last argument: whether it fails is not looked at. -/
  deriveSubaddressPublicKey : PublicKey → KeyDerivation → ℕ → PublicKey
  deriveSecretKey : KeyDerivation → ℕ → SecretKey → SecretKey
  getSubaddressSecretKey : SecretKey → SubaddressIndex → SecretKey
  scSecretAdd : SecretKey → SecretKey → SecretKey
  secretKeyToPublicKey : SecretKey → Option PublicKey
  derivePublicKey : KeyDerivation → ℕ → PublicKey → Option PublicKey
  addPublicKey : PublicKey → PublicKey → PublicKey
  generateKeyImage : PublicKey → SecretKey → KeyImage

structure AccountKeys where
  spendPublicKey : PublicKey
  spendSecretKey : SecretKey
  viewSecretKey : SecretKey
  multisigKeys : List SecretKey

structure Keypair where
  pub : PublicKey
  sec : SecretKey
  deriving DecidableEq

def nullSkey : SecretKey := List.Vector.replicate 32 0

def identityDerivation : KeyDerivation := 1 ::ᵥ List.Vector.replicate 31 0

def SubaddressIndex.isZero (index : SubaddressIndex) : Prop := index.major = 0 ∧ index.minor = 0

instance (index : SubaddressIndex) : Decidable index.isZero := inferInstanceAs (Decidable (_ ∧ _))

structure SubaddressReceiveInfo where
  index : SubaddressIndex
  derivation : KeyDerivation
  deriving DecidableEq

variable (dev : KeyDevice) (ack : AccountKeys) (subaddresses : PublicKey → Option SubaddressIndex)

def receiveInfo (outKey : PublicKey) (i : ℕ) (derivation : KeyDerivation) :
    Option SubaddressReceiveInfo :=
  (subaddresses (dev.deriveSubaddressPublicKey outKey derivation i)).map (⟨·, derivation⟩)

def isOutToAcc (outKey : PublicKey) (derivation : KeyDerivation)
    (additionalDerivations : List KeyDerivation) (outputIndex : ℕ) :
    Option SubaddressReceiveInfo :=
  match receiveInfo dev subaddresses outKey outputIndex derivation with
  | some info => some info
  | none =>
      if additionalDerivations ≠ [] then
        match additionalDerivations[outputIndex]? with
        | none => none
        | some additional => receiveInfo dev subaddresses outKey outputIndex additional
      else none

/-- The derivation for the public key of the transaction, the identity where there is none. -/
def recvDerivation (txPublicKey : PublicKey) : KeyDerivation :=
  (dev.generateKeyDerivation txPublicKey ack.viewSecretKey).getD identityDerivation

/-- The loop over the additional keys. One without a derivation leaves nothing. -/
def additionalRecvDerivations : List PublicKey → List KeyDerivation
  | [] => []
  | key :: keys =>
      match dev.generateKeyDerivation key ack.viewSecretKey with
      | none => additionalRecvDerivations keys
      | some derivation => derivation :: additionalRecvDerivations keys

def ephemeralPublicKey (derivation : KeyDerivation) (i : ℕ) (index : SubaddressIndex)
    (sec : SecretKey) : Option PublicKey :=
  if ack.multisigKeys = [] then dev.secretKeyToPublicKey sec
  else do
    let pub ← dev.derivePublicKey derivation i ack.spendPublicKey
    if index.isZero then return pub
    else do
      let subaddrPk ←
        dev.secretKeyToPublicKey (dev.getSubaddressSecretKey ack.viewSecretKey index)
      return dev.addPublicKey pub subaddrPk

def keyImagePrecomp (outKey : PublicKey) (info : SubaddressReceiveInfo) (i : ℕ) :
    Option (Keypair × KeyImage) :=
  if ack.spendSecretKey = nullSkey then
    some (⟨outKey, nullSkey⟩, dev.generateKeyImage outKey nullSkey)
  else
    let step1 := dev.deriveSecretKey info.derivation i ack.spendSecretKey
    let step2 :=
      if info.index.isZero then step1
      else dev.scSecretAdd step1 (dev.getSubaddressSecretKey ack.viewSecretKey info.index)
    match ephemeralPublicKey dev ack info.derivation i info.index step2 with
    | none => none
    | some pub =>
        if pub ≠ outKey then none else some (⟨pub, step2⟩, dev.generateKeyImage pub step2)

def subaddrRecvInfo (outKey txPublicKey : PublicKey) (additionalKeys : List PublicKey) (i : ℕ) :
    Option SubaddressReceiveInfo :=
  isOutToAcc dev subaddresses outKey (recvDerivation dev ack txPublicKey)
    (additionalRecvDerivations dev ack additionalKeys) i

def generateKeyImageHelper (outKey txPublicKey : PublicKey) (additionalKeys : List PublicKey)
    (i : ℕ) : Option (Keypair × KeyImage) :=
  match subaddrRecvInfo dev ack subaddresses outKey txPublicKey additionalKeys i with
  | none => none
  | some info => keyImagePrecomp dev ack outKey info i

/-! ### The key of an output -/

/-- An output is found through the additional keys: not through the key of the transaction. -/
def FoundThroughAdditional (outKey txPublicKey : PublicKey) (additionalKeys : List PublicKey)
    (i : ℕ) (info : SubaddressReceiveInfo) : Prop :=
  receiveInfo dev subaddresses outKey i (recvDerivation dev ack txPublicKey) = none ∧
    subaddrRecvInfo dev ack subaddresses outKey txPublicKey additionalKeys i = some info

def keyDerivation (keys : List PublicKey) (i : ℕ) : Option KeyDerivation := do
  let key ← keys[i]?
  dev.generateKeyDerivation key ack.viewSecretKey

/-- The key at a place of a list shows that an output is for the wallet. -/
def infoOfKey (outKey : PublicKey) (keys : List PublicKey) (i : ℕ) :
    Option SubaddressReceiveInfo := do
  let derivation ← keyDerivation dev ack keys i
  receiveInfo dev subaddresses outKey i derivation

/-- An output that is not found through the key of the transaction is found exactly through the
additional key at its own place. -/
def MatchingKeyOnly (outKey txPublicKey : PublicKey) (additionalKeys : List PublicKey) (i : ℕ) :
    Prop :=
  receiveInfo dev subaddresses outKey i (recvDerivation dev ack txPublicKey) = none →
    ∀ info, FoundThroughAdditional dev ack subaddresses outKey txPublicKey additionalKeys i info ↔
      infoOfKey dev ack subaddresses outKey additionalKeys i = some info

def derivableKeys (keys : List PublicKey) : List PublicKey :=
  keys.filter fun key => (dev.generateKeyDerivation key ack.viewSecretKey).isSome

/-- The list is read as if the keys without a derivation were not there. -/
theorem getElem?_additionalRecvDerivations (keys : List PublicKey) (i : ℕ) :
    (additionalRecvDerivations dev ack keys)[i]? =
      keyDerivation dev ack (derivableKeys dev ack keys) i := by
  induction keys generalizing i with
  | nil => rfl
  | cons key keys ih =>
      rw [additionalRecvDerivations, derivableKeys, List.filter_cons]
      cases hkey : dev.generateKeyDerivation key ack.viewSecretKey with
      | none => exact ih i
      | some derivation =>
          cases i with
          | zero => simp [keyDerivation, hkey]
          | succ i => exact ih i

theorem keyDerivation_derivableKeys {keys : List PublicKey} {i : ℕ}
    (h : ∀ j ≤ i, ∀ key, keys[j]? = some key →
      (dev.generateKeyDerivation key ack.viewSecretKey).isSome) :
    keyDerivation dev ack (derivableKeys dev ack keys) i = keyDerivation dev ack keys i := by
  induction keys generalizing i with
  | nil => rfl
  | cons key keys ih =>
      rw [derivableKeys, List.filter_cons, if_pos (h 0 (Nat.zero_le i) key rfl)]
      cases i with
      | zero => rfl
      | succ i => exact ih fun j hj key' hkey' => h (j + 1) (by omega) key' hkey'

theorem subaddrRecvInfo_of_none {outKey txPublicKey : PublicKey} {additionalKeys : List PublicKey}
    {i : ℕ}
    (h : receiveInfo dev subaddresses outKey i (recvDerivation dev ack txPublicKey) = none) :
    subaddrRecvInfo dev ack subaddresses outKey txPublicKey additionalKeys i =
      infoOfKey dev ack subaddresses outKey (derivableKeys dev ack additionalKeys) i := by
  have hread := getElem?_additionalRecvDerivations dev ack additionalKeys i
  rw [subaddrRecvInfo, isOutToAcc, h, infoOfKey, ← hread]
  by_cases hnil : additionalRecvDerivations dev ack additionalKeys = []
  · simp [hnil]
  · simp only [ne_eq, hnil, not_false_eq_true, if_true]
    cases (additionalRecvDerivations dev ack additionalKeys)[i]? <;> rfl

theorem keyDerivation_of_infoOfKey {outKey : PublicKey} {keys : List PublicKey} {i : ℕ}
    {info : SubaddressReceiveInfo}
    (h : infoOfKey dev ack subaddresses outKey keys i = some info) :
    keyDerivation dev ack keys i = some info.derivation := by
  rw [infoOfKey] at h
  cases hderivation : keyDerivation dev ack keys i with
  | none =>
      rw [hderivation] at h
      cases h
  | some derivation =>
      rw [hderivation] at h
      obtain ⟨index, -, rfl⟩ := Option.map_eq_some_iff.mp h
      rfl

/-- An output is found through its own additional key exactly if the key of the transaction
shows it, or the key that is at the place of the output once those without a derivation are
left out gives the same derivation, or neither of the two shows it. -/
theorem matchingKeyOnly_iff (outKey txPublicKey : PublicKey) (additionalKeys : List PublicKey)
    (i : ℕ) :
    MatchingKeyOnly dev ack subaddresses outKey txPublicKey additionalKeys i ↔
      receiveInfo dev subaddresses outKey i (recvDerivation dev ack txPublicKey) ≠ none ∨
        keyDerivation dev ack additionalKeys i =
          keyDerivation dev ack (derivableKeys dev ack additionalKeys) i ∨
        infoOfKey dev ack subaddresses outKey additionalKeys i = none ∧
          infoOfKey dev ack subaddresses outKey (derivableKeys dev ack additionalKeys) i =
            none := by
  by_cases hmain : receiveInfo dev subaddresses outKey i (recvDerivation dev ack txPublicKey) = none
  · have hinfo : subaddrRecvInfo dev ack subaddresses outKey txPublicKey additionalKeys i =
        infoOfKey dev ack subaddresses outKey (derivableKeys dev ack additionalKeys) i :=
      subaddrRecvInfo_of_none dev ack subaddresses hmain
    have hsame : MatchingKeyOnly dev ack subaddresses outKey txPublicKey additionalKeys i ↔
        infoOfKey dev ack subaddresses outKey (derivableKeys dev ack additionalKeys) i =
          infoOfKey dev ack subaddresses outKey additionalKeys i := by
      rw [MatchingKeyOnly, forall_prop_of_true hmain]
      simp only [FoundThroughAdditional, hmain, hinfo, true_and]
      exact Option.ext_iff.symm
    rw [hsame, or_iff_right (not_not.mpr hmain)]
    constructor
    · intro h
      cases hown : infoOfKey dev ack subaddresses outKey additionalKeys i with
      | none =>
          rw [hown] at h
          exact .inr ⟨rfl, h⟩
      | some info =>
          rw [hown] at h
          left
          rw [keyDerivation_of_infoOfKey dev ack subaddresses hown,
            keyDerivation_of_infoOfKey dev ack subaddresses h]
    · rintro (h | ⟨hown, hshifted⟩)
      · rw [infoOfKey, infoOfKey, h]
      · rw [hown, hshifted]
  · constructor
    · exact fun _ => .inl hmain
    · exact fun _ hnone => absurd hnone hmain

/-! ### A key before that of the output fails -/

def plainKey (n : UInt8) : Pod 32 := List.Vector.replicate 32 n

/-- One key is no point; the others are their own derivations and subaddress keys. -/
def plainDevice : KeyDevice where
  generateKeyDerivation key _ := if key = plainKey 255 then none else some key
  deriveSubaddressPublicKey _ derivation _ := derivation
  deriveSecretKey derivation _ _ := derivation
  getSubaddressSecretKey _ _ := plainKey 0
  scSecretAdd key _ := key
  secretKeyToPublicKey key := some key
  derivePublicKey derivation _ _ := some derivation
  addPublicKey key _ := key
  generateKeyImage key _ := key

def plainAccount : AccountKeys := ⟨plainKey 7, plainKey 8, plainKey 9, []⟩

def oneSubaddress (key : PublicKey) : Option SubaddressIndex :=
  if key = plainKey 1 then some ⟨0, 1⟩ else none

/-- The second output is for the wallet, and is not found: the third key is read for it. -/
theorem shiftedKey_not_matchingKeyOnly :
    ¬MatchingKeyOnly plainDevice plainAccount oneSubaddress (plainKey 1) (plainKey 3)
      [plainKey 255, plainKey 1, plainKey 2] 1 := by
  intro h
  have hfound := (h (by decide) ⟨⟨0, 1⟩, plainKey 1⟩).mpr (by decide)
  exact absurd hfound.2 (by decide)

end XrCoin.Wallet

import XrCoin.Crypto.Curve
import XrCoin.Wallet.KeyImageHelper
import XrCoin.Wallet.ReserveProof

/-!
The keys that `crypto.cpp` derives from a shared point, and the addresses that `device_default`
makes of the keys of an account.

An account finds an output by taking the derived part away from its key and looking the rest up
among its spend keys. What it finds so it can also open, at whichever of its addresses.
-/

namespace XrCoin.Crypto

open Archive Cryptonote Wallet

namespace Curve

variable (c : Curve)

/-! ### Derived keys -/

def secretKeyToPublicKey (sec : SecretKey) : Option PublicKey :=
  if c.scCheck sec then some (c.toBytes (c.mulBase sec)) else none

def generateKeyDerivation (key1 : PublicKey) (key2 : SecretKey) : Option KeyDerivation :=
  (c.fromBytes key1).map fun point => c.toBytes (8 • c.mul key2 point)

def derivationToScalar (derivation : KeyDerivation) (outputIndex : ℕ) : Pod 32 :=
  c.hashToScalar (derivation.val ++ writeVarint outputIndex)

def derivePublicKey (derivation : KeyDerivation) (outputIndex : ℕ) (base : PublicKey) :
    Option PublicKey :=
  (c.fromBytes base).map fun point1 =>
    c.toBytes (point1 + c.mulBase (c.derivationToScalar derivation outputIndex))

def deriveSecretKey (derivation : KeyDerivation) (outputIndex : ℕ) (base : SecretKey) :
    SecretKey :=
  c.scAdd base (c.derivationToScalar derivation outputIndex)

def deriveSubaddressPublicKey (outKey : PublicKey) (derivation : KeyDerivation)
    (outputIndex : ℕ) : Option PublicKey :=
  (c.fromBytes outKey).map fun point1 =>
    c.toBytes (point1 - c.mulBase (c.derivationToScalar derivation outputIndex))

def generateKeyImage (pub : PublicKey) (sec : SecretKey) : KeyImage :=
  c.toBytes (c.mul sec (c.hashToEc pub))

/-! ### Operations on keys -/

def scalarmultBase (a : Key) : Key := c.toBytes (c.mulBase (c.scReduce32 a))

def scalarmultKey (P a : Key) : Option Key :=
  (c.fromBytes P).map fun A => c.toBytes (c.mul a A)

def addKeys (A B : Key) : Option Key := do
  let B2 ← c.fromBytes B
  let A2 ← c.fromBytes A
  return c.toBytes (A2 + B2)

/-! ### The device -/

def subAddrPrefix : List UInt8 := [0x53, 0x75, 0x62, 0x41, 0x64, 0x64, 0x72, 0]

def getSubaddressSecretKey (a : SecretKey) (index : SubaddressIndex) : SecretKey :=
  c.hashToScalar (subAddrPrefix ++ a.val ++ leBytes 4 index.major.toNat ++
    leBytes 4 index.minor.toNat)

/-- `device_default`. A derived key that was not computed holds what was in its place. -/
def deviceDefault (left : PublicKey) : KeyDevice where
  generateKeyDerivation := c.generateKeyDerivation
  deriveSubaddressPublicKey outKey derivation i :=
    (c.deriveSubaddressPublicKey outKey derivation i).getD left
  deriveSecretKey := c.deriveSecretKey
  getSubaddressSecretKey := c.getSubaddressSecretKey
  scSecretAdd := c.scAdd
  secretKeyToPublicKey := c.secretKeyToPublicKey
  derivePublicKey := c.derivePublicKey
  addPublicKey A B := (c.addKeys A B).getD left
  generateKeyImage := c.generateKeyImage

/-- The secret key of the index is reduced, so that it has a public key, for which the source does
not ask. -/
def getSubaddressSpendPublicKey (keys : AccountKeys) (index : SubaddressIndex) :
    Option PublicKey :=
  if index.isZero then some keys.spendPublicKey
  else do
    let M ← c.secretKeyToPublicKey (c.getSubaddressSecretKey keys.viewSecretKey index)
    c.addKeys keys.spendPublicKey M

def getSubaddress (address : AccountPublicAddress) (keys : AccountKeys)
    (index : SubaddressIndex) : Option AccountPublicAddress :=
  if index.isZero then some address
  else do
    let D ← c.getSubaddressSpendPublicKey keys index
    let C ← c.scalarmultKey D keys.viewSecretKey
    return ⟨D, C⟩

/-! ### Accounts -/

/-- The secret keys of an account that can spend and shares its keys with no one. -/
structure Account where
  spend : SecretKey
  view : SecretKey
  scCheck_spend : c.scCheck spend = true
  scCheck_view : c.scCheck view = true
  spend_ne : spend ≠ nullSkey

namespace Account

variable {c} (a : c.Account)

def keys : AccountKeys := ⟨c.toBytes (c.mulBase a.spend), a.spend, a.view, []⟩

def address : AccountPublicAddress :=
  ⟨c.toBytes (c.mulBase a.spend), c.toBytes (c.mulBase a.view)⟩

def spendPoint (index : SubaddressIndex) : c.Point :=
  if index.isZero then c.mulBase a.spend
  else c.mulBase a.spend + c.mulBase (c.getSubaddressSecretKey a.view index)

/-- What the spend key of an output belongs to when the address was asked for a payment. -/
def viewPoint (index : SubaddressIndex) : c.Point :=
  if index.isZero then c.mulBase a.view else c.mul a.view (a.spendPoint index)

end Account

structure SubaddressTable (a : c.Account) where
  find : PublicKey → Option SubaddressIndex
  find_key : ∀ key index, find key = some index → key = c.toBytes (a.spendPoint index)

variable {c} {a : c.Account} {index : SubaddressIndex}

/-! ### Addresses -/

theorem secretKeyToPublicKey_reduce (n : ℕ) :
    c.secretKeyToPublicKey (c.reduce n) = some (c.toBytes (c.mulBase (c.reduce n))) := by
  rw [secretKeyToPublicKey, if_pos (scCheck_reduce n)]

theorem addKeys_toBytes (P Q : c.Point) :
    c.addKeys (c.toBytes P) (c.toBytes Q) = some (c.toBytes (P + Q)) := by
  rw [addKeys, c.fromBytes_toBytes, c.fromBytes_toBytes]
  rfl

theorem scalarmultKey_toBytes (P : c.Point) (s : Key) :
    c.scalarmultKey (c.toBytes P) s = some (c.toBytes (c.mul s P)) := by
  rw [scalarmultKey, c.fromBytes_toBytes, Option.map_some]

theorem scalarmultBase_eq (s : Key) : c.scalarmultBase s = c.toBytes (c.mulBase s) := by
  rw [scalarmultBase, mulBase, regular_base.mul_congr residue_scReduce32, mulBase]

theorem getSubaddressSpendPublicKey_keys :
    c.getSubaddressSpendPublicKey a.keys index = some (c.toBytes (a.spendPoint index)) := by
  rw [getSubaddressSpendPublicKey, Account.spendPoint]
  by_cases hzero : index.isZero
  · rw [if_pos hzero, if_pos hzero]
    rfl
  · rw [if_neg hzero, if_neg hzero, getSubaddressSecretKey, hashToScalar, scReduce32,
      secretKeyToPublicKey_reduce]
    exact addKeys_toBytes _ _

theorem getSubaddress_keys : c.getSubaddress a.address a.keys index =
    some ⟨c.toBytes (a.spendPoint index), c.toBytes (a.viewPoint index)⟩ := by
  rw [getSubaddress, Account.viewPoint]
  by_cases hzero : index.isZero
  · rw [if_pos hzero, if_pos hzero, Account.spendPoint, if_pos hzero]
    rfl
  · rw [if_neg hzero, if_neg hzero, getSubaddressSpendPublicKey_keys]
    change (c.scalarmultKey (c.toBytes (a.spendPoint index)) a.view).bind _ = _
    rw [scalarmultKey_toBytes]
    rfl

/-! ### Shared points -/

theorem generateKeyDerivation_toBytes (P : c.Point) (s : SecretKey) :
    c.generateKeyDerivation (c.toBytes P) s = some (c.toBytes (8 • c.mul s P)) := by
  rw [generateKeyDerivation, c.fromBytes_toBytes, Option.map_some]

/-- Two parties that multiply each other's points share one. -/
theorem generateKeyDerivation_comm (P : c.Point) (r s : SecretKey) :
    c.generateKeyDerivation (c.toBytes (c.mul r P)) s =
      c.generateKeyDerivation (c.toBytes (c.mul s P)) r := by
  rw [generateKeyDerivation_toBytes, generateKeyDerivation_toBytes, mul_comm_mul]

/-! ### Finding and opening -/

def outKeyFor (c : Curve) (P : c.Point) (derivation : KeyDerivation) (i : ℕ) : PublicKey :=
  c.toBytes (P + c.mulBase (c.derivationToScalar derivation i))

theorem derivePublicKey_toBytes (P : c.Point) (derivation : KeyDerivation) (i : ℕ) :
    c.derivePublicKey derivation i (c.toBytes P) = some (c.outKeyFor P derivation i) := by
  rw [derivePublicKey, c.fromBytes_toBytes, Option.map_some, outKeyFor]

theorem deriveSubaddressPublicKey_outKeyFor (P : c.Point) (derivation : KeyDerivation) (i : ℕ) :
    c.deriveSubaddressPublicKey (c.outKeyFor P derivation i) derivation i =
      some (c.toBytes P) := by
  rw [deriveSubaddressPublicKey, outKeyFor, c.fromBytes_toBytes, Option.map_some,
    add_sub_cancel_right]

def Account.outSecret (a : c.Account) (derivation : KeyDerivation) (i : ℕ)
    (index : SubaddressIndex) : SecretKey :=
  if index.isZero then c.deriveSecretKey derivation i a.spend
  else c.scAdd (c.deriveSecretKey derivation i a.spend) (c.getSubaddressSecretKey a.view index)

theorem scCheck_outSecret (a : c.Account) (derivation : KeyDerivation) (i : ℕ) :
    c.scCheck (a.outSecret derivation i index) = true := by
  rw [Account.outSecret]
  split
  · exact scCheck_reduce _
  · exact scCheck_reduce _

theorem mulBase_outSecret (a : c.Account) (derivation : KeyDerivation) (i : ℕ) :
    c.mulBase (a.outSecret derivation i index) =
      a.spendPoint index + c.mulBase (c.derivationToScalar derivation i) := by
  rw [Account.outSecret, Account.spendPoint]
  by_cases hzero : index.isZero
  · rw [if_pos hzero, if_pos hzero]
    exact mulBase_scAdd
  · rw [if_neg hzero, if_neg hzero, mulBase_scAdd, deriveSecretKey, mulBase_scAdd]
    exact add_right_comm _ _ _

structure Opens (c : Curve) (outKey : PublicKey) (opened : Keypair × KeyImage) : Prop where
  pub : opened.1.pub = outKey
  scCheck : c.scCheck opened.1.sec = true
  sec : c.toBytes (c.mulBase opened.1.sec) = outKey
  image : opened.2 = c.generateKeyImage outKey opened.1.sec

theorem keyImagePrecomp_of_ephemeral {dev : KeyDevice} {ack : AccountKeys} {outKey : PublicKey}
    {info : SubaddressReceiveInfo} {i : ℕ} {sec : SecretKey} (hne : ack.spendSecretKey ≠ nullSkey)
    (hsec : (if info.index.isZero then dev.deriveSecretKey info.derivation i ack.spendSecretKey
      else dev.scSecretAdd (dev.deriveSecretKey info.derivation i ack.spendSecretKey)
        (dev.getSubaddressSecretKey ack.viewSecretKey info.index)) = sec)
    (h : ephemeralPublicKey dev ack info.derivation i info.index sec = some outKey) :
    keyImagePrecomp dev ack outKey info i =
      some (⟨outKey, sec⟩, dev.generateKeyImage outKey sec) := by
  subst hsec
  simp only [keyImagePrecomp, if_neg hne, h, ne_eq, not_true_eq_false, if_false]

/-- What the account finds through its table, whichever derivation and address it finds it with,
it can open. -/
theorem keyImagePrecomp_of_receiveInfo {left : PublicKey} {P : c.Point} {i : ℕ}
    {info : SubaddressReceiveInfo} {derivation : KeyDerivation} (table : c.SubaddressTable a)
    (h : receiveInfo (c.deviceDefault left) table.find (c.toBytes P) i derivation = some info) :
    ∃ opened, keyImagePrecomp (c.deviceDefault left) a.keys (c.toBytes P) info i = some opened ∧
      c.Opens (c.toBytes P) opened := by
  obtain ⟨index, hfind, rfl⟩ := Option.map_eq_some_iff.mp h
  have hspend : P - c.mulBase (c.derivationToScalar derivation i) = a.spendPoint index := by
    have hkey := table.find_key _ _ hfind
    simp only [deviceDefault, deriveSubaddressPublicKey, c.fromBytes_toBytes, Option.map_some,
      Option.getD_some] at hkey
    exact toBytes_injective hkey
  have hsec : c.toBytes (c.mulBase (a.outSecret derivation i index)) = c.toBytes P := by
    rw [mulBase_outSecret, ← hspend, sub_add_cancel]
  refine ⟨(⟨c.toBytes P, a.outSecret derivation i index⟩,
    c.generateKeyImage (c.toBytes P) (a.outSecret derivation i index)), ?_,
    rfl, scCheck_outSecret a derivation i, hsec, rfl⟩
  have hpub : c.secretKeyToPublicKey (a.outSecret derivation i index) = some (c.toBytes P) := by
    rw [secretKeyToPublicKey, if_pos (scCheck_outSecret a derivation i), hsec]
  have hephemeral : ephemeralPublicKey (c.deviceDefault left) a.keys derivation i index
      (a.outSecret derivation i index) = some (c.toBytes P) := hpub
  have hne : a.keys.spendSecretKey ≠ nullSkey := a.spend_ne
  exact keyImagePrecomp_of_ephemeral hne rfl hephemeral

/-- An output for an address in the table is found with the derivation it was made with. -/
theorem receiveInfo_outKeyFor {left : PublicKey} {derivation : KeyDerivation} {i : ℕ}
    (table : c.SubaddressTable a)
    (h : (table.find (c.toBytes (a.spendPoint index))).isSome) :
    (receiveInfo (c.deviceDefault left) table.find
      (c.outKeyFor (a.spendPoint index) derivation i) i derivation).isSome := by
  have hkey : (c.deviceDefault left).deriveSubaddressPublicKey
      (c.outKeyFor (a.spendPoint index) derivation i) derivation i =
      c.toBytes (a.spendPoint index) := by
    simp only [deviceDefault, deriveSubaddressPublicKey_outKeyFor, Option.getD_some]
  rw [receiveInfo, hkey, Option.isSome_map]
  exact h

theorem generateKeyImageHelper_of_isOutToAcc {left : PublicKey} {P : c.Point} {i : ℕ}
    {txPublicKey : PublicKey} {additionalKeys : List PublicKey} (table : c.SubaddressTable a)
    (h : (subaddrRecvInfo (c.deviceDefault left) a.keys table.find (c.toBytes P) txPublicKey
      additionalKeys i).isSome) :
    ∃ opened, generateKeyImageHelper (c.deviceDefault left) a.keys table.find (c.toBytes P)
        txPublicKey additionalKeys i = some opened ∧ c.Opens (c.toBytes P) opened := by
  obtain ⟨info, hinfo⟩ := Option.isSome_iff_exists.mp h
  have hreceive : ∃ derivation,
      receiveInfo (c.deviceDefault left) table.find (c.toBytes P) i derivation = some info := by
    rw [subaddrRecvInfo, isOutToAcc] at hinfo
    split at hinfo
    · rename_i hfirst
      exact ⟨_, hfirst.trans hinfo⟩
    · split at hinfo
      · split at hinfo
        · exact absurd hinfo (Option.some_ne_none _).symm
        · exact ⟨_, hinfo⟩
      · exact absurd hinfo (Option.some_ne_none _).symm
  obtain ⟨derivation, hderivation⟩ := hreceive
  obtain ⟨opened, hopened, hopens⟩ := keyImagePrecomp_of_receiveInfo table hderivation
  refine ⟨opened, ?_, hopens⟩
  rw [generateKeyImageHelper, hinfo]
  exact hopened

end Curve

end XrCoin.Crypto

import Mathlib
import XrCoin.Wallet.KeyImageHelper

/-!
The public key of the transaction of a transfer, as `get_tx_pub_key_from_received_outs` finds it
again.

A transaction with one public key is not looked at further. With several, the first is taken that
yields an output for the wallet.
-/

namespace XrCoin.Wallet

open Archive Cryptonote Data

variable (dev : KeyDevice) (ack : AccountKeys) (subaddresses : PublicKey → Option SubaddressIndex)

/-- The public keys of a transaction, in the order of its extra bytes. -/
def prefixPubKeys (tx : TransactionPrefix) : List PublicKey :=
  (parseTxExtra tx.extra.toList).1.filterMap TxExtraField.pubKey?

def generateDerivation (key : PublicKey) : Except String KeyDerivation :=
  orThrow (dev.generateKeyDerivation key ack.viewSecretKey) "Failed to generate key derivation"

/-- The loop over the additional keys, all of which have to be keys. -/
def generateDerivations : List PublicKey → Except String (List KeyDerivation)
  | [] => .ok []
  | key :: keys => do
      let derivation ← generateDerivation dev ack key
      let derivations ← generateDerivations keys
      return derivation :: derivations

/-- `check_acc_out_precomp`: an output that is not for a key is an error, which is not received. -/
def receivesOutput (out : TxOut) (derivation : KeyDerivation) (additional : List KeyDerivation)
    (i : ℕ) : Bool :=
  match out.key? with
  | none => false
  | some key => (isOutToAcc dev subaddresses key derivation additional i).isSome

def findReceivingKey (vout : List TxOut) (additional : List KeyDerivation) :
    List PublicKey → Except String PublicKey
  | [] =>
      .error "Public key yielding at least one output wasn't found in the transaction extra"
  | key :: keys => do
      let derivation ← generateDerivation dev ack key
      if vout.zipIdx.any fun p => receivesOutput dev subaddresses p.1 derivation additional p.2 then
        return key
      else findReceivingKey vout additional keys

def getTxPubKeyFromReceivedOuts (td : TransferDetails) : Except String PublicKey :=
  match prefixPubKeys td.tx with
  | [] => .error "Public key wasn't found in the transaction extra"
  | [key] => .ok key
  | keys => do
      let additional ←
        generateDerivations dev ack (getAdditionalTxPubKeysFromExtra td.tx.extra.toList)
      findReceivingKey dev ack subaddresses td.tx.vout.toList additional keys

/-! ### What it finds -/

def Derives (key : PublicKey) : Prop := (dev.generateKeyDerivation key ack.viewSecretKey).isSome

/-- A key shows an output of a transaction, by itself or with the additional keys. -/
def Receives (tx : TransactionPrefix) (key : PublicKey) : Prop :=
  ∃ (i : ℕ) (out : TxOut) (outKey : PublicKey),
    tx.vout.toList[i]? = some out ∧ out.key? = some outKey ∧
      (subaddrRecvInfo dev ack subaddresses outKey key
        (getAdditionalTxPubKeysFromExtra tx.extra.toList) i).isSome

/-- The key of a transaction is the only one, or the first that shows an output, and then all
additional keys and those up to the first have to have a derivation. -/
def FoundAgain (tx : TransactionPrefix) (key : PublicKey) : Prop :=
  prefixPubKeys tx = [key] ∨
    2 ≤ (prefixPubKeys tx).length ∧
      (∀ k ∈ getAdditionalTxPubKeysFromExtra tx.extra.toList, Derives dev ack k) ∧
      ∃ before after, prefixPubKeys tx = before ++ key :: after ∧
        (∀ k ∈ before, Derives dev ack k ∧ ¬Receives dev ack subaddresses tx k) ∧
        Derives dev ack key ∧ Receives dev ack subaddresses tx key

variable {dev ack subaddresses}

theorem generateDerivation_eq_ok {key : PublicKey} {derivation : KeyDerivation} :
    generateDerivation dev ack key = .ok derivation ↔
      Derives dev ack key ∧ derivation = recvDerivation dev ack key := by
  rw [generateDerivation, orThrow_eq_ok, Derives, recvDerivation]
  cases dev.generateKeyDerivation key ack.viewSecretKey with
  | none => simp
  | some d => simp [eq_comm]

theorem generateDerivations_eq_ok {keys : List PublicKey} {derivations : List KeyDerivation} :
    generateDerivations dev ack keys = .ok derivations ↔
      (∀ key ∈ keys, Derives dev ack key) ∧
        derivations = additionalRecvDerivations dev ack keys := by
  induction keys generalizing derivations with
  | nil => simp [generateDerivations, additionalRecvDerivations, eq_comm]
  | cons key keys ih =>
      rw [generateDerivations, bind_eq_ok, additionalRecvDerivations]
      simp only [generateDerivation_eq_ok, bind_eq_ok, ih, List.forall_mem_cons]
      constructor
      · rintro ⟨_, ⟨hkey, rfl⟩, _, ⟨hkeys, rfl⟩, h⟩
        obtain rfl := Except.ok.inj h
        obtain ⟨d, hd⟩ := Option.isSome_iff_exists.mp hkey
        exact ⟨⟨hkey, hkeys⟩, by rw [recvDerivation, hd]; rfl⟩
      · rintro ⟨⟨hkey, hkeys⟩, rfl⟩
        obtain ⟨d, hd⟩ := Option.isSome_iff_exists.mp hkey
        exact ⟨_, ⟨hkey, rfl⟩, _, ⟨hkeys, rfl⟩, by rw [recvDerivation, hd]; rfl⟩

theorem any_receivesOutput {tx : TransactionPrefix} {key : PublicKey} :
    (tx.vout.toList.zipIdx.any fun p => receivesOutput dev subaddresses p.1
        (recvDerivation dev ack key) (additionalRecvDerivations dev ack
          (getAdditionalTxPubKeysFromExtra tx.extra.toList)) p.2) = true ↔
      Receives dev ack subaddresses tx key := by
  rw [List.any_eq_true]
  constructor
  · rintro ⟨⟨out, i⟩, hmem, hreceives⟩
    rw [List.mem_zipIdx_iff_getElem?] at hmem
    simp only [receivesOutput] at hreceives
    cases hkey : out.key? with
    | none => simp [hkey] at hreceives
    | some outKey =>
        rw [hkey] at hreceives
        exact ⟨i, out, outKey, hmem, hkey, hreceives⟩
  · rintro ⟨i, out, outKey, hout, hkey, hinfo⟩
    refine ⟨(out, i), List.mem_zipIdx_iff_getElem?.mpr hout, ?_⟩
    simp only [receivesOutput, hkey]
    exact hinfo

theorem findReceivingKey_eq_ok {tx : TransactionPrefix} {keys : List PublicKey}
    {key : PublicKey} :
    findReceivingKey dev ack subaddresses tx.vout.toList (additionalRecvDerivations dev ack
        (getAdditionalTxPubKeysFromExtra tx.extra.toList)) keys = .ok key ↔
      ∃ before after, keys = before ++ key :: after ∧
        (∀ k ∈ before, Derives dev ack k ∧ ¬Receives dev ack subaddresses tx k) ∧
        Derives dev ack key ∧ Receives dev ack subaddresses tx key := by
  induction keys with
  | nil => simp [findReceivingKey]
  | cons first keys ih =>
      rw [findReceivingKey, bind_eq_ok]
      simp only [generateDerivation_eq_ok]
      constructor
      · rintro ⟨_, ⟨hderives, rfl⟩, h⟩
        split_ifs at h with hany
        · obtain rfl := Except.ok.inj h
          exact ⟨[], keys, rfl, by simp, hderives, any_receivesOutput.mp hany⟩
        · obtain ⟨before, after, rfl, hbefore, hkey⟩ := ih.mp h
          refine ⟨first :: before, after, rfl, ?_, hkey⟩
          rintro k (_ | ⟨_, hk⟩)
          · exact ⟨hderives, fun hreceives => hany (any_receivesOutput.mpr hreceives)⟩
          · exact hbefore k hk
      · rintro ⟨before, after, hkeys, hbefore, hderives, hreceives⟩
        cases before with
        | nil =>
            obtain ⟨rfl, rfl⟩ := List.cons.inj hkeys
            refine ⟨_, ⟨hderives, rfl⟩, ?_⟩
            rw [if_pos (any_receivesOutput.mpr hreceives)]
            rfl
        | cons k before =>
            obtain ⟨rfl, rfl⟩ := List.cons.inj hkeys
            obtain ⟨hfirst, hnot⟩ := hbefore first List.mem_cons_self
            refine ⟨_, ⟨hfirst, rfl⟩, ?_⟩
            rw [if_neg fun hany => hnot (any_receivesOutput.mp hany)]
            exact ih.mpr ⟨before, after, rfl,
              fun k hk => hbefore k (List.mem_cons_of_mem _ hk), hderives, hreceives⟩

theorem getTxPubKeyFromReceivedOuts_eq_ok {td : TransferDetails} {key : PublicKey} :
    getTxPubKeyFromReceivedOuts dev ack subaddresses td = .ok key ↔
      FoundAgain dev ack subaddresses td.tx key := by
  rw [getTxPubKeyFromReceivedOuts, FoundAgain]
  split
  next hkeys => simp [hkeys]
  next only hkeys =>
      rw [hkeys]
      constructor
      · intro h
        exact .inl (by rw [Except.ok.inj h])
      · rintro (h | ⟨hlength, -⟩)
        · rw [List.singleton_inj.mp h]
        · simp at hlength
  next hnil hone =>
      have hlength : 2 ≤ (prefixPubKeys td.tx).length := by
        rcases hkeys : prefixPubKeys td.tx with _ | ⟨first, _ | ⟨second, rest⟩⟩
        · exact absurd hkeys hnil
        · exact absurd hkeys (hone first)
        · simp
      have hsingle : prefixPubKeys td.tx ≠ [key] := hone key
      simp only [bind_eq_ok, generateDerivations_eq_ok, hsingle, hlength, false_or, true_and]
      constructor
      · rintro ⟨_, ⟨hadditional, rfl⟩, h⟩
        exact ⟨hadditional, findReceivingKey_eq_ok.mp h⟩
      · rintro ⟨hadditional, h⟩
        exact ⟨_, ⟨hadditional, rfl⟩, findReceivingKey_eq_ok.mpr h⟩

end XrCoin.Wallet

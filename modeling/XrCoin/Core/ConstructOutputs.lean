import XrCoin.Crypto.Keys
import XrCoin.Wallet.TransferSelected

/-!
The outputs that `construct_tx_with_tx_key` makes for its destinations, and the public keys that
it puts in the transaction for those who look for them.

A subaddress needs a public key made from its own spend key. There is one key for the whole
transaction, so as soon as it pays a subaddress and somebody else, each output gets one more.
-/

namespace XrCoin.Core

open Archive Cryptonote Wallet Crypto

/-! ### The destinations -/

structure AddressClasses where
  numStdaddresses : ℕ
  numSubaddresses : ℕ
  /-- Not set before there is a subaddress. -/
  singleDestSubaddress : Option AccountPublicAddress

def classifyAddress (changeAddr : Option AccountPublicAddress)
    (state : AddressClasses × List AccountPublicAddress) (dst : TxDestinationEntry) :
    AddressClasses × List AccountPublicAddress :=
  if changeAddr = some dst.addr ∨ dst.addr ∈ state.2 then state
  else if dst.isSubaddress then
    ({ state.1 with
      numSubaddresses := state.1.numSubaddresses + 1
      singleDestSubaddress := some dst.addr }, dst.addr :: state.2)
  else ({ state.1 with numStdaddresses := state.1.numStdaddresses + 1 }, dst.addr :: state.2)

def classifyAddresses (destinations : List TxDestinationEntry)
    (changeAddr : Option AccountPublicAddress) : AddressClasses :=
  (destinations.foldl (classifyAddress changeAddr) (⟨0, 0, none⟩, [])).1

namespace AddressClasses

def single (classes : AddressClasses) : Bool :=
  classes.numStdaddresses = 0 ∧ classes.numSubaddresses = 1

def needAdditionalTxkeys (classes : AddressClasses) : Bool :=
  classes.numSubaddresses > 0 ∧ (classes.numStdaddresses > 0 ∨ classes.numSubaddresses > 1)

end AddressClasses

/-! ### The outputs -/

variable (c : Curve)

def txkeyPub (classes : AddressClasses) (txKey : SecretKey) : Option PublicKey :=
  if classes.single then do
    let dest ← classes.singleDestSubaddress
    c.scalarmultKey dest.spendPublicKey txKey
  else some (c.scalarmultBase txKey)

def additionalTxkey (dst : TxDestinationEntry) (sec : SecretKey) : Option Keypair :=
  if dst.isSubaddress then
    (c.scalarmultKey dst.addr.spendPublicKey sec).map fun pub => ⟨pub, sec⟩
  else some ⟨c.scalarmultBase sec, sec⟩

structure OutputKeys where
  version : ℕ
  /-- The view key of the sender. -/
  viewSecretKey : SecretKey
  changeAddr : Option AccountPublicAddress
  txKey : SecretKey
  additionalTxKeys : List SecretKey

variable (keys : OutputKeys)

/-- The secret key that the sender multiplies the view key of a destination with. -/
def outputSecret (additional : Option Keypair) (dst : TxDestinationEntry) : SecretKey :=
  match additional with
  | some txkey => if dst.isSubaddress then txkey.sec else keys.txKey
  | none => keys.txKey

/-- The derivation for a destination. The sender takes the way of a receiver for what goes back to
it. -/
def outputDerivation (txkeyPub : PublicKey) (additional : Option Keypair)
    (dst : TxDestinationEntry) : Option KeyDerivation :=
  if keys.changeAddr = some dst.addr then c.generateKeyDerivation txkeyPub keys.viewSecretKey
  else c.generateKeyDerivation dst.addr.viewPublicKey (outputSecret keys additional dst)

structure BuiltOutput where
  amount : UInt64
  key : PublicKey
  amountKey : Key
  additionalKey : Option PublicKey

def outputTxkey (need : Bool) (outputIndex : ℕ) (dst : TxDestinationEntry) :
    Option (Option Keypair) :=
  if need then do
    let sec ← keys.additionalTxKeys[outputIndex]?
    (additionalTxkey c dst sec).map some
  else some none

def constructOutput (txkeyPub : PublicKey) (need : Bool) (outputIndex : ℕ)
    (dst : TxDestinationEntry) : Option BuiltOutput := do
  guard (0 < dst.amount ∨ 1 < keys.version)
  let additional ← outputTxkey c keys need outputIndex dst
  let derivation ← outputDerivation c keys txkeyPub additional dst
  let outEphPublicKey ← c.derivePublicKey derivation outputIndex dst.addr.spendPublicKey
  return ⟨dst.amount, outEphPublicKey, c.derivationToScalar derivation outputIndex,
    additional.map (·.pub)⟩

def constructOutputsLoop (txkeyPub : PublicKey) (need : Bool) (outputIndex : ℕ) :
    List TxDestinationEntry → Option (List BuiltOutput)
  | [] => some []
  | dst :: dsts => do
      let out ← constructOutput c keys txkeyPub need outputIndex dst
      let outs ← constructOutputsLoop txkeyPub need (outputIndex + 1) dsts
      return out :: outs

/-- What the transaction gets: the public keys, and the outputs with the keys of their amounts,
which are kept from version 2 on. -/
structure BuiltOutputs where
  txkeyPub : PublicKey
  additionalTxPublicKeys : List PublicKey
  amountKeys : List Key
  vout : List (UInt64 × PublicKey)
  deriving DecidableEq

/-- The part of the function from the classes of the destinations to the check of the additional
keys. The destinations are in the order that the shuffle left them in. -/
def constructOutputs (destinations : List TxDestinationEntry) : Option BuiltOutputs := do
  let classes := classifyAddresses destinations keys.changeAddr
  let txkeyPub ← txkeyPub c classes keys.txKey
  guard (classes.needAdditionalTxkeys → destinations.length = keys.additionalTxKeys.length)
  let outs ← constructOutputsLoop c keys txkeyPub classes.needAdditionalTxkeys 0 destinations
  let additionalTxPublicKeys := outs.filterMap (·.additionalKey)
  guard (additionalTxPublicKeys.length = keys.additionalTxKeys.length)
  return ⟨txkeyPub, additionalTxPublicKeys,
    if 1 < keys.version then outs.map (·.amountKey) else [], outs.map fun o => (o.amount, o.key)⟩

/-! ### What the classes say -/

/-- Whoever else is paid at the address of `dst` is paid there as an address of the same kind. -/
def KindAgrees (destinations : List TxDestinationEntry) (dst : TxDestinationEntry) : Prop :=
  ∀ d ∈ destinations, d.addr = dst.addr → d.isSubaddress = dst.isSubaddress

structure Classified (changeAddr : Option AccountPublicAddress) (dsts : List TxDestinationEntry)
    (state : AddressClasses × List AccountPublicAddress)
    (std sub : List AccountPublicAddress) : Prop where
  numStdaddresses : state.1.numStdaddresses = std.length
  numSubaddresses : state.1.numSubaddresses = sub.length
  singleDestSubaddress : state.1.singleDestSubaddress = sub.head?
  seen : ∀ addr, addr ∈ state.2 ↔ addr ∈ std ∨ addr ∈ sub
  std_mem : ∀ addr ∈ std, ∃ d ∈ dsts, d.addr = addr ∧ d.isSubaddress = false
  sub_mem : ∀ addr ∈ sub, ∃ d ∈ dsts, d.addr = addr ∧ d.isSubaddress = true
  covered : ∀ d ∈ dsts, changeAddr ≠ some d.addr → d.addr ∈ state.2

section Classes

variable {changeAddr : Option AccountPublicAddress} {dsts : List TxDestinationEntry}
  {state : AddressClasses × List AccountPublicAddress} {std sub : List AccountPublicAddress}

theorem mem_append_of_mem {p : TxDestinationEntry → Prop} {dst : TxDestinationEntry}
    (h : ∃ d ∈ dsts, p d) : ∃ d ∈ dsts ++ [dst], p d := by
  obtain ⟨d, hd, hp⟩ := h
  exact ⟨d, List.mem_append_left _ hd, hp⟩

theorem Classified.step (h : Classified changeAddr dsts state std sub) (dst : TxDestinationEntry) :
    ∃ std' sub', Classified changeAddr (dsts ++ [dst]) (classifyAddress changeAddr state dst)
      std' sub' := by
  have hcovered : ∀ seen : List AccountPublicAddress, (∀ addr ∈ state.2, addr ∈ seen) →
      (changeAddr ≠ some dst.addr → dst.addr ∈ seen) →
      ∀ d ∈ dsts ++ [dst], changeAddr ≠ some d.addr → d.addr ∈ seen := by
    intro seen hseen hdst d hd hne
    rcases List.mem_append.mp hd with hd | hd
    · exact hseen _ (h.covered d hd hne)
    · rw [List.mem_singleton] at hd
      exact hd ▸ hdst (hd ▸ hne)
  have hlast : dst ∈ dsts ++ [dst] := List.mem_append_right _ List.mem_cons_self
  rw [classifyAddress]
  by_cases hskip : changeAddr = some dst.addr ∨ dst.addr ∈ state.2
  · rw [if_pos hskip]
    exact ⟨std, sub, h.numStdaddresses, h.numSubaddresses, h.singleDestSubaddress, h.seen,
      fun addr haddr => mem_append_of_mem (h.std_mem addr haddr),
      fun addr haddr => mem_append_of_mem (h.sub_mem addr haddr),
      hcovered _ (fun _ => id) hskip.resolve_left⟩
  · rw [if_neg hskip]
    by_cases hsub : dst.isSubaddress = true
    · rw [if_pos hsub]
      refine ⟨std, dst.addr :: sub, h.numStdaddresses, congrArg (· + 1) h.numSubaddresses, rfl,
        fun addr => ?_, fun addr haddr => mem_append_of_mem (h.std_mem addr haddr), ?_,
        hcovered _ (fun _ => List.mem_cons_of_mem _) fun _ => List.mem_cons_self⟩
      · rw [List.mem_cons, List.mem_cons, h.seen]
        exact or_left_comm
      · intro addr haddr
        rcases List.mem_cons.mp haddr with rfl | haddr
        · exact ⟨dst, hlast, rfl, hsub⟩
        · exact mem_append_of_mem (h.sub_mem addr haddr)
    · rw [if_neg hsub]
      refine ⟨dst.addr :: std, sub, congrArg (· + 1) h.numStdaddresses, h.numSubaddresses,
        h.singleDestSubaddress, fun addr => ?_, ?_,
        fun addr haddr => mem_append_of_mem (h.sub_mem addr haddr),
        hcovered _ (fun _ => List.mem_cons_of_mem _) fun _ => List.mem_cons_self⟩
      · rw [List.mem_cons, List.mem_cons, h.seen, or_assoc]
      · intro addr haddr
        rcases List.mem_cons.mp haddr with rfl | haddr
        · exact ⟨dst, hlast, rfl, Bool.eq_false_iff.mpr hsub⟩
        · exact mem_append_of_mem (h.std_mem addr haddr)

theorem Classified.foldl (h : Classified changeAddr dsts state std sub)
    (more : List TxDestinationEntry) :
    ∃ std' sub', Classified changeAddr (dsts ++ more)
      (more.foldl (classifyAddress changeAddr) state) std' sub' := by
  induction more generalizing dsts state std sub with
  | nil => exact ⟨std, sub, by rwa [List.append_nil]⟩
  | cons dst more ih =>
      obtain ⟨_, _, hstep⟩ := h.step dst
      obtain ⟨std', sub', hmore⟩ := ih hstep
      exact ⟨std', sub', by rwa [List.append_assoc] at hmore⟩

theorem classified (dsts : List TxDestinationEntry) (changeAddr : Option AccountPublicAddress) :
    ∃ seen std sub,
      Classified changeAddr dsts (classifyAddresses dsts changeAddr, seen) std sub := by
  have hnil : Classified changeAddr [] (⟨0, 0, none⟩, []) [] [] :=
    ⟨rfl, rfl, rfl, fun _ => by simp, fun _ h => absurd h List.not_mem_nil,
      fun _ h => absurd h List.not_mem_nil, fun _ h => absurd h List.not_mem_nil⟩
  obtain ⟨std, sub, h⟩ := hnil.foldl dsts
  exact ⟨_, std, sub, h⟩

variable {dst : TxDestinationEntry}

/-- Where somebody is paid at a standard address, the key of the transaction is not made for a
subaddress. -/
theorem not_single_of_standard (hagrees : KindAgrees dsts dst) (hmem : dst ∈ dsts)
    (hchange : changeAddr ≠ some dst.addr) (hstd : dst.isSubaddress = false) :
    (classifyAddresses dsts changeAddr).single = false := by
  obtain ⟨seen, std, sub, h⟩ := classified dsts changeAddr
  have hin : dst.addr ∈ std := by
    rcases (h.seen _).mp (h.covered dst hmem hchange) with hin | hin
    · exact hin
    · obtain ⟨d, hd, haddr, hkind⟩ := h.sub_mem _ hin
      rw [hagrees d hd haddr, hstd] at hkind
      exact absurd hkind Bool.false_ne_true
  have hpos := List.length_pos_of_mem hin
  have hnum := h.numStdaddresses
  dsimp only at hnum
  rw [AddressClasses.single, decide_eq_false_iff_not]
  rintro ⟨hzero, -⟩
  omega

/-- Where a subaddress is paid without a key of its own, it is the one that the key of the
transaction is made for. -/
theorem single_of_subaddress (hagrees : KindAgrees dsts dst) (hmem : dst ∈ dsts)
    (hchange : changeAddr ≠ some dst.addr) (hsub : dst.isSubaddress = true)
    (hneed : (classifyAddresses dsts changeAddr).needAdditionalTxkeys = false) :
    (classifyAddresses dsts changeAddr).single = true ∧
      (classifyAddresses dsts changeAddr).singleDestSubaddress = some dst.addr := by
  obtain ⟨seen, std, sub, h⟩ := classified dsts changeAddr
  have hin : dst.addr ∈ sub := by
    rcases (h.seen _).mp (h.covered dst hmem hchange) with hin | hin
    · obtain ⟨d, hd, haddr, hkind⟩ := h.std_mem _ hin
      rw [hagrees d hd haddr, hsub] at hkind
      exact absurd hkind.symm Bool.false_ne_true
    · exact hin
  have hpos := List.length_pos_of_mem hin
  have hstd := h.numStdaddresses
  have hnum := h.numSubaddresses
  have hsingle := h.singleDestSubaddress
  rw [AddressClasses.needAdditionalTxkeys, decide_eq_false_iff_not] at hneed
  dsimp only at hstd hnum hsingle
  have hone : sub.length = 1 := by omega
  obtain ⟨addr, rfl⟩ := List.length_eq_one_iff.mp hone
  rw [List.mem_singleton] at hin
  exact ⟨decide_eq_true ⟨by omega, by omega⟩, by rw [hsingle, hin]; rfl⟩

end Classes

/-! ### What the loop builds -/

section Loop

variable {c keys} {pub : PublicKey} {need : Bool} {dsts : List TxDestinationEntry}
  {outs : List BuiltOutput} {i : ℕ} {dst : TxDestinationEntry}

theorem constructOutputsLoop_getElem {start : ℕ}
    (h : constructOutputsLoop c keys pub need start dsts = some outs)
    (hi : dsts[i]? = some dst) :
    ∃ out, outs[i]? = some out ∧
      constructOutput c keys pub need (start + i) dst = some out := by
  induction dsts generalizing start outs i with
  | nil => exact absurd hi (by simp)
  | cons d dsts ih =>
      rw [constructOutputsLoop] at h
      obtain ⟨out, hout, h⟩ := Option.bind_eq_some_iff.mp h
      obtain ⟨rest, hrest, h⟩ := Option.bind_eq_some_iff.mp h
      obtain rfl := Option.some.inj h
      cases i with
      | zero =>
          obtain rfl := Option.some.inj hi
          exact ⟨out, rfl, hout⟩
      | succ i =>
          obtain ⟨out', hout', hbuilt⟩ := ih hrest hi
          refine ⟨out', hout', ?_⟩
          rwa [Nat.add_right_comm, Nat.add_assoc] at hbuilt

theorem constructOutput_cases {out : BuiltOutput}
    (h : constructOutput c keys pub need i dst = some out) :
    ∃ additional derivation,
      (need = true ∧ (∃ sec, keys.additionalTxKeys[i]? = some sec ∧
          ∃ txkey, additionalTxkey c dst sec = some txkey ∧ additional = some txkey) ∨
        need = false ∧ additional = none) ∧
      outputDerivation c keys pub additional dst = some derivation ∧
      c.derivePublicKey derivation i dst.addr.spendPublicKey = some out.key ∧
      out.amount = dst.amount ∧ out.amountKey = c.derivationToScalar derivation i ∧
      out.additionalKey = additional.map (·.pub) := by
  rw [constructOutput] at h
  obtain ⟨-, -, h⟩ := Option.bind_eq_some_iff.mp h
  obtain ⟨additional, hadditional, h⟩ := Option.bind_eq_some_iff.mp h
  obtain ⟨derivation, hderivation, h⟩ := Option.bind_eq_some_iff.mp h
  obtain ⟨key, hkey, h⟩ := Option.bind_eq_some_iff.mp h
  obtain rfl := Option.some.inj h
  refine ⟨additional, derivation, ?_, hderivation, hkey, rfl, rfl, rfl⟩
  cases need with
  | true =>
      obtain ⟨sec, hsec, hmap⟩ := Option.bind_eq_some_iff.mp hadditional
      obtain ⟨txkey, htxkey, rfl⟩ := Option.map_eq_some_iff.mp hmap
      exact .inl ⟨rfl, sec, hsec, txkey, htxkey, rfl⟩
  | false => exact .inr ⟨rfl, (Option.some.inj hadditional).symm⟩

theorem constructOutputsLoop_mem {start : ℕ} {out : BuiltOutput}
    (h : constructOutputsLoop c keys pub need start dsts = some outs) (hout : out ∈ outs) :
    ∃ i dst, constructOutput c keys pub need i dst = some out := by
  induction dsts generalizing start outs with
  | nil =>
      obtain rfl := Option.some.inj h
      exact absurd hout List.not_mem_nil
  | cons d dsts ih =>
      rw [constructOutputsLoop] at h
      obtain ⟨first, hfirst, h⟩ := Option.bind_eq_some_iff.mp h
      obtain ⟨rest, hrest, h⟩ := Option.bind_eq_some_iff.mp h
      obtain rfl := Option.some.inj h
      rcases List.mem_cons.mp hout with rfl | hout
      · exact ⟨start, d, hfirst⟩
      · exact ih hrest hout

theorem additionalTxkey_cases {sec : SecretKey} {txkey : Keypair}
    (h : additionalTxkey c dst sec = some txkey) :
    txkey.sec = sec ∧ (∃ P, txkey.pub = c.toBytes P) ∧
      (dst.isSubaddress = true → ∀ P, dst.addr.spendPublicKey = c.toBytes P →
        txkey.pub = c.toBytes (c.mul sec P)) := by
  rw [additionalTxkey] at h
  by_cases hsub : dst.isSubaddress = true
  · rw [if_pos hsub] at h
    obtain ⟨pub, hpub, rfl⟩ := Option.map_eq_some_iff.mp h
    refine ⟨rfl, ?_, fun _ P hP => ?_⟩
    · obtain ⟨A, -, rfl⟩ := Option.map_eq_some_iff.mp hpub
      exact ⟨_, rfl⟩
    · rw [hP, Curve.scalarmultKey_toBytes] at hpub
      exact (Option.some.inj hpub).symm
  · rw [if_neg hsub] at h
    obtain rfl := Option.some.inj h
    exact ⟨rfl, ⟨_, rfl⟩, fun h => absurd h hsub⟩

theorem additionalKey_isPoint {out : BuiltOutput}
    (h : constructOutput c keys pub true i dst = some out) :
    ∃ P, out.additionalKey = some (c.toBytes P) := by
  obtain ⟨additional, -, hadditional, -, -, -, -, hkey⟩ := constructOutput_cases h
  obtain ⟨-, sec, -, txkey, htxkey, rfl⟩ := hadditional.resolve_right fun h => by
    exact absurd h.1.symm Bool.false_ne_true
  obtain ⟨-, ⟨P, hP⟩, -⟩ := additionalTxkey_cases htxkey
  exact ⟨P, by rw [hkey, Option.map_some, hP]⟩

theorem getElem?_filterMap_of_isSome {α β : Type} {f : α → Option β} {as : List α}
    (h : ∀ a ∈ as, (f a).isSome) (i : ℕ) : (as.filterMap f)[i]? = as[i]?.bind f := by
  induction as generalizing i with
  | nil => rfl
  | cons a as ih =>
      obtain ⟨b, hb⟩ := Option.isSome_iff_exists.mp (h a List.mem_cons_self)
      rw [List.filterMap_cons_some hb]
      cases i with
      | zero => exact hb.symm
      | succ i => exact ih (fun a' ha' => h a' (List.mem_cons_of_mem _ ha')) i

end Loop

/-! ### What a receiver finds -/

section Found

variable {c keys} {built : BuiltOutputs} {dsts : List TxDestinationEntry} {i : ℕ}
  {dst : TxDestinationEntry} {owner : c.Account} {index : SubaddressIndex} {left : PublicKey}

theorem constructOutputs_cases (h : constructOutputs c keys dsts = some built) :
    ∃ outs, txkeyPub c (classifyAddresses dsts keys.changeAddr) keys.txKey =
        some built.txkeyPub ∧
      constructOutputsLoop c keys built.txkeyPub
        (classifyAddresses dsts keys.changeAddr).needAdditionalTxkeys 0 dsts = some outs ∧
      built.additionalTxPublicKeys = outs.filterMap (·.additionalKey) ∧
      built.vout = outs.map fun o => (o.amount, o.key) := by
  rw [constructOutputs] at h
  obtain ⟨pub, hpub, h⟩ := Option.bind_eq_some_iff.mp h
  obtain ⟨-, -, h⟩ := Option.bind_eq_some_iff.mp h
  obtain ⟨outs, houts, h⟩ := Option.bind_eq_some_iff.mp h
  obtain ⟨-, -, h⟩ := Option.bind_eq_some_iff.mp h
  obtain rfl := Option.some.inj h
  exact ⟨outs, hpub, houts, rfl, rfl⟩

/-- What a sender shares with the owner of an address that is paid. The owner gets the same from
the key of the transaction, or from the additional key of the output. -/
theorem outputDerivation_shared {pub : PublicKey} {additional : Option Keypair}
    {derivation : KeyDerivation} (hagrees : KindAgrees dsts dst) (hmem : dst ∈ dsts)
    (haddr : c.getSubaddress owner.address owner.keys index = some dst.addr)
    (hkind : dst.isSubaddress = !decide index.isZero)
    (hchange : keys.changeAddr = some dst.addr → keys.viewSecretKey = owner.view)
    (hpub : txkeyPub c (classifyAddresses dsts keys.changeAddr) keys.txKey = some pub)
    (hadditional :
      (classifyAddresses dsts keys.changeAddr).needAdditionalTxkeys = true ∧
          (∃ sec, keys.additionalTxKeys[i]? = some sec ∧
            ∃ txkey, additionalTxkey c dst sec = some txkey ∧ additional = some txkey) ∨
        (classifyAddresses dsts keys.changeAddr).needAdditionalTxkeys = false ∧
          additional = none)
    (h : outputDerivation c keys pub additional dst = some derivation) :
    c.generateKeyDerivation pub owner.view = some derivation ∨
      ∃ txkey, additional = some txkey ∧
        c.generateKeyDerivation txkey.pub owner.view = some derivation := by
  rw [Curve.getSubaddress_keys] at haddr
  have hspend : dst.addr.spendPublicKey = c.toBytes (owner.spendPoint index) :=
    (congrArg (·.spendPublicKey) (Option.some.inj haddr)).symm
  have hview : dst.addr.viewPublicKey = c.toBytes (owner.viewPoint index) :=
    (congrArg (·.viewPublicKey) (Option.some.inj haddr)).symm
  rw [outputDerivation] at h
  by_cases hself : keys.changeAddr = some dst.addr
  · rw [if_pos hself, hchange hself] at h
    exact .inl h
  rw [if_neg hself, hview] at h
  by_cases hzero : index.isZero
  · -- A standard address: the key of the transaction is made from the base point.
    have hstd : dst.isSubaddress = false := by rw [hkind, decide_eq_true hzero, Bool.not_true]
    have hbase : pub = c.toBytes (c.mul keys.txKey c.base) := by
      rw [txkeyPub, not_single_of_standard hagrees hmem hself hstd, if_neg Bool.false_ne_true,
        Curve.scalarmultBase_eq] at hpub
      exact (Option.some.inj hpub).symm
    have hsec : outputSecret keys additional dst = keys.txKey := by
      cases additional with
      | none => rfl
      | some txkey => exact if_neg (hstd ▸ Bool.false_ne_true)
    rw [hsec, Curve.Account.viewPoint, if_pos hzero] at h
    refine .inl ?_
    rw [hbase, Curve.generateKeyDerivation_comm]
    exact h
  · -- A subaddress: the key is made from its own spend key, wherever it stands.
    have hsub : dst.isSubaddress = true := by rw [hkind, decide_eq_false hzero, Bool.not_false]
    rw [Curve.Account.viewPoint, if_neg hzero] at h
    rcases hadditional with ⟨-, sec, -, txkey, htxkey, rfl⟩ | ⟨hneed, rfl⟩
    · obtain ⟨hsec, -, hpoint⟩ := additionalTxkey_cases htxkey
      refine .inr ⟨txkey, rfl, ?_⟩
      rw [outputSecret, if_pos hsub, hsec] at h
      rw [hpoint hsub _ hspend, Curve.generateKeyDerivation_comm]
      exact h
    · obtain ⟨hsingle, hdest⟩ := single_of_subaddress hagrees hmem hself hsub hneed
      refine .inl ?_
      rw [txkeyPub, if_pos hsingle, hdest] at hpub
      change c.scalarmultKey dst.addr.spendPublicKey keys.txKey = some pub at hpub
      rw [hspend, Curve.scalarmultKey_toBytes] at hpub
      rw [← Option.some.inj hpub, Curve.generateKeyDerivation_comm]
      exact h

/-- An output is found with what its sender shared, through whichever key that was. -/
theorem subaddrRecvInfo_isSome {pub : PublicKey} {additionalKeys : List PublicKey}
    {derivation : KeyDerivation} (table : c.SubaddressTable owner)
    (hknown : (table.find (c.toBytes (owner.spendPoint index))).isSome)
    (hpoints : ∀ key ∈ additionalKeys, ∃ P, key = c.toBytes P)
    (h : c.generateKeyDerivation pub owner.view = some derivation ∨
      ∃ key, additionalKeys[i]? = some key ∧
        c.generateKeyDerivation key owner.view = some derivation) :
    (subaddrRecvInfo (c.deviceDefault left) owner.keys table.find
      (c.outKeyFor (owner.spendPoint index) derivation i) pub additionalKeys i).isSome := by
  have hreceive : (receiveInfo (c.deviceDefault left) table.find
      (c.outKeyFor (owner.spendPoint index) derivation i) i derivation).isSome :=
    Curve.receiveInfo_outKeyFor table hknown
  obtain ⟨info, hinfo⟩ := Option.isSome_iff_exists.mp hreceive
  cases hfirst : receiveInfo (c.deviceDefault left) table.find
      (c.outKeyFor (owner.spendPoint index) derivation i) i
      (recvDerivation (c.deviceDefault left) owner.keys pub) with
  | some first =>
      rw [subaddrRecvInfo, isOutToAcc, hfirst]
      rfl
  | none =>
      have hkey : ∃ key, additionalKeys[i]? = some key ∧
          c.generateKeyDerivation key owner.view = some derivation := by
        refine h.resolve_left fun hpub => ?_
        have hrecv : recvDerivation (c.deviceDefault left) owner.keys pub = derivation := by
          exact congrArg (Option.getD · identityDerivation) hpub
        rw [hrecv, hinfo] at hfirst
        exact absurd hfirst (Option.some_ne_none _)
      obtain ⟨key, hkey, hderivation⟩ := hkey
      have hall : keyDerivation (c.deviceDefault left) owner.keys
          (derivableKeys (c.deviceDefault left) owner.keys additionalKeys) i =
          keyDerivation (c.deviceDefault left) owner.keys additionalKeys i := by
        refine keyDerivation_derivableKeys _ _ fun j _ key' hkey' => ?_
        obtain ⟨P, rfl⟩ := hpoints key' (List.mem_of_getElem? hkey')
        have hsome := Curve.generateKeyDerivation_toBytes P owner.view
        exact Option.isSome_iff_exists.mpr ⟨_, hsome⟩
      have hown : keyDerivation (c.deviceDefault left) owner.keys additionalKeys i =
          some derivation := by
        rw [keyDerivation, hkey]
        exact hderivation
      rw [subaddrRecvInfo_of_none _ _ _ hfirst, infoOfKey, hall, hown]
      exact hreceive

/-- Whoever is paid finds the output and can open it: for the main address, for a subaddress, with
or without additional keys, and for change. Nothing is asked of the destinations at other
addresses. -/
theorem constructOutputs_found (h : constructOutputs c keys dsts = some built)
    (hagrees : KindAgrees dsts dst) (hdst : dsts[i]? = some dst)
    (haddr : c.getSubaddress owner.address owner.keys index = some dst.addr)
    (hkind : dst.isSubaddress = !decide index.isZero)
    (hchange : keys.changeAddr = some dst.addr → keys.viewSecretKey = owner.view)
    (table : c.SubaddressTable owner) (hknown : (table.find dst.addr.spendPublicKey).isSome) :
    ∃ outKey opened, built.vout[i]? = some (dst.amount, outKey) ∧
      generateKeyImageHelper (c.deviceDefault left) owner.keys table.find outKey built.txkeyPub
        built.additionalTxPublicKeys i = some opened ∧
      c.Opens outKey opened := by
  obtain ⟨outs, hpub, houts, hkeys, hvout⟩ := constructOutputs_cases h
  obtain ⟨out, hout, hbuilt⟩ := constructOutputsLoop_getElem houts hdst
  rw [Nat.zero_add] at hbuilt
  obtain ⟨additional, derivation, hadditional, hderivation, hkey, hamount, -, hadd⟩ :=
    constructOutput_cases hbuilt
  have hspend : dst.addr.spendPublicKey = c.toBytes (owner.spendPoint index) := by
    rw [Curve.getSubaddress_keys] at haddr
    exact (congrArg (·.spendPublicKey) (Option.some.inj haddr)).symm
  rw [hspend, Curve.derivePublicKey_toBytes] at hkey
  rw [hspend] at hknown
  have hshared := outputDerivation_shared hagrees (List.mem_of_getElem? hdst) haddr hkind hchange
    hpub hadditional hderivation
  have hneeded : ∀ txkey, additional = some txkey →
      (classifyAddresses dsts keys.changeAddr).needAdditionalTxkeys = true := by
    rintro txkey rfl
    rcases hadditional with ⟨hneed, -⟩ | ⟨-, hnone⟩
    · exact hneed
    · exact absurd hnone (Option.some_ne_none _)
  have hpoints : ∀ key ∈ built.additionalTxPublicKeys, ∃ P, key = c.toBytes P := by
    intro key hmem
    rw [hkeys] at hmem
    obtain ⟨o, ho, hsome⟩ := List.mem_filterMap.mp hmem
    obtain ⟨j, d, hj⟩ := constructOutputsLoop_mem houts ho
    obtain ⟨additional', -, hadditional', -, -, -, -, hadd'⟩ := constructOutput_cases hj
    rcases hadditional' with ⟨hneed, -⟩ | ⟨-, rfl⟩
    · rw [hneed] at hj
      obtain ⟨P, hP⟩ := additionalKey_isPoint hj
      exact ⟨P, Option.some.inj (hsome.symm.trans hP)⟩
    · rw [hadd'] at hsome
      exact absurd hsome.symm (Option.some_ne_none _)
  have hfound : (subaddrRecvInfo (c.deviceDefault left) owner.keys table.find
      (c.outKeyFor (owner.spendPoint index) derivation i) built.txkeyPub
      built.additionalTxPublicKeys i).isSome := by
    refine subaddrRecvInfo_isSome table hknown hpoints (hshared.imp_right ?_)
    rintro ⟨txkey, rfl, htxkey⟩
    refine ⟨txkey.pub, ?_, htxkey⟩
    have hall : ∀ o ∈ outs, o.additionalKey.isSome := by
      intro o ho
      obtain ⟨j, d, hj⟩ := constructOutputsLoop_mem houts ho
      rw [hneeded _ rfl] at hj
      obtain ⟨P, hP⟩ := additionalKey_isPoint hj
      exact Option.isSome_iff_exists.mpr ⟨_, hP⟩
    rw [hkeys, getElem?_filterMap_of_isSome hall, hout]
    exact hadd
  obtain ⟨opened, hopened, hopens⟩ :=
    Curve.generateKeyImageHelper_of_isOutToAcc table hfound
  refine ⟨_, opened, ?_, hopened, hopens⟩
  rw [hvout, List.getElem?_map, hout]
  exact congrArg some (Prod.ext hamount (Option.some.inj hkey).symm)

def smallAccount : smallCurve.Account where
  spend := smallCurve.reduce 5
  view := smallCurve.reduce 7
  scCheck_spend := by decide +kernel
  scCheck_view := by decide +kernel
  spend_ne := by decide +kernel

def smallIndices : List SubaddressIndex := [⟨0, 0⟩, ⟨2, 1⟩]

def smallTable : smallCurve.SubaddressTable smallAccount where
  find key := smallIndices.find? fun index =>
    key = smallCurve.toBytes (smallAccount.spendPoint index)
  find_key key index h := by
    have hkey := List.find?_some h
    exact of_decide_eq_true hkey

/-- An account is paid at both of its addresses, the sender gets change, and a fourth address is
given once as a standard address and once as a subaddress. -/
def smallSubaddress : TxDestinationEntry :=
  ⟨5, ⟨smallCurve.toBytes (smallAccount.spendPoint ⟨2, 1⟩),
    smallCurve.toBytes (smallAccount.viewPoint ⟨2, 1⟩)⟩, true⟩

def smallDestinations : List TxDestinationEntry :=
  [smallSubaddress, ⟨7, smallAccount.address, false⟩,
    ⟨3, ⟨smallKey 4, smallKey 6⟩, false⟩, ⟨1, ⟨smallKey 9, smallKey 6⟩, false⟩,
    ⟨2, ⟨smallKey 9, smallKey 6⟩, true⟩]

def smallOutputKeys : OutputKeys :=
  ⟨2, smallCurve.reduce 2, some ⟨smallKey 4, smallKey 6⟩, smallCurve.reduce 6,
    [3, 4, 8, 9, 10].map smallCurve.reduce⟩

theorem constructOutputs_found_subaddress :
    ∃ built, constructOutputs smallCurve smallOutputKeys smallDestinations = some built ∧
      ∃ outKey opened, built.vout[0]? = some (5, outKey) ∧
        generateKeyImageHelper (smallCurve.deviceDefault nullSkey) smallAccount.keys
          smallTable.find outKey built.txkeyPub built.additionalTxPublicKeys 0 = some opened ∧
        smallCurve.Opens outKey opened := by
  have hbuilt : (constructOutputs smallCurve smallOutputKeys smallDestinations).isSome := by
    decide +kernel
  obtain ⟨built, h⟩ := Option.isSome_iff_exists.mp hbuilt
  have hagrees : KindAgrees smallDestinations smallSubaddress := by
    rw [KindAgrees]
    decide +kernel
  have haddr : smallCurve.getSubaddress smallAccount.address smallAccount.keys ⟨2, 1⟩ =
      some smallSubaddress.addr := by decide +kernel
  have hdst : smallDestinations[0]? = some smallSubaddress := rfl
  exact ⟨built, h, constructOutputs_found h hagrees hdst haddr rfl (by decide +kernel) smallTable
    (by decide +kernel)⟩

end Found

end XrCoin.Core

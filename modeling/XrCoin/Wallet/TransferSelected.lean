import XrCoin.Common.ApplyPermutation
import XrCoin.Cryptonote.DecomposeAmount
import XrCoin.Wallet.ReserveProof
import XrCoin.Wallet.Scan

/-!
`transfer_selected` and `transfer_selected_rct`: one transaction from the outputs that were selected
for it.

The rings, the keys and the signatures are a parameter, with all that can go wrong on the way to
them. It is asked once for each transaction that is built and may answer differently each time. To
read outside of the transfers counts as a throw.
-/

namespace XrCoin.Wallet

open Archive Cryptonote Data

/-! ### Data -/

structure TxDestinationEntry where
  amount : UInt64
  addr : AccountPublicAddress
  isSubaddress : Bool
  deriving DecidableEq

structure TxDustPolicy where
  dustThreshold : UInt64
  addToFee : Bool
  addrForDust : AccountPublicAddress

/-- What is built: the size of the blob, the weight, and the keys of the real outputs in the order
of the inputs. -/
structure BuiltTx where
  blobSize : ℕ
  weight : UInt64
  sources : List PublicKey

structure PendingTx where
  blobSize : ℕ
  fee : UInt64
  dust : UInt64
  dustAddedToFee : Bool
  changeDts : TxDestinationEntry
  selectedTransfers : List ℕ
  dests : List TxDestinationEntry
  deriving DecidableEq

structure BuildOps where
  /-- The rings, the sources and `construct_tx_and_get_tx_key`, for the number of the call, with or
  without confidential amounts. -/
  construct : ℕ → Bool → List ℕ → List TxDestinationEntry → Except String BuiltTx
  getSubaddress : SubaddressIndex → AccountPublicAddress
  /-- The address for a change of zero. -/
  dummyAddress : ℕ → AccountPublicAddress
  /-- `get_upper_transaction_weight_limit`. -/
  upperTransactionWeightLimit : UInt64

def nullAddress : AccountPublicAddress :=
  ⟨List.Vector.replicate 32 0, List.Vector.replicate 32 0⟩

/-! ### The amounts -/

def addAmounts (neededMoney : UInt64) : List TxDestinationEntry → Except String UInt64
  | [] => .ok neededMoney
  | dt :: dsts => do
      throwIf (dt.amount = 0) "zero_destination"
      throwIf (neededMoney + dt.amount < dt.amount) "tx_sum_overflow"
      addAmounts (neededMoney + dt.amount) dsts

structure Gathered where
  neededMoney : UInt64
  foundMoney : UInt64
  subaddrAccount : UInt32

def selectedDetails (transfers : List TransferDetails) : List ℕ → Except String (List TransferDetails)
  | [] => .ok []
  | idx :: idxs => do
      let td ← orThrow transfers[idx]? "vector::_M_range_check"
      let tds ← selectedDetails transfers idxs
      .ok (td :: tds)

def gatherMoney (transfers : List TransferDetails) (dsts : List TxDestinationEntry)
    (selectedTransfers : List ℕ) (fee : UInt64) : Except String Gathered := do
  throwIf (dsts = []) "zero_destination"
  let neededMoney ← addAmounts fee dsts
  let tds ← selectedDetails transfers selectedTransfers
  let foundMoney := (tds.map TransferDetails.amount).sum
  throwIf (foundMoney < neededMoney) "not_enough_unlocked_money"
  let first ← orThrow tds.head? "vector::_M_range_check"
  throwIf (∃ td ∈ tds, td.subaddrIndex.major ≠ first.subaddrIndex.major)
    "the tx uses funds from multiple accounts"
  .ok ⟨neededMoney, foundMoney, first.subaddrIndex.major⟩

/-! ### Splitting -/

def splitDestination (de : TxDestinationEntry) : List TxDestinationEntry :=
  decomposeAmountIntoDigits de.amount 0 (fun chunk => { de with amount := chunk })
    fun dust => { de with amount := dust }

def splitChange (change dustThreshold : UInt64) : List (Bool × UInt64) :=
  decomposeAmountIntoDigits change 0 (fun chunk => (decide (chunk ≤ dustThreshold), chunk))
    fun dust => (true, dust)

structure Splitted where
  splittedDsts : List TxDestinationEntry
  dustDsts : List TxDestinationEntry

def digitSplitStrategy (dsts : List TxDestinationEntry) (changeDst : TxDestinationEntry)
    (dustThreshold : UInt64) : Splitted :=
  let parts := splitChange changeDst.amount dustThreshold
  let toChange := fun part : Bool × UInt64 => (⟨part.2, changeDst.addr, false⟩ : TxDestinationEntry)
  { splittedDsts := dsts.flatMap splitDestination ++ (parts.filter fun part => !part.1).map toChange
    dustDsts := (parts.filter fun part => part.1).map toChange }

/-! ### The order of the inputs -/

/-- Where the sources have gone: for each of the new ones, all places of its key in the old ones. -/
def insOrder (sourcesCopy sources : List PublicKey) : List ℕ :=
  sources.flatMap fun key => (sourcesCopy.zipIdx.filter fun p => p.1 = key).map Prod.snd

/-- `apply_permutation`, which throws unless it is given one. -/
def applyPermutation (permutation v : List ℕ) : Except String (List ℕ) := do
  throwIf (permutation.length ≠ v.length) "Mismatched vector sizes"
  throwIf (∃ n ∈ List.range permutation.length, n ∉ permutation) "Bad permutation"
  .ok (permutation.map fun i => v.getD i 0)

variable (ops : BuildOps)

def buildTx (transfers : List TransferDetails) (call : ℕ) (rct : Bool) (selectedTransfers : List ℕ)
    (splittedDsts : List TxDestinationEntry) : Except String (BuiltTx × List ℕ) := do
  let tds ← selectedDetails transfers selectedTransfers
  throwIf (∃ td ∈ tds, td.publicKey? = none) "Unable to get transfer public key from output"
  let built ← ops.construct call rct selectedTransfers splittedDsts
  throwIf (ops.upperTransactionWeightLimit ≤ built.weight) "tx_too_big"
  let order := insOrder (tds.filterMap TransferDetails.publicKey?) built.sources
  throwIf (order.length ≠ built.sources.length) "Failed to work out sources permutation"
  let selected ← applyPermutation order selectedTransfers
  .ok (built, selected)

/-! ### The two functions -/

def transferSelected (transfers : List TransferDetails) (call : ℕ) (dsts : List TxDestinationEntry)
    (selectedTransfers : List ℕ) (fee : UInt64) (policy : TxDustPolicy) :
    Except String PendingTx := do
  let money ← gatherMoney transfers dsts selectedTransfers fee
  let changeDts : TxDestinationEntry :=
    if money.neededMoney < money.foundMoney then
      ⟨money.foundMoney - money.neededMoney, ops.getSubaddress ⟨money.subaddrAccount, 0⟩, false⟩
    else ⟨0, nullAddress, false⟩
  let splitted := digitSplitStrategy dsts changeDts policy.dustThreshold
  throwIf (∃ d ∈ splitted.dustDsts, policy.dustThreshold < d.amount) "invalid dust value"
  let splittedDsts := splitted.splittedDsts ++
    if policy.addToFee then []
    else splitted.dustDsts.map fun d => { d with addr := policy.addrForDust }
  let dust := (splitted.dustDsts.map TxDestinationEntry.amount).sum
  let (built, selected) ← buildTx ops transfers call false selectedTransfers splittedDsts
  let dustSentElsewhere := decide (policy.addrForDust ≠ changeDts.addr)
  let leaves := policy.addToFee || dustSentElsewhere
  .ok {
    blobSize := built.blobSize
    fee := if policy.addToFee then fee + dust else fee
    dust := if leaves then dust else 0
    dustAddedToFee := policy.addToFee
    changeDts := if leaves then { changeDts with amount := changeDts.amount - dust } else changeDts
    selectedTransfers := selected
    dests := dsts }

def transferSelectedRct (transfers : List TransferDetails) (call : ℕ)
    (dsts : List TxDestinationEntry) (selectedTransfers : List ℕ) (fee : UInt64) :
    Except String PendingTx := do
  let money ← gatherMoney transfers dsts selectedTransfers fee
  let change := money.foundMoney - money.neededMoney
  let changeDts : TxDestinationEntry :=
    if change ≠ 0 then ⟨change, ops.getSubaddress ⟨money.subaddrAccount, 0⟩, false⟩
    else if dsts.length = 1 then ⟨0, ops.dummyAddress call, false⟩
    else ⟨0, nullAddress, false⟩
  let splittedDsts := if change = 0 ∧ dsts.length ≠ 1 then dsts else dsts ++ [changeDts]
  let (built, selected) ← buildTx ops transfers call true selectedTransfers splittedDsts
  .ok {
    blobSize := built.blobSize
    fee := fee
    dust := 0
    dustAddedToFee := false
    changeDts := changeDts
    selectedTransfers := selected
    dests := dsts }

/-! ### Conservation -/

def totalAmount (dsts : List TxDestinationEntry) : ℕ := (dsts.map fun d => d.amount.toNat).sum

def spentMoney (transfers : List TransferDetails) (idxs : List ℕ) : ℕ :=
  (idxs.map fun idx => (transfers[idx]?.map fun td => td.amount.toNat).getD 0).sum

/-- What goes into a transaction comes out of it. -/
def PendingTx.Conserves (transfers : List TransferDetails) (ptx : PendingTx) : Prop :=
  spentMoney transfers ptx.selectedTransfers < 2 ^ 64 →
    spentMoney transfers ptx.selectedTransfers = totalAmount ptx.dests + ptx.changeDts.amount.toNat +
      ptx.fee.toNat + if ptx.dustAddedToFee then 0 else ptx.dust.toNat

theorem addAmounts_eq_ok {neededMoney money : UInt64} {dsts : List TxDestinationEntry}
    (h : addAmounts neededMoney dsts = .ok money) :
    money.toNat = neededMoney.toNat + totalAmount dsts := by
  induction dsts generalizing neededMoney with
  | nil => rw [← Except.ok.inj h]; rfl
  | cons dt dsts ih =>
      obtain ⟨_, -, h⟩ := bind_eq_ok.mp h
      obtain ⟨_, hwraps, h⟩ := bind_eq_ok.mp h
      rw [throwIf_eq_ok, UInt64.lt_iff_toNat_lt, UInt64.toNat_add] at hwraps
      rw [ih h, UInt64.toNat_add]
      simp only [totalAmount, List.map_cons, List.sum_cons]
      have hneeded := neededMoney.toNat_lt
      have hamount := dt.amount.toNat_lt
      omega

theorem selectedDetails_eq_ok {transfers tds : List TransferDetails} {idxs : List ℕ}
    (h : selectedDetails transfers idxs = .ok tds) :
    (tds.map fun td => td.amount.toNat).sum = spentMoney transfers idxs := by
  induction idxs generalizing tds with
  | nil => rw [← Except.ok.inj h]; rfl
  | cons idx idxs ih =>
      obtain ⟨td, htd, h⟩ := bind_eq_ok.mp h
      obtain ⟨rest, hrest, h⟩ := bind_eq_ok.mp h
      rw [← Except.ok.inj h]
      simp only [spentMoney, List.map_cons, List.sum_cons, orThrow_eq_ok.mp htd] at ih ⊢
      rw [ih hrest]
      rfl

theorem gatherMoney_spec {transfers : List TransferDetails} {dsts : List TxDestinationEntry}
    {idxs : List ℕ} {fee : UInt64} {money : Gathered}
    (h : gatherMoney transfers dsts idxs fee = .ok money) :
    money.neededMoney.toNat = fee.toNat + totalAmount dsts ∧
      money.neededMoney ≤ money.foundMoney ∧
      money.foundMoney.toNat = spentMoney transfers idxs % 2 ^ 64 := by
  obtain ⟨_, -, h⟩ := bind_eq_ok.mp h
  obtain ⟨neededMoney, hneeded, h⟩ := bind_eq_ok.mp h
  obtain ⟨tds, htds, h⟩ := bind_eq_ok.mp h
  obtain ⟨_, henough, h⟩ := bind_eq_ok.mp h
  obtain ⟨first, -, h⟩ := bind_eq_ok.mp h
  obtain ⟨_, -, h⟩ := bind_eq_ok.mp h
  rw [← Except.ok.inj h]
  refine ⟨addAmounts_eq_ok hneeded, UInt64.not_lt.mp (throwIf_eq_ok.mp henough), ?_⟩
  rw [toNat_sum, List.map_map, ← selectedDetails_eq_ok htds]
  rfl

theorem map_getD_range {v : List ℕ} {n : ℕ} (h : n = v.length) :
    (List.range n).map (fun i => v.getD i 0) = v := by
  apply List.ext_getElem
  · simp [h]
  · intro i h₁ h₂
    simp [List.getD_eq_getElem?_getD, h₂]

theorem applyPermutation_perm {permutation v v' : List ℕ}
    (h : applyPermutation permutation v = .ok v') : v'.Perm v := by
  obtain ⟨_, hlength, h⟩ := bind_eq_ok.mp h
  obtain ⟨_, hbad, h⟩ := bind_eq_ok.mp h
  rw [throwIf_eq_ok, not_not] at hlength
  have hperm := Common.perm_range_iff.mpr (throwIf_eq_ok.mp hbad)
  rw [← Except.ok.inj h]
  exact (hperm.map _).trans (List.Perm.of_eq (map_getD_range hlength))

theorem applyPermutation_swaps (permutation v : List ℕ) {fuel : ℕ}
    (hfuel : permutation.length < fuel) :
    Common.applyPermutationTo fuel permutation v =
      match applyPermutation permutation v with
      | .ok v' => some (.ok (), v')
      | .error e => some (.error e, v) := by
  by_cases hlength : permutation.length = v.length
  · by_cases hbad : ∃ n ∈ List.range permutation.length, n ∉ permutation
    · rw [applyPermutation, throwIf, throwIf, if_neg (not_not.mpr hlength), if_pos hbad,
        Common.applyPermutationTo, if_neg (not_not.mpr hlength), Common.applyPermutation,
        if_pos hbad]
      rfl
    rw [applyPermutation, throwIf, throwIf, if_neg (not_not.mpr hlength), if_neg hbad]
    have hperm := Common.perm_range_iff.mpr hbad
    obtain ⟨v', hv', hpermuted⟩ := Common.applyPermutationTo_spec hperm hlength.symm hfuel
    have heq : v' = permutation.map fun i => v.getD i 0 := by
      apply List.ext_getElem?
      intro i
      by_cases hi : i < permutation.length
      · rw [hpermuted.2 i hi, List.getElem?_map, List.getElem?_eq_getElem hi]
        have hlt : permutation[i] < v.length := by
          rw [← hlength]
          exact List.mem_range.mp (hperm.mem_iff.mp (List.getElem_mem hi))
        simp [List.getD_eq_getElem?_getD, hlt]
      · have hle : permutation.length ≤ i := Nat.le_of_not_lt hi
        rw [List.getElem?_eq_none (hpermuted.1 ▸ hle), List.getElem?_eq_none (by simpa using hle)]
    rw [hv', heq]
    rfl
  · rw [applyPermutation, throwIf, if_pos hlength, Common.applyPermutationTo, if_pos hlength]
    rfl

theorem spentMoney_perm {transfers : List TransferDetails} {idxs idxs' : List ℕ}
    (h : idxs.Perm idxs') : spentMoney transfers idxs = spentMoney transfers idxs' :=
  (h.map _).sum_eq

theorem buildTx_perm {transfers : List TransferDetails} {call : ℕ} {rct : Bool} {idxs : List ℕ}
    {splittedDsts : List TxDestinationEntry} {r : BuiltTx × List ℕ}
    (h : buildTx ops transfers call rct idxs splittedDsts = .ok r) : r.2.Perm idxs := by
  obtain ⟨tds, -, h⟩ := bind_eq_ok.mp h
  obtain ⟨_, -, h⟩ := bind_eq_ok.mp h
  obtain ⟨built, -, h⟩ := bind_eq_ok.mp h
  obtain ⟨_, -, h⟩ := bind_eq_ok.mp h
  obtain ⟨_, -, h⟩ := bind_eq_ok.mp h
  obtain ⟨selected, hselected, h⟩ := bind_eq_ok.mp h
  rw [← Except.ok.inj h]
  exact applyPermutation_perm hselected

theorem sum_splitChange (change dustThreshold : UInt64) :
    ((splitChange change dustThreshold).map fun part => part.2.toNat).sum = change.toNat := by
  have hparts : (splitChange change dustThreshold).map Prod.snd =
      decomposeAmountIntoDigits change 0 id id := decomposeLoop_map ..
  rw [← sum_decomposeAmount change 0, ← hparts, List.map_map]
  rfl

theorem toNat_dust (dsts : List TxDestinationEntry) (changeDst : TxDestinationEntry)
    (dustThreshold : UInt64) :
    (((digitSplitStrategy dsts changeDst dustThreshold).dustDsts.map
      TxDestinationEntry.amount).sum).toNat ≤ changeDst.amount.toNat := by
  have hdust : ((digitSplitStrategy dsts changeDst dustThreshold).dustDsts.map
      TxDestinationEntry.amount) = ((splitChange changeDst.amount dustThreshold).filter
        fun part => part.1).map Prod.snd := by
    rw [digitSplitStrategy, List.map_map]
    rfl
  rw [hdust, toNat_sum, List.map_map]
  have hsub : (((splitChange changeDst.amount dustThreshold).filter fun part => part.1).map
      (UInt64.toNat ∘ Prod.snd)).Sublist
      ((splitChange changeDst.amount dustThreshold).map (UInt64.toNat ∘ Prod.snd)) :=
    List.filter_sublist.map _
  have hle := hsub.sum_le_sum fun _ _ => Nat.zero_le _
  have hsum := sum_splitChange changeDst.amount dustThreshold
  exact (Nat.mod_le _ _).trans (hle.trans hsum.le)

structure PendingTx.For (transfers : List TransferDetails) (dsts : List TxDestinationEntry)
    (idxs : List ℕ) (ptx : PendingTx) : Prop where
  dests : ptx.dests = dsts
  selected : ptx.selectedTransfers.Perm idxs
  conserves : ptx.Conserves transfers

theorem toNat_change {neededMoney foundMoney : UInt64} (h : neededMoney.toNat ≤ foundMoney.toNat)
    (addr : AccountPublicAddress) :
    (if neededMoney < foundMoney then
      (⟨foundMoney - neededMoney, addr, false⟩ : TxDestinationEntry)
      else ⟨0, nullAddress, false⟩).amount.toNat = foundMoney.toNat - neededMoney.toNat := by
  split
  · exact UInt64.toNat_sub_of_le _ _ (UInt64.le_iff_toNat_le.mpr h)
  · rename_i hlt
    rw [UInt64.lt_iff_toNat_lt] at hlt
    rw [UInt64.toNat_zero]
    omega

theorem transferSelected_spec {transfers : List TransferDetails} {call : ℕ}
    {dsts : List TxDestinationEntry} {idxs : List ℕ} {fee : UInt64} {policy : TxDustPolicy}
    {ptx : PendingTx} (h : transferSelected ops transfers call dsts idxs fee policy = .ok ptx) :
    ptx.For transfers dsts idxs := by
  obtain ⟨money, hmoney, h⟩ := bind_eq_ok.mp h
  simp only at h
  obtain ⟨_, -, h⟩ := bind_eq_ok.mp h
  obtain ⟨r, hbuilt, h⟩ := bind_eq_ok.mp h
  obtain ⟨hneeded, hle, hfound⟩ := gatherMoney_spec hmoney
  have hselected := buildTx_perm ops hbuilt
  rw [← Except.ok.inj h]
  refine ⟨rfl, hselected, ?_⟩
  rw [PendingTx.Conserves]
  simp only
  rw [spentMoney_perm hselected]
  intro hfits
  rw [Nat.mod_eq_of_lt hfits] at hfound
  rw [UInt64.le_iff_toNat_le] at hle
  have hchange := toNat_change hle (ops.getSubaddress ⟨money.subaddrAccount, 0⟩)
  generalize (if money.neededMoney < money.foundMoney then
    (⟨money.foundMoney - money.neededMoney, ops.getSubaddress ⟨money.subaddrAccount, 0⟩, false⟩ :
      TxDestinationEntry) else ⟨0, nullAddress, false⟩) = changeDts at hchange ⊢
  have hdust := toNat_dust dsts changeDts policy.dustThreshold
  generalize (((digitSplitStrategy dsts changeDts policy.dustThreshold).dustDsts.map
    TxDestinationEntry.amount).sum) = dust at hdust ⊢
  have hrest : (changeDts.amount - dust).toNat = changeDts.amount.toNat - dust.toNat :=
    UInt64.toNat_sub_of_le _ _ (UInt64.le_iff_toNat_le.mpr hdust)
  have hfee : (fee + dust).toNat = fee.toNat + dust.toNat := by
    rw [UInt64.toNat_add]
    exact Nat.mod_eq_of_lt (by omega)
  cases policy.addToFee with
  | true =>
      simp only [Bool.true_or, if_true, hrest, hfee]
      omega
  | false =>
      cases hsent : decide (policy.addrForDust ≠ changeDts.addr) with
      | true =>
          simp only [Bool.false_or, Bool.false_eq_true, if_false, if_true, hrest]
          omega
      | false =>
          simp only [Bool.false_or, Bool.false_eq_true, if_false, UInt64.toNat_zero]
          omega

theorem transferSelectedRct_spec {transfers : List TransferDetails} {call : ℕ}
    {dsts : List TxDestinationEntry} {idxs : List ℕ} {fee : UInt64} {ptx : PendingTx}
    (h : transferSelectedRct ops transfers call dsts idxs fee = .ok ptx) :
    ptx.For transfers dsts idxs := by
  obtain ⟨money, hmoney, h⟩ := bind_eq_ok.mp h
  simp only at h
  obtain ⟨r, hbuilt, h⟩ := bind_eq_ok.mp h
  obtain ⟨hneeded, hle, hfound⟩ := gatherMoney_spec hmoney
  have hselected := buildTx_perm ops hbuilt
  rw [← Except.ok.inj h]
  refine ⟨rfl, hselected, ?_⟩
  rw [PendingTx.Conserves]
  simp only
  rw [spentMoney_perm hselected]
  intro hfits
  rw [Nat.mod_eq_of_lt hfits] at hfound
  have hchange := UInt64.toNat_sub_of_le _ _ hle
  rw [UInt64.le_iff_toNat_le] at hle
  generalize money.foundMoney - money.neededMoney = change at hchange ⊢
  -- in the other cases the change is zero as well
  have hamount : (if change ≠ 0 then
      (⟨change, ops.getSubaddress ⟨money.subaddrAccount, 0⟩, false⟩ : TxDestinationEntry)
      else if dsts.length = 1 then ⟨0, ops.dummyAddress call, false⟩
      else ⟨0, nullAddress, false⟩).amount = change := by
    split_ifs with hzero hone
    · rfl
    · exact (not_not.mp hzero).symm
    · exact (not_not.mp hzero).symm
  rw [hamount, hchange, UInt64.toNat_zero, if_neg Bool.false_ne_true]
  omega

end XrCoin.Wallet

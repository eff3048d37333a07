import Mathlib
import XrCoin.Blockchain.TxInputs
import XrCoin.Blockchain.ScanAgreement
import XrCoin.Cryptonote.Canonical

/-!
The sizes of the rings of a transaction that `check_tx_inputs` accepts, from the version on that
fixes them.

Only the smallest ring is held against the fixed size. The others may be larger.
-/

namespace XrCoin.Blockchain

open Archive Cryptonote TxPool

/-! ### The rule -/

def ringInputs (vin : List Txin) : List TxinToKey := vin.filterMap getToKey

/-- There are not enough outputs of the amount to mix with. -/
def Unmixable (numOutputs : UInt64 → UInt64) (txin : TxinToKey) : Prop :=
  txin.amount ≠ 0 ∧ numOutputs txin.amount ≤ 2

instance instDecidableUnmixable (numOutputs : UInt64 → UInt64) (txin : TxinToKey) :
    Decidable (Unmixable numOutputs txin) :=
  inferInstanceAs (Decidable (_ ∧ _))

structure RingRule (numOutputs : UInt64 → UInt64) (inputs : List TxinToKey) : Prop where
  fixed : (∀ txin ∈ inputs, ¬Unmixable numOutputs txin) →
    ∀ txin ∈ inputs, txin.keyOffsets.length = 3
  mixed : (∃ txin ∈ inputs, Unmixable numOutputs txin) →
    (inputs.countP fun txin => ¬Unmixable numOutputs txin) ≤ 1 ∨
      ∀ txin ∈ inputs, 3 ≤ txin.keyOffsets.length

def SameRings (inputs : List TxinToKey) : Prop :=
  ∀ txin ∈ inputs, ∀ txin' ∈ inputs, txin.keyOffsets.length = txin'.keyOffsets.length

/-! ### The counters -/

def TxinToKey.decoys (txin : TxinToKey) : UInt64 := txin.keyOffsets.length.toUInt64 - 1

variable {numOutputs : UInt64 → UInt64}

theorem countMixing_eq (m : Mixing) (txin : Txin) : countMixing numOutputs m txin =
    match getToKey txin with
    | none => m
    | some inToKey =>
        ⟨m.nUnmixable + if Unmixable numOutputs inToKey then 1 else 0,
          m.nMixable + if Unmixable numOutputs inToKey then 0 else 1,
          if inToKey.decoys < m.mixin then inToKey.decoys else m.mixin⟩ := by
  cases txin with
  | toKey amount keyOffsets kImage =>
      simp only [countMixing, getToKey, Unmixable, TxinToKey.decoys]
      by_cases hzero : amount = 0
      · simp only [hzero, if_true, ne_eq, not_true_eq_false, false_and, if_false, Nat.add_zero]
        rfl
      · by_cases hfew : numOutputs amount ≤ 2
        · simp only [hzero, hfew, if_true, if_false, ne_eq, not_false_eq_true, and_self, Nat.add_zero]
          rfl
        · simp only [hzero, hfew, if_false, ne_eq, not_false_eq_true, and_false, Nat.add_zero]
          rfl
  | gen height => rfl
  | toScript prev prevout sigset => rfl
  | toScriptHash prev prevout script sigset => rfl

/-- What the loop over the inputs makes of the counters. -/
structure Counts (numOutputs : UInt64 → UInt64) (before after : Mixing) (inputs : List TxinToKey) :
    Prop where
  unmixable : after.nUnmixable =
    before.nUnmixable + inputs.countP fun txin => Unmixable numOutputs txin
  mixable : after.nMixable =
    before.nMixable + inputs.countP fun txin => ¬Unmixable numOutputs txin
  least : after.mixin ≤ before.mixin ∧ ∀ txin ∈ inputs, after.mixin ≤ txin.decoys
  reached : after.mixin = before.mixin ∨ ∃ txin ∈ inputs, after.mixin = txin.decoys

theorem counts_foldl (vin : List Txin) (m : Mixing) :
    Counts numOutputs m (vin.foldl (countMixing numOutputs) m) (ringInputs vin) := by
  induction vin generalizing m with
  | nil => exact ⟨rfl, rfl, ⟨UInt64.le_refl _, by simp [ringInputs]⟩, .inl rfl⟩
  | cons txin vin ih =>
      rw [List.foldl_cons]
      have hrest := ih (countMixing numOutputs m txin)
      have hstep := @countMixing_eq numOutputs m txin
      rw [ringInputs, List.filterMap_cons]
      cases hkey : getToKey txin with
      | none =>
          rw [hkey] at hstep
          simp only at hstep
          rw [hstep] at hrest ⊢
          exact hrest
      | some inToKey =>
          rw [hkey] at hstep
          simp only at hstep
          have hleast : (countMixing numOutputs m txin).mixin ≤ m.mixin ∧
              (countMixing numOutputs m txin).mixin ≤ inToKey.decoys := by
            rw [hstep]
            simp only [UInt64.le_iff_toNat_le, UInt64.lt_iff_toNat_lt]
            split <;> omega
          refine ⟨?_, ?_, ⟨?_, ?_⟩, ?_⟩
          · rw [hrest.unmixable, hstep, List.countP_cons]
            simp only [decide_eq_true_eq, ringInputs]
            omega
          · rw [hrest.mixable, hstep, List.countP_cons]
            by_cases hunmixable : Unmixable numOutputs inToKey
            · simp [hunmixable, ringInputs]
            · simp [hunmixable, ringInputs]
              omega
          · exact UInt64.le_trans hrest.least.1 hleast.1
          · intro t ht
            rcases List.mem_cons.mp ht with rfl | ht
            · exact UInt64.le_trans hrest.least.1 hleast.2
            · exact hrest.least.2 t ht
          · rcases hrest.reached with heq | ⟨t, ht, heq⟩
            · rw [heq, hstep]
              simp only
              split
              · exact .inr ⟨inToKey, List.mem_cons_self, rfl⟩
              · exact .inl rfl
            · exact .inr ⟨t, List.mem_cons_of_mem _ ht, heq⟩

/-! ### What is accepted -/

variable {rules : InputRules} {view : InputsView} {sigs : SignatureOps} {ops : CryptoOps}
  {cfg : Config} {tx : Transaction} {nofake : Bool} {pmax : ℕ}

theorem ring_of_checkInputs {txPrefixHash : Hash} {vin : List (Txin × ℕ)} {st st' : InputsState}
    (h : checkInputs view sigs tx txPrefixHash vin st = (.ok (), st')) :
    ∀ p ∈ vin, ∃ inToKey, getToKey p.1 = some inToKey ∧ inToKey.keyOffsets ≠ [] := by
  induction vin generalizing st with
  | nil => exact fun p hp => absurd hp List.not_mem_nil
  | cons p vin ih =>
      obtain ⟨txin, sigIndex⟩ := p
      rw [checkInputs] at h
      cases hkey : getToKey txin with
      | none =>
          rw [hkey] at h
          cases congrArg Prod.fst h
      | some inToKey =>
          rw [hkey] at h
          simp only at h
          split at h
          · cases congrArg Prod.fst h
          rename_i hoffsets
          have hfirst : ∃ inToKey', getToKey txin = some inToKey' ∧ inToKey'.keyOffsets ≠ [] :=
            ⟨inToKey, hkey, hoffsets⟩
          split at h
          · cases congrArg Prod.fst h
          split at h
          · cases congrArg Prod.fst h
          split at h
          · cases congrArg Prod.fst h
          -- however the signature is checked, the loop goes on
          have hrest : ∃ st₁, checkInputs view sigs tx txPrefixHash vin st₁ = (.ok (), st') := by
            split at h
            · split at h
              · exact ⟨_, h⟩
              · split at h
                · cases congrArg Prod.fst h
                · exact ⟨_, h⟩
            · exact ⟨_, h⟩
          obtain ⟨st₁, hrest⟩ := hrest
          intro q hq
          rcases List.mem_cons.mp hq with rfl | hq
          · exact hfirst
          · exact ih hrest q hq

theorem checkTxInputs_accepted
    (h : checkTxInputs rules view sigs ops cfg tx = (.ok nofake, pmax)) :
    checkRingSizes rules.hfVersionFixedRingSize view.hfVersion view.numOutputs tx.vin.toList =
        some nofake ∧
      ∀ txin ∈ tx.vin.toList, ∃ inToKey, getToKey txin = some inToKey ∧
        inToKey.keyOffsets ≠ [] := by
  simp only [checkTxInputs] at h
  split at h
  · cases congrArg Prod.fst h
  rename_i isNofakeTx hsizes
  split at h
  · cases congrArg Prod.fst h
  split at h
  · cases congrArg Prod.fst h
  split at h
  · cases congrArg Prod.fst h
  rename_i st hinputs
  have hnofake : isNofakeTx = nofake := by
    split at h
    · cases congrArg Prod.fst h
    split at h
    · exact Except.ok.inj (congrArg Prod.fst h)
    · cases congrArg Prod.fst h
  refine ⟨hnofake ▸ hsizes, fun txin htxin => ?_⟩
  obtain ⟨i, hi, rfl⟩ := List.getElem_of_mem htxin
  refine ring_of_checkInputs hinputs (tx.vin.toList[i], i) ?_
  exact List.mem_zipIdx_iff_getElem?.mpr (List.getElem?_eq_getElem hi)

/-- The number of decoys is the size of the ring without the output that is spent. -/
theorem toNat_decoys {txin : Txin} {inToKey : TxinToKey} (hkey : getToKey txin = some inToKey)
    (hoffsets : inToKey.keyOffsets ≠ []) :
    inToKey.decoys.toNat + 1 = inToKey.keyOffsets.length := by
  have hpos := List.length_pos_of_ne_nil hoffsets
  have hfits : inToKey.keyOffsets.length < 2 ^ 64 := by
    cases txin with
    | toKey amount keyOffsets kImage =>
        obtain rfl := Option.some.inj hkey
        exact keyOffsets.size_lt
    | gen height => cases hkey
    | toScript prev prevout sigset => cases hkey
    | toScriptHash prev prevout script sigset => cases hkey
  have hlength : inToKey.keyOffsets.length.toUInt64.toNat = inToKey.keyOffsets.length := by
    rw [Nat.toUInt64, UInt64.toNat_ofNat']
    exact Nat.mod_eq_of_lt hfits
  rw [TxinToKey.decoys, UInt64.toNat_sub_of_le _ _ (UInt64.le_iff_toNat_le.mpr (by
    rw [hlength]
    exact hpos)), hlength]
  exact Nat.sub_add_cancel hpos

/-- From the version on that fixes the ring size, the least number of decoys is two, or none where
an input is unmixable and at most one is not. -/
theorem checkRingSizes_fixed {fixed version : UInt8} {vin : List Txin} (hfixed : 2 ≤ fixed)
    (hversion : fixed ≤ version)
    (h : checkRingSizes fixed version numOutputs vin = some nofake) :
    (mixingOf numOutputs vin).mixin.toNat = 2 ∨
      (mixingOf numOutputs vin).mixin.toNat = 0 ∧ (mixingOf numOutputs vin).nUnmixable ≠ 0 ∧
        (mixingOf numOutputs vin).nMixable ≤ 1 := by
  rw [checkRingSizes, if_pos (UInt8.le_trans hfixed hversion)] at h
  simp only at h
  generalize mixingOf numOutputs vin = m at h ⊢
  split at h
  · cases h
  rename_i hone
  split at h
  · cases h
  rename_i hlarge
  have hone' : m.mixin.toNat ≠ 1 := fun heq => hone (UInt64.toNat.inj heq)
  have hsmall : m.mixin.toNat ≤ 2 := by
    by_contra hlt
    exact hlarge ⟨hversion, UInt64.lt_iff_toNat_lt.mpr (not_le.mp hlt)⟩
  split at h
  · rename_i hless
    have hless' : m.mixin.toNat < 2 := hless
    rw [if_neg (UInt8.not_lt.mpr hversion)] at h
    split at h
    · cases h
    rename_i hunmixable
    split at h
    · cases h
    rename_i hmixable
    exact .inr ⟨by omega, hunmixable, by omega⟩
  · rename_i hnot
    have hnot' : ¬m.mixin.toNat < 2 := hnot
    exact .inl (by omega)

/-- A transaction that is accepted keeps the rule of the ring sizes exactly when an input is
unmixable or all rings have equally many members. -/
theorem ringRule_iff (hfixed : 2 ≤ rules.hfVersionFixedRingSize)
    (hversion : rules.hfVersionFixedRingSize ≤ view.hfVersion)
    (h : checkTxInputs rules view sigs ops cfg tx = (.ok nofake, pmax)) :
    RingRule view.numOutputs (ringInputs tx.vin.toList) ↔
      (∃ txin ∈ ringInputs tx.vin.toList, Unmixable view.numOutputs txin) ∨
        SameRings (ringInputs tx.vin.toList) := by
  obtain ⟨hsizes, hrings⟩ := checkTxInputs_accepted h
  have hcounts : Counts view.numOutputs ⟨0, 0, 18446744073709551615⟩
      (mixingOf view.numOutputs tx.vin.toList) (ringInputs tx.vin.toList) := counts_foldl _ _
  have hdecoys : ∀ txin ∈ ringInputs tx.vin.toList,
      txin.decoys.toNat + 1 = txin.keyOffsets.length := by
    intro txin htxin
    obtain ⟨input, hinput, hkey⟩ := List.mem_filterMap.mp htxin
    obtain ⟨inToKey, hkey', hoffsets⟩ := hrings input hinput
    obtain rfl := Option.some.inj (hkey.symm.trans hkey')
    exact toNat_decoys hkey hoffsets
  have hleast : ∀ txin ∈ ringInputs tx.vin.toList,
      (mixingOf view.numOutputs tx.vin.toList).mixin.toNat + 1 ≤ txin.keyOffsets.length := by
    intro txin htxin
    rw [← hdecoys txin htxin]
    exact Nat.succ_le_succ (hcounts.least.2 txin htxin)
  have hunmixable := hcounts.unmixable
  have hmixable := hcounts.mixable
  rw [Nat.zero_add] at hunmixable hmixable
  rcases checkRingSizes_fixed hfixed hversion hsizes with htwo | ⟨-, hsome, hone⟩
  · -- the smallest ring has three members
    rw [htwo] at hleast
    obtain ⟨smallest, hmem, hsmallest⟩ : ∃ txin ∈ ringInputs tx.vin.toList,
        txin.keyOffsets.length = 3 := by
      rcases hcounts.reached with heq | ⟨txin, htxin, heq⟩
      · rw [heq] at htwo
        exact absurd htwo (by decide)
      · exact ⟨txin, htxin, by rw [← hdecoys txin htxin, ← heq, htwo]⟩
    constructor
    · intro hrule
      by_cases hany : ∃ txin ∈ ringInputs tx.vin.toList, Unmixable view.numOutputs txin
      · exact .inl hany
      · right
        have hall := hrule.fixed fun txin htxin hun => hany ⟨txin, htxin, hun⟩
        intro txin htxin txin' htxin'
        rw [hall txin htxin, hall txin' htxin']
    · intro hcases
      refine ⟨fun hnone txin htxin => ?_, fun _ => .inr hleast⟩
      rcases hcases with ⟨other, hother, hun⟩ | hsame
      · exact absurd hun (hnone other hother)
      · exact (hsame txin htxin smallest hmem).trans hsmallest
  · -- an input is unmixable, and at most one is not
    rw [hunmixable] at hsome
    obtain ⟨txin, htxin, hun⟩ := List.countP_pos_iff.mp (Nat.pos_of_ne_zero hsome)
    have hany : ∃ txin ∈ ringInputs tx.vin.toList, Unmixable view.numOutputs txin :=
      ⟨txin, htxin, of_decide_eq_true hun⟩
    refine iff_of_true ⟨fun hnone => ?_, fun _ => .inl ?_⟩ (.inl hany)
    · exact absurd (of_decide_eq_true hun) (hnone txin htxin)
    · rwa [← hmixable]

/-! ### Two rings of different sizes -/

/-- A transaction of version 1.0 with two inputs, and a signature for each member of a ring. -/
def twoRingsTx (first second : StdVector UInt64) : Transaction :=
  ⟨⟨1, 0, 0, ⟨[.toKey 5 first (List.Vector.replicate 32 2),
      .toKey 7 second (List.Vector.replicate 32 1)], by simp⟩, .nil, .nil⟩,
    ⟨[first, second].map fun offsets =>
      ⟨offsets.toList.map fun _ => List.Vector.replicate 64 0, by
        rw [List.length_map]
        exact offsets.size_lt⟩, by simp⟩, default, default⟩

/-- The rules of a chain whose rings are fixed from version 7 on, without ring-confidential
transactions. -/
def fixedRules : InputRules := ⟨7, 255, 255, 8, 4, 10⟩

def tenOutputs : InputsView where
  hfVersion := 7
  height := 1000
  numOutputs _ := 10
  haveTxKeyimgAsSpent _ := false
  outputs := countedView fun _ => 10
  scanTable := []
  isTxSpendtimeUnlocked _ := true
  threads := 4

def signedRings : SignatureOps :=
  ⟨fun _ _ keys sig => keys.length = sig.length, fun _ _ _ _ => false, fun _ => false,
    fun _ => false⟩

def threeOffsets : StdVector UInt64 := ⟨[0, 1, 1], by decide⟩

def fourOffsets : StdVector UInt64 := ⟨[0, 1, 1, 1], by decide⟩

theorem twoRingsTx_accepted (first second : StdVector UInt64)
    (h : (first, second) = (threeOffsets, fourOffsets) ∨
      (first, second) = (threeOffsets, threeOffsets)) :
    checkTxInputs fixedRules tenOutputs signedRings inertOps currentConfig
      (twoRingsTx first second) = (.ok false, 0) := by
  rcases h with h | h
  · obtain ⟨rfl, rfl⟩ := Prod.mk.inj h
    rfl
  · obtain ⟨rfl, rfl⟩ := Prod.mk.inj h
    rfl

/-- At the version that fixes the ring size, a transaction with rings of three and four members is
accepted. -/
theorem twoRingsTx_not_ringRule :
    checkTxInputs fixedRules tenOutputs signedRings inertOps currentConfig
        (twoRingsTx threeOffsets fourOffsets) = (.ok false, 0) ∧
      ¬RingRule tenOutputs.numOutputs
        (ringInputs (twoRingsTx threeOffsets fourOffsets).vin.toList) := by
  refine ⟨twoRingsTx_accepted _ _ (.inl rfl), fun hrule => ?_⟩
  have hfour := hrule.fixed (by decide) ⟨7, fourOffsets.toList, List.Vector.replicate 32 1⟩
    (by decide)
  exact absurd hfour (by decide)

theorem twoRingsTx_ringRule :
    RingRule tenOutputs.numOutputs
      (ringInputs (twoRingsTx threeOffsets threeOffsets).vin.toList) := by
  refine (ringRule_iff (by decide) (by decide)
    (twoRingsTx_accepted threeOffsets threeOffsets (.inr rfl))).mpr (.inr ?_)
  show ∀ txin ∈ ringInputs (twoRingsTx threeOffsets threeOffsets).vin.toList, _
  decide

end XrCoin.Blockchain

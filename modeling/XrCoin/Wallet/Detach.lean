import Mathlib
import XrCoin.Wallet.ScanIndex

/-!
What a detaching keeps of the transfers.

The cut is made at the first transfer at or above the height. It keeps all that is below as long
as the transfers stand in the order of their heights. A transfer that is replaced in its place
gets the height of the new output, and may then stand in front of lower ones.
-/

namespace XrCoin.Wallet

open Archive Cryptonote Data

variable {σ : Type} (ops : ScanOps σ) (cfg : Config) (acc : WalletSettings)

/-- No transfer behind the replaced one is lower than it is now. -/
def Replacement.InOrder (r : Replacement) : Prop := ∀ height ∈ r.behind, r.height ≤ height

instance (r : Replacement) : Decidable r.InOrder :=
  List.decidableBAll (fun height => r.height ≤ height) r.behind

def ScanWallet.heights (w : ScanWallet σ) : List UInt64 := w.transfers.map TransferDetails.blockHeight

/-- The heights are in order, up to a height. -/
def Ascending (height : UInt64) (heights : List UInt64) : Prop :=
  heights.Pairwise (· ≤ ·) ∧ ∀ h ∈ heights, h ≤ height

/-! ### Order -/

theorem Ascending.concat {height : UInt64} {heights : List UInt64} (h : Ascending height heights) :
    Ascending height (heights ++ [height]) := by
  constructor
  · rw [List.pairwise_append]
    refine ⟨h.1, List.pairwise_singleton _ _, fun a ha b hb => ?_⟩
    rw [List.mem_singleton.mp hb]
    exact h.2 a ha
  · intro a ha
    rcases List.mem_append.mp ha with ha | ha
    · exact h.2 a ha
    · rw [List.mem_singleton.mp ha]
      exact UInt64.le_refl height

theorem Ascending.set {height : UInt64} {heights : List UInt64} {i : ℕ}
    (h : Ascending height heights) (hbehind : ∀ a ∈ heights.drop (i + 1), height ≤ a) :
    Ascending height (heights.set i height) := by
  rw [List.set_eq_take_append_cons_drop]
  split_ifs with hlt
  · constructor
    · rw [List.pairwise_append, List.pairwise_cons]
      refine ⟨h.1.sublist (List.take_sublist i heights), ⟨hbehind,
        h.1.sublist (List.drop_sublist (i + 1) heights)⟩, fun a ha b hb => ?_⟩
      have hlow := h.2 a (List.mem_of_mem_take ha)
      rcases List.mem_cons.mp hb with rfl | hb
      · exact hlow
      · exact UInt64.le_trans hlow (hbehind b hb)
    · intro a ha
      rcases List.mem_append.mp ha with ha | ha
      · exact h.2 a (List.mem_of_mem_take ha)
      · rcases List.mem_cons.mp ha with rfl | ha
        · exact UInt64.le_refl _
        · exact h.2 a (List.mem_of_mem_drop ha)
  · exact h

variable {ops cfg acc}

theorem heights_replaceTransfer {call : TxCall} {pkIndex : ℕ} {info : ScanInfo} {i : ℕ}
    {w : ScanWallet σ} {height : UInt64} (hheight : call.height = height) :
    (replaceTransfer ops call pkIndex info i w).heights = w.heights.set i height := by
  apply List.ext_getElem?
  intro j
  simp only [ScanWallet.heights, replaceTransfer, List.getElem?_map, List.getElem?_modify,
    List.getElem?_set, List.length_map]
  by_cases hij : i = j
  · subst hij
    cases hi : w.transfers[i]? with
    | none =>
        rw [if_pos rfl, if_neg (by simpa using hi)]
        rfl
    | some td =>
        rw [if_pos rfl, if_pos (List.getElem?_eq_some_iff.mp hi).1]
        simp [setReceived, hheight]
  · simp [hij]

/-- Where all replacements so far were in order, so are the transfers. -/
def OrderedUpTo (height : UInt64) (w : ScanWallet σ) : Prop :=
  (∀ r ∈ w.replaced, r.InOrder) → Ascending height w.heights

theorem orderedUpTo_congr {height : UInt64} {w w' : ScanWallet σ} (h : OrderedUpTo height w)
    (hreplaced : w'.replaced = w.replaced) (hheights : w'.heights = w.heights) :
    OrderedUpTo height w' := by
  rw [OrderedUpTo, hreplaced, hheights]
  exact h

/-- Whatever a transaction of a block does keeps the order. -/
theorem orderedUpTo_keptBy {call : TxCall} {height : UInt64} (hheight : call.height = height) :
    KeptBy ops acc (OrderedUpTo height) call where
  unconfirmed := by
    intro w _ _ hw
    rw [processUnconfirmed]
    split <;> exact hw
  add := by
    intro w pkIndex info _ _ _ hw hreplaced
    have hlast : (addTransfer ops acc call pkIndex info w).heights = w.heights ++ [height] := by
      simp [ScanWallet.heights, addTransfer, setReceived, hheight]
    rw [hlast]
    exact (hw hreplaced).concat
  replace := by
    intro w pkIndex info i td _ _ _ _ _ _ hw hreplaced
    have hset : (replaceTransfer ops call pkIndex info i w).heights = w.heights.set i height :=
      heights_replaceTransfer hheight
    rw [hset]
    have hlast : Replacement.InOrder ⟨call.height, (w.transfers.drop (i + 1)).map
        TransferDetails.blockHeight⟩ := hreplaced _ (List.mem_append_right _ List.mem_cons_self)
    apply (hw fun r hr => hreplaced r (List.mem_append_left _ hr)).set
    rw [ScanWallet.heights, ← List.map_drop, ← hheight]
    exact hlast
  spend := by
    intro w amount _ _ i _ _ hw
    refine orderedUpTo_congr hw rfl ?_
    apply map_modify_eq
    intro td _
    simp only [setSpentBy]
    split_ifs <;> rfl
  outgoing := by
    intro w spends money _ hw
    rw [recordOutgoing]
    split
    · exact hw
    · dsimp only
      split_ifs <;> exact hw
  payments := by
    intro w spends payments hw
    rw [recordPayments]
    split_ifs <;> exact hw

/-! ### Detaching -/

structure SameTransfers (w w' : ScanWallet σ) : Prop where
  transfers : w'.transfers = w.transfers
  blockchain : w'.blockchain = w.blockchain
  replaced : w'.replaced = w.replaced

theorem eraseKeyImage_same (w : ScanWallet σ) (u : Unit) (td : TransferDetails) :
    Throwing.Keeps (SameTransfers w) (eraseKeyImage u td) := by
  apply Throwing.Keeps.when
  intro _
  apply Throwing.keeps_get_bind
  intro w' hw'
  rw [Throwing.throwIf_bind]
  split_ifs
  · exact hw'
  · exact ⟨hw'.transfers, hw'.blockchain, hw'.replaced⟩

theorem erasePubKey_same (w : ScanWallet σ) (u : Unit) (td : TransferDetails) :
    Throwing.Keeps (SameTransfers w) (erasePubKey u td) := by
  apply Throwing.keeps_get_bind
  intro w' hw'
  cases td.publicKey? with
  | none => exact hw'
  | some key =>
      dsimp only
      rw [Throwing.throwIf_bind]
      split_ifs
      · exact hw'
      · exact ⟨hw'.transfers, hw'.blockchain, hw'.replaced⟩

/-- A detaching throws with all transfers in place, or cuts them and the chain. -/
theorem detachBlockchain_cases (height : UInt64) (w : ScanWallet σ) :
    let w' := (detachBlockchain height w).2
    let transfers := w.transfers.map (resetSpent height)
    w'.replaced = w.replaced ∧
      ((w'.transfers = transfers ∧ w'.blockchain = w.blockchain) ∨
        (w'.transfers = transfers.take (detachStart height transfers) ∧
          w'.blockchain = crop w.blockchain height.toNat)) := by
  intro w' transfers
  set w₁ : ScanWallet σ := { w with transfers := transfers } with hw₁
  set cut := transfers.drop (detachStart height transfers) with hcut
  have hloop : ∀ f : Unit → TransferDetails → Throwing (ScanWallet σ) Unit,
      (∀ u td, Throwing.Keeps (SameTransfers w₁) (f u td)) →
        Throwing.Keeps (SameTransfers w₁) (Throwing.loop f cut ()) :=
    fun f hf => Throwing.Keeps.loop (fun u td _ => hf u td) ()
  have hw' : w' = (detachBlockchain height w).2 := rfl
  rw [detachBlockchain, Throwing.modify_bind, Throwing.get_bind] at hw'
  have himages := hloop _ (eraseKeyImage_same w₁) w₁ ⟨rfl, rfl, rfl⟩
  rcases hresult₁ : Throwing.loop eraseKeyImage cut () w₁ with ⟨e | ⟨⟩, w₂⟩
  · rw [hresult₁] at himages
    rw [Throwing.bind_of_error hresult₁] at hw'
    rw [hw']
    exact ⟨himages.replaced, Or.inl ⟨himages.transfers, himages.blockchain⟩⟩
  rw [hresult₁] at himages
  rw [Throwing.bind_of_ok hresult₁] at hw'
  have hpubs := hloop _ (erasePubKey_same w₁) w₂ himages
  rcases hresult₂ : Throwing.loop erasePubKey cut () w₂ with ⟨e | ⟨⟩, w₃⟩
  · rw [hresult₂] at hpubs
    rw [Throwing.bind_of_error hresult₂] at hw'
    rw [hw']
    exact ⟨hpubs.replaced, Or.inl ⟨hpubs.transfers, hpubs.blockchain⟩⟩
  · rw [hresult₂] at hpubs
    rw [Throwing.bind_of_ok hresult₂] at hw'
    rw [hw']
    refine ⟨hpubs.replaced, Or.inr ⟨?_, ?_⟩⟩
    · exact congrArg (List.take (detachStart height transfers)) hpubs.transfers
    · exact congrArg (fun chain => crop chain height.toNat) hpubs.blockchain

@[simp] theorem blockHeight_resetSpent (height : UInt64) (td : TransferDetails) :
    (resetSpent height td).blockHeight = td.blockHeight := by
  rw [resetSpent]
  split_ifs <;> rfl

theorem heights_map_resetSpent (height : UInt64) (transfers : List TransferDetails) :
    (transfers.map (resetSpent height)).map TransferDetails.blockHeight =
      transfers.map TransferDetails.blockHeight := by
  simp [Function.comp_def]

/-! ### What is below the split -/

def transfersBelow (height : UInt64) (transfers : List TransferDetails) : List TransferDetails :=
  transfers.filter fun td => decide (td.blockHeight < height)

theorem transfersBelow_map_resetSpent (height : UInt64) (transfers : List TransferDetails) :
    transfersBelow height (transfers.map (resetSpent height)) =
      (transfersBelow height transfers).map (resetSpent height) := by
  simp [transfersBelow, List.filter_map, Function.comp_def]

/-- In the order of the heights, all that is below a height stands in front of the rest. -/
theorem transfersBelow_take {height : UInt64} {transfers : List TransferDetails}
    (h : (transfers.map TransferDetails.blockHeight).Pairwise (· ≤ ·)) :
    transfersBelow height (transfers.take (detachStart height transfers)) =
      transfersBelow height transfers := by
  induction transfers with
  | nil => rfl
  | cons td transfers ih =>
      rw [List.map_cons, List.pairwise_cons] at h
      rw [detachStart, List.findIdx_cons]
      by_cases habove : height ≤ td.blockHeight
      · have hnone : transfersBelow height (td :: transfers) = [] := by
          rw [transfersBelow, List.filter_eq_nil_iff]
          intro td' htd'
          rw [decide_eq_true_iff, UInt64.not_lt]
          rcases List.mem_cons.mp htd' with rfl | htd'
          · exact habove
          · exact UInt64.le_trans habove (h.1 _ (List.mem_map_of_mem htd'))
        rw [hnone]
        simp [habove, transfersBelow]
      · have hrest := ih h.2
        rw [detachStart] at hrest
        simp only [habove, decide_false, cond_false, List.take_succ_cons]
        rw [transfersBelow, List.filter_cons, transfersBelow, List.filter_cons]
        split_ifs
        · exact congrArg (List.cons td) hrest
        · exact hrest

theorem transfersBelow_detach {w : ScanWallet σ} (h : w.heights.Pairwise (· ≤ ·))
    (height : UInt64) :
    transfersBelow height (detachBlockchain height w).2.transfers =
      (transfersBelow height w.transfers).map (resetSpent height) := by
  have hsorted : ((w.transfers.map (resetSpent height)).map
      TransferDetails.blockHeight).Pairwise (· ≤ ·) := by
    rw [heights_map_resetSpent]
    exact h
  rcases (detachBlockchain_cases height w).2 with ⟨hall, -⟩ | ⟨htake, -⟩
  · rw [hall, transfersBelow_map_resetSpent]
  · rw [htake, transfersBelow_take hsorted, transfersBelow_map_resetSpent]

theorem heights_detach_sublist (height : UInt64) (w : ScanWallet σ) :
    (detachBlockchain height w).2.heights.Sublist w.heights := by
  rw [ScanWallet.heights, ScanWallet.heights, ← heights_map_resetSpent height w.transfers]
  apply List.Sublist.map
  rcases (detachBlockchain_cases height w).2 with ⟨hall, -⟩ | ⟨htake, -⟩
  · rw [hall]
  · rw [htake]
    exact List.take_sublist _ _

/-! ### Every run -/

inductive ChainOp
  | entry (b : BlockCall) (height : UInt64)
  | detach (height : UInt64)

variable (ops cfg acc) in
/-- The state after an operation, also where it throws. -/
def chainStep (w : ScanWallet σ) : ChainOp → ScanWallet σ
  | .entry b height => (processNewBlockchainEntry ops cfg acc b height w).2
  | .detach height => (detachBlockchain height w).2

/-- A block is entered at a height that no transfer is above. -/
def ChainOp.AtTop : ChainOp → ScanWallet σ → Prop
  | .entry _ height, w => ∀ h ∈ w.heights, h ≤ height
  | .detach _, _ => True

instance : ∀ (op : ChainOp) (w : ScanWallet σ), Decidable (op.AtTop w)
  | .entry _ height, w => List.decidableBAll (fun h => h ≤ height) w.heights
  | .detach _, _ => inferInstanceAs (Decidable True)

/-- Where all replacements so far were in order, so are the transfers. -/
def Ordered (w : ScanWallet σ) : Prop :=
  (∀ r ∈ w.replaced, r.InOrder) → w.heights.Pairwise (· ≤ ·)

theorem chainStep_ordered {w : ScanWallet σ} {op : ChainOp} (h : Ordered w) (hop : op.AtTop w) :
    Ordered (chainStep ops cfg acc w op) := by
  cases op with
  | entry b height =>
      have hkeeps : Throwing.Keeps (OrderedUpTo height)
          (processNewBlockchainEntry ops cfg acc b height) := by
        apply processNewBlockchainEntry_keeps
        · intro call hcall
          exact orderedUpTo_keptBy (blockCalls_spec hcall).1
        · exact fun w _ hw => hw
        · exact fun w hw => hw
      intro hreplaced
      exact (hkeeps w (fun hr => ⟨h hr, hop⟩) hreplaced).1
  | detach height =>
      intro hreplaced
      rw [chainStep, (detachBlockchain_cases height w).1] at hreplaced
      exact (h hreplaced).sublist (heights_detach_sublist height w)

/-- After every run from the empty wallet with the blocks entered at the top and the replacements
in order, a detaching keeps all that is below the split. -/
theorem detach_keeps_below (subaddresses : σ) (run : List ChainOp)
    (hrun : Throughout (chainStep ops cfg acc) ChainOp.AtTop (ScanWallet.empty subaddresses) run)
    (hreplaced : ∀ r ∈ (Data.run (chainStep ops cfg acc) (ScanWallet.empty subaddresses)
      run).replaced, r.InOrder) (height : UInt64) :
    let w := Data.run (chainStep ops cfg acc) (ScanWallet.empty subaddresses) run
    transfersBelow height (detachBlockchain height w).2.transfers =
      (transfersBelow height w.transfers).map (resetSpent height) := by
  intro w
  have hw : Ordered w := by
    apply hrun.invariant
    · exact fun _ => List.Pairwise.nil
    · exact fun s op _ hs hop => chainStep_ordered hs hop
  exact transfersBelow_detach (hw hreplaced) height

/-! ### Two outputs to one key -/

/-- A block that pays amounts to keys of the wallet, with further transactions. -/
def sampleEntry (height : UInt64) (paid : List (UInt8 × UInt64)) (txes : List (ℕ × Transaction)) :
    BlockCall where
  block := ⟨⟨1, 0, 0, nullHash, 0⟩,
    { sampleTx [] paid with vin := vectorOf [.gen height] },
    vectorOf (txes.map fun p => hashOfNat p.1)⟩
  txsSize := txes.length
  txes := txes.map Prod.snd
  oIndices := List.replicate paid.length 0 ::
    txes.map fun p => List.replicate p.2.vout.toList.length 0
  blId := hashOfNat (1000 + height.toNat)
  cached := fun _ => false

/-- The second block pays to another key than the first, and the third to the key of the first. -/
def repeatedKeyRun : List ChainOp :=
  [.entry (sampleEntry 0 [(1, 3)] []) 0, .entry (sampleEntry 1 [(2, 6)] []) 1,
    .entry (sampleEntry 2 [(1, 4)] []) 2]

/-- When the third block is detached, what the second one paid is lost too. -/
theorem repeatedKey_loses_transfer :
    let w := Data.run (chainStep sampleScanOps currentConfig sampleSettings)
      (ScanWallet.empty ()) repeatedKeyRun
    w.heights = [2, 1] ∧ (detachBlockchain 2 w).1 = .ok () ∧
      (transfersBelow 2 w.transfers).map TransferDetails.amount = [6] ∧
      transfersBelow 2 (detachBlockchain 2 w).2.transfers ≠
        (transfersBelow 2 w.transfers).map (resetSpent 2) := by
  decide

/-- Two blocks that pay to one key, with nothing between them. -/
theorem detach_keeps_below_replaced :
    let w := Data.run (chainStep sampleScanOps currentConfig sampleSettings) (ScanWallet.empty ())
      [.entry (sampleEntry 0 [(2, 6)] []) 0, .entry (sampleEntry 1 [(1, 3)] []) 1,
        .entry (sampleEntry 2 [(1, 4)] []) 2]
    w.replaced.length = 1 ∧ ∀ height,
      transfersBelow height (detachBlockchain height w).2.transfers =
        (transfersBelow height w.transfers).map (resetSpent height) := by
  refine ⟨by decide, fun height => detach_keeps_below () _ ?_ ?_ height⟩
  · decide
  · decide

end XrCoin.Wallet

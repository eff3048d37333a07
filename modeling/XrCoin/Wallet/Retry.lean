import XrCoin.Wallet.Reorganise

/-!
A block that is entered again after a throw.

Nothing of the first call is undone. What a transaction in front of the throw has received is
known the second time, and leaves an empty payment; its rings are recorded twice. A retry is
harmless where the transactions in front of the throw concern the wallet in neither way.
-/

namespace XrCoin.Wallet

open Archive Cryptonote Data

variable {σ : Type} (ops : ScanOps σ) (cfg : Config) (acc : WalletSettings)

/-! ### Transactions that do not concern the wallet -/

/-- The scan for a key of a transaction, where nothing was found before. -/
def scanAlone (w : ScanWallet σ) (call : TxCall) (key : PublicKey × ℕ) :
    Except String (List ScanInfo × List ℕ × Money) :=
  scanKey ops acc call.tx call.minerTx w.subaddresses (ops.generateKeyDerivation key.1)
    (additionalDerivations ops call key.2) [] []

def findsOutput (w : ScanWallet σ) (call : TxCall) (key : PublicKey × ℕ) : Bool :=
  match scanAlone ops acc w call key with
  | .ok (infos, _) => !infos.isEmpty
  | .error _ => false

def ReceivesNothing (w : ScanWallet σ) (call : TxCall) : Prop :=
  ∀ key ∈ (txPubKeys call.tx).zipIdx, findsOutput ops acc w call key = false

instance (w : ScanWallet σ) (call : TxCall) : Decidable (ReceivesNothing ops acc w call) :=
  inferInstanceAs (Decidable (∀ _ ∈ _, _))

def spentTransfer? (w : ScanWallet σ) : Txin → Option (UInt64 × TransferDetails)
  | .toKey amount _ kImage =>
      ((w.keyImages kImage).bind fun i => w.transfers[i]?).map fun td => (amount, td)
  | _ => none

/-- No input spends a transfer of the wallet that is worth something. -/
def SpendsNothing (w : ScanWallet σ) (call : TxCall) : Prop :=
  ∀ txin ∈ call.tx.vin.toList, ∀ p ∈ spentTransfer? w txin, p.1 = 0 ∧ p.2.amount = 0

instance (w : ScanWallet σ) (call : TxCall) : Decidable (SpendsNothing w call) :=
  inferInstanceAs (Decidable (∀ _ ∈ _, ∀ _ ∈ _, _))

/-- The transaction neither pays to the wallet nor spends from it. -/
def Quiet (w : ScanWallet σ) (call : TxCall) : Prop :=
  ReceivesNothing ops acc w call ∧ SpendsNothing w call

instance (w : ScanWallet σ) (call : TxCall) : Decidable (Quiet ops acc w call) :=
  inferInstanceAs (Decidable (_ ∧ _))

/-- The transaction pays to the wallet, and came with a wrong number of indices. -/
def Rejected (w : ScanWallet σ) (call : TxCall) : Prop :=
  call.tx.vout.toList.length ≠ call.oIndices.length ∧ ¬ ReceivesNothing ops acc w call

instance (w : ScanWallet σ) (call : TxCall) : Decidable (Rejected ops acc w call) :=
  inferInstanceAs (Decidable (_ ∧ _))

def handledCalls (b : BlockCall) (height : UInt64) : List TxCall :=
  (if acc.refreshType ≠ .noCoinbase then [minerCall ops cfg b height] else []) ++ txCalls b height

/-- All transactions in front of the first one that is rejected are quiet. -/
def QuietBefore (w : ScanWallet σ) (calls : List TxCall) : Prop :=
  ∀ call ∈ calls.takeWhile fun call => decide (¬ Rejected ops acc w call), Quiet ops acc w call

instance (w : ScanWallet σ) (calls : List TxCall) : Decidable (QuietBefore ops acc w calls) :=
  inferInstanceAs (Decidable (∀ _ ∈ _, _))

variable {ops cfg acc}

theorem scanOutputs_nil {tx : Transaction} {minerTx : Bool} {subaddresses : σ}
    {derivation : KeyDerivation} {additional : List KeyDerivation} {outs : List (TxOut × ℕ)}
    {found found' : List ℕ} {money money' : Money}
    (h : scanOutputs ops acc tx minerTx subaddresses derivation additional outs found money =
      .ok ([], found', money')) : found' = found ∧ money' = money := by
  induction outs with
  | nil =>
      cases h
      exact ⟨rfl, rfl⟩
  | cons p outs ih =>
      obtain ⟨out, i⟩ := p
      obtain ⟨received, -, h₁⟩ := bind_eq_ok.mp h
      cases received with
      | none => exact ih h₁
      | some r =>
          obtain ⟨_, -, h₂⟩ := bind_eq_ok.mp h₁
          obtain ⟨_, -, h₃⟩ := bind_eq_ok.mp h₂
          cases h₃

theorem scanKey_nil {tx : Transaction} {minerTx : Bool} {subaddresses : σ}
    {derivation : KeyDerivation} {additional : List KeyDerivation} {found found' : List ℕ}
    {money money' : Money}
    (h : scanKey ops acc tx minerTx subaddresses derivation additional found money =
      .ok ([], found', money')) : found' = found ∧ money' = money := by
  rw [scanKey] at h
  split_ifs at h
  · exact scanOutputs_nil h
  · cases h
    exact ⟨rfl, rfl⟩
  · cases houts : tx.vout.toList.zipIdx with
    | nil =>
        simp only [houts] at h
        cases h
        exact ⟨rfl, rfl⟩
    | cons p outs =>
        simp only [houts] at h
        obtain ⟨received, -, h₁⟩ := bind_eq_ok.mp h
        cases received with
        | none =>
            cases h₁
            exact ⟨rfl, rfl⟩
        | some r => exact scanOutputs_nil h₁

/-- Where the loop over the keys begins, and stays as long as nothing is found. -/
def KeyLoop.start : KeyLoop := ⟨[], ⟨[], 0⟩⟩

theorem receiveKey_of_not_finds {w : ScanWallet σ} {call : TxCall} {key : PublicKey × ℕ}
    (h : findsOutput ops acc w call key = false) :
    receiveKey ops acc call .start key w =
      ((scanAlone ops acc w call key).map fun _ => .start, w) := by
  rw [receiveKey, Throwing.get_bind]
  rw [findsOutput] at h
  rcases hscan : scanAlone ops acc w call key with e | ⟨infos, found, money⟩
  · rw [scanAlone] at hscan
    simp only [KeyLoop.start, hscan]
    rfl
  · simp only [hscan, Bool.not_eq_false', List.isEmpty_iff] at h
    subst h
    rw [scanAlone] at hscan
    obtain ⟨rfl, rfl⟩ := scanKey_nil hscan
    simp only [KeyLoop.start, hscan]
    rfl

theorem receiveKey_of_finds {w : ScanWallet σ} {call : TxCall} {key : PublicKey × ℕ}
    (h : findsOutput ops acc w call key = true) (hpool : call.pool = false)
    (hsize : call.tx.vout.toList.length ≠ call.oIndices.length) :
    receiveKey ops acc call .start key w =
      (.error "transactions outputs size not match with daemon response size", w) := by
  rw [receiveKey, Throwing.get_bind]
  rw [findsOutput] at h
  rcases hscan : scanAlone ops acc w call key with e | ⟨infos, found, money⟩
  · simp [hscan] at h
  · simp only [hscan, Bool.not_eq_true', List.isEmpty_eq_false_iff] at h
    rw [scanAlone] at hscan
    simp only [KeyLoop.start, hscan]
    rw [Throwing.lift_ok_bind]
    dsimp only
    rw [if_neg h, Throwing.throwIf_bind, if_pos ⟨hpool, hsize⟩]

theorem receiveKeys_cons {w : ScanWallet σ} {call : TxCall} {key : PublicKey × ℕ}
    (h : findsOutput ops acc w call key = false) (keys : List (PublicKey × ℕ)) :
    Throwing.loop (receiveKey ops acc call) (key :: keys) .start w =
      (Throwing.lift ((scanAlone ops acc w call key).map fun _ => KeyLoop.start) >>=
        Throwing.loop (receiveKey ops acc call) keys) w :=
  Throwing.bind_congr_left (receiveKey_of_not_finds h)

theorem receiveKeys_alike {w : ScanWallet σ} {call call' : TxCall} {keys : List (PublicKey × ℕ)}
    (halike : ∀ key, scanAlone ops acc w call' key = scanAlone ops acc w call key)
    (h : ∀ key ∈ keys, findsOutput ops acc w call key = false) :
    (∃ r, Throwing.loop (receiveKey ops acc call) keys .start w = (r, w) ∧
      ∀ l, r = .ok l → l = .start) ∧
    Throwing.loop (receiveKey ops acc call') keys .start w =
      Throwing.loop (receiveKey ops acc call) keys .start w := by
  induction keys with
  | nil =>
      rw [Throwing.loop, Throwing.loop]
      exact ⟨⟨.ok .start, rfl, fun l hl => (Except.ok.inj hl).symm⟩, rfl⟩
  | cons key keys ih =>
      rw [List.forall_mem_cons] at h
      have hquiet : findsOutput ops acc w call' key = false := by
        rw [findsOutput, halike, ← findsOutput]
        exact h.1
      obtain ⟨⟨r, hloop, hr⟩, hsame⟩ := ih h.2
      rw [receiveKeys_cons h.1, receiveKeys_cons hquiet, halike]
      rcases scanAlone ops acc w call key with e | p
      · simp only [Except.map, Throwing.lift_error_bind]
        exact ⟨⟨.error e, rfl, fun l hl => by cases hl⟩, trivial⟩
      · simp only [Except.map, Throwing.lift_ok_bind]
        exact ⟨⟨r, hloop, hr⟩, hsame⟩

theorem receiveKeys_quiet {w : ScanWallet σ} {call : TxCall} {keys : List (PublicKey × ℕ)}
    (h : ∀ key ∈ keys, findsOutput ops acc w call key = false) (oIndices : List UInt64) :
    (∃ r, Throwing.loop (receiveKey ops acc call) keys .start w = (r, w) ∧
      ∀ l, r = .ok l → l = .start) ∧
    Throwing.loop (receiveKey ops acc { call with oIndices }) keys .start w =
      Throwing.loop (receiveKey ops acc call) keys .start w :=
  receiveKeys_alike (fun _ => rfl) h

theorem receiveOutputs_quiet {w : ScanWallet σ} {call : TxCall}
    (h : ReceivesNothing ops acc w call) (oIndices : List UInt64) :
    (∃ r, receiveOutputs ops acc call w = (r, w) ∧ ∀ receipts, r = .ok receipts → receipts = ⟨[], 0⟩) ∧
    receiveOutputs ops acc { call with oIndices } w = receiveOutputs ops acc call w := by
  obtain ⟨⟨r, hloop, hr⟩, hsame⟩ := receiveKeys_quiet h oIndices
  rw [receiveOutputs, receiveOutputs]
  split_ifs
  · exact ⟨⟨_, rfl, fun _ h => (Except.ok.inj h).symm⟩, rfl⟩
  · constructor
    · cases r with
      | error e =>
          exact ⟨.error e, Throwing.bind_of_error hloop, fun _ h => by cases h⟩
      | ok l =>
          refine ⟨.ok l.receipts, Throwing.bind_of_ok hloop, fun receipts h => ?_⟩
          rw [← Except.ok.inj h, hr l rfl]
          rfl
    · exact Throwing.bind_congr_left hsame

theorem receiveKeys_rejected {w : ScanWallet σ} {call : TxCall} (hpool : call.pool = false)
    (hsize : call.tx.vout.toList.length ≠ call.oIndices.length) {keys : List (PublicKey × ℕ)}
    (h : ∃ key ∈ keys, findsOutput ops acc w call key = true) :
    ∃ e, Throwing.loop (receiveKey ops acc call) keys .start w = (.error e, w) := by
  induction keys with
  | nil => simp at h
  | cons key keys ih =>
      rw [Throwing.loop]
      by_cases hfinds : findsOutput ops acc w call key = true
      · exact ⟨_, Throwing.bind_of_error (receiveKey_of_finds hfinds hpool hsize)⟩
      · rw [Bool.not_eq_true] at hfinds
        have hfirst := receiveKey_of_not_finds hfinds
        have hrest : ∃ key ∈ keys, findsOutput ops acc w call key = true := by
          obtain ⟨key', hkey', hfinds'⟩ := h
          rcases List.mem_cons.mp hkey' with rfl | hkey'
          · rw [hfinds] at hfinds'
            cases hfinds'
          · exact ⟨key', hkey', hfinds'⟩
        rcases hscan : scanAlone ops acc w call key with e | p
        · rw [hscan] at hfirst
          exact ⟨e, Throwing.bind_of_error hfirst⟩
        · rw [hscan] at hfirst
          rw [Throwing.bind_of_ok hfirst]
          exact ih hrest

/-- A transaction without outputs pays to nobody. -/
theorem findsOutput_of_no_outputs {w : ScanWallet σ} {call : TxCall} {key : PublicKey × ℕ}
    (h : call.tx.vout.toList = []) : findsOutput ops acc w call key = false := by
  rw [findsOutput, scanAlone, scanKey, h]
  split_ifs <;> rfl

theorem receiveOutputs_rejected {w : ScanWallet σ} {call : TxCall}
    (h : Rejected ops acc w call) (hpool : call.pool = false) :
    ∃ e, receiveOutputs ops acc call w = (.error e, w) := by
  have hfinds : ∃ key ∈ (txPubKeys call.tx).zipIdx, findsOutput ops acc w call key = true := by
    have hsome := h.2
    simp only [ReceivesNothing, not_forall, Bool.not_eq_false] at hsome
    obtain ⟨key, hkey, hfinds⟩ := hsome
    exact ⟨key, hkey, hfinds⟩
  have houts : call.tx.vout.toList ≠ [] := by
    intro hnil
    obtain ⟨key, -, hkey⟩ := hfinds
    rw [findsOutput_of_no_outputs hnil] at hkey
    cases hkey
  obtain ⟨e, hloop⟩ := receiveKeys_rejected hpool h.1 hfinds
  rw [receiveOutputs, if_neg houts]
  exact ⟨e, Throwing.bind_of_error hloop⟩

/-! ### What they change -/

def TransferDetails.SpentAt (height : UInt64) (td : TransferDetails) : Prop :=
  td.spent = true ∧ td.spentHeight = height

def markSpent (height : UInt64) (w : ScanWallet σ) : Txin → ScanWallet σ
  | .toKey _ _ kImage =>
      match w.keyImages kImage with
      | some i =>
          { w with
            transfers := w.transfers.modify i fun td =>
              { td with spent := true, spentHeight := height } }
      | none => w
  | _ => w

variable (acc) in
def settle (call : TxCall) (w : ScanWallet σ) : ScanWallet σ :=
  if call.minerTx = false then processUnconfirmed acc call w else w

variable (acc) in
def quietEffect (call : TxCall) (w : ScanWallet σ) : ScanWallet σ :=
  call.tx.vin.toList.foldl (markSpent call.height) (settle acc call w)

/-- A later state of the wallet, as quiet transactions of a block leave it. -/
structure Settles (height : UInt64) (w w' : ScanWallet σ) : Prop where
  subaddresses : w'.subaddresses = w.subaddresses
  keyImages : w'.keyImages = w.keyImages
  amounts : w'.transfers.map TransferDetails.amount = w.transfers.map TransferDetails.amount
  unconfirmed : ∀ txid, w.unconfirmedTxs txid = none → w'.unconfirmedTxs txid = none
  spent : ∀ (i : ℕ) td td', w.transfers[i]? = some td → w'.transfers[i]? = some td' →
    td.SpentAt height → td'.SpentAt height

theorem settles_refl (height : UInt64) (w : ScanWallet σ) : Settles height w w where
  subaddresses := rfl
  keyImages := rfl
  amounts := rfl
  unconfirmed := fun _ h => h
  spent := by
    intro i td td' hi hi' h
    obtain rfl := Option.some.inj (hi.symm.trans hi')
    exact h

theorem getElem?_of_amounts {transfers transfers' : List TransferDetails}
    (h : transfers'.map TransferDetails.amount = transfers.map TransferDetails.amount) {i : ℕ}
    {td' : TransferDetails} (hi : transfers'[i]? = some td') :
    ∃ td, transfers[i]? = some td ∧ td.amount = td'.amount := by
  have hsome : transfers[i]?.map TransferDetails.amount = some td'.amount := by
    rw [← List.getElem?_map, ← h, List.getElem?_map, hi]
    rfl
  exact Option.map_eq_some_iff.mp hsome

theorem Settles.trans {height : UInt64} {w w' w'' : ScanWallet σ} (h : Settles height w w')
    (h' : Settles height w' w'') : Settles height w w'' where
  subaddresses := h'.subaddresses.trans h.subaddresses
  keyImages := h'.keyImages.trans h.keyImages
  amounts := h'.amounts.trans h.amounts
  unconfirmed := fun txid hnone => h'.unconfirmed txid (h.unconfirmed txid hnone)
  spent := by
    intro i td td'' hi hi'' hspent
    obtain ⟨td', hi', -⟩ := getElem?_of_amounts h'.amounts hi''
    exact h'.spent i td' td'' hi' hi'' (h.spent i td td' hi hi' hspent)

theorem processUnconfirmed_unconfirmed (acc : WalletSettings) (call : TxCall) (w : ScanWallet σ) :
    (processUnconfirmed acc call w).unconfirmedTxs =
      Function.update w.unconfirmedTxs call.txid none := by
  rw [processUnconfirmed]
  split
  · rename_i hnone
    rw [← hnone, Function.update_eq_self]
  · rfl

theorem settles_settle (acc : WalletSettings) (height : UInt64) (call : TxCall) (w : ScanWallet σ) :
    Settles height w (settle acc call w) := by
  rw [settle]
  split_ifs
  · have hunconfirmed := processUnconfirmed_unconfirmed acc call w
    obtain ⟨confirmed, unconfirmed, heq, -⟩ := processUnconfirmed_spec acc call w
    rw [heq] at hunconfirmed ⊢
    refine ⟨rfl, rfl, rfl, fun txid hnone => ?_, (settles_refl height w).spent⟩
    rw [hunconfirmed]
    by_cases htxid : txid = call.txid
    · rw [htxid, Function.update_self]
    · rw [Function.update_of_ne htxid, hnone]
  · exact settles_refl height w

theorem settles_markSpent (height : UInt64) (w : ScanWallet σ) (txin : Txin) :
    Settles height w (markSpent height w txin) := by
  cases txin with
  | toKey amount keyOffsets kImage =>
      rw [markSpent]
      split
      · refine ⟨rfl, rfl, map_modify_eq fun _ _ => rfl, fun _ h => h, ?_⟩
        intro i td td' hi hi' hspent
        dsimp only at hi'
        rw [List.getElem?_modify, hi] at hi'
        obtain rfl := Option.some.inj hi'
        split_ifs
        · exact ⟨rfl, rfl⟩
        · exact hspent
      · exact settles_refl height w
  | _ => exact settles_refl height w

theorem settles_markSpents (height : UInt64) (w : ScanWallet σ) (ins : List Txin) :
    Settles height w (ins.foldl (markSpent height) w) := by
  induction ins generalizing w with
  | nil => exact settles_refl height w
  | cons txin ins ih => exact (settles_markSpent height w txin).trans (ih _)

theorem settles_quietEffect (call : TxCall) (w : ScanWallet σ) :
    Settles call.height w (quietEffect acc call w) :=
  (settles_settle acc call.height call w).trans (settles_markSpents call.height _ _)

/-! ### Once more -/

structure Settled (w : ScanWallet σ) (call : TxCall) : Prop where
  unconfirmed : call.minerTx = false → w.unconfirmedTxs call.txid = none
  spent : ∀ txin ∈ call.tx.vin.toList, ∀ p ∈ spentTransfer? w txin, p.2.SpentAt call.height

theorem Settles.spentTransfer {height : UInt64} {w w' : ScanWallet σ} (h : Settles height w w')
    {txin : Txin} {p' : UInt64 × TransferDetails} (hp' : p' ∈ spentTransfer? w' txin) :
    ∃ p ∈ spentTransfer? w txin, p.1 = p'.1 ∧ p.2.amount = p'.2.amount ∧
      (p.2.SpentAt height → p'.2.SpentAt height) := by
  cases txin with
  | toKey amount keyOffsets kImage =>
      rw [spentTransfer?, h.keyImages, Option.mem_def] at hp'
      obtain ⟨td', htd', rfl⟩ := Option.map_eq_some_iff.mp hp'
      obtain ⟨i, hi, htd'⟩ := Option.bind_eq_some_iff.mp htd'
      obtain ⟨td, htd, hamount⟩ := getElem?_of_amounts h.amounts htd'
      refine ⟨(amount, td), ?_, rfl, hamount, h.spent i td td' htd htd'⟩
      rw [spentTransfer?, hi]
      simp [htd]
  | _ => simp [spentTransfer?] at hp'

theorem Settles.findsOutput {height : UInt64} {w w' : ScanWallet σ} (h : Settles height w w')
    (call : TxCall) (key : PublicKey × ℕ) :
    findsOutput ops acc w' call key = findsOutput ops acc w call key := by
  rw [Wallet.findsOutput, scanAlone, h.subaddresses]
  rfl

theorem Settles.rejected_iff {height : UInt64} {w w' : ScanWallet σ} (h : Settles height w w')
    (call : TxCall) : Rejected ops acc w' call ↔ Rejected ops acc w call := by
  simp only [Rejected, ReceivesNothing, h.findsOutput]

theorem Settles.quiet {height : UInt64} {w w' : ScanWallet σ} (h : Settles height w w')
    {call : TxCall} (hquiet : Quiet ops acc w call) : Quiet ops acc w' call := by
  constructor
  · intro key hkey
    rw [h.findsOutput]
    exact hquiet.1 key hkey
  · intro txin hin p' hp'
    obtain ⟨p, hp, hamount, htd, -⟩ := h.spentTransfer hp'
    rw [← hamount, ← htd]
    exact hquiet.2 txin hin p hp

theorem Settles.settled {w w' : ScanWallet σ} {call : TxCall} (h : Settles call.height w w')
    (hsettled : Settled w call) : Settled w' call := by
  constructor
  · exact fun hminer => h.unconfirmed call.txid (hsettled.unconfirmed hminer)
  · intro txin hin p' hp'
    obtain ⟨p, hp, -, -, hspent⟩ := h.spentTransfer hp'
    exact hspent (hsettled.spent txin hin p hp)

theorem modify_of_same {α : Type} {f : α → α} {l : List α} {i : ℕ}
    (h : ∀ a, l[i]? = some a → f a = a) : l.modify i f = l := by
  have hmap := map_modify_eq (g := id) h
  rwa [List.map_id, List.map_id] at hmap

theorem markSpent_of_spent {height : UInt64} {w : ScanWallet σ} {txin : Txin}
    (h : ∀ p ∈ spentTransfer? w txin, p.2.SpentAt height) : markSpent height w txin = w := by
  cases txin with
  | toKey amount keyOffsets kImage =>
      rw [markSpent]
      split
      · rename_i i hi
        rw [modify_of_same]
        intro td htd
        have hspent := h (amount, td) (by simp [spentTransfer?, hi, htd])
        obtain ⟨hs, hheight⟩ := hspent
        dsimp only at hs hheight
        rw [← hs, ← hheight]
      · rfl
  | _ => rfl

theorem markSpents_of_spent {height : UInt64} {w : ScanWallet σ} {ins : List Txin}
    (h : ∀ txin ∈ ins, ∀ p ∈ spentTransfer? w txin, p.2.SpentAt height) :
    ins.foldl (markSpent height) w = w := by
  induction ins with
  | nil => rfl
  | cons txin ins ih =>
      rw [List.foldl_cons, markSpent_of_spent (h txin List.mem_cons_self)]
      exact ih fun txin' hin => h txin' (List.mem_cons_of_mem txin hin)

theorem settle_of_none {w : ScanWallet σ} {call : TxCall}
    (h : call.minerTx = false → w.unconfirmedTxs call.txid = none) : settle acc call w = w := by
  rw [settle]
  split_ifs with hminer
  · rw [processUnconfirmed, h hminer]
  · rfl

theorem settle_unconfirmed (w : ScanWallet σ) (call : TxCall) (hminer : call.minerTx = false) :
    (settle acc call w).unconfirmedTxs call.txid = none := by
  rw [settle, if_pos hminer, processUnconfirmed_unconfirmed, Function.update_self]

theorem quietEffect_of_settled {w : ScanWallet σ} {call : TxCall} (h : Settled w call) :
    quietEffect acc call w = w := by
  rw [quietEffect, settle_of_none h.unconfirmed, markSpents_of_spent h.spent]

theorem spentAt_markSpent {height : UInt64} {w : ScanWallet σ} {txin : Txin}
    {p : UInt64 × TransferDetails} (h : p ∈ spentTransfer? (markSpent height w txin) txin) :
    p.2.SpentAt height := by
  cases txin with
  | toKey amount keyOffsets kImage =>
      cases hi : w.keyImages kImage with
      | none => simp [markSpent, spentTransfer?, hi] at h
      | some i =>
          simp only [markSpent, hi, spentTransfer?, Option.bind_some, List.getElem?_modify,
            Option.mem_def] at h
          obtain ⟨td, htd, rfl⟩ := Option.map_eq_some_iff.mp h
          obtain ⟨td', -, rfl⟩ := Option.map_eq_some_iff.mp htd
          simp [TransferDetails.SpentAt]
  | _ => simp [spentTransfer?] at h

theorem spentAt_markSpents {height : UInt64} (w : ScanWallet σ) (ins : List Txin) :
    ∀ txin ∈ ins, ∀ p ∈ spentTransfer? (ins.foldl (markSpent height) w) txin,
      p.2.SpentAt height := by
  induction ins generalizing w with
  | nil => simp
  | cons txin' ins ih =>
      intro txin hin p hp
      rw [List.foldl_cons] at hp
      rcases List.mem_cons.mp hin with rfl | hin
      · obtain ⟨p', hp', -, -, hspent⟩ := (settles_markSpents height _ ins).spentTransfer hp
        exact hspent (spentAt_markSpent hp')
      · exact ih _ txin hin p hp

theorem settled_quietEffect (w : ScanWallet σ) (call : TxCall) :
    Settled (quietEffect acc call w) call := by
  constructor
  · intro hminer
    exact (settles_markSpents call.height _ _).unconfirmed _ (settle_unconfirmed w call hminer)
  · exact spentAt_markSpents _ _

/-! ### A quiet transaction -/

theorem spendInput_quiet {w w' : ScanWallet σ} {call : TxCall} {s s' : Spends} {txin : Txin}
    (hpool : call.pool = false) (hsum : s.sum = 0)
    (hzero : ∀ p ∈ spentTransfer? w txin, p.1 = 0 ∧ p.2.amount = 0)
    (h : spendInput call s txin w = (.ok s', w')) :
    s'.sum = 0 ∧ w' = markSpent call.height w txin := by
  rw [spendInput, Throwing.get_bind] at h
  cases txin with
  | toKey amount keyOffsets kImage =>
      rw [markSpent]
      cases hi : w.keyImages kImage with
      | none =>
          simp only [hi] at h
          cases h
          exact ⟨hsum, rfl⟩
      | some i =>
          simp only [hi] at h
          cases htd : w.transfers[i]? with
          | none =>
              simp only [htd] at h
              cases h
          | some td =>
              obtain ⟨rfl, hamount⟩ := hzero (amount, td) (by simp [spentTransfer?, hi, htd])
              simp only [htd] at h
              cases h
              refine ⟨by simpa [hsum] using hamount, ?_⟩
              have hmark : setSpentBy call 0 = fun td =>
                  { td with spent := true, spentHeight := call.height } := by
                funext td
                rw [setSpentBy_of_block hpool]
                rfl
              rw [hmark]
  | _ =>
      cases h
      exact ⟨hsum, rfl⟩

theorem spendInputs_quiet {w w' : ScanWallet σ} {call : TxCall} {s s' : Spends} {ins : List Txin}
    (hpool : call.pool = false) (hsum : s.sum = 0)
    (hzero : ∀ txin ∈ ins, ∀ p ∈ spentTransfer? w txin, p.1 = 0 ∧ p.2.amount = 0)
    (h : Throwing.loop (spendInput call) ins s w = (.ok s', w')) :
    s'.sum = 0 ∧ w' = ins.foldl (markSpent call.height) w := by
  induction ins generalizing w s with
  | nil =>
      cases h
      exact ⟨hsum, rfl⟩
  | cons txin ins ih =>
      obtain ⟨s₁, w₁, hfirst, hrest⟩ := Throwing.bind_eq_ok.mp h
      obtain ⟨hsum₁, rfl⟩ := spendInput_quiet hpool hsum (hzero txin List.mem_cons_self) hfirst
      apply ih hsum₁ _ hrest
      intro txin' hin p' hp'
      obtain ⟨p, hp, hamount, htd, -⟩ := (settles_markSpent call.height w txin).spentTransfer hp'
      rw [← hamount, ← htd]
      exact hzero txin' (List.mem_cons_of_mem txin hin) p hp

theorem settle_eq (call : TxCall) (hpool : call.pool = false) (w : ScanWallet σ) :
    Throwing.when (call.minerTx = false ∧ call.pool = false)
      (Throwing.modify (processUnconfirmed acc call)) w = (.ok (), settle acc call w) := by
  rw [Throwing.when_apply, settle]
  by_cases hminer : call.minerTx = false
  · rw [if_pos ⟨hminer, hpool⟩, if_pos hminer]
    rfl
  · rw [if_neg fun h => hminer h.1, if_neg hminer]

theorem processNewTransaction_quiet {w w' : ScanWallet σ} {call : TxCall} {u : Unit}
    (hpool : call.pool = false) (hquiet : Quiet ops acc w call)
    (h : processNewTransaction ops acc call w = (.ok u, w')) : w' = quietEffect acc call w := by
  have hsettle := settles_settle acc call.height call w
  obtain ⟨hnothing, hzero⟩ := hsettle.quiet hquiet
  rw [processNewTransaction, Throwing.bind_of_ok (settle_eq call hpool w)] at h
  obtain ⟨receipts, w₁, hreceive, h₁⟩ := Throwing.bind_eq_ok.mp h
  obtain ⟨⟨r, hr, hreceipts⟩, -⟩ := receiveOutputs_quiet hnothing []
  rw [hr] at hreceive
  obtain ⟨rfl, rfl⟩ := Prod.mk.inj hreceive
  obtain rfl := hreceipts receipts rfl
  obtain ⟨spends, w₂, hspend, h₂⟩ := Throwing.bind_eq_ok.mp h₁
  obtain ⟨hsum, rfl⟩ := spendInputs_quiet hpool rfl hzero hspend
  obtain ⟨_, w₃, hout, h₃⟩ := Throwing.bind_eq_ok.mp h₂
  rw [Throwing.when_apply, if_neg (by simp [hsum])] at hout
  obtain rfl := congrArg Prod.snd hout
  rw [Throwing.when_apply, if_neg (by simp [incoming])] at h₃
  exact (congrArg Prod.snd h₃).symm

theorem processNewTransaction_oIndices {w : ScanWallet σ} {call : TxCall}
    (hpool : call.pool = false) (hquiet : Quiet ops acc w call) (oIndices : List UInt64) :
    processNewTransaction ops acc { call with oIndices } w = processNewTransaction ops acc call w := by
  have hnothing := ((settles_settle acc call.height call w).quiet hquiet).1
  rw [processNewTransaction, processNewTransaction, Throwing.bind_of_ok (settle_eq call hpool w)]
  exact (Throwing.bind_of_ok (settle_eq { call with oIndices } hpool w)).trans
    (Throwing.bind_congr_left (receiveOutputs_quiet hnothing oIndices).2)

theorem processNewTransaction_rejected {w : ScanWallet σ} {call : TxCall}
    (hpool : call.pool = false) (h : Rejected ops acc w call) :
    ∃ e, processNewTransaction ops acc call w = (.error e, settle acc call w) := by
  have hrejected : Rejected ops acc (settle acc call w) call :=
    ((settles_settle acc call.height call w).rejected_iff call).mpr h
  obtain ⟨e, he⟩ := receiveOutputs_rejected hrejected hpool
  rw [processNewTransaction, Throwing.bind_of_ok (settle_eq call hpool w)]
  exact ⟨e, Throwing.bind_of_error he⟩

theorem processNewTransaction_settle {w : ScanWallet σ} {call : TxCall} (hpool : call.pool = false) :
    processNewTransaction ops acc call (settle acc call w) = processNewTransaction ops acc call w := by
  rw [processNewTransaction, Throwing.bind_of_ok (settle_eq call hpool w),
    Throwing.bind_of_ok (settle_eq call hpool _), settle_of_none (settle_unconfirmed w call)]

/-! ### The calls of a block -/

variable (ops acc) in
def processCalls (calls : List TxCall) : Throwing (ScanWallet σ) Unit :=
  Throwing.loop (fun _ call => processNewTransaction ops acc call) calls ()

def SameTx (call call' : TxCall) : Prop := call' = { call with oIndices := call'.oIndices }

theorem QuietBefore.cons {w : ScanWallet σ} {call : TxCall} {calls : List TxCall}
    (h : QuietBefore ops acc w (call :: calls)) (hcall : ¬ Rejected ops acc w call) :
    Quiet ops acc w call ∧ QuietBefore ops acc w calls := by
  rw [QuietBefore, List.takeWhile_cons, if_pos (by simpa using hcall)] at h
  exact ⟨h call List.mem_cons_self, fun call' hcall' => h call' (List.mem_cons_of_mem call hcall')⟩

theorem Settles.quietBefore {height : UInt64} {w w' : ScanWallet σ} (h : Settles height w w')
    {calls : List TxCall} (hquiet : QuietBefore ops acc w calls) :
    QuietBefore ops acc w' calls := by
  intro call hcall
  simp only [h.rejected_iff] at hcall
  exact h.quiet (hquiet call hcall)

/-- After a throw behind quiet transactions, the calls come to the same end as without it. -/
theorem processCalls_retry {height : UInt64} {calls calls' : List TxCall} {w w₁ w₃ : ScanWallet σ}
    {e : String} (hsame : List.Forall₂ SameTx calls calls')
    (hcalls : ∀ call ∈ calls, call.height = height ∧ call.pool = false)
    (hquiet : QuietBefore ops acc w calls) (hfirst : processCalls ops acc calls w = (.error e, w₁))
    (hsingle : processCalls ops acc calls' w = (.ok (), w₃)) :
    Settles height w w₁ ∧ ∀ w₂, processCalls ops acc calls' w₁ = (.ok (), w₂) → w₂ = w₃ := by
  induction hsame generalizing w with
  | nil => cases hfirst
  | @cons call call' calls calls' hcall hrest ih =>
      obtain ⟨hheight, hpool⟩ := hcalls call List.mem_cons_self
      have hpool' : call'.pool = false := by rw [hcall]; exact hpool
      by_cases hrejected : Rejected ops acc w call
      · -- the throw: only the first step of the transaction was made
        obtain ⟨e', he'⟩ := processNewTransaction_rejected hpool hrejected
        have herror : processCalls ops acc (call :: calls) w = (.error e', settle acc call w) :=
          Throwing.bind_of_error he'
        rw [hfirst] at herror
        obtain rfl : w₁ = settle acc call w := congrArg Prod.snd herror
        refine ⟨settles_settle acc height call w, fun w₂ hretry => ?_⟩
        have hagain : processCalls ops acc (call' :: calls') (settle acc call w) =
            processCalls ops acc (call' :: calls') w := by
          apply Throwing.bind_congr_left
          have hsettle : settle acc call w = settle acc call' w := by rw [hcall]; rfl
          rw [hsettle]
          exact processNewTransaction_settle hpool'
        rw [hagain, hsingle] at hretry
        exact (congrArg Prod.snd hretry).symm
      · obtain ⟨hcallQuiet, hquietRest⟩ := hquiet.cons hrejected
        have hquiet' : Quiet ops acc w call' := by rw [hcall]; exact hcallQuiet
        obtain ⟨_, w', hcall', hsingleRest⟩ := Throwing.bind_eq_ok.mp hsingle
        obtain rfl := processNewTransaction_quiet hpool' hquiet' hcall'
        -- the first call has gone the same way
        have hsameCall : processNewTransaction ops acc call w =
            (.ok (), quietEffect acc call' w) := by
          rw [← hcall', hcall]
          exact (processNewTransaction_oIndices hpool hcallQuiet _).symm
        have hfirstRest : processCalls ops acc calls (quietEffect acc call' w) = (.error e, w₁) :=
          (Throwing.bind_of_ok hsameCall).symm.trans hfirst
        have hsettles : Settles height w (quietEffect acc call' w) := by
          have hheight' : call'.height = height := by rw [hcall]; exact hheight
          rw [← hheight']
          exact settles_quietEffect call' w
        obtain ⟨hafter, hretry⟩ := ih (fun c hc => hcalls c (List.mem_cons_of_mem call hc))
          (hsettles.quietBefore hquietRest) hfirstRest hsingleRest
        refine ⟨hsettles.trans hafter, fun w₂ hw₂ => ?_⟩
        -- nothing is left to do for this transaction
        obtain ⟨_, w₁', hcall₁, hrest₁⟩ := Throwing.bind_eq_ok.mp hw₂
        have hsettled : Settled w₁ call' := by
          have hheight' : call'.height = height := by rw [hcall]; exact hheight
          rw [← hheight'] at hafter
          exact hafter.settled (settled_quietEffect w call')
        obtain rfl := processNewTransaction_quiet hpool' ((hsettles.trans hafter).quiet hquiet')
          hcall₁
        rw [quietEffect_of_settled hsettled] at hrest₁
        exact hretry w₂ hrest₁

/-! ### The block -/

theorem zipped_calls_same {txs : List (Hash × Transaction)} {indices indices' : List (List UInt64)}
    (hlength : indices.length = indices'.length)
    {f : ((Hash × Transaction) × List UInt64) × ℕ → TxCall}
    (hf : ∀ p o o' i, SameTx (f ((p, o), i)) (f ((p, o'), i))) (n : ℕ) :
    List.Forall₂ SameTx (((txs.zip indices).zipIdx n).map f) (((txs.zip indices').zipIdx n).map f) := by
  induction txs generalizing indices indices' n with
  | nil => exact List.Forall₂.nil
  | cons p txs ih =>
      cases indices with
      | nil =>
          obtain rfl := List.length_eq_zero_iff.mp hlength.symm
          exact List.Forall₂.nil
      | cons o indices =>
          cases indices' with
          | nil => cases hlength
          | cons o' indices' =>
              exact List.Forall₂.cons (hf p o o' n) (ih (Nat.succ.inj hlength) (n + 1))

theorem handledCalls_same {b : BlockCall} {oIndices : List (List UInt64)} {height : UInt64}
    (hlength : oIndices.length = b.oIndices.length) :
    List.Forall₂ SameTx (handledCalls ops cfg acc { b with oIndices } height)
      (handledCalls ops cfg acc b height) := by
  have htail : oIndices.tail.length = b.oIndices.tail.length := by
    rw [List.length_tail, List.length_tail, hlength]
  have htxs : List.Forall₂ SameTx (txCalls { b with oIndices } height) (txCalls b height) := by
    unfold txCalls
    apply zipped_calls_same htail
    exact fun _ _ _ _ => rfl
  rw [handledCalls, handledCalls]
  split_ifs
  · exact List.Forall₂.cons rfl htxs
  · exact htxs

theorem handledCalls_spec {b : BlockCall} {height : UInt64} {call : TxCall}
    (h : call ∈ handledCalls ops cfg acc b height) : call.height = height ∧ call.pool = false := by
  rw [handledCalls] at h
  have hmem : call ∈ blockCalls ops cfg b height := by
    split_ifs at h
    · exact h
    · exact List.mem_cons_of_mem _ h
  exact blockCalls_spec hmem

theorem scanBlock_eq {b : BlockCall} (hhashes : b.txsSize = b.block.txHashes.toList.length)
    (htxes : b.txsSize = b.txes.length) (height : UInt64) (w : ScanWallet σ) :
    scanBlock ops cfg acc b height w =
      (processCalls ops acc (handledCalls ops cfg acc b height) >>= fun _ =>
        Throwing.modify fun w => { w with lastBlockReward := outsMoney b.block.minerTx }) w := by
  have hrest : ∀ w', (do
      Throwing.throwIf (b.txsSize ≠ b.block.txHashes.toList.length)
        "Wrong amount of transactions for block"
      Throwing.throwIf (b.txsSize ≠ b.txes.length) "Wrong amount of transactions for block"
      Throwing.loop (fun _ call => processNewTransaction ops acc call) (txCalls b height) ()
      Throwing.modify fun w => { w with lastBlockReward := outsMoney b.block.minerTx } :
        Throwing (ScanWallet σ) Unit) w' =
      (processCalls ops acc (txCalls b height) >>= fun _ =>
        Throwing.modify fun w => { w with lastBlockReward := outsMoney b.block.minerTx }) w' := by
    intro w'
    rw [Throwing.throwIf_bind, if_neg (not_not.mpr hhashes), Throwing.throwIf_bind,
      if_neg (not_not.mpr htxes)]
    rfl
  rw [scanBlock, handledCalls]
  by_cases hcoinbase : acc.refreshType ≠ .noCoinbase
  · rw [if_pos hcoinbase]
    have hwhen : Throwing.when (acc.refreshType ≠ .noCoinbase)
        (processNewTransaction ops acc (minerCall ops cfg b height)) w =
        processNewTransaction ops acc (minerCall ops cfg b height) w := by
      rw [Throwing.when_apply, if_pos hcoinbase]
    rcases hminer : processNewTransaction ops acc (minerCall ops cfg b height) w with ⟨e | u, w₁⟩
    · rw [hminer] at hwhen
      have hcalls : processCalls ops acc ([minerCall ops cfg b height] ++ txCalls b height) w =
          (.error e, w₁) := Throwing.bind_of_error hminer
      rw [Throwing.bind_of_error hwhen, Throwing.bind_of_error hcalls]
    · rw [hminer] at hwhen
      have hcalls : processCalls ops acc ([minerCall ops cfg b height] ++ txCalls b height) w =
          processCalls ops acc (txCalls b height) w₁ := Throwing.bind_of_ok hminer
      rw [Throwing.bind_of_ok hwhen, hrest, Throwing.bind_congr_left hcalls]
  · have hwhen : Throwing.when (acc.refreshType ≠ .noCoinbase)
        (processNewTransaction ops acc (minerCall ops cfg b height)) w = (.ok (), w) := by
      rw [Throwing.when_apply, if_neg hcoinbase]
    rw [if_neg hcoinbase, List.nil_append, Throwing.bind_of_ok hwhen, hrest]

theorem processNewBlockchainEntry_ok {b : BlockCall} {height : UInt64} {w w' : ScanWallet σ}
    {u : Unit} (hscans : scansBlock acc b height = true)
    (h : processNewBlockchainEntry ops cfg acc b height w = (.ok u, w')) :
    b.txsSize + 1 = b.oIndices.length ∧ ∃ v, scanBlock ops cfg acc b height w = (.ok (), v) ∧
      { v with blockchain := v.blockchain ++ [b.blId] } = w' := by
  obtain ⟨_, w₁, hcheck, h₁⟩ := Throwing.bind_eq_ok.mp h
  obtain ⟨hsize, rfl⟩ := Throwing.throwIf_eq_ok.mp hcheck
  obtain ⟨_, v, hscan, h₂⟩ := Throwing.bind_eq_ok.mp h₁
  rw [Throwing.when_apply, if_pos hscans] at hscan
  exact ⟨not_not.mp hsize, v, hscan, congrArg Prod.snd h₂⟩

theorem scanBlock_sizes {b : BlockCall} {height : UInt64} {w w' : ScanWallet σ} {u : Unit}
    (h : scanBlock ops cfg acc b height w = (.ok u, w')) :
    b.txsSize = b.block.txHashes.toList.length ∧ b.txsSize = b.txes.length := by
  obtain ⟨_, w₁, -, h₁⟩ := Throwing.bind_eq_ok.mp h
  obtain ⟨_, w₂, hhashes, h₂⟩ := Throwing.bind_eq_ok.mp h₁
  obtain ⟨_, w₃, htxes, -⟩ := Throwing.bind_eq_ok.mp h₂
  exact ⟨not_not.mp (Throwing.throwIf_eq_ok.mp hhashes).1,
    not_not.mp (Throwing.throwIf_eq_ok.mp htxes).1⟩

/-- A block is entered again after a throw: where the transactions in front of the rejected one
are quiet, the wallet is as after one call. -/
theorem retry_harmless {b : BlockCall} {oIndices : List (List UInt64)} {height : UInt64}
    {w w₁ w₂ w₃ : ScanWallet σ} {e : String}
    (hfirst : processNewBlockchainEntry ops cfg acc { b with oIndices } height w = (.error e, w₁))
    (hretry : processNewBlockchainEntry ops cfg acc b height w₁ = (.ok (), w₂))
    (hsingle : processNewBlockchainEntry ops cfg acc b height w = (.ok (), w₃))
    (hquiet : b.txsSize + 1 = oIndices.length →
      QuietBefore ops acc w (handledCalls ops cfg acc { b with oIndices } height)) :
    w₂.transfers = w₃.transfers ∧ w₂.payments = w₃.payments ∧
      w₂.confirmedTxs = w₃.confirmedTxs := by
  suffices h : w₂ = w₃ by simp [h]
  rw [processNewBlockchainEntry, Throwing.throwIf_bind] at hfirst
  split_ifs at hfirst with hmismatch
  · -- nothing was done at all
    obtain rfl : w = w₁ := congrArg Prod.snd hfirst
    rw [hsingle] at hretry
    exact (congrArg Prod.snd hretry).symm
  have hthrow := Throwing.bind_modify_eq_error.mp hfirst
  rw [Throwing.when_apply] at hthrow
  split_ifs at hthrow with hscans
  · have hscans' : scansBlock acc b height = true := hscans
    obtain ⟨hsize, v₃, hscan₃, rfl⟩ := processNewBlockchainEntry_ok hscans' hsingle
    obtain ⟨-, v₂, hscan₂, rfl⟩ := processNewBlockchainEntry_ok hscans' hretry
    obtain ⟨hhashes, htxes⟩ := scanBlock_sizes hscan₃
    rw [scanBlock_eq hhashes htxes] at hscan₂ hscan₃
    rw [scanBlock_eq (b := { b with oIndices }) hhashes htxes] at hthrow
    have herror := Throwing.bind_modify_eq_error.mp hthrow
    obtain ⟨⟨⟩, x₂, hcalls₂, hreward₂⟩ := Throwing.bind_eq_ok.mp hscan₂
    obtain ⟨⟨⟩, x₃, hcalls₃, hreward₃⟩ := Throwing.bind_eq_ok.mp hscan₃
    have hsame : List.Forall₂ SameTx (handledCalls ops cfg acc { b with oIndices } height)
        (handledCalls ops cfg acc b height) :=
      handledCalls_same ((not_not.mp hmismatch).symm.trans hsize)
    obtain rfl := (processCalls_retry hsame (fun _ h => handledCalls_spec h)
      (hquiet (not_not.mp hmismatch)) herror hcalls₃).2 x₂ hcalls₂
    rw [hreward₂] at hreward₃
    obtain rfl : v₂ = v₃ := congrArg Prod.snd hreward₃
    rfl
  · cases hthrow

/-! ### An output in front of the throw -/

/-- A block of two transactions. The second one pays to the wallet. -/
def retryEntry (first : Transaction) : BlockCall :=
  sampleEntry 0 [] [(7, first), (8, sampleTx [] [(2, 6)])]

def enterSample (b : BlockCall) (w : ScanWallet Unit) : Except String Unit × ScanWallet Unit :=
  processNewBlockchainEntry sampleScanOps currentConfig sampleSettings b 0 w

def enterFirst (b : BlockCall) (oIndices : List (List UInt64)) :
    Except String Unit × ScanWallet Unit :=
  enterSample { b with oIndices } (ScanWallet.empty ())

/-- The indices of the second transaction are missing in the first call. After the retry there is
an empty payment beside that of the first transaction. -/
theorem retry_pays_twice :
    let b := retryEntry (sampleTx [] [(1, 3)])
    let first := enterFirst b [[], [0], []]
    first.1 = .error "transactions outputs size not match with daemon response size" ∧
      (enterSample b first.2).1 = .ok () ∧ (enterSample b (ScanWallet.empty ())).1 = .ok () ∧
      (enterSample b first.2).2.payments ≠ (enterSample b (ScanWallet.empty ())).2.payments := by
  refine ⟨by decide, by decide, by decide, ?_⟩
  intro h
  have hcard := congrArg Multiset.card h
  revert hcard
  decide

theorem eq_of_fst {α β : Type} {p : α × β} {a : α} (h : p.1 = a) : p = (a, p.2) := by
  rw [← h]

/-- Nothing is paid by the first transaction. -/
theorem retry_harmless_quiet :
    let b := retryEntry (sampleTx [] [])
    let first := enterFirst b [[], [], []]
    (enterSample b first.2).2.payments.card = 1 ∧
      (enterSample b first.2).2.payments = (enterSample b (ScanWallet.empty ())).2.payments := by
  refine ⟨by decide, ?_⟩
  have hfirst : (enterFirst (retryEntry (sampleTx [] [])) [[], [], []]).1 =
      .error "transactions outputs size not match with daemon response size" := by decide
  have hretry : (enterSample (retryEntry (sampleTx [] []))
      (enterFirst (retryEntry (sampleTx [] [])) [[], [], []]).2).1 = .ok () := by decide
  have hsingle : (enterSample (retryEntry (sampleTx [] [])) (ScanWallet.empty ())).1 = .ok () := by
    decide
  exact (retry_harmless (eq_of_fst hfirst) (eq_of_fst hretry) (eq_of_fst hsingle)
    (by decide)).2.1

end XrCoin.Wallet

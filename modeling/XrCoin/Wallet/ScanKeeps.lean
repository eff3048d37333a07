import XrCoin.Wallet.Scan

/-!
What is kept by the scanning of a transaction or a block is what its single changes keep.

The changes are listed once, each with the branch in which it is made.
-/

namespace XrCoin.Wallet

open Archive Cryptonote Data

variable {σ : Type} (ops : ScanOps σ) (cfg : Config) (acc : WalletSettings)

/-- An output that the scan finds for one of the keys of a transaction. -/
def Scanned (tx : Transaction) (minerTx : Bool) (info : ScanInfo) : Prop :=
  ∃ subaddresses derivation additional found money infos found' money',
    scanKey ops acc tx minerTx subaddresses derivation additional found money =
      .ok (infos, found', money') ∧ info ∈ infos

structure KeptBy (P : ScanWallet σ → Prop) (call : TxCall) : Prop where
  unconfirmed : ∀ w, call.minerTx = false → call.pool = false → P w →
    P (processUnconfirmed acc call w)
  add : ∀ w pkIndex info, Scanned ops acc call.tx call.minerTx info → call.pool = false →
    w.pubKeys info.pub = none → P w → P (addTransfer ops acc call pkIndex info w)
  replace : ∀ w pkIndex info i td, Scanned ops acc call.tx call.minerTx info →
    call.pool = false → w.pubKeys info.pub = some i → w.transfers[i]? = some td →
    td.spent = false → td.amount < info.amount → P w →
    P (replaceTransfer ops call pkIndex info i w)
  spend : ∀ w amount keyOffsets kImage i, .toKey amount keyOffsets kImage ∈ call.tx.vin.toList →
    w.keyImages kImage = some i → P w →
    P { w with transfers := w.transfers.modify i (setSpentBy call amount) }
  outgoing : ∀ w spends money, call.pool = false → P w → P (recordOutgoing call spends money w)
  payments : ∀ w spends payments, P w → P (recordPayments ops call spends payments w)

variable {ops cfg acc} {P : ScanWallet σ → Prop}

/-! ### Receiving -/

theorem receiveOutcome_spec {w : ScanWallet σ} {info : ScanInfo} {outcome : Outcome}
    (h : receiveOutcome w info = .ok outcome) :
    match outcome with
    | .added => w.pubKeys info.pub = none
    | .ignored => ∃ i td, w.pubKeys info.pub = some i ∧ w.transfers[i]? = some td
    | .replaces i td => w.pubKeys info.pub = some i ∧ w.transfers[i]? = some td ∧
        td.spent = false ∧ td.amount < info.amount := by
  rw [receiveOutcome] at h
  cases hkey : w.pubKeys info.pub with
  | none =>
      rw [hkey] at h
      obtain rfl := Except.ok.inj h
      rfl
  | some i =>
      simp only [hkey] at h
      cases htd : w.transfers[i]? with
      | none =>
          simp only [htd] at h
          cases h
      | some td =>
          simp only [htd] at h
          split_ifs at h with hknown
          · obtain rfl := Except.ok.inj h
            exact ⟨i, td, rfl, htd⟩
          · obtain rfl := Except.ok.inj h
            rw [not_or, UInt64.not_le] at hknown
            exact ⟨rfl, htd, by simpa using hknown.1, hknown.2⟩

theorem receiveOutput_keeps {call : TxCall} (h : KeptBy ops acc P call) {pkIndex : ℕ}
    {info : ScanInfo} (hinfo : Scanned ops acc call.tx call.minerTx info) (r : Receipts) :
    Throwing.Keeps P (receiveOutput ops acc call pkIndex r info) := by
  apply Throwing.keeps_get_bind
  intro w hw
  cases houtcome : receiveOutcome w info with
  | error e => exact hw
  | ok outcome =>
      have hspec := receiveOutcome_spec houtcome
      rw [Throwing.lift_ok_bind]
      cases outcome with
      | added =>
          dsimp only
          rw [receiveAdded, Throwing.when]
          split_ifs with hpool
          · exact h.add w pkIndex info hinfo hpool hspec hw
          · exact hw
      | ignored =>
          exact ((Throwing.keeps_throwIf _ _).bind fun _ => Throwing.keeps_pure _) w hw
      | replaces i td =>
          obtain ⟨hkey, htd, hspent, hamount⟩ := hspec
          dsimp only
          rw [receiveReplacing, Throwing.throwIf_bind, Throwing.when]
          split_ifs with _ hpool
          · exact hw
          · -- nothing behind the replacement changes the wallet
            exact (((Throwing.keeps_throwIf _ _).bind fun _ => Throwing.keeps_throwIf _ _).bind
              fun _ => Throwing.keeps_pure _) _
              (h.replace w pkIndex info i td hinfo hpool hkey htd hspent hamount hw)
          · exact hw

theorem receiveKey_keeps {call : TxCall} (h : KeptBy ops acc P call) (l : KeyLoop)
    (key : PublicKey × ℕ) : Throwing.Keeps P (receiveKey ops acc call l key) := by
  apply Throwing.keeps_get_bind
  intro w hw
  cases hscan : scanKey ops acc call.tx call.minerTx w.subaddresses
      (ops.generateKeyDerivation key.1) (additionalDerivations ops call key.2) l.found
      l.receipts.money with
  | error e => exact hw
  | ok scanned =>
      obtain ⟨infos, found, money⟩ := scanned
      rw [Throwing.lift_ok_bind]
      dsimp only
      split_ifs
      · exact hw
      · refine Throwing.Keeps.bind (Throwing.keeps_throwIf _ _) (fun _ => ?_) w hw
        refine Throwing.Keeps.bind (Throwing.Keeps.loop (fun r info hinfo => ?_) _)
          (fun _ => Throwing.keeps_pure _)
        exact receiveOutput_keeps h ⟨_, _, _, _, _, _, _, _, hscan, hinfo⟩ r

theorem receiveOutputs_keeps {call : TxCall} (h : KeptBy ops acc P call) :
    Throwing.Keeps P (receiveOutputs ops acc call) := by
  rw [receiveOutputs]
  split_ifs
  · exact Throwing.keeps_pure _
  · apply Throwing.Keeps.bind
    · exact Throwing.Keeps.loop (fun l key _ => receiveKey_keeps h l key) _
    · exact fun _ => Throwing.keeps_pure _

/-! ### The whole transaction -/

theorem spendInput_keeps {call : TxCall} (h : KeptBy ops acc P call) {txin : Txin}
    (htxin : txin ∈ call.tx.vin.toList) (s : Spends) :
    Throwing.Keeps P (spendInput call s txin) := by
  apply Throwing.keeps_get_bind
  intro w hw
  cases txin with
  | toKey amount keyOffsets kImage =>
      dsimp only
      cases hki : w.keyImages kImage with
      | none => exact hw
      | some i =>
          dsimp only
          cases htd : w.transfers[i]? with
          | none => exact hw
          | some td => exact h.spend w amount keyOffsets kImage i htxin hki hw
  | _ => exact hw

theorem processNewTransaction_keeps {call : TxCall} (h : KeptBy ops acc P call) :
    Throwing.Keeps P (processNewTransaction ops acc call) := by
  apply Throwing.Keeps.bind
  · apply Throwing.Keeps.when
    rintro ⟨hminer, hpool⟩
    exact Throwing.keeps_modify fun w hw => h.unconfirmed w hminer hpool hw
  intro _
  apply (receiveOutputs_keeps h).bind
  intro receipts
  apply Throwing.Keeps.bind
  · exact Throwing.Keeps.loop (fun s txin htxin => spendInput_keeps h htxin s) _
  intro spends
  apply Throwing.Keeps.bind
  · apply Throwing.Keeps.when
    rintro ⟨-, hpool⟩
    exact Throwing.keeps_modify fun w hw => h.outgoing w spends _ hpool hw
  intro _
  apply Throwing.Keeps.when
  intro _
  refine (Throwing.keeps_throwIf _ _).bind fun _ => ?_
  exact Throwing.keeps_modify fun w hw => h.payments w spends _ hw

/-! ### Blocks -/

variable (ops cfg) in
def blockCalls (b : BlockCall) (height : UInt64) : List TxCall :=
  minerCall ops cfg b height :: txCalls b height

theorem scanBlock_keeps {b : BlockCall} {height : UInt64}
    (h : ∀ call ∈ blockCalls ops cfg b height, KeptBy ops acc P call)
    (hreward : ∀ w reward, P w → P { w with lastBlockReward := reward }) :
    Throwing.Keeps P (scanBlock ops cfg acc b height) := by
  apply Throwing.Keeps.bind
  · exact Throwing.Keeps.when fun _ => processNewTransaction_keeps (h _ List.mem_cons_self)
  intro _
  refine (Throwing.keeps_throwIf _ _).bind fun _ => ?_
  refine (Throwing.keeps_throwIf _ _).bind fun _ => ?_
  apply Throwing.Keeps.bind
  · apply Throwing.Keeps.loop
    intro _ call hcall
    exact processNewTransaction_keeps (h call (List.mem_cons_of_mem _ hcall))
  intro _
  exact Throwing.keeps_modify fun w hw => hreward w _ hw

theorem blockCalls_spec {b : BlockCall} {height : UInt64} {call : TxCall}
    (h : call ∈ blockCalls ops cfg b height) : call.height = height ∧ call.pool = false := by
  rcases List.mem_cons.mp h with rfl | h
  · exact ⟨rfl, rfl⟩
  · obtain ⟨p, -, rfl⟩ := List.mem_map.mp h
    exact ⟨rfl, rfl⟩

theorem processNewBlockchainEntry_keeps {b : BlockCall} {height : UInt64}
    (h : ∀ call ∈ blockCalls ops cfg b height, KeptBy ops acc P call)
    (hreward : ∀ w reward, P w → P { w with lastBlockReward := reward })
    (hpush : ∀ w, P w → P { w with blockchain := w.blockchain ++ [b.blId] }) :
    Throwing.Keeps P (processNewBlockchainEntry ops cfg acc b height) := by
  refine (Throwing.keeps_throwIf _ _).bind fun _ => ?_
  apply Throwing.Keeps.bind
  · exact Throwing.Keeps.when fun _ => scanBlock_keeps h hreward
  intro _
  exact Throwing.keeps_modify hpush

end XrCoin.Wallet

import Mathlib
import XrCoin.Wallet.Detach

/-!
A detaching undoes the scanning of the blocks from its height on.

All that a wallet has recorded carries the height of a block below the split. What the blocks
behind the split add carries a height from there on, and an older transfer that they spend is
marked with such a height too. Each container is then cut by its own field.
-/

namespace XrCoin.Wallet

open Archive Cryptonote Data

variable {σ : Type} (ops : ScanOps σ) (cfg : Config) (acc : WalletSettings)

/-- The loop of `process_parsed_blocks` over blocks that the wallet does not have yet. It returns
the height behind the last one. -/
def scanBlocks (blocks : List BlockCall) (height : UInt64) : Throwing (ScanWallet σ) UInt64 :=
  Throwing.loop (fun height b => do
    processNewBlockchainEntry ops cfg acc b height
    pure (height + 1)) blocks height

/-! ### What blocks consist of -/

def BlockCall.txs (b : BlockCall) : List Transaction := b.block.minerTx :: b.txes

/-- One-time keys of outputs, key images of inputs and identifiers of transactions. -/
structure Traces where
  keys : List PublicKey
  images : List KeyImage
  txids : List Hash

def tracesOf (blocks : List BlockCall) : Traces where
  keys := (blocks.flatMap BlockCall.txs).flatMap fun tx => tx.vout.toList.filterMap TxOut.key?
  images := (blocks.flatMap BlockCall.txs).flatMap fun tx => (txRings tx).map Prod.fst
  txids := blocks.flatMap fun b =>
    getTransactionHash ops.toCryptoOps cfg b.block.minerTx :: b.block.txHashes.toList

structure Traces.Apart (old new : Traces) : Prop where
  keys : old.keys.Disjoint new.keys
  images : old.images.Disjoint new.images
  txids : old.txids.Disjoint new.txids

structure TxCall.Within (traces : Traces) (call : TxCall) : Prop where
  keys : ∀ out ∈ call.tx.vout.toList, ∀ key, out.key? = some key → key ∈ traces.keys
  images : ∀ amount keyOffsets k, .toKey amount keyOffsets k ∈ call.tx.vin.toList →
    k ∈ traces.images
  txid : call.txid ∈ traces.txids

variable {ops cfg acc} {image : PublicKey → KeyImage}

theorem blockCalls_tx_mem {b : BlockCall} {height : UInt64} {call : TxCall}
    (h : call ∈ blockCalls ops cfg b height) : call.tx ∈ b.txs := by
  rcases List.mem_cons.mp h with rfl | h
  · exact List.mem_cons_self
  · obtain ⟨p, hp, rfl⟩ := List.mem_map.mp h
    have hzip := (List.of_mem_zip (List.fst_mem_of_mem_zipIdx hp)).1
    exact List.mem_cons_of_mem _ (List.of_mem_zip hzip).2

theorem blockCalls_within {blocks : List BlockCall} {b : BlockCall} (hb : b ∈ blocks)
    {height : UInt64} {call : TxCall} (h : call ∈ blockCalls ops cfg b height) :
    call.Within (tracesOf ops cfg blocks) := by
  have htx : call.tx ∈ blocks.flatMap BlockCall.txs :=
    List.mem_flatMap.mpr ⟨b, hb, blockCalls_tx_mem h⟩
  constructor
  · intro out hout key hkey
    exact List.mem_flatMap.mpr ⟨call.tx, htx, List.mem_filterMap.mpr ⟨out, hout, hkey⟩⟩
  · intro amount keyOffsets k hin
    refine List.mem_flatMap.mpr ⟨call.tx, htx, List.mem_map.mpr ⟨(k, keyOffsets.toList), ?_, rfl⟩⟩
    exact List.mem_filterMap.mpr ⟨_, hin, rfl⟩
  · refine List.mem_flatMap.mpr ⟨b, hb, ?_⟩
    rcases List.mem_cons.mp h with rfl | h
    · exact List.mem_cons_self
    · obtain ⟨p, hp, rfl⟩ := List.mem_map.mp h
      have hzip := (List.of_mem_zip (List.fst_mem_of_mem_zipIdx hp)).1
      exact List.mem_cons_of_mem _ (List.of_mem_zip hzip).1

/-! ### Confirmed transactions -/

/-- Another map of confirmed transactions may differ at one transaction, which it has at a
height. -/
def DiffersAt (txid : Hash) (height : UInt64)
    (before after : Hash → Option ConfirmedTransferDetails) : Prop :=
  ∀ id, after id = before id ∨
    (id = txid ∧ ∃ entry, after id = some entry ∧ entry.blockHeight = height)

theorem differsAt_update {txid : Hash} {height : UInt64} (before : Hash → Option _)
    {entry : ConfirmedTransferDetails} (h : entry.blockHeight = height) :
    DiffersAt txid height before (Function.update before txid (some entry)) := by
  intro id
  by_cases hid : id = txid
  · subst hid
    exact Or.inr ⟨rfl, entry, Function.update_self .., h⟩
  · exact Or.inl (Function.update_of_ne hid _ _)

theorem processUnconfirmed_spec (acc : WalletSettings) (call : TxCall) (w : ScanWallet σ) :
    ∃ confirmed unconfirmed,
      processUnconfirmed acc call w =
        { w with confirmedTxs := confirmed, unconfirmedTxs := unconfirmed } ∧
      DiffersAt call.txid call.height w.confirmedTxs confirmed := by
  rw [processUnconfirmed]
  split
  · exact ⟨w.confirmedTxs, w.unconfirmedTxs, rfl, fun id => Or.inl rfl⟩
  · refine ⟨_, _, rfl, ?_⟩
    split_ifs
    · exact differsAt_update _ rfl
    · exact fun id => Or.inl rfl

theorem recordOutgoing_spec (call : TxCall) (spends : Spends) (money : Money) (w : ScanWallet σ) :
    ∃ confirmed, recordOutgoing call spends money w = { w with confirmedTxs := confirmed } ∧
      DiffersAt call.txid call.height w.confirmedTxs confirmed := by
  rw [recordOutgoing]
  split
  · exact ⟨w.confirmedTxs, rfl, fun id => Or.inl rfl⟩
  · dsimp only
    split_ifs
    · refine ⟨_, rfl, ?_⟩
      simp only [processOutgoing, Function.update_self, Option.map_some, Function.update_idem]
      exact differsAt_update _ rfl
    · exact ⟨_, rfl, differsAt_update _ rfl⟩

theorem recordPayments_of_block {call : TxCall} (hpool : call.pool = false) (spends : Spends)
    (payments : Money) (w : ScanWallet σ) :
    recordPayments ops call spends payments w =
      { w with
        payments := w.payments +
          payments.map fun p => (txPaymentId ops call.tx, newPayment call spends p) } := by
  simp [recordPayments, hpool]

/-! ### Below the split -/

structure TransferDetails.RecordedBelow (height : UInt64) (traces : Traces) (td : TransferDetails) :
    Prop where
  blockHeight : td.blockHeight < height
  key : ∀ key, td.publicKey? = some key → key ∈ traces.keys
  spent : td.spent = true → td.spentHeight < height ∧ td.keyImage ∈ traces.images
  unspent : td.spent = false → td.spentHeight = 0

structure RecordedBelow (image : PublicKey → KeyImage) (height : UInt64) (traces : Traces)
    (w : ScanWallet σ) : Prop where
  indexed : Indexed image w
  transfers : ∀ td ∈ w.transfers, td.RecordedBelow height traces
  payments : ∀ p ∈ w.payments, p.2.blockHeight < height
  confirmed : ∀ txid entry, w.confirmedTxs txid = some entry →
    entry.blockHeight < height ∧ txid ∈ traces.txids

theorem recordedBelow_empty (height : UInt64) (traces : Traces) (subaddresses : σ) :
    RecordedBelow image height traces (ScanWallet.empty subaddresses) :=
  ⟨indexed_empty subaddresses, by simp [ScanWallet.empty], by simp [ScanWallet.empty],
    by simp [ScanWallet.empty]⟩

theorem mem_modify {α : Type} {f : α → α} {l : List α} {i : ℕ} {a : α} (h : a ∈ l.modify i f) :
    a ∈ l ∨ ∃ b, l[i]? = some b ∧ a = f b := by
  obtain ⟨j, hj⟩ := List.mem_iff_getElem?.mp h
  rw [List.getElem?_modify] at hj
  obtain ⟨b, hb, rfl⟩ := Option.map_eq_some_iff.mp hj
  split_ifs with hij
  · exact Or.inr ⟨b, hij ▸ hb, rfl⟩
  · exact Or.inl (List.mem_of_getElem? hb)

theorem setReceived_recordedBelow {call : TxCall} {pkIndex : ℕ} {info : ScanInfo}
    {td : TransferDetails} {height : UInt64} {traces : Traces} (hheight : call.height < height)
    (hwithin : call.Within traces) (hspent : td.spent = false) (hunspent : td.spentHeight = 0) :
    (setReceived call pkIndex info td).RecordedBelow height traces where
  blockHeight := hheight
  key := by
    intro key hkey
    obtain ⟨out, hout, hkey⟩ := Option.bind_eq_some_iff.mp hkey
    exact hwithin.keys out (List.mem_of_getElem? hout) key hkey
  spent := by
    intro h
    simp [setReceived, hspent] at h
  unspent := fun _ => hunspent

theorem Indexed.keyImage_eq {w : ScanWallet σ} (h : Indexed image w) {ki : KeyImage} {i : ℕ}
    {td : TransferDetails} (hki : w.keyImages ki = some i) (htd : w.transfers[i]? = some td) :
    td.keyImage = ki := by
  have hi := (h.keyImages_iff ki i).mp hki
  rw [List.getElem?_map, htd] at hi
  exact Option.some.inj hi

theorem Indexed.publicKey_eq {w : ScanWallet σ} (h : Indexed image w) {key : PublicKey} {i : ℕ}
    {td : TransferDetails} (hkey : w.pubKeys key = some i) (htd : w.transfers[i]? = some td) :
    td.publicKey? = some key := by
  have hi := (h.pubKeys_iff key i).mp hkey
  rw [List.getElem?_map, htd] at hi
  exact hi

theorem setSpentBy_of_block {call : TxCall} (hpool : call.pool = false) (amount : UInt64)
    (td : TransferDetails) :
    setSpentBy call amount td =
      { td with amount := if 0 < amount then amount else td.amount, spent := true,
                spentHeight := call.height } := by
  simp only [setSpentBy, hpool, Bool.false_eq_true, if_false]
  split_ifs <;> rfl

theorem confirmed_of_differsAt {call : TxCall} {height : UInt64} {traces : Traces}
    {before after : Hash → Option ConfirmedTransferDetails}
    (h : DiffersAt call.txid call.height before after) (hheight : call.height < height)
    (hwithin : call.Within traces)
    (hbefore : ∀ txid entry, before txid = some entry →
      entry.blockHeight < height ∧ txid ∈ traces.txids) :
    ∀ txid entry, after txid = some entry → entry.blockHeight < height ∧ txid ∈ traces.txids := by
  intro txid entry hentry
  rcases h txid with hsame | ⟨rfl, entry', hentry', hheight'⟩
  · exact hbefore txid entry (hsame ▸ hentry)
  · obtain rfl := Option.some.inj (hentry'.symm.trans hentry)
    exact ⟨hheight' ▸ hheight, hwithin.txid⟩

theorem recordedBelow_keptBy (himage : KeyImagesOf ops image) (hacc : acc.Full) {call : TxCall}
    {height : UInt64} {traces : Traces} (hheight : call.height < height)
    (hpool : call.pool = false) (hwithin : call.Within traces) :
    KeptBy ops acc (RecordedBelow image height traces) call where
  unconfirmed := by
    intro w _ _ hw
    obtain ⟨confirmed, unconfirmed, heq, hdiffers⟩ := processUnconfirmed_spec acc call w
    rw [heq]
    exact ⟨hw.indexed, hw.transfers, hw.payments,
      confirmed_of_differsAt hdiffers hheight hwithin hw.confirmed⟩
  add := by
    intro w pkIndex info hscan hpool hnew hw
    refine ⟨(indexed_keptBy himage hacc call).add w pkIndex info hscan hpool hnew hw.indexed, ?_,
      hw.payments, hw.confirmed⟩
    intro td htd
    rcases List.mem_append.mp htd with htd | htd
    · exact hw.transfers td htd
    · rw [List.mem_singleton.mp htd]
      exact setReceived_recordedBelow hheight hwithin rfl rfl
  replace := by
    intro w pkIndex info i td hscan hpool hkey hi hspent hamount hw
    refine ⟨(indexed_keptBy himage hacc call).replace w pkIndex info i td hscan hpool hkey hi hspent
      hamount hw.indexed, ?_, hw.payments, hw.confirmed⟩
    intro td' htd'
    rcases mem_modify htd' with htd' | ⟨td₀, htd₀, rfl⟩
    · exact hw.transfers td' htd'
    · obtain rfl := Option.some.inj (hi.symm.trans htd₀)
      exact setReceived_recordedBelow hheight hwithin hspent
        ((hw.transfers td (List.mem_of_getElem? hi)).unspent hspent)
  spend := by
    intro w amount keyOffsets kImage i hin hki hw
    refine ⟨(indexed_keptBy himage hacc call).spend w amount keyOffsets kImage i hin hki hw.indexed,
      ?_, hw.payments, hw.confirmed⟩
    intro td' htd'
    rcases mem_modify htd' with htd' | ⟨td, htd, rfl⟩
    · exact hw.transfers td' htd'
    · have hrecorded := hw.transfers td (List.mem_of_getElem? htd)
      rw [setSpentBy_of_block hpool]
      refine ⟨hrecorded.blockHeight, hrecorded.key, fun _ => ⟨hheight, ?_⟩, by simp⟩
      dsimp only
      rw [hw.indexed.keyImage_eq hki htd]
      exact hwithin.images _ _ _ hin
  outgoing := by
    intro w spends money _ hw
    obtain ⟨confirmed, heq, hdiffers⟩ := recordOutgoing_spec call spends money w
    rw [heq]
    exact ⟨hw.indexed, hw.transfers, hw.payments,
      confirmed_of_differsAt hdiffers hheight hwithin hw.confirmed⟩
  payments := by
    intro w spends payments hw
    rw [recordPayments_of_block hpool]
    refine ⟨hw.indexed, hw.transfers, fun p hp => ?_, hw.confirmed⟩
    rcases Multiset.mem_add.mp hp with hp | hp
    · exact hw.payments p hp
    · obtain ⟨_, -, rfl⟩ := List.mem_map.mp (Multiset.mem_coe.mp hp)
      exact hheight

/-! ### Behind the split -/

structure ExtendedFrom (image : PublicKey → KeyImage) (height : UInt64) (w₀ w : ScanWallet σ) :
    Prop where
  indexed : Indexed image w
  blockchain : w₀.blockchain <+: w.blockchain
  kept : ∀ (i : ℕ) td₀, w₀.transfers[i]? = some td₀ →
    w.transfers[i]?.map (resetSpent height) = some td₀
  added : ∀ (i : ℕ) td, w₀.transfers[i]? = none → w.transfers[i]? = some td →
    height ≤ td.blockHeight
  payments : (w.payments.filter fun p => p.2.blockHeight < height) = w₀.payments
  confirmed : ∀ txid, ((w.confirmedTxs txid).filter fun entry =>
    decide (entry.blockHeight < height)) = w₀.confirmedTxs txid

theorem resetSpent_of_recordedBelow {height : UInt64} {traces : Traces} {td : TransferDetails}
    (h : td.RecordedBelow height traces) : resetSpent height td = td := by
  rw [resetSpent, if_neg]
  rintro ⟨hspent, hheight⟩
  exact absurd (h.spent hspent).1 (UInt64.not_lt.mpr hheight)

theorem extendedFrom_refl {height : UInt64} {traces : Traces} {w : ScanWallet σ}
    (h : RecordedBelow image height traces w) : ExtendedFrom image height w w where
  indexed := h.indexed
  blockchain := List.prefix_rfl
  kept := by
    intro i td hi
    rw [hi, Option.map_some, resetSpent_of_recordedBelow (h.transfers td (List.mem_of_getElem? hi))]
  added := by
    intro i td hnone hi
    rw [hnone] at hi
    cases hi
  payments := Multiset.filter_eq_self.mpr h.payments
  confirmed := by
    intro txid
    cases hentry : w.confirmedTxs txid with
    | none => rfl
    | some entry => simp [Option.filter, (h.confirmed txid entry hentry).1]

/-- A transfer that is changed stays as it was but for its spending, or is from the height on. -/
theorem ExtendedFrom.modify {height : UInt64} {w₀ w : ScanWallet σ}
    (h : ExtendedFrom image height w₀ w) {i : ℕ} {f : TransferDetails → TransferDetails}
    {w' : ScanWallet σ} (hindexed : Indexed image w')
    (htransfers : w'.transfers = w.transfers.modify i f) (hchain : w'.blockchain = w.blockchain)
    (hpayments : w'.payments = w.payments) (hconfirmed : w'.confirmedTxs = w.confirmedTxs)
    (hkept : ∀ td td₀, w₀.transfers[i]? = some td₀ → w.transfers[i]? = some td →
      resetSpent height td = td₀ → resetSpent height (f td) = td₀)
    (hadded : ∀ td, height ≤ td.blockHeight → height ≤ (f td).blockHeight) :
    ExtendedFrom image height w₀ w' where
  indexed := hindexed
  blockchain := hchain ▸ h.blockchain
  kept := by
    intro j td₀ hj
    obtain ⟨td, htd, hreset⟩ := Option.map_eq_some_iff.mp (h.kept j td₀ hj)
    rw [htransfers, List.getElem?_modify, htd]
    by_cases hij : i = j
    · subst hij
      simp [hkept td td₀ hj htd hreset]
    · simp [hij, hreset]
  added := by
    intro j td' hj htd'
    rw [htransfers, List.getElem?_modify] at htd'
    obtain ⟨td, htd, rfl⟩ := Option.map_eq_some_iff.mp htd'
    split_ifs
    · exact hadded td (h.added j td hj htd)
    · exact h.added j td hj htd
  payments := hpayments ▸ h.payments
  confirmed := hconfirmed ▸ h.confirmed

theorem filter_of_differsAt {call : TxCall} {height : UInt64}
    {before after before₀ : Hash → Option ConfirmedTransferDetails}
    (h : DiffersAt call.txid call.height before after) (hheight : height ≤ call.height)
    (hnew : before₀ call.txid = none)
    (hbefore : ∀ txid, ((before txid).filter fun entry => decide (entry.blockHeight < height)) =
      before₀ txid) (txid : Hash) :
    ((after txid).filter fun entry => decide (entry.blockHeight < height)) = before₀ txid := by
  rcases h txid with hsame | ⟨rfl, entry, hentry, hentry'⟩
  · rw [hsame, hbefore]
  · rw [hentry, hnew]
    simp [Option.filter, hentry', hheight]

/-- An input with an amount in the clear has that of the transfer that it spends. -/
def SpendsExactly (td : TransferDetails) : Txin → Prop
  | .toKey amount _ kImage => td.keyImage = kImage → 0 < amount → td.amount = amount
  | _ => True

instance (td : TransferDetails) : ∀ txin, Decidable (SpendsExactly td txin)
  | .toKey amount _ kImage =>
      inferInstanceAs (Decidable (td.keyImage = kImage → 0 < amount → td.amount = amount))
  | .gen _ => inferInstanceAs (Decidable True)
  | .toScript _ _ _ => inferInstanceAs (Decidable True)
  | .toScriptHash _ _ _ _ => inferInstanceAs (Decidable True)

/-- A spending from a height on is taken back as a whole. -/
theorem resetSpent_setSpentBy {call : TxCall} {height amount : UInt64} {td : TransferDetails}
    (hpool : call.pool = false) (hheight : height ≤ call.height)
    (hamount : 0 < amount → td.amount = amount)
    (hspent : td.spent = true → height ≤ td.spentHeight)
    (hunspent : td.spent = false → td.spentHeight = 0) :
    resetSpent height (setSpentBy call amount td) = resetSpent height td := by
  have hsame : (if 0 < amount then amount else td.amount) = td.amount := by
    split_ifs with hpos
    · exact (hamount hpos).symm
    · rfl
  rw [setSpentBy_of_block hpool, hsame, resetSpent, if_pos ⟨rfl, hheight⟩, resetSpent]
  split_ifs with h
  · rfl
  · have hfalse : td.spent = false := by
      by_contra htrue
      rw [Bool.not_eq_false] at htrue
      exact h ⟨htrue, hspent htrue⟩
    rw [← hunspent hfalse, ← hfalse]

structure TxCall.NewFor (height : UInt64) (w₀ : ScanWallet σ) (call : TxCall) : Prop where
  height_le : height ≤ call.height
  pool : call.pool = false
  keys : ∀ out ∈ call.tx.vout.toList, ∀ key, out.key? = some key →
    ∀ td ∈ w₀.transfers, td.publicKey? ≠ some key
  images : ∀ amount keyOffsets k, .toKey amount keyOffsets k ∈ call.tx.vin.toList →
    ∀ td ∈ w₀.transfers, td.keyImage = k → td.spent = false ∧ (0 < amount → td.amount = amount)
  txid : w₀.confirmedTxs call.txid = none

theorem publicKey?_resetSpent (height : UInt64) (td : TransferDetails) :
    (resetSpent height td).publicKey? = td.publicKey? :=
  congrArg TransferKeys.key (resetSpent_keys height td)

theorem keyImage_resetSpent (height : UInt64) (td : TransferDetails) :
    (resetSpent height td).keyImage = td.keyImage :=
  congrArg TransferKeys.keyImage (resetSpent_keys height td)

theorem amount_resetSpent (height : UInt64) (td : TransferDetails) :
    (resetSpent height td).amount = td.amount := by
  rw [resetSpent]
  split_ifs <;> rfl

/-- The spending of a transfer that the earlier wallet has unspent can be taken back. -/
theorem ExtendedFrom.resetSpent_spend {height : UInt64} {traces : Traces} {w₀ : ScanWallet σ}
    (hw₀ : RecordedBelow image height traces w₀) {call : TxCall} (hcall : call.NewFor height w₀)
    {amount : UInt64} {keyOffsets : StdVector UInt64} {kImage : KeyImage}
    (hin : .toKey amount keyOffsets kImage ∈ call.tx.vin.toList) {td td₀ : TransferDetails}
    (htd₀ : td₀ ∈ w₀.transfers) (hki : td.keyImage = kImage) (hreset : resetSpent height td = td₀) :
    resetSpent height (setSpentBy call amount td) = td₀ := by
  have hki₀ : td₀.keyImage = kImage := by rw [← hreset, keyImage_resetSpent, hki]
  obtain ⟨hspent₀, hamount⟩ := hcall.images amount keyOffsets kImage hin td₀ htd₀ hki₀
  have hlate : td.spent = true → height ≤ td.spentHeight := by
    intro hspent
    by_contra hearly
    rw [resetSpent, if_neg fun h => hearly h.2] at hreset
    rw [← hreset, hspent] at hspent₀
    cases hspent₀
  have hnever : td.spent = false → td.spentHeight = 0 := by
    intro hspent
    have hsame : td = td₀ := by
      rw [← hreset, resetSpent, if_neg fun h => by simp [hspent] at h]
    rw [hsame]
    exact (hw₀.transfers td₀ htd₀).unspent hspent₀
  rw [← hreset]
  apply resetSpent_setSpentBy hcall.pool hcall.height_le _ hlate hnever
  intro hpos
  rw [← hamount hpos, ← hreset, amount_resetSpent]

/-- Whatever a transaction of a new block does can be taken back. -/
theorem extendedFrom_keptBy (himage : KeyImagesOf ops image) (hacc : acc.Full) {height : UInt64}
    {traces : Traces} {w₀ : ScanWallet σ} (hw₀ : RecordedBelow image height traces w₀)
    {call : TxCall} (hcall : call.NewFor height w₀) :
    KeptBy ops acc (ExtendedFrom image height w₀) call where
  unconfirmed := by
    intro w _ _ hw
    obtain ⟨confirmed, unconfirmed, heq, hdiffers⟩ := processUnconfirmed_spec acc call w
    rw [heq]
    exact ⟨hw.indexed, hw.blockchain, hw.kept, hw.added, hw.payments,
      filter_of_differsAt hdiffers hcall.height_le hcall.txid hw.confirmed⟩
  add := by
    intro w pkIndex info hscan hpool hnew hw
    refine ⟨(indexed_keptBy himage hacc call).add w pkIndex info hscan hpool hnew hw.indexed,
      hw.blockchain, ?_, ?_, hw.payments, hw.confirmed⟩
    · intro i td₀ hi
      obtain ⟨td, htd, hreset⟩ := Option.map_eq_some_iff.mp (hw.kept i td₀ hi)
      rw [addTransfer]
      dsimp only
      rw [List.getElem?_append_left (List.getElem?_eq_some_iff.mp htd).1, htd, Option.map_some,
        hreset]
    · intro i td hi htd
      by_cases hlast : i = w.transfers.length
      · rw [addTransfer] at htd
        dsimp only at htd
        rw [hlast, List.getElem?_concat_length] at htd
        obtain rfl := Option.some.inj htd
        exact hcall.height_le
      · rw [addTransfer] at htd
        dsimp only at htd
        rw [getElem?_concat_of_ne hlast] at htd
        exact hw.added i td hi htd
  replace := by
    intro w pkIndex info i td hscan hpool hkey hi hspent hamount hw
    refine hw.modify ((indexed_keptBy himage hacc call).replace w pkIndex info i td hscan hpool hkey
      hi hspent hamount hw.indexed) rfl rfl rfl rfl ?_ fun _ _ => hcall.height_le
    intro td' td₀ htd₀ htd' hreset
    -- an older transfer does not have the key of a new output
    obtain ⟨out, hout, hkey'⟩ := Option.bind_eq_some_iff.mp (hscan.of himage hacc).1
    refine absurd ?_ (hcall.keys out (List.mem_of_getElem? hout) info.pub hkey' td₀
      (List.mem_of_getElem? htd₀))
    rw [← hreset, publicKey?_resetSpent]
    exact hw.indexed.publicKey_eq hkey htd'
  spend := by
    intro w amount keyOffsets kImage i hin hki hw
    refine hw.modify ((indexed_keptBy himage hacc call).spend w amount keyOffsets kImage i hin hki
      hw.indexed) rfl rfl rfl rfl ?_ ?_
    · intro td td₀ htd₀ htd hreset
      exact ExtendedFrom.resetSpent_spend hw₀ hcall hin (List.mem_of_getElem? htd₀)
        (hw.indexed.keyImage_eq hki htd) hreset
    · intro td htd
      rw [setSpentBy_of_block hcall.pool]
      exact htd
  outgoing := by
    intro w spends money _ hw
    obtain ⟨confirmed, heq, hdiffers⟩ := recordOutgoing_spec call spends money w
    rw [heq]
    exact ⟨hw.indexed, hw.blockchain, hw.kept, hw.added, hw.payments,
      filter_of_differsAt hdiffers hcall.height_le hcall.txid hw.confirmed⟩
  payments := by
    intro w spends payments hw
    rw [recordPayments_of_block hcall.pool]
    refine ⟨hw.indexed, hw.blockchain, hw.kept, hw.added, ?_, hw.confirmed⟩
    dsimp only
    rw [Multiset.filter_add, hw.payments, Multiset.filter_eq_nil.mpr, Multiset.add_zero]
    intro p hp
    obtain ⟨_, -, rfl⟩ := List.mem_map.mp (Multiset.mem_coe.mp hp)
    exact UInt64.not_lt.mpr hcall.height_le

/-! ### The cut -/

theorem detachStart_append {height : UInt64} {front more : List TransferDetails}
    (hfront : ∀ td ∈ front, ¬ height ≤ td.blockHeight)
    (hmore : ∀ td ∈ more, height ≤ td.blockHeight) :
    detachStart height (front ++ more) = front.length := by
  rw [detachStart, List.findIdx_append, if_neg]
  · cases more with
    | nil => simp
    | cons td more => simp [List.findIdx_cons, hmore td List.mem_cons_self]
  · simpa using hfront

/-- The cut takes the transfers back to those of the earlier wallet. -/
theorem ExtendedFrom.take_transfers {height : UInt64} {traces : Traces} {w₀ w : ScanWallet σ}
    (hw₀ : RecordedBelow image height traces w₀) (h : ExtendedFrom image height w₀ w) :
    (w.transfers.map (resetSpent height)).take
      (detachStart height (w.transfers.map (resetSpent height))) = w₀.transfers := by
  set transfers := w.transfers.map (resetSpent height) with htransfers
  set more := transfers.drop w₀.transfers.length with hmore
  have hfront : transfers.take w₀.transfers.length = w₀.transfers := by
    apply List.ext_getElem?
    intro i
    rw [List.getElem?_take]
    split_ifs with hi
    · rw [List.getElem?_eq_getElem hi, htransfers, List.getElem?_map]
      exact h.kept i _ (List.getElem?_eq_getElem hi)
    · rw [List.getElem?_eq_none (not_lt.mp hi)]
  have hsplit : transfers = w₀.transfers ++ more :=
    (List.take_append_drop w₀.transfers.length transfers).symm.trans (congrArg (· ++ more) hfront)
  have hbelow : ∀ td ∈ w₀.transfers, ¬ height ≤ td.blockHeight := by
    intro td htd
    exact UInt64.not_le.mpr (hw₀.transfers td htd).blockHeight
  have habove : ∀ td ∈ more, height ≤ td.blockHeight := by
    intro td htd
    obtain ⟨i, hi⟩ := List.mem_iff_getElem?.mp htd
    rw [hmore, List.getElem?_drop, htransfers, List.getElem?_map] at hi
    obtain ⟨td', htd', rfl⟩ := Option.map_eq_some_iff.mp hi
    rw [blockHeight_resetSpent]
    exact h.added _ td' (List.getElem?_eq_none (Nat.le_add_right _ _)) htd'
  rw [hsplit, detachStart_append hbelow habove, List.take_left]

theorem eq_of_iff_some {α : Type} {m m' : α → Option ℕ} (h : ∀ a i, m a = some i ↔ m' a = some i) :
    m = m' := by
  funext a
  exact Option.ext (h a)

theorem Indexed.eq_of_transfers {w w' : ScanWallet σ} (h : Indexed image w) (h' : Indexed image w')
    (htransfers : w'.transfers = w.transfers) :
    w'.pubKeys = w.pubKeys ∧ w'.keyImages = w.keyImages := by
  rw [Indexed, htransfers] at h'
  constructor
  · exact eq_of_iff_some fun key i => (h'.pubKeys_iff key i).trans (h.pubKeys_iff key i).symm
  · exact eq_of_iff_some fun ki i => (h'.keyImages_iff ki i).trans (h.keyImages_iff ki i).symm

theorem crop_of_prefix {chain chain' : List Hash} (h : chain <+: chain') :
    crop chain' chain.length = chain := by
  obtain ⟨more, rfl⟩ := h
  simp [crop]

/-- A detaching takes a wallet back to the earlier one. -/
theorem ExtendedFrom.detach (hinj : Function.Injective image) {height : UInt64} {traces : Traces}
    {w₀ w : ScanWallet σ} (hw₀ : RecordedBelow image height traces w₀)
    (h : ExtendedFrom image height w₀ w) (hlength : w₀.blockchain.length = height.toNat) :
    (detachBlockchain height w).1 = .ok () ∧
      let w' := (detachBlockchain height w).2
      w'.blockchain = w₀.blockchain ∧ w'.transfers = w₀.transfers ∧
        w'.keyImages = w₀.keyImages ∧ w'.pubKeys = w₀.pubKeys ∧ w'.payments = w₀.payments ∧
        w'.confirmedTxs = w₀.confirmedTxs := by
  obtain ⟨pubs, hkeys, hnodup, hiff⟩ := IndexedBy.exists_pubs h.indexed
  have hindexed := detachBlockchain_keeps hinj height w h.indexed
  rw [detachBlockchain_eq hinj h.indexed hkeys hnodup hiff] at hindexed ⊢
  have htransfers : (detached height w pubs image).transfers = w₀.transfers := h.take_transfers hw₀
  obtain ⟨hpubs, hkis⟩ := hw₀.indexed.eq_of_transfers hindexed htransfers
  refine ⟨rfl, ?_, htransfers, hkis, hpubs, h.payments, funext h.confirmed⟩
  rw [detached]
  dsimp only
  rw [← hlength, crop_of_prefix h.blockchain]

/-! ### Lists of blocks -/

theorem toNat_add_one {height : UInt64} (h : height.toNat + 1 < 2 ^ 64) :
    (height + 1).toNat = height.toNat + 1 := by
  rw [UInt64.toNat_add]
  exact Nat.mod_eq_of_lt h

theorem scanBlocks_keeps {P : ScanWallet σ → Prop} {blocks : List BlockCall} {start : UInt64}
    (hlength : start.toNat + blocks.length < 2 ^ 64)
    (h : ∀ b ∈ blocks, ∀ height : UInt64, start ≤ height →
      height.toNat < start.toNat + blocks.length →
        Throwing.Keeps P (processNewBlockchainEntry ops cfg acc b height)) :
    Throwing.Keeps P (scanBlocks ops cfg acc blocks start) := by
  induction blocks generalizing start with
  | nil => exact Throwing.keeps_pure start
  | cons b blocks ih =>
      rw [List.length_cons] at hlength h
      have hnext : (start + 1).toNat = start.toNat + 1 := toNat_add_one (by omega)
      have hfirst := h b List.mem_cons_self start (UInt64.le_refl start) (by omega)
      have hrest : Throwing.Keeps P (scanBlocks ops cfg acc blocks (start + 1)) := by
        apply ih (by omega)
        intro b' hb' height hstart hheight
        apply h b' (List.mem_cons_of_mem b hb') height _ (by omega)
        rw [UInt64.le_iff_toNat_le] at hstart ⊢
        omega
      intro w hw
      have hafter := hfirst w hw
      rw [scanBlocks, Throwing.loop]
      rcases hresult : processNewBlockchainEntry ops cfg acc b start w with ⟨e | ⟨⟩, w₁⟩
      · rw [hresult] at hafter
        rw [Throwing.bind_of_error (Throwing.bind_of_error hresult)]
        exact hafter
      · rw [hresult] at hafter
        have hstep : (do
            processNewBlockchainEntry ops cfg acc b start
            pure (start + 1) : Throwing (ScanWallet σ) UInt64) w = (.ok (start + 1), w₁) :=
          Throwing.bind_of_ok hresult
        rw [Throwing.bind_of_ok hstep]
        exact hrest w₁ hafter

theorem blockchain_keptBy (chain : List Hash) (call : TxCall) :
    KeptBy ops acc (fun w => w.blockchain = chain) call where
  unconfirmed := by
    intro w _ _ hw
    obtain ⟨_, _, heq, -⟩ := processUnconfirmed_spec acc call w
    rw [heq]
    exact hw
  add := fun w _ _ _ _ _ hw => hw
  replace := fun w _ _ _ _ _ _ _ _ _ _ hw => hw
  spend := fun w _ _ _ _ _ _ hw => hw
  outgoing := by
    intro w spends money _ hw
    obtain ⟨_, heq, -⟩ := recordOutgoing_spec call spends money w
    rw [heq]
    exact hw
  payments := by
    intro w spends payments hw
    rw [recordPayments]
    split_ifs <;> exact hw

theorem processNewBlockchainEntry_blockchain {b : BlockCall} {height : UInt64} {w w' : ScanWallet σ}
    {u : Unit} (h : processNewBlockchainEntry ops cfg acc b height w = (.ok u, w')) :
    w'.blockchain = w.blockchain ++ [b.blId] := by
  obtain ⟨_, w₁, hcheck, h₁⟩ := Throwing.bind_eq_ok.mp h
  obtain ⟨-, rfl⟩ := Throwing.throwIf_eq_ok.mp hcheck
  obtain ⟨_, w₂, hscan, h₂⟩ := Throwing.bind_eq_ok.mp h₁
  have hkeeps : Throwing.Keeps (fun w' => w'.blockchain = w.blockchain)
      (Throwing.when (scansBlock acc b height = true) (scanBlock ops cfg acc b height)) :=
    Throwing.Keeps.when fun _ => scanBlock_keeps (fun call _ => blockchain_keptBy _ call)
      fun _ _ hw => hw
  have hsame := hkeeps w rfl
  rw [hscan] at hsame
  obtain rfl : { w₂ with blockchain := w₂.blockchain ++ [b.blId] } = w' := congrArg Prod.snd h₂
  rw [← hsame]

theorem scanBlocks_ok {blocks : List BlockCall} {start height : UInt64} {w w' : ScanWallet σ}
    (hlength : start.toNat + blocks.length < 2 ^ 64)
    (h : scanBlocks ops cfg acc blocks start w = (.ok height, w')) :
    height.toNat = start.toNat + blocks.length ∧
      w'.blockchain.length = w.blockchain.length + blocks.length := by
  induction blocks generalizing start w with
  | nil =>
      cases h
      exact ⟨rfl, rfl⟩
  | cons b blocks ih =>
      rw [List.length_cons] at hlength
      obtain ⟨next, w₁, hfirst, hrest⟩ := Throwing.bind_eq_ok.mp h
      obtain ⟨_, w₂, hentry, hpure⟩ := Throwing.bind_eq_ok.mp hfirst
      cases hpure
      have hnext : (start + 1).toNat = start.toNat + 1 := toNat_add_one (by omega)
      obtain ⟨hheight, hchain⟩ := ih (by omega) hrest
      rw [hchain, processNewBlockchainEntry_blockchain hentry, hheight, hnext]
      simp only [List.length_append, List.length_cons, List.length_nil]
      omega

/-! ### Undoing -/

theorem newFor_of_apart {old new : List BlockCall} {n height : UInt64} {w : ScanWallet σ}
    (hw : RecordedBelow image n (tracesOf ops cfg old) w)
    (hapart : (tracesOf ops cfg old).Apart (tracesOf ops cfg new)) {b : BlockCall} (hb : b ∈ new)
    (hamounts : ∀ tx ∈ b.txs, ∀ txin ∈ tx.vin.toList, ∀ td ∈ w.transfers, SpendsExactly td txin)
    (hheight : n ≤ height) {call : TxCall}
    (hcall : call ∈ blockCalls ops cfg b height) : call.NewFor n w := by
  have hwithin := blockCalls_within hb hcall
  constructor
  · exact (blockCalls_spec hcall).1 ▸ hheight
  · exact (blockCalls_spec hcall).2
  · intro out hout key hkey td htd hpub
    exact hapart.keys ((hw.transfers td htd).key key hpub) (hwithin.keys out hout key hkey)
  · intro amount keyOffsets k hin td htd hki
    refine ⟨?_, hamounts call.tx (blockCalls_tx_mem hcall) _ hin td htd hki⟩
    by_contra hspent
    rw [Bool.not_eq_false] at hspent
    have hold := ((hw.transfers td htd).spent hspent).2
    rw [hki] at hold
    exact hapart.images hold (hwithin.images amount keyOffsets k hin)
  · cases hentry : w.confirmedTxs call.txid with
    | none => rfl
    | some entry => exact (hapart.txids (hw.confirmed _ entry hentry).2 hwithin.txid).elim

/-- A full wallet that has scanned the blocks up to a height, scans further ones and is detached
at that height, is as it was before. Some of the further blocks may make it throw. -/
theorem detach_undoes_scan (himage : KeyImagesOf ops image) (hacc : acc.Full) (subaddresses : σ)
    {old new : List BlockCall} {n : UInt64} {w : ScanWallet σ}
    (hlength : old.length + new.length < 2 ^ 64)
    (hold : scanBlocks ops cfg acc old 0 (ScanWallet.empty subaddresses) = (.ok n, w))
    (hapart : (tracesOf ops cfg old).Apart (tracesOf ops cfg new))
    (hamounts : ∀ b ∈ new, ∀ tx ∈ b.txs, ∀ txin ∈ tx.vin.toList, ∀ td ∈ w.transfers,
      SpendsExactly td txin) :
    let detached := detachBlockchain n (scanBlocks ops cfg acc new n w).2
    n.toNat = old.length ∧ detached.1 = .ok () ∧ detached.2.blockchain = w.blockchain ∧
      detached.2.transfers = w.transfers ∧ detached.2.keyImages = w.keyImages ∧
      detached.2.pubKeys = w.pubKeys ∧ detached.2.payments = w.payments ∧
      detached.2.confirmedTxs = w.confirmedTxs := by
  obtain ⟨hn, hchain⟩ := scanBlocks_ok (by simp; omega) hold
  have hn' : n.toNat = old.length := by simpa using hn
  have hw : RecordedBelow image n (tracesOf ops cfg old) w := by
    have hkeeps : Throwing.Keeps (RecordedBelow image n (tracesOf ops cfg old))
        (scanBlocks ops cfg acc old 0) := by
      refine scanBlocks_keeps (by simp; omega) fun b hb height _ hheight => ?_
      apply processNewBlockchainEntry_keeps
      · intro call hcall
        obtain ⟨hcallHeight, hpool⟩ := blockCalls_spec hcall
        apply recordedBelow_keptBy himage hacc _ hpool (blockCalls_within hb hcall)
        rw [hcallHeight, UInt64.lt_iff_toNat_lt]
        omega
      · exact fun w _ hw => ⟨hw.indexed, hw.transfers, hw.payments, hw.confirmed⟩
      · exact fun w hw => ⟨hw.indexed, hw.transfers, hw.payments, hw.confirmed⟩
    have hafter := hkeeps _ (recordedBelow_empty n _ subaddresses)
    rwa [hold] at hafter
  have hextended : ExtendedFrom image n w (scanBlocks ops cfg acc new n w).2 := by
    refine scanBlocks_keeps (by omega) (fun b hb height hheight _ => ?_) w (extendedFrom_refl hw)
    apply processNewBlockchainEntry_keeps
    · intro call hcall
      exact extendedFrom_keptBy himage hacc hw
        (newFor_of_apart hw hapart hb (hamounts b hb) hheight hcall)
    · exact fun w _ hw => ⟨hw.indexed, hw.blockchain, hw.kept, hw.added, hw.payments, hw.confirmed⟩
    · exact fun w hw => ⟨hw.indexed, hw.blockchain.trans (List.prefix_append _ _), hw.kept, hw.added,
        hw.payments, hw.confirmed⟩
  refine ⟨hn', hextended.detach himage.injective hw ?_⟩
  rw [hchain, hn']
  simp [ScanWallet.empty]

/-! ### A spending that is taken back -/

def reorgOld : BlockCall := sampleEntry 0 [(1, 3)] []

/-- A block that spends what the one before has paid, and pays again. -/
def reorgNew : BlockCall :=
  sampleEntry 1 [(2, 6)]
    [(7, { sampleTx [] [(3, 2)] with vin := vectorOf [.toKey 3 .nil (ownKey 1)] })]

def reorgHash (m : List UInt8) : Hash :=
  if m = txToBlob currentConfig reorgOld.block.minerTx then
    ⟨[0x64, 0xb1, 0x6b, 0xec, 0xf5, 0xaf, 0x94, 0xb6, 0x5b, 0xad, 0x13, 0x7f, 0xf7, 0xb2, 0x1e, 0x89,
      0x63, 0x31, 0x8a, 0x8d, 0x2d, 0xbb, 0x2a, 0x72, 0x91, 0x88, 0x8b, 0xcb, 0x8b, 0x85, 0x5e, 0x20],
      rfl⟩
  else if m = txToBlob currentConfig reorgNew.block.minerTx then
    ⟨[0xcb, 0x38, 0x5f, 0xcc, 0x2a, 0x7f, 0x09, 0xa1, 0x79, 0x4e, 0x3b, 0xe4, 0x7a, 0xa2, 0x96, 0x12,
      0x3c, 0x98, 0x5d, 0x33, 0xde, 0x08, 0xf4, 0x88, 0xbc, 0xa0, 0xa6, 0x38, 0x90, 0xe9, 0x3f, 0xd6],
      rfl⟩
  else nullHash

def reorgOps : ScanOps Unit := { sampleScanOps with cnFastHash := reorgHash }

def reorgWallet : ScanWallet Unit :=
  (scanBlocks reorgOps currentConfig sampleSettings [reorgOld] 0 (ScanWallet.empty ())).2

def reorgScanned : ScanWallet Unit :=
  (scanBlocks reorgOps currentConfig sampleSettings [reorgNew] 1 reorgWallet).2

theorem disjoint_of_all {l m : List KeyImage} (h : (l.all fun k => decide (k ∉ m)) = true) :
    l.Disjoint m := by
  intro k hl hm
  exact of_decide_eq_true (List.all_eq_true.mp h k hl) hm

theorem detach_undoes_spending :
    reorgScanned.transfers.map TransferDetails.spent = [true, false, false] ∧
      (reorgScanned.confirmedTxs (hashOfNat 7)).isSome ∧
      (detachBlockchain 1 reorgScanned).2.transfers = reorgWallet.transfers ∧
      (detachBlockchain 1 reorgScanned).2.confirmedTxs = reorgWallet.confirmedTxs := by
  have himage : KeyImagesOf reorgOps id := ⟨keyImagesOf_sample.injective, keyImagesOf_sample.helper⟩
  have hold : scanBlocks reorgOps currentConfig sampleSettings [reorgOld] 0 (ScanWallet.empty ()) =
      (.ok 1, reorgWallet) := Prod.ext (by decide) rfl
  have hapart : (tracesOf reorgOps currentConfig [reorgOld]).Apart
      (tracesOf reorgOps currentConfig [reorgNew]) :=
    ⟨disjoint_of_all (by decide), disjoint_of_all (by decide), disjoint_of_all (by decide)⟩
  have hundone := detach_undoes_scan himage ⟨rfl, rfl⟩ () (by decide) hold hapart
    (by decide)
  exact ⟨by decide, by decide, hundone.2.2.2.1, hundone.2.2.2.2.2.2.2⟩

end XrCoin.Wallet

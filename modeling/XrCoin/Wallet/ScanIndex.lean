import Mathlib
import XrCoin.Data.Runs
import XrCoin.Wallet.ScanKeeps

/-!
The two indices of the transfers of a wallet: by public key and by key image.

What the indices say of a transfer is its key and its image only. A transfer that is replaced in
its place, or spent, keeps both.
-/

namespace XrCoin.Wallet

open Archive Cryptonote Data

variable {σ : Type} (ops : ScanOps σ) (cfg : Config) (acc : WalletSettings)

/-! ### Outputs for the wallet -/

structure KeyImagesOf (image : PublicKey → KeyImage) : Prop where
  injective : Function.Injective image
  helper : ∀ key derivation i index pub ki,
    ops.generateKeyImageHelper key derivation i index = some (pub, ki) → ki = image pub

/-- A scanned output has the key that the transaction has at its place, and the image of it. -/
def ScanInfo.Of (tx : Transaction) (image : PublicKey → KeyImage) (info : ScanInfo) : Prop :=
  tx.vout.toList[info.o]?.bind TxOut.key? = some info.pub ∧ info.ki = image info.pub

/-- A scanned output has the key that the transaction has at its place, and the helper gave its
image. -/
structure ScanInfo.Opened (tx : Transaction) (info : ScanInfo) : Prop where
  key : tx.vout.toList[info.o]?.bind TxOut.key? = some info.pub
  image : ∃ derivation index,
    ops.generateKeyImageHelper info.pub derivation info.o index = some (info.pub, info.ki)

variable {ops acc} {image : PublicKey → KeyImage}

theorem outputKeys_eq_ok (hacc : acc.Full) {key pub : PublicKey} {derivation : KeyDerivation}
    {i : ℕ} {index : SubaddressIndex} {ki : KeyImage}
    (h : outputKeys ops acc key derivation i index = .ok (pub, ki)) :
    pub = key ∧ ops.generateKeyImageHelper key derivation i index = some (pub, ki) := by
  rw [outputKeys, if_neg (by simp [hacc.2])] at h
  cases hhelper : ops.generateKeyImageHelper key derivation i index with
  | none => simp [hhelper] at h
  | some p =>
      obtain ⟨pub', ki'⟩ := p
      rw [hhelper] at h
      dsimp only at h
      split_ifs at h with hne
      obtain ⟨rfl, rfl⟩ := Prod.mk.inj (Except.ok.inj h)
      exact ⟨not_not.mp hne, rfl⟩

theorem scanOutput_opened (hacc : acc.Full) {tx : Transaction} {minerTx : Bool} {i : ℕ}
    {out : TxOut} {index : SubaddressIndex} {derivation : KeyDerivation} {money money' : Money}
    {info : ScanInfo}
    (h : scanOutput ops acc tx minerTx i out index derivation money = .ok (info, money')) :
    info.o = i ∧ out.key? = some info.pub ∧ ∃ derivation index,
      ops.generateKeyImageHelper info.pub derivation i index = some (info.pub, info.ki) := by
  obtain ⟨key, hkey, h₁⟩ := bind_eq_ok.mp h
  obtain ⟨⟨pub, ki⟩, hkeys, h₂⟩ := bind_eq_ok.mp h₁
  obtain ⟨rfl, hhelper⟩ := outputKeys_eq_ok hacc hkeys
  obtain ⟨_, -, h₃⟩ := bind_eq_ok.mp h₂
  obtain ⟨rfl, -⟩ := Prod.mk.inj (Except.ok.inj h₃)
  exact ⟨rfl, orThrow_eq_ok.mp hkey, derivation, index, hhelper⟩

theorem scanOutputs_opened (hacc : acc.Full) {tx : Transaction} {minerTx : Bool}
    {subaddresses : σ} {derivation : KeyDerivation} {additional : List KeyDerivation}
    {outs : List (TxOut × ℕ)} {found found' : List ℕ} {money money' : Money}
    {infos : List ScanInfo}
    (h : scanOutputs ops acc tx minerTx subaddresses derivation additional outs found money =
      .ok (infos, found', money')) :
    ∀ info ∈ infos, ∃ out, (out, info.o) ∈ outs ∧ out.key? = some info.pub ∧
      ∃ derivation index,
        ops.generateKeyImageHelper info.pub derivation info.o index = some (info.pub, info.ki) := by
  induction outs generalizing found found' money money' infos with
  | nil =>
      obtain rfl := (Prod.mk.inj (Except.ok.inj h)).1
      simp
  | cons p outs ih =>
      obtain ⟨out, i⟩ := p
      obtain ⟨received, -, h⟩ := bind_eq_ok.mp h
      cases received with
      | none =>
          intro info hinfo
          obtain ⟨out', hmem, hrest⟩ := ih h info hinfo
          exact ⟨out', List.mem_cons_of_mem _ hmem, hrest⟩
      | some r =>
          obtain ⟨⟨info₁, money₁⟩, hscan, h⟩ := bind_eq_ok.mp h
          obtain ⟨⟨infos₁, found₁, money₂⟩, hrest, h⟩ := bind_eq_ok.mp h
          obtain ⟨rfl, hrest'⟩ := Prod.mk.inj (Except.ok.inj h)
          obtain ⟨rfl, rfl⟩ := Prod.mk.inj hrest'
          intro info hinfo
          rcases List.mem_cons.mp hinfo with rfl | hinfo
          · obtain ⟨hi, hkey, hopened⟩ := scanOutput_opened hacc hscan
            exact ⟨out, by simp [hi], hkey, hi ▸ hopened⟩
          · obtain ⟨out', hmem, hout⟩ := ih hrest info hinfo
            exact ⟨out', List.mem_cons_of_mem _ hmem, hout⟩

theorem scanKey_opened (hacc : acc.Full) {tx : Transaction} {minerTx : Bool} {subaddresses : σ}
    {derivation : KeyDerivation} {additional : List KeyDerivation} {found found' : List ℕ}
    {money money' : Money} {infos : List ScanInfo}
    (h : scanKey ops acc tx minerTx subaddresses derivation additional found money =
      .ok (infos, found', money')) : ∀ info ∈ infos, info.Opened ops tx := by
  have hall : ∀ {infos' : List ScanInfo}, scanOutputs ops acc tx minerTx subaddresses derivation
      additional tx.vout.toList.zipIdx found money = .ok (infos', found', money') →
        ∀ info ∈ infos', info.Opened ops tx := by
    intro infos' hscan info hinfo
    obtain ⟨out, hmem, hkey, hopened⟩ := scanOutputs_opened hacc hscan info hinfo
    have hout : tx.vout.toList[info.o]? = some out := List.mem_zipIdx_iff_getElem?.mp hmem
    exact ⟨by rw [hout, Option.bind_some, hkey], hopened⟩
  rw [scanKey] at h
  split_ifs at h
  · exact hall h
  · obtain rfl := (Prod.mk.inj (Except.ok.inj h)).1
    simp
  · cases houts : tx.vout.toList.zipIdx with
    | nil =>
        simp only [houts] at h
        obtain rfl := (Prod.mk.inj (Except.ok.inj h)).1
        simp
    | cons p outs =>
        simp only [houts] at h
        obtain ⟨received, -, h₁⟩ := bind_eq_ok.mp h
        cases received with
        | none =>
            obtain rfl := (Prod.mk.inj (Except.ok.inj h₁)).1
            simp
        | some r =>
            rw [← houts] at h₁
            exact hall h₁

theorem Scanned.opened (hacc : acc.Full) {tx : Transaction} {minerTx : Bool} {info : ScanInfo}
    (h : Scanned ops acc tx minerTx info) : info.Opened ops tx := by
  obtain ⟨_, _, _, _, _, infos, _, _, hscan, hinfo⟩ := h
  exact scanKey_opened hacc hscan info hinfo

theorem Scanned.of (himage : KeyImagesOf ops image) (hacc : acc.Full) {tx : Transaction}
    {minerTx : Bool} {info : ScanInfo} (h : Scanned ops acc tx minerTx info) :
    info.Of tx image := by
  obtain ⟨hkey, derivation, index, hopened⟩ := h.opened hacc
  exact ⟨hkey, himage.helper _ _ _ _ _ _ hopened⟩

/-! ### The indices -/

structure TransferKeys where
  key : Option PublicKey
  keyImage : KeyImage
  keyImageKnown : Bool
  keyImagePartial : Bool
  deriving DecidableEq

def TransferDetails.keys (td : TransferDetails) : TransferKeys :=
  ⟨td.publicKey?, td.keyImage, td.keyImageKnown, td.keyImagePartial⟩

/-- Every transfer of a full wallet has a key, and the image of that. -/
def TransferKeys.WellFormed (image : PublicKey → KeyImage) (k : TransferKeys) : Prop :=
  ∃ key, k = ⟨some key, image key, true, false⟩

structure IndexedBy (image : PublicKey → KeyImage) (pubKeys : PublicKey → Option ℕ)
    (keyImages : KeyImage → Option ℕ) (keys : List TransferKeys) : Prop where
  wellFormed : ∀ k ∈ keys, k.WellFormed image
  pubKeys_iff : ∀ key i, pubKeys key = some i ↔ keys[i]?.bind TransferKeys.key = some key
  keyImages_iff : ∀ ki i, keyImages ki = some i ↔ keys[i]?.map TransferKeys.keyImage = some ki

def Indexed (image : PublicKey → KeyImage) (w : ScanWallet σ) : Prop :=
  IndexedBy image w.pubKeys w.keyImages (w.transfers.map TransferDetails.keys)

theorem indexed_empty (subaddresses : σ) : Indexed image (ScanWallet.empty subaddresses) :=
  ⟨by simp [ScanWallet.empty], by simp [ScanWallet.empty], by simp [ScanWallet.empty]⟩

theorem Indexed.congr {w w' : ScanWallet σ} (h : Indexed image w) (hpub : w'.pubKeys = w.pubKeys)
    (hki : w'.keyImages = w.keyImages)
    (hkeys : w'.transfers.map TransferDetails.keys = w.transfers.map TransferDetails.keys) :
    Indexed image w' := by
  rw [Indexed, hpub, hki, hkeys]
  exact h

theorem Indexed.eq_of_publicKey {w : ScanWallet σ} (h : Indexed image w) {i j : ℕ}
    {td td' : TransferDetails} {key : PublicKey} (hi : w.transfers[i]? = some td)
    (hj : w.transfers[j]? = some td') (hkey : td.publicKey? = some key)
    (hkey' : td'.publicKey? = some key) : i = j := by
  have hfirst := (h.pubKeys_iff key i).mpr (by simp [hi, TransferDetails.keys, hkey])
  have hsecond := (h.pubKeys_iff key j).mpr (by simp [hj, TransferDetails.keys, hkey'])
  exact Option.some.inj (hfirst.symm.trans hsecond)

/-! ### Receiving and spending -/

theorem keys_setReceived {call : TxCall} {pkIndex : ℕ} {info : ScanInfo} (td : TransferDetails)
    (hinfo : info.Of call.tx image) :
    (setReceived call pkIndex info td).keys =
      ⟨some info.pub, td.keyImage, td.keyImageKnown, td.keyImagePartial⟩ := by
  simp only [TransferDetails.keys, setReceived, TransferDetails.publicKey?, TransferKeys.mk.injEq,
    and_true]
  exact hinfo.1

theorem getElem?_concat_of_ne {α : Type} {l : List α} {a : α} {i : ℕ} (h : i ≠ l.length) :
    (l ++ [a])[i]? = l[i]? := by
  rw [List.getElem?_append]
  split_ifs with hlt
  · rfl
  · rw [List.getElem?_eq_none (by simp; omega), List.getElem?_eq_none (by omega)]

theorem map_modify_eq {α β : Type} {f : α → α} {g : α → β} {l : List α} {i : ℕ}
    (h : ∀ a, l[i]? = some a → g (f a) = g a) : (l.modify i f).map g = l.map g := by
  apply List.ext_getElem?
  intro j
  rw [List.getElem?_map, List.getElem?_map, List.getElem?_modify]
  cases hj : l[j]? with
  | none => rfl
  | some a =>
      by_cases hij : i = j
      · subst hij
        simp [h a hj]
      · simp [hij]

theorem IndexedBy.concat {pubKeys : PublicKey → Option ℕ} {keyImages : KeyImage → Option ℕ}
    {keys : List TransferKeys} (h : IndexedBy image pubKeys keyImages keys)
    (hinj : Function.Injective image) {key : PublicKey} (hnew : pubKeys key = none) :
    IndexedBy image (Function.update pubKeys key (some keys.length))
      (Function.update keyImages (image key) (some keys.length))
      (keys ++ [⟨some key, image key, true, false⟩]) := by
  constructor
  · intro k hk
    rcases List.mem_append.mp hk with hk | hk
    · exact h.wellFormed k hk
    · exact ⟨key, List.mem_singleton.mp hk⟩
  · intro key' i
    by_cases hkey : key' = key
    · subst hkey
      rw [Function.update_self, Option.some.injEq]
      constructor
      · rintro rfl
        simp
      · intro hi
        by_contra hne
        rw [getElem?_concat_of_ne (Ne.symm hne)] at hi
        rw [(h.pubKeys_iff key' i).mpr hi] at hnew
        cases hnew
    · rw [Function.update_of_ne hkey, h.pubKeys_iff]
      by_cases hi : i = keys.length
      · subst hi
        simp [Ne.symm hkey]
      · rw [getElem?_concat_of_ne hi]
  · intro ki i
    by_cases hki : ki = image key
    · subst hki
      rw [Function.update_self, Option.some.injEq]
      constructor
      · rintro rfl
        simp
      · intro hi
        by_contra hne
        rw [getElem?_concat_of_ne (Ne.symm hne)] at hi
        obtain ⟨k, hk, hkimage⟩ := Option.map_eq_some_iff.mp hi
        obtain ⟨key', rfl⟩ := h.wellFormed k (List.mem_of_getElem? hk)
        obtain rfl := hinj hkimage
        have hknown := (h.pubKeys_iff key' i).mpr (by simp [hk])
        rw [hknown] at hnew
        cases hnew
    · rw [Function.update_of_ne hki, h.keyImages_iff]
      by_cases hi : i = keys.length
      · subst hi
        simp [Ne.symm hki]
      · rw [getElem?_concat_of_ne hi]

theorem addTransfer_indexed (hinj : Function.Injective image) (hacc : acc.Full) {call : TxCall}
    {pkIndex : ℕ} {info : ScanInfo} (hinfo : info.Of call.tx image) {w : ScanWallet σ}
    (h : Indexed image w) (hnew : w.pubKeys info.pub = none) :
    Indexed image (addTransfer ops acc call pkIndex info w) := by
  have hconcat := IndexedBy.concat h hinj hnew
  rw [List.length_map] at hconcat
  rw [Indexed, addTransfer]
  simp only [hacc.1, hacc.2, and_self, if_true, List.map_append, List.map_cons, List.map_nil,
    keys_setReceived _ hinfo, blankTransfer]
  rw [hinfo.2]
  exact hconcat

theorem replaceTransfer_indexed {call : TxCall} {pkIndex : ℕ} {info : ScanInfo}
    (hinfo : info.Of call.tx image) {w : ScanWallet σ} (h : Indexed image w) {i : ℕ}
    (hknown : w.pubKeys info.pub = some i) :
    Indexed image (replaceTransfer ops call pkIndex info i w) := by
  refine Indexed.congr h rfl rfl ?_
  apply map_modify_eq
  intro td htd
  have hkey := (h.pubKeys_iff info.pub i).mp hknown
  rw [List.getElem?_map, htd] at hkey
  rw [keys_setReceived td hinfo, TransferDetails.keys]
  simp only [TransferKeys.mk.injEq, and_true]
  exact hkey.symm

theorem setSpentBy_keys (call : TxCall) (amount : UInt64) (td : TransferDetails) :
    (setSpentBy call amount td).keys = td.keys := by
  simp only [setSpentBy]
  split_ifs <;> rfl

/-- Whatever a transaction does keeps the indices. -/
theorem indexed_keptBy (himage : KeyImagesOf ops image) (hacc : acc.Full) (call : TxCall) :
    KeptBy ops acc (Indexed image) call where
  unconfirmed := by
    intro w _ _ hw
    rw [processUnconfirmed]
    split <;> exact hw
  add := by
    intro w pkIndex info hscanned _ hnew hw
    exact addTransfer_indexed himage.injective hacc (hscanned.of himage hacc) hw hnew
  replace := by
    intro w pkIndex info i td hscanned _ hknown _ _ _ hw
    exact replaceTransfer_indexed (hscanned.of himage hacc) hw hknown
  spend := by
    intro w amount _ _ i _ _ hw
    refine Indexed.congr hw rfl rfl ?_
    exact map_modify_eq fun td _ => setSpentBy_keys call amount td
  outgoing := by
    intro w spends money _ hw
    rw [recordOutgoing]
    split
    · exact hw
    · dsimp only
      split_ifs <;> exact hw
  payments := by
    intro w spends payments hw
    rw [recordPayments]
    split_ifs <;> exact hw

/-! ### Detaching -/

def without {α : Type} [DecidableEq α] (m : α → Option ℕ) (keys : List α) : α → Option ℕ :=
  fun key => if key ∈ keys then none else m key

theorem without_update {α : Type} [DecidableEq α] (m : α → Option ℕ) (key : α) (keys : List α) :
    without (Function.update m key none) keys = without m (key :: keys) := by
  funext key'
  by_cases hkey : key' = key
  · simp [without, hkey]
  · simp [without, hkey]

def fullKeys (image : PublicKey → KeyImage) (key : PublicKey) : TransferKeys :=
  ⟨some key, image key, true, false⟩

theorem fullKeys_eq {td : TransferDetails} {key : PublicKey} (h : td.keys = fullKeys image key) :
    td.publicKey? = some key ∧ td.keyImage = image key ∧ td.keyImageKnown = true ∧
      td.keyImagePartial = false := by
  simpa [TransferDetails.keys, fullKeys] using h

theorem without_nil {α : Type} [DecidableEq α] (m : α → Option ℕ) : without m [] = m := by
  funext key
  simp [without]

theorem eraseKeyImages_eq {tds : List TransferDetails} {pubs : List PublicKey} {w : ScanWallet σ}
    (hkeys : tds.map TransferDetails.keys = pubs.map (fullKeys image))
    (hnodup : (pubs.map image).Nodup) (hthere : ∀ key ∈ pubs, w.keyImages (image key) ≠ none) :
    Throwing.loop eraseKeyImage tds () w =
      (.ok (), { w with keyImages := without w.keyImages (pubs.map image) }) := by
  induction tds generalizing w pubs with
  | nil =>
      obtain rfl : pubs = [] := by simpa using hkeys.symm
      simp [Throwing.loop, without_nil]
  | cons td tds ih =>
      cases pubs with
      | nil => simp at hkeys
      | cons key pubs =>
          rw [List.map_cons, List.map_cons, List.cons.injEq] at hkeys
          obtain ⟨-, hki, hknown, hpartial⟩ := fullKeys_eq hkeys.1
          rw [List.map_cons, List.nodup_cons] at hnodup
          have hstep : eraseKeyImage () td w =
              (.ok (), { w with keyImages := Function.update w.keyImages (image key) none }) := by
            rw [eraseKeyImage, Throwing.when_apply, if_pos ⟨hknown, hpartial⟩, Throwing.get_bind,
              Throwing.throwIf_bind, hki, if_neg (hthere key List.mem_cons_self)]
            rfl
          rw [Throwing.loop, Throwing.bind_of_ok hstep, ih hkeys.2 hnodup.2]
          · rw [List.map_cons, ← without_update]
          · intro key' hkey'
            have hne : image key' ≠ image key := by
              intro heq
              exact hnodup.1 (heq ▸ List.mem_map_of_mem hkey')
            simp only [Function.update_of_ne hne]
            exact hthere key' (List.mem_cons_of_mem _ hkey')

theorem erasePubKeys_eq {tds : List TransferDetails} {pubs : List PublicKey} {w : ScanWallet σ}
    (hkeys : tds.map TransferDetails.keys = pubs.map (fullKeys image)) (hnodup : pubs.Nodup)
    (hthere : ∀ key ∈ pubs, w.pubKeys key ≠ none) :
    Throwing.loop erasePubKey tds () w =
      (.ok (), { w with pubKeys := without w.pubKeys pubs }) := by
  induction tds generalizing w pubs with
  | nil =>
      obtain rfl : pubs = [] := by simpa using hkeys.symm
      simp [Throwing.loop, without_nil]
  | cons td tds ih =>
      cases pubs with
      | nil => simp at hkeys
      | cons key pubs =>
          rw [List.map_cons, List.map_cons, List.cons.injEq] at hkeys
          obtain ⟨hpub, -, -, -⟩ := fullKeys_eq hkeys.1
          rw [List.nodup_cons] at hnodup
          have hstep : erasePubKey () td w =
              (.ok (), { w with pubKeys := Function.update w.pubKeys key none }) := by
            rw [erasePubKey, Throwing.get_bind]
            simp only [hpub]
            rw [Throwing.throwIf_bind, if_neg (hthere key List.mem_cons_self)]
            rfl
          rw [Throwing.loop, Throwing.bind_of_ok hstep, ih hkeys.2 hnodup.2]
          · rw [← without_update]
          · intro key' hkey'
            have hne : key' ≠ key := by
              rintro rfl
              exact hnodup.1 hkey'
            simp only [Function.update_of_ne hne]
            exact hthere key' (List.mem_cons_of_mem _ hkey')

/-- The transfers as a list of different keys that the indices number. -/
theorem IndexedBy.exists_pubs {pubKeys : PublicKey → Option ℕ} {keyImages : KeyImage → Option ℕ}
    {keys : List TransferKeys} (h : IndexedBy image pubKeys keyImages keys) :
    ∃ pubs : List PublicKey, keys = pubs.map (fullKeys image) ∧ pubs.Nodup ∧
      ∀ key i, pubKeys key = some i ↔ pubs[i]? = some key := by
  obtain ⟨pubs, rfl⟩ : ∃ pubs : List PublicKey, pubs.map (fullKeys image) = keys := by
    rw [← Set.mem_range, Set.range_list_map]
    intro k hk
    obtain ⟨key, rfl⟩ := h.wellFormed k hk
    exact ⟨key, rfl⟩
  have hiff : ∀ key i, pubKeys key = some i ↔ pubs[i]? = some key := by
    intro key i
    rw [h.pubKeys_iff, List.getElem?_map]
    cases pubs[i]? with
    | none => simp
    | some key' => simp [fullKeys]
  refine ⟨pubs, rfl, ?_, hiff⟩
  rw [List.nodup_iff_injective_getElem]
  intro i j hij
  have hi := (hiff _ i).mpr (List.getElem?_eq_getElem i.2)
  have hj := (hiff _ j).mpr (List.getElem?_eq_getElem j.2)
  have hij' : pubs[(i : ℕ)] = pubs[(j : ℕ)] := hij
  rw [hij'] at hi
  exact Fin.ext (Option.some.inj (hi.symm.trans hj))

theorem getElem?_take_iff {pubs : List PublicKey} (hnodup : pubs.Nodup) {n i : ℕ}
    {key : PublicKey} : (pubs.take n)[i]? = some key ↔ pubs[i]? = some key ∧ key ∉ pubs.drop n := by
  rw [List.getElem?_take]
  split_ifs with hlt
  · constructor
    · intro hi
      refine ⟨hi, fun hdrop => ?_⟩
      obtain ⟨j, hj⟩ := List.mem_iff_getElem?.mp hdrop
      rw [List.getElem?_drop] at hj
      have heq : i = n + j := by
        have hi' := List.getElem?_eq_some_iff.mp hi
        have hj' := List.getElem?_eq_some_iff.mp hj
        exact (List.Nodup.getElem_inj_iff hnodup).mp (hi'.2.trans hj'.2.symm)
      omega
    · exact fun hi => hi.1
  · constructor
    · intro hnone
      cases hnone
    · rintro ⟨hi, hdrop⟩
      refine absurd (List.mem_iff_getElem?.mpr ⟨i - n, ?_⟩) hdrop
      rw [List.getElem?_drop, ← hi]
      congr 1
      omega

/-- The indices of the transfers in front, when the keys of the others are erased. -/
theorem IndexedBy.take {pubKeys : PublicKey → Option ℕ} {keyImages : KeyImage → Option ℕ}
    {pubs : List PublicKey} (hinj : Function.Injective image)
    (h : IndexedBy image pubKeys keyImages (pubs.map (fullKeys image))) (hnodup : pubs.Nodup)
    (hiff : ∀ key i, pubKeys key = some i ↔ pubs[i]? = some key) (n : ℕ) :
    IndexedBy image (without pubKeys (pubs.drop n)) (without keyImages ((pubs.drop n).map image))
      ((pubs.take n).map (fullKeys image)) := by
  constructor
  · intro k hk
    obtain ⟨key, -, rfl⟩ := List.mem_map.mp hk
    exact ⟨key, rfl⟩
  · intro key i
    have htake : ((pubs.take n).map (fullKeys image))[i]?.bind TransferKeys.key = some key ↔
        (pubs.take n)[i]? = some key := by
      rw [List.getElem?_map]
      cases (pubs.take n)[i]? with
      | none => simp
      | some key' => simp [fullKeys]
    rw [htake, getElem?_take_iff hnodup, ← hiff, without]
    split_ifs with hdrop
    · simp [hdrop]
    · simp [hdrop]
  · intro ki i
    have hbefore := h.keyImages_iff ki i
    rw [List.getElem?_map] at hbefore ⊢
    rw [without]
    split_ifs with hdrop
    · obtain ⟨key, hkey, rfl⟩ := List.mem_map.mp hdrop
      constructor
      · intro hnone
        cases hnone
      · intro hi
        cases htake : (pubs.take n)[i]? with
        | none => simp [htake] at hi
        | some key' =>
            rw [htake] at hi
            have heq : image key' = image key := by simpa [fullKeys] using hi
            obtain rfl := hinj heq
            exact absurd hkey ((getElem?_take_iff hnodup).mp htake).2
    · rw [hbefore, List.getElem?_take]
      split_ifs with hlt
      · rfl
      · constructor
        · intro hi
          cases hpub : pubs[i]? with
          | none => simp [hpub] at hi
          | some key =>
              rw [hpub] at hi
              have heq : image key = ki := by simpa [fullKeys] using hi
              refine absurd (List.mem_map.mpr ⟨key, ?_, heq⟩) hdrop
              refine List.mem_iff_getElem?.mpr ⟨i - n, ?_⟩
              rw [List.getElem?_drop, ← hpub]
              congr 1
              omega
        · intro hnone
          cases hnone

theorem resetSpent_keys (height : UInt64) (td : TransferDetails) :
    (resetSpent height td).keys = td.keys := by
  rw [resetSpent]
  split_ifs <;> rfl

theorem map_resetSpent_keys (height : UInt64) (transfers : List TransferDetails) :
    (transfers.map (resetSpent height)).map TransferDetails.keys =
      transfers.map TransferDetails.keys := by
  rw [List.map_map]
  exact List.map_congr_left fun td _ => resetSpent_keys height td

def detached (height : UInt64) (w : ScanWallet σ) (pubs : List PublicKey)
    (image : PublicKey → KeyImage) : ScanWallet σ :=
  let transfers := w.transfers.map (resetSpent height)
  let start := detachStart height transfers
  { w with
    transfers := transfers.take start
    keyImages := without w.keyImages ((pubs.drop start).map image)
    pubKeys := without w.pubKeys (pubs.drop start)
    blockchain := crop w.blockchain height.toNat
    payments := w.payments.filter fun p => p.2.blockHeight < height
    confirmedTxs := fun txid =>
      (w.confirmedTxs txid).filter fun entry => decide (entry.blockHeight < height) }

theorem detachBlockchain_eq (hinj : Function.Injective image) {w : ScanWallet σ}
    (h : Indexed image w) {pubs : List PublicKey}
    (hkeys : w.transfers.map TransferDetails.keys = pubs.map (fullKeys image))
    (hnodup : pubs.Nodup) (hiff : ∀ key i, w.pubKeys key = some i ↔ pubs[i]? = some key)
    (height : UInt64) : detachBlockchain height w = (.ok (), detached height w pubs image) := by
  set transfers := w.transfers.map (resetSpent height) with htransfers
  set start := detachStart height transfers with hstart
  have hreset : transfers.map TransferDetails.keys = pubs.map (fullKeys image) := by
    rw [htransfers, map_resetSpent_keys, hkeys]
  have hdrop : (transfers.drop start).map TransferDetails.keys =
      (pubs.drop start).map (fullKeys image) := by
    rw [List.map_drop, List.map_drop, hreset]
  have hnodup' : (pubs.drop start).Nodup := hnodup.sublist (List.drop_sublist start pubs)
  have hindex : ∀ key ∈ pubs.drop start, ∃ i : ℕ, pubs[i]? = some key := by
    intro key hkey
    exact List.mem_iff_getElem?.mp (List.mem_of_mem_drop hkey)
  have himages : ∀ key ∈ pubs.drop start, w.keyImages (image key) ≠ none := by
    intro key hkey
    obtain ⟨i, hi⟩ := hindex key hkey
    have hthere := (h.keyImages_iff (image key) i).mpr (by
      rw [hkeys, List.getElem?_map, hi]
      rfl)
    rw [hthere]
    exact Option.some_ne_none i
  have hpubs : ∀ key ∈ pubs.drop start, w.pubKeys key ≠ none := by
    intro key hkey
    obtain ⟨i, hi⟩ := hindex key hkey
    rw [(hiff key i).mpr hi]
    exact Option.some_ne_none i
  have hloop₁ := eraseKeyImages_eq (w := { w with transfers := transfers }) hdrop
    (hnodup'.map hinj) himages
  have hloop₂ := erasePubKeys_eq (w := { w with
    transfers := transfers
    keyImages := without w.keyImages ((pubs.drop start).map image) }) hdrop hnodup' hpubs
  rw [detachBlockchain, Throwing.modify_bind, Throwing.get_bind]
  exact (Throwing.bind_of_ok hloop₁).trans (Throwing.bind_of_ok hloop₂)

theorem detachBlockchain_keeps (hinj : Function.Injective image) (height : UInt64) :
    Throwing.Keeps (Indexed image) (detachBlockchain height : Throwing (ScanWallet σ) Unit) := by
  intro w hw
  obtain ⟨pubs, hkeys, hnodup, hiff⟩ := IndexedBy.exists_pubs hw
  rw [detachBlockchain_eq hinj hw hkeys hnodup hiff]
  have hby : IndexedBy image w.pubKeys w.keyImages (pubs.map (fullKeys image)) := by
    rw [← hkeys]
    exact hw
  have htake := hby.take hinj hnodup hiff
    (detachStart height (w.transfers.map (resetSpent height)))
  rw [Indexed, detached]
  dsimp only
  rw [List.map_take, map_resetSpent_keys, hkeys, ← List.map_take]
  exact htake

/-! ### Every run -/

inductive ScanOp
  | transaction (call : TxCall)
  | detach (height : UInt64)

variable (ops acc) in
/-- The state after an operation, also where it throws. -/
def scanStep (w : ScanWallet σ) : ScanOp → ScanWallet σ
  | .transaction call => (processNewTransaction ops acc call w).2
  | .detach height => (detachBlockchain height w).2

theorem scanStep_indexed (himage : KeyImagesOf ops image) (hacc : acc.Full) (w : ScanWallet σ)
    (op : ScanOp) (h : Indexed image w) : Indexed image (scanStep ops acc w op) := by
  cases op with
  | transaction call => exact processNewTransaction_keeps (indexed_keptBy himage hacc call) w h
  | detach height => exact detachBlockchain_keeps himage.injective height w h

/-- After every run of a full wallet from the empty one the indices are exact, no two transfers
share a key, and a detaching does not throw. -/
theorem scan_indexed (himage : KeyImagesOf ops image) (hacc : acc.Full) (subaddresses : σ)
    (run : List ScanOp) :
    let w := Data.run (scanStep ops acc) (ScanWallet.empty subaddresses) run
    (∀ key i, w.pubKeys key = some i ↔
        ∃ td, w.transfers[i]? = some td ∧ td.publicKey? = some key) ∧
      (∀ ki i, w.keyImages ki = some i ↔ ∃ td, w.transfers[i]? = some td ∧ td.keyImage = ki) ∧
      (∀ td ∈ w.transfers, td.publicKey?.isSome) ∧
      (∀ (i j : ℕ) (td td' : TransferDetails) (key : PublicKey), w.transfers[i]? = some td →
        w.transfers[j]? = some td' → td.publicKey? = some key → td'.publicKey? = some key →
        i = j) ∧
      ∀ height, (detachBlockchain height w).1 = .ok () := by
  intro w
  have hw : Indexed image w := Data.run_invariant _ (indexed_empty subaddresses)
    (scanStep_indexed himage hacc) run
  refine ⟨fun key i => ?_, fun ki i => ?_, fun td htd => ?_, ?_, fun height => ?_⟩
  · rw [hw.pubKeys_iff, List.getElem?_map]
    cases w.transfers[i]? <;> simp [TransferDetails.keys]
  · rw [hw.keyImages_iff, List.getElem?_map]
    cases w.transfers[i]? <;> simp [TransferDetails.keys]
  · obtain ⟨key, hkey⟩ := hw.wellFormed td.keys (List.mem_map_of_mem htd)
    rw [(fullKeys_eq hkey).1]
    rfl
  · exact fun i j td td' key hi hj => hw.eq_of_publicKey hi hj
  · obtain ⟨pubs, hkeys, hnodup, hiff⟩ := IndexedBy.exists_pubs hw
    rw [detachBlockchain_eq himage.injective hw hkeys hnodup hiff]

/-! ### A wallet of one address -/

/-- Outputs whose key begins with the byte of the wallet are its own. A key and its image are
identified. -/
def sampleScanOps : ScanOps Unit where
  toCryptoOps := sampleOps
  generateKeyDerivation := fun key => key
  deriveSubaddressPublicKey := fun key _ _ => key
  findSubaddress := fun _ key => if key.head = 0x11 then some ⟨0, 0⟩ else none
  expandSubaddresses := fun _ _ => ()
  generateKeyImageHelper := fun key _ _ _ => some (key, key)
  decodeRct := fun _ _ _ => (0, default)
  decryptPaymentId := fun _ _ => none

def sampleSettings : WalletSettings := ⟨false, false, true, .full, 0, 0⟩

def ownKey (n : UInt8) : PublicKey := 0x11 ::ᵥ List.Vector.replicate 31 n

/-- A list as a vector, where it is not too long. -/
def vectorOf {α : Type} (l : List α) : StdVector α := if h : l.length < 2 ^ 64 then ⟨l, h⟩ else .nil

/-- A transaction that spends keys and pays amounts to others. -/
def sampleTx (spent : List PublicKey) (paid : List (UInt8 × UInt64)) : Transaction :=
  ⟨⟨1, 0, 0, vectorOf (spent.map fun key => .toKey 0 .nil key),
    vectorOf (paid.map fun p => ⟨p.2, .toKey (ownKey p.1)⟩),
    vectorOf (1 :: List.replicate 32 0x22)⟩, .nil, default, default⟩

def sampleCall (height : UInt64) (id : ℕ) (spent : List PublicKey) (paid : List (UInt8 × UInt64)) :
    TxCall where
  txid := hashOfNat id
  tx := sampleTx spent paid
  oIndices := List.replicate paid.length 0
  height := height
  ts := 0
  minerTx := false
  pool := false
  doubleSpendSeen := false
  cached := false

theorem keyImagesOf_sample : KeyImagesOf sampleScanOps id := by
  refine ⟨Function.injective_id, fun key _ _ _ pub ki h => ?_⟩
  obtain ⟨rfl, rfl⟩ := Prod.mk.inj (Option.some.inj h)
  rfl

/-- Two outputs to one key in one transaction, and one behind them. -/
theorem scan_indexed_repeated :
    (Data.run (scanStep sampleScanOps sampleSettings) (ScanWallet.empty ())
        [.transaction (sampleCall 5 1 [] [(1, 3), (1, 4), (2, 6)])]).transfers.length = 2 ∧
      ∀ height, (detachBlockchain height
        (Data.run (scanStep sampleScanOps sampleSettings) (ScanWallet.empty ())
          [.transaction (sampleCall 5 1 [] [(1, 3), (1, 4), (2, 6)])])).1 = .ok () := by
  constructor
  · decide
  · exact (scan_indexed keyImagesOf_sample ⟨rfl, rfl⟩ () _).2.2.2.2

end XrCoin.Wallet

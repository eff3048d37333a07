import Mathlib
import XrCoin.Wallet.ScanKeeps

/-!
The two totals of what a transaction brings: one for each new or larger output, the other for
each subaddress, with what was ignored or replaced taken off. They are the same, and nothing is
taken off that was not put on before.
-/

namespace XrCoin.Wallet

open Archive Cryptonote Data

variable {σ : Type} {ops : ScanOps σ} {acc : WalletSettings}

/-! ### Money -/

namespace Money

def Plain (money : Money) : Prop := (money.map Prod.fst).Nodup

def sum (money : Money) : UInt64 := (money.map Prod.snd).sum

theorem sum_cons (p : SubaddressIndex × UInt64) (money : Money) :
    sum (p :: money) = p.2 + sum money := rfl

theorem sum_append (money money' : Money) : sum (money ++ money') = sum money + sum money' := by
  induction money with
  | nil => exact (UInt64.zero_add _).symm
  | cons p money ih => rw [List.cons_append, sum_cons, sum_cons, ih, UInt64.add_assoc]

theorem at_cons (p : SubaddressIndex × UInt64) (money : Money) (index : SubaddressIndex) :
    Money.at (p :: money) index = if index = p.1 then p.2 else money.at index := by
  rw [Money.at, Money.at, List.lookup_cons]
  by_cases h : index = p.1
  · simp [h]
  · have hne : (index == p.1) = false := by simpa using h
    rw [hne, if_neg h]

theorem at_of_not_mem {money : Money} {index : SubaddressIndex} (h : index ∉ money.map Prod.fst) :
    money.at index = 0 := by
  induction money with
  | nil => rfl
  | cons p money ih =>
      rw [List.map_cons, List.mem_cons, not_or] at h
      rw [at_cons, if_neg h.1, ih h.2]

theorem at_concat {money : Money} {index index' : SubaddressIndex} {amount : UInt64}
    (h : index ∉ money.map Prod.fst) :
    Money.at (money ++ [(index, amount)]) index' =
      if index' = index then amount else money.at index' := by
  induction money with
  | nil => exact at_cons _ _ _
  | cons p money ih =>
      rw [List.map_cons, List.mem_cons, not_or] at h
      rw [List.cons_append, at_cons, at_cons, ih h.2]
      by_cases hp : index' = p.1
      · rw [if_pos hp, if_pos hp, if_neg]
        rw [hp]
        exact fun heq => h.1 heq.symm
      · rw [if_neg hp, if_neg hp]

def replaced (index : SubaddressIndex) (amount : UInt64) (money : Money) : Money :=
  money.map fun p => if p.1 = index then (index, amount) else p

theorem keys_replaced (index : SubaddressIndex) (amount : UInt64) (money : Money) :
    (replaced index amount money).map Prod.fst = money.map Prod.fst := by
  rw [replaced, List.map_map]
  apply List.map_congr_left
  intro p _
  by_cases h : p.1 = index <;> simp [h]

theorem replaced_of_not_mem {index : SubaddressIndex} {amount : UInt64} {money : Money}
    (h : index ∉ money.map Prod.fst) : replaced index amount money = money := by
  conv_rhs => rw [← List.map_id money]
  apply List.map_congr_left
  intro p hp
  rw [if_neg]
  · rfl
  · intro heq
    exact h (heq ▸ List.mem_map_of_mem hp)

theorem replaced_cons (index : SubaddressIndex) (amount : UInt64) (p : SubaddressIndex × UInt64)
    (money : Money) : replaced index amount (p :: money) =
      (if p.1 = index then (index, amount) else p) :: replaced index amount money := rfl

theorem at_replaced {money : Money} {index index' : SubaddressIndex} {amount : UInt64}
    (h : index ∈ money.map Prod.fst) :
    Money.at (replaced index amount money) index' =
      if index' = index then amount else money.at index' := by
  induction money with
  | nil => simp at h
  | cons p money ih =>
      rw [replaced_cons, at_cons, at_cons]
      by_cases hp : p.1 = index
      · rw [if_pos hp, hp]
        by_cases hi : index' = index
        · rw [if_pos hi, if_pos hi]
        · rw [if_neg hi, if_neg hi, if_neg hi]
          by_cases hmem : index ∈ money.map Prod.fst
          · rw [ih hmem, if_neg hi]
          · rw [replaced_of_not_mem hmem]
      · rw [if_neg hp]
        rw [List.map_cons, List.mem_cons] at h
        have hrest := ih (h.resolve_left (fun heq => hp heq.symm))
        by_cases hi : index' = p.1
        · rw [if_pos hi, if_pos hi, if_neg]
          rw [hi]
          exact hp
        · rw [if_neg hi, if_neg hi, hrest]

theorem sum_replaced {money : Money} {index : SubaddressIndex} {amount : UInt64}
    (hplain : money.Plain) (h : index ∈ money.map Prod.fst) :
    sum (replaced index amount money) + money.at index = sum money + amount := by
  induction money with
  | nil => simp at h
  | cons p money ih =>
      rw [Plain, List.map_cons, List.nodup_cons] at hplain
      rw [replaced_cons, at_cons, sum_cons, sum_cons]
      by_cases hp : p.1 = index
      · rw [replaced_of_not_mem (hp ▸ hplain.1), if_pos hp, if_pos hp.symm]
        grind
      · rw [List.map_cons, List.mem_cons] at h
        have hrest := ih hplain.2 (h.resolve_left (fun heq => hp heq.symm))
        rw [if_neg hp, if_neg (fun heq => hp heq.symm)]
        grind

theorem at_set (money : Money) (index index' : SubaddressIndex) (amount : UInt64) :
    (money.set index amount).at index' = if index' = index then amount else money.at index' := by
  rw [Money.set]
  by_cases h : index ∈ money.map Prod.fst
  · rw [if_pos h]
    exact at_replaced h
  · rw [if_neg h]
    exact at_concat h

theorem Plain.set {money : Money} (h : money.Plain) (index : SubaddressIndex) (amount : UInt64) :
    (money.set index amount).Plain := by
  rw [Money.set]
  by_cases hmem : index ∈ money.map Prod.fst
  · rw [if_pos hmem, Plain]
    exact (keys_replaced index amount money).symm ▸ h
  · rw [if_neg hmem, Plain, List.map_append]
    rw [Plain] at h
    exact h.append (List.nodup_singleton _) (by simpa using hmem)

theorem Plain.sum_set {money : Money} (h : money.Plain) (index : SubaddressIndex)
    (amount : UInt64) : (money.set index amount).sum + money.at index = money.sum + amount := by
  rw [Money.set]
  by_cases hmem : index ∈ money.map Prod.fst
  · rw [if_pos hmem]
    exact sum_replaced h hmem
  · rw [if_neg hmem, sum_append, at_of_not_mem hmem]
    simp [sum]

end Money

/-! ### Scanned outputs -/

def pendingAt (index : SubaddressIndex) : List ScanInfo → ℕ
  | [] => 0
  | info :: infos =>
      (if index = info.received then info.amount.toNat else 0) + pendingAt index infos

/-- What some outputs bring, as the wallet adds it up. -/
def pendingSum : List ScanInfo → UInt64
  | [] => 0
  | info :: infos => info.amount + pendingSum infos

structure Brought (money : Money) (infos : List ScanInfo) (money' : Money) : Prop where
  plain : money'.Plain
  received : ∀ index, (money'.at index).toNat = (money.at index).toNat + pendingAt index infos
  sum : money'.sum = money.sum + pendingSum infos

theorem Brought.nil {money : Money} (h : money.Plain) : Brought money [] money :=
  ⟨h, fun _ => rfl, (UInt64.add_zero _).symm⟩

theorem Brought.cons {money money' money'' : Money} {info : ScanInfo} {infos : List ScanInfo}
    (h : Brought money [info] money') (h' : Brought money' infos money'') :
    Brought money (info :: infos) money'' where
  plain := h'.plain
  received index := by
    rw [h'.received, h.received]
    simp only [pendingAt]
    omega
  sum := by
    rw [h'.sum, h.sum]
    simp only [pendingSum]
    rw [UInt64.add_zero, UInt64.add_assoc]

def AmountOf (tx : Transaction) (info : ScanInfo) : Prop :=
  ∀ out, tx.vout.toList[info.o]? = some out → out.amount ≠ 0 → info.amount = out.amount

theorem AmountOf.receivedAmount {call : TxCall} {info : ScanInfo} (h : AmountOf call.tx info) :
    receivedAmount call info = info.amount := by
  rw [Wallet.receivedAmount]
  cases hout : call.tx.vout.toList[info.o]? with
  | none => rfl
  | some out =>
      by_cases hclear : out.amount ≠ 0
      · simp [hclear, h out hout hclear]
      · simp [hclear]

theorem scanOutput_brought {tx : Transaction} {minerTx : Bool} {i : ℕ} {out : TxOut}
    {index : SubaddressIndex} {derivation : KeyDerivation} {money money' : Money} {info : ScanInfo}
    (hplain : money.Plain) (hout : tx.vout.toList[i]? = some out)
    (h : scanOutput ops acc tx minerTx i out index derivation money = .ok (info, money')) :
    Brought money [info] money' ∧ AmountOf tx info := by
  obtain ⟨key, -, h₁⟩ := bind_eq_ok.mp h
  obtain ⟨⟨pub, ki⟩, -, h₂⟩ := bind_eq_ok.mp h₁
  obtain ⟨_, hroom, h₃⟩ := bind_eq_ok.mp h₂
  obtain ⟨rfl, rfl⟩ := Prod.mk.inj (Except.ok.inj h₃)
  rw [throwIf_eq_ok, UInt64.not_le] at hroom
  generalize hdecoded : outputAmount ops tx minerTx i out derivation = decoded at hroom
  have hmax : (18446744073709551615 : UInt64).toNat = 2 ^ 64 - 1 := rfl
  have hle : decoded.1 ≤ 18446744073709551615 := by
    rw [UInt64.le_iff_toNat_le, hmax]
    have hlt := decoded.1.toNat_lt
    omega
  have hsum : (money.at index + decoded.1).toNat = (money.at index).toNat + decoded.1.toNat := by
    rw [UInt64.lt_iff_toNat_lt, UInt64.toNat_sub_of_le _ _ hle, hmax] at hroom
    rw [UInt64.toNat_add]
    omega
  refine ⟨⟨hplain.set _ _, ?_, ?_⟩, ?_⟩
  · intro index'
    rw [Money.at_set]
    simp only [pendingAt]
    by_cases hi : index' = index
    · rw [if_pos hi, if_pos hi, hsum, hi]
      omega
    · rw [if_neg hi, if_neg hi]
      omega
  · have hset := hplain.sum_set index (money.at index + decoded.1)
    simp only [pendingSum]
    grind
  · intro out' hout' hclear
    obtain rfl := Option.some.inj (hout.symm.trans hout')
    simp only
    rw [← hdecoded, outputAmount, if_neg (fun hand => hclear hand.1)]

theorem scanOutputs_brought {tx : Transaction} {minerTx : Bool} {subaddresses : σ}
    {derivation : KeyDerivation} {additional : List KeyDerivation} {outs : List (TxOut × ℕ)}
    {found found' : List ℕ} {money money' : Money} {infos : List ScanInfo} (hplain : money.Plain)
    (houts : ∀ p ∈ outs, tx.vout.toList[p.2]? = some p.1)
    (h : scanOutputs ops acc tx minerTx subaddresses derivation additional outs found money =
      .ok (infos, found', money')) :
    Brought money infos money' ∧ ∀ info ∈ infos, AmountOf tx info := by
  induction outs generalizing found found' money money' infos with
  | nil =>
      obtain ⟨rfl, hrest⟩ := Prod.mk.inj (Except.ok.inj h)
      obtain ⟨-, rfl⟩ := Prod.mk.inj hrest
      exact ⟨.nil hplain, by simp⟩
  | cons p outs ih =>
      obtain ⟨out, i⟩ := p
      have houts' := fun q hq => houts q (List.mem_cons_of_mem _ hq)
      obtain ⟨received, -, h⟩ := bind_eq_ok.mp h
      cases received with
      | none => exact ih hplain houts' h
      | some r =>
          obtain ⟨⟨info₁, money₁⟩, hscan, h⟩ := bind_eq_ok.mp h
          obtain ⟨⟨infos₁, found₁, money₂⟩, hrest, h⟩ := bind_eq_ok.mp h
          obtain ⟨rfl, hrest'⟩ := Prod.mk.inj (Except.ok.inj h)
          obtain ⟨rfl, rfl⟩ := Prod.mk.inj hrest'
          obtain ⟨hone, hamount⟩ :=
            scanOutput_brought hplain (houts (out, i) List.mem_cons_self) hscan
          obtain ⟨hmore, hamounts⟩ := ih hone.plain houts' hrest
          refine ⟨hone.cons hmore, ?_⟩
          intro info hinfo
          rcases List.mem_cons.mp hinfo with rfl | hinfo
          · exact hamount
          · exact hamounts info hinfo

theorem scanKey_brought {tx : Transaction} {minerTx : Bool} {subaddresses : σ}
    {derivation : KeyDerivation} {additional : List KeyDerivation} {found found' : List ℕ}
    {money money' : Money} {infos : List ScanInfo} (hplain : money.Plain)
    (h : scanKey ops acc tx minerTx subaddresses derivation additional found money =
      .ok (infos, found', money')) :
    Brought money infos money' ∧ ∀ info ∈ infos, AmountOf tx info := by
  have houts : ∀ p ∈ tx.vout.toList.zipIdx, tx.vout.toList[p.2]? = some p.1 :=
    fun p hp => List.mem_zipIdx_iff_getElem?.mp hp
  have hquiet : ∀ {found'' : List ℕ},
      (.ok ([], found'', money) : Except String (List ScanInfo × List ℕ × Money)) =
        .ok (infos, found', money') →
      Brought money infos money' ∧ ∀ info ∈ infos, AmountOf tx info := by
    intro found'' hok
    obtain ⟨rfl, hrest⟩ := Prod.mk.inj (Except.ok.inj hok)
    obtain ⟨-, rfl⟩ := Prod.mk.inj hrest
    exact ⟨.nil hplain, by simp⟩
  rw [scanKey] at h
  split_ifs at h
  · exact scanOutputs_brought hplain houts h
  · exact hquiet h
  · cases hzip : tx.vout.toList.zipIdx with
    | nil =>
        simp only [hzip] at h
        exact hquiet h
    | cons p outs =>
        simp only [hzip] at h
        obtain ⟨received, -, h₁⟩ := bind_eq_ok.mp h
        cases received with
        | none => exact hquiet h₁
        | some r =>
            rw [← hzip] at h₁
            exact scanOutputs_brought hplain houts h₁

/-! ### What is thrown -/

def totalsMessages : List String :=
  ["Unexpected values of new and old outputs", "Consistency failure in amounts received"]

def OtherMessage (e : String) : Prop := e ∉ totalsMessages

instance (e : String) : Decidable (OtherMessage e) := inferInstanceAs (Decidable (_ ∉ _))

theorem checkAccOutPrecompOnce_throws (subaddresses : σ) (derivation : KeyDerivation)
    (additional : List KeyDerivation) (found : List ℕ) (i : ℕ) (out : TxOut) :
    Throws OtherMessage
      (checkAccOutPrecompOnce ops subaddresses derivation additional found i out) := by
  rw [checkAccOutPrecompOnce]
  by_cases hfound : i ∈ found
  · rw [if_pos hfound]
    exact throws_ok
  · rw [if_neg hfound]
    cases out.key? with
    | none => exact throws_error (by decide)
    | some key => exact throws_ok

theorem outputKeys_throws (key : PublicKey) (derivation : KeyDerivation) (i : ℕ)
    (index : SubaddressIndex) :
    Throws OtherMessage (outputKeys ops acc key derivation i index) := by
  rw [outputKeys]
  by_cases hmultisig : acc.multisig = true
  · rw [if_pos hmultisig]
    exact throws_ok
  · rw [if_neg hmultisig]
    cases ops.generateKeyImageHelper key derivation i index with
    | none => exact throws_error (by decide)
    | some p =>
        dsimp only
        split_ifs
        · exact throws_error (by decide)
        · exact throws_ok

theorem scanOutput_throws (tx : Transaction) (minerTx : Bool) (i : ℕ) (out : TxOut)
    (index : SubaddressIndex) (derivation : KeyDerivation) (money : Money) :
    Throws OtherMessage (scanOutput ops acc tx minerTx i out index derivation money) := by
  refine Throws.bind (throws_orThrow (by decide)) fun key => ?_
  refine Throws.bind (outputKeys_throws key derivation i index) fun keys => ?_
  exact Throws.bind (throws_throwIf (by decide)) fun _ => throws_ok

theorem scanOutputs_throws (tx : Transaction) (minerTx : Bool) (subaddresses : σ)
    (derivation : KeyDerivation) (additional : List KeyDerivation) (outs : List (TxOut × ℕ))
    (found : List ℕ) (money : Money) :
    Throws OtherMessage (scanOutputs ops acc tx minerTx subaddresses derivation additional outs
      found money) := by
  induction outs generalizing found money with
  | nil => exact throws_ok
  | cons p outs ih =>
      refine Throws.bind (checkAccOutPrecompOnce_throws _ _ _ _ _ _) fun received => ?_
      cases received with
      | none => exact ih found money
      | some r =>
          refine Throws.bind (scanOutput_throws _ _ _ _ _ _ _) fun scanned => ?_
          exact Throws.bind (ih _ _) fun _ => throws_ok

theorem scanKey_throws (tx : Transaction) (minerTx : Bool) (subaddresses : σ)
    (derivation : KeyDerivation) (additional : List KeyDerivation) (found : List ℕ)
    (money : Money) :
    Throws OtherMessage
      (scanKey ops acc tx minerTx subaddresses derivation additional found money) := by
  rw [scanKey]
  split_ifs
  · exact scanOutputs_throws _ _ _ _ _ _ _ _
  · exact throws_ok
  · cases tx.vout.toList.zipIdx with
    | nil => exact throws_ok
    | cons p outs =>
        refine Throws.bind (checkAccOutPrecompOnce_throws _ _ _ _ _ _) fun received => ?_
        cases received with
        | none => exact throws_ok
        | some r => exact scanOutputs_throws _ _ _ _ _ _ _ _

theorem receiveOutcome_throws (w : ScanWallet σ) (info : ScanInfo) :
    Throws OtherMessage (receiveOutcome w info) := by
  rw [receiveOutcome]
  cases w.pubKeys info.pub with
  | none => exact throws_ok
  | some i =>
      dsimp only
      cases w.transfers[i]? with
      | none => exact throws_error (by decide)
      | some td =>
          dsimp only
          split_ifs <;> exact throws_ok

/-! ### The two totals -/

/-- The total so far and what is left bring the money, and the money has room for what is left. -/
structure Accounted (call : TxCall) (infos : List ScanInfo) (r : Receipts) : Prop where
  plain : r.money.Plain
  covered : ∀ index, pendingAt index infos ≤ (r.money.at index).toNat
  total : r.total + pendingSum infos = r.money.sum
  amounts : ∀ info ∈ infos, receivedAmount call info = info.amount

theorem Accounted.amount_le {call : TxCall} {info : ScanInfo} {infos : List ScanInfo}
    {r : Receipts} (h : Accounted call (info :: infos) r) :
    info.amount ≤ r.money.at info.received := by
  have hcovered := h.covered info.received
  rw [pendingAt, if_pos rfl] at hcovered
  rw [UInt64.le_iff_toNat_le]
  omega

/-- An output is done: some of its amount is taken off, the rest is added to the total. -/
theorem Accounted.done {call : TxCall} {info : ScanInfo} {infos : List ScanInfo} {r : Receipts}
    (h : Accounted call (info :: infos) r) {off : UInt64} (hoff : off ≤ info.amount) :
    Accounted call infos ⟨r.money.set info.received (r.money.at info.received - off),
      r.total + (info.amount - off)⟩ where
  plain := h.plain.set _ _
  covered index := by
    have hcovered := h.covered index
    rw [pendingAt] at hcovered
    rw [Money.at_set]
    by_cases hindex : index = info.received
    · rw [if_pos hindex] at hcovered ⊢
      rw [← hindex]
      have hle : off ≤ r.money.at index := hindex ▸ UInt64.le_trans hoff h.amount_le
      rw [UInt64.toNat_sub_of_le _ _ hle]
      rw [UInt64.le_iff_toNat_le] at hoff
      omega
    · rw [if_neg hindex] at hcovered ⊢
      omega
  total := by
    have hset := h.plain.sum_set info.received (r.money.at info.received - off)
    have htotal := h.total
    rw [pendingSum] at htotal
    simp only
    grind
  amounts info' hinfo' := h.amounts info' (List.mem_cons_of_mem _ hinfo')

theorem Accounted.added {call : TxCall} {info : ScanInfo} {infos : List ScanInfo} {r : Receipts}
    (h : Accounted call (info :: infos) r) :
    Accounted call infos ⟨r.money, r.total + info.amount⟩ where
  plain := h.plain
  covered index := by
    have hcovered := h.covered index
    rw [pendingAt] at hcovered
    exact Nat.le_trans (Nat.le_add_left _ _) hcovered
  total := by
    have htotal := h.total
    rw [pendingSum] at htotal
    simp only
    grind
  amounts info' hinfo' := h.amounts info' (List.mem_cons_of_mem _ hinfo')

theorem receiveOutput_accounted {call : TxCall} {pkIndex : ℕ} {info : ScanInfo}
    {infos : List ScanInfo} {r : Receipts} (h : Accounted call (info :: infos) r)
    (w : ScanWallet σ) :
    Throwing.Yields OtherMessage (fun r' _ => Accounted call infos r')
      (receiveOutput ops acc call pkIndex r info) w := by
  have hamount := h.amounts info List.mem_cons_self
  have hnot : ¬r.money.at info.received < info.amount := UInt64.not_lt.mpr h.amount_le
  rw [receiveOutput]
  change Throwing.Yields _ _ (Throwing.lift (receiveOutcome w info) >>= _) w
  apply Throwing.Yields.bind (Q := fun outcome s => receiveOutcome w info = .ok outcome)
    (Throwing.yields_lift (fun _ hok => hok) (receiveOutcome_throws w info))
  intro outcome s houtcome
  have hspec := receiveOutcome_spec houtcome
  cases outcome with
  | added =>
      apply Throwing.Yields.bind (Q := fun _ _ => True)
      · exact Throwing.yields_when (fun _ => Throwing.yields_modify trivial) fun _ => trivial
      · intro _ _ _
        apply Throwing.yields_pure
        rw [hamount]
        exact h.added
  | ignored =>
      apply Throwing.Yields.bind (Q := fun _ _ => True)
      · exact Throwing.yields_throwIf (fun hlt => absurd hlt hnot) fun _ => trivial
      · intro _ _ _
        apply Throwing.yields_pure
        have hdone := h.done (UInt64.le_refl info.amount)
        rwa [UInt64.sub_self, UInt64.add_zero] at hdone
  | replaces i td =>
      obtain ⟨-, -, -, hlt⟩ := hspec
      apply Throwing.Yields.bind (Q := fun _ _ => True)
      · exact Throwing.yields_throwIf (fun hlt => absurd hlt hnot) fun _ => trivial
      intro _ _ _
      apply Throwing.Yields.bind (Q := fun _ _ => True)
      · apply Throwing.yields_when _ fun _ => trivial
        intro _
        apply Throwing.Yields.bind (Q := fun _ _ => True) (Throwing.yields_modify trivial)
        intro _ _ _
        apply Throwing.Yields.bind (Q := fun _ _ => True)
        · exact Throwing.yields_throwIf (fun _ => by decide) fun _ => trivial
        · intro _ _ _
          exact Throwing.yields_throwIf (fun _ => by decide) fun _ => trivial
      · intro _ _ _
        apply Throwing.yields_pure
        rw [hamount]
        exact h.done (UInt64.le_of_lt hlt)

theorem receiveKey_accounted {call : TxCall} {l : KeyLoop} (h : Accounted call [] l.receipts)
    (key : PublicKey × ℕ) (w : ScanWallet σ) :
    Throwing.Yields OtherMessage (fun l' _ => Accounted call [] l'.receipts)
      (receiveKey ops acc call l key) w := by
  rw [receiveKey]
  change Throwing.Yields _ _ (Throwing.lift (scanKey ops acc call.tx call.minerTx w.subaddresses
    (ops.generateKeyDerivation key.1) (additionalDerivations ops call key.2) l.found
    l.receipts.money) >>= _) w
  apply Throwing.Yields.bind (Q := fun scanned _ =>
    Brought l.receipts.money scanned.1 scanned.2.2 ∧ ∀ info ∈ scanned.1, AmountOf call.tx info)
  · exact Throwing.yields_lift (fun _ hok => scanKey_brought h.plain hok)
      (scanKey_throws _ _ _ _ _ _ _)
  rintro ⟨infos, found, money⟩ w' ⟨hbrought, hamounts⟩
  have htotal : l.receipts.total = l.receipts.money.sum := by
    rw [← h.total]
    exact (UInt64.add_zero _).symm
  have haccounted : Accounted call infos ⟨money, l.receipts.total⟩ := by
    refine ⟨hbrought.plain, ?_, ?_, fun info hinfo => (hamounts info hinfo).receivedAmount⟩
    · intro index
      change _ ≤ (money.at index).toNat
      rw [hbrought.received]
      exact Nat.le_add_left _ _
    · change l.receipts.total + _ = money.sum
      rw [hbrought.sum, htotal]
  dsimp only
  by_cases hinfos : infos = []
  · rw [if_pos hinfos]
    apply Throwing.yields_pure
    rwa [hinfos] at haccounted
  · rw [if_neg hinfos]
    apply Throwing.Yields.bind (Q := fun _ _ => True)
    · exact Throwing.yields_throwIf (fun _ => by decide) fun _ => trivial
    intro _ w'' _
    apply Throwing.Yields.bind (Q := fun r _ => Accounted call [] r)
    · exact Throwing.yields_loop (P := fun infos r _ => Accounted call infos r)
        (fun _ _ _ _ hstep => receiveOutput_accounted hstep _) haccounted
    · intro receipts _ hreceipts
      exact Throwing.yields_pure hreceipts

theorem receiveOutputs_accounted (call : TxCall) (w : ScanWallet σ) :
    Throwing.Yields OtherMessage (fun r _ => Accounted call [] r) (receiveOutputs ops acc call)
      w := by
  have hempty : Accounted call [] ⟨[], 0⟩ :=
    ⟨List.nodup_nil, fun _ => Nat.zero_le _, rfl, by simp⟩
  rw [receiveOutputs]
  by_cases hvout : call.tx.vout.toList = []
  · rw [if_pos hvout]
    exact hempty
  · rw [if_neg hvout]
    apply Throwing.Yields.bind (Q := fun l _ => Accounted call [] l.receipts)
    · exact Throwing.yields_loop (P := fun _ (l : KeyLoop) _ => Accounted call [] l.receipts)
        (fun _ _ _ _ hstep => receiveKey_accounted hstep _ _) hempty
    · intro l _ hl
      exact Throwing.yields_pure hl

theorem spendInput_yields (call : TxCall) (s : Spends) (txin : Txin) (w : ScanWallet σ) :
    Throwing.Yields OtherMessage (fun _ _ => True) (spendInput call s txin) w := by
  cases txin with
  | toKey amount keyOffsets kImage =>
      rw [spendInput]
      have hget : Throwing.Yields OtherMessage (fun w' s => w' = w ∧ s = w) Throwing.get w :=
        ⟨rfl, rfl⟩
      refine hget.bind ?_
      rintro _ w' ⟨rfl, rfl⟩
      dsimp only
      cases w'.keyImages kImage with
      | none => exact Throwing.yields_pure trivial
      | some i =>
          dsimp only
          cases w'.transfers[i]? with
          | none => exact Throwing.yields_lift (fun _ _ => trivial) (throws_error (by decide))
          | some td =>
              exact (Throwing.yields_modify (Q := fun _ _ => True) trivial).bind
                fun _ _ _ => Throwing.yields_pure trivial
  | _ => exact trivial

/-- Nothing that is taken off wraps: an output that is done leaves every subaddress with at most
what it had. -/
theorem receiveOutput_lowers (call : TxCall) (pkIndex : ℕ) (r : Receipts) (info : ScanInfo)
    (w : ScanWallet σ) :
    Throwing.Yields (fun _ => True) (fun r' _ => ∀ index, r'.money.at index ≤ r.money.at index)
      (receiveOutput ops acc call pkIndex r info) w := by
  have hset : ∀ off : UInt64, off ≤ info.amount → info.amount ≤ r.money.at info.received →
      ∀ index, (r.money.set info.received (r.money.at info.received - off)).at index ≤
        r.money.at index := by
    intro off hoff hamount index
    rw [Money.at_set]
    by_cases hindex : index = info.received
    · rw [if_pos hindex, hindex, UInt64.le_iff_toNat_le,
        UInt64.toNat_sub_of_le _ _ (UInt64.le_trans hoff hamount)]
      exact Nat.sub_le _ _
    · rw [if_neg hindex]
      exact UInt64.le_refl _
  rw [receiveOutput]
  change Throwing.Yields _ _ (Throwing.lift (receiveOutcome w info) >>= _) w
  apply Throwing.Yields.bind (Q := fun outcome _ => receiveOutcome w info = .ok outcome)
    (Throwing.yields_lift (fun _ hok => hok) fun _ _ => trivial)
  intro outcome _ houtcome
  have hspec := receiveOutcome_spec houtcome
  cases outcome with
  | added =>
      apply Throwing.Yields.bind (Q := fun _ _ => True)
      · exact Throwing.yields_when (fun _ => Throwing.yields_modify trivial) fun _ => trivial
      · intro _ _ _
        exact Throwing.yields_pure fun _ => UInt64.le_refl _
  | ignored =>
      apply Throwing.Yields.bind (Q := fun _ _ => info.amount ≤ r.money.at info.received)
      · exact Throwing.yields_throwIf (fun _ => trivial) UInt64.not_lt.mp
      · intro _ _ hamount
        exact Throwing.yields_pure (hset _ (UInt64.le_refl _) hamount)
  | replaces i td =>
      apply Throwing.Yields.bind (Q := fun _ _ => info.amount ≤ r.money.at info.received)
      · exact Throwing.yields_throwIf (fun _ => trivial) UInt64.not_lt.mp
      intro _ _ hamount
      apply Throwing.Yields.bind (Q := fun _ _ => True)
      · apply Throwing.yields_when _ fun _ => trivial
        intro _
        apply Throwing.Yields.bind (Q := fun _ _ => True) (Throwing.yields_modify trivial)
        intro _ _ _
        apply Throwing.Yields.bind (Q := fun _ _ => True)
        · exact Throwing.yields_throwIf (fun _ => trivial) fun _ => trivial
        · intro _ _ _
          exact Throwing.yields_throwIf (fun _ => trivial) fun _ => trivial
      · intro _ _ _
        exact Throwing.yields_pure (hset _ (UInt64.le_of_lt hspec.2.2.2) hamount)

/-- Whatever a transaction brings, the wallet finds its totals as they should be. -/
theorem received_totals (ops : ScanOps σ) (acc : WalletSettings) (call : TxCall)
    (w : ScanWallet σ) :
    Throwing.Yields OtherMessage (fun _ _ => True) (processNewTransaction ops acc call) w ∧
      Throwing.Yields OtherMessage (fun receipts _ => receipts.total = receipts.money.sum)
        (receiveOutputs ops acc call) w ∧
      ∀ pkIndex r info,
        Throwing.Yields (fun _ => True)
          (fun r' _ => ∀ index, r'.money.at index ≤ r.money.at index)
          (receiveOutput ops acc call pkIndex r info) w := by
  have htotal : ∀ r, Accounted call [] r → r.total = r.money.sum := by
    intro r hr
    rw [← hr.total]
    exact (UInt64.add_zero _).symm
  refine ⟨?_, (receiveOutputs_accounted call w).mono fun r _ hr => htotal r hr,
    fun pkIndex r info => receiveOutput_lowers call pkIndex r info w⟩
  rw [processNewTransaction]
  apply Throwing.Yields.bind (Q := fun _ _ => True)
  · exact Throwing.yields_when (fun _ => Throwing.yields_modify trivial) fun _ => trivial
  intro _ w₁ _
  apply (receiveOutputs_accounted call w₁).bind
  intro receipts w₂ hreceipts
  apply Throwing.Yields.bind (Q := fun _ _ => True)
  · exact Throwing.yields_loop (P := fun _ _ _ => True)
      (fun _ _ _ _ _ => spendInput_yields call _ _ _) trivial
  intro spends w₃ _
  apply Throwing.Yields.bind (Q := fun _ _ => True)
  · exact Throwing.yields_when (fun _ => Throwing.yields_modify trivial) fun _ => trivial
  intro _ w₄ _
  apply Throwing.yields_when _ fun _ => trivial
  intro _
  apply Throwing.Yields.bind (Q := fun _ _ => True)
  · -- the wallet would exit here
    exact Throwing.yields_throwIf (fun hne => absurd (htotal receipts hreceipts) hne)
      fun _ => trivial
  · intro _ _ _
    exact Throwing.yields_modify trivial

end XrCoin.Wallet

import XrCoin.Wallet.CreateTransactions

/-!
What `create_transactions_2` pays to whom.

What the transactions pay and what is left to pay are one pool. The amounts move inside of it: from
what is left to a transaction, and back for the fee or for a split payment to be rounded. The last
move goes from the last destination of the transaction to the first one that is left, whether or not
these have the same address.
-/

namespace XrCoin.Wallet

open Archive Cryptonote Data

/-! ### Amounts by address -/

def TxDestinationEntry.share (p : AccountPublicAddress → Bool) (d : TxDestinationEntry) : ℕ :=
  if p d.addr then d.amount.toNat else 0

def amountFor (p : AccountPublicAddress → Bool) (dsts : List TxDestinationEntry) : ℕ :=
  (dsts.map (TxDestinationEntry.share p)).sum

def paidTo (a : AccountPublicAddress) (dsts : List TxDestinationEntry) : ℕ :=
  amountFor (fun b => b = a) dsts

section Amounts

variable {p : AccountPublicAddress → Bool} {dsts l₁ l₂ : List TxDestinationEntry}
  {d e : TxDestinationEntry} {i : ℕ}

@[simp] theorem amountFor_nil : amountFor p [] = 0 := rfl

@[simp] theorem amountFor_cons : amountFor p (d :: dsts) = d.share p + amountFor p dsts := by
  simp [amountFor]

@[simp] theorem amountFor_append : amountFor p (l₁ ++ l₂) = amountFor p l₁ + amountFor p l₂ := by
  simp [amountFor]

theorem amountFor_perm (h : l₁.Perm l₂) : amountFor p l₁ = amountFor p l₂ := (h.map _).sum_eq

theorem amountFor_all : amountFor (fun _ => true) dsts = totalAmount dsts := rfl

theorem share_le_amountFor (h : d ∈ dsts) : d.share p ≤ amountFor p dsts :=
  List.single_le_sum (fun _ _ => Nat.zero_le _) _ (List.mem_map_of_mem h)

theorem amountFor_modify (f : TxDestinationEntry → TxDestinationEntry) (h : dsts[i]? = some e) :
    amountFor p (dsts.modify i f) + e.share p = amountFor p dsts + (f e).share p := by
  induction dsts generalizing i with
  | nil => simp at h
  | cons d dsts ih =>
      cases i with
      | zero =>
          simp only [List.getElem?_cons_zero, Option.some.injEq] at h
          subst h
          simp only [List.modify_zero_cons, amountFor_cons]
          omega
      | succ i =>
          rw [List.getElem?_cons_succ] at h
          have hrest := ih h
          simp only [List.modify_succ_cons, amountFor_cons]
          omega

theorem amountFor_set (h : dsts[i]? = some e) :
    amountFor p (dsts.set i d) + e.share p = amountFor p dsts + d.share p := by
  rw [List.set_eq_modify]
  exact amountFor_modify (fun _ => d) h

theorem share_add {amount : UInt64} (h : d.amount.toNat + amount.toNat < 2 ^ 64) :
    ({ d with amount := d.amount + amount } : TxDestinationEntry).share p =
      d.share p + if p d.addr then amount.toNat else 0 := by
  simp only [TxDestinationEntry.share, UInt64.toNat_add, Nat.mod_eq_of_lt h]
  split <;> rfl

theorem share_sub {amount : UInt64} (h : amount ≤ d.amount) :
    ({ d with amount := d.amount - amount } : TxDestinationEntry).share p +
      (if p d.addr then amount.toNat else 0) = d.share p := by
  have hle := UInt64.le_iff_toNat_le.mp h
  simp only [TxDestinationEntry.share, UInt64.toNat_sub_of_le _ _ h]
  split <;> omega

theorem amountFor_raiseAt {amount : UInt64} (h : dsts[i]? = some e)
    (hfits : e.amount.toNat + amount.toNat < 2 ^ 64) :
    amountFor p (raiseAt dsts i amount) =
      amountFor p dsts + if p e.addr then amount.toNat else 0 := by
  have hmodify := amountFor_modify (p := p)
    (fun d : TxDestinationEntry => { d with amount := d.amount + amount }) h
  rw [share_add hfits] at hmodify
  rw [raiseAt]
  omega

end Amounts

theorem addDestination_spec {dsts dsts' : List TxDestinationEntry} {d : TxDestinationEntry}
    {amount : UInt64} {i : ℕ} {merge : Bool}
    (h : addDestination dsts d amount i merge = .ok dsts')
    (hfits : totalAmount dsts + amount.toNat < 2 ^ 64) (p : AccountPublicAddress → Bool) :
    amountFor p dsts' = amountFor p dsts + if p d.addr then amount.toNat else 0 := by
  have hentry : amountFor p (dsts ++ [{ d with amount := 0 }]) = amountFor p dsts := by
    simp [TxDestinationEntry.share]
  -- the raised destination is one of the transaction, or the new one of no amount
  have hbound : ∀ e ∈ dsts ++ [{ d with amount := 0 }], e.amount.toNat + amount.toNat < 2 ^ 64 := by
    intro e he
    rcases List.mem_append.mp he with he | he
    · have hle := share_le_amountFor (p := fun _ => true) he
      rw [amountFor_all, TxDestinationEntry.share, if_pos rfl] at hle
      omega
    · rw [List.mem_singleton.mp he]
      simp only [UInt64.toNat_zero]
      omega
  rw [addDestination] at h
  cases merge with
  | true =>
      simp only [if_true] at h
      rcases hfind : dsts.findIdx? fun e => e.addr = d.addr with _ | j
      · simp only [hfind] at h
        cases h
        have hget : (dsts ++ [{ d with amount := 0 }])[dsts.length]? = some { d with amount := 0 } := by
          simp
        rw [amountFor_raiseAt hget (hbound _ (List.mem_of_getElem? hget)), hentry]
      · simp only [hfind] at h
        cases h
        obtain ⟨hj, haddr, -⟩ := List.findIdx?_eq_some_iff_getElem.mp hfind
        have hget : dsts[j]? = some dsts[j] := List.getElem?_eq_getElem hj
        have hmem : dsts[j] ∈ dsts ++ [{ d with amount := 0 }] :=
          List.mem_append_left _ (List.getElem_mem hj)
        rw [amountFor_raiseAt hget (hbound _ hmem), of_decide_eq_true haddr]
  | false =>
      simp only [Bool.false_eq_true, if_false] at h
      obtain ⟨_, -, h⟩ := bind_eq_ok.mp h
      obtain ⟨_, haddr, h⟩ := bind_eq_ok.mp h
      cases h
      rw [throwIf_eq_ok, not_not, Option.map_eq_some_iff] at haddr
      obtain ⟨e, hget, haddr⟩ := haddr
      split at hget
      · rw [if_pos (by assumption), amountFor_raiseAt hget (hbound e (List.mem_of_getElem? hget)),
          hentry, haddr]
      · have hmem : e ∈ dsts ++ [{ d with amount := 0 }] :=
          List.mem_append_left _ (List.mem_of_getElem? hget)
        rw [if_neg (by assumption), amountFor_raiseAt hget (hbound e hmem), haddr]

/-! ### The pool -/

def Building.pool (st : Building) : List TxDestinationEntry :=
  st.done.flatMap TxDraft.dsts ++ st.tx.dsts ++ st.dsts

@[simp] theorem amountFor_pool {p : AccountPublicAddress → Bool} {st : Building} :
    amountFor p st.pool = amountFor p (st.done.flatMap TxDraft.dsts) + amountFor p st.tx.dsts +
      amountFor p st.dsts := by
  rw [Building.pool, amountFor_append, amountFor_append]

/-- All amounts together are those of a `uint64_t`, and nothing that is left is zero. -/
structure Building.Sound (st : Building) : Prop where
  fits : totalAmount st.pool < 2 ^ 64
  nonzero : ∀ d ∈ st.dsts, d.amount ≠ 0

/-- No address gets more or less. -/
def SameAmounts (st st' : Building) : Prop := ∀ p, amountFor p st'.pool = amountFor p st.pool

theorem SameAmounts.trans {st₁ st₂ st₃ : Building} (h₁ : SameAmounts st₁ st₂)
    (h₂ : SameAmounts st₂ st₃) : SameAmounts st₁ st₃ := by
  intro p
  rw [h₂ p, h₁ p]

theorem SameAmounts.sound {st st' : Building} (h : SameAmounts st st') (hst : st.Sound)
    (hnonzero : ∀ d ∈ st'.dsts, d.amount ≠ 0) : st'.Sound := by
  refine ⟨?_, hnonzero⟩
  rw [← amountFor_all, h, amountFor_all]
  exact hst.fits

theorem sameAmounts_of_eq {st st' : Building} (hdone : st'.done = st.done)
    (htx : st'.tx.dsts = st.tx.dsts) (hdsts : st'.dsts = st.dsts) : SameAmounts st st' := by
  intro p
  rw [Building.pool, Building.pool, hdone, htx, hdsts]

theorem Building.Sound.dsts_of_paid {st : Building} (h : st.Sound) (hpaid : st.paid) :
    st.dsts = [] := by
  rcases hdsts : st.dsts with _ | ⟨d, rest⟩
  · rfl
  · rw [Building.paid, hdsts] at hpaid
    have hd : d ∈ st.dsts := by simp [hdsts]
    exact absurd (of_decide_eq_true hpaid) (h.nonzero d hd)

variable {w : BuildWallet} {args : BuildArgs}

/-! ### Paying -/

/-- A destination that is left, or a part of it, goes into the transaction. -/
theorem addFirst_spec {st st' : Building} {d : TxDestinationEntry} {amount : UInt64}
    (h : st.addFirst w d amount = .ok st')
    (hfits : totalAmount st.tx.dsts + amount.toNat < 2 ^ 64) :
    st' = { st with tx := st'.tx } ∧ ∀ p, amountFor p st'.tx.dsts =
      amountFor p st.tx.dsts + if p d.addr then amount.toNat else 0 := by
  obtain ⟨dsts, hdsts, h⟩ := bind_eq_ok.mp h
  cases h
  exact ⟨rfl, addDestination_spec hdsts hfits⟩

/-- The first destination that is left goes into the transaction as a whole. -/
theorem addFirst_all {st st' : Building} {d : TxDestinationEntry} {rest : List TxDestinationEntry}
    {i : ℕ} (h : st.addFirst w d d.amount = .ok st') (hst : st.Sound)
    (hperm : st.dsts.Perm (d :: rest)) :
    let st₁ := { st' with dsts := rest, originalOutputIndex := i }
    SameAmounts st st₁ ∧ st₁.Sound := by
  have htotal := hst.fits
  rw [← amountFor_all, amountFor_pool, amountFor_perm hperm, amountFor_cons] at htotal
  simp only [TxDestinationEntry.share, if_true, amountFor_all] at htotal
  obtain ⟨hst', htx⟩ := addFirst_spec h (by omega)
  have hsame : SameAmounts st { st' with dsts := rest, originalOutputIndex := i } := by
    intro p
    rw [hst']
    simp only [amountFor_pool, htx, amountFor_perm hperm, amountFor_cons, TxDestinationEntry.share]
    omega
  refine ⟨hsame, hsame.sound hst ?_⟩
  intro e he
  exact hst.nonzero e (hperm.mem_iff.mpr (List.mem_cons_of_mem d he))

/-- The payments in full end where the next one is too large or too much for the weight. -/
theorem payFully_spec {rounds : ℕ} {st st' : Building} {available available' : UInt64}
    (h : payFully w args rounds st available = .ok (st', available')) (hst : st.Sound)
    (hrounds : st.dsts.length ≤ rounds) :
    SameAmounts st st' ∧ st'.Sound ∧
      ∀ d ∈ st'.dsts.head?, hasRoom w args st' → available' < d.amount := by
  induction rounds generalizing st available with
  | zero =>
      cases h
      rw [List.length_eq_zero_iff.mp (Nat.le_zero.mp hrounds)]
      exact ⟨fun _ => rfl, hst, by simp⟩
  | succ rounds ih =>
      rw [payFully] at h
      rcases hdsts : st.dsts with _ | ⟨d, rest⟩
      · simp only [hdsts, popIndex, List.getElem?_nil] at h
        cases h
        rw [hdsts]
        exact ⟨fun _ => rfl, hst, by simp⟩
      have hget : st.dsts[0]? = some d := by simp [hdsts]
      obtain ⟨rest', hpop⟩ := popIndex_of_get hget
      simp only [hpop] at h
      split at h
      · obtain ⟨st₁, hadd, h⟩ := bind_eq_ok.mp h
        obtain ⟨hsame, hsound⟩ := addFirst_all (i := st₁.originalOutputIndex + 1) hadd hst
          (popIndex_perm hpop)
        have hlength := (popIndex_perm hpop).length_eq
        rw [List.length_cons] at hlength
        obtain ⟨hsame', hend⟩ := ih h hsound (by simp only; omega)
        exact ⟨hsame.trans hsame', hend⟩
      · rename_i hstop
        cases h
        refine ⟨fun _ => rfl, hst, ?_⟩
        intro e he hroom
        rw [hdsts, List.head?_cons, Option.mem_some_iff] at he
        subst he
        exact UInt64.not_le.mp fun hle => hstop ⟨hle, hroom⟩

theorem payPartially_spec {st st' : Building} {available : UInt64}
    (h : payPartially w args st available = .ok st') (hst : st.Sound)
    (hless : ∀ d ∈ st.dsts.head?, hasRoom w args st → available < d.amount) :
    SameAmounts st st' ∧ st'.Sound := by
  rw [payPartially.eq_def] at h
  rcases hdsts : st.dsts with _ | ⟨d, rest⟩
  · simp only [hdsts] at h
    cases h
    exact ⟨fun _ => rfl, hst⟩
  simp only [hdsts] at h
  split at h
  · rename_i hpays
    obtain ⟨st₁, hadd, h⟩ := bind_eq_ok.mp h
    cases h
    have hlt : available < d.amount := hless d (by simp [hdsts]) hpays.2
    have hlt' := UInt64.lt_iff_toNat_lt.mp hlt
    have htotal := hst.fits
    rw [← amountFor_all, amountFor_pool, hdsts, amountFor_cons] at htotal
    simp only [TxDestinationEntry.share, if_true, amountFor_all] at htotal
    obtain ⟨hst', htx⟩ := addFirst_spec hadd (by omega)
    have hsame : SameAmounts st
        { st₁ with dsts := { d with amount := d.amount - available } :: rest } := by
      intro p
      have hshare := share_sub (p := p) (UInt64.le_of_lt hlt)
      rw [hst']
      simp only [amountFor_pool, htx, hdsts, amountFor_cons]
      omega
    refine ⟨hsame, hsame.sound hst ?_⟩
    intro e he
    rcases List.mem_cons.mp he with rfl | he
    · intro hzero
      have hnat := congrArg UInt64.toNat hzero
      rw [UInt64.toNat_sub_of_le _ _ (UInt64.le_of_lt hlt), UInt64.toNat_zero] at hnat
      omega
    · exact hst.nonzero e (by simp [hdsts, he])
  · cases h
    exact ⟨fun _ => rfl, hst⟩

theorem payWith_spec {st st' : Building} {available : UInt64}
    (h : payWith w args st available = .ok st') (hst : st.Sound) :
    SameAmounts st st' ∧ st'.Sound := by
  rw [payWith] at h
  split at h
  · cases h
    exact ⟨fun _ => rfl, hst.fits, hst.nonzero⟩
  · obtain ⟨⟨st₁, rest⟩, hfully, h⟩ := bind_eq_ok.mp h
    obtain ⟨hsame, hsound, hless⟩ := payFully_spec hfully hst le_rfl
    obtain ⟨hsame', hsound'⟩ := payPartially_spec h hsound hless
    exact ⟨hsame.trans hsame', hsound'⟩

theorem pickInput_same {st st' : Building} {idx : ℕ}
    (h : pickInput w st = .ok (some (idx, st'))) :
    st'.done = st.done ∧ st'.tx = st.tx ∧ st'.dsts = st.dsts := by
  obtain ⟨rest, -, rfl⟩ | ⟨-, ⟨-, rfl⟩ | ⟨rest, -, rfl⟩ | ⟨rest, -, rfl⟩⟩ := pickInput_some h <;>
    exact ⟨rfl, rfl, rfl⟩

theorem advance_spec {st st' : Building} {b : Bool}
    (h : advance w args st = .ok (some (b, st'))) (hst : st.Sound) :
    SameAmounts st st' ∧ st'.Sound := by
  obtain ⟨idx, st₁, td, hpick, -, hpay, -⟩ := advance_some h
  obtain ⟨hdone, htx, hdsts⟩ := pickInput_same hpick
  have hsame : SameAmounts st (st₁.select idx) :=
    sameAmounts_of_eq hdone (by rw [← htx]; rfl) hdsts
  have hsound : (st₁.select idx).Sound := by
    refine hsame.sound hst ?_
    intro d hd
    exact hst.nonzero d (hdsts ▸ hd)
  obtain ⟨hsame', hsound'⟩ := payWith_spec hpay hsound
  exact ⟨hsame.trans hsame', hsound'⟩

/-! ### Rounding a split payment -/

variable (w) in
/-- Where a split payment is rounded, what is taken off is zero or for the address it came from. -/
def OwnSplit (st : Building) : Prop :=
  w.useRct = true ∨ ∀ d ∈ st.dsts.head?, ∀ back ∈ st.tx.dsts.getLast?,
    back.amount ≤ w.baseRewardClampThreshold ∨
      back.amount % w.baseRewardClampThreshold = 0 ∨ back.addr = d.addr

theorem roundSplit_moves {st st' : Building} (h : roundSplit w st = .ok st') (hst : st.Sound) :
    (st' = st ∧ OwnSplit w st) ∨
      ∃ d rest back, st.dsts = d :: rest ∧ st.tx.dsts.getLast? = some back ∧ w.useRct = false ∧
        w.baseRewardClampThreshold < back.amount ∧
        (∀ e ∈ st'.dsts, e.amount ≠ 0) ∧
        ∀ p, amountFor p st'.pool +
            (if p back.addr then (back.amount % w.baseRewardClampThreshold).toNat else 0) =
          amountFor p st.pool +
            if p d.addr then (back.amount % w.baseRewardClampThreshold).toNat else 0 := by
  rw [roundSplit.eq_def] at h
  rcases hdsts : st.dsts with _ | ⟨d, rest⟩
  · simp only [hdsts] at h
    cases h
    exact Or.inl ⟨rfl, Or.inr (by simp [hdsts])⟩
  simp only [hdsts] at h
  split at h
  · rename_i hrct
    cases h
    exact Or.inl ⟨rfl, Or.inl hrct⟩
  rename_i hrct
  obtain ⟨back, hback, h⟩ := bind_eq_ok.mp h
  rw [orThrow_eq_ok] at hback
  split at h
  · rename_i hlarge
    obtain ⟨_, -, h⟩ := bind_eq_ok.mp h
    cases h
    refine Or.inr ⟨d, rest, back, rfl, hback, Bool.eq_false_iff.mpr hrct, hlarge, ?_⟩
    obtain ⟨front, hfront⟩ := List.getLast?_eq_some_iff.mp hback
    generalize hmoved : back.amount % w.baseRewardClampThreshold = moved
    have hle : moved ≤ back.amount := by
      rw [← hmoved, UInt64.le_iff_toNat_le, UInt64.toNat_mod]
      exact Nat.mod_le _ _
    have hle' := UInt64.le_iff_toNat_le.mp hle
    -- both amounts are in the pool, so that the sum does not wrap around
    have htotal := hst.fits
    rw [← amountFor_all, amountFor_pool, hdsts, hfront] at htotal
    simp only [amountFor_append, amountFor_cons, amountFor_nil, TxDestinationEntry.share,
      if_true] at htotal
    have hfits : d.amount.toNat + moved.toNat < 2 ^ 64 := by omega
    constructor
    · intro e he
      rcases List.mem_cons.mp he with rfl | he
      · intro hzero
        have hnat := congrArg UInt64.toNat hzero
        rw [UInt64.toNat_add, Nat.mod_eq_of_lt hfits, UInt64.toNat_zero] at hnat
        have hd := hst.nonzero d (by simp [hdsts])
        exact hd (UInt64.toNat_inj.mp (by rw [UInt64.toNat_zero]; omega))
      · exact hst.nonzero e (by simp [hdsts, he])
    · intro p
      have hback := share_sub (p := p) hle
      simp only [amountFor_pool, hdsts, hfront, List.dropLast_concat, amountFor_append,
        amountFor_cons, amountFor_nil, share_add hfits]
      omega
  · rename_i hsmall
    cases h
    refine Or.inl ⟨rfl, Or.inr ?_⟩
    intro d' hd' back' hback'
    rw [hback, Option.mem_some_iff] at hback'
    subst hback'
    exact Or.inl (UInt64.not_lt.mp hsmall)

/-- The rounding moves nothing from one address to another exactly under the condition. -/
theorem roundSplit_spec {st st' : Building} (h : roundSplit w st = .ok st') (hst : st.Sound) :
    st'.Sound ∧ (OwnSplit w st → SameAmounts st st') ∧
      ((∀ a, paidTo a st'.pool = paidTo a st.pool) → OwnSplit w st) := by
  obtain ⟨rfl, hown⟩ | ⟨d, rest, back, hdsts, hback, hrct, hlarge, hnonzero, hmoves⟩ :=
    roundSplit_moves h hst
  · exact ⟨hst, fun _ _ => rfl, fun _ => hown⟩
  have hown : OwnSplit w st ↔
      back.amount % w.baseRewardClampThreshold = 0 ∨ back.addr = d.addr := by
    simp [OwnSplit, hrct, hdsts, hback, UInt64.not_le.mpr hlarge]
  rw [hown]
  refine ⟨⟨?_, hnonzero⟩, ?_, ?_⟩
  · have htotal := hmoves fun _ => true
    simp only [if_true, amountFor_all] at htotal
    have hfits := hst.fits
    omega
  · rintro (hzero | haddr) p
    · have hkeeps := hmoves p
      simp only [hzero, UInt64.toNat_zero, ite_self] at hkeeps
      omega
    · have hkeeps := hmoves p
      rw [haddr] at hkeeps
      omega
  · intro hsame
    by_contra hnot
    rw [not_or] at hnot
    have hloses := hmoves fun a => a = back.addr
    have hback : amountFor (fun a => a = back.addr) st'.pool =
        amountFor (fun a => a = back.addr) st.pool := hsame back.addr
    rw [hback, if_pos (by simp), if_neg (by simpa using fun h => hnot.2 h.symm)] at hloses
    exact hnot.1 (UInt64.toNat_inj.mp (by rw [UInt64.toNat_zero]; omega))

/-! ### Trying -/

theorem takeFee_spec {t t' : Trial} (h : takeFee t = .ok t') (hst : t.st.Sound) :
    SameAmounts t.st t'.st ∧ t'.st.Sound := by
  rw [takeFee.eq_def] at h
  rcases hdsts : t.st.dsts with _ | ⟨d, rest⟩
  · simp only [hdsts] at h
    cases h
    exact ⟨fun _ => rfl, hst⟩
  simp only [hdsts] at h
  split at h
  · obtain ⟨i, hi, h⟩ := bind_eq_ok.mp h
    obtain ⟨paid, hpaid, h⟩ := bind_eq_ok.mp h
    rw [orThrow_eq_ok] at hi hpaid
    split at h
    · rename_i hless
      cases h
      have haddr : paid.addr = d.addr := by
        obtain ⟨hlt, haddr, -⟩ := List.findIdx?_eq_some_iff_getElem.mp hi
        obtain ⟨_, rfl⟩ := List.getElem?_eq_some_iff.mp hpaid
        exact of_decide_eq_true haddr
      have hle := UInt64.le_of_lt hless
      have hle' := UInt64.le_iff_toNat_le.mp hle
      -- what is taken off is the fee
      have htaken : paid.amount - (paid.amount - t.st.neededFee) = t.st.neededFee := by
        rw [← UInt64.toNat_inj, UInt64.toNat_sub_of_le _ _ (by
          rw [UInt64.le_iff_toNat_le, UInt64.toNat_sub_of_le _ _ hle]; omega),
          UInt64.toNat_sub_of_le _ _ hle]
        omega
      rw [htaken]
      have hshare := share_le_amountFor (p := fun _ => true) (List.mem_of_getElem? hpaid)
      have htotal := hst.fits
      rw [← amountFor_all, amountFor_pool, hdsts, amountFor_cons] at htotal
      simp only [TxDestinationEntry.share, if_true] at htotal hshare
      have hfits : d.amount.toNat + t.st.neededFee.toNat < 2 ^ 64 := by omega
      have hsame : SameAmounts t.st { t.st with
          tx := { t.st.tx with
            dsts := t.st.tx.dsts.set i { paid with amount := paid.amount - t.st.neededFee } }
          dsts := { d with amount := d.amount + t.st.neededFee } :: rest
          availableForFee := t.st.neededFee } := by
        intro p
        have hset := amountFor_set (p := p)
          (d := { paid with amount := paid.amount - t.st.neededFee }) hpaid
        have hsub := share_sub (p := p) hle
        have hfee : (if p paid.addr then t.st.neededFee.toNat else 0) =
            if p d.addr then t.st.neededFee.toNat else 0 := by rw [haddr]
        simp only [amountFor_pool, hdsts, amountFor_cons, share_add hfits]
        omega
      refine ⟨hsame, hsame.sound hst ?_⟩
      intro e he
      rcases List.mem_cons.mp he with rfl | he
      · intro hzero
        have hnat := congrArg UInt64.toNat hzero
        rw [UInt64.toNat_add, Nat.mod_eq_of_lt hfits, UInt64.toNat_zero] at hnat
        have hd := hst.nonzero d (by simp [hdsts])
        exact hd (UInt64.toNat_inj.mp (by rw [UInt64.toNat_zero]; omega))
      · exact hst.nonzero e (by simp [hdsts, he])
    · cases h
      exact ⟨fun _ => rfl, hst⟩
  · cases h
    exact ⟨fun _ => rfl, hst⟩

theorem commit_same (st : Building) :
    SameAmounts st st.commit ∧ st.commit.dsts = st.dsts := by
  rw [Building.commit]
  split
  · exact ⟨fun _ => rfl, rfl⟩
  · refine ⟨?_, rfl⟩
    intro p
    simp [TxDraft.empty]

theorem buildDraft_spec {rounds : ℕ} {st st' : Building}
    (h : buildDraft w rounds st = .ok st') (hst : st.Sound) :
    SameAmounts st st' ∧ st'.Sound := by
  obtain ⟨ptx, -, h⟩ := bind_eq_ok.mp h
  obtain ⟨t, htake, h⟩ := bind_eq_ok.mp h
  obtain ⟨hsame, hsound⟩ := takeFee_spec htake ⟨hst.fits, hst.nonzero⟩
  split at h
  · cases h
    exact ⟨hsame, hsound.fits, hsound.nonzero⟩
  · obtain ⟨t', hraise, h⟩ := bind_eq_ok.mp h
    cases h
    obtain ⟨fee, calls, hraised⟩ := raiseFee_eq_ok hraise
    obtain ⟨hcommit, hdsts⟩ := commit_same t'.st
    rw [hraised] at hcommit hdsts ⊢
    have hsame' : SameAmounts st _ := hsame.trans hcommit
    refine ⟨hsame', hsame'.sound ⟨hst.fits, hst.nonzero⟩ ?_⟩
    rw [hdsts]
    exact hsound.nonzero

/-- Where a transaction is tried, only the rounding can move an amount from one address to
another. -/
theorem tryTx_spec {rounds : ℕ} {st st' : Building} (h : tryTx w args rounds st = .ok st')
    (hst : st.Sound) :
    st'.Sound ∧ (OwnSplit w st → SameAmounts st st') ∧
      ((∀ a, paidTo a st'.pool = paidTo a st.pool) → OwnSplit w st) := by
  obtain ⟨st₁, hround, h⟩ := bind_eq_ok.mp h
  obtain ⟨hsound, hkeeps, hown⟩ := roundSplit_spec hround hst
  have hrest : SameAmounts st₁ st' ∧ st'.Sound := by
    simp only at h
    split at h
    · cases h
      exact ⟨fun _ => rfl, hsound.fits, hsound.nonzero⟩
    · obtain ⟨hsame, hsound'⟩ := buildDraft_spec h ⟨hsound.fits, hsound.nonzero⟩
      exact ⟨hsame, hsound'⟩
  refine ⟨hrest.2, fun h => (hkeeps h).trans hrest.1, ?_⟩
  intro hsame
  apply hown
  intro a
  rw [← hsame a]
  exact (hrest.1 _).symm

/-! ### The whole run -/

theorem loopStep_sound {rounds : ℕ} {st st' : Building} (h : LoopStep w args rounds st st')
    (hst : st.Sound) : st'.Sound := by
  obtain ⟨st₁, hadvance, htry⟩ | hadvance := iterate_some h.2
  · exact (tryTx_spec htry (advance_spec hadvance hst).2).1
  · exact (advance_spec hadvance hst).2

theorem reached_sound {rounds : ℕ} {start st : Building}
    (h : Relation.ReflTransGen (LoopStep w args rounds) start st) (hstart : start.Sound) :
    st.Sound := by
  induction h with
  | refl => exact hstart
  | tail _ hstep ih => exact loopStep_sound hstep ih

variable (w args) in
/-- Every split payment of a run is rounded for the address it came from. -/
def SplitsOwn (rounds : ℕ) (start : Building) : Prop :=
  ∀ st st', Relation.ReflTransGen (LoopStep w args rounds) start st →
    LoopStep w args rounds st st' → ∀ tried, advance w args st = .ok (some (true, tried)) →
      OwnSplit w tried

theorem reached_same {rounds : ℕ} {start st : Building}
    (h : Relation.ReflTransGen (LoopStep w args rounds) start st) (hstart : start.Sound)
    (hsplits : SplitsOwn w args rounds start) : SameAmounts start st := by
  induction h with
  | refl => exact fun _ => rfl
  | @tail st st' hreached hstep ih =>
      have hsound := reached_sound hreached hstart
      apply ih.trans
      obtain ⟨st₁, hadvance, htry⟩ | hadvance := iterate_some hstep.2
      · obtain ⟨hsame, hsound'⟩ := advance_spec hadvance hsound
        have hown := hsplits st st' hreached hstep st₁ hadvance
        exact hsame.trans ((tryTx_spec htry hsound').2.1 hown)
      · exact (advance_spec hadvance hsound).1

/-- A run whose states all owe the same to everyone rounds every split as it should. -/
theorem splitsOwn_of_same {rounds : ℕ} {start : Building} (hstart : start.Sound)
    (h : ∀ st, Relation.ReflTransGen (LoopStep w args rounds) start st →
      ∀ a, paidTo a st.pool = paidTo a start.pool) : SplitsOwn w args rounds start := by
  intro st st' hreached hstep tried hadvance
  obtain ⟨hsame, hsound⟩ := advance_spec hadvance (reached_sound hreached hstart)
  have htry : tryTx w args rounds tried = .ok st' := by
    obtain ⟨st₁, hadvance', htry⟩ | hadvance' := iterate_some hstep.2
    · rw [hadvance] at hadvance'
      cases hadvance'
      exact htry
    · rw [hadvance] at hadvance'
      cases hadvance'
  apply (tryTx_spec htry hsound).2.2
  intro a
  rw [h st' (hreached.tail hstep) a, ← h st hreached a]
  exact (hsame _).symm

theorem addAmounts_nonzero {neededMoney money : UInt64} {dsts : List TxDestinationEntry}
    (h : addAmounts neededMoney dsts = .ok money) : ∀ d ∈ dsts, d.amount ≠ 0 := by
  induction dsts generalizing neededMoney with
  | nil => simp
  | cons d dsts ih =>
      obtain ⟨_, hzero, h⟩ := bind_eq_ok.mp h
      obtain ⟨_, -, h⟩ := bind_eq_ok.mp h
      intro e he
      rcases List.mem_cons.mp he with rfl | he
      · exact throwIf_eq_ok.mp hzero
      · exact ih h e he

variable {req : TransferRequest}

theorem prepareBuilding_pool {start : Building} (h : prepareBuilding w req = .ok start) :
    start.pool = req.dsts ∧ start.Sound := by
  obtain ⟨neededMoney, threshold, hneeded, rfl⟩ := prepareBuilding_eq_ok h
  have hpool : (startBuilding w req neededMoney threshold).pool = req.dsts := rfl
  refine ⟨hpool, ?_, addAmounts_nonzero hneeded⟩
  have htotal := addAmounts_eq_ok hneeded
  have hlt := neededMoney.toNat_lt
  rw [UInt64.toNat_zero] at htotal
  rw [hpool]
  omega

theorem dests_of_drafts {txes : List TxDraft} {ptxs : List PendingTx}
    (h : List.Forall₂ (fun tx (ptx : PendingTx) => ptx.For w.transfers tx.dsts tx.selectedTransfers)
      txes ptxs) : ptxs.flatMap PendingTx.dests = txes.flatMap TxDraft.dsts := by
  induction h with
  | nil => rfl
  | cons hfor _ ih => rw [List.flatMap_cons, List.flatMap_cons, ih, hfor.dests]

/-- Everyone gets what was asked for in a run that rounds every split for the address it came from,
and these are the runs in which nobody is owed more or less at any time. -/
theorem createTransactions2_pays {rounds : ℕ} {start : Building}
    (hstart : prepareBuilding w req = .ok start) :
    (SplitsOwn w (req.buildArgs w) rounds start → ∀ inputs ptxs,
      createTransactions2 w req rounds inputs = .ok ptxs →
        ∀ a, paidTo a (ptxs.flatMap PendingTx.dests) = paidTo a req.dsts) ∧
    (SplitsOwn w (req.buildArgs w) rounds start ↔
      ∀ st, Relation.ReflTransGen (LoopStep w (req.buildArgs w) rounds) start st →
        ∀ a, paidTo a st.pool = paidTo a req.dsts) := by
  obtain ⟨hpool, hsound⟩ := prepareBuilding_pool hstart
  have hall : SplitsOwn w (req.buildArgs w) rounds start →
      ∀ st, Relation.ReflTransGen (LoopStep w (req.buildArgs w) rounds) start st →
        ∀ a, paidTo a st.pool = paidTo a req.dsts := by
    intro hsplits st hreached a
    rw [← hpool]
    exact reached_same hreached hsound hsplits _
  refine ⟨?_, hall, ?_⟩
  · intro hsplits inputs ptxs h a
    obtain ⟨start', st, hstart', hreached, hpaid, hptxs⟩ := createTransactions2_eq_ok h
    rw [hstart] at hstart'
    cases hstart'
    rw [← hall hsplits st hreached a, dests_of_drafts hptxs]
    -- nothing is left, so that the pool is what the transactions pay
    have hdsts := (reached_sound hreached hsound).dsts_of_paid hpaid
    simp [Building.pool, hdsts]
  · intro hsame
    apply splitsOwn_of_same hsound
    rw [hpool]
    exact hsame

/-! ### A split that falls between two destinations -/

def sampleKey (n : ℕ) : PublicKey := List.Vector.replicate 32 n.toUInt8

def sampleAddress (n : ℕ) : AccountPublicAddress := ⟨sampleKey n, sampleKey (n + 1)⟩

def sampleTransfer (n : ℕ) (amount : UInt64) : TransferDetails where
  blockHeight := 100 * n.toUInt64
  tx := ⟨1, 0, 0, .nil, ⟨[⟨amount, .toKey (sampleKey n)⟩], by simp⟩, .nil⟩
  txid := List.Vector.replicate 32 n.toUInt8
  internalOutputIndex := 0
  globalOutputIndex := n.toUInt64
  spent := false
  spentHeight := 0
  keyImage := sampleKey (100 + n)
  mask := sampleKey 0
  amount := amount
  rct := false
  keyImageKnown := true
  pkIndex := 0
  subaddrIndex := ⟨0, 0⟩
  keyImagePartial := false

def sampleTransfers : List TransferDetails :=
  [sampleTransfer 0 1000000000, sampleTransfer 1 50000000, sampleTransfer 2 7000000000,
    sampleTransfer 3 10000000000]

/-- A wallet of four outputs. The transactions that are built grow with their inputs and outputs. -/
def sampleWallet (useRct : Bool) (limit : UInt64) : BuildWallet where
  construct := fun _ _ selected outputs =>
    let size := 300 * selected.length + 60 + 38 * outputs.length
    .ok ⟨size, size.toUInt64,
      selected.filterMap fun i => sampleTransfers[i]?.bind TransferDetails.publicKey?⟩
  getSubaddress := fun _ => sampleAddress 50
  dummyAddress := fun _ => sampleAddress 60
  upperTransactionWeightLimit := limit
  transfers := sampleTransfers
  ignoreFractionalOutputs := false
  ignoreOutputsAbove := 18446744073709551615
  ignoreOutputsBelow := 0
  minOutputValue := 0
  minOutputCount := 0
  mergeDestinations := false
  isTransferUnlocked := fun _ => true
  balancePerSubaddress := fun _ => [(0, 18050000000)]
  unlockedBalancePerSubaddress := fun _ _ => 18050000000
  useRct := useRct
  useV1Borromean := false
  bulletproof := useRct
  useForkTwo := true
  feePerKb := 1000000
  feeMultiplier := 1
  defaultFeeV1 := 0
  defaultRingSize := 5
  baseRewardClampThreshold := 100000000
  defaultDustThreshold := 2000000000
  rand := fun n => if n = 1 ∨ n = 2 then 1 else 0

def sampleRequest : TransferRequest where
  dsts := [⟨1050000000, sampleAddress 1, false⟩, ⟨2000000000, sampleAddress 2, false⟩]
  ringSize := 5
  extraSize := 0
  subaddrAccount := 0
  subaddrIndices := []

/-- Two inputs pay the first destination in full and make the transaction heavy. What the rounding
takes off the first destination goes to the second one. -/
theorem sampleRequest_not_paid :
    ∃ ptxs, createTransactions2 (sampleWallet false 1500) sampleRequest 5 10 = .ok ptxs ∧
      paidTo (sampleAddress 1) sampleRequest.dsts = 1050000000 ∧
      paidTo (sampleAddress 1) (ptxs.flatMap PendingTx.dests) = 1000000000 ∧
      paidTo (sampleAddress 2) sampleRequest.dsts = 2000000000 ∧
      paidTo (sampleAddress 2) (ptxs.flatMap PendingTx.dests) = 2050000000 := by
  have h : ((createTransactions2 (sampleWallet false 1500) sampleRequest 5 10).toOption.map
      fun ptxs => (paidTo (sampleAddress 1) (ptxs.flatMap PendingTx.dests),
        paidTo (sampleAddress 2) (ptxs.flatMap PendingTx.dests))) =
      some (1000000000, 2050000000) := by decide
  obtain ⟨ptxs, hptxs, hpaid⟩ := Option.map_eq_some_iff.mp h
  obtain ⟨hfirst, hsecond⟩ := Prod.mk.inj hpaid
  rcases hresult : createTransactions2 (sampleWallet false 1500) sampleRequest 5 10 with e | ptxs'
  · rw [hresult] at hptxs
    cases hptxs
  · rw [hresult] at hptxs
    cases hptxs
    exact ⟨_, rfl, by decide, hfirst, by decide, hsecond⟩

/-! ### A split that is rounded for its own address -/

instance (w : BuildWallet) (st : Building) : Decidable (OwnSplit w st) :=
  inferInstanceAs (Decidable (_ ∨ ∀ d ∈ st.dsts.head?, ∀ back ∈ st.tx.dsts.getLast?,
    _ ∨ _ ∨ back.addr = d.addr))

/-- Follows the loop, which can go one way only, and looks at the split of every transaction. -/
def splitsChecked (w : BuildWallet) (args : BuildArgs) (rounds : ℕ) : ℕ → Building → Bool
  | 0, _ => false
  | n + 1, st =>
      if continues w st = true then
        (match advance w args st with
          | .ok (some (true, tried)) => decide (OwnSplit w tried)
          | _ => true) &&
        match iterate w args rounds st with
          | .ok (some st') => splitsChecked w args rounds n st'
          | _ => true
      else true

theorem splitsOwn_of_checked {w : BuildWallet} {args : BuildArgs} {rounds n : ℕ}
    {start : Building} (h : splitsChecked w args rounds n start = true) :
    SplitsOwn w args rounds start := by
  intro st st' hreached hstep tried htried
  induction hreached using Relation.ReflTransGen.head_induction_on generalizing n with
  | refl =>
      cases n with
      | zero => cases h
      | succ n =>
          rw [splitsChecked, if_pos hstep.1, htried, Bool.and_eq_true] at h
          exact of_decide_eq_true h.1
  | head hfirst _ ih =>
      cases n with
      | zero => cases h
      | succ n =>
          rw [splitsChecked, if_pos hfirst.1, hfirst.2, Bool.and_eq_true] at h
          exact ih h.2

/-- Both destinations have one address. -/
def sameAddressRequest : TransferRequest :=
  { sampleRequest with
    dsts := [⟨1050000000, sampleAddress 1, false⟩, ⟨2000000000, sampleAddress 1, false⟩] }

def splitsCheckedFrom (w : BuildWallet) (req : TransferRequest) (rounds n : ℕ) : Bool :=
  match prepareBuilding w req with
  | .ok start => splitsChecked w (req.buildArgs w) rounds n start
  | .error _ => false

/-- The rounding takes 50000000 off the first payment, and the second one has them. -/
theorem sameAddressRequest_paid :
    ∃ ptxs, createTransactions2 (sampleWallet false 1500) sameAddressRequest 5 10 = .ok ptxs ∧
      ptxs.map (fun ptx => ptx.dests.map (·.amount)) =
        [[1000000000], [2050000000]] ∧
      ∀ a, paidTo a (ptxs.flatMap PendingTx.dests) = paidTo a sameAddressRequest.dsts := by
  have hchecked : splitsCheckedFrom (sampleWallet false 1500) sameAddressRequest 5 10 = true := by
    decide
  have hreturns : (createTransactions2 (sampleWallet false 1500) sameAddressRequest 5
      10).toOption.map (List.map fun ptx => ptx.dests.map (·.amount)) =
        some [[1000000000], [2050000000]] := by
    decide
  rw [splitsCheckedFrom] at hchecked
  rcases hstart : prepareBuilding (sampleWallet false 1500) sameAddressRequest with e | start
  · rw [hstart] at hchecked
    cases hchecked
  rw [hstart] at hchecked
  rcases hptxs : createTransactions2 (sampleWallet false 1500) sameAddressRequest 5 10 with
    e | ptxs
  · rw [hptxs] at hreturns
    cases hreturns
  rw [hptxs] at hreturns
  refine ⟨ptxs, rfl, Option.some.inj hreturns, ?_⟩
  exact (createTransactions2_pays hstart).1 (splitsOwn_of_checked hchecked) 10 ptxs hptxs

end XrCoin.Wallet

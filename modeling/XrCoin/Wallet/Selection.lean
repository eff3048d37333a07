import XrCoin.Wallet.CreateFrom
import XrCoin.Wallet.Payments

/-!
No output of the wallet is selected twice.

The two lists of unused indices and the selected ones have nothing in common. The preferred inputs
may be unused as well, but not selected: they are all taken before any other input.
-/

namespace XrCoin.Wallet

open Archive Cryptonote Data

/-! ### Which indices are where -/

def Building.selected (st : Building) : List ℕ :=
  st.done.flatMap TxDraft.selectedTransfers ++ st.tx.selectedTransfers

structure Building.Apart (st : Building) : Prop where
  unused : (st.selected ++ (st.unusedTransfersIndices ++ st.unusedDustIndices)).Nodup
  preferred : (st.selected ++ st.preferredInputs).Nodup

structure SameIndices (st st' : Building) : Prop where
  selected : st'.selected = st.selected
  transfers : st'.unusedTransfersIndices = st.unusedTransfersIndices
  dust : st'.unusedDustIndices = st.unusedDustIndices
  preferred : st'.preferredInputs = st.preferredInputs

namespace SameIndices

theorem refl (st : Building) : SameIndices st st := ⟨rfl, rfl, rfl, rfl⟩

theorem trans {st₁ st₂ st₃ : Building} (h₁ : SameIndices st₁ st₂) (h₂ : SameIndices st₂ st₃) :
    SameIndices st₁ st₃ :=
  ⟨h₂.selected.trans h₁.selected, h₂.transfers.trans h₁.transfers, h₂.dust.trans h₁.dust,
    h₂.preferred.trans h₁.preferred⟩

theorem apart {st st' : Building} (h : SameIndices st st') (hst : st.Apart) : st'.Apart := by
  constructor
  · rw [h.selected, h.transfers, h.dust]
    exact hst.unused
  · rw [h.selected, h.preferred]
    exact hst.preferred

end SameIndices

variable {w : BuildWallet} {args : BuildArgs}

/-! ### Paying and trying -/

theorem addFirst_indices {st st' : Building} {d : TxDestinationEntry} {amount : UInt64}
    (h : st.addFirst w d amount = .ok st') : SameIndices st st' := by
  obtain ⟨dsts, -, h⟩ := bind_eq_ok.mp h
  cases h
  exact ⟨rfl, rfl, rfl, rfl⟩

theorem payFully_indices {rounds : ℕ} {st st' : Building} {available available' : UInt64}
    (h : payFully w args rounds st available = .ok (st', available')) : SameIndices st st' := by
  induction rounds generalizing st available with
  | zero =>
      cases h
      exact .refl _
  | succ rounds ih =>
      rw [payFully] at h
      split at h
      · cases h
        exact .refl _
      · split at h
        · obtain ⟨st₁, hadd, h⟩ := bind_eq_ok.mp h
          have hrest := ih h
          exact (addFirst_indices hadd).trans
            ⟨hrest.selected, hrest.transfers, hrest.dust, hrest.preferred⟩
        · cases h
          exact .refl _

theorem payPartially_indices {st st' : Building} {available : UInt64}
    (h : payPartially w args st available = .ok st') : SameIndices st st' := by
  rw [payPartially.eq_def] at h
  split at h
  · cases h
    exact .refl _
  · split at h
    · obtain ⟨st₁, hadd, h⟩ := bind_eq_ok.mp h
      cases h
      have hsame := addFirst_indices hadd
      exact ⟨hsame.selected, hsame.transfers, hsame.dust, hsame.preferred⟩
    · cases h
      exact .refl _

theorem payWith_indices {st st' : Building} {available : UInt64}
    (h : payWith w args st available = .ok st') : SameIndices st st' := by
  rw [payWith] at h
  split at h
  · cases h
    exact ⟨rfl, rfl, rfl, rfl⟩
  · obtain ⟨⟨st₁, rest⟩, hfully, h⟩ := bind_eq_ok.mp h
    exact (payFully_indices hfully).trans (payPartially_indices h)

theorem roundSplit_indices {st st' : Building} (h : roundSplit w st = .ok st') :
    SameIndices st st' := by
  rw [roundSplit.eq_def] at h
  split at h
  · cases h
    exact .refl st
  · split at h
    · cases h
      exact .refl st
    · obtain ⟨back, -, h⟩ := bind_eq_ok.mp h
      split at h
      · obtain ⟨_, -, h⟩ := bind_eq_ok.mp h
        cases h
        exact ⟨rfl, rfl, rfl, rfl⟩
      · cases h
        exact .refl st

theorem takeFee_indices {t t' : Trial} (h : takeFee t = .ok t') : SameIndices t.st t'.st := by
  rw [takeFee.eq_def] at h
  split at h
  · cases h
    exact .refl _
  · split at h
    · obtain ⟨i, -, h⟩ := bind_eq_ok.mp h
      obtain ⟨paid, -, h⟩ := bind_eq_ok.mp h
      split at h <;> cases h <;> exact ⟨rfl, rfl, rfl, rfl⟩
    · cases h
      exact .refl _

theorem commit_indices (st : Building) : SameIndices st st.commit := by
  rw [Building.commit]
  split
  · exact ⟨rfl, rfl, rfl, rfl⟩
  · refine ⟨?_, rfl, rfl, rfl⟩
    simp [Building.selected, TxDraft.empty]

theorem tryTx_indices {rounds : ℕ} {st st' : Building} (h : tryTx w args rounds st = .ok st') :
    SameIndices st st' := by
  obtain ⟨st₁, hround, h⟩ := bind_eq_ok.mp h
  apply (roundSplit_indices hround).trans
  simp only at h
  split at h
  · cases h
    exact ⟨rfl, rfl, rfl, rfl⟩
  obtain ⟨ptx, -, h⟩ := bind_eq_ok.mp h
  obtain ⟨t, htake, h⟩ := bind_eq_ok.mp h
  have htaken := takeFee_indices htake
  split at h
  · cases h
    exact ⟨htaken.selected, htaken.transfers, htaken.dust, htaken.preferred⟩
  · obtain ⟨t', hraise, h⟩ := bind_eq_ok.mp h
    cases h
    obtain ⟨fee, calls, hraised⟩ := raiseFee_eq_ok hraise
    have hcommit := commit_indices t'.st
    rw [hraised] at hcommit ⊢
    exact ⟨hcommit.selected.trans htaken.selected, hcommit.transfers.trans htaken.transfers,
      hcommit.dust.trans htaken.dust, hcommit.preferred.trans htaken.preferred⟩

/-! ### Picking -/

/-- An index that was unused in one of the lists is selected. -/
theorem apart_of_perm {selected unused unused' : List ℕ} {idx : ℕ}
    (h : (selected ++ unused).Nodup) (hperm : unused.Perm (idx :: unused')) :
    (selected ++ [idx] ++ unused').Nodup := by
  rw [List.append_assoc, List.singleton_append]
  exact (hperm.append_left selected).nodup_iff.mp h

/-- An index that is not selected is taken out of the unused ones, wherever it is. -/
theorem apart_of_pop {selected transfers dust : List ℕ} {idx : ℕ}
    (h : (selected ++ (transfers ++ dust)).Nodup) (hidx : idx ∉ selected) :
    (selected ++ [idx] ++ (popIfPresent transfers idx ++ popIfPresent dust idx)).Nodup := by
  have hperm : (popIfPresent transfers idx ++ popIfPresent dust idx).Perm
      (transfers.erase idx ++ dust.erase idx) :=
    (popIfPresent_perm transfers idx).append (popIfPresent_perm dust idx)
  rw [(hperm.append_left _).nodup_iff]
  obtain ⟨hselected, hunused, hdisjoint⟩ := List.nodup_append.mp h
  obtain ⟨htransfers, hdust, hapart⟩ := List.nodup_append.mp hunused
  have hsub : (transfers.erase idx ++ dust.erase idx).Sublist (transfers ++ dust) :=
    List.erase_sublist.append List.erase_sublist
  have hnot : idx ∉ transfers.erase idx ++ dust.erase idx := by
    rw [List.mem_append, htransfers.mem_erase_iff, hdust.mem_erase_iff]
    simp
  rw [List.append_assoc, List.singleton_append, List.nodup_append]
  refine ⟨hselected, List.nodup_cons.mpr ⟨hnot, hsub.nodup hunused⟩, ?_⟩
  intro a ha b hb
  rcases List.mem_cons.mp hb with rfl | hb
  · rintro rfl
    exact hidx ha
  · exact hdisjoint a ha b (hsub.subset hb)

theorem pickInput_apart {st st' : Building} {idx : ℕ}
    (h : pickInput w st = .ok (some (idx, st'))) (hst : st.Apart) : (st'.select idx).Apart := by
  have hselect : ∀ st₁ : Building, st₁.done = st.done → st₁.tx = st.tx →
      (st₁.select idx).selected = st.selected ++ [idx] := by
    intro st₁ hdone htx
    simp [Building.select, Building.selected, hdone, htx]
  obtain ⟨rest, hrest, rfl⟩ | ⟨hnone, hother⟩ := pickInput_some h
  · -- the last one of the preferred inputs
    have hpreferred := hst.preferred
    rw [hrest] at hpreferred
    have hperm : (rest ++ [idx]).Perm (idx :: rest) := List.perm_append_comm
    have hidx : idx ∉ st.selected := by
      intro hmem
      exact (List.nodup_append.mp hpreferred).2.2 idx hmem idx (by simp) rfl
    constructor
    · rw [hselect]
      · exact apart_of_pop hst.unused hidx
      · rfl
      · rfl
    · rw [hselect]
      · exact apart_of_perm hpreferred hperm
      · rfl
      · rfl
  -- no preferred input is left
  have hempty : ∀ st₁ : Building, st₁.preferredInputs = st.preferredInputs →
      st₁.done = st.done → st₁.tx = st.tx →
      (st.selected ++ [idx] ++ (st₁.unusedTransfersIndices ++ st₁.unusedDustIndices)).Nodup →
      (st₁.select idx).Apart := by
    intro st₁ hpreferred hdone htx hunused
    have hnone' : (st₁.select idx).preferredInputs = [] := hpreferred.trans hnone
    constructor
    · rw [hselect st₁ hdone htx]
      exact hunused
    · rw [hselect st₁ hdone htx, hnone', List.append_nil]
      exact (List.nodup_append.mp hunused).1
  obtain ⟨hmem, rfl⟩ | ⟨rest, hrest, rfl⟩ | ⟨rest, hrest, rfl⟩ := hother
  · refine hempty _ (by rfl) (by rfl) (by rfl) (apart_of_pop hst.unused ?_)
    intro hselected
    have hmem' : idx ∈ st.unusedTransfersIndices ++ st.unusedDustIndices :=
      List.perm_append_comm.mem_iff.mp hmem
    exact (List.nodup_append.mp hst.unused).2.2 idx hselected idx hmem' rfl
  · have hperm := (hrest.append_left st.unusedTransfersIndices).trans List.perm_middle
    exact hempty _ (by rfl) (by rfl) (by rfl) (apart_of_perm hst.unused hperm)
  · have hperm := hrest.append_right st.unusedDustIndices
    exact hempty _ (by rfl) (by rfl) (by rfl) (apart_of_perm hst.unused hperm)

/-! ### The whole run -/

theorem advance_apart {st st' : Building} {b : Bool}
    (h : advance w args st = .ok (some (b, st'))) (hst : st.Apart) : st'.Apart := by
  obtain ⟨idx, st₁, td, hpick, -, hpay, -⟩ := advance_some h
  exact (payWith_indices hpay).apart (pickInput_apart hpick hst)

theorem reached_apart {rounds : ℕ} {start st : Building}
    (h : Relation.ReflTransGen (LoopStep w args rounds) start st) (hstart : start.Apart) :
    st.Apart := by
  induction h with
  | refl => exact hstart
  | tail _ hstep ih =>
      obtain ⟨st₁, hadvance, htry⟩ | hadvance := iterate_some hstep.2
      · exact (tryTx_indices htry).apart (advance_apart hadvance ih)
      · exact advance_apart hadvance ih

/-! ### In front of the loop -/

theorem snd_of_mem_drop_zipIdx {α : Type} {l : List α} {k : ℕ} {q : α × ℕ}
    (h : q ∈ l.zipIdx.drop k) : k ≤ q.2 := by
  obtain ⟨n, hn, rfl⟩ := List.mem_iff_getElem.mp h
  rw [List.getElem_drop, List.getElem_zipIdx]
  simp only
  omega

theorem preferredPair_nodup (neededMoney : UInt64) (subaddrAccount : UInt32)
    (subaddrIndices : List UInt32) :
    (preferredPair w neededMoney subaddrAccount subaddrIndices).2.Nodup := by
  rw [preferredPair]
  apply List.foldlRecOn (motive := fun best : ℕ × List ℕ => best.2.Nodup)
  · exact List.nodup_nil
  · intro best hbest pair hpair
    split
    · -- the second of a pair stands behind the first
      obtain ⟨first, -, hpair⟩ := List.mem_flatMap.mp hpair
      split at hpair
      · obtain ⟨second, hsecond, hpair⟩ := List.mem_filterMap.mp hpair
        split at hpair
        · cases hpair
          have hlt := snd_of_mem_drop_zipIdx hsecond
          rw [List.nodup_cons, List.mem_singleton]
          exact ⟨by simp only; omega, List.nodup_singleton _⟩
        · cases hpair
      · cases hpair
    · exact hbest

theorem preferredInputs_nodup (req : TransferRequest) (neededMoney : UInt64) :
    (preferredInputs w req neededMoney).Nodup := by
  rw [preferredInputs]
  split
  · rw [pickPreferredRctInputs]
    split
    · exact List.nodup_singleton _
    · exact preferredPair_nodup ..
  · exact List.nodup_nil

theorem indicesOf_nodup (p : TransferDetails → Bool) : (indicesOf w p).Nodup := by
  have hsub : (indicesOf w p).Sublist (w.transfers.zipIdx.map Prod.snd) :=
    List.filter_sublist.map _
  apply hsub.nodup
  rw [List.zipIdx_map_snd]
  exact List.nodup_range'

theorem of_mem_indicesOf {p : TransferDetails → Bool} {i : ℕ} (h : i ∈ indicesOf w p) :
    ∃ td, w.transfers[i]? = some td ∧ p td = true := by
  obtain ⟨⟨td, j⟩, hmem, rfl⟩ := List.mem_map.mp h
  obtain ⟨hmem, hp⟩ := List.mem_filter.mp hmem
  exact ⟨td, (List.mk_mem_zipIdx_iff_getElem?).mp hmem, hp⟩

theorem prepareBuilding_apart {req : TransferRequest} {start : Building}
    (h : prepareBuilding w req = .ok start) : start.Apart := by
  obtain ⟨neededMoney, threshold, -, rfl⟩ := prepareBuilding_eq_ok h
  constructor
  · show ([] ++ (indicesOf w (fun td => spendable w req threshold td && isNondust td) ++
      indicesOf w fun td => spendable w req threshold td && !isNondust td)).Nodup
    rw [List.nil_append, List.nodup_append]
    refine ⟨indicesOf_nodup _, indicesOf_nodup _, ?_⟩
    rintro i htransfers _ hdust rfl
    -- an output is dust or not
    obtain ⟨td, htd, hnondust⟩ := of_mem_indicesOf htransfers
    obtain ⟨td', htd', hdust⟩ := of_mem_indicesOf hdust
    rw [htd] at htd'
    cases htd'
    simp only [Bool.and_eq_true, Bool.not_eq_true'] at hnondust hdust
    rw [hnondust.2] at hdust
    exact Bool.noConfusion hdust.2
  · exact preferredInputs_nodup req neededMoney

/-! ### What is returned -/

theorem selected_of_drafts {txes : List TxDraft} {ptxs : List PendingTx}
    (h : List.Forall₂ (fun tx (ptx : PendingTx) => ptx.For w.transfers tx.dsts tx.selectedTransfers)
      txes ptxs) :
    (ptxs.flatMap PendingTx.selectedTransfers).Perm (txes.flatMap TxDraft.selectedTransfers) ∧
      ∀ ptx ∈ ptxs, ptx.Conserves w.transfers := by
  induction h with
  | nil => exact ⟨.refl _, by simp⟩
  | cons hfor _ ih =>
      rw [List.flatMap_cons, List.flatMap_cons]
      refine ⟨hfor.selected.append ih.1, ?_⟩
      intro ptx hptx
      rcases List.mem_cons.mp hptx with rfl | hptx
      · exact hfor.conserves
      · exact ih.2 ptx hptx

theorem createTransactions2_apart {req : TransferRequest} {rounds inputs : ℕ}
    {ptxs : List PendingTx} (h : createTransactions2 w req rounds inputs = .ok ptxs) :
    (ptxs.flatMap PendingTx.selectedTransfers).Nodup ∧
      ∀ ptx ∈ ptxs, ptx.Conserves w.transfers := by
  obtain ⟨start, st, hstart, hreached, -, hptxs⟩ := createTransactions2_eq_ok h
  have hapart := reached_apart hreached (prepareBuilding_apart hstart)
  obtain ⟨hselected, hconserves⟩ := selected_of_drafts hptxs
  refine ⟨hselected.nodup_iff.mpr ?_, hconserves⟩
  rw [List.flatMap_append, List.flatMap_singleton]
  exact (List.nodup_append.mp hapart.unused).1

theorem createTransactionsFrom_selected {args : SweepArgs}
    {unusedTransfersIndices unusedDustIndices : List ℕ} {rounds : ℕ} {ptxs : List PendingTx}
    (h : createTransactionsFrom w args unusedTransfersIndices unusedDustIndices rounds = .ok ptxs) :
    (ptxs.flatMap PendingTx.selectedTransfers).Perm
        (unusedTransfersIndices ++ unusedDustIndices) ∧
      ∀ ptx ∈ ptxs, ptx.Conserves w.transfers := by
  rw [createTransactionsFrom] at h
  split at h
  · rename_i hempty
    cases h
    rw [hempty.1, hempty.2]
    exact ⟨.refl _, by simp⟩
  · obtain ⟨st, hloop, h⟩ := bind_eq_ok.mp h
    have hperm := sweepLoop_selected hloop (by simp)
    obtain ⟨hselected, hconserves⟩ := selected_of_drafts (constructAll_spec h)
    refine ⟨hselected.trans ?_, hconserves⟩
    rw [List.flatMap_append, List.flatMap_singleton]
    exact hperm

/-- No run selects an index twice, and every transaction spends what it pays. A sweep selects what
it was given. -/
theorem createTransactions_select (w : BuildWallet) :
    (∀ req rounds inputs ptxs, createTransactions2 w req rounds inputs = .ok ptxs →
      (ptxs.flatMap PendingTx.selectedTransfers).Nodup ∧
        ∀ ptx ∈ ptxs, ptx.Conserves w.transfers) ∧
    ∀ args unusedTransfersIndices unusedDustIndices rounds ptxs,
      createTransactionsFrom w args unusedTransfersIndices unusedDustIndices rounds = .ok ptxs →
      (ptxs.flatMap PendingTx.selectedTransfers).Perm
          (unusedTransfersIndices ++ unusedDustIndices) ∧
        ((unusedTransfersIndices ++ unusedDustIndices).Nodup →
          (ptxs.flatMap PendingTx.selectedTransfers).Nodup) ∧
        ∀ ptx ∈ ptxs, ptx.Conserves w.transfers := by
  refine ⟨fun req rounds inputs ptxs h => createTransactions2_apart h, ?_⟩
  intro args unusedTransfersIndices unusedDustIndices rounds ptxs h
  obtain ⟨hselected, hconserves⟩ := createTransactionsFrom_selected h
  exact ⟨hselected, hselected.nodup_iff.mpr, hconserves⟩

/-- Two destinations paid by two transactions, and four outputs swept by two. -/
theorem createTransactions_select_sample :
    ∃ ptxs swept, createTransactions2 (sampleWallet true 2700) sampleRequest 5 10 = .ok ptxs ∧
      createTransactionsFrom (sampleWallet true 2700) ⟨⟨4, 0⟩, sampleAddress 7, false⟩ [0, 1] [2, 3] 5 =
        .ok swept ∧
      ptxs.length = 2 ∧ swept.length = 2 ∧
      (ptxs.flatMap PendingTx.selectedTransfers).Nodup ∧
      (swept.flatMap PendingTx.selectedTransfers).Perm [0, 1, 2, 3] ∧
      (swept.flatMap PendingTx.selectedTransfers).Nodup ∧
      ∀ ptx ∈ ptxs ++ swept, ptx.Conserves sampleTransfers := by
  have hpays : (createTransactions2 (sampleWallet true 2700) sampleRequest 5 10).toOption.map
      List.length = some 2 := by
    decide
  have hsweeps : (createTransactionsFrom (sampleWallet true 2700) ⟨⟨4, 0⟩, sampleAddress 7, false⟩
      [0, 1] [2, 3] 5).toOption.map List.length = some 2 := by
    decide
  rcases hptxs : createTransactions2 (sampleWallet true 2700) sampleRequest 5 10 with e | ptxs
  · rw [hptxs] at hpays
    cases hpays
  rcases hswept : createTransactionsFrom (sampleWallet true 2700) ⟨⟨4, 0⟩, sampleAddress 7, false⟩
      [0, 1] [2, 3] 5 with e | swept
  · rw [hswept] at hsweeps
    cases hsweeps
  rw [hptxs] at hpays
  rw [hswept] at hsweeps
  obtain ⟨hnodup, hconserves⟩ :=
    (createTransactions_select (sampleWallet true 2700)).1 _ _ _ _ hptxs
  obtain ⟨hperm, hnodup', hconserves'⟩ :=
    (createTransactions_select (sampleWallet true 2700)).2 _ _ _ _ _ hswept
  refine ⟨ptxs, swept, rfl, rfl, Option.some.inj hpays, Option.some.inj hsweeps, hnodup, hperm,
    hnodup' (by decide), ?_⟩
  intro ptx hptx
  rcases List.mem_append.mp hptx with hptx | hptx
  · exact hconserves ptx hptx
  · exact hconserves' ptx hptx

end XrCoin.Wallet

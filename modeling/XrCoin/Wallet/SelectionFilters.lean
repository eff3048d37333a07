import Mathlib
import XrCoin.Wallet.Selection

/-!
The filters that the settings of a wallet put on the outputs it spends.

The two lists of unused outputs are gathered with all filters. The preferred inputs are looked for
among all outputs: the one that pays alone is not asked whether its key image is partial, of a pair
only the first is asked, and the bounds on the amounts are asked of none.
-/

namespace XrCoin.Wallet

open Archive Cryptonote Data

/-! ### The first of the least -/

section Least

variable {α : Type} (f : α → ℕ) (bound : ℕ)

/-- The first of the elements with the least value, which is below the bound. -/
def FirstLeast (l : List α) (a : α) : Prop :=
  f a < bound ∧ ∃ front back, l = front ++ a :: back ∧ (∀ b ∈ front, f a < f b) ∧
    ∀ b ∈ back, f a ≤ f b

theorem foldl_firstLeast (l : List α) :
    ∃ best : ℕ × Option α, l.foldl (fun best a => if f a < best.1 then (f a, some a) else best)
        (bound, none) = best ∧ best.1 ≤ bound ∧ (∀ b ∈ l, best.1 ≤ f b) ∧
      (best.2 = none → best.1 = bound) ∧
      ∀ a, best.2 = some a → best.1 = f a ∧ FirstLeast f bound l a := by
  induction l using List.reverseRecOn with
  | nil => exact ⟨_, rfl, le_refl _, by simp, fun _ => rfl, by simp⟩
  | append_singleton l a ih =>
      obtain ⟨best, hbest, hbound, hleast, hnone, hsome⟩ := ih
      rw [List.foldl_append, hbest, List.foldl_cons, List.foldl_nil]
      by_cases hless : f a < best.1
      · rw [if_pos hless]
        refine ⟨_, rfl, (hless.trans_le hbound).le, ?_, by simp, ?_⟩
        · intro b hb
          rcases List.mem_append.mp hb with hb | hb
          · exact (hless.trans_le (hleast b hb)).le
          · rw [List.mem_singleton.mp hb]
        · intro a' ha'
          cases ha'
          exact ⟨rfl, hless.trans_le hbound, l, [], rfl,
            fun b hb => hless.trans_le (hleast b hb), by simp⟩
      · rw [if_neg hless]
        refine ⟨_, rfl, hbound, ?_, hnone, ?_⟩
        · intro b hb
          rcases List.mem_append.mp hb with hb | hb
          · exact hleast b hb
          · rw [List.mem_singleton.mp hb]
            exact not_lt.mp hless
        · intro a' ha'
          obtain ⟨heq, hlt, front, back, rfl, hfront, hback⟩ := hsome a' ha'
          refine ⟨heq, hlt, front, back ++ [a], by simp, hfront, ?_⟩
          intro b hb
          rcases List.mem_append.mp hb with hb | hb
          · exact hback b hb
          · rw [List.mem_singleton.mp hb, ← heq]
            exact not_lt.mp hless

theorem FirstLeast.unique {l : List α} {a a' : α} (h : FirstLeast f bound l a)
    (h' : FirstLeast f bound l a') : a = a' := by
  obtain ⟨-, front, back, hl, hfront, hback⟩ := h
  obtain ⟨-, front', back', hl', hfront', hback'⟩ := h'
  have hmem (x : α) (front back : List α) (h : l = front ++ x :: back) : x ∈ l := by
    rw [h]
    exact List.mem_append_right _ List.mem_cons_self
  rcases List.append_eq_append_iff.mp (hl.symm.trans hl') with ⟨mid, hmid, hrest⟩ | ⟨mid, hmid, hrest⟩
  · cases mid with
    | nil => exact (List.cons.inj hrest).1
    | cons x mid =>
        obtain ⟨rfl, rfl⟩ := List.cons.inj hrest
        -- the first stands in front of the other, and the other behind it
        have hlt : f a' < f a := hfront' a (by rw [hmid]; simp)
        exact absurd (hback a' (by simp)) (not_le.mpr hlt)
  · cases mid with
    | nil => exact (List.cons.inj hrest).1.symm
    | cons x mid =>
        obtain ⟨rfl, rfl⟩ := List.cons.inj hrest
        have hlt : f a < f a' := hfront a' (by rw [hmid]; simp)
        exact absurd (hback' a (by simp)) (not_le.mpr hlt)

end Least

/-! ### The filters -/

section Filters

variable (w : BuildWallet) (req : TransferRequest)

structure Respects (threshold : UInt64) (td : TransferDetails) : Prop where
  unspent : td.spent = false
  unlocked : w.isTransferUnlocked td = true
  whole : td.keyImagePartial = false
  account : td.subaddrIndex.major = req.subaddrAccount
  index : td.subaddrIndex.minor ∈ req.indices w
  below : w.ignoreOutputsBelow ≤ td.amount
  above : td.amount ≤ w.ignoreOutputsAbove
  fractional : w.ignoreFractionalOutputs = true → threshold ≤ td.amount

/-- The output with an index is there, and respects the filters. -/
def RespectsAt (threshold : UInt64) (i : ℕ) : Prop :=
  ∃ td, w.transfers[i]? = some td ∧ Respects w req threshold td

def PaysAlone (needed : UInt64) (td : TransferDetails) : Prop :=
  (rctInput w req.subaddrAccount (req.indices w) td && needed ≤ td.amount) = true

/-- The pairs of outputs that can pay, with their relatedness: by the first one, then by the
second. -/
def payingPairs (needed : UInt64) : List (ℕ × ℕ × ℕ) :=
  w.transfers.zipIdx.flatMap fun first =>
    if rctInput w req.subaddrAccount (req.indices w) first.1 && !first.1.keyImagePartial then
      (w.transfers.zipIdx.drop (first.2 + 1)).filterMap fun second =>
        if secondInput w needed first.1 second.1 then
          some (first.2, second.2, getOutputRelatedness first.1 second.1)
        else none
    else []

/-- The outputs that a confidential payment prefers respect the filters: the first one that pays
alone, or else the first of the least related pairs. -/
def PreferredRespect (needed threshold : UInt64) : Prop :=
  w.useRct = true →
    (∀ (i : ℕ) (td : TransferDetails), w.transfers[i]? = some td → PaysAlone w req needed td →
      (∀ j < i, ∀ td', w.transfers[j]? = some td' → ¬PaysAlone w req needed td') →
        Respects w req threshold td) ∧
    ((∀ td ∈ w.transfers, ¬PaysAlone w req needed td) → ∀ pair,
      FirstLeast (fun pair : ℕ × ℕ × ℕ => pair.2.2) 10 (payingPairs w req needed) pair →
        RespectsAt w req threshold pair.1 ∧ RespectsAt w req threshold pair.2.1)

def preferredMoney (neededMoney : UInt64) : UInt64 :=
  neededMoney + calculateFee w (estimateRctTxSize 2 (req.buildArgs w).fakeOutsCount 2
    req.extraSize w.bulletproof)

variable {w req} {threshold : UInt64}

theorem respects_of_spendable {td : TransferDetails} (h : spendable w req threshold td = true) :
    Respects w req threshold td := by
  simp only [spendable, Bool.and_eq_true, Bool.not_eq_true', Bool.and_eq_false_iff,
    decide_eq_true_eq, decide_eq_false_iff_not] at h
  obtain ⟨⟨⟨⟨⟨⟨⟨⟨hfraction, habove⟩, hbelow⟩, hspent⟩, hpartial⟩, -⟩, hunlocked⟩, hmajor⟩, hminor⟩ := h
  refine ⟨hspent, hunlocked, hpartial, hmajor, hminor, hbelow, habove, fun hignore => ?_⟩
  rcases hfraction with hoff | hnot
  · rw [hoff] at hignore
    cases hignore
  · exact UInt64.not_lt.mp hnot

/-! ### The preferred inputs -/

theorem preferredPair_eq (needed : UInt64) :
    (preferredPair w needed req.subaddrAccount (req.indices w)).2 =
      match ((payingPairs w req needed).foldl
        (fun best pair => if pair.2.2 < best.1 then (pair.2.2, some pair) else best)
          ((10 : ℕ), (none : Option (ℕ × ℕ × ℕ)))).2 with
      | none => []
      | some pair => [pair.1, pair.2.1] := by
  rw [preferredPair, payingPairs]
  generalize (w.transfers.zipIdx.flatMap fun first => _) = pairs
  -- the loop keeps the two indices, or nothing
  have hkeeps : ∀ best : ℕ × Option (ℕ × ℕ × ℕ),
      pairs.foldl (fun best pair => if pair.2.2 < best.1 then (pair.2.2, [pair.1, pair.2.1]) else best)
        (best.1, match best.2 with | none => [] | some pair => [pair.1, pair.2.1]) =
      ((pairs.foldl (fun best pair => if pair.2.2 < best.1 then (pair.2.2, some pair) else best)
        best).1,
        match (pairs.foldl (fun best pair => if pair.2.2 < best.1 then (pair.2.2, some pair)
          else best) best).2 with
        | none => []
        | some pair => [pair.1, pair.2.1]) := by
    induction pairs with
    | nil => exact fun _ => rfl
    | cons pair pairs ih =>
        intro best
        rw [List.foldl_cons, List.foldl_cons]
        by_cases hless : pair.2.2 < best.1
        · rw [if_pos hless, if_pos hless]
          exact ih (pair.2.2, some pair)
        · rw [if_neg hless, if_neg hless]
          exact ih best
  rw [hkeeps (10, none)]

theorem zipIdx_find_some {p : TransferDetails → Bool} {q : TransferDetails × ℕ}
    (h : w.transfers.zipIdx.find? (fun q => p q.1) = some q) :
    w.transfers[q.2]? = some q.1 ∧ p q.1 = true ∧
      ∀ j < q.2, ∀ td, w.transfers[j]? = some td → ¬p td = true := by
  obtain ⟨hp, i, hi, hq, hbefore⟩ := List.find?_eq_some_iff_getElem.mp h
  rw [List.getElem_zipIdx] at hq
  subst hq
  rw [List.length_zipIdx] at hi
  refine ⟨by simp [List.getElem?_eq_getElem hi], hp, ?_⟩
  intro j hj td htd hpj
  have hj' : j < i := by simpa using hj
  have hnot := hbefore j hj'
  obtain ⟨hlt, rfl⟩ := List.getElem?_eq_some_iff.mp htd
  rw [List.getElem_zipIdx, hpj] at hnot
  cases hnot

theorem preferredInputs_respect_iff (neededMoney : UInt64) :
    (∀ i ∈ preferredInputs w req neededMoney, RespectsAt w req threshold i) ↔
      PreferredRespect w req (preferredMoney w req neededMoney) threshold := by
  rw [preferredInputs, PreferredRespect, ← preferredMoney]
  by_cases hrct : w.useRct = true
  case neg => simp [hrct]
  rw [if_pos hrct, pickPreferredRctInputs]
  cases hfound : w.transfers.zipIdx.find? (fun p => rctInput w req.subaddrAccount (req.indices w) p.1 &&
      preferredMoney w req neededMoney ≤ p.1.amount) with
  | some q =>
      obtain ⟨htd, hpays, hbefore⟩ := @zipIdx_find_some w
        (fun td => rctInput w req.subaddrAccount (req.indices w) td &&
          preferredMoney w req neededMoney ≤ td.amount) q hfound
      simp only [List.mem_singleton, forall_eq]
      constructor
      · rintro ⟨td, htd', hrespects⟩ -
        rw [htd] at htd'
        obtain rfl := Option.some.inj htd'
        refine ⟨fun i td htdi hpaysi hbeforei => ?_, fun hnone => ?_⟩
        · have hindex : i = q.2 := by
            rcases Nat.lt_trichotomy i q.2 with hlt | heq | hlt
            · exact absurd hpaysi (hbefore i hlt td htdi)
            · exact heq
            · exact absurd hpays (hbeforei q.2 hlt q.1 htd)
          rw [hindex, htd] at htdi
          exact Option.some.inj htdi ▸ hrespects
        · exact absurd hpays (hnone q.1 (List.mem_of_getElem? htd))
      · intro h
        exact ⟨q.1, htd, (h hrct).1 q.2 q.1 htd hpays hbefore⟩
  | none =>
      have hnone : ∀ td ∈ w.transfers, ¬PaysAlone w req (preferredMoney w req neededMoney) td := by
        intro td htd
        obtain ⟨i, hi⟩ := List.mem_iff_getElem?.mp htd
        exact List.find?_eq_none.mp hfound (td, i) (List.mk_mem_zipIdx_iff_getElem?.mpr hi)
      simp only
      rw [preferredPair_eq]
      obtain ⟨best, hbest, -, hbelow, hbound, hleast⟩ := foldl_firstLeast
        (fun pair : ℕ × ℕ × ℕ => pair.2.2) 10
          (payingPairs w req (preferredMoney w req neededMoney))
      obtain ⟨value, chosen⟩ := best
      rw [hbest]
      cases chosen with
      | none =>
          simp only [List.not_mem_nil, false_imp_iff, implies_true, true_iff]
          intro _
          refine ⟨fun i td htd hpays _ => absurd hpays (hnone td (List.mem_of_getElem? htd)), ?_⟩
          -- no pair is below the bound
          rintro _ pair ⟨hlt, front, back, hpairs, -⟩
          have hge := hbelow pair (by rw [hpairs]; simp)
          rw [hbound rfl] at hge
          exact absurd hlt (not_lt.mpr hge)
      | some pair =>
          have hfirst := (hleast pair rfl).2
          simp only [List.mem_cons, List.not_mem_nil, or_false, forall_eq_or_imp, forall_eq]
          constructor
          · intro hrespect _
            refine ⟨fun i td htd hpays _ => absurd hpays (hnone td (List.mem_of_getElem? htd)), ?_⟩
            intro _ pair' hpair'
            rwa [FirstLeast.unique _ _ hpair' hfirst]
          · intro h
            exact (h hrct).2 hnone pair hfirst

/-! ### The loop -/

/-- All indices are those of outputs that respect the filters. -/
def Building.Respect (w : BuildWallet) (req : TransferRequest) (threshold : UInt64)
    (st : Building) : Prop :=
  ∀ i, i ∈ st.selected ∨ i ∈ st.unusedTransfersIndices ∨ i ∈ st.unusedDustIndices ∨
    i ∈ st.preferredInputs → RespectsAt w req threshold i

theorem SameIndices.respect {st st' : Building} (h : SameIndices st st')
    (hst : st.Respect w req threshold) : st'.Respect w req threshold := by
  intro i
  rw [h.selected, h.transfers, h.dust, h.preferred]
  exact hst i

theorem mem_selected_select {st st₁ : Building} (hdone : st₁.done = st.done)
    (htx : st₁.tx = st.tx) (idx i : ℕ) :
    i ∈ (st₁.select idx).selected ↔ i ∈ st.selected ∨ i = idx := by
  simp [Building.select, Building.selected, hdone, htx, or_assoc]

theorem use_transfers_subset {st : Building} {idx i : ℕ}
    (h : i ∈ (st.use idx).unusedTransfersIndices) : i ∈ st.unusedTransfersIndices :=
  List.mem_of_mem_erase ((popIfPresent_perm _ _).mem_iff.mp h)

theorem use_dust_subset {st : Building} {idx i : ℕ}
    (h : i ∈ (st.use idx).unusedDustIndices) : i ∈ st.unusedDustIndices :=
  List.mem_of_mem_erase ((popIfPresent_perm _ _).mem_iff.mp h)

/-- The input that is picked was preferred or unused, and no index comes anew. -/
structure PickedFrom (st : Building) (idx : ℕ) (st' : Building) : Prop where
  done : st'.done = st.done
  tx : st'.tx = st.tx
  source : idx ∈ st.unusedTransfersIndices ∨ idx ∈ st.unusedDustIndices ∨ idx ∈ st.preferredInputs
  transfers : ∀ i ∈ st'.unusedTransfersIndices, i ∈ st.unusedTransfersIndices
  dust : ∀ i ∈ st'.unusedDustIndices, i ∈ st.unusedDustIndices
  preferred : ∀ i, i ∈ st.preferredInputs ↔ i ∈ st'.preferredInputs ∨
    i = idx ∧ i ∈ st.preferredInputs

theorem pickInput_from {st st' : Building} {idx : ℕ}
    (h : pickInput w st = .ok (some (idx, st'))) : PickedFrom st idx st' := by
  obtain ⟨rest, hrest, rfl⟩ | ⟨hnone, hother⟩ := pickInput_some h
  · have hmem : idx ∈ st.preferredInputs := by
      rw [hrest]
      simp
    refine ⟨rfl, rfl, .inr (.inr hmem), fun i => use_transfers_subset, fun i => use_dust_subset, ?_⟩
    intro i
    constructor
    · intro hi
      have hi' := hi
      rw [hrest, List.mem_append, List.mem_singleton] at hi'
      exact hi'.imp_right fun heq => ⟨heq, hi⟩
    · rintro (hi | ⟨-, hi⟩)
      · rw [hrest]
        exact List.mem_append_left _ hi
      · exact hi
  have hpreferred : ∀ st₁ : Building, st₁.preferredInputs = st.preferredInputs →
      ∀ i, i ∈ st.preferredInputs ↔ i ∈ st₁.preferredInputs ∨ i = idx ∧ i ∈ st.preferredInputs := by
    intro st₁ heq i
    rw [heq, hnone]
    simp
  obtain ⟨hmem, rfl⟩ | ⟨rest, hrest, rfl⟩ | ⟨rest, hrest, rfl⟩ := hother
  · refine ⟨rfl, rfl, ?_, fun i => use_transfers_subset, fun i => use_dust_subset,
      hpreferred _ rfl⟩
    rcases List.mem_append.mp hmem with hdust | htransfers
    · exact .inr (.inl hdust)
    · exact .inl htransfers
  · exact ⟨rfl, rfl, .inr (.inl (hrest.mem_iff.mpr List.mem_cons_self)), fun _ => id,
      fun i hi => hrest.mem_iff.mpr (List.mem_cons_of_mem _ hi), hpreferred _ rfl⟩
  · exact ⟨rfl, rfl, .inl (hrest.mem_iff.mpr List.mem_cons_self),
      fun i hi => hrest.mem_iff.mpr (List.mem_cons_of_mem _ hi), fun _ => id, hpreferred _ rfl⟩

theorem pickInput_respect {st st' : Building} {idx : ℕ}
    (h : pickInput w st = .ok (some (idx, st'))) (hst : st.Respect w req threshold) :
    (st'.select idx).Respect w req threshold := by
  have hfrom := pickInput_from h
  rintro i (hi | hi | hi | hi)
  · rcases (mem_selected_select hfrom.done hfrom.tx idx i).mp hi with hi | rfl
    · exact hst i (.inl hi)
    · exact hst i (.inr hfrom.source)
  · exact hst i (.inr (.inl (hfrom.transfers i hi)))
  · exact hst i (.inr (.inr (.inl (hfrom.dust i hi))))
  · exact hst i (.inr (.inr (.inr ((hfrom.preferred i).mpr (.inl hi)))))

/-- Indices that are selected, or will be before any other one. -/
def Building.Holds (indices : List ℕ) (st : Building) : Prop :=
  ∀ i ∈ indices, i ∈ st.selected ∨ i ∈ st.preferredInputs

theorem SameIndices.holds {indices : List ℕ} {st st' : Building} (h : SameIndices st st')
    (hst : st.Holds indices) : st'.Holds indices := by
  intro i
  rw [h.selected, h.preferred]
  exact hst i

theorem pickInput_holds {indices : List ℕ} {st st' : Building} {idx : ℕ}
    (h : pickInput w st = .ok (some (idx, st'))) (hst : st.Holds indices) :
    (st'.select idx).Holds indices := by
  have hfrom := pickInput_from h
  intro i hi
  rw [mem_selected_select hfrom.done hfrom.tx]
  rcases hst i hi with hselected | hpreferred
  · exact .inl (.inl hselected)
  · rcases (hfrom.preferred i).mp hpreferred with hrest | ⟨heq, -⟩
    · exact .inr hrest
    · exact .inl (.inr heq)

theorem reached_keeps {P : Building → Prop}
    (hsame : ∀ {st st'}, SameIndices st st' → P st → P st')
    (hpick : ∀ {st st' idx}, pickInput w st = .ok (some (idx, st')) → P st → P (st'.select idx))
    {args : BuildArgs} {rounds : ℕ} {start st : Building}
    (h : Relation.ReflTransGen (LoopStep w args rounds) start st) (hstart : P start) : P st := by
  have hadvance {st st' : Building} {b : Bool} (h : advance w args st = .ok (some (b, st')))
      (hst : P st) : P st' := by
    obtain ⟨idx, st₁, td, hpicked, -, hpay, -⟩ := advance_some h
    exact hsame (payWith_indices hpay) (hpick hpicked hst)
  induction h with
  | refl => exact hstart
  | tail _ hstep ih =>
      obtain ⟨st₁, hadvanced, htry⟩ | hadvanced := iterate_some hstep.2
      · exact hsame (tryTx_indices htry) (hadvance hadvanced ih)
      · exact hadvance hadvanced ih

theorem pickInput_none_preferred {st : Building} (h : pickInput w st = .ok none) :
    st.preferredInputs = [] := by
  rw [pickInput] at h
  split at h
  · cases h
  rcases hback : popBack st.preferredInputs with _ | ⟨i, rest⟩
  · rw [popBack, Option.map_eq_none_iff] at hback
    exact List.getLast?_eq_none_iff.mp hback
  · simp only [hback] at h
    cases h

theorem iterate_none_preferred {args : BuildArgs} {rounds : ℕ} {st : Building}
    (h : iterate w args rounds st = .ok none) : st.preferredInputs = [] := by
  obtain ⟨advanced, hadvance, h⟩ := bind_eq_ok.mp h
  rcases advanced with _ | ⟨_ | _, st₁⟩
  · obtain ⟨picked, hpick, hrest⟩ := bind_eq_ok.mp hadvance
    cases picked with
    | none => exact pickInput_none_preferred hpick
    | some picked =>
        obtain ⟨td, -, hrest⟩ := bind_eq_ok.mp hrest
        obtain ⟨st₂, -, hrest⟩ := bind_eq_ok.mp hrest
        obtain ⟨tries, -, hrest⟩ := bind_eq_ok.mp hrest
        cases hrest
  · cases h
  · rcases htry : tryTx w args rounds st₁ with e | st₂ <;> simp only [htry] at h <;> cases h

theorem selectLoop_preferred {args : BuildArgs} {rounds n : ℕ} {st st' : Building}
    (h : selectLoop w args rounds n st = .ok st') : st'.preferredInputs = [] := by
  induction n generalizing st with
  | zero => cases h
  | succ n ih =>
      rw [selectLoop] at h
      split at h
      · obtain ⟨next, hnext, h⟩ := bind_eq_ok.mp h
        cases next with
        | none =>
            cases h
            exact iterate_none_preferred hnext
        | some st₁ => exact ih h
      · rename_i hcontinues
        cases h
        simp only [continues, Bool.or_eq_true, not_or, decide_eq_true_eq, not_not] at hcontinues
        exact hcontinues.1.2

/-! ### The whole -/

theorem prepareBuilding_filters {needed : UInt64} {st : Building}
    (hneeded : addAmounts 0 req.dsts = .ok needed)
    (hthreshold : fractionalThreshold w (req.buildArgs w) = .ok threshold)
    (h : prepareBuilding w req = .ok st) : st = startBuilding w req needed threshold := by
  obtain ⟨_, -, h⟩ := bind_eq_ok.mp h
  obtain ⟨needed', hneeded', h⟩ := bind_eq_ok.mp h
  obtain ⟨_, -, h⟩ := bind_eq_ok.mp h
  obtain ⟨_, -, h⟩ := bind_eq_ok.mp h
  obtain ⟨threshold', hthreshold', h⟩ := bind_eq_ok.mp h
  rw [hneeded] at hneeded'
  rw [hthreshold] at hthreshold'
  cases hneeded'
  cases hthreshold'
  exact (Except.ok.inj h).symm

theorem respectsAt_of_mem_indicesOf {p : TransferDetails → Bool} {i : ℕ}
    (h : i ∈ indicesOf w fun td => spendable w req threshold td && p td) :
    RespectsAt w req threshold i := by
  obtain ⟨td, htd, hp⟩ := of_mem_indicesOf h
  rw [Bool.and_eq_true] at hp
  exact ⟨td, htd, respects_of_spendable hp.1⟩

/-- All outputs that a payment selects respect the filters exactly when the preferred ones do. -/
theorem createTransactions2_respects_iff (w : BuildWallet) (req : TransferRequest)
    {needed threshold : UInt64} (hneeded : addAmounts 0 req.dsts = .ok needed)
    (hthreshold : fractionalThreshold w (req.buildArgs w) = .ok threshold) {rounds inputs : ℕ}
    {ptxs : List PendingTx} (h : createTransactions2 w req rounds inputs = .ok ptxs) :
    (∀ i ∈ ptxs.flatMap PendingTx.selectedTransfers, RespectsAt w req threshold i) ↔
      PreferredRespect w req (preferredMoney w req needed) threshold := by
  obtain ⟨start, hprepare, h⟩ := bind_eq_ok.mp h
  obtain ⟨st, hloop, h⟩ := bind_eq_ok.mp h
  obtain ⟨_, -, h⟩ := bind_eq_ok.mp h
  obtain ⟨hreaches, -⟩ := selectLoop_reaches hloop
  have hselected := (selected_of_drafts (constructAll_spec h)).1
  obtain rfl := prepareBuilding_filters hneeded hthreshold hprepare
  rw [← preferredInputs_respect_iff]
  have hmem (i : ℕ) : i ∈ ptxs.flatMap PendingTx.selectedTransfers ↔ i ∈ st.selected := by
    rw [hselected.mem_iff, List.flatMap_append, List.flatMap_singleton, Building.selected]
  constructor
  · -- the preferred inputs are all selected in the end
    intro hrespect i hi
    have hholds := reached_keeps (P := Building.Holds (preferredInputs w req needed))
      SameIndices.holds pickInput_holds hreaches fun i hi => .inr hi
    rcases hholds i hi with hdone | hleft
    · exact hrespect i ((hmem i).mpr hdone)
    · rw [selectLoop_preferred hloop] at hleft
      cases hleft
  · intro hpreferred i hi
    have hstart : (startBuilding w req needed threshold).Respect w req threshold := by
      rintro i (hi | hi | hi | hi)
      · cases hi
      · exact respectsAt_of_mem_indicesOf (p := isNondust) hi
      · exact respectsAt_of_mem_indicesOf (p := fun td => !isNondust td) hi
      · exact hpreferred i hi
    have hall := reached_keeps (P := Building.Respect w req threshold) SameIndices.respect
      pickInput_respect hreaches hstart
    exact hall i (.inl ((hmem i).mp hi))

end Filters

/-! ### An output above the limit -/

/-- A wallet of two confidential outputs that may spend no output above `limit`. -/
def cappedWallet (limit : UInt64) : BuildWallet :=
  { sampleWallet true 2700 with
    ignoreOutputsAbove := limit
    transfers :=
      [{ sampleTransfer 0 9000000000 with rct := true },
        { sampleTransfer 1 8000000000 with rct := true }] }

def cappedRequest : TransferRequest :=
  { sampleRequest with dsts := [⟨1050000000, sampleAddress 1, false⟩] }

theorem cappedWallet_spends {limit : UInt64} (hlimit : limit = 8500000000 ∨ limit = 9500000000) :
    ∃ ptxs, createTransactions2 (cappedWallet limit) cappedRequest 5 10 = .ok ptxs ∧
      ptxs.flatMap PendingTx.selectedTransfers = [0, 1] := by
  have hlist : (createTransactions2 (cappedWallet limit) cappedRequest 5 10).toOption.map
      (List.flatMap PendingTx.selectedTransfers) = some [0, 1] := by
    rcases hlimit with rfl | rfl
    · decide
    · decide
  rcases hptxs : createTransactions2 (cappedWallet limit) cappedRequest 5 10 with e | ptxs
  · rw [hptxs] at hlist
    cases hlist
  · rw [hptxs] at hlist
    exact ⟨ptxs, rfl, Option.some.inj hlist⟩

theorem cappedWallet_ignores : ¬RespectsAt (cappedWallet 8500000000) cappedRequest 422851 0 := by
  rintro ⟨td, htd, hrespects⟩
  obtain rfl := Option.some.inj htd
  exact absurd hrespects.above (by decide)

/-- The first output is larger than what the wallet may spend, and is selected. -/
theorem cappedWallet_not_respected :
    ∃ ptxs, createTransactions2 (cappedWallet 8500000000) cappedRequest 5 10 = .ok ptxs ∧
      ¬∀ i ∈ ptxs.flatMap PendingTx.selectedTransfers,
        RespectsAt (cappedWallet 8500000000) cappedRequest 422851 i := by
  obtain ⟨ptxs, hptxs, hselected⟩ := cappedWallet_spends (.inl rfl)
  exact ⟨ptxs, hptxs, fun hall => cappedWallet_ignores (hall 0 (by rw [hselected]; decide))⟩

theorem cappedWallet_respects_iff :
    ¬PreferredRespect (cappedWallet 8500000000) cappedRequest
        (preferredMoney (cappedWallet 8500000000) cappedRequest 1050000000) 422851 ∧
      PreferredRespect (cappedWallet 9500000000) cappedRequest
        (preferredMoney (cappedWallet 9500000000) cappedRequest 1050000000) 422851 := by
  obtain ⟨ptxs, hptxs, hselected⟩ := cappedWallet_spends (.inl rfl)
  obtain ⟨ptxs', hptxs', hselected'⟩ := cappedWallet_spends (.inr rfl)
  constructor
  · intro hrespect
    have hall := (createTransactions2_respects_iff (cappedWallet 8500000000) cappedRequest rfl
      (by decide) hptxs).mpr hrespect
    exact cappedWallet_ignores (hall 0 (by rw [hselected]; decide))
  · refine (createTransactions2_respects_iff (cappedWallet 9500000000) cappedRequest rfl
      (by decide) hptxs').mp fun i hi => ?_
    rw [hselected', List.mem_pair] at hi
    rcases hi with rfl | rfl
    · exact ⟨_, rfl, by constructor <;> decide⟩
    · exact ⟨_, rfl, by constructor <;> decide⟩

end XrCoin.Wallet

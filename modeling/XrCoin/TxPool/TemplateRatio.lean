import XrCoin.TxPool.BlockTemplate

/-!
The share of non-private transactions in a block template. The loop counts the transactions
it takes, and does not count those that it replaces.
-/

namespace XrCoin.TxPool

open Archive Cryptonote Blockchain Data

variable (c : TemplateCall)

/-- Whether `check_tx_inputs` counts a transaction of the pool as non-private. -/
def countsAsNofake (txpool : Txpool) (txid : Hash) : Bool :=
  match (txpool.find txid).bind fun row => parseAndValidateTxFromBlob c.ops c.cfg row.blob with
  | none => false
  | some tx => checkRingSizes c.hfVersionFixedRingSize c.version c.view.numOutputs tx.vin.toList =
      some true

/-! ### What an iteration keeps -/

def blobOf (txpool : Txpool) (txid : Hash) : Option (List UInt8) :=
  (txpool.find txid).map PoolRow.blob

theorem blobOf_updateInfo (txpool : Txpool) (p : Hash → Bool) (f : TxpoolMeta → TxpoolMeta)
    (txid : Hash) : blobOf (txpool.updateInfo p f) txid = blobOf txpool txid := by
  let g : PoolRow → PoolRow :=
    fun row => if p row.txid then ⟨row.txid, f row.info, row.blob⟩ else row
  have hid : ∀ row, (g row).txid = row.txid := by
    intro row
    simp only [g]
    split <;> rfl
  have hblob : ∀ row, (g row).blob = row.blob := by
    intro row
    simp only [g]
    split <;> rfl
  have hrows : ∀ rows : List PoolRow,
      ((rows.map g).find? fun row => row.txid = txid).map PoolRow.blob =
        (rows.find? fun row => row.txid = txid).map PoolRow.blob := by
    intro rows
    simp only [List.find?_map, Option.map_map, Function.comp_def, hid, hblob]
  exact hrows txpool.rows

theorem countsAsNofake_congr {txpool txpool' : Txpool} {txid : Hash}
    (h : blobOf txpool txid = blobOf txpool' txid) :
    countsAsNofake c txpool txid = countsAsNofake c txpool' txid := by
  have hparse : ∀ t : Txpool,
      ((t.find txid).bind fun row => parseAndValidateTxFromBlob c.ops c.cfg row.blob) =
        (blobOf t txid).bind (parseAndValidateTxFromBlob c.ops c.cfg) := by
    intro t
    rw [blobOf, Option.bind_map]
    rfl
  rw [countsAsNofake, countsAsNofake, hparse, hparse, h]

structure Kept (st st' : Filling) : Prop where
  txHashes : st'.txHashes = st.txHashes
  n : st'.n = st.n
  nofakeTxsTaken : st'.nofakeTxsTaken = st.nofakeTxsTaken
  blobs : ∀ txid, blobOf st'.txpool txid = blobOf st.txpool txid

theorem Kept.rfl {st : Filling} : Kept st st := ⟨Eq.refl _, Eq.refl _, Eq.refl _, fun _ => Eq.refl _⟩

theorem Kept.trans {st st' st'' : Filling} (h : Kept st st') (h' : Kept st' st'') :
    Kept st st'' :=
  ⟨h'.txHashes.trans h.txHashes, h'.n.trans h.n, h'.nofakeTxsTaken.trans h.nofakeTxsTaken,
    fun txid => (h'.blobs txid).trans (h.blobs txid)⟩

theorem Kept.update {st st' : Filling} (h : Kept st st') (txid : Hash) (info : TxpoolMeta) :
    Kept st (st'.update txid info) :=
  h.trans ⟨Eq.refl _, Eq.refl _, Eq.refl _, fun _ => blobOf_updateInfo _ _ _ _⟩

theorem Kept.setCoinbase (st : Filling) (coinbase : UInt64) :
    Kept st { st with coinbase := coinbase } :=
  ⟨Eq.refl _, Eq.refl _, Eq.refl _, fun _ => Eq.refl _⟩

variable {c}

theorem checkFront_kept (hversion : 5 ≤ c.version) (secondPass : Bool) (info : TxpoolMeta)
    (st : Filling) :
    (∃ st', checkFront c secondPass info st = .error (.next st') ∧ Kept st st') ∨
      ∃ st', checkFront c secondPass info st = .ok st' ∧ Kept st st' := by
  rw [checkFront, if_pos hversion]
  split
  · exact .inl ⟨_, rfl, .rfl⟩
  split
  · exact .inr ⟨_, rfl, .rfl⟩
  cases rewardFor c (st.totalWeight + info.weight) with
  | none => exact .inl ⟨_, rfl, .rfl⟩
  | some blockReward =>
      simp only
      split
      · exact .inl ⟨_, rfl, .setCoinbase _ _⟩
      · exact .inr ⟨_, rfl, .setCoinbase _ _⟩

theorem canBeSimplyAdded_spec (c : TemplateCall) (info : TxpoolMeta) (st : Filling) :
    Kept st (canBeSimplyAdded c info st).2 ∧
      ((canBeSimplyAdded c info st).1 = true →
        st.nofakeTxsTaken + 1 ≤ rationalCeil ((st.n + 1) * c.nofakeTxsPercent) 100) := by
  rw [canBeSimplyAdded]
  split
  · rename_i htest
    cases rewardFor c (st.totalWeight + info.weight) with
    | none => exact ⟨.rfl, fun _ => htest⟩
    | some blockReward => exact ⟨.setCoinbase _ _, fun _ => htest⟩
  · exact ⟨.rfl, fun h => absurd h (by simp)⟩

theorem canReplaceExisting_spec (c : TemplateCall) (info : TxpoolMeta) (st : Filling) :
    Kept st (canReplaceExisting c info st).2 ∧
      ((canReplaceExisting c info st).1 = true → st.nofakeTxsTaken < st.n ∧
        st.nofakeTxsTaken + 1 ≤ rationalCeil (st.n * c.nofakeTxsPercent) 100) := by
  rw [canReplaceExisting]
  split
  · rename_i htest
    cases rewardFor c (st.totalWeight + info.weight - st.txWeights.getLastD 0) with
    | none => exact ⟨.rfl, fun _ => htest⟩
    | some blockReward => exact ⟨.setCoinbase _ _, fun _ => htest⟩
  · exact ⟨.rfl, fun h => absurd h (by simp)⟩

variable (c) in
/-- The test of the counters that a non-private transaction passes. -/
def TestByCounters (st : Filling) : Choice → Prop
  | .pushed => False
  | .added => st.nofakeTxsTaken + 1 ≤ rationalCeil ((st.n + 1) * c.nofakeTxsPercent) 100
  | .replacing => st.nofakeTxsTaken < st.n ∧
      st.nofakeTxsTaken + 1 ≤ rationalCeil (st.n * c.nofakeTxsPercent) 100

theorem chooseNofake_cases (c : TemplateCall) (info : TxpoolMeta) (st : Filling) :
    (∃ st', chooseNofake c info st = .error (.next st') ∧ Kept st st') ∨
      ∃ choice st', chooseNofake c info st = .ok (choice, st') ∧ Kept st st' ∧
        TestByCounters c st choice := by
  obtain ⟨hadding, hadded⟩ := canBeSimplyAdded_spec c info st
  obtain ⟨hkept, htest⟩ := canReplaceExisting_spec c info (canBeSimplyAdded c info st).2
  rw [hadding.n, hadding.nofakeTxsTaken] at htest
  rw [chooseNofake]
  simp only
  split
  · rename_i hadds
    exact .inr ⟨_, _, rfl, hadding, hadded hadds⟩
  · split
    · rename_i hreplacing
      exact .inr ⟨_, _, rfl, hadding.trans hkept, htest hreplacing⟩
    · exact .inl ⟨_, rfl, hadding.trans hkept⟩

theorem checkRingSizes_eq_some_true {fixed version : UInt8} {numOutputs : UInt64 → UInt64}
    {vin : List Txin} (hversion : 2 ≤ version) :
    checkRingSizes fixed version numOutputs vin = some true ↔
      (mixingOf numOutputs vin).mixin ≠ 1 ∧ ((mixingOf numOutputs vin).mixin < 2 ∧
        ((mixingOf numOutputs vin).nUnmixable = 0 ∨
          0 < (mixingOf numOutputs vin).nUnmixable ∧ 1 < (mixingOf numOutputs vin).nMixable)) ∧
      version < fixed := by
  rw [checkRingSizes, if_pos hversion]
  simp only
  generalize mixingOf numOutputs vin = m
  by_cases hone : m.mixin = 1
  · simp [hone]
  rw [if_neg hone]
  by_cases hsmall : m.mixin < 2
  · have hlarge : ¬(fixed ≤ version ∧ 2 < m.mixin) := by
      intro h
      exact absurd (UInt64.lt_trans hsmall h.2) (UInt64.lt_irrefl _)
    rw [if_neg hlarge, if_pos hsmall]
    by_cases hfixed : version < fixed
    · rw [if_pos hfixed]
      simp only [hone, hsmall, hfixed, ne_eq, not_false_eq_true, true_and, and_true,
        Option.some.injEq, Bool.not_eq_true', decide_eq_false_iff_not]
      omega
    · rw [if_neg hfixed]
      split
      · simp [hfixed]
      · split <;> simp [hfixed]
  · split <;> simp [hsmall]

theorem checkRings_cases (hversion : 2 ≤ c.version) (secondPass : Bool) (info : TxpoolMeta)
    (vin : List Txin) (st : Filling) :
    (∃ st', checkRings c secondPass info vin st = .error (.next st') ∧ Kept st st') ∨
      (∃ st', checkRings c secondPass info vin st = .ok (.pushed, st') ∧ Kept st st' ∧
        checkRingSizes c.hfVersionFixedRingSize c.version c.view.numOutputs vin ≠ some true) ∨
      (secondPass = true ∧
        (c.version < c.hfVersionFixedRingSize →
          checkRingSizes c.hfVersionFixedRingSize c.version c.view.numOutputs vin = some true) ∧
        ∃ choice st', checkRings c secondPass info vin st = .ok (choice, st') ∧ Kept st st' ∧
          TestByCounters c st choice) := by
  rw [checkRings.eq_def]
  cases vin with
  | nil =>
      refine .inr (.inl ⟨_, rfl, .rfl, ?_⟩)
      rw [ne_eq, checkRingSizes_eq_some_true hversion]
      rintro ⟨-, ⟨hsmall, -⟩, -⟩
      have hmixin : (mixingOf c.view.numOutputs []).mixin = 18446744073709551615 := rfl
      rw [hmixin] at hsmall
      exact absurd hsmall (by decide)
  | cons first vin =>
      simp only [if_pos hversion]
      rw [checkRingSizes_eq_some_true hversion]
      by_cases hone : (mixingOf c.view.numOutputs (first :: vin)).mixin = 1
      · rw [if_pos hone]
        exact .inl ⟨_, rfl, .rfl⟩
      rw [if_neg hone]
      split
      · rename_i hnofake
        split
        · rename_i hsecond
          rcases chooseNofake_cases c info st with
            ⟨st', hchoice, hkept⟩ | hchoice
          · exact .inl ⟨st', hchoice, hkept⟩
          · exact .inr (.inr ⟨hsecond, fun hfixed => ⟨hone, hnofake, hfixed⟩, hchoice⟩)
        · exact .inl ⟨_, rfl, ⟨Eq.refl _, Eq.refl _, Eq.refl _, fun _ => Eq.refl _⟩⟩
      · rename_i hnofake
        exact .inr (.inl ⟨_, rfl, .rfl, fun h =>
          hnofake ((checkRingSizes_eq_some_true hversion).mp h).2.1⟩)

theorem parse_of_checkReadyInputs {txd : TxpoolMeta} {txid : Hash} {txblob : List UInt8}
    {tx : Transaction} (h : (checkReadyInputs c txd txid txblob).1 = some tx) :
    parseAndValidateTxFromBlob c.ops c.cfg txblob = some tx := by
  rw [checkReadyInputs] at h
  simp only at h
  split at h
  · exact absurd h (by simp)
  · exact absurd h (by simp)
  · split at h
    · exact absurd h (by simp)
    · rename_i hparse
      split at h
      · exact absurd h (by simp)
      · rw [hparse]
        exact h

theorem parse_of_isTransactionReadyToGo {txd : TxpoolMeta} {txid : Hash} {txblob : List UInt8}
    {tx : Transaction} (h : (isTransactionReadyToGo c txd txid txblob).1 = some tx) :
    parseAndValidateTxFromBlob c.ops c.cfg txblob = some tx := by
  rw [isTransactionReadyToGo] at h
  split at h
  · split at h
    · exact absurd h (by simp)
    · exact parse_of_checkReadyInputs h
  · split at h
    · exact absurd h (by simp)
    · split at h
      · exact absurd h (by simp)
      · exact parse_of_checkReadyInputs h

/-- Everything that an iteration can do from version 5 on. -/
theorem decideTx_cases (hversion : 5 ≤ c.version) (secondPass : Bool) (txid : Hash)
    (st : Filling) :
    (∃ st', decideTx c secondPass txid st = .ends (.next st') ∧ Kept st st') ∨
      (secondPass = false ∧ countsAsNofake c st.txpool txid = false ∧
        ∃ vin info st', decideTx c secondPass txid st = .takes .pushed vin info st' ∧
          Kept st st') ∨
      (secondPass = true ∧
        (c.version < c.hfVersionFixedRingSize → countsAsNofake c st.txpool txid = true) ∧
        ∃ choice vin info st', decideTx c secondPass txid st = .takes choice vin info st' ∧
          Kept st st' ∧ TestByCounters c st choice) := by
  have hrings : 2 ≤ c.version := UInt8.le_trans (by decide) hversion
  rw [decideTx]
  cases hrow : st.txpool.find txid with
  | none => exact .inl ⟨_, rfl, .rfl⟩
  | some row =>
      simp only
      rcases checkFront_kept hversion secondPass row.info st with
        ⟨st₁, hfront, hkept⟩ | ⟨st₁, hfront, hkept⟩
      · rw [hfront]
        exact .inl ⟨_, rfl, hkept⟩
      rw [hfront]
      simp only
      cases hready : (isTransactionReadyToGo c row.info txid row.blob).1 with
      | none =>
          -- whatever the inputs are, it is not taken
          left
          rcases checkRings_cases hrings secondPass row.info
              (c.view.unreadyInputs secondPass txid row.info) st₁ with
            ⟨st₂, hchoice, hkept'⟩ | ⟨st₂, hchoice, hkept', -⟩ | ⟨-, -, choice, st₂, hchoice, hkept', -⟩
          · simp only [Option.map_none, Option.getD_none, hchoice]
            exact ⟨_, rfl, hkept.trans hkept'⟩
          · simp only [Option.map_none, Option.getD_none, hchoice, if_true]
            exact ⟨_, rfl, (hkept.trans hkept').update _ _⟩
          · simp only [Option.map_none, Option.getD_none, hchoice, if_true]
            exact ⟨_, rfl, (hkept.trans hkept').update _ _⟩
      | some tx =>
          have hcounts : countsAsNofake c st.txpool txid = decide (checkRingSizes
              c.hfVersionFixedRingSize c.version c.view.numOutputs tx.vin.toList = some true) := by
            rw [countsAsNofake, hrow, Option.bind_some, parse_of_isTransactionReadyToGo hready]
          simp only [Option.map_some, Option.getD_some]
          rcases checkRings_cases hrings secondPass row.info tx.vin.toList st₁ with
            ⟨st₂, hchoice, hkept'⟩ | ⟨st₂, hchoice, hkept', hprivate⟩ |
              ⟨hsecond, hnofake, choice, st₂, hchoice, hkept', htest⟩
          · simp only [hchoice]
            exact .inl ⟨_, rfl, hkept.trans hkept'⟩
          · have hkept'' := (hkept.trans hkept').update txid
              (isTransactionReadyToGo c row.info txid row.blob).2
            simp only [hchoice, reduceCtorEq, if_false]
            split
            · exact .inl ⟨_, rfl, hkept''⟩
            · split
              · exact .inl ⟨_, rfl, hkept''⟩
              · rename_i hfirst
                refine .inr (.inl ⟨?_, ?_, _, _, _, rfl, hkept''⟩)
                · simpa using hfirst
                · rw [hcounts]
                  exact decide_eq_false hprivate
          · have hkept'' := (hkept.trans hkept').update txid
              (isTransactionReadyToGo c row.info txid row.blob).2
            have hpushed : choice ≠ .pushed := by
              rintro rfl
              exact htest
            have htest' : TestByCounters c st choice := by
              rw [TestByCounters.eq_def, hkept.n, hkept.nofakeTxsTaken] at htest
              rw [TestByCounters.eq_def]
              exact htest
            simp only [hchoice, reduceCtorEq, if_false, hpushed, and_false]
            split
            · exact .inl ⟨_, rfl, hkept''⟩
            · refine .inr (.inr ⟨hsecond, fun hfixed => ?_, _, _, _, _, rfl, hkept'', htest'⟩)
              rw [hcounts]
              exact decide_eq_true (hnofake hfixed)

/-! ### The tests on the list -/

variable (c)

/-- The test of a choice with the numbers of the list in place of the counters `n` and
`nofake_txs_taken`. An exchange among non-private transactions changes no number. -/
def TestBySize (txpool : Txpool) (l : List Hash) : Choice → Prop
  | .pushed => True
  | .added => l.countP (countsAsNofake c txpool) + 1 ≤
      rationalCeil ((l.length + 1) * c.nofakeTxsPercent) 100
  | .replacing => l.countP (countsAsNofake c txpool) < l.length →
      l.countP (countsAsNofake c txpool) + 1 ≤ rationalCeil (l.length * c.nofakeTxsPercent) 100

/-- What the second pass takes in an iteration passes the test on the list. -/
def StepBySize (txpool : Txpool) (txid : Hash) (st : Filling) : Prop :=
  match decideTx c true txid st with
  | .ends _ => True
  | .takes choice _ _ _ => TestBySize c txpool st.txHashes choice

/-- What holds before each iteration of the second pass. -/
def Along (P : Hash → Filling → Prop) : List Hash → Filling → Prop
  | [], _ => True
  | txid :: txids, st =>
      P txid st ∧
        match fillStep c true txid st with
        | .next st => Along P txids st
        | _ => True

structure FirstPass (txpool : Txpool) (st : Filling) : Prop where
  «private» : ∀ txid ∈ st.txHashes, countsAsNofake c txpool txid = false
  n : st.n = st.txHashes.length
  nofakeTxsTaken : st.nofakeTxsTaken = 0
  blobs : ∀ txid, blobOf st.txpool txid = blobOf txpool txid

variable {c} {txpool : Txpool}

theorem FirstPass.kept {st st' : Filling} (h : FirstPass c txpool st) (hkept : Kept st st') :
    FirstPass c txpool st' where
  «private» := by
    rw [hkept.txHashes]
    exact h.private
  n := by rw [hkept.n, hkept.txHashes, h.n]
  nofakeTxsTaken := hkept.nofakeTxsTaken.trans h.nofakeTxsTaken
  blobs txid := (hkept.blobs txid).trans (h.blobs txid)

theorem FirstPass.fillStep (hversion : 5 ≤ c.version) {st : Filling} (h : FirstPass c txpool st)
    (txid : Hash) :
    ∃ st', fillStep c false txid st = .next st' ∧ FirstPass c txpool st' := by
  rw [TxPool.fillStep]
  rcases decideTx_cases hversion false txid st with
    ⟨st', hdecide, hkept⟩ | ⟨-, hprivate, vin, info, st', hdecide, hkept⟩ | ⟨hsecond, -⟩
  · rw [hdecide]
    exact ⟨_, rfl, h.kept hkept⟩
  · rw [hdecide]
    have hkeeps := h.kept hkept
    rw [countsAsNofake_congr c (h.blobs txid)] at hprivate
    refine ⟨_, rfl, ⟨?_, ?_, hkeeps.nofakeTxsTaken, hkeeps.blobs⟩⟩
    · rw [Filling.take, List.forall_mem_append, List.forall_mem_singleton]
      exact ⟨hkeeps.private, hprivate⟩
    · simp only [Filling.take, List.length_append, List.length_singleton, hkeeps.n]
  · exact absurd hsecond (by simp)

theorem FirstPass.fillPass (hversion : 5 ≤ c.version) (txids : List Hash) {st : Filling}
    (h : FirstPass c txpool st) :
    ∃ st', fillPass c false txids st = .next st' ∧ FirstPass c txpool st' := by
  induction txids generalizing st with
  | nil => exact ⟨st, rfl, h⟩
  | cons txid txids ih =>
      obtain ⟨st', hstep, hfirst⟩ := h.fillStep hversion txid
      rw [TxPool.fillPass, hstep]
      exact ih hfirst

variable (c txpool)

structure SecondPass (st : Filling) : Prop where
  markedFirst : MarkedFirst (countsAsNofake c txpool) st.txHashes
  n_le : st.n ≤ st.nofakeTxsTaken + st.txHashes.length
  blobs : ∀ txid, blobOf st.txpool txid = blobOf txpool txid

variable {c txpool}

theorem FirstPass.secondPass {st : Filling} (h : FirstPass c txpool st) :
    SecondPass c txpool st :=
  ⟨markedFirst_of_unmarked h.private, by rw [h.n, h.nofakeTxsTaken, Nat.zero_add], h.blobs⟩

theorem SecondPass.kept {st st' : Filling} (h : SecondPass c txpool st) (hkept : Kept st st') :
    SecondPass c txpool st' where
  markedFirst := by
    rw [hkept.txHashes]
    exact h.markedFirst
  n_le := by
    rw [hkept.n, hkept.nofakeTxsTaken, hkept.txHashes]
    exact h.n_le
  blobs txid := (hkept.blobs txid).trans (h.blobs txid)

/-- An iteration of the second pass keeps the list within the share exactly when it passes
the test on the list, and does not bring it back. -/
theorem SecondPass.fillStep (hversion : 5 ≤ c.version)
    (hfixed : c.version < c.hfVersionFixedRingSize) {st : Filling} (h : SecondPass c txpool st)
    (txid : Hash) :
    ∃ st', fillStep c true txid st = .next st' ∧ SecondPass c txpool st' ∧
      (WithinShare c.nofakeTxsPercent (countsAsNofake c txpool) st'.txHashes ↔
        WithinShare c.nofakeTxsPercent (countsAsNofake c txpool) st.txHashes ∧
          StepBySize c txpool txid st) := by
  rw [TxPool.fillStep, StepBySize]
  rcases decideTx_cases hversion true txid st with
    ⟨st', hdecide, hkept⟩ | ⟨hsecond, -⟩ | ⟨-, hnofake, choice, vin, info, st', hdecide, hkept, htest⟩
  · rw [hdecide]
    refine ⟨_, rfl, h.kept hkept, ?_⟩
    rw [hkept.txHashes]
    exact (and_iff_left trivial).symm
  · exact absurd hsecond (by simp)
  rw [hdecide]
  have hkeeps := h.kept hkept
  have hn := hkeeps.n_le
  have hmarked : countsAsNofake c txpool txid = true := by
    rw [← countsAsNofake_congr c (h.blobs txid)]
    exact hnofake hfixed
  simp only
  rw [← hkept.txHashes]
  cases choice with
  | pushed => exact absurd htest id
  | added =>
      refine ⟨_, rfl, ⟨hkeeps.markedFirst.cons hmarked, ?_, hkeeps.blobs⟩, ?_⟩
      · simp only [Filling.take, List.length_cons]
        omega
      · by_cases hshare : WithinShare c.nofakeTxsPercent (countsAsNofake c txpool) st'.txHashes
        · exact (withinShare_cons hmarked).trans (and_iff_right hshare).symm
        · exact iff_of_false (not_withinShare_cons hmarked hshare) fun hboth => hshare hboth.1
  | replacing =>
      -- there is a transaction to replace
      have hne : st'.txHashes ≠ [] := by
        intro hnil
        rw [hnil, List.length_nil, hkept.n, hkept.nofakeTxsTaken] at hn
        exact absurd htest.1 (Nat.not_lt.mpr hn)
      have hlength := (exchange_counts hkeeps.markedFirst hne hmarked).1
      refine ⟨_, rfl, ⟨hkeeps.markedFirst.exchange hmarked, ?_, hkeeps.blobs⟩, ?_⟩
      · simp only [Filling.take]
        omega
      · by_cases hshare : WithinShare c.nofakeTxsPercent (countsAsNofake c txpool) st'.txHashes
        · exact (withinShare_exchange hkeeps.markedFirst hne hmarked hshare).trans
            (and_iff_right hshare).symm
        · exact iff_of_false (not_withinShare_exchange hkeeps.markedFirst hne hmarked hshare)
            fun hboth => hshare hboth.1

theorem SecondPass.fillPass (hversion : 5 ≤ c.version)
    (hfixed : c.version < c.hfVersionFixedRingSize) (txids : List Hash) {st : Filling}
    (h : SecondPass c txpool st) :
    ∃ st', fillPass c true txids st = .next st' ∧
      (WithinShare c.nofakeTxsPercent (countsAsNofake c txpool) st'.txHashes ↔
        WithinShare c.nofakeTxsPercent (countsAsNofake c txpool) st.txHashes ∧
          Along c (StepBySize c txpool) txids st) := by
  induction txids generalizing st with
  | nil => exact ⟨st, rfl, (and_iff_left trivial).symm⟩
  | cons txid txids ih =>
      obtain ⟨st', hstep, hsecond, hshare⟩ := h.fillStep hversion hfixed txid
      obtain ⟨st'', hpass, hshare'⟩ := ih hsecond
      rw [TxPool.fillPass, Along, hstep]
      refine ⟨st'', hpass, ?_⟩
      rw [hshare', hshare, and_assoc]

variable {ρ : Type}

def ringTx : Transaction :=
  { paymentTx 0x53 with
    vin := ⟨[.toKey 2 ⟨[7, 1, 1], by decide⟩ (List.Vector.replicate 32 0x53)], by simp⟩
    signatures := ⟨[⟨List.replicate 3 (List.Vector.replicate 64 0), by decide⟩], by decide⟩ }

def ringTxId : Hash :=
  hashOfNat 0x363f72c47d92caf6dad7462abe8f037f0869d2f873267a290f62fa2dafc706a0

def templateOps : CryptoOps :=
  ⟨fun m => if m = txToBlob currentConfig ringTx then ringTxId else paymentHash m, fun _ => none,
    fun _ => default⟩

def templatePool : Pool (ℕ × ℕ) :=
  [paymentArgs 0x51, paymentArgs 0x52, ⟨ringTx, ringTxId, 269, false, false, false, 1⟩].foldl
    (fun p args => (addTx fractionRate templateOps currentConfig paymentView args default p).2.2)
    (.empty (ℕ × ℕ) 648000000)

/-- A call at version 7 that allows half of the transactions to be non-private. A block of
300 bytes gets the whole reward of 1000. -/
def templateCall : TemplateCall where
  ops := templateOps
  cfg := currentConfig
  rewards := ⟨64000, 8, 1, 240, 240, 0, 300, 100, 4, 10⟩
  hfVersionFixedRingSize := 11
  nofakeTxsPercent := 50
  coinbaseBlobReservedSize := 100
  acceptThreshold := id
  view := ⟨10, fun _ => ringTxId, fun _ _ used => (some true, used), fun _ => false, fun _ => 10,
    fun _ _ _ => []⟩
  medianWeight := 300
  alreadyGeneratedCoins := 0
  version := 7
  height := 10

end XrCoin.TxPool

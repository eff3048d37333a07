import XrCoin.TxPool.Runs
import XrCoin.TxPool.TemplateRatio

/-!
The sums of a block template. Through both passes, with what the second one replaces, the weight,
the fee and the best coinbase are those of the transactions in the list, and these share no key
image.

An iteration that takes nothing changes only the coinbase it tried, a counter and the metadata of
the transaction. What is taken was new to the set of key images, so that it is not in the list.
-/

namespace XrCoin.TxPool

open Archive Cryptonote Blockchain Data

/-! ### What an iteration reads of a transaction -/

def entryOf (row : PoolRow) : List UInt8 × UInt64 × UInt64 :=
  (row.blob, row.info.weight, row.info.fee)

def storedEntry (txpool : Txpool) (txid : Hash) : Option (List UInt8 × UInt64 × UInt64) :=
  (txpool.find txid).map entryOf

def weightOf (txpool : Txpool) (txid : Hash) : UInt64 :=
  ((txpool.find txid).map fun row => row.info.weight).getD 0

def feeOf (txpool : Txpool) (txid : Hash) : UInt64 :=
  ((txpool.find txid).map fun row => row.info.fee).getD 0

def imagesOf (c : TemplateCall) (txpool : Txpool) (txid : Hash) : List KeyImage :=
  match (txpool.find txid).bind fun row => parseAndValidateTxFromBlob c.ops c.cfg row.blob with
  | none => []
  | some tx => keyImages tx.vin.toList

theorem of_storedEntry (c : TemplateCall) {txpool : Txpool} {txid : Hash} {blob : List UInt8}
    {weight fee : UInt64} (h : storedEntry txpool txid = some (blob, weight, fee)) {tx : Transaction}
    (hparse : parseAndValidateTxFromBlob c.ops c.cfg blob = some tx) :
    weightOf txpool txid = weight ∧ feeOf txpool txid = fee ∧
      imagesOf c txpool txid = keyImages tx.vin.toList ∧
        ∃ row ∈ txpool.rows, row.blob = blob ∧ row.info.weight = weight := by
  obtain ⟨row, hrow, hentry⟩ := Option.map_eq_some_iff.mp h
  rw [entryOf, Prod.mk.injEq, Prod.mk.injEq] at hentry
  obtain ⟨rfl, rfl, rfl⟩ := hentry
  refine ⟨?_, ?_, ?_, row, (Txpool.find_eq_some hrow).1, rfl, rfl⟩
  · rw [weightOf, hrow]
    rfl
  · rw [feeOf, hrow]
    rfl
  · rw [imagesOf, hrow, Option.bind_some, hparse]

theorem storedEntry_updateInfo {txpool : Txpool} {txid : Hash} {row : PoolRow} {info : TxpoolMeta}
    (hrow : txpool.find txid = some row) (hweight : info.weight = row.info.weight)
    (hfee : info.fee = row.info.fee) (id : Hash) :
    storedEntry (txpool.updateInfo (fun id => id = txid) fun _ => info) id =
      storedEntry txpool id := by
  let g : PoolRow → PoolRow :=
    fun row => if row.txid = txid then ⟨row.txid, info, row.blob⟩ else row
  have hid : ∀ row, (g row).txid = row.txid := by
    intro row
    simp only [g]
    split <;> rfl
  have hfind : (txpool.updateInfo (fun id => id = txid) fun _ => info).find id =
      (txpool.find id).map g := by
    show (txpool.rows.map fun row => if decide (row.txid = txid) = true then
      ⟨row.txid, info, row.blob⟩ else row).find? _ = (txpool.rows.find? _).map g
    simp only [decide_eq_true_eq]
    show (txpool.rows.map g).find? _ = _
    simp only [List.find?_map, Function.comp_def, hid]
  rw [storedEntry, hfind, storedEntry]
  cases hfound : txpool.find id with
  | none => rfl
  | some found =>
      simp only [Option.map_some, Option.some.injEq, g]
      split
      · rename_i hsame
        have hrow' : found = row := by
          obtain ⟨-, hfoundId⟩ := Txpool.find_eq_some hfound
          rw [← hfoundId, hsame, hrow] at hfound
          exact (Option.some.inj hfound).symm
        rw [entryOf, entryOf, hrow', hweight, hfee]
      · rfl

theorem isTransactionReadyToGo_keeps (c : TemplateCall) (txd : TxpoolMeta) (txid : Hash)
    (txblob : List UInt8) :
    (isTransactionReadyToGo c txd txid txblob).2.weight = txd.weight ∧
      (isTransactionReadyToGo c txd txid txblob).2.fee = txd.fee := by
  have hchecked : (checkReadyInputs c txd txid txblob).2.weight = txd.weight ∧
      (checkReadyInputs c txd txid txblob).2.fee = txd.fee := by
    rw [checkReadyInputs]
    simp only
    split
    · exact ⟨rfl, rfl⟩
    · exact ⟨rfl, rfl⟩
    · split
      · exact ⟨rfl, rfl⟩
      · split <;> exact ⟨rfl, rfl⟩
  rw [isTransactionReadyToGo]
  split
  · split
    · exact ⟨rfl, rfl⟩
    · exact hchecked
  · split
    · exact ⟨rfl, rfl⟩
    · split
      · exact ⟨rfl, rfl⟩
      · exact hchecked

/-! ### Key images -/

theorem haveKeyImages_eq_false {kImages : List KeyImage} {vin : List Txin} (hvin : ToKeyInputs vin)
    (h : haveKeyImages kImages vin = false) : ∀ ki ∈ keyImages vin, ki ∉ kImages := by
  induction vin with
  | nil => simp [keyImages]
  | cons txin vin ih =>
      obtain ⟨amount, keyOffsets, kImage, rfl, -, htail⟩ := hvin.tail
      rw [haveKeyImages] at h
      split at h
      · cases h
      · rename_i hnew
        rw [keyImages_cons, List.forall_mem_cons]
        exact ⟨hnew, ih htail h⟩

theorem subset_appendKeyImages {kImages : List KeyImage} {vin : List Txin} {ki : KeyImage}
    (h : ki ∈ kImages) : ki ∈ appendKeyImages kImages vin := by
  induction vin generalizing kImages with
  | nil => exact h
  | cons txin vin ih =>
      cases txin with
      | toKey amount keyOffsets kImage =>
          rw [appendKeyImages]
          split
          · exact h
          · exact ih (List.mem_cons_of_mem _ h)
      | gen height => exact h
      | toScript prev prevout sigset => exact h
      | toScriptHash prev prevout script sigset => exact h

theorem mem_appendKeyImages {kImages : List KeyImage} {vin : List Txin} (hvin : ToKeyInputs vin)
    (hnew : ∀ ki ∈ keyImages vin, ki ∉ kImages) :
    ∀ ki ∈ keyImages vin, ki ∈ appendKeyImages kImages vin := by
  induction vin generalizing kImages with
  | nil => simp [keyImages]
  | cons txin vin ih =>
      obtain ⟨amount, keyOffsets, kImage, rfl, hfirst, htail⟩ := hvin.tail
      rw [keyImages_cons, List.forall_mem_cons] at hnew ⊢
      rw [appendKeyImages, if_neg hnew.1]
      refine ⟨subset_appendKeyImages List.mem_cons_self, ih htail fun ki hki => ?_⟩
      rw [List.mem_cons, not_or]
      refine ⟨?_, hnew.2 ki hki⟩
      rintro rfl
      exact hfirst hki

/-! ### Iterations -/

def Filling.taken (st : Filling) : Filling :=
  { st with coinbase := 0, nofakeTxsInPool := 0, txpool := .empty }

structure Untaken (st st' : Filling) : Prop where
  taken : st'.taken = st.taken
  entries : ∀ txid, storedEntry st'.txpool txid = storedEntry st.txpool txid

theorem Untaken.rfl {st : Filling} : Untaken st st := ⟨Eq.refl _, fun _ => Eq.refl _⟩

theorem Untaken.trans {st st' st'' : Filling} (h : Untaken st st') (h' : Untaken st' st'') :
    Untaken st st'' :=
  ⟨h'.taken.trans h.taken, fun txid => (h'.entries txid).trans (h.entries txid)⟩

theorem Untaken.setCoinbase (st : Filling) (coinbase : UInt64) :
    Untaken st { st with coinbase := coinbase } :=
  ⟨Eq.refl _, fun _ => Eq.refl _⟩

def TriedCoinbase (c : TemplateCall) (weight fee : UInt64) (st : Filling) : Prop :=
  ∃ blockReward, rewardFor c weight = some blockReward ∧ st.coinbase = blockReward + fee

variable {c : TemplateCall}

theorem checkFront_error (hversion : 5 ≤ c.version) {secondPass : Bool} {info : TxpoolMeta}
    {st : Filling} {outcome : Outcome} (h : checkFront c secondPass info st = .error outcome) :
    ∃ st', outcome = .next st' ∧ Untaken st st' := by
  rw [checkFront, if_pos hversion] at h
  split at h
  · exact ⟨st, (Except.error.inj h).symm, .rfl⟩
  split at h
  · cases h
  split at h
  · exact ⟨st, (Except.error.inj h).symm, .rfl⟩
  simp only at h
  split at h
  · exact ⟨_, (Except.error.inj h).symm, .setCoinbase st _⟩
  · cases h

theorem checkFront_ok (hversion : 5 ≤ c.version) {secondPass : Bool} {info : TxpoolMeta}
    {st st' : Filling} (h : checkFront c secondPass info st = .ok st') :
    st.totalWeight + info.weight ≤ maxTotalWeight c ∧ Untaken st st' ∧ st'.txpool = st.txpool ∧
      (secondPass = false →
        TriedCoinbase c (st.totalWeight + info.weight) (st.fee + info.fee) st') := by
  rw [checkFront, if_pos hversion] at h
  split at h
  · cases h
  rename_i hfits
  refine ⟨UInt64.not_lt.mp hfits, ?_⟩
  split at h
  · rename_i hsecond
    obtain rfl := Except.ok.inj h
    exact ⟨.rfl, rfl, fun hfirst => absurd (hfirst ▸ hsecond) Bool.false_ne_true⟩
  split at h
  · cases h
  rename_i blockReward hreward
  simp only at h
  split at h
  · cases h
  obtain rfl := Except.ok.inj h
  exact ⟨.setCoinbase st _, rfl, fun _ => ⟨blockReward, hreward, UInt64.add_assoc _ _ _⟩⟩

theorem canBeSimplyAdded_untaken (c : TemplateCall) (info : TxpoolMeta) (st : Filling) :
    Untaken st (canBeSimplyAdded c info st).2 ∧
      (canBeSimplyAdded c info st).2.txpool = st.txpool ∧
      ((canBeSimplyAdded c info st).1 = true →
        TriedCoinbase c (st.totalWeight + info.weight) (st.fee + info.fee)
          (canBeSimplyAdded c info st).2) := by
  rw [canBeSimplyAdded]
  split
  · split
    · exact ⟨.rfl, rfl, fun h => absurd h Bool.false_ne_true⟩
    · rename_i blockReward hreward
      exact ⟨.setCoinbase st _, rfl, fun _ => ⟨blockReward, hreward, UInt64.add_assoc _ _ _⟩⟩
  · exact ⟨.rfl, rfl, fun h => absurd h Bool.false_ne_true⟩

theorem canReplaceExisting_untaken (c : TemplateCall) (info : TxpoolMeta) (st : Filling) :
    Untaken st (canReplaceExisting c info st).2 ∧
      (canReplaceExisting c info st).2.txpool = st.txpool ∧
      ((canReplaceExisting c info st).1 = true → st.nofakeTxsTaken < st.n ∧
        TriedCoinbase c (st.totalWeight + info.weight - st.txWeights.getLastD 0)
          (st.fee + info.fee - st.txFees.getLastD 0) (canReplaceExisting c info st).2) := by
  rw [canReplaceExisting]
  split
  · rename_i htest
    split
    · exact ⟨.rfl, rfl, fun h => absurd h Bool.false_ne_true⟩
    · rename_i blockReward hreward
      refine ⟨.setCoinbase st _, rfl, fun _ => ⟨htest.1, blockReward, hreward, ?_⟩⟩
      simp only
      rw [UInt64.add_assoc, UInt64.sub_eq_add_neg, UInt64.sub_eq_add_neg, UInt64.add_assoc]
  · exact ⟨.rfl, rfl, fun h => absurd h Bool.false_ne_true⟩

variable (c) in
/-- What has been tried of a transaction, by the way it goes into the list. -/
def Tried (secondPass : Bool) (vin : List Txin) (info : TxpoolMeta) (st st' : Filling) :
    Choice → Prop
  | .pushed => secondPass = false ∧
      TriedCoinbase c (st.totalWeight + info.weight) (st.fee + info.fee) st'
  | .added => vin ≠ [] ∧ TriedCoinbase c (st.totalWeight + info.weight) (st.fee + info.fee) st'
  | .replacing => vin ≠ [] ∧ st.nofakeTxsTaken < st.n ∧
      TriedCoinbase c (st.totalWeight + info.weight - st.txWeights.getLastD 0)
        (st.fee + info.fee - st.txFees.getLastD 0) st'

theorem Untaken.fields {st st' : Filling} (h : Untaken st st') :
    st'.txHashes = st.txHashes ∧ st'.txWeights = st.txWeights ∧ st'.txFees = st.txFees ∧
      st'.totalWeight = st.totalWeight ∧ st'.fee = st.fee ∧ st'.n = st.n ∧
      st'.nofakeTxsTaken = st.nofakeTxsTaken ∧ st'.kImages = st.kImages ∧
      st'.bestCoinbase = st.bestCoinbase := by
  have htaken := h.taken
  rw [Filling.taken, Filling.taken, Filling.mk.injEq] at htaken
  obtain ⟨hhashes, hweights, hfees, hweight, hfee, hbest, -, hn, -, hnofake, himages, -⟩ := htaken
  exact ⟨hhashes, hweights, hfees, hweight, hfee, hn, hnofake, himages, hbest⟩

theorem Tried.untaken {secondPass : Bool} {vin : List Txin} {info : TxpoolMeta}
    {st₀ st st' : Filling} {choice : Choice} (hkept : Untaken st₀ st)
    (h : Tried c secondPass vin info st st' choice) :
    Tried c secondPass vin info st₀ st' choice := by
  obtain ⟨-, hweights, hfees, hweight, hfee, hn, htaken, -, -⟩ := hkept.fields
  cases choice with
  | pushed => rwa [Tried, hweight, hfee] at h
  | added => rwa [Tried, hweight, hfee] at h
  | replacing => rwa [Tried, hweight, hfee, hn, htaken, hweights, hfees] at h

theorem chooseNofake_error {info : TxpoolMeta} {st : Filling} {outcome : Outcome}
    (h : chooseNofake c info st = .error outcome) : ∃ st', outcome = .next st' ∧ Untaken st st' := by
  obtain ⟨hadding, -, -⟩ := canBeSimplyAdded_untaken c info st
  obtain ⟨hreplacing, -, -⟩ := canReplaceExisting_untaken c info (canBeSimplyAdded c info st).2
  rw [chooseNofake] at h
  simp only at h
  split at h
  · cases h
  · split at h
    · cases h
    · exact ⟨_, (Except.error.inj h).symm, hadding.trans hreplacing⟩

theorem chooseNofake_ok {info : TxpoolMeta} {st st' : Filling} {choice : Choice}
    (h : chooseNofake c info st = .ok (choice, st')) {vin : List Txin} (hvin : vin ≠ []) :
    Untaken st st' ∧ st'.txpool = st.txpool ∧ Tried c true vin info st st' choice := by
  obtain ⟨hadding, hpool, hadded⟩ := canBeSimplyAdded_untaken c info st
  obtain ⟨hreplacing, hpool', hreplaced⟩ :=
    canReplaceExisting_untaken c info (canBeSimplyAdded c info st).2
  rw [chooseNofake] at h
  simp only at h
  split at h
  · rename_i hadds
    obtain ⟨rfl, rfl⟩ := Prod.mk.inj (Except.ok.inj h)
    exact ⟨hadding, hpool, hvin, hadded hadds⟩
  · split at h
    · rename_i hreplaces
      obtain ⟨rfl, rfl⟩ := Prod.mk.inj (Except.ok.inj h)
      refine ⟨hadding.trans hreplacing, hpool'.trans hpool, Tried.untaken hadding ?_⟩
      exact ⟨hvin, hreplaced hreplaces⟩
    · cases h

theorem checkRings_error (hversion : 2 ≤ c.version) {secondPass : Bool} {info : TxpoolMeta}
    {vin : List Txin} {st : Filling} {outcome : Outcome}
    (h : checkRings c secondPass info vin st = .error outcome) :
    ∃ st', outcome = .next st' ∧ Untaken st st' := by
  rw [checkRings.eq_def] at h
  cases vin with
  | nil => cases h
  | cons first vin =>
      simp only [if_pos hversion] at h
      split at h
      · exact ⟨st, (Except.error.inj h).symm, .rfl⟩
      split at h
      · split at h
        · exact chooseNofake_error h
        · exact ⟨_, (Except.error.inj h).symm, ⟨rfl, fun _ => rfl⟩⟩
      · cases h

/-- A transaction is pushed as it is, or it is a non-private one of the second pass. -/
theorem checkRings_ok (hversion : 2 ≤ c.version) {secondPass : Bool} {info : TxpoolMeta}
    {vin : List Txin} {st st' : Filling} {choice : Choice}
    (h : checkRings c secondPass info vin st = .ok (choice, st')) :
    Untaken st st' ∧ st'.txpool = st.txpool ∧
      (choice = .pushed ∧ st' = st ∨ Tried c secondPass vin info st st' choice) := by
  rw [checkRings.eq_def] at h
  cases vin with
  | nil =>
      obtain ⟨rfl, rfl⟩ := Prod.mk.inj (Except.ok.inj h)
      exact ⟨.rfl, rfl, .inl ⟨rfl, rfl⟩⟩
  | cons first vin =>
      simp only [if_pos hversion] at h
      split at h
      · cases h
      split at h
      · split at h
        · rename_i hsecond
          obtain ⟨hkept, hpool, htried⟩ := chooseNofake_ok h (List.cons_ne_nil first vin)
          exact ⟨hkept, hpool, .inr (hsecond ▸ htried)⟩
        · cases h
      · obtain ⟨rfl, rfl⟩ := Prod.mk.inj (Except.ok.inj h)
        exact ⟨.rfl, rfl, .inl ⟨rfl, rfl⟩⟩

structure Takes (c : TemplateCall) (secondPass : Bool) (txid : Hash) (st : Filling)
    (choice : Choice) (vin : List Txin) (info : TxpoolMeta) (st' : Filling) : Prop where
  untaken : Untaken st st'
  entry : ∃ blob tx, storedEntry st.txpool txid = some (blob, info.weight, info.fee) ∧
    parseAndValidateTxFromBlob c.ops c.cfg blob = some tx ∧ vin = tx.vin.toList
  fits : st.totalWeight + info.weight ≤ maxTotalWeight c
  fresh : haveKeyImages st.kImages vin = false
  tried : Tried c secondPass vin info st st' choice

/-- From version 5 on an iteration goes on to the next transaction, and what it takes has passed the
checks. -/
theorem decideTx_spec (hversion : 5 ≤ c.version) (secondPass : Bool) (txid : Hash) (st : Filling) :
    (∃ st', decideTx c secondPass txid st = .ends (.next st') ∧ Untaken st st') ∨
      ∃ choice vin info st', decideTx c secondPass txid st = .takes choice vin info st' ∧
        Takes c secondPass txid st choice vin info st' := by
  have hrings : 2 ≤ c.version := UInt8.le_trans (by decide) hversion
  rw [decideTx]
  cases hrow : st.txpool.find txid with
  | none => exact .inl ⟨st, rfl, .rfl⟩
  | some row =>
      simp only
      cases hfront : checkFront c secondPass row.info st with
      | error outcome =>
          obtain ⟨st', rfl, hkept⟩ := checkFront_error hversion hfront
          exact .inl ⟨st', rfl, hkept⟩
      | ok st₁ =>
          obtain ⟨hfits, hkept, hpool, htried⟩ := checkFront_ok hversion hfront
          simp only
          cases hchoice : checkRings c secondPass row.info
              (((isTransactionReadyToGo c row.info txid row.blob).1.map
                fun tx => tx.vin.toList).getD (c.view.unreadyInputs secondPass txid row.info)) st₁ with
          | error outcome =>
              obtain ⟨st', rfl, hkept'⟩ := checkRings_error hrings hchoice
              exact .inl ⟨st', rfl, hkept.trans hkept'⟩
          | ok chosen =>
              obtain ⟨choice, st₂⟩ := chosen
              obtain ⟨hkept', hpool', hchosen⟩ := checkRings_ok hrings hchoice
              obtain ⟨hweight, hfee⟩ := isTransactionReadyToGo_keeps c row.info txid row.blob
              have hupdate : Untaken st (st₂.update txid
                  (isTransactionReadyToGo c row.info txid row.blob).2) := by
                refine (hkept.trans hkept').trans ⟨rfl, ?_⟩
                rw [← hpool, ← hpool'] at hrow
                exact storedEntry_updateInfo hrow hweight hfee
              simp only
              split
              · exact .inl ⟨_, rfl, hupdate⟩
              rename_i hready
              split
              · exact .inl ⟨_, rfl, hupdate⟩
              rename_i hfresh
              split
              · exact .inl ⟨_, rfl, hupdate⟩
              rename_i hpass
              obtain ⟨tx, htx⟩ := Option.ne_none_iff_exists'.mp hready
              rw [htx] at hfresh hchosen ⊢
              refine .inr ⟨choice, _, row.info, _, rfl, hupdate, ⟨row.blob, tx, ?_,
                parse_of_isTransactionReadyToGo htx, rfl⟩, hfits, ?_, ?_⟩
              · rw [storedEntry, hrow]
                rfl
              · obtain ⟨-, -, -, -, -, -, -, himages, -⟩ := hupdate.fields
                rw [← himages]
                exact Bool.not_eq_true _ ▸ hfresh
              · rcases hchosen with ⟨rfl, rfl⟩ | htried'
                · have hfirst : secondPass = false := by
                    cases secondPass with
                    | false => rfl
                    | true => exact absurd ⟨rfl, rfl⟩ hpass
                  exact ⟨hfirst, htried hfirst⟩
                · have hall := htried'.untaken hkept
                  cases choice <;> exact hall

/-! ### The sums -/

variable (c) in
/-- What both passes keep: the three arrays and the sums belong together, and the list holds
different transactions without a common key image. -/
structure Accounted (txpool : Txpool) (st : Filling) : Prop where
  entries : ∀ txid, storedEntry st.txpool txid = storedEntry txpool txid
  txWeights : st.txWeights = st.txHashes.map (weightOf txpool)
  txFees : st.txFees = st.txHashes.map (feeOf txpool)
  totalWeight : st.totalWeight.toNat = (st.txHashes.map fun txid => (weightOf txpool txid).toNat).sum
  fee : st.fee = (st.txHashes.map (feeOf txpool)).sum
  nodup : st.txHashes.Nodup
  images : ∀ txid ∈ st.txHashes, ∀ ki ∈ imagesOf c txpool txid, ki ∈ st.kImages
  disjoint : st.txHashes.Pairwise fun txid txid' =>
    (imagesOf c txpool txid).Disjoint (imagesOf c txpool txid')
  counters : st.n ≤ st.nofakeTxsTaken + st.txHashes.length
  fits : st.totalWeight ≤ maxTotalWeight c
  reward : ∃ blockReward, rewardFor c st.totalWeight = some blockReward ∧
    st.bestCoinbase = blockReward + st.fee

variable {txpool : Txpool}

theorem Accounted.untaken {st st' : Filling} (h : Accounted c txpool st) (hkept : Untaken st st') :
    Accounted c txpool st' := by
  obtain ⟨hhashes, hweights, hfees, hweight, hfee, hn, hnofake, himages, hbest⟩ := hkept.fields
  constructor
  · exact fun txid => (hkept.entries txid).trans (h.entries txid)
  · rw [hweights, hhashes, h.txWeights]
  · rw [hfees, hhashes, h.txFees]
  · rw [hweight, hhashes, h.totalWeight]
  · rw [hfee, hhashes, h.fee]
  · rw [hhashes]
    exact h.nodup
  · rw [hhashes, himages]
    exact h.images
  · rw [hhashes]
    exact h.disjoint
  · rw [hn, hnofake, hhashes]
    exact h.counters
  · rw [hweight]
    exact h.fits
  · rw [hweight, hfee, hbest]
    exact h.reward

/-- A pool whose transactions the loop can add up: each is a transaction of key inputs, and none
is so heavy that its weight and the greatest total have no room in 64 bits. -/
structure Addable (c : TemplateCall) (txpool : Txpool) : Prop where
  inputs : ∀ row ∈ txpool.rows, ∀ tx, parseAndValidateTxFromBlob c.ops c.cfg row.blob = some tx →
    ToKeyInputs tx.vin.toList
  weights : ∀ row ∈ txpool.rows, (maxTotalWeight c).toNat + row.info.weight.toNat < 2 ^ 64

structure Joins (c : TemplateCall) (txpool : Txpool) (st : Filling) (txid : Hash) (vin : List Txin)
    (info : TxpoolMeta) : Prop where
  weight : weightOf txpool txid = info.weight
  fee : feeOf txpool txid = info.fee
  images : imagesOf c txpool txid = keyImages vin
  inputs : ToKeyInputs vin
  fresh : ∀ ki ∈ keyImages vin, ki ∉ st.kImages
  sum : (st.totalWeight + info.weight).toNat = st.totalWeight.toNat + info.weight.toNat
  fits : st.totalWeight + info.weight ≤ maxTotalWeight c

theorem Takes.joins {secondPass : Bool} {txid : Hash} {st st' : Filling} {choice : Choice}
    {vin : List Txin} {info : TxpoolMeta} (haddable : Addable c txpool)
    (h : Accounted c txpool st) (htakes : Takes c secondPass txid st choice vin info st') :
    Joins c txpool st' txid vin info := by
  obtain ⟨blob, tx, hentry, hparse, rfl⟩ := htakes.entry
  rw [h.entries] at hentry
  obtain ⟨hweight, hfee, himages, row, hrow, rfl, hinfo⟩ := of_storedEntry c hentry hparse
  obtain ⟨-, -, -, htotal, -, -, -, hkImages, -⟩ := htakes.untaken.fields
  have hvin := haddable.inputs row hrow tx hparse
  have hroom := haddable.weights row hrow
  have hbelow := UInt64.le_iff_toNat_le.mp h.fits
  rw [hinfo] at hroom
  refine ⟨hweight, hfee, himages, hvin, ?_, ?_, ?_⟩
  · rw [hkImages]
    exact haveKeyImages_eq_false hvin htakes.fresh
  · rw [htotal, UInt64.toNat_add]
    exact Nat.mod_eq_of_lt (by omega)
  · rw [htotal]
    exact htakes.fits

theorem Joins.disjoint {st : Filling} (h : Accounted c txpool st) {txid : Hash} {vin : List Txin}
    {info : TxpoolMeta} (hjoins : Joins c txpool st txid vin info) :
    ∀ txid' ∈ st.txHashes, (imagesOf c txpool txid).Disjoint (imagesOf c txpool txid') := by
  intro txid' hmem ki hki hki'
  rw [hjoins.images] at hki
  exact hjoins.fresh ki hki (h.images txid' hmem ki hki')

/-- A transaction with an input of its own is not in the list. -/
theorem Joins.not_mem {st : Filling} (h : Accounted c txpool st) {txid : Hash} {vin : List Txin}
    {info : TxpoolMeta} (hjoins : Joins c txpool st txid vin info) (hvin : vin ≠ []) :
    txid ∉ st.txHashes := by
  intro hmem
  cases vin with
  | nil => exact hvin rfl
  | cons txin vin =>
      obtain ⟨amount, keyOffsets, kImage, rfl, -, -⟩ := hjoins.inputs.tail
      have hki : kImage ∈ imagesOf c txpool txid := by
        rw [hjoins.images, keyImages_cons]
        exact List.mem_cons_self
      exact hjoins.disjoint h txid hmem hki hki

theorem Joins.images_take {st : Filling} (h : Accounted c txpool st) {txid : Hash} {vin : List Txin}
    {info : TxpoolMeta} (hjoins : Joins c txpool st txid vin info) {l : List Hash}
    (hl : ∀ txid' ∈ l, txid' = txid ∨ txid' ∈ st.txHashes) :
    ∀ txid' ∈ l, ∀ ki ∈ imagesOf c txpool txid', ki ∈ appendKeyImages st.kImages vin := by
  intro txid' hmem ki hki
  rcases hl txid' hmem with rfl | hold
  · rw [hjoins.images] at hki
    exact mem_appendKeyImages hjoins.inputs hjoins.fresh ki hki
  · exact subset_appendKeyImages (h.images txid' hold ki hki)

theorem Accounted.push {st : Filling} (h : Accounted c txpool st) {txid : Hash} {vin : List Txin}
    {info : TxpoolMeta} (hjoins : Joins c txpool st txid vin info) (hnew : txid ∉ st.txHashes)
    (hcoinbase : TriedCoinbase c (st.totalWeight + info.weight) (st.fee + info.fee) st) :
    Accounted c txpool (st.take txid .pushed vin info) where
  entries := h.entries
  txWeights := by simp [Filling.take, h.txWeights, hjoins.weight]
  txFees := by simp [Filling.take, h.txFees, hjoins.fee]
  totalWeight := by
    simp only [Filling.take, hjoins.sum, h.totalWeight, List.map_append, List.sum_append,
      List.map_cons, List.map_nil, List.sum_cons, List.sum_nil, hjoins.weight, Nat.add_zero]
  fee := by
    simp only [Filling.take]
    rw [h.fee, List.map_append, List.sum_append, List.map_singleton, List.sum_singleton, hjoins.fee]
  nodup := by
    simp only [Filling.take]
    rw [List.nodup_append]
    refine ⟨h.nodup, List.nodup_singleton _, fun a ha b hb hsame => hnew ?_⟩
    rwa [← List.mem_singleton.mp hb, ← hsame]
  images := hjoins.images_take h (by simp [Filling.take, or_comm])
  disjoint := by
    simp only [Filling.take]
    rw [List.pairwise_append]
    refine ⟨h.disjoint, List.pairwise_singleton _ _, ?_⟩
    simpa using fun a ha => (hjoins.disjoint h a ha).symm
  counters := by
    have := h.counters
    simp only [Filling.take, List.length_append, List.length_singleton]
    omega
  fits := hjoins.fits
  reward := by
    obtain ⟨blockReward, hreward, hsum⟩ := hcoinbase
    exact ⟨blockReward, hreward, hsum⟩

theorem Accounted.add {st : Filling} (h : Accounted c txpool st) {txid : Hash} {vin : List Txin}
    {info : TxpoolMeta} (hjoins : Joins c txpool st txid vin info) (hvin : vin ≠ [])
    (hcoinbase : TriedCoinbase c (st.totalWeight + info.weight) (st.fee + info.fee) st) :
    Accounted c txpool (st.take txid .added vin info) where
  entries := h.entries
  txWeights := by simp [Filling.take, h.txWeights, hjoins.weight]
  txFees := by simp [Filling.take, h.txFees, hjoins.fee]
  totalWeight := by
    simp only [Filling.take, hjoins.sum, h.totalWeight, List.map_cons, List.sum_cons, hjoins.weight]
    exact Nat.add_comm _ _
  fee := by
    simp only [Filling.take]
    rw [h.fee, List.map_cons, List.sum_cons, hjoins.fee, UInt64.add_comm]
  nodup := List.nodup_cons.mpr ⟨hjoins.not_mem h hvin, h.nodup⟩
  images := hjoins.images_take h (by simp [Filling.take])
  disjoint := List.pairwise_cons.mpr ⟨hjoins.disjoint h, h.disjoint⟩
  counters := by
    have := h.counters
    simp only [Filling.take, List.length_cons]
    omega
  fits := hjoins.fits
  reward := by
    obtain ⟨blockReward, hreward, hsum⟩ := hcoinbase
    exact ⟨blockReward, hreward, hsum⟩

theorem sub_add_eq (a b d : UInt64) : a - b + d = a + d - b := by
  rw [UInt64.sub_eq_add_neg, UInt64.sub_eq_add_neg, UInt64.add_assoc, UInt64.add_comm (-b),
    UInt64.add_assoc]

/-- The one at the back goes, and its key images stay in the set. -/
theorem Accounted.replace {st : Filling} (h : Accounted c txpool st) {txid : Hash} {vin : List Txin}
    {info : TxpoolMeta} (hjoins : Joins c txpool st txid vin info) (hvin : vin ≠ [])
    (hsome : st.nofakeTxsTaken < st.n)
    (hcoinbase : TriedCoinbase c (st.totalWeight + info.weight - st.txWeights.getLastD 0)
      (st.fee + info.fee - st.txFees.getLastD 0) st) :
    Accounted c txpool (st.take txid .replacing vin info) := by
  have hne : st.txHashes ≠ [] := by
    intro hnil
    have := h.counters
    rw [hnil, List.length_nil] at this
    omega
  obtain ⟨kept, last, hlist⟩ := (List.eq_nil_or_concat st.txHashes).resolve_left hne
  rw [List.concat_eq_append] at hlist
  have hnew := hjoins.not_mem h hvin
  have hdisjoint := hjoins.disjoint h
  have hnodup := h.nodup
  have hpairwise := h.disjoint
  have htotal := h.totalWeight
  have hfee := h.fee
  rw [hlist, List.mem_append, not_or] at hnew
  rw [hlist] at hdisjoint hnodup hpairwise htotal hfee
  rw [List.map_append, List.sum_append, List.map_singleton, List.sum_singleton] at htotal hfee
  have hweights : st.txWeights = kept.map (weightOf txpool) ++ [weightOf txpool last] := by
    rw [h.txWeights, hlist, List.map_append, List.map_singleton]
  have hfees : st.txFees = kept.map (feeOf txpool) ++ [feeOf txpool last] := by
    rw [h.txFees, hlist, List.map_append, List.map_singleton]
  have htake : st.take txid .replacing vin info = { st with
      txHashes := txid :: kept
      txWeights := info.weight :: kept.map (weightOf txpool)
      txFees := info.fee :: kept.map (feeOf txpool)
      totalWeight := st.totalWeight - weightOf txpool last + info.weight
      fee := st.fee - feeOf txpool last + info.fee
      nofakeTxsTaken := st.nofakeTxsTaken + 1
      bestCoinbase := st.coinbase
      kImages := appendKeyImages st.kImages vin
      n := st.n + 1 } := by
    simp only [Filling.take, hlist, hweights, hfees, ← List.cons_append, List.dropLast_concat,
      List.getLastD_concat]
  have hless : (st.totalWeight - weightOf txpool last).toNat =
      (kept.map fun txid => (weightOf txpool txid).toNat).sum := by
    rw [UInt64.toNat_sub_of_le _ _ (UInt64.le_iff_toNat_le.mpr (by omega)), htotal]
    omega
  have hsum : (st.totalWeight - weightOf txpool last + info.weight).toNat =
      (kept.map fun txid => (weightOf txpool txid).toNat).sum + info.weight.toNat := by
    have hroom := (st.totalWeight + info.weight).toNat_lt
    rw [hjoins.sum] at hroom
    rw [UInt64.toNat_add, hless]
    exact Nat.mod_eq_of_lt (by omega)
  rw [htake]
  constructor
  · exact h.entries
  · simp [hjoins.weight]
  · simp [hjoins.fee]
  · simp only [hsum, List.map_cons, List.sum_cons, hjoins.weight]
    exact Nat.add_comm _ _
  · simp only [List.map_cons, List.sum_cons, hjoins.fee]
    rw [hfee, UInt64.add_sub_cancel, UInt64.add_comm]
  · exact List.nodup_cons.mpr ⟨hnew.1, (List.nodup_append.mp hnodup).1⟩
  · refine hjoins.images_take h fun txid' hmem => ?_
    rw [hlist]
    rcases List.mem_cons.mp hmem with rfl | hmem
    · exact .inl rfl
    · exact .inr (List.mem_append_left _ hmem)
  · exact List.pairwise_cons.mpr ⟨fun txid' hmem => hdisjoint txid' (List.mem_append_left _ hmem),
      (List.pairwise_append.mp hpairwise).1⟩
  · have := h.counters
    rw [hlist, List.length_append, List.length_singleton] at this
    simp only [List.length_cons]
    omega
  · have hfits := UInt64.le_iff_toNat_le.mp hjoins.fits
    rw [hjoins.sum] at hfits
    rw [UInt64.le_iff_toNat_le, hsum]
    omega
  · obtain ⟨blockReward, hreward, htried⟩ := hcoinbase
    rw [hweights, List.getLastD_concat] at hreward
    rw [hfees, List.getLastD_concat] at htried
    rw [sub_add_eq, sub_add_eq]
    exact ⟨blockReward, hreward, htried⟩

/-! ### The passes -/

theorem accounted_startFilling (c : TemplateCall) (txpool : Txpool) :
    Accounted c txpool (startFilling c txpool) where
  entries _ := rfl
  txWeights := rfl
  txFees := rfl
  totalWeight := rfl
  fee := rfl
  nodup := List.nodup_nil
  images txid htxid := absurd htxid List.not_mem_nil
  disjoint := List.Pairwise.nil
  counters := Nat.le_refl 0
  fits := UInt64.zero_le
  reward := by
    have hsome : ∃ blockReward, rewardFor c 0 = some blockReward := by
      rw [rewardFor, getBlockReward, if_pos UInt64.zero_le]
      exact ⟨_, rfl⟩
    obtain ⟨blockReward, hreward⟩ := hsome
    refine ⟨blockReward, hreward, ?_⟩
    rw [startFilling, hreward]
    exact (UInt64.add_zero blockReward).symm

/-- An iteration of the first pass at a transaction that is not in the list, or one of the second
pass at any transaction. -/
theorem Accounted.fillStep (hversion : 5 ≤ c.version) (haddable : Addable c txpool)
    {st : Filling} (h : Accounted c txpool st) {secondPass : Bool} {txid : Hash}
    (hnew : secondPass = false → txid ∉ st.txHashes) :
    ∃ st', fillStep c secondPass txid st = .next st' ∧ Accounted c txpool st' ∧
      ∀ txid' ∈ st'.txHashes, txid' = txid ∨ txid' ∈ st.txHashes := by
  rw [TxPool.fillStep]
  rcases decideTx_spec hversion secondPass txid st with
    ⟨st', hdecide, hkept⟩ | ⟨choice, vin, info, st', hdecide, htakes⟩
  · rw [hdecide]
    refine ⟨st', rfl, h.untaken hkept, fun txid' hmem => .inr ?_⟩
    rwa [hkept.fields.1] at hmem
  · have hst' := h.untaken htakes.untaken
    have hjoins := htakes.joins haddable h
    obtain ⟨hhashes, hweights, hfees, hweight, hfee, hn, hnofake, -, -⟩ := htakes.untaken.fields
    have htried := htakes.tried
    rw [hdecide]
    refine ⟨_, rfl, ?_⟩
    rw [← hhashes] at hnew ⊢
    cases choice with
    | pushed =>
        obtain ⟨hfirst, hcoinbase⟩ := htried
        rw [← hweight, ← hfee] at hcoinbase
        refine ⟨hst'.push hjoins (hnew hfirst) hcoinbase, ?_⟩
        simp [Filling.take, or_comm]
    | added =>
        obtain ⟨hvin, hcoinbase⟩ := htried
        rw [← hweight, ← hfee] at hcoinbase
        refine ⟨hst'.add hjoins hvin hcoinbase, ?_⟩
        simp [Filling.take]
    | replacing =>
        obtain ⟨hvin, hsome, hcoinbase⟩ := htried
        rw [← hn, ← hnofake] at hsome
        rw [← hweight, ← hfee, ← hweights, ← hfees] at hcoinbase
        refine ⟨hst'.replace hjoins hvin hsome hcoinbase, fun txid' hmem => ?_⟩
        exact List.mem_cons.mp (List.mem_of_mem_dropLast hmem)

theorem Accounted.firstPass (hversion : 5 ≤ c.version) (haddable : Addable c txpool)
    {txids : List Hash} {st : Filling} (h : Accounted c txpool st) (hnodup : txids.Nodup)
    (hnew : ∀ txid ∈ txids, txid ∉ st.txHashes) :
    ∃ st', fillPass c false txids st = .next st' ∧ Accounted c txpool st' := by
  induction txids generalizing st with
  | nil => exact ⟨st, rfl, h⟩
  | cons txid txids ih =>
      rw [List.nodup_cons] at hnodup
      rw [List.forall_mem_cons] at hnew
      obtain ⟨st', hstep, haccounted, hmem⟩ := h.fillStep hversion haddable fun _ => hnew.1
      rw [TxPool.fillPass, hstep]
      refine ih haccounted hnodup.2 fun txid' htxid' hold => ?_
      rcases hmem txid' hold with rfl | hold
      · exact hnodup.1 htxid'
      · exact hnew.2 txid' htxid' hold

theorem Accounted.secondPass (hversion : 5 ≤ c.version) (haddable : Addable c txpool)
    (txids : List Hash) {st : Filling} (h : Accounted c txpool st) :
    ∃ st', fillPass c true txids st = .next st' ∧ Accounted c txpool st' := by
  induction txids generalizing st with
  | nil => exact ⟨st, rfl, h⟩
  | cons txid txids ih =>
      obtain ⟨st', hstep, haccounted, -⟩ :=
        h.fillStep hversion haddable fun hfirst => absurd hfirst.symm Bool.false_ne_true
      rw [TxPool.fillPass, hstep]
      exact ih haccounted

variable {ρ : Type}

theorem Consistent.addable {p : Pool ρ} (h : Consistent c.ops c.cfg p)
    (hweights : ∀ row ∈ p.txpool.rows, (maxTotalWeight c).toNat + row.info.weight.toNat < 2 ^ 64) :
    Addable c p.txpool := by
  refine ⟨fun row hrow tx hparse => ?_, hweights⟩
  obtain ⟨tx', hheld⟩ := h.held row hrow
  have hparsed := hheld.parsed
  rw [hparse] at hparsed
  rw [Option.some.inj hparsed]
  exact hheld.inputs

/-- From version 5 on, a template holds different transactions of the pool without a common key
image. Its weight and its fee are their sums, the weight is within the limit, and the expected
reward is that of the weight, with the fee. -/
theorem fillBlockTemplate_sums (c : TemplateCall) (p : Pool ρ) (hversion : 5 ≤ c.version)
    (hpool : Consistent c.ops c.cfg p)
    (hweights : ∀ row ∈ p.txpool.rows, (maxTotalWeight c).toNat + row.info.weight.toNat < 2 ^ 64) :
    ∃ st, fillBlockTemplate c p = some st ∧
      st.totalWeight.toNat = (st.txHashes.map fun txid => (weightOf p.txpool txid).toNat).sum ∧
      st.fee = (st.txHashes.map (feeOf p.txpool)).sum ∧
      st.txHashes.Nodup ∧
      (st.txHashes.Pairwise fun txid txid' =>
        (imagesOf c p.txpool txid).Disjoint (imagesOf c p.txpool txid')) ∧
      st.totalWeight ≤ 2 * c.medianWeight - c.coinbaseBlobReservedSize ∧
      (∃ blockReward, rewardFor c st.totalWeight = some blockReward ∧
        st.bestCoinbase = blockReward + st.fee) ∧
      (st.txHashes = [] → rewardFor c 0 = some st.bestCoinbase) := by
  have haddable := hpool.addable hweights
  have hnodup : (sortedIds p).Nodup := hpool.sorted_nodup
  obtain ⟨st, hpass, hst⟩ := (accounted_startFilling c p.txpool).firstPass hversion haddable hnodup
    fun txid _ => List.not_mem_nil
  have hfilled : ∃ st, fillBlockTemplate c p = some st ∧ Accounted c p.txpool st := by
    rw [fillBlockTemplate, hpass]
    simp only
    split
    · exact ⟨st, rfl, hst⟩
    · obtain ⟨st', hpass', hst'⟩ := hst.secondPass hversion haddable (sortedIds p)
      rw [hpass']
      exact ⟨st', rfl, hst'⟩
  obtain ⟨st, hst, haccounted⟩ := hfilled
  have hfits := haccounted.fits
  rw [maxTotalWeight, if_pos hversion] at hfits
  refine ⟨st, hst, haccounted.totalWeight, haccounted.fee, haccounted.nodup, haccounted.disjoint,
    hfits, haccounted.reward, fun hnone => ?_⟩
  obtain ⟨blockReward, hreward, hsum⟩ := haccounted.reward
  have hweight : st.totalWeight = 0 := by
    rw [← UInt64.toNat_inj, haccounted.totalWeight, hnone]
    rfl
  have hfee : st.fee = 0 := by
    rw [haccounted.fee, hnone]
    rfl
  rw [← hweight, hreward, hsum, hfee, UInt64.add_zero]

theorem run_templatePool : Run fractionRate templateOps currentConfig paymentConf
    (Admissible templateOps currentConfig) templatePool := by
  have hone : Run fractionRate templateOps currentConfig paymentConf
      (Admissible templateOps currentConfig) _ :=
    .step paymentView (.addTx (paymentArgs 0x51) default) (.empty 648000000)
      ⟨⟨txToBlob currentConfig (paymentTx 0x51), by decide +kernel⟩, by decide +kernel, by decide,
        ⟨by decide, by decide⟩, by decide⟩
  have htwo := Run.step paymentView (.addTx (paymentArgs 0x52) default) hone
    ⟨⟨txToBlob currentConfig (paymentTx 0x52), by decide +kernel⟩, by decide +kernel, by decide,
      ⟨by decide, by decide⟩, by decide +kernel⟩
  exact .step paymentView (.addTx ⟨ringTx, ringTxId, 269, false, false, false, 1⟩ default) htwo
    ⟨⟨txToBlob currentConfig ringTx, by decide +kernel⟩, by decide +kernel, by decide,
      ⟨by decide, by decide⟩, by decide +kernel⟩

theorem fillBlockTemplate_sums_templatePool :
    5 ≤ templateCall.version ∧ ∃ st, fillBlockTemplate templateCall templatePool = some st ∧
      st.txHashes.length = 2 ∧ st.totalWeight = 278 ∧
      st.totalWeight.toNat = (st.txHashes.map fun txid =>
        (weightOf templatePool.txpool txid).toNat).sum ∧
      st.fee = (st.txHashes.map (feeOf templatePool.txpool)).sum ∧
      ∃ blockReward, rewardFor templateCall st.totalWeight = some blockReward ∧
        st.bestCoinbase = blockReward + st.fee := by
  obtain ⟨st, hst, hweight, hfee, -, -, -, hreward, -⟩ := fillBlockTemplate_sums templateCall
    templatePool (by decide) run_templatePool.consistent (by decide +kernel)
  have hfilled : (fillBlockTemplate templateCall templatePool).map
      (fun st => (st.txHashes.length, st.totalWeight)) = some (2, 278) := by
    decide +kernel
  rw [hst, Option.map_some, Option.some.injEq, Prod.mk.injEq] at hfilled
  exact ⟨by decide, st, hst, hfilled.1, hfilled.2, hweight, hfee, hreward⟩

end XrCoin.TxPool

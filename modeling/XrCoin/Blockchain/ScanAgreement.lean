import XrCoin.Blockchain.ScanTable

/-!
When the ring members that the table has are those that the database gives directly.

Two things can go wrong. An input may find what was looked up for another input of its
transaction, with the same key image. And when the first ring member was missing as the
table was filled, the members are taken one by one, so that some are visited before one
is found to be missing.
-/

namespace XrCoin.Blockchain

open Archive Cryptonote BlockchainDb

/-! ### Later databases -/

def OutputsView.Extends (db db' : OutputsView) : Prop :=
  ∀ amount i data, db.getOutputKey amount i = some data → db'.getOutputKey amount i = some data

def OutputsView.HasCounts (db : OutputsView) (counts : UInt64 → ℕ) : Prop :=
  ∀ amount i, (db.getOutputKey amount i).isSome = true ↔ i < counts amount

/-- The offsets up to the first that is missing. -/
def foundOffsets (count : ℕ) (offsets : List UInt64) : List UInt64 :=
  offsets.takeWhile fun o => o.toNat < count

theorem getOutputKeys_found {db : OutputsView} {counts : UInt64 → ℕ} (h : db.HasCounts counts)
    (amount : UInt64) (offsets : List UInt64) :
    (getOutputKeys (db.getOutputKey amount) offsets).length =
        (foundOffsets (counts amount) offsets).length ∧
      ∀ (i : ℕ) (data : OutputData),
        (getOutputKeys (db.getOutputKey amount) offsets)[i]? = some data → ∃ o : UInt64,
          (foundOffsets (counts amount) offsets)[i]? = some o ∧ db.getOutputKey amount o.toNat = some data := by
  induction offsets with
  | nil => exact ⟨rfl, fun i data hdata => absurd hdata (by simp [getOutputKeys])⟩
  | cons o offsets ih =>
      rw [getOutputKeys, foundOffsets, List.takeWhile_cons]
      cases hget : db.getOutputKey amount o.toNat with
      | none =>
          have hmissing : ¬o.toNat < counts amount := by
            rw [← h amount, hget]
            exact Bool.false_ne_true
          simp [hmissing]
      | some first =>
          have hthere : o.toNat < counts amount := by
            rw [← h amount, hget]
            rfl
          simp only [hthere, decide_true, if_true, List.length_cons]
          refine ⟨by rw [ih.1, foundOffsets], ?_⟩
          intro i data hdata
          cases i with
          | zero => exact ⟨o, rfl, hget.trans hdata⟩
          | succ i => exact ih.2 i data hdata

theorem getOutputKeys_all {get : ℕ → Option OutputData} {offsets : List UInt64}
    (h : ∀ o ∈ offsets, (get o.toNat).isSome = true) {i : ℕ} {o : UInt64}
    (ho : offsets[i]? = some o) : (getOutputKeys get offsets)[i]? = get o.toNat := by
  have hlength := length_getOutputKeys_iff.mpr h
  have hlt : i < (getOutputKeys get offsets).length := by
    rw [← hlength]
    exact (List.getElem?_eq_some_iff.mp ho).1
  obtain ⟨o', ho', hget⟩ := getOutputKeys_getElem (List.getElem?_eq_getElem hlt)
  rw [ho] at ho'
  rw [List.getElem?_eq_getElem hlt, Option.some.inj ho', hget]

/-! ### The loop over the offsets -/

section

variable {vis : List Visit → Bool} {get : ℕ → Option OutputData}

/-- The known outputs are those of the database, as far as there are offsets. -/
def KnownRight (get : ℕ → Option OutputData) (offsets : List UInt64) (outputs : List OutputData) :
    Prop :=
  ∀ (i : ℕ) (data : OutputData) (o : UInt64), outputs[i]? = some data → offsets[i]? = some o →
    get o.toNat = some data

theorem visitOutputs_known {offsets : List UInt64} {outputs : List OutputData}
    (h : KnownRight get offsets outputs)
    (visited : List Visit) (pmax : Option ℕ) :
    visitOutputs vis get offsets outputs visited pmax =
      visitOutputs vis get offsets [] visited pmax := by
  induction offsets generalizing outputs visited pmax with
  | nil => rw [visitOutputs, visitOutputs]
  | cons o offsets ih =>
      have hhead : outputs.head?.or (get o.toNat) = get o.toNat := by
        cases outputs with
        | nil => rfl
        | cons data outputs => exact (h 0 data o rfl rfl).symm
      rw [visitOutputs, visitOutputs, hhead, List.head?_nil, Option.none_or, List.tail_nil]
      cases get o.toNat with
      | none => rfl
      | some data =>
          simp only
          split
          · apply ih
            intro i data' o' hdata ho'
            cases outputs with
            | nil => exact absurd hdata (by simp)
            | cons first outputs => exact h (i + 1) data' o' hdata ho'
          · rfl

theorem visitOutputs_all {offsets : List UInt64} (outputs : List OutputData)
    (h : ∀ o ∈ offsets, (get o.toNat).isSome = true) (visited : List Visit) (pmax : Option ℕ) :
    (visitOutputs (fun _ => true) get offsets outputs visited pmax).visited =
      visited ++ ((outputs ++ getOutputKeys get (offsets.drop outputs.length)).take
        offsets.length).map OutputData.visit := by
  induction offsets generalizing outputs visited pmax with
  | nil => simp [visitOutputs]
  | cons o offsets ih =>
      rw [List.forall_mem_cons] at h
      obtain ⟨data, hdata⟩ := Option.isSome_iff_exists.mp h.1
      rw [visitOutputs]
      cases outputs with
      | nil =>
          simp only [List.head?_nil, hdata, Option.none_or, if_true, List.tail_nil]
          rw [ih [] h.2, List.length_nil, List.drop_zero, List.drop_zero, getOutputKeys, hdata]
          simp
      | cons first outputs =>
          simp only [List.head?_cons, Option.some_or, if_true, List.tail_cons]
          rw [ih outputs h.2]
          simp

theorem visitOutputs_prefix (vis : List Visit → Bool) (get : ℕ → Option OutputData)
    (offsets : List UInt64) (outputs : List OutputData) (visited : List Visit)
    (pmax : Option ℕ) :
    visited <+: (visitOutputs vis get offsets outputs visited pmax).visited := by
  induction offsets generalizing outputs visited pmax with
  | nil => exact List.prefix_rfl
  | cons o offsets ih =>
      rw [visitOutputs]
      cases outputs.head?.or (get o.toNat) with
      | none => exact List.prefix_rfl
      | some data =>
          simp only
          split
          · exact (List.prefix_append visited [data.visit]).trans (ih _ _ _)
          · exact List.prefix_append visited [data.visit]

end

/-! ### Agreement -/

/-- The entry of an input suits it, when it was made for the given input of the same
transaction. If the first member was missing, no later member may exceed it that was
missing as well; otherwise what was found has to be what is asked for. -/
def EntrySuits (counts : UInt64 → ℕ) (first txin : TxinToKey) : Prop :=
  if foundOffsets (counts first.amount) first.absoluteOffsets = [] then
    ∀ o ∈ txin.absoluteOffsets.head?, ∀ p ∈ txin.absoluteOffsets, o < p → p.toNat < counts txin.amount
  else
    txin.absoluteOffsets ≠ [] → txin.amount = first.amount ∧
      ∀ (i : ℕ) (o p : UInt64),
        (foundOffsets (counts first.amount) first.absoluteOffsets)[i]? = some o →
          txin.absoluteOffsets[i]? = some p → o = p

theorem absoluteOffsets_eq_nil {txin : TxinToKey} : txin.absoluteOffsets = [] ↔ txin.keyOffsets = [] := by
  rw [TxinToKey.absoluteOffsets, relativeOutputOffsetsToAbsolute]
  cases txin.keyOffsets with
  | nil => exact iff_of_true rfl rfl
  | cons o offsets => exact iff_of_false (by simp [addUpOffsets]) (by simp)

section

variable {counts : UInt64 → ℕ} {db db' : OutputsView} {txPrefixHash : Hash} {txin : TxinToKey}
  {table : ScanTable} {vis : List Visit → Bool} {pmax : Option ℕ}

/-- Without an entry, the result is that of the offsets one by one, or nothing is visited. -/
theorem scan_of_none (hkey : txin.keyOffsets ≠ [])
    (h : ((table.lookup txPrefixHash).bind fun map => map.lookup txin.kImage) = none) :
    scanOutputkeysForIndexes table db txPrefixHash txin vis pmax =
      if txin.absoluteOffsets.length =
          (getOutputKeys (db.getOutputKey txin.amount) txin.absoluteOffsets).length then
        visitOutputs vis (db.getOutputKey txin.amount) txin.absoluteOffsets [] [] pmax
      else ⟨false, [], pmax⟩ := by
  rw [scanOutputkeysForIndexes, if_neg hkey, knownOutputs, h]
  simp only
  by_cases hall : txin.absoluteOffsets.length =
      (getOutputKeys (db.getOutputKey txin.amount) txin.absoluteOffsets).length
  · rw [if_pos hall, if_pos hall]
    apply visitOutputs_known
    intro i data o hdata ho
    obtain ⟨o', ho', hget⟩ := getOutputKeys_getElem hdata
    rw [ho] at ho'
    rwa [Option.some.inj ho']
  · rw [if_neg hall, if_neg hall]

/-- A batch of which the table has nothing is read directly. -/
theorem scan_congr_none
    (h : ((table.lookup txPrefixHash).bind fun map => map.lookup txin.kImage) = none) :
    scanOutputkeysForIndexes table db txPrefixHash txin vis pmax =
      scanOutputkeysForIndexes [] db txPrefixHash txin vis pmax := by
  by_cases hkey : txin.keyOffsets = []
  · rw [scanOutputkeysForIndexes, scanOutputkeysForIndexes, if_pos hkey, if_pos hkey]
  · rw [scan_of_none hkey h, scan_of_none hkey rfl]

theorem scan_of_some (hkey : txin.keyOffsets ≠ []) {outputs : List OutputData}
    (h : ((table.lookup txPrefixHash).bind fun map => map.lookup txin.kImage) = some outputs) :
    scanOutputkeysForIndexes table db txPrefixHash txin vis pmax =
      if outputs.length < txin.absoluteOffsets.length ∧ 0 < outputs.length then
        if (txin.absoluteOffsets.drop outputs.length).length = (getOutputKeys
            (db.getOutputKey txin.amount) (txin.absoluteOffsets.drop outputs.length)).length then
          visitOutputs vis (db.getOutputKey txin.amount) txin.absoluteOffsets
            (outputs ++ getOutputKeys (db.getOutputKey txin.amount)
              (txin.absoluteOffsets.drop outputs.length)) [] pmax
        else ⟨false, [], pmax⟩
      else visitOutputs vis (db.getOutputKey txin.amount) txin.absoluteOffsets outputs [] pmax := by
  rw [scanOutputkeysForIndexes, if_neg hkey, knownOutputs, h]
  simp only
  by_cases hpartial : outputs.length < txin.absoluteOffsets.length ∧ 0 < outputs.length
  · rw [if_pos hpartial, if_pos hpartial]
    by_cases hadded : (txin.absoluteOffsets.drop outputs.length).length = (getOutputKeys
        (db.getOutputKey txin.amount) (txin.absoluteOffsets.drop outputs.length)).length
    · rw [if_pos hadded, if_pos hadded]
    · rw [if_neg hadded, if_neg hadded]
  · rw [if_neg hpartial, if_neg hpartial]

theorem KnownRight.isSome {get : ℕ → Option OutputData} {offsets : List UInt64}
    {outputs : List OutputData} (h : KnownRight get offsets outputs) {i : ℕ} {o : UInt64}
    (hi : i < outputs.length) (ho : offsets[i]? = some o) : (get o.toNat).isSome = true := by
  rw [h i _ o (List.getElem?_eq_getElem hi) ho]
  rfl

/-- Right outputs to begin with, completed from the database, give what the database gives. -/
theorem KnownRight.scan_eq {outputs : List OutputData}
    (h : KnownRight (db.getOutputKey txin.amount) txin.absoluteOffsets outputs)
    (hsome : outputs ≠ [])
    (hentry : ((table.lookup txPrefixHash).bind fun map => map.lookup txin.kImage) =
      some outputs) :
    scanOutputkeysForIndexes table db txPrefixHash txin vis pmax =
      scanOutputkeysForIndexes [] db txPrefixHash txin vis pmax := by
  by_cases hkey : txin.keyOffsets = []
  · rw [scanOutputkeysForIndexes, scanOutputkeysForIndexes, if_pos hkey, if_pos hkey]
  rw [scan_of_some hkey hentry, scan_of_none hkey rfl]
  by_cases hpartial : outputs.length < txin.absoluteOffsets.length ∧ 0 < outputs.length
  · rw [if_pos hpartial]
    -- the rest is there exactly when all is there
    have hrest : (txin.absoluteOffsets.drop outputs.length).length = (getOutputKeys
        (db.getOutputKey txin.amount) (txin.absoluteOffsets.drop outputs.length)).length ↔
          txin.absoluteOffsets.length =
            (getOutputKeys (db.getOutputKey txin.amount) txin.absoluteOffsets).length := by
      rw [length_getOutputKeys_iff, length_getOutputKeys_iff]
      constructor
      · intro hdropped o ho
        obtain ⟨i, hi⟩ := List.getElem?_of_mem ho
        rcases Nat.lt_or_ge i outputs.length with hlt | hge
        · exact h.isSome hlt hi
        · apply hdropped o
          apply List.mem_of_getElem? (i := i - outputs.length)
          rw [List.getElem?_drop, ← hi]
          congr 1
          omega
      · exact fun hall o ho => hall o (List.mem_of_mem_drop ho)
    by_cases hall : txin.absoluteOffsets.length =
        (getOutputKeys (db.getOutputKey txin.amount) txin.absoluteOffsets).length
    · rw [if_pos (hrest.mpr hall), if_pos hall]
      apply visitOutputs_known
      intro i data o hdata ho
      rcases Nat.lt_or_ge i outputs.length with hlt | hge
      · rw [List.getElem?_append_left hlt] at hdata
        exact h i data o hdata ho
      · rw [List.getElem?_append_right hge] at hdata
        obtain ⟨o', ho', hget⟩ := getOutputKeys_getElem hdata
        rw [List.getElem?_drop, show outputs.length + (i - outputs.length) = i by omega, ho] at ho'
        rwa [Option.some.inj ho']
    · rw [if_neg (mt hrest.mp hall), if_neg hall]
  · -- there are as many outputs as offsets
    have hall : txin.absoluteOffsets.length =
        (getOutputKeys (db.getOutputKey txin.amount) txin.absoluteOffsets).length := by
      rw [length_getOutputKeys_iff]
      intro o ho
      obtain ⟨i, hi⟩ := List.getElem?_of_mem ho
      have hpos := List.length_pos_of_ne_nil hsome
      have hlt := (List.getElem?_eq_some_iff.mp hi).1
      exact h.isSome (by omega) hi
    rw [if_neg hpartial, if_pos hall]
    exact visitOutputs_known h [] pmax

/-- An empty entry gives what the database gives, when all is missing from the first on. -/
theorem scan_of_empty (hentry : ((table.lookup txPrefixHash).bind fun map =>
      map.lookup txin.kImage) = some [])
    (h : ∀ o ∈ txin.absoluteOffsets.head?, ∀ p ∈ txin.absoluteOffsets,
      (db.getOutputKey txin.amount o.toNat).isSome = true →
        (db.getOutputKey txin.amount p.toNat).isSome = true) :
    scanOutputkeysForIndexes table db txPrefixHash txin vis pmax =
      scanOutputkeysForIndexes [] db txPrefixHash txin vis pmax := by
  by_cases hkey : txin.keyOffsets = []
  · rw [scanOutputkeysForIndexes, scanOutputkeysForIndexes, if_pos hkey, if_pos hkey]
  rw [scan_of_some hkey hentry, scan_of_none hkey rfl, if_neg (by simp)]
  by_cases hall : txin.absoluteOffsets.length =
      (getOutputKeys (db.getOutputKey txin.amount) txin.absoluteOffsets).length
  · rw [if_pos hall]
  · rw [if_neg hall]
    rw [length_getOutputKeys_iff, not_forall] at hall
    obtain ⟨p, hp⟩ := hall
    rw [Classical.not_imp] at hp
    cases hoffsets : txin.absoluteOffsets with
    | nil => exact absurd (absoluteOffsets_eq_nil.mp hoffsets) hkey
    | cons o offsets =>
        have hmissing : db.getOutputKey txin.amount o.toNat = none := by
          rw [← Option.not_isSome_iff_eq_none]
          intro hsome
          exact hp.2 (h o (by rw [hoffsets]; rfl) p hp.1 hsome)
        rw [visitOutputs, hmissing]
        rfl

theorem EntrySuits.scan_eq {first : TxinToKey} (hsuits : EntrySuits counts first txin)
    (hcounts : db.HasCounts counts) (hextends : db.Extends db')
    (hentry : ((table.lookup txPrefixHash).bind fun map => map.lookup txin.kImage) =
      some (getOutputKeys (db.getOutputKey first.amount) first.absoluteOffsets)) :
    scanOutputkeysForIndexes table db' txPrefixHash txin vis pmax =
      scanOutputkeysForIndexes [] db' txPrefixHash txin vis pmax := by
  obtain ⟨hlength, hget⟩ := getOutputKeys_found hcounts first.amount first.absoluteOffsets
  have hlater : ∀ amount i, i < counts amount → (db'.getOutputKey amount i).isSome = true := by
    intro amount i hi
    obtain ⟨data, hdata⟩ := Option.isSome_iff_exists.mp ((hcounts amount i).mpr hi)
    rw [hextends amount i data hdata]
    rfl
  by_cases hfound : foundOffsets (counts first.amount) first.absoluteOffsets = []
  · rw [EntrySuits, if_pos hfound] at hsuits
    rw [hfound, List.length_nil, List.length_eq_zero_iff] at hlength
    rw [hlength] at hentry
    apply scan_of_empty hentry
    intro o ho p hp hsome
    rcases Nat.lt_trichotomy p.toNat o.toNat with hlt | heq | hgt
    · exact db'.closed txin.amount hlt hsome
    · rwa [heq]
    · exact hlater txin.amount p.toNat (hsuits o ho p hp (UInt64.lt_iff_toNat_lt.mpr hgt))
  · rw [EntrySuits, if_neg hfound] at hsuits
    by_cases hkey : txin.absoluteOffsets = []
    · rw [scanOutputkeysForIndexes, scanOutputkeysForIndexes,
        if_pos (absoluteOffsets_eq_nil.mp hkey), if_pos (absoluteOffsets_eq_nil.mp hkey)]
    obtain ⟨hamount, hsame⟩ := hsuits hkey
    refine KnownRight.scan_eq ?_ ?_ hentry
    · intro i data p hdata hp
      obtain ⟨o, ho, hdb⟩ := hget i data hdata
      rw [hsame i o p ho hp, ← hamount] at hdb
      exact hextends _ _ _ hdb
    · intro hnil
      rw [hnil, List.length_nil, eq_comm, List.length_eq_zero_iff] at hlength
      exact hfound hlength

end

/-! ### Disagreement -/

def amountKey (amount : UInt64) : PublicKey := ⟨leBytes 32 amount.toNat, leBytes_length 32 _⟩

def markedOutput (amount : UInt64) (index : ℕ) : OutputData :=
  ⟨amountKey amount, UInt64.ofNat index, 0, default⟩

theorem markedOutput_visit_inj {amount amount' o o' : UInt64}
    (h : (markedOutput amount o.toNat).visit = (markedOutput amount' o'.toNat).visit) :
    amount = amount' ∧ o = o' := by
  rw [OutputData.visit, OutputData.visit, Visit.mk.injEq] at h
  obtain ⟨hindex, hkey, -⟩ := h
  have hbytes : leBytes 32 amount.toNat = leBytes 32 amount'.toNat := congrArg Subtype.val hkey
  have hvalue := congrArg leValue hbytes
  have hlt : ∀ n : UInt64, n.toNat < 256 ^ 32 := fun n => n.toNat_lt.trans (by decide)
  rw [leValue_leBytes (hlt amount), leValue_leBytes (hlt amount')] at hvalue
  simp only [markedOutput, UInt64.ofNat_toNat] at hindex
  exact ⟨UInt64.toNat_inj.mp hvalue, hindex⟩

def countedView (counts : UInt64 → ℕ) : OutputsView where
  getOutputKey amount i := if i < counts amount then some (markedOutput amount i) else none
  closed := by
    intro amount i j hij hj
    have hlt : j < counts amount := by
      by_contra hnot
      rw [if_neg hnot] at hj
      exact Bool.false_ne_true hj
    rw [if_pos (hij.trans hlt)]
    rfl

theorem countedView_hasCounts (counts : UInt64 → ℕ) : (countedView counts).HasCounts counts := by
  intro amount i
  show (if i < counts amount then some (markedOutput amount i) else none).isSome = true ↔ _
  by_cases hlt : i < counts amount
  · rw [if_pos hlt]
    exact iff_of_true rfl hlt
  · rw [if_neg hlt]
    exact iff_of_false Bool.false_ne_true hlt

theorem countedView_get {counts : UInt64 → ℕ} {amount : UInt64} {i : ℕ} {data : OutputData}
    (h : (countedView counts).getOutputKey amount i = some data) :
    i < counts amount ∧ data = markedOutput amount i := by
  have hlt : i < counts amount := by
    rw [← countedView_hasCounts counts amount i, h]
    rfl
  have hdata : (countedView counts).getOutputKey amount i = some (markedOutput amount i) := if_pos hlt
  exact ⟨hlt, Option.some.inj (h.symm.trans hdata)⟩

theorem countedView_extends {counts counts' : UInt64 → ℕ} (h : ∀ amount, counts amount ≤ counts' amount) :
    (countedView counts).Extends (countedView counts') := by
  intro amount i data hdata
  obtain ⟨hlt, rfl⟩ := countedView_get hdata
  exact if_pos (hlt.trans_le (h amount))

section

variable {counts : UInt64 → ℕ} {txPrefixHash : Hash} {first txin : TxinToKey}

/-- The lookups agree, on databases with marked outputs, for a visitor that takes all. -/
def MarkedAgree (table : OutputsView → ScanTable) (counts : UInt64 → ℕ) (txPrefixHash : Hash)
    (txin : TxinToKey) : Prop :=
  ∀ counts' : UInt64 → ℕ, (∀ amount, counts amount ≤ counts' amount) →
    scanOutputkeysForIndexes (table (countedView counts)) (countedView counts') txPrefixHash txin
        (fun _ => true) none =
      scanOutputkeysForIndexes [] (countedView counts') txPrefixHash txin (fun _ => true) none

theorem MarkedAgree.suits_of_empty {table : OutputsView → ScanTable}
    (h : MarkedAgree table counts txPrefixHash txin)
    (hentry : (((table (countedView counts)).lookup txPrefixHash).bind fun map =>
      map.lookup txin.kImage) = some []) :
    ∀ o ∈ txin.absoluteOffsets.head?, ∀ p ∈ txin.absoluteOffsets, o < p →
      p.toNat < counts txin.amount := by
  intro o ho p hp hlt
  by_contra hmissing
  cases hoffsets : txin.absoluteOffsets with
  | nil =>
      rw [hoffsets] at ho
      exact absurd ho (by simp)
  | cons o' offsets =>
      rw [hoffsets] at ho
      obtain rfl := Option.some.inj ho
      have hkey : txin.keyOffsets ≠ [] := by
        intro hnil
        rw [absoluteOffsets_eq_nil.mpr hnil] at hoffsets
        exact absurd hoffsets (by simp)
      -- the first member comes to be there and the other one does not
      obtain ⟨counts', hle, hcount⟩ : ∃ counts' : UInt64 → ℕ,
          (∀ amount, counts amount ≤ counts' amount) ∧
            counts' txin.amount = max (counts txin.amount) (o'.toNat + 1) := by
        refine ⟨Function.update counts txin.amount (max (counts txin.amount) (o'.toNat + 1)), ?_,
          Function.update_self _ _ _⟩
        intro amount
        by_cases heq : amount = txin.amount
        · rw [heq, Function.update_self]
          exact le_max_left _ _
        · rw [Function.update_of_ne heq]
      have hsame := h counts' hle
      have hnotall : ¬txin.absoluteOffsets.length = (getOutputKeys
          ((countedView counts').getOutputKey txin.amount) txin.absoluteOffsets).length := by
        rw [length_getOutputKeys_iff]
        intro hall
        have hthere := (countedView_hasCounts _ _ _).mp (hall p hp)
        rw [UInt64.lt_iff_toNat_lt] at hlt
        omega
      have hfirst : (countedView counts').getOutputKey txin.amount o'.toNat =
          some (markedOutput txin.amount o'.toNat) := by
        apply if_pos
        omega
      rw [scan_of_some hkey hentry, scan_of_none hkey rfl, if_neg (by simp), if_neg hnotall,
        hoffsets, visitOutputs, hfirst] at hsame
      have hvisited := congrArg ScanResult.visited hsame
      simp only [List.head?_nil, Option.none_or, if_true, List.tail_nil, List.nil_append] at hvisited
      have hprefix := visitOutputs_prefix (fun _ => true)
        ((countedView counts').getOutputKey txin.amount) offsets []
        [(markedOutput txin.amount o'.toNat).visit]
        (if offsets = [] then Option.map (max · (markedOutput txin.amount o'.toNat).height) none
          else none)
      rw [hvisited, List.prefix_nil] at hprefix
      exact absurd hprefix (by simp)

theorem MarkedAgree.suits_of_found {table : OutputsView → ScanTable}
    (h : MarkedAgree table counts txPrefixHash txin)
    (hentry : (((table (countedView counts)).lookup txPrefixHash).bind fun map =>
      map.lookup txin.kImage) = some (getOutputKeys ((countedView counts).getOutputKey first.amount)
        first.absoluteOffsets)) {i : ℕ} {o p : UInt64}
    (ho : (foundOffsets (counts first.amount) first.absoluteOffsets)[i]? = some o)
    (hp : txin.absoluteOffsets[i]? = some p) : txin.amount = first.amount ∧ o = p := by
  -- all members come to be there
  have hsame := h (fun amount => max (counts amount) (2 ^ 64)) fun amount => le_max_left _ _
  generalize hview : countedView (fun amount => max (counts amount) (2 ^ 64)) = db at hsame
  have hall : ∀ (amount o : UInt64),
      db.getOutputKey amount o.toNat = some (markedOutput amount o.toNat) := by
    intro amount o
    rw [← hview]
    exact if_pos (o.toNat_lt.trans_le (le_max_right _ _))
  have hthere : ∀ o ∈ txin.absoluteOffsets, (db.getOutputKey txin.amount o.toNat).isSome = true := by
    intro o _
    rw [hall]
    rfl
  have hkey : txin.keyOffsets ≠ [] := by
    intro hnil
    rw [absoluteOffsets_eq_nil.mpr hnil] at hp
    exact absurd hp (by simp)
  have hi : i < txin.absoluteOffsets.length := (List.getElem?_eq_some_iff.mp hp).1
  -- the direct lookup visits the member
  have hdirect : (scanOutputkeysForIndexes [] db txPrefixHash txin (fun _ => true) none).visited[i]? =
      some (markedOutput txin.amount p.toNat).visit := by
    rw [scan_of_none hkey rfl, if_pos (length_getOutputKeys_iff.mpr hthere),
      visitOutputs_all [] hthere, List.nil_append, List.nil_append, List.length_nil, List.drop_zero,
      List.getElem?_map, List.getElem?_take_of_lt hi, getOutputKeys_all hthere hp, hall]
    rfl
  -- the table has the other one
  obtain ⟨hlength, hget⟩ := getOutputKeys_found (countedView_hasCounts counts) first.amount
    first.absoluteOffsets
  generalize hoffsets : txin.absoluteOffsets = offsets at *
  generalize houtputs : getOutputKeys ((countedView counts).getOutputKey first.amount)
    first.absoluteOffsets = outputs at *
  have hlt : i < outputs.length := by
    rw [hlength]
    exact (List.getElem?_eq_some_iff.mp ho).1
  have hmember : outputs[i]? = some (markedOutput first.amount o.toNat) := by
    obtain ⟨o', ho', hdata⟩ := hget i _ (List.getElem?_eq_getElem hlt)
    rw [ho] at ho'
    rw [← Option.some.inj ho'] at hdata
    rw [List.getElem?_eq_getElem hlt, (countedView_get hdata).2]
  have htable : (scanOutputkeysForIndexes (table (countedView counts)) db txPrefixHash txin
      (fun _ => true) none).visited[i]? = some (markedOutput first.amount o.toNat).visit := by
    rw [scan_of_some hkey hentry, hoffsets]
    by_cases hpartial : outputs.length < offsets.length ∧ 0 < outputs.length
    · have hrest : (offsets.drop outputs.length).length = (getOutputKeys
          (db.getOutputKey txin.amount) (offsets.drop outputs.length)).length :=
        length_getOutputKeys_iff.mpr fun o ho => hthere o (List.mem_of_mem_drop ho)
      rw [if_pos hpartial, if_pos hrest, visitOutputs_all _ hthere, List.nil_append,
        List.getElem?_map, List.getElem?_take_of_lt hi, List.append_assoc,
        List.getElem?_append_left hlt, hmember]
      rfl
    · rw [if_neg hpartial, visitOutputs_all _ hthere, List.nil_append, List.getElem?_map,
        List.getElem?_take_of_lt hi, List.getElem?_append_left hlt, hmember]
      rfl
  rw [hsame, hdirect, Option.some.injEq] at htable
  obtain ⟨hamount, hoffset⟩ := markedOutput_visit_inj htable
  exact ⟨hamount, hoffset.symm⟩

theorem MarkedAgree.entrySuits {table : OutputsView → ScanTable}
    (h : MarkedAgree table counts txPrefixHash txin)
    (hentry : (((table (countedView counts)).lookup txPrefixHash).bind fun map =>
      map.lookup txin.kImage) = some (getOutputKeys ((countedView counts).getOutputKey first.amount)
        first.absoluteOffsets)) : EntrySuits counts first txin := by
  rw [EntrySuits]
  split
  · rename_i hnone
    have hlength := (getOutputKeys_found (countedView_hasCounts counts) first.amount
      first.absoluteOffsets).1
    rw [hnone, List.length_nil, List.length_eq_zero_iff] at hlength
    exact h.suits_of_empty (hlength ▸ hentry)
  · rename_i hsome
    intro hkey
    obtain ⟨o, ho⟩ : ∃ o, (foundOffsets (counts first.amount) first.absoluteOffsets)[0]? = some o :=
      ⟨_, List.getElem?_eq_getElem (List.length_pos_of_ne_nil hsome)⟩
    obtain ⟨p, hp⟩ : ∃ p, txin.absoluteOffsets[0]? = some p :=
      ⟨_, List.getElem?_eq_getElem (List.length_pos_of_ne_nil hkey)⟩
    exact ⟨(h.suits_of_found hentry ho hp).1, fun i o p ho hp => (h.suits_of_found hentry ho hp).2⟩

end

/-! ### The batch as a whole -/

/-- Every input of every transaction finds an entry that suits it, if the table was filled. -/
def EntriesSuit (ops : CryptoOps) (cfg : Config) (counts : UInt64 → ℕ)
    (txBlobs : List (List UInt8)) : Prop :=
  ∀ txes, Filled ops cfg txBlobs txes → ∀ tx ∈ txes, ∀ txin ∈ tx.2, ∀ first,
    (tx.2.find? fun other => other.kImage = txin.kImage) = some first → EntrySuits counts first txin

theorem mem_mapM_iff {α β : Type} {f : α → Option β} {l : List α} {l' : List β}
    (h : l.mapM f = some l') (b : β) : b ∈ l' ↔ ∃ a ∈ l, f a = some b := by
  induction l generalizing l' with
  | nil =>
      obtain rfl := Option.some.inj h
      simp
  | cons a l ih =>
      rw [List.mapM_cons] at h
      obtain ⟨b', hb', hrest⟩ := Option.bind_eq_some_iff.mp h
      obtain ⟨rest, hl, hl'⟩ := Option.bind_eq_some_iff.mp hrest
      obtain rfl := Option.some.inj hl'
      rw [List.mem_cons, ih hl, List.exists_mem_cons_iff, hb', Option.some.injEq, eq_comm]

/-- With the numbers of outputs at hand as the table is filled: the lookups of all inputs
agree, for all contents of the database, all later databases and all visitors, exactly
when all entries suit. -/
theorem scanTable_agrees_iff (ops : CryptoOps) (cfg : Config) (counts : UInt64 → ℕ)
    (txBlobs : List (List UInt8)) :
    (∀ db db' : OutputsView, db.HasCounts counts → db.Extends db' →
      ∀ blob ∈ txBlobs, ∀ tx, parseAndValidateTxBaseFromBlob cfg blob = some tx →
      ∀ input ∈ tx.vin.toList, ∀ txin, getToKey input = some txin → ∀ vis pmax,
        scanOutputkeysForIndexes (prepareScanTable ops cfg db txBlobs) db'
            (getTransactionPrefixHash ops cfg tx) txin vis pmax =
          scanOutputkeysForIndexes [] db' (getTransactionPrefixHash ops cfg tx) txin vis pmax) ↔
      EntriesSuit ops cfg counts txBlobs := by
  constructor
  · intro hagree txes hfilled entry hentry txin htxin first hfirst
    obtain ⟨blob, hblob, tx, vin, hparse, hvin, rfl⟩ := (scanTxes_ok hfilled).2.2.2 entry hentry
    obtain ⟨input, hinput, htoKey⟩ := (mem_mapM_iff hvin txin).mp htxin
    have hlookup := hfilled.lookup (countedView counts) hentry txin.kImage
    rw [hfirst, Option.map_some] at hlookup
    have hmarked : MarkedAgree (fun db => prepareScanTable ops cfg db txBlobs) counts
        (scanned ops cfg tx vin).1 txin := by
      intro counts' hle
      exact hagree _ _ (countedView_hasCounts counts) (countedView_extends hle) blob hblob tx hparse
        input hinput txin htoKey _ _
    exact hmarked.entrySuits hlookup
  · intro hsuit db db' hcounts hextends blob hblob tx hparse input hinput txin htoKey vis pmax
    by_cases hfilled : ∃ txes, Filled ops cfg txBlobs txes
    · obtain ⟨txes, hfilled⟩ := hfilled
      obtain ⟨tx', vin, hparse', hvin, hmem⟩ := (scanTxes_ok hfilled).2.2.1 blob hblob
      rw [hparse] at hparse'
      obtain rfl := Option.some.inj hparse'
      have htxin : txin ∈ vin := (mem_mapM_iff hvin txin).mpr ⟨input, hinput, htoKey⟩
      obtain ⟨first, hfirst⟩ : ∃ first,
          (vin.find? fun other => other.kImage = txin.kImage) = some first := by
        rw [← Option.isSome_iff_exists, List.find?_isSome]
        exact ⟨txin, htxin, by simp⟩
      have hlookup := hfilled.lookup db hmem txin.kImage
      rw [scanned, hfirst, Option.map_some] at hlookup
      exact (hsuit txes hfilled _ hmem txin htxin first hfirst).scan_eq hcounts hextends hlookup
    · rw [not_exists] at hfilled
      exact scan_congr_none (lookup_of_not_filled hfilled db _ _)

/-! ### Two batches that are read otherwise -/

def ringImage : KeyImage := List.Vector.replicate 32 1

def lateRing : TxinToKey := ⟨5, [3, 1], ringImage⟩

def lateRingTx : Transaction :=
  ⟨⟨1, 0, 0, ⟨[.toKey 5 ⟨[3, 1], by decide⟩ ringImage], by decide⟩, .nil, .nil⟩,
    ⟨[⟨[default, default], by decide⟩], by decide⟩, default, default⟩

/-- The second of two inputs with one key image, which has the ring member 1. -/
def secondRing : TxinToKey := ⟨5, [1], ringImage⟩

def twiceSpentTx : Transaction :=
  ⟨⟨1, 0, 0, ⟨[.toKey 5 ⟨[0], offset_fits⟩ ringImage, .toKey 5 ⟨[1], by decide⟩ ringImage], by decide⟩,
    .nil, .nil⟩,
    ⟨[⟨[default], by decide⟩, ⟨[default], by decide⟩], by decide⟩, default, default⟩

def lateRingHash : Hash :=
  hashOfNat 0xf74f1fad466970a66d8a5f9fff47b813bba7344ef79ddaa88561d87fbffe8c9b

def twiceSpentHash : Hash :=
  hashOfNat 0xd455a19b989d90d126aeba4ed33ae726bec34eada524a7822906e6e0d678f6f7

def ringHash (m : List UInt8) : Hash :=
  if m = (saveTransactionPrefix currentConfig lateRingTx.toTransactionPrefix).bytes then lateRingHash
  else if m = (saveTransactionPrefix currentConfig twiceSpentTx.toTransactionPrefix).bytes then
    twiceSpentHash
  else nullHash

def ringOps : CryptoOps := ⟨ringHash, fun _ => none, fun _ => default⟩

def ringTable (tx : Transaction) : ScanTable :=
  prepareScanTable ringOps currentConfig (countedView fun _ => 3) [txToBlob currentConfig tx]

/-- There are three outputs as the table is filled and a fourth comes. The input with the
members 3 and 4 visits member 3 by the table and nothing directly. The second input with
one key image visits member 0 by the table and member 1 directly. -/
theorem ringTable_reads_otherwise :
    (parseAndValidateTxBaseFromBlob currentConfig (txToBlob currentConfig lateRingTx) =
        some lateRingTx.toTransactionPrefix ∧
      lateRingTx.vin.toList.map getToKey = [some lateRing] ∧
      (scanOutputkeysForIndexes (ringTable lateRingTx) (countedView fun _ => 4) lateRingHash lateRing
        (fun _ => true) none).visited = [(markedOutput 5 3).visit] ∧
      (scanOutputkeysForIndexes [] (countedView fun _ => 4) lateRingHash lateRing
        (fun _ => true) none).visited = []) ∧
    (parseAndValidateTxBaseFromBlob currentConfig (txToBlob currentConfig twiceSpentTx) =
        some twiceSpentTx.toTransactionPrefix ∧
      some secondRing ∈ twiceSpentTx.vin.toList.map getToKey ∧
      (scanOutputkeysForIndexes (ringTable twiceSpentTx) (countedView fun _ => 3) twiceSpentHash
        secondRing (fun _ => true) none).visited = [(markedOutput 5 0).visit] ∧
      (scanOutputkeysForIndexes [] (countedView fun _ => 3) twiceSpentHash secondRing
        (fun _ => true) none).visited = [(markedOutput 5 1).visit]) := by
  refine ⟨⟨?_, ?_, ?_, ?_⟩, ?_, ?_, ?_, ?_⟩
  · decide +kernel
  · decide
  · decide +kernel
  · decide
  · decide +kernel
  · decide
  · decide +kernel
  · decide

end XrCoin.Blockchain

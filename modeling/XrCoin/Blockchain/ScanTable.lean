import XrCoin.BlockchainDb.Chain
import XrCoin.Blockchain.Timestamps

/-!
The table of ring members that `prepare_handle_incoming_blocks` fills for the inputs of a
batch, and `scan_outputkeys_for_indexes`, which takes the outputs from the table or
directly from the database.

The table is made from one bulk query for each amount, over the sorted offsets of all
inputs. As the outputs of an amount are numbered without gaps, what an input gets is what
a query for the input alone would have given, up to the first member that is missing.
-/

namespace XrCoin.Blockchain

open Archive Cryptonote BlockchainDb

/-! ### Outputs -/

structure OutputData where
  pubkey : PublicKey
  unlockTime : UInt64
  height : ℕ
  commitment : Key
  deriving DecidableEq

/-- What a database tells about outputs: by amount and index, and without gaps. -/
structure OutputsView where
  getOutputKey : UInt64 → ℕ → Option OutputData
  closed : ∀ amount {i j}, i < j → (getOutputKey amount j).isSome = true →
    (getOutputKey amount i).isSome = true

/-- `get_output_key` for one index, with `zeroCommit` for the outputs that have no
commitment of their own. -/
def getOutputKey (zeroCommit : UInt64 → Key) (db : Db) (amount : UInt64) (index : ℕ) :
    Option OutputData :=
  ((db.outputAmounts amount).get index).map fun ok =>
    ⟨ok.pubkey, ok.unlockTime, ok.height,
      if amount = 0 then ok.commitment.getD default else zeroCommit amount⟩

theorem lookup_indexed {α : Type} (l : List α) (i : ℕ) : (indexed l).lookup i = l[i]? := by
  induction l using List.reverseRecOn with
  | nil => rfl
  | append_singleton l a ih =>
      rw [indexed_concat, List.lookup_append, ih]
      rcases Nat.lt_trichotomy i l.length with hlt | rfl | hgt
      · rw [List.getElem?_append_left hlt, List.getElem?_eq_getElem hlt]
        rfl
      · rw [List.getElem?_concat_length, List.getElem?_eq_none le_rfl, List.lookup_cons_self]
        rfl
      · have hne : (i == l.length) = false := beq_eq_false_iff_ne.mpr (by omega)
        rw [List.getElem?_eq_none (by omega : l.length ≤ i),
          List.getElem?_eq_none (by rw [List.length_append, List.length_singleton]; omega)]
        simp [List.lookup, hne]

/-- The database of a chain numbers the outputs of an amount without gaps. -/
def outputsView (zeroCommit : UInt64 → Key) (outs : List ChainOut) (db : Db)
    (h : OutputsFiled outs db) : OutputsView where
  getOutputKey := getOutputKey zeroCommit db
  closed := by
    intro amount i j hij hj
    simp only [getOutputKey, Lmdb.Table.get, h.outputAmounts, lookup_indexed, Option.isSome_map] at hj ⊢
    rw [isSome_getElem?] at hj ⊢
    omega

/-- `get_output_key` for several indices with `allow_partial`: up to the first that is
missing. -/
def getOutputKeys (get : ℕ → Option OutputData) : List UInt64 → List OutputData
  | [] => []
  | index :: offsets =>
      match get index.toNat with
      | none => []
      | some data => data :: getOutputKeys get offsets

/-! ### Inputs -/

structure TxinToKey where
  amount : UInt64
  keyOffsets : List UInt64
  kImage : KeyImage
  deriving DecidableEq

/-- `boost::get<txin_to_key>`, which throws for another input. -/
def getToKey : Txin → Option TxinToKey
  | .toKey amount keyOffsets kImage => some ⟨amount, keyOffsets.toList, kImage⟩
  | _ => none

/-- The loop of `relative_output_offsets_to_absolute`, which adds up in 64 bits. -/
def addUpOffsets : UInt64 → List UInt64 → List UInt64
  | _, [] => []
  | last, offset :: offsets => (last + offset) :: addUpOffsets (last + offset) offsets

def relativeOutputOffsetsToAbsolute (off : List UInt64) : List UInt64 := addUpOffsets 0 off

def TxinToKey.absoluteOffsets (txin : TxinToKey) : List UInt64 :=
  relativeOutputOffsetsToAbsolute txin.keyOffsets

/-! ### Filling the table -/

/-- `m_scan_table`. Where a key is there already, `emplace` changes nothing, and the first
entry is the one that is found. -/
abbrev ScanTable : Type := List (Hash × List (KeyImage × List OutputData))

/-- How the first pass ends early: the table is cleared, or an exception leaves it. -/
inductive ScanStop
  | quit
  | thrown (table : ScanTable)

def loadTransactionBase (cfg : Config) : Reader Transaction := do
  let tx ← loadTransactionPrefix cfg
  if tx.version = 1 ∨ tx.vin.toList = [] then pure ⟨tx, .nil, default, default⟩
  else do
    let base ← loadRctSigBase tx.vin.size tx.vout.size
    pure ⟨tx, .nil, default, { base with p := default }⟩

/-- `expand_transaction_1(tx, true)`: whether it succeeds. What it fills in is not read
here. -/
def expandsBase (tx : Transaction) : Bool :=
  if 2 ≤ tx.version ∧ isCoinbase tx = false then
    tx.rctSignatures.outPk.size = tx.vout.size ∧
      (expandOutPk tx.rctSignatures.outPk tx.vout).isSome = true
  else true

/-- `parse_and_validate_tx_base_from_blob`, as far as the prefix. -/
def parseAndValidateTxBaseFromBlob (cfg : Config) (blob : List UInt8) : Option TransactionPrefix :=
  (loadTransactionBase cfg (.ofBytes blob)).bind fun result =>
    if expandsBase result.1 then some result.1.toTransactionPrefix else none

variable (ops : CryptoOps) (cfg : Config)

def scanTxes : List (List UInt8) → ScanTable → Except ScanStop (List (Hash × List TxinToKey))
  | [], _ => .ok []
  | blob :: blobs, table =>
      match parseAndValidateTxBaseFromBlob cfg blob with
      | none => .error .quit
      | some tx =>
          let txPrefixHash := getTransactionPrefixHash ops cfg tx
          if (table.lookup txPrefixHash).isSome = true then .error .quit
          else
            let map : List (KeyImage × List OutputData) := []
            let table := table ++ [(txPrefixHash, map)]
            match tx.vin.toList.mapM getToKey with
            | none => .error (.thrown table)
            | some vin =>
                -- the map is only filled in the second pass, so that this finds nothing
                if vin.any fun txin => (map.lookup txin.kImage).isSome then .error .quit
                else (scanTxes blobs table).map ((txPrefixHash, vin) :: ·)

def addOffsets (offsets : UInt64 → List UInt64) (txin : TxinToKey) : UInt64 → List UInt64 :=
  Function.update offsets txin.amount (offsets txin.amount ++ txin.absoluteOffsets)

def offsetMap (vin : List TxinToKey) : UInt64 → List UInt64 := vin.foldl addOffsets fun _ => []

/-- `std::unique`. -/
def unique : List UInt64 → List UInt64
  | a :: b :: l => if a = b then unique (b :: l) else a :: unique (b :: l)
  | l => l

def sortedOffsets (offsets : List UInt64) : List UInt64 := unique (offsets.insertionSort (· ≤ ·))

def findOutputs (offsets : List UInt64) (found : List OutputData) : List UInt64 → List OutputData
  | [] => []
  | needed :: rest =>
      match offsets.idxOf? needed with
      | none => []
      | some pos =>
          match found[pos]? with
          | none => []
          | some data => data :: findOutputs offsets found rest

/-- The table as `prepare_handle_incoming_blocks` leaves it, for the transactions of all
entries in order. It is empty before. -/
def prepareScanTable (db : OutputsView) (txBlobs : List (List UInt8)) : ScanTable :=
  match scanTxes ops cfg txBlobs [] with
  | .error .quit => []
  | .error (.thrown table) => table
  | .ok txes =>
      let offsets := fun amount => sortedOffsets (offsetMap (txes.flatMap Prod.snd) amount)
      txes.map fun tx =>
        (tx.1, tx.2.map fun txin =>
          (txin.kImage, findOutputs (offsets txin.amount)
            (getOutputKeys (db.getOutputKey txin.amount) (offsets txin.amount))
            txin.absoluteOffsets))

/-! ### Reading the table -/

structure Visit where
  unlockTime : UInt64
  pubkey : PublicKey
  commitment : Key
  deriving DecidableEq

def OutputData.visit (data : OutputData) : Visit := ⟨data.unlockTime, data.pubkey, data.commitment⟩

structure ScanResult where
  success : Bool
  visited : List Visit
  maxRelatedBlockHeight : Option ℕ
  deriving DecidableEq

/-- The loop over the offsets. The visitor may go by what it has seen so far. -/
def visitOutputs (vis : List Visit → Bool) (get : ℕ → Option OutputData) :
    List UInt64 → List OutputData → List Visit → Option ℕ → ScanResult
  | [], _, visited, pmax => ⟨true, visited, pmax⟩
  | i :: offsets, outputs, visited, pmax =>
      match outputs.head?.or (get i.toNat) with
      | none => ⟨false, visited, pmax⟩
      | some data =>
          let visited := visited ++ [data.visit]
          if vis visited then
            visitOutputs vis get offsets outputs.tail visited
              (if offsets = [] then pmax.map (max · data.height) else pmax)
          else ⟨false, visited, pmax⟩

/-- The outputs that are known before the loop, or nothing when it is not reached. -/
def knownOutputs (table : ScanTable) (get : ℕ → Option OutputData) (txPrefixHash : Hash)
    (txin : TxinToKey) : Option (List OutputData) :=
  match (table.lookup txPrefixHash).bind fun map => map.lookup txin.kImage with
  | none =>
      let outputs := getOutputKeys get txin.absoluteOffsets
      if txin.absoluteOffsets.length = outputs.length then some outputs else none
  | some outputs =>
      if outputs.length < txin.absoluteOffsets.length ∧ 0 < outputs.length then
        let addOffsets := txin.absoluteOffsets.drop outputs.length
        let addOutputs := getOutputKeys get addOffsets
        if addOffsets.length = addOutputs.length then some (outputs ++ addOutputs) else none
      else some outputs

def scanOutputkeysForIndexes (table : ScanTable) (db : OutputsView) (txPrefixHash : Hash)
    (txin : TxinToKey) (vis : List Visit → Bool) (pmax : Option ℕ) : ScanResult :=
  if txin.keyOffsets = [] then ⟨false, [], pmax⟩
  else
    match knownOutputs table (db.getOutputKey txin.amount) txPrefixHash txin with
    | none => ⟨false, [], pmax⟩
    | some outputs =>
        visitOutputs vis (db.getOutputKey txin.amount) txin.absoluteOffsets outputs [] pmax

/-! ### What the queries give -/

section

variable {get : ℕ → Option OutputData} {offsets : List UInt64}

theorem getOutputKeys_getElem {i : ℕ} {data : OutputData}
    (h : (getOutputKeys get offsets)[i]? = some data) :
    ∃ o, offsets[i]? = some o ∧ get o.toNat = some data := by
  induction offsets generalizing i with
  | nil => exact absurd h (by simp [getOutputKeys])
  | cons o offsets ih =>
      rw [getOutputKeys] at h
      cases hget : get o.toNat with
      | none =>
          rw [hget] at h
          exact absurd h (by simp)
      | some first =>
          rw [hget] at h
          cases i with
          | zero => exact ⟨o, rfl, hget.trans h⟩
          | succ i => exact ih h

theorem length_getOutputKeys_iff :
    offsets.length = (getOutputKeys get offsets).length ↔
      ∀ o ∈ offsets, (get o.toNat).isSome = true := by
  induction offsets with
  | nil => simp [getOutputKeys]
  | cons o offsets ih =>
      rw [getOutputKeys, List.forall_mem_cons, List.length_cons]
      cases hget : get o.toNat with
      | none => simp
      | some data =>
          rw [List.length_cons, Nat.succ_inj, ih]
          simp

/-- In sorted offsets, the place of an offset is the place of its output. -/
theorem getOutputKeys_idxOf (hsorted : offsets.Pairwise (· < ·))
    (hclosed : ∀ {i j}, i < j → (get j).isSome = true → (get i).isSome = true) {o : UInt64}
    (ho : o ∈ offsets) :
    ∃ pos, offsets.idxOf? o = some pos ∧ (getOutputKeys get offsets)[pos]? = get o.toNat := by
  induction offsets with
  | nil => exact absurd ho (by simp)
  | cons s offsets ih =>
      rw [List.pairwise_cons] at hsorted
      rw [List.idxOf?_cons, getOutputKeys]
      by_cases heq : s = o
      · refine ⟨0, by simp [heq], ?_⟩
        rw [heq]
        cases hget : get o.toNat with
        | none => rfl
        | some data => rfl
      · have hmem : o ∈ offsets := (List.mem_cons.mp ho).resolve_left (Ne.symm heq)
        obtain ⟨pos, hpos, hfound⟩ := ih hsorted.2 hmem
        refine ⟨pos + 1, by simp [heq, hpos], ?_⟩
        cases hget : get s.toNat with
        | none =>
            -- what is missing at the smaller offset is missing at the larger one
            have hmissing : ¬(get o.toNat).isSome = true := by
              intro hsome
              have hless := hclosed (UInt64.lt_iff_toNat_lt.mp (hsorted.1 o hmem)) hsome
              rw [hget] at hless
              exact Bool.false_ne_true hless
            rw [Option.not_isSome_iff_eq_none] at hmissing
            rw [hmissing]
            rfl
        | some data => exact hfound

/-- An input gets out of the bulk query what it would get on its own. -/
theorem findOutputs_eq (hsorted : offsets.Pairwise (· < ·))
    (hclosed : ∀ {i j}, i < j → (get j).isSome = true → (get i).isSome = true)
    {needed : List UInt64} (hneeded : ∀ o ∈ needed, o ∈ offsets) :
    findOutputs offsets (getOutputKeys get offsets) needed = getOutputKeys get needed := by
  induction needed with
  | nil => rfl
  | cons o needed ih =>
      rw [List.forall_mem_cons] at hneeded
      obtain ⟨pos, hpos, hfound⟩ := getOutputKeys_idxOf hsorted hclosed hneeded.1
      rw [findOutputs, getOutputKeys, hpos]
      simp only [hfound]
      cases get o.toNat with
      | none => rfl
      | some data => rw [ih hneeded.2]

end

/-! ### Sorted offsets -/

theorem mem_unique {l : List UInt64} {a : UInt64} : a ∈ unique l ↔ a ∈ l := by
  induction l using unique.induct with
  | case1 b l ih =>
      rw [unique, if_pos rfl, ih]
      constructor
      · exact List.mem_cons_of_mem b
      · intro hmem
        rcases List.mem_cons.mp hmem with rfl | hmem
        · exact List.mem_cons_self
        · exact hmem
  | case2 b c l hne ih =>
      rw [unique, if_neg hne, List.mem_cons, ih, ← List.mem_cons]
  | case3 l hshort =>
      rw [unique]
      exact hshort

theorem unique_sorted {l : List UInt64} (h : l.Pairwise (· ≤ ·)) : (unique l).Pairwise (· < ·) := by
  induction l using unique.induct with
  | case1 b l ih =>
      rw [unique, if_pos rfl]
      exact ih (List.pairwise_cons.mp h).2
  | case2 b c l hne ih =>
      rw [List.pairwise_cons] at h
      rw [unique, if_neg hne, List.pairwise_cons]
      refine ⟨?_, ih h.2⟩
      intro a ha
      have hlt : b < c := UInt64.lt_of_le_of_ne (h.1 c List.mem_cons_self) hne
      rcases List.mem_cons.mp (mem_unique.mp ha) with rfl | ha
      · exact hlt
      · exact UInt64.lt_of_lt_of_le hlt ((List.pairwise_cons.mp h.2).1 a ha)
  | case3 l hshort =>
      rw [unique]
      · cases l with
        | nil => exact .nil
        | cons a l =>
            cases l with
            | nil => exact List.pairwise_singleton _ _
            | cons b l => exact absurd rfl (hshort a b l)
      · exact hshort

theorem sortedOffsets_sorted (offsets : List UInt64) :
    (sortedOffsets offsets).Pairwise (· < ·) :=
  unique_sorted (List.pairwise_insertionSort (· ≤ ·) offsets)

theorem mem_sortedOffsets {offsets : List UInt64} {o : UInt64} :
    o ∈ sortedOffsets offsets ↔ o ∈ offsets := by
  rw [sortedOffsets, mem_unique, List.mem_insertionSort]

theorem mem_offsetMap {vin : List TxinToKey} {txin : TxinToKey} (htxin : txin ∈ vin) {o : UInt64}
    (ho : o ∈ txin.absoluteOffsets) : o ∈ offsetMap vin txin.amount := by
  -- what is in the map stays in it
  have hstep : ∀ (map : UInt64 → List UInt64) (other : TxinToKey) (amount : UInt64),
      o ∈ map amount → o ∈ addOffsets map other amount := by
    intro map other amount hmem
    by_cases heq : amount = other.amount
    · subst heq
      rw [addOffsets, Function.update_self]
      exact List.mem_append_left _ hmem
    · rw [addOffsets, Function.update_of_ne heq]
      exact hmem
  have hstays : ∀ (vin : List TxinToKey) (map : UInt64 → List UInt64) (amount : UInt64),
      o ∈ map amount → o ∈ vin.foldl addOffsets map amount := by
    intro vin
    induction vin with
    | nil => exact fun _ _ hmem => hmem
    | cons other vin ih => exact fun map amount hmem => ih _ _ (hstep map other amount hmem)
  rw [offsetMap]
  generalize (fun _ => [] : UInt64 → List UInt64) = map
  induction vin generalizing map with
  | nil => exact absurd htxin (by simp)
  | cons other vin ih =>
      rcases List.mem_cons.mp htxin with rfl | htxin
      · have hhere : o ∈ addOffsets map txin txin.amount := by
          rw [addOffsets, Function.update_self]
          exact List.mem_append_right _ ho
        exact hstays vin _ _ hhere
      · exact ih htxin _

/-! ### The filled table -/

variable {ops cfg}

/-- The first pass ends well, with the hashes and the inputs of all transactions. -/
def Filled (ops : CryptoOps) (cfg : Config) (txBlobs : List (List UInt8))
    (txes : List (Hash × List TxinToKey)) : Prop :=
  scanTxes ops cfg txBlobs [] = .ok txes

/-- An exception leaves a table whose maps are all empty. -/
theorem scanTxes_thrown {txBlobs : List (List UInt8)} {table table' : ScanTable}
    (hempty : ∀ entry ∈ table, entry.2 = [])
    (h : scanTxes ops cfg txBlobs table = .error (.thrown table')) :
    ∀ entry ∈ table', entry.2 = [] := by
  induction txBlobs generalizing table with
  | nil => exact absurd h (by simp [scanTxes])
  | cons blob txBlobs ih =>
      rw [scanTxes] at h
      cases hparse : parseAndValidateTxBaseFromBlob cfg blob with
      | none =>
          rw [hparse] at h
          exact absurd h (by simp)
      | some tx =>
          simp only [hparse] at h
          split at h
          · exact absurd h (by simp)
          · have hempty' : ∀ entry ∈ table ++ [(getTransactionPrefixHash ops cfg tx, [])],
                entry.2 = [] := by
              intro entry hentry
              rcases List.mem_append.mp hentry with hentry | hentry
              · exact hempty entry hentry
              · rw [List.mem_singleton.mp hentry]
            cases hvin : tx.vin.toList.mapM getToKey with
            | none =>
                simp only [hvin, Except.error.injEq, ScanStop.thrown.injEq] at h
                rw [← h]
                exact hempty'
            | some vin =>
                simp only [hvin] at h
                split at h
                · exact absurd h (by simp)
                · cases hrest : scanTxes ops cfg txBlobs
                      (table ++ [(getTransactionPrefixHash ops cfg tx, [])]) with
                  | error stop =>
                      rw [hrest] at h
                      obtain rfl := Except.error.inj h
                      exact ih hempty' hrest
                  | ok rest =>
                      rw [hrest] at h
                      exact absurd h (by simp [Except.map])

theorem lookup_of_not_filled {txBlobs : List (List UInt8)}
    (h : ∀ txes, ¬Filled ops cfg txBlobs txes) (db : OutputsView) (txPrefixHash : Hash)
    (kImage : KeyImage) :
    (((prepareScanTable ops cfg db txBlobs).lookup txPrefixHash).bind fun map =>
      map.lookup kImage) = none := by
  rw [prepareScanTable]
  cases hscan : scanTxes ops cfg txBlobs [] with
  | ok txes => exact absurd hscan (h txes)
  | error stop =>
      cases stop with
      | quit => rfl
      | thrown table =>
          simp only
          cases hlookup : table.lookup txPrefixHash with
          | none => rfl
          | some map =>
              obtain ⟨before, behind, rfl, -⟩ := List.lookup_eq_some_iff.mp hlookup
              have hmap : map = [] := scanTxes_thrown (by simp) hscan (txPrefixHash, map) (by simp)
              rw [hmap]
              rfl

def scanned (ops : CryptoOps) (cfg : Config) (tx : TransactionPrefix) (vin : List TxinToKey) :
    Hash × List TxinToKey :=
  (getTransactionPrefixHash ops cfg tx, vin)

/-- The first pass has the transactions in order, and no two with one hash. -/
theorem scanTxes_ok {txBlobs : List (List UInt8)} {table : ScanTable}
    {txes : List (Hash × List TxinToKey)} (h : scanTxes ops cfg txBlobs table = .ok txes) :
    (txes.map Prod.fst).Nodup ∧ (∀ tx ∈ txes, (table.lookup tx.1).isSome = false) ∧
      (∀ blob ∈ txBlobs, ∃ tx vin, parseAndValidateTxBaseFromBlob cfg blob = some tx ∧
        tx.vin.toList.mapM getToKey = some vin ∧ scanned ops cfg tx vin ∈ txes) ∧
      ∀ entry ∈ txes, ∃ blob ∈ txBlobs, ∃ tx vin,
        parseAndValidateTxBaseFromBlob cfg blob = some tx ∧
          tx.vin.toList.mapM getToKey = some vin ∧ entry = scanned ops cfg tx vin := by
  induction txBlobs generalizing table txes with
  | nil =>
      obtain rfl : txes = [] := (Except.ok.inj h).symm
      exact ⟨.nil, by simp, by simp, by simp⟩
  | cons blob txBlobs ih =>
      rw [scanTxes] at h
      cases hparse : parseAndValidateTxBaseFromBlob cfg blob with
      | none =>
          rw [hparse] at h
          exact absurd h (by simp)
      | some tx =>
          simp only [hparse] at h
          split at h
          · exact absurd h (by simp)
          · rename_i hnew
            cases hvin : tx.vin.toList.mapM getToKey with
            | none =>
                rw [hvin] at h
                exact absurd h (by simp)
            | some vin =>
                have hnone : (vin.any fun _ => false) = false := List.any_eq_false.mpr (by simp)
                simp only [hvin, List.lookup_nil, Option.isSome_none, hnone, Bool.false_eq_true,
                  if_false] at h
                cases hrest : scanTxes ops cfg txBlobs
                    (table ++ [(getTransactionPrefixHash ops cfg tx, [])]) with
                | error stop =>
                    rw [hrest] at h
                    exact absurd h (by simp [Except.map])
                | ok rest =>
                    rw [hrest] at h
                    obtain rfl := Except.ok.inj h
                    obtain ⟨hnodup, hfresh, hmem, hfrom⟩ := ih hrest
                    -- the later hashes are neither in the table nor this one
                    have hlater : ∀ tx' ∈ rest, (table.lookup tx'.1).isSome = false ∧
                        tx'.1 ≠ getTransactionPrefixHash ops cfg tx := by
                      intro tx' htx'
                      have hlookup := hfresh tx' htx'
                      rw [List.lookup_append, Option.isSome_or, Bool.or_eq_false_iff] at hlookup
                      refine ⟨hlookup.1, fun heq => ?_⟩
                      rw [heq, List.lookup_cons_self] at hlookup
                      exact absurd hlookup.2 (by simp)
                    refine ⟨?_, ?_, ?_, ?_⟩
                    · rw [List.map_cons, List.nodup_cons]
                      refine ⟨?_, hnodup⟩
                      intro hin
                      obtain ⟨tx', htx', heq⟩ := List.mem_map.mp hin
                      exact (hlater tx' htx').2 heq
                    · intro tx' htx'
                      rcases List.mem_cons.mp htx' with rfl | htx'
                      · exact Bool.eq_false_iff.mpr hnew
                      · exact (hlater tx' htx').1
                    · intro blob' hblob'
                      rcases List.mem_cons.mp hblob' with rfl | hblob'
                      · exact ⟨tx, vin, hparse, hvin, List.mem_cons_self⟩
                      · obtain ⟨tx', vin', hparse', hvin', hmem'⟩ := hmem blob' hblob'
                        exact ⟨tx', vin', hparse', hvin', List.mem_cons_of_mem _ hmem'⟩
                    · intro entry hentry
                      rcases List.mem_cons.mp hentry with rfl | hentry
                      · exact ⟨blob, List.mem_cons_self, tx, vin, hparse, hvin, rfl⟩
                      · obtain ⟨blob', hblob', hscanned⟩ := hfrom entry hentry
                        exact ⟨blob', List.mem_cons_of_mem _ hblob', hscanned⟩

theorem lookup_map_of_nodup {α β γ : Type} [BEq α] [LawfulBEq α] {l : List (α × β)} {p : α × β}
    (hnodup : (l.map Prod.fst).Nodup) (hp : p ∈ l) (f : α × β → γ) :
    (l.map fun q => (q.1, f q)).lookup p.1 = some (f p) := by
  induction l with
  | nil => exact absurd hp (by simp)
  | cons q l ih =>
      rw [List.map_cons, List.nodup_cons] at hnodup
      rw [List.map_cons]
      rcases List.mem_cons.mp hp with rfl | hp
      · exact List.lookup_cons_self
      · have hne : (p.1 == q.1) = false := by
          rw [beq_eq_false_iff_ne]
          intro heq
          exact hnodup.1 (heq ▸ List.mem_map_of_mem hp)
        rw [List.lookup_cons, hne]
        exact ih hnodup.2 hp

/-- An input finds the outputs of the first input of its transaction that has its key
image. -/
theorem lookup_map_find {γ : Type} (vin : List TxinToKey) (f : TxinToKey → γ) (kImage : KeyImage) :
    (vin.map fun txin => (txin.kImage, f txin)).lookup kImage =
      (vin.find? fun txin => txin.kImage = kImage).map f := by
  induction vin with
  | nil => rfl
  | cons txin vin ih =>
      rw [List.map_cons, List.lookup_cons, List.find?_cons]
      by_cases heq : txin.kImage = kImage
      · rw [beq_iff_eq.mpr heq.symm, decide_eq_true heq]
        rfl
      · rw [beq_eq_false_iff_ne.mpr (Ne.symm heq), decide_eq_false heq]
        exact ih

/-- What the table has for an input: the members of the first input with its key image, up
to the first that was missing. -/
theorem Filled.lookup {txBlobs : List (List UInt8)} {txes : List (Hash × List TxinToKey)}
    (h : Filled ops cfg txBlobs txes) (db : OutputsView) {tx : Hash × List TxinToKey}
    (htx : tx ∈ txes) (kImage : KeyImage) :
    (((prepareScanTable ops cfg db txBlobs).lookup tx.1).bind fun map => map.lookup kImage) =
      (tx.2.find? fun txin => txin.kImage = kImage).map fun txin =>
        getOutputKeys (db.getOutputKey txin.amount) txin.absoluteOffsets := by
  rw [Filled] at h
  rw [prepareScanTable, h]
  simp only
  rw [lookup_map_of_nodup (scanTxes_ok h).1 htx, Option.bind_some, lookup_map_find]
  cases hfind : tx.2.find? fun txin => txin.kImage = kImage with
  | none => rfl
  | some txin =>
      have hmem : txin ∈ txes.flatMap Prod.snd :=
        List.mem_flatMap.mpr ⟨tx, htx, List.mem_of_find?_eq_some hfind⟩
      rw [Option.map_some, Option.map_some]
      congr 1
      apply findOutputs_eq (sortedOffsets_sorted _) (db.closed txin.amount)
      intro o ho
      exact mem_sortedOffsets.mpr (mem_offsetMap hmem ho)

end XrCoin.Blockchain

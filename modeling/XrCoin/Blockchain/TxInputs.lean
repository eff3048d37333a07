import Mathlib
import XrCoin.Blockchain.ScanTable
import XrCoin.TxPool.BlockTemplate

/-!
`check_tx_inputs`: the rules of the inputs, their ring members and their signatures.

The verification of the signatures is a parameter. The table of earlier results is left out, since
it is only read where `CACHE_VIN_RESULTS` is defined. So are the counters of the caller: a
transaction that is accepted counts once, and as non-private where the result says so.
-/

namespace XrCoin.Blockchain

open Archive Cryptonote TxPool

/-! ### Parameters -/

structure InputRules where
  hfVersionFixedRingSize : UInt8
  hfVersionAllowRct : UInt8
  hfVersionEnforceRct : UInt8
  hfVersionAllowV1Borromean : UInt8
  hfVersionEnforceMinAge : UInt8
  /-- `CRYPTONOTE_DEFAULT_TX_SPENDABLE_AGE`. -/
  defaultTxSpendableAge : ℕ

structure InputsView where
  hfVersion : UInt8
  height : ℕ
  /-- `get_num_outputs`. -/
  numOutputs : UInt64 → UInt64
  /-- `have_tx_keyimg_as_spent`. -/
  haveTxKeyimgAsSpent : KeyImage → Bool
  outputs : OutputsView
  scanTable : ScanTable
  /-- `is_tx_spendtime_unlocked`, at the version. -/
  isTxSpendtimeUnlocked : UInt64 → Bool
  /-- `get_max_concurrency` of the thread pool. -/
  threads : ℕ

structure ExpandedRct where
  rv : RctSig
  message : Hash
  mixRing : List (List CtKey)
  /-- The key images of `MGs`. -/
  ii : List (List KeyImage)

structure SignatureOps where
  checkRingSignature : Hash → KeyImage → List Key → List Signature → Bool
  checkBorromeanSignature : Hash → List KeyImage → List (List Key) → BorromeanSignature → Bool
  verRctNonSemanticsSimple : ExpandedRct → Bool
  verRct : ExpandedRct → Bool

inductive InputsFailure
  | lowMixin
  | verifivationFailed
  | doubleSpend
  /-- No flag is set. -/
  | refused
  deriving DecidableEq

variable (rules : InputRules) (view : InputsView) (sigs : SignatureOps)

/-! ### Rules by the version -/

def checkTxVersion (nUnmixable : ℕ) (tx : TransactionPrefix) : Bool :=
  let maxTxVersion : UInt64 := if view.hfVersion < rules.hfVersionAllowRct then 1 else 2
  let minTxVersion : UInt64 :=
    if 0 < nUnmixable then 1 else if rules.hfVersionEnforceRct ≤ view.hfVersion then 2 else 1
  tx.version ≤ maxTxVersion ∧ minTxVersion ≤ tx.version ∧
    ¬(tx.version = 1 ∧ 0 < tx.minorVersion ∧ view.hfVersion < rules.hfVersionAllowV1Borromean)

/-- Each key image is below the one before, as `memcmp` orders them. -/
def sortedIns : List KeyImage → Bool
  | last :: kImage :: kImages => kImage.val < last.val && sortedIns (kImage :: kImages)
  | _ => true

/-! ### One input -/

/-- `check_tx_input`: the keys of the ring, or nothing when it fails, and the greatest height. -/
def checkTxInput (txVersion : UInt64) (txMinorVersion : UInt8) (txin : TxinToKey)
    (txPrefixHash : Hash) (sig : List Signature) (borromeanSigR : List Key) (pmax : ℕ) :
    Option (List CtKey) × ℕ :=
  let scanned := scanOutputkeysForIndexes view.scanTable view.outputs txPrefixHash txin
    (fun visited => visited.getLast?.all fun visit => view.isTxSpendtimeUnlocked visit.unlockTime)
    (some pmax)
  let outputKeys := scanned.visited.map fun visit => (⟨visit.pubkey, visit.commitment⟩ : CtKey)
  let wrongCount :=
    if txMinorVersion = 0 then sig.length ≠ outputKeys.length
    else borromeanSigR.length ≠ outputKeys.length
  (if scanned.success = false then none
    else if txin.keyOffsets.length ≠ outputKeys.length then none
    else if txVersion = 1 ∧ wrongCount then none
    else some outputKeys,
    scanned.maxRelatedBlockHeight.getD pmax)

structure InputsState where
  pubkeys : List (List CtKey)
  borromeanImages : List KeyImage
  results : List Bool
  maxUsedBlockHeight : ℕ

/-- There is no signature at the index of an input. -/
def lacksSignature (tx : Transaction) (sigIndex : ℕ) : Bool :=
  tx.version = 1 ∧ (if tx.minorVersion = 0 then tx.signatures.toList.length ≤ sigIndex
    else tx.borromeanSignature.r.toList.length ≤ sigIndex)

/-- The key images for a Borromean signature, which only the first version collects. -/
def addImage (tx : Transaction) (images : List KeyImage) (kImage : KeyImage) : List KeyImage :=
  if tx.version = 1 then images ++ [kImage] else images

/-- The loop over the inputs. With several threads the ring signatures are checked beside it, and
their results are looked at behind it. -/
def checkInputs (tx : Transaction) (txPrefixHash : Hash) :
    List (Txin × ℕ) → InputsState → Except InputsFailure Unit × InputsState
  | [], st => (.ok (), st)
  | (txin, sigIndex) :: vin, st =>
      match getToKey txin with
      | none => (.error .refused, st)
      | some inToKey =>
          if inToKey.keyOffsets = [] then (.error .refused, st)
          else if view.haveTxKeyimgAsSpent inToKey.kImage then (.error .doubleSpend, st)
          else if lacksSignature tx sigIndex then (.error .refused, st)
          else
            let images := addImage tx st.borromeanImages inToKey.kImage
            let sig := ((tx.signatures.toList[sigIndex]?).map StdVector.toList).getD []
            let borromeanSigR :=
              ((tx.borromeanSignature.r.toList[sigIndex]?).map StdVector.toList).getD []
            match checkTxInput view tx.version tx.minorVersion inToKey txPrefixHash sig
                borromeanSigR st.maxUsedBlockHeight with
            | (none, height) => (.error .refused, ⟨st.pubkeys, images, st.results, height⟩)
            | (some keys, height) =>
                if tx.version = 1 ∧ tx.minorVersion = 0 then
                  let result := sigs.checkRingSignature txPrefixHash inToKey.kImage
                    (keys.map CtKey.dest) sig
                  if 1 < view.threads then
                    checkInputs tx txPrefixHash vin
                      ⟨st.pubkeys ++ [keys], images, st.results ++ [result], height⟩
                  else if result = false then
                    (.error .refused, ⟨st.pubkeys ++ [keys], images, st.results, height⟩)
                  else
                    checkInputs tx txPrefixHash vin ⟨st.pubkeys ++ [keys], images, st.results, height⟩
                else
                  checkInputs tx txPrefixHash vin ⟨st.pubkeys ++ [keys], images, st.results, height⟩

/-! ### Ring-confidential signatures -/

def expandTransaction2 (tx : Transaction) (txPrefixHash : Hash) (pubkeys : List (List CtKey)) :
    Option ExpandedRct :=
  let rv := tx.rctSignatures
  let first := pubkeys.headD []
  if tx.version ≠ 2 ∨ first = [] then none
  else if rv.type = rctTypeFull then
    if pubkeys.any fun row => first.length < row.length then none
    else some ⟨rv, txPrefixHash,
      (List.range first.length).map fun m => pubkeys.filterMap fun row => row[m]?,
      [keyImages tx.vin.toList]⟩
  else if rv.type = rctTypeSimple ∨ rv.type = rctTypeBulletproof then
    if rv.p.mgs.toList.length ≠ tx.vin.toList.length then none
    else some ⟨rv, txPrefixHash, pubkeys, (keyImages tx.vin.toList).map fun kImage => [kImage]⟩
  else none

/-- The part of the mix ring that is checked again by rows, or by columns in a full signature. -/
def mixRingMatches (rv : ExpandedRct) (pubkeys : List (List CtKey)) : Bool :=
  if rv.rv.type = rctTypeFull then
    (∀ row ∈ pubkeys, row.length = rv.mixRing.length) ∧
      (∀ column ∈ rv.mixRing, column.length = pubkeys.length) ∧
      ∀ n < pubkeys.length, ∀ m < rv.mixRing.length,
        (pubkeys[n]?.bind fun row => row[m]?) = (rv.mixRing[m]?.bind fun column => column[n]?)
  else pubkeys = rv.mixRing

def imagesMatch (rv : ExpandedRct) (vin : List Txin) : Bool :=
  if rv.rv.type = rctTypeFull then rv.ii = [keyImages vin]
  else rv.ii.map List.head? = (keyImages vin).map some

def checkRctSignatures (tx : Transaction) (txPrefixHash : Hash) (pubkeys : List (List CtKey)) :
    Bool :=
  match expandTransaction2 tx txPrefixHash pubkeys with
  | none => false
  | some rv =>
      mixRingMatches rv pubkeys && imagesMatch rv tx.vin.toList &&
        (if rv.rv.type = rctTypeFull then sigs.verRct rv else sigs.verRctNonSemanticsSimple rv) &&
        !(rv.rv.type = rctTypeBulletproof ∧ view.hfVersion < 8 ∧
          rv.rv.p.bulletproofs.toList.any fun proof => 1 < proof.v.toList.length)

def checkCollected (tx : Transaction) (txPrefixHash : Hash) (st : InputsState) : Bool :=
  if tx.version = 1 then
    if tx.minorVersion = 0 then st.results.all id
    else sigs.checkBorromeanSignature txPrefixHash st.borromeanImages
      (st.pubkeys.map fun row => row.map CtKey.dest) tx.borromeanSignature
  else checkRctSignatures view sigs tx txPrefixHash st.pubkeys

/-! ### The function -/

variable (ops : CryptoOps) (cfg : Config)

/-- `check_tx_inputs`: whether the transaction counts as non-private, and the greatest height of a
ring member. -/
def checkTxInputs (tx : Transaction) : Except InputsFailure Bool × ℕ :=
  let txPrefixHash := getTransactionPrefixHash ops cfg tx.toTransactionPrefix
  let vin := tx.vin.toList
  match checkRingSizes rules.hfVersionFixedRingSize view.hfVersion view.numOutputs vin with
  | none => (.error .lowMixin, 0)
  | some isNofakeTx =>
      if 2 ≤ view.hfVersion ∧ checkTxVersion rules view (mixingOf view.numOutputs vin).nUnmixable
          tx.toTransactionPrefix = false then (.error .verifivationFailed, 0)
      else if 7 ≤ view.hfVersion ∧ sortedIns (keyImages vin) = false then
        (.error .verifivationFailed, 0)
      else
        match checkInputs view sigs tx txPrefixHash vin.zipIdx ⟨[], [], [], 0⟩ with
        | (.error failure, st) => (.error failure, st.maxUsedBlockHeight)
        | (.ok (), st) =>
            if rules.hfVersionEnforceMinAge ≤ view.hfVersion ∧
                view.height < st.maxUsedBlockHeight + rules.defaultTxSpendableAge then
              (.error .refused, st.maxUsedBlockHeight)
            else if checkCollected view sigs tx txPrefixHash st then
              (.ok isNofakeTx, st.maxUsedBlockHeight)
            else (.error .refused, st.maxUsedBlockHeight)

end XrCoin.Blockchain

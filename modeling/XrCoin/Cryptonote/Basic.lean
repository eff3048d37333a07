import XrCoin.Cryptonote.RctTypes

/-!
Transactions and blocks, and how the binary archive serialises them.

The two sides of each `do_serialize` are kept apart as `save…` and `load…`. A
loaded object starts from an empty one, as `set_null` leaves it.
-/

namespace XrCoin.Cryptonote

open Archive

abbrev Hash : Type := Pod 32
abbrev PublicKey : Type := Pod 32
abbrev KeyImage : Type := Pod 32
abbrev Signature : Type := Pod 64
abbrev SecretKey : Type := Pod 32
abbrev KeyDerivation : Type := Pod 32

instance instLawfulBEqHash : LawfulBEq Hash := inferInstance

/-- The constant the serialisation of transactions refers to and the repository
does not define. -/
structure Config where
  /-- `CURRENT_TRANSACTION_VERSION`, which the low byte of the version word has
  to hold. -/
  currentTransactionVersion : ℕ
  currentTransactionVersion_lt : currentTransactionVersion < 256

def currentConfig : Config := ⟨2, by decide⟩

/-! ### Data -/

structure TxoutToScript where
  keys : StdVector PublicKey
  script : StdVector UInt8
  deriving DecidableEq, Inhabited

inductive TxoutTarget
  | toScript (script : TxoutToScript)
  | toScriptHash (hash : Hash)
  | toKey (key : PublicKey)
  deriving DecidableEq

inductive Txin
  | gen (height : UInt64)
  | toScript (prev : Hash) (prevout : UInt64) (sigset : StdVector UInt8)
  | toScriptHash (prev : Hash) (prevout : UInt64) (script : TxoutToScript)
      (sigset : StdVector UInt8)
  | toKey (amount : UInt64) (keyOffsets : StdVector UInt64) (kImage : KeyImage)
  deriving DecidableEq

theorem gen_fits : [Txin.gen 0].length < 2 ^ 64 := by decide

theorem offset_fits : [(0 : UInt64)].length < 2 ^ 64 := by decide

theorem single_fits {α : Type} (a : α) : [a].length < 2 ^ 64 := by simp

theorem pair_fits {α : Type} (a b : α) : [a, b].length < 2 ^ 64 := by simp

structure TxOut where
  amount : UInt64
  target : TxoutTarget
  deriving DecidableEq

structure TransactionPrefix where
  version : UInt64
  minorVersion : UInt8
  unlockTime : UInt64
  vin : StdVector Txin
  vout : StdVector TxOut
  extra : StdVector UInt8
  deriving DecidableEq

structure BorromeanSignature where
  c : Key
  r : StdVector (StdVector Key)
  deriving DecidableEq, Inhabited

structure Transaction extends TransactionPrefix where
  signatures : StdVector (StdVector Signature)
  borromeanSignature : BorromeanSignature
  rctSignatures : RctSig
  deriving DecidableEq

structure BlockHeader where
  majorVersion : UInt8
  minorVersion : UInt8
  timestamp : UInt64
  prevId : Hash
  nonce : UInt64
  deriving DecidableEq

structure Block extends BlockHeader where
  minerTx : Transaction
  txHashes : StdVector Hash
  deriving DecidableEq

def TxOut.key? (out : TxOut) : Option PublicKey :=
  match out.target with
  | .toKey key => some key
  | _ => none

/-- The inputs that the database and the pool know. -/
def Txin.Supported : Txin → Prop
  | .gen _ => True
  | .toKey _ _ _ => True
  | _ => False

def Txin.isGen : Txin → Bool
  | .gen _ => true
  | _ => false

def Txin.keyImage : Txin → Option KeyImage
  | .toKey _ _ kImage => some kImage
  | _ => none

def keyImages (vin : List Txin) : List KeyImage := vin.filterMap Txin.keyImage

def getSignatureSize : Txin → UInt64
  | .toKey _ keyOffsets _ => keyOffsets.size
  | _ => 0

/-- The ring size of the first input, which stands for all of them. -/
def firstRingSize (vin : StdVector Txin) : UInt64 :=
  match vin.toList.head? with
  | some (.toKey _ keyOffsets _) => keyOffsets.size
  | _ => 0

/-- The `mixin` argument of the prunable data. It wraps for a ring without
members. -/
def firstMixin (vin : StdVector Txin) : UInt64 :=
  match vin.toList.head? with
  | some (.toKey _ keyOffsets _) => keyOffsets.size - 1
  | _ => 0

/-! ### Saving -/

def saveTxoutToScript (script : TxoutToScript) : Out :=
  saveContainer savePod script.keys ++ saveContainer saveUint8 script.script

def saveTxoutTarget : TxoutTarget → Out
  | .toScript script => saveUint8 0 ++ saveTxoutToScript script
  | .toScriptHash hash => saveUint8 1 ++ savePod hash
  | .toKey key => saveUint8 2 ++ savePod key

def saveTxin : Txin → Out
  | .gen height => saveUint8 0xff ++ saveVarint64 height
  | .toScript prev prevout sigset =>
      saveUint8 0 ++ savePod prev ++ saveVarint64 prevout ++ saveContainer saveUint8 sigset
  | .toScriptHash prev prevout script sigset =>
      saveUint8 1 ++ savePod prev ++ saveVarint64 prevout ++ saveTxoutToScript script ++
        saveContainer saveUint8 sigset
  | .toKey amount keyOffsets kImage =>
      saveUint8 2 ++ saveVarint64 amount ++ saveContainer saveVarint64 keyOffsets ++
        savePod kImage

def saveTxOut (out : TxOut) : Out := saveVarint64 out.amount ++ saveTxoutTarget out.target

def versionWord (version : UInt64) (minorVersion : UInt8) : UInt64 :=
  (minorVersion.toUInt64 <<< 8) ||| (version &&& 0xff)

def VersionKnown (cfg : Config) (version : UInt64) : Prop :=
  version ≠ 0 ∧ version.toNat ≤ cfg.currentTransactionVersion

instance (cfg : Config) (version : UInt64) : Decidable (VersionKnown cfg version) :=
  inferInstanceAs (Decidable (_ ∧ _))

def saveTransactionPrefix (cfg : Config) (tx : TransactionPrefix) : Out :=
  saveVarint64 (versionWord tx.version tx.minorVersion) ++
    .require (VersionKnown cfg tx.version) ++
    saveVarint64 tx.unlockTime ++
    saveContainer saveTxin tx.vin ++
    saveContainer saveTxOut tx.vout ++
    saveContainer saveUint8 tx.extra

def saveRingSignature (txin : Txin) (sigs : StdVector Signature) : Out :=
  saveArray (getSignatureSize txin) savePod sigs

/-- The `signatures` of a version 1.0 transaction. A missing list is accepted
when no input expects a signature. -/
def saveSignatures (vin : StdVector Txin) (signatures : StdVector (StdVector Signature)) : Out :=
  if signatures.toList = [] then
    .saveAll (fun txin => .require (getSignatureSize txin = 0)) vin.toList
  else
    .require (signatures.size = vin.size) ++
      .saveAll (fun p => saveRingSignature p.1 p.2) (vin.toList.zip signatures.toList)

def saveBorromeanSignature (inputs ringSize : UInt64) (sig : BorromeanSignature) : Out :=
  savePod sig.c ++
    if sig.r.toList = [] then .require (inputs = 0 ∨ ringSize = 0)
    else saveArray inputs (saveArray ringSize savePod) sig.r

def saveRctSig (vin : StdVector Txin) (vout : StdVector TxOut) (rv : RctSig) : Out :=
  saveRctSigBase vin.size vout.size rv.toRctSigBase ++
    .saveIf (rv.type ≠ rctTypeNull)
      (saveRctSigPrunable rv.type vin.size vout.size (firstMixin vin) rv.p)

def saveTransaction (cfg : Config) (tx : Transaction) : Out :=
  saveTransactionPrefix cfg tx.toTransactionPrefix ++
    if tx.version = 1 then
      .require (tx.signatures.toList = [] ∨ tx.borromeanSignature.r.toList = []) ++
        if tx.minorVersion = 0 then saveSignatures tx.vin tx.signatures
        else saveBorromeanSignature tx.vin.size (firstRingSize tx.vin) tx.borromeanSignature
    else if tx.vin.toList = [] then .emit []
    else saveRctSig tx.vin tx.vout tx.rctSignatures

def saveNonce (majorVersion : UInt8) (nonce : UInt64) : Out :=
  if 8 ≤ majorVersion then saveUint64 nonce else saveUint32 nonce.toUInt32

def saveBlockHeader (b : BlockHeader) : Out :=
  saveVarint8 b.majorVersion ++ saveVarint8 b.minorVersion ++ saveVarint64 b.timestamp ++
    savePod b.prevId ++ saveNonce b.majorVersion b.nonce

def saveBlock (cfg : Config) (b : Block) : Out :=
  saveBlockHeader b.toBlockHeader ++ saveTransaction cfg b.minerTx ++
    saveContainer savePod b.txHashes

/-! ### Loading -/

def loadTxoutToScript : Reader TxoutToScript := do
  let keys ← loadContainer (Reader.blob 32)
  let script ← loadContainer loadUint8
  pure { keys, script }

def loadTxoutTargetOf (tag : UInt8) : Reader TxoutTarget :=
  if tag = 0 then do
    let script ← loadTxoutToScript
    pure (.toScript script)
  else if tag = 1 then do
    let hash ← Reader.blob 32
    pure (.toScriptHash hash)
  else if tag = 2 then do
    let key ← Reader.blob 32
    pure (.toKey key)
  else Reader.fail

def loadTxoutTarget : Reader TxoutTarget := loadUint8 >>= loadTxoutTargetOf

def loadTxinOf (tag : UInt8) : Reader Txin :=
  if tag = 0xff then do
    let height ← loadVarint64
    pure (.gen height)
  else if tag = 0 then do
    let prev ← Reader.blob 32
    let prevout ← loadVarint64
    let sigset ← loadContainer loadUint8
    pure (.toScript prev prevout sigset)
  else if tag = 1 then do
    let prev ← Reader.blob 32
    let prevout ← loadVarint64
    let script ← loadTxoutToScript
    let sigset ← loadContainer loadUint8
    pure (.toScriptHash prev prevout script sigset)
  else if tag = 2 then do
    let amount ← loadVarint64
    let keyOffsets ← loadContainer loadVarint64
    let kImage ← Reader.blob 32
    pure (.toKey amount keyOffsets kImage)
  else Reader.fail

def loadTxin : Reader Txin := loadUint8 >>= loadTxinOf

def loadTxOut : Reader TxOut := do
  let amount ← loadVarint64
  let target ← loadTxoutTarget
  pure { amount, target }

def loadTransactionPrefixOf (cfg : Config) (version : UInt64) (minorVersion : UInt8) :
    Reader TransactionPrefix := do
  Reader.require (VersionKnown cfg version)
  let unlockTime ← loadVarint64
  let vin ← loadContainer loadTxin
  let vout ← loadContainer loadTxOut
  let extra ← loadContainer loadUint8
  pure { version, minorVersion, unlockTime, vin, vout, extra }

def loadTransactionPrefix (cfg : Config) : Reader TransactionPrefix := do
  let word ← loadVarint64
  Reader.require (word ≤ 0xffff)
  loadTransactionPrefixOf cfg (word &&& 0xff) ((word >>> 8) &&& 0xff).toUInt8

/-- `do_serialize` of a vector of signatures that was resized to `cnt`. -/
def loadRingSignature (cnt : UInt64) : Reader (StdVector Signature) := do
  let left ← Reader.remainingBytes
  Reader.require ((cnt * 64).toNat ≤ left)
  loadArray cnt (Reader.blob 64)

def loadSignatures (vin : StdVector Txin) : Reader (StdVector (StdVector Signature)) := do
  let signatures ← Reader.traverse (fun txin => loadRingSignature (getSignatureSize txin)) vin.toList
  pure ⟨signatures.val, by rw [signatures.2]; exact vin.size_lt⟩

def loadBorromeanSignature (inputs ringSize : UInt64) : Reader BorromeanSignature := do
  let c ← Reader.blob 32
  let r ← loadArray inputs (loadArray ringSize (Reader.blob 32))
  pure { c, r }

def loadRctSig (vin : StdVector Txin) (vout : StdVector TxOut) : Reader RctSig := do
  let base ← loadRctSigBase vin.size vout.size
  let p ← Reader.loadIf (base.type ≠ rctTypeNull)
    (loadRctSigPrunable base.type vin.size vout.size (firstMixin vin)) default
  pure { base with p }

def loadTransactionOf (tx : TransactionPrefix) : Reader Transaction :=
  if tx.version = 1 then
    if tx.minorVersion = 0 then do
      let signatures ← loadSignatures tx.vin
      pure ⟨tx, signatures, default, default⟩
    else do
      let borromeanSignature ← loadBorromeanSignature tx.vin.size (firstRingSize tx.vin)
      pure ⟨tx, .nil, borromeanSignature, default⟩
  else if tx.vin.toList = [] then pure ⟨tx, .nil, default, default⟩
  else do
    let rctSignatures ← loadRctSig tx.vin tx.vout
    pure ⟨tx, .nil, default, rctSignatures⟩

def loadTransaction (cfg : Config) : Reader Transaction :=
  loadTransactionPrefix cfg >>= loadTransactionOf

def loadNonce (majorVersion : UInt8) : Reader UInt64 :=
  if 8 ≤ majorVersion then loadUint64
  else do
    let nonce32 ← loadUint32
    pure nonce32.toUInt64

def loadBlockHeader : Reader BlockHeader := do
  let majorVersion ← loadVarint8
  let minorVersion ← loadVarint8
  let timestamp ← loadVarint64
  let prevId ← Reader.blob 32
  let nonce ← loadNonce majorVersion
  pure { majorVersion, minorVersion, timestamp, prevId, nonce }

def loadBlock (cfg : Config) : Reader Block := do
  let header ← loadBlockHeader
  let minerTx ← loadTransaction cfg
  let txHashes ← loadContainer (Reader.blob 32)
  pure { header with minerTx, txHashes }

end XrCoin.Cryptonote

import XrCoin.Cryptonote.FormatUtils

/-!
The fields of the extra bytes of a transaction.

`parse_tx_extra` keeps the fields in front of one that does not load. The functions that look
for a key do not ask whether the parse went through.
-/

namespace XrCoin.Cryptonote

open Archive

inductive TxExtraField
  | padding (size : ℕ)
  | pubKey (key : PublicKey)
  | nonce (nonce : List UInt8)
  | mergeMiningTag (depth : UInt64) (merkleRoot : Hash)
  | additionalPubKeys (data : List PublicKey)
  | mysteriousMinergate (data : List UInt8)
  deriving DecidableEq

/-! ### Loading -/

def loadString : Reader (List UInt8) := do
  let size ← loadVarint64
  let left ← Reader.remainingBytes
  Reader.require (size.toNat ≤ left)
  let bytes ← Reader.blob size.toNat
  pure bytes.val

/-- The zero bytes up to the end of the stream, at most `rounds` of them, with the tag and those
before counted in `size`. -/
def loadPadding : ℕ → ℕ → Reader TxExtraField
  | 0, _ => Reader.fail
  | rounds + 1, size => do
      let left ← Reader.remainingBytes
      if left = 0 then pure (.padding size)
      else
        let zero ← loadUint8
        Reader.require (zero = 0)
        loadPadding rounds (size + 1)

def loadExtraNonce : Reader TxExtraField := do
  let nonce ← loadString
  Reader.require (nonce.length ≤ 255)
  pure (.nonce nonce)

def loadMergeMiningTag : Reader TxExtraField := do
  let field ← loadString
  match deserialize (do
      let depth ← loadVarint64
      let merkleRoot ← Reader.blob 32
      pure (TxExtraField.mergeMiningTag depth merkleRoot)) field with
  | some tag => pure tag
  | none => Reader.fail

def loadAdditionalPubKeys : Reader TxExtraField := do
  let data ← loadContainer (Reader.blob 32)
  pure (.additionalPubKeys data.toList)

def loadTxExtraField : Reader TxExtraField := do
  let tag ← loadUint8
  if tag = 0x00 then loadPadding 255 1
  else if tag = 0x01 then do
    let key ← Reader.blob 32
    pure (.pubKey key)
  else if tag = 0x02 then loadExtraNonce
  else if tag = 0x03 then loadMergeMiningTag
  else if tag = 0x04 then loadAdditionalPubKeys
  else if tag = 0xde then do
    let data ← loadString
    pure (.mysteriousMinergate data)
  else Reader.fail

/-- The loop over the fields. Every field takes a byte at least, so as many rounds as there are
bytes are enough. -/
def parseTxExtraLoop : ℕ → InStream → List TxExtraField × Bool
  | 0, _ => ([], true)
  | rounds + 1, s =>
      match loadTxExtraField s with
      | none => ([], false)
      | some (field, s') =>
          if s'.rest = [] then ([field], true)
          else
            let rest := parseTxExtraLoop rounds s'
            (field :: rest.1, rest.2)

def parseTxExtra (extra : List UInt8) : List TxExtraField × Bool :=
  parseTxExtraLoop extra.length (.ofBytes extra)

/-! ### Keys -/

def nullPkey : PublicKey := List.Vector.replicate 32 0

def TxExtraField.pubKey? : TxExtraField → Option PublicKey
  | .pubKey key => some key
  | _ => none

def TxExtraField.additionalPubKeys? : TxExtraField → Option (List PublicKey)
  | .additionalPubKeys data => some data
  | _ => none

def getTxPubKeyFromExtra (extra : List UInt8) (pkIndex : ℕ) : PublicKey :=
  (((parseTxExtra extra).1.filterMap TxExtraField.pubKey?)[pkIndex]?).getD nullPkey

def getAdditionalTxPubKeysFromExtra (extra : List UInt8) : List PublicKey :=
  ((parseTxExtra extra).1.findSome? TxExtraField.additionalPubKeys?).getD []

/-! ### Building -/

def addTxPubKeyToExtra (extra : List UInt8) (txPubKey : PublicKey) : List UInt8 :=
  extra ++ 0x01 :: txPubKey.val

def addExtraNonceToTxExtra (extra extraNonce : List UInt8) : Option (List UInt8) :=
  if extraNonce.length ≤ 255 then
    some (extra ++ 0x02 :: extraNonce.length.toUInt8 :: extraNonce)
  else none

def saveString (bytes : List UInt8) : List UInt8 := writeVarint bytes.length ++ bytes

def TxExtraField.save : TxExtraField → List UInt8
  | .padding size => List.replicate size 0
  | .pubKey key => 0x01 :: key.val
  | .nonce bytes => 0x02 :: saveString bytes
  | .mergeMiningTag depth merkleRoot =>
      0x03 :: saveString (writeVarint depth.toNat ++ merkleRoot.val)
  | .additionalPubKeys data =>
      0x04 :: (writeVarint data.length ++ data.flatMap fun key => key.val)
  | .mysteriousMinergate data => 0xde :: saveString data

def TxExtraField.rank : TxExtraField → ℕ
  | .pubKey _ => 0
  | .additionalPubKeys _ => 1
  | .nonce _ => 2
  | .mergeMiningTag _ _ => 3
  | .mysteriousMinergate _ => 4
  | .padding _ => 5

/-- `sort_tx_extra`, which does not allow bytes that are not fields. -/
def sortTxExtra (extra : List UInt8) : Option (List UInt8) :=
  if extra = [] then some []
  else
    let fields := parseTxExtra extra
    if fields.2 then
      some ((List.range 6).flatMap fun rank =>
        (fields.1.filter fun field => field.rank = rank).flatMap TxExtraField.save)
    else none

end XrCoin.Cryptonote

import XrCoin.Archive.Binary

/-!
The ring-confidential part of a transaction and its serialisation.

None of the arrays carries its size: the loading side resizes them from the
numbers of inputs and outputs, the first ring and the type. Fields that are
reconstructed and never serialised (the message, the mix ring, the key images of
a ring signature, the sender key of an amount) are left out; `outPk.dest` and
`Bulletproof.V` are kept because parsing fills them in.
-/

namespace XrCoin.Cryptonote

open Archive

abbrev Key : Type := Pod 32

instance {n : ℕ} : Inhabited (Pod n) := ⟨List.Vector.replicate n 0⟩

structure CtKey where
  dest : Key
  mask : Key
  deriving DecidableEq, Inhabited

structure EcdhTuple where
  mask : Key
  amount : Key
  deriving DecidableEq, Inhabited

structure MgSig where
  ss : StdVector (StdVector Key)
  cc : Key
  deriving DecidableEq, Inhabited

structure RangeSig where
  /-- `boroSig`: two arrays of 64 keys and a key. -/
  asig : Pod 4128
  ci : Pod 2048
  deriving DecidableEq, Inhabited

structure Bulletproof where
  v : StdVector Key
  a1 : Key
  s : Key
  t1 : Key
  t2 : Key
  taux : Key
  mu : Key
  l : StdVector Key
  r : StdVector Key
  a : Key
  b : Key
  t : Key
  deriving DecidableEq, Inhabited

def rctTypeNull : UInt8 := 0
def rctTypeFull : UInt8 := 1
def rctTypeSimple : UInt8 := 2
def rctTypeBulletproof : UInt8 := 3

def KnownRctType (type : UInt8) : Prop :=
  type = rctTypeFull ∨ type = rctTypeSimple ∨ type = rctTypeBulletproof

instance (type : UInt8) : Decidable (KnownRctType type) := inferInstanceAs (Decidable (_ ∨ _))

structure RctSigBase where
  type : UInt8
  pseudoOuts : StdVector Key
  ecdhInfo : StdVector EcdhTuple
  outPk : StdVector CtKey
  txnFee : UInt64
  deriving DecidableEq, Inhabited

structure RctSigPrunable where
  rangeSigs : StdVector RangeSig
  bulletproofs : StdVector Bulletproof
  mgs : StdVector MgSig
  pseudoOuts : StdVector Key
  deriving DecidableEq, Inhabited

structure RctSig extends RctSigBase where
  p : RctSigPrunable
  deriving DecidableEq, Inhabited

/-! ### Sizes of bulletproofs -/

def nBulletproofMaxAmounts (proof : Bulletproof) : ℕ :=
  if 6 ≤ proof.l.toList.length ∧ proof.l.toList.length = proof.r.toList.length ∧
      proof.l.toList.length ≤ 6 + 4 then
    1 <<< (proof.l.toList.length - 6)
  else 0

def nBulletproofMaxAmountsLoop : ℕ → List Bulletproof → ℕ
  | n, [] => n
  | n, proof :: proofs =>
      if nBulletproofMaxAmounts proof < 2 ^ 32 - 1 - n then
        if nBulletproofMaxAmounts proof = 0 then 0
        else nBulletproofMaxAmountsLoop (n + nBulletproofMaxAmounts proof) proofs
      else 0

def nBulletproofMaxAmountsAll (proofs : StdVector Bulletproof) : ℕ :=
  nBulletproofMaxAmountsLoop 0 proofs.toList

theorem nBulletproofMaxAmountsLoop_length {n : ℕ} {proofs : List Bulletproof}
    (hn : n < 2 ^ 32) (hpos : 0 < nBulletproofMaxAmountsLoop n proofs) :
    n + proofs.length < 2 ^ 32 := by
  induction proofs generalizing n with
  | nil => simpa using hn
  | cons proof proofs ih =>
      rw [nBulletproofMaxAmountsLoop] at hpos
      split at hpos
      · split at hpos
        · exact absurd hpos (by simp)
        · rename_i hlt hne
          have h := ih (by omega) hpos
          rw [List.length_cons]
          omega
      · exact absurd hpos (by simp)

/-! ### Saving -/

def saveEcdhTuple (e : EcdhTuple) : Out := savePod e.mask ++ savePod e.amount

def saveRangeSig (sig : RangeSig) : Out := savePod sig.asig ++ savePod sig.ci

/-- The commitments `V` are not saved. -/
def saveBulletproof (bp : Bulletproof) : Out :=
  savePod bp.a1 ++ savePod bp.s ++ savePod bp.t1 ++ savePod bp.t2 ++ savePod bp.taux ++
    savePod bp.mu ++ saveContainer savePod bp.l ++ saveContainer savePod bp.r ++ savePod bp.a ++
    savePod bp.b ++ savePod bp.t ++
    .require (bp.l.toList ≠ [] ∧ bp.l.size = bp.r.size)

/-- One element of `MGs`: a matrix without sizes and a key. -/
def saveMgSig (rows cols : UInt64) (mg : MgSig) : Out :=
  saveArray rows (saveArray cols savePod) mg.ss ++ savePod mg.cc

def saveRctSigBase (inputs outputs : UInt64) (rv : RctSigBase) : Out :=
  saveUint8 rv.type ++
    if rv.type = rctTypeNull then .emit []
    else
      .require (KnownRctType rv.type) ++
      saveVarint64 rv.txnFee ++
      .saveIf (rv.type = rctTypeSimple) (saveArray inputs savePod rv.pseudoOuts) ++
      saveArray outputs saveEcdhTuple rv.ecdhInfo ++
      saveArray outputs (fun pk => savePod pk.mask) rv.outPk

def saveBulletproofs (outputs : UInt64) (bulletproofs : StdVector Bulletproof) : Out :=
  let nbp : UInt32 := bulletproofs.size.toUInt32
  saveUint32 nbp ++
    .require (nbp.toUInt64 ≤ outputs) ++
    .saveAll saveBulletproof (bulletproofs.toList.take nbp.toNat) ++
    .require (outputs.toNat ≤ nBulletproofMaxAmountsAll bulletproofs)

def mgElements (type : UInt8) (inputs : UInt64) : UInt64 :=
  if type = rctTypeSimple ∨ type = rctTypeBulletproof then inputs else 1

def mgSs2Elements (type : UInt8) (inputs : UInt64) : UInt64 :=
  (if type = rctTypeSimple ∨ type = rctTypeBulletproof then 1 else inputs) + 1

def saveRctSigPrunable (type : UInt8) (inputs outputs mixin : UInt64) (p : RctSigPrunable) :
    Out :=
  if type = rctTypeNull then .emit []
  else
    .require (KnownRctType type) ++
    .saveIf (type = rctTypeBulletproof) (saveBulletproofs outputs p.bulletproofs) ++
    .saveIf (type ≠ rctTypeBulletproof) (saveArray outputs saveRangeSig p.rangeSigs) ++
    saveArray (mgElements type inputs) (saveMgSig (mixin + 1) (mgSs2Elements type inputs)) p.mgs ++
    .saveIf (type = rctTypeBulletproof) (saveArray inputs savePod p.pseudoOuts)

/-! ### Loading -/

def loadEcdhTuple : Reader EcdhTuple := do
  let mask ← Reader.blob 32
  let amount ← Reader.blob 32
  pure { mask, amount }

def loadRangeSig : Reader RangeSig := do
  let asig ← Reader.blob 4128
  let ci ← Reader.blob 2048
  pure { asig, ci }

def loadOutPk : Reader CtKey := do
  let mask ← Reader.blob 32
  pure { dest := default, mask }

def loadBulletproof : Reader Bulletproof := do
  let a1 ← Reader.blob 32
  let s ← Reader.blob 32
  let t1 ← Reader.blob 32
  let t2 ← Reader.blob 32
  let taux ← Reader.blob 32
  let mu ← Reader.blob 32
  let l ← loadContainer (Reader.blob 32)
  let r ← loadContainer (Reader.blob 32)
  let a ← Reader.blob 32
  let b ← Reader.blob 32
  let t ← Reader.blob 32
  Reader.require (l.toList ≠ [] ∧ l.size = r.size)
  pure { v := .nil, a1, s, t1, t2, taux, mu, l, r, a, b, t }

def loadMgSig (rows cols : UInt64) : Reader MgSig := do
  let ss ← loadArray rows (loadArray cols (Reader.blob 32))
  let cc ← Reader.blob 32
  pure { ss, cc }

def loadRctSigBase (inputs outputs : UInt64) : Reader RctSigBase := do
  let type ← loadUint8
  if type = rctTypeNull then
    pure { (default : RctSigBase) with type }
  else do
    Reader.require (KnownRctType type)
    let txnFee ← loadVarint64
    let pseudoOuts ← Reader.loadIf (type = rctTypeSimple) (loadArray inputs (Reader.blob 32)) .nil
    let ecdhInfo ← loadArray outputs loadEcdhTuple
    let outPk ← loadArray outputs loadOutPk
    pure { type, pseudoOuts, ecdhInfo, outPk, txnFee }

def loadBulletproofs (outputs : UInt64) : Reader (StdVector Bulletproof) := do
  let nbp ← loadUint32
  Reader.require (nbp.toUInt64 ≤ outputs)
  let bulletproofs ← loadArray nbp.toUInt64 loadBulletproof
  Reader.require (outputs.toNat ≤ nBulletproofMaxAmountsAll bulletproofs)
  pure bulletproofs

def loadRctSigPrunable (type : UInt8) (inputs outputs mixin : UInt64) :
    Reader RctSigPrunable :=
  if type = rctTypeNull then pure default
  else do
    Reader.require (KnownRctType type)
    let bulletproofs ← Reader.loadIf (type = rctTypeBulletproof) (loadBulletproofs outputs) .nil
    let rangeSigs ←
      Reader.loadIf (type ≠ rctTypeBulletproof) (loadArray outputs loadRangeSig) .nil
    let mgs ← loadArray (mgElements type inputs)
      (loadMgSig (mixin + 1) (mgSs2Elements type inputs))
    let pseudoOuts ←
      Reader.loadIf (type = rctTypeBulletproof) (loadArray inputs (Reader.blob 32)) .nil
    pure { rangeSigs, bulletproofs, mgs, pseudoOuts }

end XrCoin.Cryptonote

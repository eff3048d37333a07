import XrCoin.Cryptonote.Serialization

/-!
Blobs, hashes and weights of transactions and blocks.

The hash function and the two curve operations that are needed are parameters. A
thrown exception and a returned `false` are both `none`.
-/

namespace XrCoin.Cryptonote

open Archive

structure CryptoOps where
  cnFastHash : List UInt8 → Hash
  /-- `scalarmultKey(P, INV_EIGHT)`, which throws when `P` is not a point. -/
  scalarmultInvEight : Key → Option Key
  /-- `rct::zeroCommit`. -/
  zeroCommit : UInt64 → Key

def nullHash : Hash := List.Vector.replicate 32 0

/-! ### Blobs -/

/-- `serialization::serialize` on a loading archive: the whole input has to be
consumed. -/
def deserialize {α : Type} (r : Reader α) (blob : List UInt8) : Option α :=
  match r (.ofBytes blob) with
  | some (a, s) => if s.rest = [] then some a else none
  | none => none

def readsOf {α : Type} (r : Reader α) (blob : List UInt8) : List Piece :=
  match r (.ofBytes blob) with
  | some (_, s) => s.log
  | none => []

/-- `tx_to_blob`; the result of the serialisation is not looked at. -/
def txToBlob (cfg : Config) (tx : Transaction) : List UInt8 := (saveTransaction cfg tx).bytes

def blockToBlob (cfg : Config) (b : Block) : List UInt8 := (saveBlock cfg b).bytes

theorem deserialize_eq_some {α : Type} {r : Reader α} {blob : List UInt8} {a : α} :
    deserialize r blob = some a ↔ ∃ s, r (.ofBytes blob) = some (a, s) ∧ s.rest = [] := by
  unfold deserialize
  rcases r (.ofBytes blob) with _ | ⟨b, s⟩
  · simp
  · by_cases hrest : s.rest = []
    · simp only [if_pos hrest, Option.some.injEq, Prod.mk.injEq]
      constructor
      · rintro rfl
        exact ⟨s, ⟨rfl, rfl⟩, hrest⟩
      · rintro ⟨s', ⟨rfl, -⟩, -⟩
        rfl
    · simp only [if_neg hrest]
      constructor
      · intro h
        exact absurd h (by simp)
      · rintro ⟨s', h, hnil⟩
        obtain ⟨rfl, rfl⟩ : b = a ∧ s = s' := by simpa using h
        exact absurd hnil hrest

theorem readsOf_eq {α : Type} {r : Reader α} {blob : List UInt8} {a : α} {s : InStream}
    (h : r (.ofBytes blob) = some (a, s)) : readsOf r blob = s.log := by
  rw [readsOf, h]

/-- What a whole load gives is saved as the loaded blob exactly when its reads
were well formed. -/
theorem deserialize_bytes_iff {α : Type} {r : Reader α} {save : α → Out} (hr : Accounts r save)
    {blob : List UInt8} {a : α} (h : deserialize r blob = some a) :
    (save a).bytes = blob ↔ ∀ p ∈ readsOf r blob, p.WellFormed := by
  obtain ⟨s, hs, hrest⟩ := deserialize_eq_some.mp h
  rw [readsOf_eq hs]
  exact span_bytes_eq_iff (hr hs) hrest

/-- What was saved is loaded from its blob, and nothing is left. -/
theorem deserialize_of_readsBack {α : Type} {r : Reader α} {out : Out} {a : α}
    (h : ReadsBack r out a) (hok : out.ok = true) : deserialize r out.bytes = some a := by
  obtain ⟨s, hs, hrest⟩ := h hok (.ofBytes out.bytes) [] (by simp [InStream.ofBytes])
  exact deserialize_eq_some.mpr ⟨s, hs, hrest⟩

/-! ### Expansion -/

def isCoinbase (tx : Transaction) : Bool :=
  match tx.vin.toList with
  | [.gen _] => true
  | _ => false

def expandOutPk (outPk : StdVector CtKey) (vout : StdVector TxOut) : Option (StdVector CtKey) :=
  (outPk.zip vout).traverse fun
    | (pk, ⟨_, .toKey key⟩) => some { pk with dest := key }
    | _ => none

/-- The part for bulletproofs: exactly one proof, large enough, whose
commitments are derived from `outPk`. -/
def expandBulletproofs (ops : CryptoOps) (type : UInt8) (outPk : StdVector CtKey)
    (bulletproofs : StdVector Bulletproof) : Option (StdVector Bulletproof) :=
  if type = rctTypeBulletproof then
    match bulletproofs.toList with
    | [bp] =>
        if 6 ≤ bp.l.toList.length ∧ outPk.toList.length ≤ 1 <<< (bp.l.toList.length - 6) then do
          let v ← outPk.traverse fun pk => ops.scalarmultInvEight pk.mask
          some ⟨[{ bp with v }], by simp⟩
        else none
    | _ => none
  else some bulletproofs

def expandRctSig (ops : CryptoOps) (vout : StdVector TxOut) (rv : RctSig) : Option RctSig :=
  if rv.outPk.size = vout.size then do
    let outPk ← expandOutPk rv.outPk vout
    let bulletproofs ← expandBulletproofs ops rv.type outPk rv.p.bulletproofs
    some ⟨{ rv.toRctSigBase with outPk }, { rv.p with bulletproofs }⟩
  else none

def expandTransaction1 (ops : CryptoOps) (tx : Transaction) : Option Transaction :=
  if 2 ≤ tx.version ∧ isCoinbase tx = false then do
    let rctSignatures ← expandRctSig ops tx.vout tx.rctSignatures
    some { tx with rctSignatures }
  else some tx

def parseAndValidateTxFromBlob (ops : CryptoOps) (cfg : Config) (blob : List UInt8) :
    Option Transaction := do
  let tx ← deserialize (loadTransaction cfg) blob
  expandTransaction1 ops tx

/-- `parse_and_validate_tx_prefix_from_blob`, which leaves the rest unread. -/
def parseAndValidateTxPrefixFromBlob (cfg : Config) (blob : List UInt8) :
    Option TransactionPrefix :=
  (loadTransactionPrefix cfg (.ofBytes blob)).map Prod.fst

def parseAndValidateBlockFromBlob (cfg : Config) (blob : List UInt8) : Option Block :=
  deserialize (loadBlock cfg) blob

/-! ### Expansion adds nothing that is serialised -/

theorem saveRctSigBase_serialised (inputs outputs : UInt64) (rv : RctSigBase) :
    saveRctSigBase inputs outputs rv.serialised = saveRctSigBase inputs outputs rv := by
  unfold RctSigBase.serialised
  by_cases hnull : rv.type = rctTypeNull
  · simp only [if_pos hnull, saveRctSigBase]
  · simp only [if_neg hnull, saveRctSigBase]
    have hpk : saveArray outputs (fun pk : CtKey => savePod pk.mask)
        (rv.outPk.map CtKey.serialised) =
        saveArray outputs (fun pk => savePod pk.mask) rv.outPk := by
      simp only [saveArray, StdVector.map_size, StdVector.map_toList]
      congr 1
      induction rv.outPk.toList with
      | nil => rfl
      | cons pk pks ih =>
          rw [List.map_cons, Out.saveAll_cons, Out.saveAll_cons, ih]
          rfl
    rw [hpk]
    by_cases hsimple : rv.type = rctTypeSimple
    · simp only [if_pos hsimple]
    · simp only [if_neg hsimple, Out.saveIf]

theorem saveBulletproofs_serialised (outputs : UInt64) (bulletproofs : StdVector Bulletproof) :
    saveBulletproofs outputs (bulletproofs.map Bulletproof.serialised) =
      saveBulletproofs outputs bulletproofs := by
  have hall : ∀ l : List Bulletproof, Out.saveAll saveBulletproof
      (l.map Bulletproof.serialised) = Out.saveAll saveBulletproof l := by
    intro l
    induction l with
    | nil => rfl
    | cons bp l ih =>
        rw [List.map_cons, Out.saveAll_cons, Out.saveAll_cons, ih]
        rfl
  have hmax : nBulletproofMaxAmountsAll (bulletproofs.map Bulletproof.serialised) =
      nBulletproofMaxAmountsAll bulletproofs := nBulletproofMaxAmountsLoop_serialised 0 _
  have hreq := Out.require_congr (p := outputs.toNat ≤
    nBulletproofMaxAmountsAll (bulletproofs.map Bulletproof.serialised)) (by rw [hmax])
  simp only [saveBulletproofs, StdVector.map_size, StdVector.map_toList, ← List.map_take, hall]
  rw [hreq]

theorem saveRctSigPrunable_serialised (type : UInt8) (inputs outputs mixin : UInt64)
    (p : RctSigPrunable) :
    saveRctSigPrunable type inputs outputs mixin (p.serialised type) =
      saveRctSigPrunable type inputs outputs mixin p := by
  unfold RctSigPrunable.serialised
  by_cases hnull : type = rctTypeNull
  · simp only [if_pos hnull, saveRctSigPrunable]
  · simp only [if_neg hnull, saveRctSigPrunable]
    by_cases hbp : type = rctTypeBulletproof
    · have hnot : ¬type ≠ rctTypeBulletproof := not_not.mpr hbp
      simp only [if_pos hbp, Out.saveIf_pos hbp, Out.saveIf_neg hnot, saveBulletproofs_serialised]
    · have hnot : type ≠ rctTypeBulletproof := hbp
      simp only [if_pos hnot, Out.saveIf_neg hbp]

/-- Two signatures with the same serialised part are saved alike. -/
theorem saveRctSig_congr {rv rv' : RctSig} (h : rv.serialised = rv'.serialised)
    (vin : StdVector Txin) (vout : StdVector TxOut) :
    saveRctSig vin vout rv = saveRctSig vin vout rv' := by
  have hbase : rv.toRctSigBase.serialised = rv'.toRctSigBase.serialised :=
    congrArg RctSig.toRctSigBase h
  have htype : rv.type = rv'.type := by
    have hkeep : ∀ b : RctSigBase, b.serialised.type = b.type := by
      intro b
      unfold RctSigBase.serialised
      split <;> rfl
    rw [← hkeep rv.toRctSigBase, ← hkeep rv'.toRctSigBase, hbase]
  have hp : rv.p.serialised rv.type = rv'.p.serialised rv'.type := congrArg RctSig.p h
  unfold saveRctSig
  rw [← saveRctSigBase_serialised, hbase, saveRctSigBase_serialised,
    ← saveRctSigPrunable_serialised rv.type, hp, htype, saveRctSigPrunable_serialised]

theorem expandOutPk_serialised {outPk outPk' : StdVector CtKey} {vout : StdVector TxOut}
    (hsize : outPk.size = vout.size) (h : expandOutPk outPk vout = some outPk') :
    outPk'.map CtKey.serialised = outPk.map CtKey.serialised := by
  have hall := StdVector.forall₂_traverse h
  rw [StdVector.zip_toList] at hall
  have hlen : outPk.toList.length = vout.toList.length := by
    rw [StdVector.size_eq_iff.mp hsize, StdVector.size_toNat]
  ext1
  rw [StdVector.map_toList, StdVector.map_toList]
  revert hall hlen
  generalize outPk.toList = pks
  generalize vout.toList = outs
  generalize outPk'.toList = pks'
  intro hall hlen
  induction pks generalizing outs pks' with
  | nil =>
      cases hall
      rfl
  | cons pk pks ih =>
      cases outs with
      | nil => exact absurd hlen (by simp)
      | cons out outs =>
          rw [List.zip_cons_cons] at hall
          cases hall with
          | cons hhead htail =>
              rw [List.map_cons, List.map_cons, ih outs _ htail (by simpa using hlen)]
              congr 1
              split at hhead
              · rename_i heq
                obtain ⟨rfl, rfl⟩ := Prod.mk.inj heq
                obtain rfl := Option.some.inj hhead
                rfl
              · exact absurd hhead (by simp)

theorem expandBulletproofs_serialised {ops : CryptoOps} {type : UInt8} {outPk : StdVector CtKey}
    {bulletproofs bulletproofs' : StdVector Bulletproof}
    (h : expandBulletproofs ops type outPk bulletproofs = some bulletproofs') :
    bulletproofs'.map Bulletproof.serialised = bulletproofs.map Bulletproof.serialised := by
  unfold expandBulletproofs at h
  split at h
  · split at h
    · rename_i bp hbp
      split at h
      · obtain ⟨v, -, h⟩ := Option.bind_eq_some_iff.mp h
        obtain rfl := Option.some.inj h
        ext1
        rw [StdVector.map_toList, StdVector.map_toList, hbp]
        rfl
      · exact absurd h (by simp)
    · exact absurd h (by simp)
  · obtain rfl := Option.some.inj h
    rfl

theorem expandRctSig_serialised {ops : CryptoOps} {vout : StdVector TxOut} {rv rv' : RctSig}
    (h : expandRctSig ops vout rv = some rv') : rv'.serialised = rv.serialised := by
  unfold expandRctSig at h
  split at h
  · rename_i hsize
    obtain ⟨outPk, hpk, h⟩ := Option.bind_eq_some_iff.mp h
    obtain ⟨bulletproofs, hbp, h⟩ := Option.bind_eq_some_iff.mp h
    obtain rfl := Option.some.inj h
    have hpk' := expandOutPk_serialised hsize hpk
    have hbp' := expandBulletproofs_serialised hbp
    simp only [RctSig.serialised, RctSigBase.serialised, RctSigPrunable.serialised, hpk', hbp']
  · exact absurd h (by simp)

theorem saveTransaction_expand {ops : CryptoOps} {tx tx' : Transaction}
    (h : expandTransaction1 ops tx = some tx') (cfg : Config) :
    saveTransaction cfg tx' = saveTransaction cfg tx := by
  unfold expandTransaction1 at h
  split at h
  · obtain ⟨rv, hrv, h⟩ := Option.bind_eq_some_iff.mp h
    obtain rfl := Option.some.inj h
    have hsave := saveRctSig_congr (expandRctSig_serialised hrv) tx.vin tx.vout
    simp only [saveTransaction]
    rw [hsave]
  · obtain rfl := Option.some.inj h
    rfl

end XrCoin.Cryptonote

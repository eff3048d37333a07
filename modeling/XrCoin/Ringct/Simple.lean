import XrCoin.Ringct.Mlsag
import XrCoin.Ringct.RangeProof

/-!
The ring signatures of the inputs of a transaction, in `rctSigs.cpp`.

Beside the keys of the inputs each column has one more key: what the commitments of the inputs
exceed those of the outputs by. The signer knows its secret key exactly where the amounts balance,
so that nothing of the second generator is left.

A simple signature is about one input, whose commitment is compared to another one to the same
amount. A full signature is about all inputs, outputs and the fee.
-/

namespace XrCoin.Ringct

open Archive Cryptonote Wallet Crypto Data

variable (c : Curve)

/-! ### The matrices -/

def simpleMatrix (pubs : List CtKey) (Cout : Key) : Option (List (List Key)) :=
  pubs.mapM fun pub => (subKeys c pub.mask Cout).map fun diff => [pub.dest, diff]

def excessKey (masks outMasks : List Key) (txnFeeKey : Key) : Option Key := do
  let inputs ← masks.foldlM (fun C mask => c.addKeys C mask) Curve.infinity
  let outputs ← outMasks.foldlM (fun C mask => subKeys c C mask) inputs
  subKeys c outputs txnFeeKey

def fullMatrix (pubs : List (List CtKey)) (outPk : List CtKey) (txnFeeKey : Key) :
    Option (List (List Key)) :=
  pubs.mapM fun col =>
    (excessKey c (col.map (·.mask)) (outPk.map (·.mask)) txnFeeKey).map fun excess =>
      col.map (·.dest) ++ [excess]

/-! ### Signing and checking -/

def proveRctMGSimple (message : Key) (pubs : List CtKey) (inSk : CtKey) (a Cout : Key)
    (kLRki : Option MultisigKLRki) (index : ℕ) (alphas : ℕ → Pod 32) (draws : ℕ → ℕ → Pod 32) :
    Option (MgSig × Key) := do
  guard (1 ≤ pubs.length)
  let M ← simpleMatrix c pubs Cout
  mlsagGen c message M [inSk.dest, c.scSub inSk.mask a] kLRki index 1 alphas draws

/-- A key that is no point throws, which is taken for a refusal. -/
def verRctMGSimple (message : Key) (mg : MgSig) (pubs : List CtKey) (C : Key) : Bool :=
  if 1 ≤ pubs.length then
    match simpleMatrix c pubs C with
    | none => false
    | some M => mlsagVer c message M mg 1
  else false

def inputsOf (pubs : List (List CtKey)) : ℕ := (pubs.headD []).length

def proveRctMG (message : Key) (pubs : List (List CtKey)) (inSk outSk outPk : List CtKey)
    (kLRki : Option MultisigKLRki) (index : ℕ) (txnFeeKey : Key) (alphas : ℕ → Pod 32)
    (draws : ℕ → ℕ → Pod 32) : Option (MgSig × Key) := do
  guard (1 ≤ pubs.length ∧ 1 ≤ inputsOf pubs ∧ (∀ col ∈ pubs, col.length = inputsOf pubs) ∧
    inSk.length = inputsOf pubs ∧ outSk.length = outPk.length)
  let M ← fullMatrix c pubs outPk txnFeeKey
  let masks := inSk.foldl (fun sk inSk => c.scAdd sk inSk.mask) Curve.scZero
  let excess := outSk.foldl (fun sk outSk => c.scSub sk outSk.mask) masks
  mlsagGen c message M (inSk.map (·.dest) ++ [excess]) kLRki index (inputsOf pubs) alphas draws

def verRctMG (mg : MgSig) (pubs : List (List CtKey)) (outPk : List CtKey)
    (txnFeeKey message : Key) : Bool :=
  if 1 ≤ pubs.length ∧ 1 ≤ inputsOf pubs ∧ ∀ col ∈ pubs, col.length = inputsOf pubs then
    match fullMatrix c pubs outPk txnFeeKey with
    | none => false
    | some M => mlsagVer c message M mg (inputsOf pubs)
  else false

variable {c} {n index r : ℕ} {cosigners : List Cosigner} {kLRki : Option MultisigKLRki}

/-! ### Columns with one more key -/

structure ExcessColumns (c : Curve) (n : ℕ) (cosigners : List Cosigner)
    (cols : List (List Key × Key)) (secrets : List Key) (excess : Key)
    (kLRki : Option MultisigKLRki) (index r : ℕ) (own : List Key) : Prop where
  cols_le : 2 ≤ cols.length
  rows_le : 1 ≤ r
  lengths : ∀ col ∈ cols, col.1.length = r
  secrets_length : secrets.length = r
  points : ∀ col ∈ cols, ∀ key ∈ col.1, (c.fromBytes key).isSome
  excess_points : ∀ col ∈ cols, (c.fromBytes col.2).isSome
  hashes : ∀ col ∈ cols, ∀ key ∈ col.1, c.toBytes (c.hashToEc key) ≠ Curve.infinity
  present : cols[index]? = some (own, c.toBytes (c.mulBase excess))
  keys : ∀ j < r, own[j]? = some (c.toBytes (c.mulBase (rowSecret c cosigners secrets j)))
  nonces : c.NoncesComposed n cosigners kLRki (own.getD 0 Curve.scZero)
  image : ∀ x ∈ kLRki,
    x.ki = c.generateKeyImage (own.getD 0 Curve.scZero) (rowSecret c cosigners secrets 0)
  single : kLRki.isSome = true → r = 1

theorem rowSecret_append {secrets : List Key} {excess : Key} {j : ℕ} (hj : j < secrets.length) :
    rowSecret c cosigners (secrets ++ [excess]) j = rowSecret c cosigners secrets j := by
  have hget : ∀ i < secrets.length,
      (secrets ++ [excess]).getD i Curve.scZero = secrets.getD i Curve.scZero := by
    intro i hi
    rw [List.getD_eq_getElem?_getD, List.getElem?_append_left hi, List.getD_eq_getElem?_getD]
  rw [rowSecret, rowSecret, hget j hj, hget 0 (by omega)]

theorem rowSecret_last {secrets : List Key} {excess : Key} (h : 1 ≤ secrets.length) :
    rowSecret c cosigners (secrets ++ [excess]) secrets.length = excess := by
  rw [rowSecret, if_neg (by omega), List.getD_eq_getElem?_getD, List.getElem?_concat_length,
    Option.getD_some]

namespace ExcessColumns

variable {cols : List (List Key × Key)} {secrets own : List Key} {excess : Key}

theorem rowsOf_eq (h : ExcessColumns c n cosigners cols secrets excess kLRki index r own) :
    rowsOf (cols.map fun col => col.1 ++ [col.2]) = r + 1 := by
  have hpos : 0 < cols.length := Nat.lt_of_lt_of_le Nat.zero_lt_two h.cols_le
  obtain ⟨col, rest, rfl⟩ := List.exists_cons_of_length_pos hpos
  rw [rowsOf, List.map_cons, List.headD_cons, List.length_append, h.lengths col List.mem_cons_self]
  rfl

theorem own_length (h : ExcessColumns c n cosigners cols secrets excess kLRki index r own) :
    own.length = r := h.lengths _ (List.mem_of_getElem? h.present)

theorem getD_own (h : ExcessColumns c n cosigners cols secrets excess kLRki index r own)
    (last : Key) :
    (own ++ [last]).getD 0 Curve.scZero = own.getD 0 Curve.scZero := by
  have hpos : 0 < own.length := by
    rw [h.own_length]
    exact h.rows_le
  rw [List.getD_eq_getElem?_getD, List.getElem?_append_left hpos, List.getD_eq_getElem?_getD]

theorem ownColumn (h : ExcessColumns c n cosigners cols secrets excess kLRki index r own) :
    OwnColumn c n cosigners (secrets ++ [excess]) kLRki r
      (own ++ [c.toBytes (c.mulBase excess)]) where
  key := by
    intro j hj
    rw [List.length_append, h.own_length, List.length_singleton] at hj
    rcases Nat.lt_succ_iff_lt_or_eq.mp hj with hlt | heq
    · rw [List.getElem?_append_left (hlt.trans_eq h.own_length.symm), h.keys j hlt,
        rowSecret_append (hlt.trans_eq h.secrets_length.symm)]
    · have hown : j = own.length := heq.trans h.own_length.symm
      have hsecrets : j = secrets.length := heq.trans h.secrets_length.symm
      rw [hown, List.getElem?_concat_length, ← hown, hsecrets,
        rowSecret_last (h.secrets_length ▸ h.rows_le)]
  nonces := by
    rw [h.getD_own]
    exact h.nonces
  image := by
    intro x hx
    rw [h.getD_own, rowSecret_append (h.secrets_length ▸ h.rows_le)]
    exact h.image x hx
  single := h.single
  le := by
    rw [List.length_append, h.own_length]
    exact Nat.le_add_right _ _

theorem signable (h : ExcessColumns c n cosigners cols secrets excess kLRki index r own) :
    Signable c n cosigners (cols.map fun col => col.1 ++ [col.2]) (secrets ++ [excess]) kLRki
      index r (own ++ [c.toBytes (c.mulBase excess)]) where
  cols := by
    rw [List.length_map]
    exact h.cols_le
  rows := by
    rw [h.rowsOf_eq]
    exact Nat.le_add_left _ _
  rectangular := by
    intro pk hpk
    obtain ⟨col, hcol, rfl⟩ := List.mem_map.mp hpk
    rw [h.rowsOf_eq, List.length_append, h.lengths col hcol]
    rfl
  secrets := by
    rw [h.rowsOf_eq, List.length_append, h.secrets_length]
    rfl
  points := by
    intro pk hpk key hkey
    obtain ⟨col, hcol, rfl⟩ := List.mem_map.mp hpk
    rcases List.mem_append.mp hkey with hkey | hkey
    · exact h.points col hcol key hkey
    · rw [List.mem_singleton.mp hkey]
      exact h.excess_points col hcol
  hashes := by
    intro pk hpk j hj
    obtain ⟨col, hcol, rfl⟩ := List.mem_map.mp hpk
    have hlt : j < col.1.length := hj.trans_eq (h.lengths col hcol).symm
    rw [List.getD_eq_getElem?_getD, List.getElem?_append_left hlt, List.getElem?_eq_getElem hlt,
      Option.getD_some]
    exact h.hashes col hcol _ (List.getElem_mem hlt)
  present := by
    rw [List.getElem?_map, h.present, Option.map_some]
  own := h.ownColumn

end ExcessColumns

/-! ### One input -/

def pointOf (c : Curve) (key : Key) : c.Point := (c.fromBytes key).getD 0

theorem fromBytes_eq_pointOf {key : Key} (h : (c.fromBytes key).isSome) :
    c.fromBytes key = some (pointOf c key) := by
  obtain ⟨P, hP⟩ := Option.isSome_iff_exists.mp h
  rw [pointOf, hP, Option.getD_some]

/-- A ring with the key of the input, whose commitment opens to the amount. Several signers share
the secret key. -/
structure SimpleInput (ped : Pedersen c) (n : ℕ) (cosigners : List Cosigner) (pubs : List CtKey)
    (inSk : CtKey) (amount : UInt64) (kLRki : Option MultisigKLRki) (index : ℕ) : Prop where
  ring : 2 ≤ pubs.length
  points : ∀ pub ∈ pubs, (c.fromBytes pub.dest).isSome ∧ (c.fromBytes pub.mask).isSome
  hashes : ∀ pub ∈ pubs, c.toBytes (c.hashToEc pub.dest) ≠ Curve.infinity
  present : pubs[index]? = some ⟨c.toBytes (c.mulBase (c.totalSecret inSk.dest cosigners)),
    c.toBytes (c.mulBase inSk.mask + amount.toNat • ped.H)⟩
  nonces : c.NoncesComposed n cosigners kLRki
    (c.toBytes (c.mulBase (c.totalSecret inSk.dest cosigners)))
  image : ∀ x ∈ kLRki, x.ki = c.generateKeyImage
    (c.toBytes (c.mulBase (c.totalSecret inSk.dest cosigners))) (c.totalSecret inSk.dest cosigners)

section One

variable {ped : Pedersen c} {pubs : List CtKey} {inSk : CtKey} {amount : UInt64}

theorem simpleMatrix_eq {Q : c.Point} (h : ∀ pub ∈ pubs, (c.fromBytes pub.mask).isSome) :
    simpleMatrix c pubs (c.toBytes Q) =
      some ((pubs.map fun pub => ([pub.dest], c.toBytes (pointOf c pub.mask - Q))).map
        fun col => col.1 ++ [col.2]) := by
  rw [List.map_map]
  refine mapM_eq_map fun pub hpub => ?_
  rw [subKeys_eq (fromBytes_eq_pointOf (h pub hpub)) (c.fromBytes_toBytes Q)]
  rfl

theorem SimpleInput.excessColumns
    (h : SimpleInput ped n cosigners pubs inSk amount kLRki index) (a : Key) :
    ExcessColumns c n cosigners (pubs.map fun pub => ([pub.dest],
        c.toBytes (pointOf c pub.mask - (c.mulBase a + amount.toNat • ped.H))))
      [inSk.dest] (c.scSub inSk.mask a) kLRki index 1
      [c.toBytes (c.mulBase (c.totalSecret inSk.dest cosigners))] where
  cols_le := by
    rw [List.length_map]
    exact h.ring
  rows_le := le_refl 1
  lengths := by
    intro col hcol
    obtain ⟨pub, -, rfl⟩ := List.mem_map.mp hcol
    rfl
  secrets_length := rfl
  points := by
    intro col hcol key hkey
    obtain ⟨pub, hpub, rfl⟩ := List.mem_map.mp hcol
    rw [List.mem_singleton.mp hkey]
    exact (h.points pub hpub).1
  excess_points := by
    intro col hcol
    obtain ⟨pub, -, rfl⟩ := List.mem_map.mp hcol
    rw [c.fromBytes_toBytes]
    rfl
  hashes := by
    intro col hcol key hkey
    obtain ⟨pub, hpub, rfl⟩ := List.mem_map.mp hcol
    rw [List.mem_singleton.mp hkey]
    exact h.hashes pub hpub
  -- the amounts cancel, so that only a multiple of the base is left
  present := by
    have hpoint : pointOf c (c.toBytes (c.mulBase inSk.mask + amount.toNat • ped.H)) =
        c.mulBase inSk.mask + amount.toNat • ped.H := by
      rw [pointOf, c.fromBytes_toBytes, Option.getD_some]
    have hexcess : c.mulBase (c.scSub inSk.mask a) = c.mulBase inSk.mask - c.mulBase a :=
      Curve.regular_base.mul_scSub
    rw [List.getElem?_map, h.present, Option.map_some, hpoint, hexcess,
      add_sub_add_right_eq_sub]
  keys := by
    intro j hj
    obtain rfl : j = 0 := Nat.lt_one_iff.mp hj
    rfl
  nonces := h.nonces
  image := h.image
  single := fun _ => rfl

/-- The signature of an input is accepted against any commitment to the same amount, alone or with
the shares of the other signers. -/
theorem proveRctMGSimple_accepted
    (h : SimpleInput ped n cosigners pubs inSk amount kLRki index) (message a : Key)
    (alphas : ℕ → Pod 32) (draws : ℕ → ℕ → Pod 32) :
    ∃ Cout mg ch, genC ped a amount = some Cout ∧
      proveRctMGSimple c message pubs inSk a Cout kLRki index alphas draws = some (mg, ch) ∧
      verRctMGSimple c message (cosignMg c n index ch mg cosigners) pubs Cout = true := by
  have hone : 1 ≤ pubs.length := Nat.le_of_succ_le h.ring
  have hmatrix := simpleMatrix_eq (Q := c.mulBase a + amount.toNat • ped.H)
    fun pub hpub => (h.points pub hpub).2
  obtain ⟨mg, ch, hgen, hver⟩ := (h.excessColumns a).signable.accepted message alphas draws
  refine ⟨_, mg, ch, genC_eq a amount, ?_, ?_⟩
  · simp only [proveRctMGSimple, guard, if_pos hone, hmatrix]
    exact hgen
  · rw [verRctMGSimple, if_pos hone, hmatrix]
    exact hver

end One

/-! ### All inputs -/

def commitKey (ped : Pedersen c) (x : CtKey × UInt64) : Key :=
  c.toBytes (c.mulBase x.1.mask + x.2.toNat • ped.H)

/-- A matrix whose column has the keys of the inputs, the commitments of which open to the amounts,
like those of the outputs. Several signers share the secret key of a single input. -/
structure FullInputs (ped : Pedersen c) (n : ℕ) (cosigners : List Cosigner)
    (pubs : List (List CtKey)) (inSk outSk outPk : List CtKey) (inamounts outamounts : List UInt64)
    (kLRki : Option MultisigKLRki) (index : ℕ) (column : List CtKey) : Prop where
  cols : 2 ≤ pubs.length
  rows : 1 ≤ inputsOf pubs
  rectangular : ∀ col ∈ pubs, col.length = inputsOf pubs
  inSk_length : inSk.length = inputsOf pubs
  outSk_length : outSk.length = outPk.length
  points : ∀ col ∈ pubs, ∀ pub ∈ col, (c.fromBytes pub.dest).isSome ∧ (c.fromBytes pub.mask).isSome
  hashes : ∀ col ∈ pubs, ∀ pub ∈ col, c.toBytes (c.hashToEc pub.dest) ≠ Curve.infinity
  present : pubs[index]? = some column
  keys : ∀ j < inputsOf pubs, (column.map (·.dest))[j]? =
    some (c.toBytes (c.mulBase (rowSecret c cosigners (inSk.map (·.dest)) j)))
  inMasks : column.map (·.mask) = (inSk.zip inamounts).map (commitKey ped)
  inamounts_length : inamounts.length = inSk.length
  outMasks : outPk.map (·.mask) = (outSk.zip outamounts).map (commitKey ped)
  outamounts_length : outamounts.length = outSk.length
  nonces : c.NoncesComposed n cosigners kLRki ((column.map (·.dest)).getD 0 Curve.scZero)
  image : ∀ x ∈ kLRki, x.ki = c.generateKeyImage ((column.map (·.dest)).getD 0 Curve.scZero)
    (rowSecret c cosigners (inSk.map (·.dest)) 0)
  single : kLRki.isSome = true → inputsOf pubs = 1

def total (amounts : List UInt64) : ℕ := (amounts.map (·.toNat)).sum

section All

variable {ped : Pedersen c} {pubs : List (List CtKey)} {inSk outSk outPk column : List CtKey}
  {inamounts outamounts : List UInt64}

theorem foldlM_subKeys {ι : Type} {K : ι → Key} {P : ι → c.Point} {l : List ι}
    (h : ∀ i ∈ l, c.fromBytes (K i) = some (P i)) (Q : c.Point) :
    l.foldlM (fun C i => subKeys c C (K i)) (c.toBytes Q) =
      some (c.toBytes (Q - (l.map P).sum)) := by
  induction l generalizing Q with
  | nil => rw [List.map_nil, List.sum_nil, sub_zero]; rfl
  | cons i l ih =>
      rw [List.foldlM_cons, subKeys_eq (c.fromBytes_toBytes Q) (h i List.mem_cons_self),
        List.map_cons, List.sum_cons, ← sub_sub]
      exact ih (fun j hj => h j (List.mem_cons_of_mem _ hj)) (Q - P i)

def excessPoint (c : Curve) (masks outMasks : List Key) (fee : c.Point) : c.Point :=
  (masks.map (pointOf c)).sum - (outMasks.map (pointOf c)).sum - fee

theorem excessKey_eq {masks outMasks : List Key} {fee : c.Point}
    (hmasks : ∀ key ∈ masks, (c.fromBytes key).isSome)
    (hout : ∀ key ∈ outMasks, (c.fromBytes key).isSome) :
    excessKey c masks outMasks (c.toBytes fee) =
      some (c.toBytes (excessPoint c masks outMasks fee)) := by
  have hinfinity : Curve.infinity = c.toBytes 0 := c.toBytes_zero.symm
  have hin := foldlM_addKeys (fun key hkey => fromBytes_eq_pointOf (hmasks key hkey)) 0
  have hsub := foldlM_subKeys (fun key hkey => fromBytes_eq_pointOf (hout key hkey))
    (0 + (masks.map (pointOf c)).sum)
  rw [zero_add] at hin hsub
  rw [excessKey, hinfinity, hin, Option.bind_eq_bind, Option.bind_some, hsub, Option.bind_some,
    subKeys_eq (c.fromBytes_toBytes _) (c.fromBytes_toBytes fee), excessPoint]

theorem pointOf_commitKey (x : CtKey × UInt64) :
    pointOf c (commitKey ped x) = c.mulBase x.1.mask + x.2.toNat • ped.H := by
  rw [pointOf, commitKey, c.fromBytes_toBytes, Option.getD_some]

theorem isSome_fromBytes_commitKey (x : CtKey × UInt64) :
    (c.fromBytes (commitKey ped x)).isSome = true := by
  rw [commitKey, c.fromBytes_toBytes]
  rfl

theorem mulBase_foldl_scSub (l : List CtKey) (sk : Key) :
    c.mulBase (l.foldl (fun sk outSk => c.scSub sk outSk.mask) sk) =
      c.mulBase sk - (l.map fun x => c.mulBase x.mask).sum := by
  induction l generalizing sk with
  | nil => rw [List.map_nil, List.sum_nil, sub_zero, List.foldl_nil]
  | cons x l ih =>
      have hstep : c.mulBase (c.scSub sk x.mask) = c.mulBase sk - c.mulBase x.mask :=
        Curve.regular_base.mul_scSub
      rw [List.foldl_cons, ih, hstep, List.map_cons, List.sum_cons, sub_sub]

theorem sum_commitKey {sks : List CtKey} {amounts : List UInt64}
    (h : amounts.length = sks.length) :
    (((sks.zip amounts).map (commitKey ped)).map (pointOf c)).sum =
      (sks.map fun x => c.mulBase x.mask).sum + total amounts • ped.H := by
  have hfst : (sks.zip amounts).map (fun x => c.mulBase x.1.mask) =
      sks.map fun x => c.mulBase x.mask := by
    calc (sks.zip amounts).map (fun x => c.mulBase x.1.mask)
        = ((sks.zip amounts).map Prod.fst).map fun x => c.mulBase x.mask := by
          rw [List.map_map]
          rfl
      _ = sks.map fun x => c.mulBase x.mask := by rw [List.map_fst_zip h.ge]
  have hsnd : (sks.zip amounts).map (fun x => x.2.toNat) = amounts.map (·.toNat) := by
    calc (sks.zip amounts).map (fun x => x.2.toNat)
        = ((sks.zip amounts).map Prod.snd).map (·.toNat) := by
          rw [List.map_map]
          rfl
      _ = amounts.map (·.toNat) := by rw [List.map_snd_zip h.le]
  rw [List.map_map, ← hfst, total, ← hsnd, ← sum_commitments]
  exact congrArg List.sum (List.map_congr_left fun x _ => pointOf_commitKey x)

theorem fullMatrix_eq {outPk : List CtKey} {fee : c.Point}
    (h : ∀ col ∈ pubs, ∀ pub ∈ col, (c.fromBytes pub.mask).isSome)
    (hout : ∀ key ∈ outPk.map (·.mask), (c.fromBytes key).isSome) :
    fullMatrix c pubs outPk (c.toBytes fee) = some ((pubs.map fun col => (col.map (·.dest),
      c.toBytes (excessPoint c (col.map (·.mask)) (outPk.map (·.mask)) fee))).map
        fun col => col.1 ++ [col.2]) := by
  rw [List.map_map]
  refine mapM_eq_map fun col hcol => ?_
  have hmasks : ∀ key ∈ col.map (·.mask), (c.fromBytes key).isSome := by
    intro key hkey
    obtain ⟨pub, hpub, rfl⟩ := List.mem_map.mp hkey
    exact h col hcol pub hpub
  rw [excessKey_eq hmasks hout]
  rfl

def excessSecret (c : Curve) (inSk outSk : List CtKey) : Key :=
  outSk.foldl (fun sk outSk => c.scSub sk outSk.mask)
    (inSk.foldl (fun sk inSk => c.scAdd sk inSk.mask) Curve.scZero)

/-- Where the amounts balance nothing of the second generator is left. -/
theorem FullInputs.excessPoint_eq {fee : ℕ}
    (h : FullInputs ped n cosigners pubs inSk outSk outPk inamounts outamounts kLRki index column)
    (hbalance : total inamounts = total outamounts + fee) :
    excessPoint c (column.map (·.mask)) (outPk.map (·.mask)) (fee • ped.H) =
      c.mulBase (excessSecret c inSk outSk) := by
  rw [excessPoint, h.inMasks, h.outMasks, sum_commitKey h.inamounts_length,
    sum_commitKey h.outamounts_length, hbalance, add_smul, excessSecret, mulBase_foldl_scSub,
    mulBase_foldl_scAdd, mulBase_scZero]
  abel

theorem FullInputs.excessColumns {fee : ℕ}
    (h : FullInputs ped n cosigners pubs inSk outSk outPk inamounts outamounts kLRki index column)
    (hbalance : total inamounts = total outamounts + fee) :
    ExcessColumns c n cosigners (pubs.map fun col => (col.map (·.dest), c.toBytes
        (excessPoint c (col.map (·.mask)) (outPk.map (·.mask)) (fee • ped.H))))
      (inSk.map (·.dest)) (excessSecret c inSk outSk) kLRki index (inputsOf pubs)
      (column.map (·.dest)) where
  cols_le := by
    rw [List.length_map]
    exact h.cols
  rows_le := h.rows
  lengths := by
    intro col hcol
    obtain ⟨pubs, hpubs, rfl⟩ := List.mem_map.mp hcol
    rw [List.length_map]
    exact h.rectangular _ hpubs
  secrets_length := by
    rw [List.length_map]
    exact h.inSk_length
  points := by
    intro col hcol key hkey
    obtain ⟨pubs, hpubs, rfl⟩ := List.mem_map.mp hcol
    obtain ⟨pub, hpub, rfl⟩ := List.mem_map.mp hkey
    exact (h.points _ hpubs pub hpub).1
  excess_points := by
    intro col hcol
    obtain ⟨pubs, -, rfl⟩ := List.mem_map.mp hcol
    rw [c.fromBytes_toBytes]
    rfl
  hashes := by
    intro col hcol key hkey
    obtain ⟨pubs, hpubs, rfl⟩ := List.mem_map.mp hcol
    obtain ⟨pub, hpub, rfl⟩ := List.mem_map.mp hkey
    exact h.hashes _ hpubs pub hpub
  present := by
    rw [List.getElem?_map, h.present, Option.map_some, h.excessPoint_eq hbalance]
  keys := h.keys
  nonces := h.nonces
  image := h.image
  single := h.single

/-- The signature of all inputs of a transaction whose amounts balance is accepted, alone or with
the shares of the other signers. -/
theorem proveRctMG_accepted {fee : UInt64}
    (h : FullInputs ped n cosigners pubs inSk outSk outPk inamounts outamounts kLRki index column)
    (hbalance : total inamounts = total outamounts + fee.toNat) (message : Key)
    (alphas : ℕ → Pod 32) (draws : ℕ → ℕ → Pod 32) :
    ∃ mg ch, proveRctMG c message pubs inSk outSk outPk kLRki index (scalarmultH ped (d2h fee))
        alphas draws = some (mg, ch) ∧
      verRctMG c (cosignMg c n index ch mg cosigners) pubs outPk (scalarmultH ped (d2h fee))
        message = true := by
  have hshape : 1 ≤ pubs.length ∧ 1 ≤ inputsOf pubs ∧ ∀ col ∈ pubs, col.length = inputsOf pubs :=
    ⟨Nat.le_of_succ_le h.cols, h.rows, h.rectangular⟩
  have hguard : 1 ≤ pubs.length ∧ 1 ≤ inputsOf pubs ∧
      (∀ col ∈ pubs, col.length = inputsOf pubs) ∧ inSk.length = inputsOf pubs ∧
        outSk.length = outPk.length :=
    ⟨hshape.1, h.rows, h.rectangular, h.inSk_length, h.outSk_length⟩
  have hout : ∀ key ∈ outPk.map (·.mask), (c.fromBytes key).isSome := by
    intro key hkey
    rw [h.outMasks] at hkey
    obtain ⟨x, -, rfl⟩ := List.mem_map.mp hkey
    exact isSome_fromBytes_commitKey x
  have hmatrix : fullMatrix c pubs outPk (c.toBytes (fee.toNat • ped.H)) = some _ :=
    fullMatrix_eq (fun col hcol pub hpub => (h.points col hcol pub hpub).2) hout
  obtain ⟨mg, ch, hgen, hver⟩ :=
    (h.excessColumns hbalance).signable.accepted message alphas draws
  refine ⟨mg, ch, ?_, ?_⟩
  · simp only [proveRctMG, guard, if_pos hguard, scalarmultH_d2h, hmatrix]
    exact hgen
  · rw [verRctMG, if_pos hshape, scalarmultH_d2h, hmatrix]
    exact hver

end All

/-! ### Small transactions -/

def smallPedersen : Pedersen smallCurve := .ofPoint (smallCurve.hashToEc (smallKey 1))
  (Curve.regular_hashToEc _)

def smallInSk : CtKey := ⟨smallCurve.reduce 3, smallCurve.reduce 6⟩

def smallPubs : List CtKey :=
  [⟨smallKey 9, smallKey 7⟩, ⟨smallKey 5, commitKey smallPedersen (smallInSk, 4)⟩]

theorem smallPubs_simpleInput :
    SimpleInput smallPedersen 0 [smallCosigner] smallPubs smallInSk 4 (some smallKLRki) 1 := by
  have hdest : smallCurve.toBytes (smallCurve.mulBase
      (smallCurve.totalSecret smallInSk.dest [smallCosigner])) = smallKey 5 := by decide +kernel
  refine ⟨by decide, ?_, ?_, ?_, ?_, ?_⟩
  · intro pub hpub
    obtain rfl | rfl := List.mem_pair.mp hpub
    · exact ⟨isSome_fromBytes_smallKey 9, isSome_fromBytes_smallKey 7⟩
    · exact ⟨isSome_fromBytes_smallKey 5, isSome_fromBytes_commitKey _⟩
  · intro pub hpub
    obtain rfl | rfl := List.mem_pair.mp hpub
    · decide +kernel
    · decide +kernel
  · rw [hdest]
    rfl
  · rw [hdest]
    exact Curve.noncesComposed_total
  · intro x hx
    obtain rfl := Option.some.inj hx
    rw [hdest]
    decide +kernel

theorem proveRctMGSimple_accepted_shared :
    ∃ Cout mg ch, genC smallPedersen (smallCurve.reduce 2) 4 = some Cout ∧
      proveRctMGSimple smallCurve (smallKey 8) smallPubs smallInSk (smallCurve.reduce 2) Cout
        (some smallKLRki) 1 (fun j => smallKey j) (fun i j => smallKey (3 * i + j)) =
          some (mg, ch) ∧
      verRctMGSimple smallCurve (smallKey 8) (cosignMg smallCurve 0 1 ch mg [smallCosigner])
        smallPubs Cout = true :=
  proveRctMGSimple_accepted smallPubs_simpleInput _ _ _ _

def smallColumns : List (List CtKey) :=
  [[⟨smallKey 5, commitKey smallPedersen (⟨smallCurve.reduce 5, smallCurve.reduce 6⟩, 6)⟩,
      ⟨smallKey 4, commitKey smallPedersen (⟨smallCurve.reduce 4, smallCurve.reduce 2⟩, 5)⟩],
    [⟨smallKey 9, smallKey 7⟩, ⟨smallKey 7, smallKey 3⟩]]

def smallOutputs : List CtKey :=
  [⟨smallKey 2, commitKey smallPedersen (⟨smallKey 2, smallCurve.reduce 7⟩, 8)⟩]

/-- Two inputs, of six and five, an output of eight and a fee of three. -/
theorem smallColumns_fullInputs : FullInputs smallPedersen 0 [] smallColumns
    [⟨smallCurve.reduce 5, smallCurve.reduce 6⟩, ⟨smallCurve.reduce 4, smallCurve.reduce 2⟩]
    [⟨smallKey 2, smallCurve.reduce 7⟩] smallOutputs [6, 5] [8] none 0
    (smallColumns.headD []) where
  cols := by decide
  rows := by decide
  rectangular := by
    intro col hcol
    obtain rfl | rfl := List.mem_pair.mp hcol
    · rfl
    · rfl
  inSk_length := rfl
  outSk_length := rfl
  points := by
    intro col hcol pub hpub
    obtain rfl | rfl := List.mem_pair.mp hcol
    · obtain rfl | rfl := List.mem_pair.mp hpub
      · exact ⟨isSome_fromBytes_smallKey 5, isSome_fromBytes_commitKey _⟩
      · exact ⟨isSome_fromBytes_smallKey 4, isSome_fromBytes_commitKey _⟩
    · obtain rfl | rfl := List.mem_pair.mp hpub
      · exact ⟨isSome_fromBytes_smallKey 9, isSome_fromBytes_smallKey 7⟩
      · exact ⟨isSome_fromBytes_smallKey 7, isSome_fromBytes_smallKey 3⟩
  hashes := by
    intro col hcol pub hpub
    obtain rfl | rfl := List.mem_pair.mp hcol
    · obtain rfl | rfl := List.mem_pair.mp hpub
      · decide +kernel
      · decide +kernel
    · obtain rfl | rfl := List.mem_pair.mp hpub
      · decide +kernel
      · decide +kernel
  present := rfl
  keys := by
    intro j hj
    obtain rfl | rfl : j = 0 ∨ j = 1 := by
      have hrows : inputsOf smallColumns = 2 := rfl
      omega
    · decide +kernel
    · decide +kernel
  inMasks := rfl
  inamounts_length := rfl
  outMasks := rfl
  outamounts_length := rfl
  nonces := rfl
  image := fun x hx => absurd hx (Option.not_mem_none x)
  single := fun h => absurd h Bool.false_ne_true

theorem proveRctMG_accepted_two :
    ∃ mg ch, proveRctMG smallCurve (smallKey 8) smallColumns
        [⟨smallCurve.reduce 5, smallCurve.reduce 6⟩, ⟨smallCurve.reduce 4, smallCurve.reduce 2⟩]
        [⟨smallKey 2, smallCurve.reduce 7⟩] smallOutputs none 0
        (scalarmultH smallPedersen (d2h 3)) (fun j => smallKey j)
        (fun i j => smallKey (3 * i + j)) = some (mg, ch) ∧
      verRctMG smallCurve (cosignMg smallCurve 0 0 ch mg []) smallColumns smallOutputs
        (scalarmultH smallPedersen (d2h 3)) (smallKey 8) = true :=
  proveRctMG_accepted smallColumns_fullInputs (by decide) _ _ _

end XrCoin.Ringct

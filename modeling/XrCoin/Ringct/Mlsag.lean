import XrCoin.Crypto.Cosigning
import XrCoin.Data.Challenges

/-!
The ring signatures of `rctSigs.cpp`, whose members are columns of keys, by one signer or by
several.

The challenges go round the columns and back to the one of the signer, who has the secret keys of
all its rows. Only the first rows have key images; an image that is no point and a key that is no
point throw, which every caller takes for a failed check.
-/

namespace XrCoin.Ringct

open Archive Cryptonote Wallet Crypto Data

structure MgSig where
  ss : List (List Key)
  cc : Key
  II : List Key
  deriving DecidableEq

variable (c : Curve)

/-! ### Columns -/

/-- What a row adds to the hash of its column. The checker alone asks whether the key hashes to the
point at infinity. -/
def rowKeys (strict : Bool) (image : Option c.Point) (ch pk s : Key) : Option (List Key) := do
  let P ← c.fromBytes pk
  let L := c.toBytes (c.mul ch P + c.mulBase s)
  match image with
  | none => return [pk, L]
  | some I =>
      if strict = true ∧ c.toBytes (c.hashToEc pk) = Curve.infinity then none
      else return [pk, L, c.toBytes (c.mul s (c.hashToEc pk) + c.mul ch I)]

def columnKeys (strict : Bool) (images : List c.Point) (ch : Key) (col : List Key × List Key) :
    Option (List Key) :=
  (col.1.zipIdx.mapM fun p =>
    rowKeys c strict images[p.2]? ch p.1 (col.2.getD p.2 Curve.scZero)).map List.flatten

def mlsagHash (message : Key) (keys : List Key) : Key :=
  c.hashToScalar (message.val ++ (keys.map (·.val)).flatten)

/-! ### The signature -/

def mlsagAlpha (kLRki : Option MultisigKLRki) (dsRows : ℕ) (draws : ℕ → Pod 32) (j : ℕ) : Key :=
  match kLRki with
  | some kLRki => if j < dsRows then kLRki.k else c.randomScalar (draws j)
  | none => c.randomScalar (draws j)

def ownRow (kLRki : Option MultisigKLRki) (dsRows : ℕ) (alpha : Key) (j : ℕ) (pk : Key) :
    List Key :=
  if j < dsRows then
    match kLRki with
    | some kLRki => [pk, kLRki.l, kLRki.r]
    | none => [pk, c.toBytes (c.mulBase alpha), c.toBytes (c.mul alpha (c.hashToEc pk))]
  else [pk, c.toBytes (c.mulBase alpha)]

def keyImages (kLRki : Option MultisigKLRki) (dsRows : ℕ) (column xx : List Key) : List Key :=
  (List.range dsRows).map fun j =>
    match kLRki with
    | some kLRki => kLRki.ki
    | none => c.generateKeyImage (column.getD j Curve.scZero) (xx.getD j Curve.scZero)

def rowsOf (pk : List (List Key)) : ℕ := (pk.headD []).length

def drawnColumns (pk : List (List Key)) (draws : ℕ → ℕ → Pod 32) : List (List Key × List Key) :=
  pk.mapIdx fun i col => (col, (List.range (rowsOf pk)).map fun j => c.randomScalar (draws i j))

def mlsagSign (ch : Key) (xx : List Key) (alpha : ℕ → Key) (rows : ℕ) : List Key :=
  (List.range rows).map fun j => c.scMulsub ch (xx.getD j Curve.scZero) (alpha j)

/-- The signature, and the challenge that `mscout` gets. What is wrong with the arguments throws. -/
def mlsagGen (message : Key) (pk : List (List Key)) (xx : List Key)
    (kLRki : Option MultisigKLRki) (index dsRows : ℕ) (alphas : ℕ → Pod 32)
    (draws : ℕ → ℕ → Pod 32) : Option (MgSig × Key) := do
  guard (2 ≤ pk.length ∧ 1 ≤ rowsOf pk ∧ (∀ col ∈ pk, col.length = rowsOf pk) ∧
    xx.length = rowsOf pk ∧ dsRows ≤ rowsOf pk ∧ (kLRki.isSome = true → dsRows = 1))
  let column ← pk[index]?
  let alpha := mlsagAlpha c kLRki dsRows alphas
  let II := keyImages c kLRki dsRows column xx
  let images ← II.mapM c.fromBytes
  let own := (column.zipIdx.map fun p => ownRow c kLRki dsRows (alpha p.2) p.2 p.1).flatten
  let cc ← links (columnKeys c false images) (fun _ => mlsagHash c message) (index + 1)
    (mlsagHash c message own) ((drawnColumns c pk draws).drop (index + 1))
  let ch ← links (columnKeys c false images) (fun _ => mlsagHash c message) 0 cc
    ((drawnColumns c pk draws).take index)
  let ss := mlsagSign c ch xx alpha (rowsOf pk)
  return (⟨((drawnColumns c pk draws).map (·.2)).set index ss, cc, II⟩, ch)

/-! ### The check -/

def MlsagShaped (pk : List (List Key)) (rv : MgSig) (dsRows : ℕ) : Prop :=
  2 ≤ pk.length ∧ 1 ≤ rowsOf pk ∧ (∀ col ∈ pk, col.length = rowsOf pk) ∧
    rv.II.length = dsRows ∧ rv.ss.length = pk.length ∧ (∀ s ∈ rv.ss, s.length = rowsOf pk) ∧
    dsRows ≤ rowsOf pk ∧ (∀ s ∈ rv.ss, ∀ x ∈ s, c.scCheck x = true) ∧ c.scCheck rv.cc = true

instance (pk : List (List Key)) (rv : MgSig) (dsRows : ℕ) :
    Decidable (MlsagShaped c pk rv dsRows) :=
  inferInstanceAs (Decidable (_ ∧ _ ∧ (∀ col ∈ pk, col.length = rowsOf pk) ∧ _ ∧ _ ∧
    (∀ s ∈ rv.ss, s.length = rowsOf pk) ∧ _ ∧ (∀ s ∈ rv.ss, ∀ x ∈ s, c.scCheck x = true) ∧ _))

def mlsagVer (message : Key) (pk : List (List Key)) (rv : MgSig) (dsRows : ℕ) : Bool :=
  if MlsagShaped c pk rv dsRows then
    match rv.II.mapM c.fromBytes with
    | none => false
    | some images =>
        match links (columnKeys c true images) (fun _ => mlsagHash c message) 0 rv.cc
            (pk.zip rv.ss) with
        | none => false
        | some ch => !Curve.scIsNonzero (c.scSub ch rv.cc)
  else false

/-! ### The other signers -/

/-- What `rct::signMultisig` does to one ring signature. -/
def addShareMg (idx : ℕ) (ch secretKey k : Key) (mg : MgSig) : MgSig :=
  { mg with ss := mg.ss.set idx (c.addShare ch secretKey k 0 (mg.ss.getD idx [])) }

/-- All other signers, with their nonces for the `n`-th signature of the transaction. -/
def cosignMg (n idx : ℕ) (ch : Key) (mg : MgSig) (cosigners : List Cosigner) : MgSig :=
  cosigners.foldl
    (fun mg s => addShareMg c idx ch s.secretKey (s.k.getD n Curve.scZero) mg) mg

variable {c} {pk : List (List Key)} {xx column : List Key} {kLRki : Option MultisigKLRki}
  {index dsRows n : ℕ} {cosigners : List Cosigner} {alphas : ℕ → Pod 32} {ch : Key}

/-! ### The column of the signer -/

/-- The sum of the shares of a secret key. Only the first row is shared. -/
def rowSecret (c : Curve) (cosigners : List Cosigner) (xx : List Key) (j : ℕ) : Key :=
  if j = 0 then c.totalSecret (xx.getD 0 Curve.scZero) cosigners else xx.getD j Curve.scZero

def rowNonce (c : Curve) (n : ℕ) (cosigners : List Cosigner) (alpha : ℕ → Key) (j : ℕ) : Key :=
  if j = 0 then c.totalNonce n (alpha 0) cosigners else alpha j

structure OwnColumn (c : Curve) (n : ℕ) (cosigners : List Cosigner) (xx : List Key)
    (kLRki : Option MultisigKLRki) (dsRows : ℕ) (column : List Key) : Prop where
  key : ∀ j < column.length,
    column[j]? = some (c.toBytes (c.mulBase (rowSecret c cosigners xx j)))
  nonces : c.NoncesComposed n cosigners kLRki (column.getD 0 Curve.scZero)
  image : ∀ x ∈ kLRki, x.ki = c.generateKeyImage (column.getD 0 Curve.scZero)
    (rowSecret c cosigners xx 0)
  single : kLRki.isSome = true → dsRows = 1
  le : dsRows ≤ column.length

/-- A row with the right response gives what the signer hashed for it. -/
theorem rowKeys_own {strict : Bool} {pk : Key} {σ κ ρ : Pod 32} {image : Option c.Point}
    (hpk : pk = c.toBytes (c.mulBase σ))
    (hstrict : strict = true → image.isSome = true → c.toBytes (c.hashToEc pk) ≠ Curve.infinity)
    (himage : ∀ I ∈ image, I = c.mul σ (c.hashToEc pk))
    (hρ : c.residue ρ = c.residue κ - c.residue ch * c.residue σ) :
    rowKeys c strict image ch pk ρ = some (if image.isSome then
      [pk, c.toBytes (c.mulBase κ), c.toBytes (c.mul κ (c.hashToEc pk))]
      else [pk, c.toBytes (c.mulBase κ)]) := by
  have hpoint : c.fromBytes pk = some (c.mulBase σ) := by rw [hpk, c.fromBytes_toBytes]
  have hbase : c.mul ch (c.mulBase σ) + c.mulBase ρ = c.mulBase κ :=
    Curve.mul_add_of_residue Curve.regular_base hρ
  rw [rowKeys, hpoint, Option.bind_eq_bind, Option.bind_some, hbase]
  cases image with
  | none => rfl
  | some I =>
      have hne : ¬(strict = true ∧ c.toBytes (c.hashToEc pk) = Curve.infinity) :=
        fun h => hstrict h.1 rfl h.2
      simp only [if_neg hne, himage I rfl, add_comm (c.mul ρ (c.hashToEc pk)),
        Curve.mul_add_of_residue (Curve.regular_hashToEc pk) hρ]
      rfl

namespace OwnColumn

theorem cosigners_eq_nil (h : OwnColumn c n cosigners xx none dsRows column) : cosigners = [] :=
  h.nonces

theorem keyImages_eq (h : OwnColumn c n cosigners xx kLRki dsRows column) :
    keyImages c kLRki dsRows column xx = (List.range dsRows).map fun j =>
      c.generateKeyImage (column.getD j Curve.scZero) (rowSecret c cosigners xx j) := by
  refine List.map_congr_left fun j hj => ?_
  cases kLRki with
  | none =>
      have hsecret : rowSecret c cosigners xx j = xx.getD j Curve.scZero := by
        rw [rowSecret, h.cosigners_eq_nil]
        split
        · rename_i hzero
          rw [hzero]
          rfl
        · rfl
      rw [hsecret]
  | some x =>
      have hzero : j = 0 := by
        have hlt := List.mem_range.mp hj
        rw [h.single rfl] at hlt
        omega
      rw [hzero]
      exact h.image x rfl

theorem mapM_keyImages (h : OwnColumn c n cosigners xx kLRki dsRows column) :
    (keyImages c kLRki dsRows column xx).mapM c.fromBytes = some ((List.range dsRows).map fun j =>
      c.mul (rowSecret c cosigners xx j) (c.hashToEc (column.getD j Curve.scZero))) := by
  rw [h.keyImages_eq, List.mapM_map]
  exact mapM_eq_map fun j _ => c.fromBytes_toBytes _

/-- What the signer hashes for a row: the points of the sum of the nonces. -/
theorem ownRow_eq (h : OwnColumn c n cosigners xx kLRki dsRows column) {j : ℕ} {pk : Key}
    (hpk : column[j]? = some pk) :
    ownRow c kLRki dsRows (mlsagAlpha c kLRki dsRows alphas j) j pk =
      let κ := rowNonce c n cosigners (mlsagAlpha c kLRki dsRows alphas) j
      if j < dsRows then [pk, c.toBytes (c.mulBase κ), c.toBytes (c.mul κ (c.hashToEc pk))]
      else [pk, c.toBytes (c.mulBase κ)] := by
  cases kLRki with
  | none =>
      have hnonce : rowNonce c n cosigners (mlsagAlpha c none dsRows alphas) j =
          mlsagAlpha c none dsRows alphas j := by
        rw [rowNonce, h.cosigners_eq_nil]
        split
        · rename_i hzero
          rw [hzero]
          rfl
        · rfl
      simp only [ownRow, hnonce]
  | some x =>
      have hone := h.single rfl
      subst hone
      by_cases hj : j < 1
      · have hzero : j = 0 := by omega
        subst hzero
        have hkey : column.getD 0 Curve.scZero = pk := by
          rw [List.getD_eq_getElem?_getD, hpk, Option.getD_some]
        have hpoints := h.nonces.points
        rw [hkey] at hpoints
        simp only [ownRow, if_pos hj, rowNonce, if_true, mlsagAlpha, (Prod.mk.inj hpoints).1,
          (Prod.mk.inj hpoints).2]
      · have hne : j ≠ 0 := by omega
        simp only [ownRow, if_neg hj, rowNonce, if_neg hne]

/-- The column of the signer with the right responses gives what was hashed first, whatever the
challenge. -/
theorem columnKeys_own (h : OwnColumn c n cosigners xx kLRki dsRows column) {strict : Bool}
    {response : List Key}
    (hstrict : ∀ j < dsRows,
      c.toBytes (c.hashToEc (column.getD j Curve.scZero)) ≠ Curve.infinity)
    (hresponse : ∀ j < column.length, c.residue (response.getD j Curve.scZero) =
      c.residue (rowNonce c n cosigners (mlsagAlpha c kLRki dsRows alphas) j) -
        c.residue ch * c.residue (rowSecret c cosigners xx j)) :
    columnKeys c strict ((List.range dsRows).map fun j =>
        c.mul (rowSecret c cosigners xx j) (c.hashToEc (column.getD j Curve.scZero))) ch
        (column, response) =
      some (column.zipIdx.map fun p =>
        ownRow c kLRki dsRows (mlsagAlpha c kLRki dsRows alphas p.2) p.2 p.1).flatten := by
  refine congrArg (Option.map List.flatten) (mapM_eq_map fun p hp => ?_)
  obtain ⟨pk, j⟩ := p
  have hpk : column[j]? = some pk := List.mem_zipIdx_iff_getElem?.mp hp
  have hlt : j < column.length := (List.getElem?_eq_some_iff.mp hpk).1
  have hkey : column.getD j Curve.scZero = pk := by
    rw [List.getD_eq_getElem?_getD, hpk, Option.getD_some]
  have hpub : pk = c.toBytes (c.mulBase (rowSecret c cosigners xx j)) :=
    Option.some.inj (hpk.symm.trans (h.key j hlt))
  rw [h.ownRow_eq hpk]
  dsimp only
  rw [List.getElem?_map]
  by_cases hj : j < dsRows
  · rw [if_pos hj, List.getElem?_range hj, Option.map_some, hkey]
    refine rowKeys_own hpub (fun _ _ => hkey ▸ hstrict j hj) (fun I hI => ?_) (hresponse j hlt)
    exact (Option.some.inj hI).symm
  · have hnone : (List.range dsRows)[j]? = none := by
      rw [List.getElem?_eq_none]
      rwa [List.length_range, ← not_lt]
    rw [if_neg hj, hnone, Option.map_none]
    exact rowKeys_own hpub (fun _ hnone => absurd hnone Bool.false_ne_true)
      (fun I hI => absurd hI (Option.not_mem_none I)) (hresponse j hlt)

end OwnColumn

/-! ### The other columns -/

theorem rowKeys_isSome {image : Option c.Point} {pk s : Key} (h : (c.fromBytes pk).isSome) :
    (rowKeys c false image ch pk s).isSome := by
  obtain ⟨P, hP⟩ := Option.isSome_iff_exists.mp h
  rw [rowKeys, hP]
  cases image <;> rfl

theorem columnKeys_isSome {images : List c.Point} {col : List Key × List Key}
    (h : ∀ key ∈ col.1, (c.fromBytes key).isSome) : (columnKeys c false images ch col).isSome := by
  rw [columnKeys, Option.isSome_map]
  exact mapM_isSome fun p hp => rowKeys_isSome (h _ (List.fst_mem_of_mem_zipIdx hp))

/-- The checker hashes what the signer hashed, unless a key is hashed to the point at infinity. -/
theorem columnKeys_strict {images : List c.Point} {col : List Key × List Key}
    (h : ∀ j < images.length,
      c.toBytes (c.hashToEc (col.1.getD j Curve.scZero)) ≠ Curve.infinity) :
    columnKeys c false images ch col = columnKeys c true images ch col := by
  refine congrArg (Option.map List.flatten) (mapM_congr_left fun p hp => ?_)
  have hkey : col.1.getD p.2 Curve.scZero = p.1 := by
    rw [List.getD_eq_getElem?_getD, List.mem_zipIdx_iff_getElem?.mp hp, Option.getD_some]
  rw [rowKeys, rowKeys]
  cases himage : images[p.2]? with
  | none => rfl
  | some I =>
      have hne := hkey ▸ h p.2 (List.getElem?_eq_some_iff.mp himage).1
      simp only [hne, and_false, if_false]

section Closing

variable {message : Key} {draws : ℕ → ℕ → Pod 32}

theorem drawnColumns_fst : (drawnColumns c pk draws).map Prod.fst = pk := by
  refine List.ext_getElem? fun i => ?_
  rw [List.getElem?_map, drawnColumns, List.getElem?_mapIdx, Option.map_map]
  cases pk[i]? <;> rfl

theorem mem_drawnColumns {col : List Key × List Key} (h : col ∈ drawnColumns c pk draws) :
    col.1 ∈ pk ∧ col.2.length = rowsOf pk ∧ ∀ s ∈ col.2, c.scCheck s = true := by
  obtain ⟨i, hi, rfl⟩ := List.mem_mapIdx.mp h
  refine ⟨List.getElem_mem hi, ?_, fun s hs => ?_⟩
  · rw [List.length_map, List.length_range]
  · obtain ⟨j, -, rfl⟩ := List.mem_map.mp hs
    exact Curve.scCheck_randomScalar _

structure Signable (c : Curve) (n : ℕ) (cosigners : List Cosigner) (pk : List (List Key))
    (xx : List Key) (kLRki : Option MultisigKLRki) (index dsRows : ℕ) (column : List Key) :
    Prop where
  cols : 2 ≤ pk.length
  rows : 1 ≤ rowsOf pk
  rectangular : ∀ col ∈ pk, col.length = rowsOf pk
  secrets : xx.length = rowsOf pk
  points : ∀ col ∈ pk, ∀ key ∈ col, (c.fromBytes key).isSome
  hashes : ∀ col ∈ pk, ∀ j < dsRows,
    c.toBytes (c.hashToEc (col.getD j Curve.scZero)) ≠ Curve.infinity
  present : pk[index]? = some column
  own : OwnColumn c n cosigners xx kLRki dsRows column

namespace Signable

theorem length_column (h : Signable c n cosigners pk xx kLRki index dsRows column) :
    column.length = rowsOf pk := h.rectangular _ (List.mem_of_getElem? h.present)

/-- What the signer leaves: the images, and the chain from its column round to it. -/
theorem mlsagGen_eq (h : Signable c n cosigners pk xx kLRki index dsRows column)
    (message : Key) (alphas : ℕ → Pod 32) (draws : ℕ → ℕ → Pod 32) :
    ∃ images cc ch, images = (List.range dsRows).map (fun j =>
        c.mul (rowSecret c cosigners xx j) (c.hashToEc (column.getD j Curve.scZero))) ∧
      links (columnKeys c false images) (fun _ => mlsagHash c message) (index + 1)
        (mlsagHash c message (column.zipIdx.map fun p =>
          ownRow c kLRki dsRows (mlsagAlpha c kLRki dsRows alphas p.2) p.2 p.1).flatten)
        ((drawnColumns c pk draws).drop (index + 1)) = some cc ∧
      links (columnKeys c false images) (fun _ => mlsagHash c message) 0 cc
        ((drawnColumns c pk draws).take index) = some ch ∧
      mlsagGen c message pk xx kLRki index dsRows alphas draws =
        some (⟨((drawnColumns c pk draws).map (·.2)).set index
          (mlsagSign c ch xx (mlsagAlpha c kLRki dsRows alphas) (rowsOf pk)), cc,
          keyImages c kLRki dsRows column xx⟩, ch) := by
  obtain ⟨images, himages⟩ : ∃ images, images = (List.range dsRows).map fun j =>
      c.mul (rowSecret c cosigners xx j) (c.hashToEc (column.getD j Curve.scZero)) := ⟨_, rfl⟩
  have hsome : ∀ cols : List (List Key × List Key), (∀ col ∈ cols, col ∈ drawnColumns c pk draws) →
      ∀ ch, ∀ col ∈ cols, (columnKeys c false images ch col).isSome := fun cols hcols ch col hcol =>
    columnKeys_isSome (h.points _ (mem_drawnColumns (hcols col hcol)).1)
  have hafter : (links (columnKeys c false images) (fun _ => mlsagHash c message) (index + 1)
      (mlsagHash c message (column.zipIdx.map fun p =>
        ownRow c kLRki dsRows (mlsagAlpha c kLRki dsRows alphas p.2) p.2 p.1).flatten)
      ((drawnColumns c pk draws).drop (index + 1))).isSome :=
    links_isSome (hsome _ fun _ => List.mem_of_mem_drop)
  obtain ⟨cc, hcc⟩ := Option.isSome_iff_exists.mp hafter
  have hbefore : (links (columnKeys c false images) (fun _ => mlsagHash c message) 0 cc
      ((drawnColumns c pk draws).take index)).isSome :=
    links_isSome (hsome _ fun _ => List.mem_of_mem_take)
  obtain ⟨ch, hch⟩ := Option.isSome_iff_exists.mp hbefore
  refine ⟨images, cc, ch, himages, hcc, hch, ?_⟩
  have hguard : 2 ≤ pk.length ∧ 1 ≤ rowsOf pk ∧ (∀ col ∈ pk, col.length = rowsOf pk) ∧
      xx.length = rowsOf pk ∧ dsRows ≤ rowsOf pk ∧ (kLRki.isSome = true → dsRows = 1) :=
    ⟨h.cols, h.rows, h.rectangular, h.secrets, h.length_column ▸ h.own.le, h.own.single⟩
  have hmap := h.own.mapM_keyImages
  rw [← himages] at hmap
  simp only [mlsagGen, guard, if_pos hguard, h.present, Option.pure_def, Option.bind_eq_bind,
    Option.bind_some, hmap, hcc, hch]

end Signable

/-- The other signers only change the response of the first row in the column of the signer. -/
theorem cosignMg_eq {mg : MgSig} {row base : List Key} {σ κ : Key} (hget : mg.ss[index]? = some row)
    (hrow : c.RowAnswers row base 0 ch σ κ) (hlt : 0 < base.length) :
    ∃ row', cosignMg c n index ch mg cosigners = { mg with ss := mg.ss.set index row' } ∧
      c.RowAnswers row' base 0 ch (c.totalSecret σ cosigners) (c.totalNonce n κ cosigners) := by
  induction cosigners generalizing mg row σ κ with
  | nil =>
      refine ⟨row, ?_, hrow⟩
      obtain ⟨hi, rfl⟩ := List.getElem?_eq_some_iff.mp hget
      rw [cosignMg, List.foldl_nil, List.set_getElem_self]
  | cons s cosigners ih =>
      have hi := (List.getElem?_eq_some_iff.mp hget).1
      have hat : mg.ss.getD index [] = row := by
        rw [List.getD_eq_getElem?_getD, hget, Option.getD_some]
      have hget' : (addShareMg c index ch s.secretKey (s.k.getD n Curve.scZero) mg).ss[index]? =
          some (c.addShare ch s.secretKey (s.k.getD n Curve.scZero) 0 row) := by
        rw [addShareMg, hat]
        exact List.getElem?_set_self hi
      obtain ⟨row', heq, hanswers⟩ := ih hget' (hrow.addShare hlt)
      refine ⟨row', ?_, hanswers⟩
      rw [cosignMg, List.foldl_cons]
      refine heq.trans ?_
      rw [addShareMg, List.set_set]

@[simp] theorem length_mlsagSign (alpha : ℕ → Key) (m : ℕ) :
    (mlsagSign c ch xx alpha m).length = m := by
  rw [mlsagSign, List.length_map, List.length_range]

theorem getElem?_mlsagSign (alpha : ℕ → Key) {j m : ℕ} (hj : j < m) :
    (mlsagSign c ch xx alpha m)[j]? =
      some (c.scMulsub ch (xx.getD j Curve.scZero) (alpha j)) := by
  rw [mlsagSign, List.getElem?_map, List.getElem?_range hj, Option.map_some]

theorem rowAnswers_mlsagSign (alpha : ℕ → Key) {m : ℕ} (hm : 0 < m) :
    c.RowAnswers (mlsagSign c ch xx alpha m) (mlsagSign c ch xx alpha m) 0 ch
      (xx.getD 0 Curve.scZero) (alpha 0) := by
  have hzero : (mlsagSign c ch xx alpha m)[0]? = _ := getElem?_mlsagSign alpha hm
  obtain ⟨hlt, hget⟩ := List.getElem?_eq_some_iff.mp hzero
  refine ⟨c.scMulsub ch (xx.getD 0 Curve.scZero) (alpha 0), ?_, Curve.scCheck_reduce _,
    Curve.residue_scMulsub⟩
  rw [← hget, List.set_getElem_self]

theorem residue_response {row : List Key} {alpha : ℕ → Key} {m : ℕ}
    (hrow : c.RowAnswers row (mlsagSign c ch xx alpha m) 0 ch
      (c.totalSecret (xx.getD 0 Curve.scZero) cosigners) (c.totalNonce n (alpha 0) cosigners))
    {j : ℕ} (hj : j < m) :
    c.residue (row.getD j Curve.scZero) = c.residue (rowNonce c n cosigners alpha j) -
      c.residue ch * c.residue (rowSecret c cosigners xx j) := by
  obtain ⟨ρ, rfl, -, hρ⟩ := hrow
  have hlen : 0 < (mlsagSign c ch xx alpha m).length := by
    rw [length_mlsagSign]
    omega
  rw [List.getD_eq_getElem?_getD, rowNonce, rowSecret]
  by_cases hzero : j = 0
  · rw [hzero, List.getElem?_set_self hlen, if_pos rfl, if_pos rfl]
    exact hρ
  · rw [List.getElem?_set_ne (Ne.symm hzero), getElem?_mlsagSign alpha hj, if_neg hzero,
      if_neg hzero]
    exact Curve.residue_scMulsub

theorem Signable.shaped (h : Signable c n cosigners pk xx kLRki index dsRows column)
    (draws : ℕ → ℕ → Pod 32) {cc : Key} {row : List Key} (hcc : c.scCheck cc = true)
    (hlength : row.length = rowsOf pk) (hrow : ∀ s ∈ row, c.scCheck s = true) :
    MlsagShaped c pk ⟨((drawnColumns c pk draws).map (·.2)).set index row, cc,
      keyImages c kLRki dsRows column xx⟩ dsRows := by
  have hmem : ∀ s ∈ ((drawnColumns c pk draws).map (·.2)).set index row,
      s.length = rowsOf pk ∧ ∀ x ∈ s, c.scCheck x = true := by
    intro s hs
    rcases List.mem_or_eq_of_mem_set hs with hs | rfl
    · obtain ⟨col, hcol, rfl⟩ := List.mem_map.mp hs
      exact (mem_drawnColumns hcol).2
    · exact ⟨hlength, hrow⟩
  refine ⟨h.cols, h.rows, h.rectangular, ?_, ?_, fun s hs => (hmem s hs).1,
    h.length_column ▸ h.own.le, fun s hs => (hmem s hs).2, hcc⟩
  · rw [keyImages, List.length_map, List.length_range]
  · rw [List.length_set, List.length_map, drawnColumns, List.length_mapIdx]

theorem Signable.closes (h : Signable c n cosigners pk xx kLRki index dsRows column)
    {images : List c.Point} {cc : Key} {row : List Key}
    (himages : images = (List.range dsRows).map fun j =>
      c.mul (rowSecret c cosigners xx j) (c.hashToEc (column.getD j Curve.scZero)))
    (hafter : links (columnKeys c false images) (fun _ => mlsagHash c message) (index + 1)
      (mlsagHash c message (column.zipIdx.map fun p =>
        ownRow c kLRki dsRows (mlsagAlpha c kLRki dsRows alphas p.2) p.2 p.1).flatten)
      ((drawnColumns c pk draws).drop (index + 1)) = some cc)
    (hbefore : links (columnKeys c false images) (fun _ => mlsagHash c message) 0 cc
      ((drawnColumns c pk draws).take index) = some ch)
    (hrow : ∀ j < column.length, c.residue (row.getD j Curve.scZero) =
      c.residue (rowNonce c n cosigners (mlsagAlpha c kLRki dsRows alphas) j) -
        c.residue ch * c.residue (rowSecret c cosigners xx j)) :
    links (columnKeys c true images) (fun _ => mlsagHash c message) 0 cc
      (pk.zip (((drawnColumns c pk draws).map (·.2)).set index row)) = some cc := by
  have hindex : index < (drawnColumns c pk draws).length := by
    rw [drawnColumns, List.length_mapIdx]
    exact (List.getElem?_eq_some_iff.mp h.present).1
  have hlength : ((drawnColumns c pk draws).take index).length = index := by
    rw [List.length_take, min_eq_left hindex.le]
  have hstrict : ∀ cols : List (List Key × List Key),
      (∀ col ∈ cols, col ∈ drawnColumns c pk draws) → ∀ ch, ∀ col ∈ cols,
        columnKeys c false images ch col = columnKeys c true images ch col := by
    intro cols hcols ch col hcol
    refine columnKeys_strict fun j hj => ?_
    rw [himages, List.length_map, List.length_range] at hj
    exact h.hashes _ (mem_drawnColumns (hcols col hcol)).1 j hj
  rw [links_congr (hstrict _ fun _ => List.mem_of_mem_drop)] at hafter
  rw [links_congr (hstrict _ fun _ => List.mem_of_mem_take)] at hbefore
  have hcommit : columnKeys c true _ ch (column, row) = _ :=
    h.own.columnKeys_own (h.hashes _ (List.mem_of_getElem? h.present)) hrow
  rw [← himages] at hcommit
  have hcol : (drawnColumns c pk draws)[index]? = some (column,
      (List.range (rowsOf pk)).map fun j => c.randomScalar (draws index j)) := by
    rw [drawnColumns, List.getElem?_mapIdx, h.present, Option.map_some]
  have hzip : pk.zip (((drawnColumns c pk draws).map (·.2)).set index row) =
      (drawnColumns c pk draws).take index ++
        (column, row) :: (drawnColumns c pk draws).drop (index + 1) := by
    refine Eq.trans ?_ (zip_set hcol)
    rw [drawnColumns_fst]
  rw [hzip]
  refine links_closed ?_ hbefore hcommit
  rw [hlength]
  exact hafter

theorem scCheck_mlsagHash (keys : List Key) : c.scCheck (mlsagHash c message keys) = true :=
  Curve.scCheck_reduce _

theorem scCheck_of_rowAnswers {row : List Key} {alpha : ℕ → Key} {m : ℕ} {σ κ : Key}
    (hrow : c.RowAnswers row (mlsagSign c ch xx alpha m) 0 ch σ κ) :
    row.length = m ∧ ∀ s ∈ row, c.scCheck s = true := by
  obtain ⟨ρ, rfl, hρ, -⟩ := hrow
  refine ⟨by rw [List.length_set, length_mlsagSign], fun s hs => ?_⟩
  rcases List.mem_or_eq_of_mem_set hs with hs | rfl
  · obtain ⟨j, -, rfl⟩ := List.mem_map.mp hs
    exact Curve.scCheck_reduce _
  · exact hρ

theorem Signable.accepted (h : Signable c n cosigners pk xx kLRki index dsRows column)
    (message : Key) (alphas : ℕ → Pod 32) (draws : ℕ → ℕ → Pod 32) :
    ∃ mg ch, mlsagGen c message pk xx kLRki index dsRows alphas draws = some (mg, ch) ∧
      mlsagVer c message pk (cosignMg c n index ch mg cosigners) dsRows = true := by
  obtain ⟨images, cc, ch, himages, hafter, hbefore, hgen⟩ := h.mlsagGen_eq message alphas draws
  refine ⟨_, _, hgen, ?_⟩
  have hget : (((drawnColumns c pk draws).map (·.2)).set index (mlsagSign c ch xx
      (mlsagAlpha c kLRki dsRows alphas) (rowsOf pk)))[index]? = some (mlsagSign c ch xx
        (mlsagAlpha c kLRki dsRows alphas) (rowsOf pk)) := by
    refine List.getElem?_set_self ?_
    rw [List.length_map, drawnColumns, List.length_mapIdx]
    exact (List.getElem?_eq_some_iff.mp h.present).1
  obtain ⟨row, heq, hanswers⟩ : ∃ row, cosignMg c n index ch
      ⟨((drawnColumns c pk draws).map (·.2)).set index (mlsagSign c ch xx
        (mlsagAlpha c kLRki dsRows alphas) (rowsOf pk)), cc,
        keyImages c kLRki dsRows column xx⟩ cosigners = _ ∧ _ :=
    cosignMg_eq hget (rowAnswers_mlsagSign _ h.rows) (by rw [length_mlsagSign]; exact h.rows)
  have hcc : c.scCheck cc = true :=
    links_holds (c.scCheck · = true) (scCheck_mlsagHash _) (fun _ => scCheck_mlsagHash) hafter
  have hresidue : ∀ j < column.length, c.residue (row.getD j Curve.scZero) =
      c.residue (rowNonce c n cosigners (mlsagAlpha c kLRki dsRows alphas) j) -
        c.residue ch * c.residue (rowSecret c cosigners xx j) := fun j hj =>
    residue_response hanswers (hj.trans_eq h.length_column)
  have hclosed := h.closes himages hafter hbefore hresidue
  have hshaped := h.shaped draws hcc (scCheck_of_rowAnswers hanswers).1
    (scCheck_of_rowAnswers hanswers).2
  rw [heq, List.set_set, mlsagVer, if_pos hshaped, h.own.mapM_keyImages, ← himages]
  simp only [hclosed]
  rw [Curve.scIsNonzero_scSub.mpr rfl]
  rfl

/-- The signature of a matrix is accepted, whatever the sizes of the matrix, the column of the
signers and the numbers that are drawn, with the shares of the other signers for the first row. -/
theorem mlsagGen_accepted (h : Signable c n cosigners pk xx kLRki index dsRows column) :
    ∃ mg ch, mlsagGen c message pk xx kLRki index dsRows alphas draws = some (mg, ch) ∧
      mlsagVer c message pk (cosignMg c n index ch mg cosigners) dsRows = true := by
  exact h.accepted message alphas draws

/-! ### Two columns that two signers share -/

def smallCosigner : Cosigner := ⟨[smallCurve.reduce 3], smallCurve.reduce 2⟩

def smallMatrix : List (List Key) :=
  [[smallKey 9, smallKey 7], [smallKey 5, smallKey 4]]

theorem mem_smallMatrix {col : List Key} (hcol : col ∈ smallMatrix) :
    col = [smallKey 9, smallKey 7] ∨ col = [smallKey 5, smallKey 4] :=
  List.mem_pair.mp hcol

def smallSecrets : List Key := [smallCurve.reduce 3, smallCurve.reduce 4]

def smallKLRki : MultisigKLRki :=
  ⟨smallCurve.reduce 7,
    smallCurve.toBytes
      (smallCurve.mulBase (smallCurve.totalNonce 0 (smallCurve.reduce 7) [smallCosigner])),
    smallCurve.toBytes (smallCurve.mul
      (smallCurve.totalNonce 0 (smallCurve.reduce 7) [smallCosigner])
      (smallCurve.hashToEc (smallKey 5))),
    smallCurve.generateKeyImage (smallKey 5) (smallCurve.reduce 5)⟩

theorem smallMatrix_signable : Signable smallCurve 0 [smallCosigner] smallMatrix smallSecrets
    (some smallKLRki) 1 1 [smallKey 5, smallKey 4] where
  cols := by decide
  rows := by decide
  rectangular := by
    intro col hcol
    obtain rfl | rfl := mem_smallMatrix hcol
    · rfl
    · rfl
  secrets := by decide
  points := by
    intro col hcol key hkey
    obtain ⟨n, rfl⟩ : ∃ n, key = smallKey n := by
      obtain rfl | rfl := mem_smallMatrix hcol
      · exact (List.mem_pair.mp hkey).elim (fun h => ⟨9, h⟩) fun h => ⟨7, h⟩
      · exact (List.mem_pair.mp hkey).elim (fun h => ⟨5, h⟩) fun h => ⟨4, h⟩
    exact isSome_fromBytes_smallKey n
  hashes := by
    intro col hcol j hj
    obtain rfl : j = 0 := by omega
    obtain rfl | rfl := mem_smallMatrix hcol
    · decide +kernel
    · decide +kernel
  present := rfl
  own := {
    key := by
      intro j hj
      obtain rfl | rfl : j = 0 ∨ j = 1 := by
        rw [List.length_cons, List.length_cons, List.length_nil] at hj
        omega
      · decide +kernel
      · decide +kernel
    nonces := Curve.noncesComposed_total
    image := by
      intro x hx
      obtain rfl := Option.some.inj hx
      decide +kernel
    single := fun _ => rfl
    le := by decide }

theorem mlsagGen_accepted_shared : ∃ mg ch,
    mlsagGen smallCurve (smallKey 8) smallMatrix smallSecrets (some smallKLRki) 1 1
        (fun j => smallKey j) (fun i j => smallKey (3 * i + j)) = some (mg, ch) ∧
      mlsagVer smallCurve (smallKey 8) smallMatrix
        (cosignMg smallCurve 0 1 ch mg [smallCosigner]) 1 = true :=
  mlsagGen_accepted smallMatrix_signable

end Closing

end XrCoin.Ringct

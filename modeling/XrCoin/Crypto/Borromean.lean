import XrCoin.Crypto.Cosigning
import XrCoin.Data.Challenges

/-!
The Borromean signature of `crypto.cpp`, by one signer or by several, each of which has a share of
the secret keys.

In each ring the challenges go on from the key of the signer to the end; the ends of all rings
give one challenge, which starts all of them. So nobody but the signer can close a ring. The first
of several signers makes the chains from the sum of all nonces; each adds a response to the common
challenge with its own share.
-/

namespace XrCoin.Crypto

open Archive Cryptonote Wallet Data

structure BorromeanSignature where
  c : Pod 32
  r : List (List (Pod 32))
  deriving DecidableEq

/-- The arguments of the signer. `kLRki` is empty unless there are several. -/
structure BorromeanInputs where
  images : List KeyImage
  pubs : List (List PublicKey)
  secs : List SecretKey
  secIndices : List ℕ
  kLRki : List MultisigKLRki

structure BorromeanRing where
  image : KeyImage
  pubs : List PublicKey
  sec : SecretKey
  secIndex : ℕ
  pub : PublicKey
  kLRki : Option MultisigKLRki

def BorromeanInputs.ring (x : BorromeanInputs) (i : ℕ) : Option BorromeanRing := do
  let image ← x.images[i]?
  let pubs ← x.pubs[i]?
  let sec ← x.secs[i]?
  let secIndex ← x.secIndices[i]?
  let pub ← pubs[secIndex]?
  return ⟨image, pubs, sec, secIndex, pub, x.kLRki[i]?⟩

namespace Curve

variable (c : Curve)

/-! ### The chains -/

def innerChallenge (prefixHash : Hash) (i j : ℕ) (lr : Pod 32 × Pod 32) : Pod 32 :=
  c.hashToScalar (prefixHash.val ++ lr.1.val ++ lr.2.val ++ leBytes 8 i ++ leBytes 8 j)

def outerChallenge (prefixHash : Hash) (lrs : List (Pod 32 × Pod 32)) : Pod 32 :=
  c.hashToScalar (rsComm prefixHash lrs)

def commitMember (image : c.Point) (ch : Pod 32) (m : PublicKey × Pod 32) :
    Option (Pod 32 × Pod 32) :=
  (c.fromBytes m.1).map fun tmp3 => c.ringCommitments image tmp3 m.1 ⟨ch, m.2⟩

def ringNonce (ring : BorromeanRing) (draw : Pod 32) : Pod 32 × (Pod 32 × Pod 32) :=
  match ring.kLRki with
  | some kLRki => (kLRki.k, (kLRki.l, kLRki.r))
  | none =>
      (c.randomScalar draw, (c.toBytes (c.mulBase (c.randomScalar draw)),
        c.toBytes (c.mul (c.randomScalar draw) (c.hashToEc ring.pub))))

def drawnMembers (draws : ℕ → Pod 32) (pubs : List PublicKey) : List (PublicKey × Pod 32) :=
  pubs.mapIdx fun j pub => (pub, c.randomScalar (draws j))

def ringEnd (prefixHash : Hash) (draws : ℕ → Pod 32) (i : ℕ) (ring : BorromeanRing) :
    Option (Pod 32 × Pod 32) := do
  let imageUnp ← c.fromBytes ring.image
  finish (c.commitMember imageUnp) (c.innerChallenge prefixHash i) ring.secIndex
    (c.ringNonce ring (draws ring.secIndex)).2
    ((c.drawnMembers draws ring.pubs).drop (ring.secIndex + 1))

/-- The second loop: from the start to the key of the signer, with its response and the challenge
for it. -/
def ringResponses (prefixHash : Hash) (draws : ℕ → Pod 32) (sigC : Pod 32) (i : ℕ)
    (ring : BorromeanRing) : Option (List (Pod 32) × Pod 32) := do
  let imageUnp ← c.fromBytes ring.image
  let ch ← links (c.commitMember imageUnp) (c.innerChallenge prefixHash i) 0 sigC
    ((c.drawnMembers draws ring.pubs).take ring.secIndex)
  let r := c.scMulsub ch ring.sec (c.ringNonce ring (draws ring.secIndex)).1
  return (((c.drawnMembers draws ring.pubs).map (·.2)).set ring.secIndex r, ch)

/-- The signature, and the challenges that `msout` gets where it is there. What cannot be signed
aborts. -/
def generateBorromeanSignature (prefixHash : Hash) (x : BorromeanInputs) (msout : Bool)
    (draws : ℕ → ℕ → Pod 32) : Option (BorromeanSignature × List (Pod 32)) := do
  let n := x.pubs.length
  guard (x.images.length = n ∧ x.secs.length = n ∧ x.secIndices.length = n)
  guard (msout = !x.kLRki.isEmpty)
  guard (msout = true → x.kLRki.length = n)
  let lrs ← (List.range n).mapM fun i => (x.ring i).bind (c.ringEnd prefixHash (draws i) i)
  let sigC := c.outerChallenge prefixHash lrs
  let rows ← (List.range n).mapM fun i =>
    (x.ring i).bind (c.ringResponses prefixHash (draws i) sigC i)
  return (⟨sigC, rows.map (·.1)⟩, rows.map (·.2))

/-! ### The check -/

/-- A ring without members leaves its part of the buffer as it was. -/
def checkRing (prefixHash : Hash) (sigC : Pod 32) (i : ℕ) (image : KeyImage)
    (pubs : List PublicKey) (row : List (Pod 32)) : Option (Pod 32 × Pod 32) := do
  guard (row.length = pubs.length)
  let imageUnp ← c.fromBytes image
  guard (∀ r ∈ row, c.scCheck r = true)
  ends (c.commitMember imageUnp) (c.innerChallenge prefixHash i) (scZero, scZero) 0 sigC
    (pubs.zip row)

def checkBorromeanSignature (prefixHash : Hash) (images : List KeyImage)
    (pubs : List (List PublicKey)) (sig : BorromeanSignature) : Bool :=
  if images.length = pubs.length ∧ sig.r.length = pubs.length ∧ c.scCheck sig.c then
    match (List.range pubs.length).mapM fun i => do
        let image ← images[i]?
        let ring ← pubs[i]?
        let row ← sig.r[i]?
        c.checkRing prefixHash sig.c i image ring row with
    | none => false
    | some lrs => !scIsNonzero (c.scSub (c.outerChallenge prefixHash lrs) sig.c)
  else false

/-! ### The other signers -/

def signMultisig (bsig : BorromeanSignature) (indices : List ℕ) (k : List Key)
    (msout : List (Pod 32)) (secretKey : Key) : Option BorromeanSignature :=
  if indices.length = k.length ∧ k.length = bsig.r.length ∧ k.length = msout.length ∧
      ∀ n < indices.length, indices.getD n 0 < (bsig.r.getD n []).length then
    some { bsig with
      r := bsig.r.mapIdx fun n row =>
        c.addShare (msout.getD n scZero) secretKey (k.getD n scZero) (indices.getD n 0) row }
  else none

def cosign (indices : List ℕ) (msout : List (Pod 32)) (bsig : BorromeanSignature)
    (cosigners : List Cosigner) : Option BorromeanSignature :=
  cosigners.foldlM (fun bsig s => c.signMultisig bsig indices s.k msout s.secretKey) bsig

variable {c} {i idx : ℕ} {ch κ σ : Pod 32}

/-! ### One ring -/

theorem zip_drawnMembers (draws : ℕ → Pod 32) {pubs : List PublicKey} {pub : PublicKey}
    (hpub : pubs[idx]? = some pub) (ρ : Pod 32) :
    pubs.zip (((c.drawnMembers draws pubs).map (·.2)).set idx ρ) =
      (c.drawnMembers draws pubs).take idx ++
        (pub, ρ) :: (c.drawnMembers draws pubs).drop (idx + 1) := by
  have hfst : (c.drawnMembers draws pubs).map Prod.fst = pubs := by
    refine List.ext_getElem? fun j => ?_
    rw [List.getElem?_map, drawnMembers, List.getElem?_mapIdx, Option.map_map]
    cases pubs[j]? <;> rfl
  have hget : (c.drawnMembers draws pubs)[idx]? = some (pub, c.randomScalar (draws idx)) := by
    rw [drawnMembers, List.getElem?_mapIdx, hpub, Option.map_some]
  refine Eq.trans ?_ (zip_set hget)
  rw [hfst]

theorem length_drawnMembers (draws : ℕ → Pod 32) (pubs : List PublicKey) :
    (c.drawnMembers draws pubs).length = pubs.length := List.length_mapIdx

/-- The key that is signed for gives the points of the nonce, when the response is right for the
challenge. -/
theorem commitMember_response {pub : PublicKey} {ρ : Pod 32}
    (hpub : pub = c.toBytes (c.mulBase σ))
    (hρ : c.residue ρ = c.residue κ - c.residue ch * c.residue σ) :
    c.commitMember (c.mul σ (c.hashToEc pub)) ch (pub, ρ) =
      some (c.toBytes (c.mulBase κ), c.toBytes (c.mul κ (c.hashToEc pub))) := by
  have hpoint : c.fromBytes pub = some (c.mulBase σ) := by rw [hpub, c.fromBytes_toBytes]
  have hbase : c.mul ch (c.mulBase σ) + c.mulBase ρ = c.mulBase κ :=
    mul_add_of_residue regular_base hρ
  rw [commitMember, hpoint, Option.map_some, ringCommitments, hbase, add_comm,
    mul_add_of_residue (regular_hashToEc pub) hρ]

structure RingShares (c : Curve) (ring : BorromeanRing) (draw σ κ : Pod 32) : Prop where
  pub : ring.pub = c.toBytes (c.mulBase σ)
  image : ring.image = c.generateKeyImage ring.pub σ
  nonce : (c.ringNonce ring draw).2 =
    (c.toBytes (c.mulBase κ), c.toBytes (c.mul κ (c.hashToEc ring.pub)))

theorem ringResponses_cases {prefixHash : Hash} {draws : ℕ → Pod 32} {ring : BorromeanRing}
    {sigC : Pod 32} {row : List (Pod 32)} {image : c.Point} (himage : ring.image = c.toBytes image)
    (h : c.ringResponses prefixHash draws sigC i ring = some (row, ch)) :
    links (c.commitMember image) (c.innerChallenge prefixHash i) 0 sigC
        ((c.drawnMembers draws ring.pubs).take ring.secIndex) = some ch ∧
      row = ((c.drawnMembers draws ring.pubs).map (·.2)).set ring.secIndex
        (c.scMulsub ch ring.sec (c.ringNonce ring (draws ring.secIndex)).1) := by
  rw [ringResponses, himage, c.fromBytes_toBytes] at h
  obtain ⟨image', himage', h⟩ := Option.bind_eq_some_iff.mp h
  obtain rfl := Option.some.inj himage'
  obtain ⟨ch', hlinks, h⟩ := Option.bind_eq_some_iff.mp h
  obtain ⟨rfl, rfl⟩ := Prod.mk.inj (Option.some.inj h)
  exact ⟨hlinks, rfl⟩

theorem checkRing_closed {prefixHash : Hash} {draws : ℕ → Pod 32} {ring : BorromeanRing}
    {sigC ρ : Pod 32} {lr : Pod 32 × Pod 32} {row : List (Pod 32)}
    (hshared : c.RingShares ring (draws ring.secIndex) σ κ)
    (hpub : ring.pubs[ring.secIndex]? = some ring.pub)
    (hend : c.ringEnd prefixHash draws i ring = some lr)
    (hrow : c.ringResponses prefixHash draws sigC i ring = some (row, ch))
    (hcheck : c.scCheck ρ = true)
    (hρ : c.residue ρ = c.residue κ - c.residue ch * c.residue σ) :
    c.checkRing prefixHash sigC i ring.image ring.pubs (row.set ring.secIndex ρ) = some lr := by
  have hlt := (List.getElem?_eq_some_iff.mp hpub).1
  rw [ringEnd, hshared.image, generateKeyImage, c.fromBytes_toBytes] at hend
  obtain ⟨hbefore, rfl⟩ := ringResponses_cases hshared.image hrow
  have hlength : ((c.drawnMembers draws ring.pubs).take ring.secIndex).length = ring.secIndex := by
    rw [List.length_take, length_drawnMembers, min_eq_left hlt.le]
  have hall : ∀ r ∈ ((c.drawnMembers draws ring.pubs).map (·.2)).set ring.secIndex ρ,
      c.scCheck r = true := by
    intro r hr
    rcases List.mem_or_eq_of_mem_set hr with hr | rfl
    · obtain ⟨m, hm, rfl⟩ := List.mem_map.mp hr
      obtain ⟨j, -, rfl⟩ := List.mem_mapIdx.mp hm
      exact scCheck_randomScalar _
    · exact hcheck
  have hclosed : ends (c.commitMember (c.mul σ (c.hashToEc ring.pub)))
      (c.innerChallenge prefixHash i) (scZero, scZero) 0 sigC
      ((c.drawnMembers draws ring.pubs).take ring.secIndex ++
        (ring.pub, ρ) :: (c.drawnMembers draws ring.pubs).drop (ring.secIndex + 1)) = some lr := by
    rw [ends_append_cons hbefore (commitMember_response hshared.pub hρ), hlength, Nat.zero_add,
      ← hshared.nonce]
    exact hend
  rw [← zip_drawnMembers draws hpub] at hclosed
  rw [checkRing, List.set_set, List.length_set, List.length_map, length_drawnMembers,
    hshared.image, generateKeyImage, c.fromBytes_toBytes]
  simp only [guard, if_pos hall, if_true]
  exact hclosed

/-! ### Shares -/

/-- The row of a ring is right for the sums `σ` and `κ` that have been put into it. -/
def Answered (c : Curve) (bsig : BorromeanSignature) (i idx : ℕ) (row : List (Pod 32))
    (ch σ κ : Pod 32) : Prop :=
  ∃ row', bsig.r[i]? = some row' ∧ c.RowAnswers row' row idx ch σ κ

section Shares

variable {bsig : BorromeanSignature} {row : List (Pod 32)} {indices : List ℕ} {k : List Key}
  {msout : List (Pod 32)} {secretKey : Key} {n : ℕ}

theorem Answered.addShare {bsig' : BorromeanSignature}
    (h : c.Answered bsig i idx row ch σ κ) (hlt : idx < row.length)
    (hrow : bsig'.r[i]? = bsig.r[i]?.map (c.addShare ch secretKey (k.getD i scZero) idx)) :
    c.Answered bsig' i idx row ch (c.scAdd σ secretKey) (c.scAdd κ (k.getD i scZero)) := by
  obtain ⟨row', hget, hanswers⟩ := h
  exact ⟨_, by rw [hrow, hget, Option.map_some], hanswers.addShare hlt⟩

theorem signMultisig_of_sizes (hindices : indices.length = n) (hk : k.length = n)
    (hr : bsig.r.length = n) (hmsout : msout.length = n)
    (hlt : ∀ i < n, indices.getD i 0 < (bsig.r.getD i []).length) :
    ∃ bsig', c.signMultisig bsig indices k msout secretKey = some bsig' ∧ bsig'.c = bsig.c ∧
      bsig'.r.length = n ∧ ∀ i, bsig'.r[i]? = bsig.r[i]?.map
        (c.addShare (msout.getD i scZero) secretKey (k.getD i scZero) (indices.getD i 0)) := by
  have hsizes : indices.length = k.length ∧ k.length = bsig.r.length ∧ k.length = msout.length ∧
      ∀ i < indices.length, indices.getD i 0 < (bsig.r.getD i []).length := by
    rw [hindices, hk, hr, hmsout]
    exact ⟨rfl, rfl, rfl, hlt⟩
  exact ⟨_, if_pos hsizes, rfl, List.length_mapIdx.trans hr, fun i => List.getElem?_mapIdx⟩

/-- All other signers can sign, in any order, and the responses are right for the sums. -/
theorem cosign_answered {rows : ℕ → List (Pod 32)} {σs κs : ℕ → Pod 32}
    {cosigners : List Cosigner} (hindices : indices.length = n) (hmsout : msout.length = n)
    (hrows : ∀ i < n, indices.getD i 0 < (rows i).length) (hr : bsig.r.length = n)
    (hk : ∀ s ∈ cosigners, s.k.length = n)
    (h : ∀ i < n, c.Answered bsig i (indices.getD i 0) (rows i) (msout.getD i scZero) (σs i)
      (κs i)) :
    ∃ signed, c.cosign indices msout bsig cosigners = some signed ∧ signed.c = bsig.c ∧
      signed.r.length = n ∧
      ∀ i < n, c.Answered signed i (indices.getD i 0) (rows i) (msout.getD i scZero)
        (c.totalSecret (σs i) cosigners) (c.totalNonce i (κs i) cosigners) := by
  induction cosigners generalizing bsig σs κs with
  | nil => exact ⟨bsig, rfl, rfl, hr, h⟩
  | cons s cosigners ih =>
      have hlt : ∀ i < n, indices.getD i 0 < (bsig.r.getD i []).length := by
        intro i hi
        obtain ⟨_, hget, ρ, rfl, -⟩ := h i hi
        rw [List.getD_eq_getElem?_getD (l := bsig.r), hget, Option.getD_some, List.length_set]
        exact hrows i hi
      obtain ⟨bsig', hsign, hc, hr', hrow⟩ := signMultisig_of_sizes (c := c) (k := s.k)
        hindices (hk s List.mem_cons_self) hr hmsout hlt
      obtain ⟨signed, hsigned, hsc, hsr, hanswered⟩ := ih hr'
        (fun s' hs' => hk s' (List.mem_cons_of_mem _ hs'))
        (fun i hi => (h i hi).addShare (hrows i hi) (hrow i))
      refine ⟨signed, ?_, hsc.trans hc, hsr, hanswered⟩
      rw [cosign, List.foldlM_cons, hsign]
      exact hsigned

end Shares

structure SharedRing (c : Curve) (i : ℕ) (cosigners : List Cosigner) (ring : BorromeanRing) :
    Prop where
  pub : ring.pub = c.toBytes (c.mulBase (c.totalSecret ring.sec cosigners))
  image : ring.image = c.generateKeyImage ring.pub (c.totalSecret ring.sec cosigners)
  nonces : c.NoncesComposed i cosigners ring.kLRki ring.pub

theorem SharedRing.shares {cosigners : List Cosigner} {ring : BorromeanRing}
    (h : c.SharedRing i cosigners ring) (draw : Pod 32) :
    c.RingShares ring draw (c.totalSecret ring.sec cosigners)
      (c.totalNonce i (c.ringNonce ring draw).1 cosigners) := by
  refine ⟨h.pub, h.image, ?_⟩
  have hnonces := h.nonces
  rw [ringNonce]
  cases hkLRki : ring.kLRki with
  | none =>
      rw [hkLRki, NoncesComposed] at hnonces
      rw [hnonces]
      rfl
  | some kLRki =>
      rw [hkLRki] at hnonces
      exact hnonces.points

/-! ### The whole signature -/

structure BorromeanSized (c : Curve) (x : BorromeanInputs) : Prop where
  images : x.images.length = x.pubs.length
  secs : x.secs.length = x.pubs.length
  secIndices : x.secIndices.length = x.pubs.length
  kLRki : x.kLRki = [] ∨ x.kLRki.length = x.pubs.length
  points : ∀ pubs ∈ x.pubs, ∀ pub ∈ pubs, (c.fromBytes pub).isSome

section Whole

variable {x : BorromeanInputs} {ring : BorromeanRing} {prefixHash : Hash}

theorem ring_cases (h : x.ring i = some ring) :
    x.images[i]? = some ring.image ∧ x.pubs[i]? = some ring.pubs ∧
      x.secIndices[i]? = some ring.secIndex ∧ ring.pubs[ring.secIndex]? = some ring.pub := by
  rw [BorromeanInputs.ring] at h
  obtain ⟨image, himage, h⟩ := Option.bind_eq_some_iff.mp h
  obtain ⟨pubs, hpubs, h⟩ := Option.bind_eq_some_iff.mp h
  obtain ⟨sec, -, h⟩ := Option.bind_eq_some_iff.mp h
  obtain ⟨secIndex, hsecIndex, h⟩ := Option.bind_eq_some_iff.mp h
  obtain ⟨pub, hpub, h⟩ := Option.bind_eq_some_iff.mp h
  obtain rfl := Option.some.inj h
  exact ⟨himage, hpubs, hsecIndex, hpub⟩

theorem commitMember_isSome {draws : ℕ → Pod 32} {pubs : List PublicKey} {image : c.Point}
    (hpoints : ∀ pub ∈ pubs, (c.fromBytes pub).isSome) :
    ∀ ch, ∀ m ∈ c.drawnMembers draws pubs, (c.commitMember image ch m).isSome := by
  intro ch m hm
  obtain ⟨j, hj, rfl⟩ := List.mem_mapIdx.mp hm
  rw [commitMember, Option.isSome_map]
  exact hpoints _ (List.getElem_mem hj)

theorem ringEnd_isSome {draws : ℕ → Pod 32} {image : c.Point}
    (hpoints : ∀ pub ∈ ring.pubs, (c.fromBytes pub).isSome)
    (himage : ring.image = c.toBytes image) :
    (c.ringEnd prefixHash draws i ring).isSome := by
  rw [ringEnd, himage, c.fromBytes_toBytes]
  exact finish_isSome fun ch m hm => commitMember_isSome hpoints ch m (List.mem_of_mem_drop hm)

theorem ringResponses_isSome {draws : ℕ → Pod 32} {image : c.Point} {sigC : Pod 32}
    (hpoints : ∀ pub ∈ ring.pubs, (c.fromBytes pub).isSome)
    (himage : ring.image = c.toBytes image) :
    (c.ringResponses prefixHash draws sigC i ring).isSome := by
  have hlinks : (links (c.commitMember image) (c.innerChallenge prefixHash i) 0 sigC
      ((c.drawnMembers draws ring.pubs).take ring.secIndex)).isSome :=
    links_isSome fun ch m hm => commitMember_isSome hpoints ch m (List.mem_of_mem_take hm)
  obtain ⟨ch, hch⟩ := Option.isSome_iff_exists.mp hlinks
  rw [ringResponses, himage, c.fromBytes_toBytes]
  change ((links (c.commitMember image) (c.innerChallenge prefixHash i) 0 sigC
    ((c.drawnMembers draws ring.pubs).take ring.secIndex)).bind _).isSome = true
  rw [hch]
  rfl

/-- What the first signer leaves in a ring is right for its own share. -/
theorem answered_first {draws : ℕ → Pod 32} {image : c.Point} {sigC : Pod 32}
    {row : List (Pod 32)} {bsig : BorromeanSignature} (himage : ring.image = c.toBytes image)
    (hrow : c.ringResponses prefixHash draws sigC i ring = some (row, ch))
    (hr : bsig.r[i]? = some row) :
    c.Answered bsig i ring.secIndex row ch ring.sec
      (c.ringNonce ring (draws ring.secIndex)).1 := by
  obtain ⟨-, rfl⟩ := ringResponses_cases himage hrow
  refine ⟨_, hr, _, ?_, scCheck_reduce _, residue_scMulsub⟩
  rw [List.set_set]
  rfl

structure RingSigned (c : Curve) (x : BorromeanInputs) (cosigners : List Cosigner)
    (prefixHash : Hash) (draws : ℕ → Pod 32) (sigC : Pod 32) (i : ℕ) (ring : BorromeanRing)
    (lr : Pod 32 × Pod 32) (row : List (Pod 32)) (ch : Pod 32) : Prop where
  present : x.ring i = some ring
  shared : c.RingShares ring (draws ring.secIndex) (c.totalSecret ring.sec cosigners)
    (c.totalNonce i (c.ringNonce ring (draws ring.secIndex)).1 cosigners)
  ended : c.ringEnd prefixHash draws i ring = some lr
  responded : c.ringResponses prefixHash draws sigC i ring = some (row, ch)

theorem checkBorromeanSignature_closed {draws : ℕ → ℕ → Pod 32} {cosigners : List Cosigner}
    {signed : BorromeanSignature} {lrs : List (Pod 32 × Pod 32)} (hsized : c.BorromeanSized x)
    (hc : signed.c = c.outerChallenge prefixHash lrs) (hr : signed.r.length = x.pubs.length)
    (hlrs : lrs.length = x.pubs.length)
    (h : ∀ i < x.pubs.length, ∃ ring lr row ch,
      c.RingSigned x cosigners prefixHash (draws i) signed.c i ring lr row ch ∧
        lrs[i]? = some lr ∧
        c.Answered signed i ring.secIndex row ch (c.totalSecret ring.sec cosigners)
          (c.totalNonce i (c.ringNonce ring (draws i ring.secIndex)).1 cosigners)) :
    c.checkBorromeanSignature prefixHash x.images x.pubs signed = true := by
  have hring : ∀ i < lrs.length, (do
      let image ← x.images[i]?
      let pubs ← x.pubs[i]?
      let row ← signed.r[i]?
      c.checkRing prefixHash signed.c i image pubs row) = lrs[i]? := by
    intro i hi
    obtain ⟨ring, lr, row, ch, hsigned, hlr, _, hget, ρ, rfl, hcheck, hρ⟩ := h i (hlrs ▸ hi)
    obtain ⟨himage, hpubs, -, hpub⟩ := ring_cases hsigned.present
    rw [himage, hpubs, hget, hlr]
    exact checkRing_closed hsigned.shared hpub hsigned.ended hsigned.responded hcheck hρ
  have hall := mapM_range_congr hring
  rw [hlrs] at hall
  have hreduced : c.scCheck signed.c = true := hc ▸ scCheck_reduce _
  rw [checkBorromeanSignature, if_pos ⟨hsized.images, hr, hreduced⟩]
  simp only [hall]
  rw [hc, scIsNonzero_scSub.mpr rfl]
  rfl

theorem generateBorromeanSignature_signed (prefixHash : Hash) (draws : ℕ → ℕ → Pod 32)
    {cosigners : List Cosigner}
    (hsized : c.BorromeanSized x)
    (hshared : ∀ i < x.pubs.length, ∃ ring, x.ring i = some ring ∧
      c.RingShares ring (draws i ring.secIndex) (c.totalSecret ring.sec cosigners)
        (c.totalNonce i (c.ringNonce ring (draws i ring.secIndex)).1 cosigners)) :
    ∃ (lrs : List (Pod 32 × Pod 32)) (rows : List (List (Pod 32) × Pod 32)),
      c.generateBorromeanSignature prefixHash x (!x.kLRki.isEmpty) draws =
        some (⟨c.outerChallenge prefixHash lrs, rows.map (·.1)⟩, rows.map (·.2)) ∧
      lrs.length = x.pubs.length ∧ rows.length = x.pubs.length ∧
      ∀ i < x.pubs.length, ∃ ring lr row ch,
        c.RingSigned x cosigners prefixHash (draws i) (c.outerChallenge prefixHash lrs) i ring lr
          row ch ∧ lrs[i]? = some lr ∧ rows[i]? = some (row, ch) := by
  have hpoints : ∀ i ring, x.ring i = some ring →
      ∀ pub ∈ ring.pubs, (c.fromBytes pub).isSome := fun i ring hring =>
    hsized.points _ (List.mem_of_getElem? (ring_cases hring).2.1)
  have hends : ∀ i < x.pubs.length,
      ((x.ring i).bind (c.ringEnd prefixHash (draws i) i)).isSome := by
    intro i hi
    obtain ⟨ring, hring, hsh⟩ := hshared i hi
    rw [hring]
    exact ringEnd_isSome (hpoints i ring hring) hsh.image
  obtain ⟨lrs, hlrs, hlrsLength, hlr⟩ := mapM_range_isSome hends
  have hresponses : ∀ i < x.pubs.length, ((x.ring i).bind
      (c.ringResponses prefixHash (draws i) (c.outerChallenge prefixHash lrs) i)).isSome := by
    intro i hi
    obtain ⟨ring, hring, hsh⟩ := hshared i hi
    rw [hring]
    exact ringResponses_isSome (hpoints i ring hring) hsh.image
  obtain ⟨rows, hrows, hrowsLength, hrow⟩ := mapM_range_isSome hresponses
  refine ⟨lrs, rows, ?_, hlrsLength, hrowsLength, fun i hi => ?_⟩
  · have hmsout : (!x.kLRki.isEmpty) = true → x.kLRki.length = x.pubs.length := by
      rcases hsized.kLRki with hnil | hlen
      · rw [hnil]
        exact fun h => absurd h Bool.false_ne_true
      · exact fun _ => hlen
    simp only [generateBorromeanSignature, guard, hsized.images, hsized.secs, hsized.secIndices,
      and_self, if_true, if_pos hmsout, Option.bind_eq_bind, hlrs, Option.bind_some, hrows]
    rfl
  · obtain ⟨ring, hring, hsh⟩ := hshared i hi
    obtain ⟨lr, hlri⟩ : ∃ lr, lrs[i]? = some lr :=
      ⟨_, List.getElem?_eq_getElem (hlrsLength.symm ▸ hi)⟩
    obtain ⟨⟨row, ch⟩, hrowi⟩ : ∃ row, rows[i]? = some row :=
      ⟨_, List.getElem?_eq_getElem (hrowsLength.symm ▸ hi)⟩
    have hended := hlr i hi
    have hresponded := hrow i hi
    rw [hring, Option.bind_some, hlri] at hended
    rw [hring, Option.bind_some, hrowi] at hresponded
    exact ⟨ring, lr, row, ch, ⟨hring, hsh, hended, hresponded⟩, hlri, hrowi⟩

/-- The signature that the first signer makes and the others complete is accepted, if their shares
add up to the secret key of one member of each ring, and the first signer composed its nonces with
theirs. With no other signers it is the signature of one. -/
theorem generateBorromeanSignature_accepted {draws : ℕ → ℕ → Pod 32} {cosigners : List Cosigner}
    (hsized : c.BorromeanSized x) (hk : ∀ s ∈ cosigners, s.k.length = x.pubs.length)
    (hshared : ∀ i < x.pubs.length, ∃ ring, x.ring i = some ring ∧
      c.SharedRing i cosigners ring) :
    ∃ bsig msout signed,
      c.generateBorromeanSignature prefixHash x (!x.kLRki.isEmpty) draws = some (bsig, msout) ∧
      c.cosign x.secIndices msout bsig cosigners = some signed ∧
      c.checkBorromeanSignature prefixHash x.images x.pubs signed = true := by
  obtain ⟨lrs, rows, hgenerated, hlrs, hrows, hsigned⟩ :=
    generateBorromeanSignature_signed prefixHash draws hsized fun i hi =>
      (hshared i hi).imp fun ring h => h.imp_right fun hring => hring.shares _
  -- Before the others sign, every ring has got the share of the first signer.
  have hfirst : ∀ i < x.pubs.length,
      c.Answered ⟨c.outerChallenge prefixHash lrs, rows.map (·.1)⟩ i (x.secIndices.getD i 0)
        ((rows.map (·.1)).getD i []) ((rows.map (·.2)).getD i scZero)
        (((x.ring i).map (·.sec)).getD scZero)
        (((x.ring i).map fun ring => (c.ringNonce ring (draws i ring.secIndex)).1).getD
          scZero) := by
    intro i hi
    obtain ⟨ring, lr, row, ch, hsg, -, hri⟩ := hsigned i hi
    have hget : (rows.map (·.1))[i]? = some row := by rw [List.getElem?_map, hri]; rfl
    have hch : (rows.map (·.2))[i]? = some ch := by rw [List.getElem?_map, hri]; rfl
    rw [List.getD_eq_getElem?_getD, List.getD_eq_getElem?_getD, List.getD_eq_getElem?_getD, hget,
      hch, (ring_cases hsg.present).2.2.1, hsg.present]
    exact answered_first hsg.shared.image hsg.responded hget
  have hrowLength : ∀ i < x.pubs.length,
      x.secIndices.getD i 0 < ((rows.map (·.1)).getD i []).length := by
    intro i hi
    obtain ⟨ring, lr, row, ch, hsg, -, hri⟩ := hsigned i hi
    obtain ⟨-, hrow⟩ := ringResponses_cases hsg.shared.image hsg.responded
    have hget : (rows.map (·.1))[i]? = some row := by rw [List.getElem?_map, hri]; rfl
    rw [List.getD_eq_getElem?_getD, List.getD_eq_getElem?_getD, hget,
      (ring_cases hsg.present).2.2.1, Option.getD_some, Option.getD_some, hrow, List.length_set,
      List.length_map, length_drawnMembers]
    exact (List.getElem?_eq_some_iff.mp (ring_cases hsg.present).2.2.2).1
  obtain ⟨signed, hcosign, hc, hr, hanswered⟩ := cosign_answered hsized.secIndices
    ((List.length_map _).trans hrows) hrowLength ((List.length_map _).trans hrows) hk hfirst
  have hclosed : ∀ i < x.pubs.length, ∃ ring lr row ch,
      c.RingSigned x cosigners prefixHash (draws i) signed.c i ring lr row ch ∧
        lrs[i]? = some lr ∧
        c.Answered signed i ring.secIndex row ch (c.totalSecret ring.sec cosigners)
          (c.totalNonce i (c.ringNonce ring (draws i ring.secIndex)).1 cosigners) := by
    intro i hi
    obtain ⟨ring, lr, row, ch, hsg, hlri, hri⟩ := hsigned i hi
    have hans := hanswered i hi
    have hget : (rows.map (·.1))[i]? = some row := by rw [List.getElem?_map, hri]; rfl
    have hch : (rows.map (·.2))[i]? = some ch := by rw [List.getElem?_map, hri]; rfl
    rw [List.getD_eq_getElem?_getD, List.getD_eq_getElem?_getD, List.getD_eq_getElem?_getD, hget,
      hch, (ring_cases hsg.present).2.2.1, hsg.present] at hans
    rw [hc]
    exact ⟨ring, lr, row, ch, hsg, hlri, hans⟩
  exact ⟨_, _, signed, hgenerated, hcosign,
    checkBorromeanSignature_closed hsized hc hr hlrs hclosed⟩

def smallCosigner : Cosigner := ⟨[smallCurve.reduce 3, smallCurve.reduce 4], smallCurve.reduce 2⟩

/-- The share of the first signer in a nonce, and the points of the total. -/
def smallNonce (i : ℕ) (k : Key) (pub : PublicKey) : MultisigKLRki :=
  ⟨k, smallCurve.toBytes (smallCurve.mulBase (smallCurve.totalNonce i k [smallCosigner])),
    smallCurve.toBytes
      (smallCurve.mul (smallCurve.totalNonce i k [smallCosigner]) (smallCurve.hashToEc pub)),
    scZero⟩

/-- Two rings, in each of which two signers share a secret key. -/
def smallRings : List (List PublicKey) :=
  [[5, 8], [2, 9, 6]].map fun ring => ring.map smallKey

def smallInputs : BorromeanInputs :=
  ⟨[smallCurve.generateKeyImage (smallKey 5) (smallCurve.reduce 5),
      smallCurve.generateKeyImage (smallKey 6) (smallCurve.reduce 6)],
    smallRings, [smallCurve.reduce 3, smallCurve.reduce 4], [0, 2],
    [smallNonce 0 (smallCurve.reduce 7) (smallKey 5),
      smallNonce 1 (smallCurve.reduce 1) (smallKey 6)]⟩

theorem smallInputs_sized : smallCurve.BorromeanSized smallInputs where
  images := rfl
  secs := rfl
  secIndices := rfl
  kLRki := .inr rfl
  points pubs hpubs pub hpub := by
    obtain ⟨ring, -, rfl⟩ := List.mem_map.mp hpubs
    obtain ⟨n, -, rfl⟩ := List.mem_map.mp hpub
    exact isSome_fromBytes_smallKey n

theorem generateBorromeanSignature_accepted_two :
    ∃ bsig msout signed,
      smallCurve.generateBorromeanSignature (smallKey 3) smallInputs
        (!smallInputs.kLRki.isEmpty) (fun i j => smallKey (3 * i + j)) = some (bsig, msout) ∧
      smallCurve.cosign smallInputs.secIndices msout bsig [smallCosigner] = some signed ∧
      smallCurve.checkBorromeanSignature (smallKey 3) smallInputs.images smallInputs.pubs
        signed = true := by
  refine generateBorromeanSignature_accepted smallInputs_sized (by decide +kernel) fun i hi => ?_
  obtain rfl | rfl : i = 0 ∨ i = 1 := by
    have hlen : smallInputs.pubs.length = 2 := rfl
    omega
  · exact ⟨_, rfl, by decide +kernel, by decide +kernel, noncesComposed_total⟩
  · exact ⟨_, rfl, by decide +kernel, by decide +kernel, noncesComposed_total⟩

end Whole

end Curve

end XrCoin.Crypto

import XrCoin.Crypto.Keys

/-!
The signatures of `crypto.cpp`: with one key, with a ring of keys, and the proof of a shared
secret.

The random scalars are arguments. What a signer leaves out of a commitment, the checker puts in:
the two points a checker computes for a member do not depend on the challenge that the signer gave
its own key.
-/

namespace XrCoin.Crypto

open Archive Cryptonote Wallet

structure Signature where
  c : Pod 32
  r : Pod 32
  deriving DecidableEq

namespace Curve

variable (c : Curve)

def randomScalar (bytes : Pod 32) : Pod 32 := c.scReduce32 bytes

/-! ### One key -/

def sComm (h key comm : Pod 32) : List UInt8 := h.val ++ key.val ++ comm.val

/-- The last four bytes are not zero. -/
def notTiny (k : Pod 32) : Bool := k.val.drop 28 ≠ [0, 0, 0, 0]

def trySignature (prefixHash : Hash) (pub : PublicKey) (sec : SecretKey) (bytes : Pod 32) :
    Option Signature :=
  let k := c.randomScalar bytes
  if notTiny k then
    let sigC := c.hashToScalar (sComm prefixHash pub (c.toBytes (c.mulBase k)))
    let sigR := c.scMulsub sigC sec k
    if scIsNonzero sigC ∧ scIsNonzero sigR then some ⟨sigC, sigR⟩ else none
  else none

/-- The loop tries the numbers that are drawn until one gives a signature. -/
def generateSignature (prefixHash : Hash) (pub : PublicKey) (sec : SecretKey)
    (draws : List (Pod 32)) : Option Signature :=
  draws.findSome? (c.trySignature prefixHash pub sec)

def infinity : Pod 32 := 1 ::ᵥ List.Vector.replicate 31 0

def checkSignature (prefixHash : Hash) (pub : PublicKey) (sig : Signature) : Bool :=
  match c.fromBytes pub with
  | none => false
  | some tmp3 =>
      if c.scCheck sig.c ∧ c.scCheck sig.r ∧ scIsNonzero sig.c then
        let comm := c.toBytes (c.mul sig.c tmp3 + c.mulBase sig.r)
        if comm = infinity then false
        else !scIsNonzero (c.scSub (c.hashToScalar (sComm prefixHash pub comm)) sig.c)
      else false

/-! ### A ring of keys -/

def ringCommitments (image tmp3 : c.Point) (pub : PublicKey) (sig : Signature) :
    Pod 32 × Pod 32 :=
  (c.toBytes (c.mul sig.c tmp3 + c.mulBase sig.r),
    c.toBytes (c.mul sig.r (c.hashToEc pub) + c.mul sig.c image))

def rsComm (prefixHash : Hash) (ab : List (Pod 32 × Pod 32)) : List UInt8 :=
  prefixHash.val ++ (ab.map fun p => p.1.val ++ p.2.val).flatten

def ringLoop (member : ℕ → PublicKey → Pod 32 → Option ((Pod 32 × Pod 32) × Pod 32)) (i : ℕ)
    (sum : Pod 32) : List PublicKey → Option (List (Pod 32 × Pod 32) × Pod 32)
  | [] => some ([], sum)
  | pub :: pubs => do
      let (p, sum') ← member i pub sum
      let (ab, total) ← ringLoop member (i + 1) sum' pubs
      return (p :: ab, total)

def signMember (image : c.Point) (secIndex : ℕ) (k : Pod 32) (sigs : ℕ → Signature) (i : ℕ)
    (pub : PublicKey) (sum : Pod 32) : Option ((Pod 32 × Pod 32) × Pod 32) :=
  if i = secIndex then
    some ((c.toBytes (c.mulBase k), c.toBytes (c.mul k (c.hashToEc pub))), sum)
  else do
    let tmp3 ← c.fromBytes pub
    return (c.ringCommitments image tmp3 pub (sigs i), c.scAdd sum (sigs i).c)

def drawnPart (draws : ℕ → Pod 32 × Pod 32) (i : ℕ) : Signature :=
  ⟨c.randomScalar (draws i).1, c.randomScalar (draws i).2⟩

/-- The signature from the bytes that are drawn: two numbers for each other member, and one for the
key of the signer. The index is one of the ring, as the callers see to. -/
def generateRingSignature (prefixHash : Hash) (image : KeyImage) (pubs : List PublicKey)
    (sec : SecretKey) (secIndex : ℕ) (draws : ℕ → Pod 32 × Pod 32) (draw : Pod 32) :
    Option (List Signature) := do
  let imageUnp ← c.fromBytes image
  let k := c.randomScalar draw
  let (ab, sum) ← ringLoop (c.signMember imageUnp secIndex k (c.drawnPart draws)) 0 scZero pubs
  let h := c.hashToScalar (rsComm prefixHash ab)
  let sigC := c.scSub h sum
  let sigR := c.scMulsub sigC sec k
  return (List.range pubs.length).map
    (Function.update (c.drawnPart draws) secIndex ⟨sigC, sigR⟩)

def checkMember (image : c.Point) (sigs : List Signature) (i : ℕ) (pub : PublicKey)
    (sum : Pod 32) : Option ((Pod 32 × Pod 32) × Pod 32) := do
  let sig ← sigs[i]?
  guard (c.scCheck sig.c ∧ c.scCheck sig.r)
  let tmp3 ← c.fromBytes pub
  return (c.ringCommitments image tmp3 pub sig, c.scAdd sum sig.c)

/-- The callers see to it that there are as many signatures as keys. -/
def checkRingSignature (prefixHash : Hash) (image : KeyImage) (pubs : List PublicKey)
    (sigs : List Signature) : Bool :=
  match c.fromBytes image with
  | none => false
  | some imageUnp =>
      match ringLoop (c.checkMember imageUnp sigs) 0 scZero pubs with
      | none => false
      | some (ab, sum) => !scIsNonzero (c.scSub (c.hashToScalar (rsComm prefixHash ab)) sum)

/-! ### A shared secret -/

def sComm2 (msg d x y : Pod 32) : List UInt8 := msg.val ++ d.val ++ x.val ++ y.val

def txProofBase (B : Option PublicKey) : Option c.Point :=
  match B with
  | none => some c.base
  | some key => c.fromBytes key

def generateTxProof (prefixHash : Hash) (R A : PublicKey) (B : Option PublicKey) (D : PublicKey)
    (r : SecretKey) (draw : Pod 32) : Option Signature := do
  let _ ← c.fromBytes R
  let A_p3 ← c.fromBytes A
  let base ← c.txProofBase B
  let _ ← c.fromBytes D
  let k := c.randomScalar draw
  let sigC := c.hashToScalar
    (sComm2 prefixHash D (c.toBytes (c.mul k base)) (c.toBytes (c.mul k A_p3)))
  return ⟨sigC, c.scMulsub sigC r k⟩

def checkTxProof (prefixHash : Hash) (R A : PublicKey) (B : Option PublicKey) (D : PublicKey)
    (sig : Signature) : Bool :=
  match c.fromBytes R, c.fromBytes A, c.txProofBase B, c.fromBytes D with
  | some R_p3, some A_p3, some base, some D_p3 =>
      if c.scCheck sig.c ∧ c.scCheck sig.r then
        let x := c.toBytes (c.mul sig.c R_p3 + c.mul sig.r base)
        let y := c.toBytes (c.mul sig.c D_p3 + c.mul sig.r A_p3)
        !scIsNonzero (c.scSub (c.hashToScalar (sComm2 prefixHash D x y)) sig.c)
      else false
  | _, _, _, _ => false

/-! ### Responses -/

variable {c} {P : c.Point} {a k s : Pod 32}

/-- The difference of two numbers is zero exactly if they agree modulo the order. -/
theorem scIsNonzero_scSub : scIsNonzero (c.scSub a k) = false ↔ c.residue a = c.residue k := by
  have hcheck : c.scCheck (c.scSub a k) = true := scCheck_reduce _
  rw [scIsNonzero_eq_false_iff hcheck, residue_scSub, sub_eq_zero]

theorem mul_add_response (h : c.Regular P) :
    c.mul a (c.mul s P) + c.mul (c.scMulsub a s k) P = c.mul k P := by
  rw [h.mul_scMulsub, add_sub_cancel]

theorem scCheck_randomScalar (bytes : Pod 32) : c.scCheck (c.randomScalar bytes) = true :=
  scCheck_reduce _

/-! ### What a signer signs is accepted -/

theorem value_ne_zero_of_notTiny (h : notTiny k = true) : value k ≠ 0 := by
  intro hzero
  have hk : k = scZero := by
    apply value_injective
    rw [hzero]
    decide
  rw [hk] at h
  exact absurd h (by decide)

theorem mulBase_ne_zero (hcheck : c.scCheck k = true) (hne : value k ≠ 0) : c.mulBase k ≠ 0 := by
  intro hzero
  have hdvd : c.order ∣ value k := by
    rw [← c.addOrderOf_base]
    exact addOrderOf_dvd_of_nsmul_eq_zero hzero
  exact hne (Nat.eq_zero_of_dvd_of_lt hdvd (scCheck_iff.mp hcheck))

theorem checkSignature_trySignature {prefixHash : Hash} {bytes : Pod 32} {sig : Signature}
    (h : c.trySignature prefixHash (c.toBytes (c.mulBase s)) s bytes = some sig) :
    c.checkSignature prefixHash (c.toBytes (c.mulBase s)) sig = true := by
  rw [trySignature] at h
  by_cases htiny : notTiny (c.randomScalar bytes) = true
  · rw [if_pos htiny] at h
    obtain ⟨hnonzero, rfl⟩ := Option.ite_none_right_eq_some.mp h |>.imp_right Option.some.inj
    have hcomm : c.mul (c.hashToScalar (sComm prefixHash (c.toBytes (c.mulBase s))
        (c.toBytes (c.mulBase (c.randomScalar bytes))))) (c.mulBase s) +
        c.mulBase (c.scMulsub (c.hashToScalar (sComm prefixHash (c.toBytes (c.mulBase s))
          (c.toBytes (c.mulBase (c.randomScalar bytes))))) s (c.randomScalar bytes)) =
        c.mulBase (c.randomScalar bytes) := mul_add_response regular_base
    have hne : c.toBytes (c.mulBase (c.randomScalar bytes)) ≠ infinity := by
      rw [infinity, ← c.toBytes_zero]
      exact toBytes_injective.ne
        (mulBase_ne_zero (scCheck_randomScalar bytes) (value_ne_zero_of_notTiny htiny))
    rw [checkSignature, c.fromBytes_toBytes]
    simp only [hcomm]
    rw [if_pos ⟨scCheck_reduce _, scCheck_reduce _, hnonzero.1⟩, if_neg hne,
      scIsNonzero_scSub.mpr rfl]
    rfl
  · rw [if_neg htiny] at h
    exact absurd h.symm (Option.some_ne_none _)

theorem checkSignature_generateSignature {prefixHash : Hash} {draws : List (Pod 32)}
    {sig : Signature}
    (h : c.generateSignature prefixHash (c.toBytes (c.mulBase s)) s draws = some sig) :
    c.checkSignature prefixHash (c.toBytes (c.mulBase s)) sig = true := by
  obtain ⟨bytes, -, hsig⟩ := List.exists_of_findSome?_eq_some h
  exact checkSignature_trySignature hsig

/-- The proof of a shared secret is accepted, where the key of the receiver has no part that the
order does not annihilate. -/
theorem checkTxProof_generateTxProof {prefixHash : Hash} {A : PublicKey} {B : Option PublicKey}
    {draw : Pod 32} {A_p3 base : c.Point} {sig : Signature} (hA : c.fromBytes A = some A_p3)
    (hB : c.txProofBase B = some base) (hregA : c.Regular A_p3) (hregB : c.Regular base)
    (h : c.generateTxProof prefixHash (c.toBytes (c.mul s base)) A B (c.toBytes (c.mul s A_p3)) s
      draw = some sig) :
    c.checkTxProof prefixHash (c.toBytes (c.mul s base)) A B (c.toBytes (c.mul s A_p3)) sig =
      true := by
  rw [generateTxProof, c.fromBytes_toBytes, hA, hB, c.fromBytes_toBytes] at h
  obtain rfl := Option.some.inj h
  rw [checkTxProof, c.fromBytes_toBytes, hA, hB, c.fromBytes_toBytes]
  simp only [mul_add_response hregB, mul_add_response hregA]
  rw [if_pos ⟨scCheck_reduce _, scCheck_reduce _⟩, scIsNonzero_scSub.mpr rfl]
  rfl

/-! ### A ring is closed by its signer -/

/-- Two bodies that compute the same points, member by member, with sums that stay related. -/
theorem ringLoop_related {pubs : List PublicKey} {rel : ℕ → Pod 32 → Pod 32 → Prop}
    {member member' : ℕ → PublicKey → Pod 32 → Option ((Pod 32 × Pod 32) × Pod 32)} {i : ℕ}
    {sum sum' total : Pod 32} {ab : List (Pod 32 × Pod 32)}
    (hmember : ∀ j pub, pubs[j]? = some pub → ∀ x x' p y, rel (i + j) x x' →
      member (i + j) pub x = some (p, y) →
        ∃ y', member' (i + j) pub x' = some (p, y') ∧ rel (i + j + 1) y y')
    (hsum : rel i sum sum') (h : ringLoop member i sum pubs = some (ab, total)) :
    ∃ total', ringLoop member' i sum' pubs = some (ab, total') ∧
      rel (i + pubs.length) total total' := by
  induction pubs generalizing i sum sum' ab with
  | nil =>
      obtain ⟨rfl, rfl⟩ := Prod.mk.inj (Option.some.inj h)
      exact ⟨sum', rfl, hsum⟩
  | cons pub pubs ih =>
      rw [ringLoop] at h
      obtain ⟨⟨p, y⟩, hp, h⟩ := Option.bind_eq_some_iff.mp h
      obtain ⟨⟨rest, z⟩, hrest, h⟩ := Option.bind_eq_some_iff.mp h
      obtain ⟨rfl, rfl⟩ := Prod.mk.inj (Option.some.inj h)
      obtain ⟨y', hp', hy⟩ := hmember 0 pub rfl sum sum' p y hsum hp
      have htail : ∀ j pub', pubs[j]? = some pub' → ∀ x x' q w, rel (i + 1 + j) x x' →
          member (i + 1 + j) pub' x = some (q, w) →
            ∃ w', member' (i + 1 + j) pub' x' = some (q, w') ∧ rel (i + 1 + j + 1) w w' := by
        intro j pub' hj
        rw [Nat.add_right_comm, Nat.add_assoc]
        exact hmember (j + 1) pub' hj
      obtain ⟨total', htotal, hrel⟩ := ih htail hy hrest
      refine ⟨total', ?_, ?_⟩
      · rw [ringLoop, Nat.add_zero] at *
        rw [hp']
        change (ringLoop member' (i + 1) y' pubs).bind _ = _
        rw [htotal]
        rfl
      · rwa [List.length_cons, Nat.add_comm pubs.length 1, ← Nat.add_assoc]

theorem ringLoop_isSome {pubs : List PublicKey}
    {member : ℕ → PublicKey → Pod 32 → Option ((Pod 32 × Pod 32) × Pod 32)} {i : ℕ}
    {sum : Pod 32} (h : ∀ j, ∀ pub ∈ pubs, ∀ x, (member j pub x).isSome) :
    (ringLoop member i sum pubs).isSome := by
  induction pubs generalizing i sum with
  | nil => rfl
  | cons pub pubs ih =>
      obtain ⟨⟨p, y⟩, hp⟩ := Option.isSome_iff_exists.mp (h i pub List.mem_cons_self sum)
      obtain ⟨⟨ab, total⟩, hrest⟩ := Option.isSome_iff_exists.mp
        (ih (fun j pub' hpub' => h j pub' (List.mem_cons_of_mem _ hpub')))
      rw [ringLoop, hp]
      change ((ringLoop member (i + 1) y pubs).bind _).isSome = true
      rw [hrest]
      rfl

section Ring

variable {pubs : List PublicKey} {secIndex : ℕ} {image : c.Point} {outKey : PublicKey}
  {sigs : ℕ → Signature} {sigC : Pod 32}

theorem ringCommitments_response :
    c.ringCommitments (c.mul s (c.hashToEc outKey)) (c.mulBase s) outKey
        ⟨sigC, c.scMulsub sigC s k⟩ =
      (c.toBytes (c.mulBase k), c.toBytes (c.mul k (c.hashToEc outKey))) := by
  have hbase : c.mul sigC (c.mulBase s) + c.mulBase (c.scMulsub sigC s k) = c.mulBase k :=
    mul_add_response regular_base
  have hkey := mul_add_response (a := sigC) (k := k) (s := s) (regular_hashToEc (c := c) outKey)
  rw [ringCommitments, hbase]
  exact congrArg _ (congrArg c.toBytes ((add_comm _ _).trans hkey))

/-- The checker's sum is the signer's, and the challenge of the signer's key once it is passed. -/
def SumsAgree (c : Curve) (secIndex : ℕ) (sigC : Pod 32) (i : ℕ) (sum sum' : Pod 32) : Prop :=
  c.residue sum' = c.residue sum + if secIndex < i then c.residue sigC else 0

theorem checkMember_signMember {i : ℕ} {pub : PublicKey} {x x' y : Pod 32} {p : Pod 32 × Pod 32}
    (hlt : i < pubs.length) (hpub : pubs[i]? = some pub)
    (hsec : pubs[secIndex]? = some (c.toBytes (c.mulBase s))) (hsigC : c.scCheck sigC = true)
    (hsigs : ∀ i, c.scCheck (sigs i).c = true ∧ c.scCheck (sigs i).r = true)
    (hsum : SumsAgree c secIndex sigC i x x')
    (h : c.signMember (c.mul s (c.hashToEc (c.toBytes (c.mulBase s)))) secIndex k sigs i pub x =
      some (p, y)) :
    ∃ y', c.checkMember (c.mul s (c.hashToEc (c.toBytes (c.mulBase s))))
        ((List.range pubs.length).map
          (Function.update sigs secIndex ⟨sigC, c.scMulsub sigC s k⟩)) i pub x' = some (p, y') ∧
      SumsAgree c secIndex sigC (i + 1) y y' := by
  have hsig : ((List.range pubs.length).map
      (Function.update sigs secIndex ⟨sigC, c.scMulsub sigC s k⟩))[i]? =
      some (Function.update sigs secIndex ⟨sigC, c.scMulsub sigC s k⟩ i) := by
    rw [List.getElem?_map, List.getElem?_range hlt, Option.map_some]
  rw [checkMember, hsig]
  rw [signMember] at h
  by_cases hi : i = secIndex
  · subst hi
    obtain rfl := Option.some.inj (hpub.symm.trans hsec)
    rw [if_pos rfl] at h
    obtain ⟨rfl, rfl⟩ := Prod.mk.inj (Option.some.inj h)
    refine ⟨c.scAdd x' sigC, ?_, ?_⟩
    · simp only [Option.bind_eq_bind, Option.bind_some, Function.update_self,
        guard, hsigC, scMulsub, scCheck_reduce, and_self, if_true, c.fromBytes_toBytes]
      rw [← scMulsub, ringCommitments_response]
      rfl
    · rw [SumsAgree, residue_scAdd, hsum, if_neg (lt_irrefl i), if_pos (Nat.lt_succ_self i),
        add_zero]
  · rw [if_neg hi] at h
    obtain ⟨tmp3, htmp3, h⟩ := Option.bind_eq_some_iff.mp h
    obtain ⟨rfl, rfl⟩ := Prod.mk.inj (Option.some.inj h)
    refine ⟨c.scAdd x' (sigs i).c, ?_, ?_⟩
    · simp only [Option.bind_eq_bind, Option.bind_some, Function.update_of_ne hi,
        guard, (hsigs i).1, (hsigs i).2, and_self, if_true, htmp3]
      rfl
    · have hlt_iff : secIndex < i + 1 ↔ secIndex < i := by omega
      rw [SumsAgree, residue_scAdd, residue_scAdd, hsum, if_congr hlt_iff rfl rfl]
      exact add_right_comm _ _ _

theorem signMember_isSome (hpoints : ∀ pub ∈ pubs, (c.fromBytes pub).isSome) (i : ℕ) :
    ∀ pub ∈ pubs, ∀ x, (c.signMember image secIndex k sigs i pub x).isSome := by
  intro pub hpub x
  rw [signMember]
  split
  · rfl
  · obtain ⟨tmp3, htmp3⟩ := Option.isSome_iff_exists.mp (hpoints pub hpub)
    rw [htmp3]
    rfl

theorem checkRingSignature_closed {prefixHash : Hash} {ab : List (Pod 32 × Pod 32)}
    {sum : Pod 32} (hsec : pubs[secIndex]? = some (c.toBytes (c.mulBase s)))
    (hsigs : ∀ i, c.scCheck (sigs i).c = true ∧ c.scCheck (sigs i).r = true)
    (hloop : ringLoop (c.signMember (c.mul s (c.hashToEc (c.toBytes (c.mulBase s)))) secIndex k
      sigs) 0 scZero pubs = some (ab, sum))
    (hsigC : sigC = c.scSub (c.hashToScalar (rsComm prefixHash ab)) sum) :
    c.checkRingSignature prefixHash (c.generateKeyImage (c.toBytes (c.mulBase s)) s) pubs
      ((List.range pubs.length).map
        (Function.update sigs secIndex ⟨sigC, c.scMulsub sigC s k⟩)) = true := by
  have hcheck : c.scCheck sigC = true := hsigC ▸ scCheck_reduce _
  have hzero : SumsAgree c secIndex sigC 0 scZero scZero := by
    rw [SumsAgree, if_neg (Nat.not_lt_zero _), add_zero]
  have hmember : ∀ j pub, pubs[j]? = some pub → ∀ x x' p y,
      SumsAgree c secIndex sigC (0 + j) x x' →
      c.signMember (c.mul s (c.hashToEc (c.toBytes (c.mulBase s)))) secIndex k sigs (0 + j) pub x =
        some (p, y) →
      ∃ y', c.checkMember (c.mul s (c.hashToEc (c.toBytes (c.mulBase s))))
          ((List.range pubs.length).map
            (Function.update sigs secIndex ⟨sigC, c.scMulsub sigC s k⟩)) (0 + j) pub x' =
          some (p, y') ∧ SumsAgree c secIndex sigC (0 + j + 1) y y' := by
    intro j pub hj x x' p y hrel h
    rw [Nat.zero_add] at hrel h ⊢
    exact checkMember_signMember (List.getElem?_eq_some_iff.mp hj).1 hj hsec hcheck hsigs hrel h
  obtain ⟨total, htotal, hsum⟩ := ringLoop_related hmember hzero hloop
  have hlt : secIndex < 0 + pubs.length := by
    rw [Nat.zero_add]
    exact (List.getElem?_eq_some_iff.mp hsec).1
  rw [SumsAgree, if_pos hlt, hsigC, residue_scSub, add_sub_cancel] at hsum
  rw [checkRingSignature, generateKeyImage, c.fromBytes_toBytes]
  simp only [htotal]
  rw [scIsNonzero_scSub.mpr hsum.symm]
  rfl

/-- Whoever can open an output can sign for it in any ring of points that it is a member of, and
the signature is accepted for the image of the output. -/
theorem generateRingSignature_accepted {prefixHash : Hash} {opened : Keypair × KeyImage}
    {draws : ℕ → Pod 32 × Pod 32} {draw : Pod 32} (hopens : c.Opens outKey opened)
    (hpoints : ∀ pub ∈ pubs, (c.fromBytes pub).isSome) (hsec : pubs[secIndex]? = some outKey) :
    ∃ sig, c.generateRingSignature prefixHash opened.2 pubs opened.1.sec secIndex draws draw =
        some sig ∧
      c.checkRingSignature prefixHash opened.2 pubs sig = true := by
  obtain ⟨⟨pub, sec⟩, img⟩ := opened
  obtain ⟨-, -, hkey, himage⟩ := hopens
  dsimp only at hkey himage ⊢
  subst hkey himage
  have hdrawn : ∀ i, c.scCheck (c.drawnPart draws i).c = true ∧
      c.scCheck (c.drawnPart draws i).r = true :=
    fun i => ⟨scCheck_randomScalar _, scCheck_randomScalar _⟩
  have hsome : (ringLoop (c.signMember (c.mul sec (c.hashToEc (c.toBytes (c.mulBase sec))))
      secIndex (c.randomScalar draw) (c.drawnPart draws)) 0 scZero pubs).isSome :=
    ringLoop_isSome (signMember_isSome hpoints)
  obtain ⟨⟨ab, sum⟩, hloop⟩ := Option.isSome_iff_exists.mp hsome
  refine ⟨_, ?_, checkRingSignature_closed hsec hdrawn hloop rfl⟩
  simp only [generateRingSignature, generateKeyImage, c.fromBytes_toBytes, Option.bind_eq_bind,
    Option.bind_some, hloop]
  rfl

def smallOpened : Keypair × KeyImage :=
  (⟨smallKey 5, smallCurve.reduce 5⟩,
    smallCurve.generateKeyImage (smallKey 5) (smallCurve.reduce 5))

def smallRing : List PublicKey := [3, 5, 9].map smallKey

theorem smallOpened_opens : smallCurve.Opens (smallKey 5) smallOpened :=
  ⟨rfl, by decide +kernel, by decide +kernel, rfl⟩

theorem generateRingSignature_accepted_second :
    ∃ sig, smallCurve.generateRingSignature (smallKey 7) smallOpened.2 smallRing
        smallOpened.1.sec 1 (fun i => (smallKey (3 * i), smallKey (i + 4)))
        (smallKey 11) = some sig ∧
      smallCurve.checkRingSignature (smallKey 7) smallOpened.2 smallRing sig = true := by
  have hpoints : ∀ pub ∈ smallRing, (smallCurve.fromBytes pub).isSome := by
    intro pub hpub
    obtain ⟨n, -, rfl⟩ := List.mem_map.mp hpub
    exact isSome_fromBytes_smallKey n
  exact generateRingSignature_accepted smallOpened_opens hpoints rfl

end Ring

end Curve

end XrCoin.Crypto

import XrCoin.Crypto.RingSignature
import XrCoin.Wallet.MultisigTransfer

/-!
Several signers of one signature. Each has a share of the secret key and draws a nonce of its own;
the first composes the points of its nonce with those that the others exported. The responses of
all of them, for one challenge, add up to the response of a single signer with the sums.
-/

namespace XrCoin.Crypto

open Archive Cryptonote Wallet

/-- What another signer adds: its nonces, and its share of the secret key. -/
structure Cosigner where
  k : List Key
  secretKey : Key

namespace Curve

variable (c : Curve)

def totalSecret (sec : SecretKey) (cosigners : List Cosigner) : Pod 32 :=
  cosigners.foldl (fun t s => c.scAdd t s.secretKey) sec

def totalNonce (i : ℕ) (k : Pod 32) (cosigners : List Cosigner) : Pod 32 :=
  cosigners.foldl (fun t s => c.scAdd t (s.k.getD i scZero)) k

def addShare (ch secretKey k : Pod 32) (idx : ℕ) (row : List (Pod 32)) : List (Pod 32) :=
  row.set idx (c.scAdd (row.getD idx scZero) (c.scMulsub ch secretKey k))

variable {c} {i idx : ℕ} {ch κ σ : Pod 32}

/-! ### Nonces -/

def pointOps (c : Curve) : PointOps where
  generateMultisigLR pkey k := (c.scalarmultBase k, c.generateKeyImage pkey k)
  addKeys := c.addKeys

theorem addLR_nonce {kLRki : MultisigKLRki} {pub : PublicKey} {k : Key}
    (hl : kLRki.l = c.toBytes (c.mulBase κ))
    (hr : kLRki.r = c.toBytes (c.mul κ (c.hashToEc pub))) :
    addLR c.pointOps kLRki ⟨(c.pointOps.generateMultisigLR pub k).1,
        (c.pointOps.generateMultisigLR pub k).2⟩ =
      .ok { kLRki with
        l := c.toBytes (c.mulBase (c.scAdd κ k))
        r := c.toBytes (c.mul (c.scAdd κ k) (c.hashToEc pub)) } := by
  have hsumL : c.addKeys kLRki.l (c.scalarmultBase k) =
      some (c.toBytes (c.mulBase (c.scAdd κ k))) := by
    rw [hl, scalarmultBase_eq, addKeys_toBytes, mulBase_scAdd]
  have hsumR : c.addKeys kLRki.r (c.generateKeyImage pub k) =
      some (c.toBytes (c.mul (c.scAdd κ k) (c.hashToEc pub))) := by
    rw [hr, generateKeyImage, addKeys_toBytes, (regular_hashToEc pub).mul_scAdd]
  simp only [addLR, pointOps, hsumL, hsumR]
  rfl

/-- The pairs of the other signers make the points of a wallet those of the sum of all nonces, as
the chains are to start with. -/
theorem foldlM_addLR {kLRki : MultisigKLRki} {pub : PublicKey} {cosigners : List Cosigner}
    (hl : kLRki.l = c.toBytes (c.mulBase κ))
    (hr : kLRki.r = c.toBytes (c.mul κ (c.hashToEc pub))) :
    cosigners.foldlM (fun kLRki s => addLR c.pointOps kLRki
        ⟨(c.pointOps.generateMultisigLR pub (s.k.getD i scZero)).1,
          (c.pointOps.generateMultisigLR pub (s.k.getD i scZero)).2⟩) kLRki =
      .ok { kLRki with
        l := c.toBytes (c.mulBase (c.totalNonce i κ cosigners))
        r := c.toBytes (c.mul (c.totalNonce i κ cosigners) (c.hashToEc pub)) } := by
  induction cosigners generalizing kLRki κ with
  | nil =>
      rw [totalNonce, List.foldl_nil, ← hl, ← hr]
      rfl
  | cons s cosigners ih =>
      rw [List.foldlM_cons, addLR_nonce hl hr]
      exact ih rfl rfl

/-- The points of a nonce were composed from the pairs of the other signers; a single signer draws
its nonce itself. -/
def NoncesComposed (c : Curve) (i : ℕ) (cosigners : List Cosigner) (kLRki : Option MultisigKLRki)
    (pub : PublicKey) : Prop :=
  match kLRki with
  | none => cosigners = []
  | some kLRki =>
      cosigners.foldlM (fun kLRki s => addLR c.pointOps kLRki
          ⟨(c.pointOps.generateMultisigLR pub (s.k.getD i scZero)).1,
            (c.pointOps.generateMultisigLR pub (s.k.getD i scZero)).2⟩)
        (getMultisigKLRki c.pointOps ⟨pub, kLRki.ki, []⟩ kLRki.k) = .ok kLRki

theorem noncesComposed_total {cosigners : List Cosigner} {pub : PublicKey} {k ki : Key} :
    c.NoncesComposed i cosigners (some ⟨k, c.toBytes (c.mulBase (c.totalNonce i k cosigners)),
      c.toBytes (c.mul (c.totalNonce i k cosigners) (c.hashToEc pub)), ki⟩) pub :=
  foldlM_addLR (scalarmultBase_eq k) rfl

theorem NoncesComposed.points {cosigners : List Cosigner} {kLRki : MultisigKLRki}
    {pub : PublicKey} (h : c.NoncesComposed i cosigners (some kLRki) pub) :
    (kLRki.l, kLRki.r) = (c.toBytes (c.mulBase (c.totalNonce i kLRki.k cosigners)),
      c.toBytes (c.mul (c.totalNonce i kLRki.k cosigners) (c.hashToEc pub))) := by
  rw [NoncesComposed, foldlM_addLR (scalarmultBase_eq _) rfl] at h
  exact congrArg (fun x : MultisigKLRki => (x.l, x.r)) (Except.ok.inj h).symm

/-! ### Responses -/

/-- The response at a place of a row is right for the sums `σ` and `κ` of what has been put into
it. -/
def RowAnswers (c : Curve) (row base : List (Pod 32)) (idx : ℕ) (ch σ κ : Pod 32) : Prop :=
  ∃ ρ, row = base.set idx ρ ∧ c.scCheck ρ = true ∧
    c.residue ρ = c.residue κ - c.residue ch * c.residue σ

theorem RowAnswers.addShare {row base : List (Pod 32)} {secretKey k : Pod 32}
    (h : c.RowAnswers row base idx ch σ κ) (hlt : idx < base.length) :
    c.RowAnswers (c.addShare ch secretKey k idx row) base idx ch (c.scAdd σ secretKey)
      (c.scAdd κ k) := by
  obtain ⟨ρ, rfl, -, hρ⟩ := h
  have hat : (base.set idx ρ).getD idx scZero = ρ := by
    rw [List.getD_eq_getElem?_getD, List.getElem?_set_self hlt, Option.getD_some]
  refine ⟨c.scAdd ρ (c.scMulsub ch secretKey k), ?_, scCheck_reduce _, ?_⟩
  · rw [Curve.addShare, hat, List.set_set]
  · rw [residue_scAdd, hρ, residue_scMulsub, residue_scAdd, residue_scAdd]
    ring

/-- A response that is right gives back the point of the nonce, on any point that the order
annihilates. -/
theorem mul_add_of_residue {P : c.Point} {ρ : Pod 32} (h : c.Regular P)
    (hρ : c.residue ρ = c.residue κ - c.residue ch * c.residue σ) :
    c.mul ch (c.mul σ P) + c.mul ρ P = c.mul κ P := by
  have hresidue : c.residue ρ = c.residue (c.scMulsub ch σ κ) := by rw [hρ, residue_scMulsub]
  rw [h.mul_congr hresidue]
  exact mul_add_response h

end Curve

end XrCoin.Crypto

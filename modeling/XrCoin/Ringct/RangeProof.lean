import XrCoin.Crypto.RingSignature
import XrCoin.Data.Challenges

/-!
Range proofs of `rctSigs.cpp` from before the bulletproofs.

An amount is committed to bit by bit. The signature shows of each commitment that it is one to zero
or to the power of two of its place, so that their sum, which is the commitment to the amount, is
one to a number of 64 bits.
-/

namespace XrCoin.Ringct

open Archive Cryptonote Wallet Crypto Data

abbrev Key64 : Type := Fin 64 → Key

structure BoroSig where
  s0 : Key64
  s1 : Key64
  ee : Key
  deriving DecidableEq

structure RangeSig where
  asig : BoroSig
  Ci : Key64
  deriving DecidableEq

/-- The second generator, and the table of its multiples in `rctTypes.h`. -/
structure Pedersen (c : Curve) where
  H : c.Point
  regular : c.Regular H
  H2 : Key64
  H2_eq : ∀ i, c.fromBytes (H2 i) = some (2 ^ i.val • H)

def Pedersen.ofPoint {c : Curve} (H : c.Point) (h : c.Regular H) : Pedersen c :=
  ⟨H, h, fun i => c.toBytes (2 ^ i.val • H), fun _ => c.fromBytes_toBytes _⟩

variable {c : Curve} (ped : Pedersen c)

/-! ### Operations on keys -/

section

variable (c)

def addKeys1 (a B : Key) : Option Key := c.addKeys (c.scalarmultBase a) B

def addKeys2 (a b B : Key) : Option Key :=
  (c.fromBytes B).map fun B2 => c.toBytes (c.mul b B2 + c.mulBase a)

def subKeys (A B : Key) : Option Key := do
  let B2 ← c.fromBytes B
  let A2 ← c.fromBytes A
  return c.toBytes (A2 - B2)

def hashToScalar64 (keys : Key64) : Key :=
  c.hashToScalar (List.ofFn fun i => (keys i).val).flatten

end

def d2h (amount : UInt64) : Key :=
  ⟨leBytes 8 amount.toNat ++ List.replicate 24 0, by
    rw [List.length_append, leBytes_length, List.length_replicate]⟩

def d2b (val : UInt64) (i : Fin 64) : Bool := val.toNat.testBit i

def scalarmultH (a : Key) : Key := c.toBytes (c.mul a ped.H)

def genC (a : Key) (amount : UInt64) : Option Key := addKeys1 c a (scalarmultH ped (d2h amount))

/-! ### The Borromean signature -/

/-- For each place the secret key of one of the two keys is known: of the second where the bit is
set, else of the first. -/
def genBorromean (c : Curve) (x P1 P2 : Key64) (indices : Fin 64 → Bool)
    (alphas draws : Fin 64 → Pod 32) : Option BoroSig := do
  let alpha := fun ii => c.randomScalar (alphas ii)
  let L1 ← gather fun ii =>
    if indices ii then some (c.scalarmultBase (alpha ii))
    else addKeys2 c (c.randomScalar (draws ii))
      (c.hashToScalar (c.scalarmultBase (alpha ii)).val) (P2 ii)
  let ee := hashToScalar64 c L1
  let s0 := fun jj =>
    if indices jj then c.randomScalar (draws jj) else c.scMulsub (x jj) ee (alpha jj)
  let s1 ← gather fun jj =>
    if indices jj then
      (addKeys2 c (s0 jj) ee (P1 jj)).map fun LL =>
        c.scMulsub (x jj) (c.hashToScalar LL.val) (alpha jj)
    else some (c.randomScalar (draws jj))
  return ⟨s0, s1, ee⟩

def verifyBorromean (c : Curve) (bb : BoroSig) (P1 P2 : Fin 64 → c.Point) : Bool :=
  let Lv1 : Key64 := fun ii =>
    let LL := c.toBytes (c.mul bb.ee (P1 ii) + c.mulBase (bb.s0 ii))
    c.toBytes (c.mul (c.hashToScalar LL.val) (P2 ii) + c.mulBase (bb.s1 ii))
  hashToScalar64 c Lv1 = bb.ee

/-! ### The proof -/

structure RangeDraws where
  ai : Fin 64 → Pod 32
  alpha : Fin 64 → Pod 32
  s : Fin 64 → Pod 32

def commitBit (ai : Key) (b : Bool) (i : Fin 64) : Option Key :=
  if b then addKeys1 c ai (ped.H2 i) else some (c.scalarmultBase ai)

def proveRange (amount : UInt64) (draws : RangeDraws) : Option (Key × Key × RangeSig) := do
  let b := d2b amount
  let ai := fun i => c.randomScalar (draws.ai i)
  let Ci ← gather fun i => commitBit ped (ai i) (b i) i
  let CiH ← gather fun i => subKeys c (Ci i) (ped.H2 i)
  let mask := (List.finRange 64).foldl (fun mask i => c.scAdd mask (ai i)) Curve.scZero
  let C ← (List.finRange 64).foldlM (fun C i => c.addKeys C (Ci i)) Curve.infinity
  let asig ← genBorromean c ai Ci CiH b draws.alpha draws.s
  return (C, mask, ⟨asig, Ci⟩)

/-- A key that is no point gives no answer, which is taken for a refusal. -/
def verRange (C : Key) (proof : RangeSig) : Bool :=
  match gather fun i => c.fromBytes (proof.Ci i), gather fun i => c.fromBytes (ped.H2 i) with
  | some asCi, some H2 =>
      let Ctmp := (List.finRange 64).foldl (fun Ctmp i => Ctmp + asCi i) 0
      C = c.toBytes Ctmp && verifyBorromean c proof.asig asCi fun i => asCi i - H2 i
  | _, _ => false

variable {ped}

/-! ### Keys as points -/

theorem addKeys1_eq {a B : Key} {P : c.Point} (hB : c.fromBytes B = some P) :
    addKeys1 c a B = some (c.toBytes (c.mulBase a + P)) := by
  rw [addKeys1, Curve.addKeys, hB, Curve.scalarmultBase_eq, c.fromBytes_toBytes]
  rfl

theorem addKeys2_eq {a b B : Key} {P : c.Point} (hB : c.fromBytes B = some P) :
    addKeys2 c a b B = some (c.toBytes (c.mul b P + c.mulBase a)) := by
  rw [addKeys2, hB, Option.map_some]

theorem subKeys_eq {A B : Key} {P Q : c.Point} (hA : c.fromBytes A = some P)
    (hB : c.fromBytes B = some Q) : subKeys c A B = some (c.toBytes (P - Q)) := by
  rw [subKeys, hA, hB]
  rfl

theorem leValue_append_zeros (bs : List UInt8) (k : ℕ) :
    leValue (bs ++ List.replicate k 0) = leValue bs := by
  induction bs with
  | nil =>
      rw [List.nil_append]
      induction k with
      | zero => rfl
      | succ k ih =>
          change (0 : UInt8).toNat + 256 * leValue (List.replicate k 0) = 0
          rw [ih]
          rfl
  | cons b bs ih => rw [List.cons_append, leValue, ih, leValue]

theorem value_d2h (amount : UInt64) : value (d2h amount) = amount.toNat := by
  have hlt : amount.toNat < 256 ^ 8 := amount.toNat_lt
  rw [value, d2h, leValue_append_zeros, leValue_leBytes hlt]

theorem scalarmultH_d2h (amount : UInt64) :
    scalarmultH ped (d2h amount) = c.toBytes (amount.toNat • ped.H) := by
  rw [scalarmultH, Curve.mul, value_d2h]

theorem genC_eq (a : Key) (amount : UInt64) :
    genC ped a amount = some (c.toBytes (c.mulBase a + amount.toNat • ped.H)) := by
  rw [genC, scalarmultH_d2h]
  exact addKeys1_eq (c.fromBytes_toBytes _)

theorem foldlM_addKeys {ι : Type} {K : ι → Key} {P : ι → c.Point} {l : List ι}
    (h : ∀ i ∈ l, c.fromBytes (K i) = some (P i)) (Q : c.Point) :
    l.foldlM (fun C i => c.addKeys C (K i)) (c.toBytes Q) =
      some (c.toBytes (Q + (l.map P).sum)) := by
  induction l generalizing Q with
  | nil =>
      rw [List.map_nil, List.sum_nil, add_zero]
      rfl
  | cons i l ih =>
      have hstep : c.addKeys (c.toBytes Q) (K i) = some (c.toBytes (Q + P i)) := by
        rw [Curve.addKeys, h i List.mem_cons_self, c.fromBytes_toBytes]
        rfl
      rw [List.foldlM_cons, hstep, List.map_cons, List.sum_cons, ← add_assoc]
      exact ih (fun j hj => h j (List.mem_cons_of_mem _ hj)) (Q + P i)

theorem mulBase_foldl_scAdd {ι : Type} (a : ι → Key) (l : List ι) (sk : Key) :
    c.mulBase (l.foldl (fun sk i => c.scAdd sk (a i)) sk) =
      c.mulBase sk + (l.map fun i => c.mulBase (a i)).sum := by
  induction l generalizing sk with
  | nil => rw [List.map_nil, List.sum_nil, add_zero, List.foldl_nil]
  | cons i l ih =>
      rw [List.foldl_cons, ih, Curve.mulBase_scAdd, List.map_cons, List.sum_cons, add_assoc]

theorem sum_commitments {ι : Type} (H : c.Point) (a : ι → Key) (n : ι → ℕ) (l : List ι) :
    (l.map fun i => c.mulBase (a i) + n i • H).sum =
      (l.map fun i => c.mulBase (a i)).sum + (l.map n).sum • H := by
  induction l with
  | nil => simp only [List.map_nil, List.sum_nil, zero_smul, add_zero]
  | cons i l ih =>
      simp only [List.map_cons, List.sum_cons, ih, add_smul]
      abel

/-! ### Bits -/

theorem sum_testBit (m n : ℕ) :
    ((List.range n).map fun i => (m.testBit i).toNat * 2 ^ i).sum = m % 2 ^ n := by
  induction n with
  | zero => rw [List.range_zero, List.map_nil, List.sum_nil, pow_zero, Nat.mod_one]
  | succ n ih =>
      have hbit : m % 2 ^ (n + 1) = m % 2 ^ n + 2 ^ n * (m / 2 ^ n % 2) := by
        rw [pow_succ, Nat.mod_mul]
      have htest : (m.testBit n).toNat = m / 2 ^ n % 2 := Nat.toNat_testBit m n
      rw [List.range_succ, List.map_append, List.sum_append, ih, hbit, List.map_singleton,
        List.sum_singleton, htest, Nat.mul_comm]

/-- The bits that are committed to make up the amount. -/
theorem sum_d2b (amount : UInt64) :
    ((List.finRange 64).map fun i => (d2b amount i).toNat * 2 ^ i.val).sum = amount.toNat := by
  have hmap : (List.finRange 64).map (fun i => (d2b amount i).toNat * 2 ^ i.val) =
      (List.range 64).map fun i => (amount.toNat.testBit i).toNat * 2 ^ i := by
    rw [← List.map_coe_finRange_eq_range, List.map_map]
    rfl
  rw [hmap, sum_testBit, Nat.mod_eq_of_lt amount.toNat_lt]

/-! ### The signature is accepted -/

/-- The point of a challenged secret key and that of the response. -/
theorem mul_add_scMulsub {a b d : Key} :
    c.mul b (c.mulBase a) + c.mulBase (c.scMulsub a b d) = c.mulBase d := by
  have hcomm : c.mul b (c.mulBase a) = c.mul a (c.mulBase b) := Curve.mul_comm_mul
  rw [Curve.mulBase_scMulsub, hcomm, add_sub_cancel]

/-- Whoever knows a secret key of one of the two keys at each place signs, whatever is drawn. -/
theorem genBorromean_accepted {x P1 P2 : Key64} {p1 p2 : Fin 64 → c.Point}
    {indices : Fin 64 → Bool} (hP1 : ∀ i, c.fromBytes (P1 i) = some (p1 i))
    (hP2 : ∀ i, c.fromBytes (P2 i) = some (p2 i))
    (hx : ∀ i, (if indices i then p2 i else p1 i) = c.mulBase (x i))
    (alphas draws : Fin 64 → Pod 32) :
    ∃ bb, genBorromean c x P1 P2 indices alphas draws = some bb ∧
      verifyBorromean c bb p1 p2 = true := by
  let alpha : Key64 := fun ii => c.randomScalar (alphas ii)
  let L1 : Key64 := fun ii =>
    if indices ii then c.toBytes (c.mulBase (alpha ii))
    else c.toBytes (c.mul (c.hashToScalar (c.toBytes (c.mulBase (alpha ii))).val) (p2 ii) +
      c.mulBase (c.randomScalar (draws ii)))
  let ee : Key := hashToScalar64 c L1
  let s0 : Key64 := fun jj =>
    if indices jj then c.randomScalar (draws jj) else c.scMulsub (x jj) ee (alpha jj)
  let LL : Key64 := fun jj => c.toBytes (c.mul ee (p1 jj) + c.mulBase (s0 jj))
  let s1 : Key64 := fun jj =>
    if indices jj then c.scMulsub (x jj) (c.hashToScalar (LL jj).val) (alpha jj)
    else c.randomScalar (draws jj)
  have hL1 : (gather fun ii =>
      if indices ii then some (c.scalarmultBase (alpha ii))
      else addKeys2 c (c.randomScalar (draws ii))
        (c.hashToScalar (c.scalarmultBase (alpha ii)).val) (P2 ii)) = some L1 := by
    refine gather_eq_some_iff.mpr fun ii => ?_
    rw [Curve.scalarmultBase_eq, addKeys2_eq (hP2 ii)]
    exact (apply_ite some _ _ _).symm
  have hs1 : (gather fun jj =>
      if indices jj then
        (addKeys2 c (s0 jj) ee (P1 jj)).map fun LL =>
          c.scMulsub (x jj) (c.hashToScalar LL.val) (alpha jj)
      else some (c.randomScalar (draws jj))) = some s1 := by
    refine gather_eq_some_iff.mpr fun jj => ?_
    rw [addKeys2_eq (hP1 jj), Option.map_some]
    exact (apply_ite some _ _ _).symm
  refine ⟨⟨s0, s1, ee⟩, ?_, ?_⟩
  · rw [genBorromean, hL1, Option.bind_eq_bind, Option.bind_some]
    exact Option.bind_eq_some_iff.mpr ⟨s1, hs1, rfl⟩
  -- at each place the two points that are hashed come back
  · have hLv1 : (fun ii => c.toBytes (c.mul (c.hashToScalar (LL ii).val) (p2 ii) +
        c.mulBase (s1 ii))) = L1 := by
      funext ii
      have hknown := hx ii
      by_cases hbit : indices ii = true
      · rw [if_pos hbit] at hknown
        simp only [s1, L1, if_pos hbit, hknown, mul_add_scMulsub]
      · rw [if_neg hbit] at hknown
        simp only [s1, s0, LL, L1, if_neg hbit, hknown, mul_add_scMulsub]
    rw [verifyBorromean, decide_eq_true_eq]
    exact congrArg (hashToScalar64 c) hLv1

theorem scCheck_foldl_scAdd {ι : Type} (a : ι → Key) (l : List ι) {mask : Key}
    (h : c.scCheck mask = true) :
    c.scCheck (l.foldl (fun mask i => c.scAdd mask (a i)) mask) = true := by
  induction l generalizing mask with
  | nil => exact h
  | cons i l ih => exact ih (Curve.scCheck_reduce _)

theorem value_scZero : value Curve.scZero = 0 := by decide

theorem scCheck_scZero : c.scCheck Curve.scZero = true := by
  rw [Curve.scCheck_iff, value_scZero]
  exact Curve.order_pos

theorem mulBase_scZero : c.mulBase Curve.scZero = 0 := by
  rw [Curve.mulBase, Curve.mul, value_scZero, zero_smul]

def bitPoint (ped : Pedersen c) (ai : Key) (b : Bool) (i : Fin 64) : c.Point :=
  c.mulBase ai + (b.toNat * 2 ^ i.val) • ped.H

theorem commitBit_eq (ai : Key) (b : Bool) (i : Fin 64) :
    commitBit ped ai b i = some (c.toBytes (bitPoint ped ai b i)) := by
  cases b with
  | false =>
      rw [commitBit, if_neg Bool.false_ne_true, Curve.scalarmultBase_eq, bitPoint,
        Bool.toNat_false, Nat.zero_mul, zero_smul, add_zero]
  | true =>
      rw [commitBit, if_pos rfl, addKeys1_eq (ped.H2_eq i), bitPoint, Bool.toNat_true,
        Nat.one_mul]

/-- One of the two keys of a place is the point of the number that was drawn. -/
theorem bitPoint_known (ai : Key) (b : Bool) (i : Fin 64) :
    (if b then bitPoint ped ai b i - 2 ^ i.val • ped.H else bitPoint ped ai b i) =
      c.mulBase ai := by
  cases b with
  | false =>
      rw [if_neg Bool.false_ne_true, bitPoint, Bool.toNat_false, Nat.zero_mul, zero_smul, add_zero]
  | true => rw [if_pos rfl, bitPoint, Bool.toNat_true, Nat.one_mul, add_sub_cancel_right]

theorem verRange_eq {C : Key} {proof : RangeSig} {P : Fin 64 → c.Point}
    (hCi : ∀ i, c.fromBytes (proof.Ci i) = some (P i)) :
    verRange ped C proof = (decide (C = c.toBytes ((List.finRange 64).map P).sum) &&
        verifyBorromean c proof.asig P fun i => P i - 2 ^ i.val • ped.H) := by
  have hH2 : (gather fun i => c.fromBytes (ped.H2 i)) =
      some fun i : Fin 64 => 2 ^ i.val • ped.H := gather_eq_some_iff.mpr ped.H2_eq
  have hasCi : (gather fun i => c.fromBytes (proof.Ci i)) = some P := gather_eq_some_iff.mpr hCi
  have hsum : ((List.finRange 64).map P).sum =
      (List.finRange 64).foldl (fun Ctmp i => Ctmp + P i) 0 := by
    rw [List.sum_eq_foldl, List.foldl_map]
  unfold verRange
  rw [hasCi, hH2, hsum]

/-- The commitment that is made opens to the amount and to the mask, and its proof is accepted,
whatever the amount and the numbers that are drawn. -/
theorem proveRange_accepted (ped : Pedersen c) (amount : UInt64) (draws : RangeDraws) :
    ∃ C mask sig, proveRange ped amount draws = some (C, mask, sig) ∧
      C = c.toBytes (c.mulBase mask + amount.toNat • ped.H) ∧ c.scCheck mask = true ∧
        verRange ped C sig = true := by
  let ai : Key64 := fun i => c.randomScalar (draws.ai i)
  let P : Fin 64 → c.Point := fun i => bitPoint ped (ai i) (d2b amount i) i
  let Ci : Key64 := fun i => c.toBytes (P i)
  let CiH : Key64 := fun i => c.toBytes (P i - 2 ^ i.val • ped.H)
  let mask : Key := (List.finRange 64).foldl (fun mask i => c.scAdd mask (ai i)) Curve.scZero
  have hCi : (gather fun i => commitBit ped (ai i) (d2b amount i) i) = some Ci :=
    gather_eq_some_iff.mpr fun i => commitBit_eq _ _ _
  have hCiH : (gather fun i => subKeys c (Ci i) (ped.H2 i)) = some CiH :=
    gather_eq_some_iff.mpr fun i => subKeys_eq (c.fromBytes_toBytes _) (ped.H2_eq i)
  have hsum : ((List.finRange 64).map P).sum = c.mulBase mask + amount.toNat • ped.H := by
    have hmask : c.mulBase mask = ((List.finRange 64).map fun i => c.mulBase (ai i)).sum :=
      (mulBase_foldl_scAdd ai _ _).trans (by rw [mulBase_scZero, zero_add])
    have h := sum_commitments ped.H ai (fun i => (d2b amount i).toNat * 2 ^ i.val)
      (List.finRange 64)
    rw [sum_d2b, ← hmask] at h
    exact h
  have hC : (List.finRange 64).foldlM (fun C i => c.addKeys C (Ci i)) Curve.infinity =
      some (c.toBytes (c.mulBase mask + amount.toNat • ped.H)) := by
    have hinfinity : Curve.infinity = c.toBytes 0 := c.toBytes_zero.symm
    rw [hinfinity, foldlM_addKeys fun i _ => c.fromBytes_toBytes (P i), zero_add, hsum]
  obtain ⟨asig, hasig, haccept⟩ := genBorromean_accepted
    (fun i => c.fromBytes_toBytes (P i)) (fun i => c.fromBytes_toBytes _)
    (fun i => bitPoint_known (ai i) (d2b amount i) i) draws.alpha draws.s
  refine ⟨_, mask, ⟨asig, Ci⟩, ?_, rfl, scCheck_foldl_scAdd _ _ scCheck_scZero, ?_⟩
  · rw [proveRange, hCi, Option.bind_eq_bind, Option.bind_some, hCiH, Option.bind_some]
    exact Option.bind_eq_some_iff.mpr ⟨_, hC, Option.bind_eq_some_iff.mpr ⟨asig, hasig, rfl⟩⟩
  · rw [verRange_eq (P := P) fun i => c.fromBytes_toBytes _, hsum, decide_eq_true rfl,
      Bool.true_and]
    exact haccept

end XrCoin.Ringct

import XrCoin.Archive.Binary

/-!
The curve as `crypto.cpp` uses it: a group with a base point, points and scalars written in 32
bytes, and the hash. Of the field arithmetic in `crypto-ops.c` only this is taken.

A scalar is read as a number and acts on a point by repeated addition. The operations on scalars
work modulo the order of the base point, so they act as they should on the points that this order
annihilates.
-/

namespace XrCoin.Crypto

open Archive

structure Curve where
  Point : Type
  group : AddCommGroup Point
  base : Point
  order : ℕ
  one_lt_order : 1 < order
  order_le : order ≤ 2 ^ 253
  addOrderOf_base : addOrderOf base = order
  /-- The curve has eight times as many points. -/
  cofactor : ∀ P : Point, order • (8 • P) = 0
  toBytes : Point → Pod 32
  /-- `ge_frombytes_vartime`. -/
  fromBytes : Pod 32 → Option Point
  fromBytes_toBytes : ∀ P, fromBytes (toBytes P) = some P
  toBytes_zero : toBytes 0 = 1 ::ᵥ List.Vector.replicate 31 0
  /-- `ge_fromfe_frombytes_vartime`. -/
  fromFe : Pod 32 → Point
  cnFastHash : List UInt8 → Pod 32

attribute [instance] Curve.group

def value (s : Pod 32) : ℕ := leValue s.val

namespace Curve

variable (c : Curve)

/-! ### Scalars -/

/-- A number modulo the order. -/
def reduce (n : ℕ) : Pod 32 := ⟨leBytes 32 (n % c.order), leBytes_length _ _⟩

def scReduce32 (s : Pod 32) : Pod 32 := c.reduce (value s)

def scAdd (a b : Pod 32) : Pod 32 := c.reduce (value a + value b)

def scSub (a b : Pod 32) : Pod 32 := c.reduce (value a + (c.order - value b % c.order))

/-- `d - a * b`. -/
def scMulsub (a b d : Pod 32) : Pod 32 :=
  c.reduce (value d + (c.order - value a * value b % c.order))

def scCheck (s : Pod 32) : Bool := value s < c.order

def scIsNonzero (s : Pod 32) : Bool := value s ≠ 0

def scZero : Pod 32 := List.Vector.replicate 32 0

def hashToScalar (data : List UInt8) : Pod 32 := c.scReduce32 (c.cnFastHash data)

/-! ### Points -/

/-- `ge_scalarmult`, as it is for the scalars it assumes, those with the highest bit clear. Its
callers check their scalars by `sc_check`, reduce them or get them reduced. -/
def mul (s : Pod 32) (P : c.Point) : c.Point := value s • P

def mulBase (s : Pod 32) : c.Point := c.mul s c.base

def hashToEc (key : Pod 32) : c.Point := 8 • c.fromFe (c.cnFastHash key.val)

/-- A point on which scalars act modulo the order. -/
def Regular (P : c.Point) : Prop := c.order • P = 0

def residue (s : Pod 32) : ZMod c.order := (value s : ZMod c.order)

variable {c} {P Q : c.Point} {a b d : Pod 32}

theorem toBytes_injective : Function.Injective c.toBytes := by
  intro P Q h
  have hPQ := congrArg c.fromBytes h
  rw [c.fromBytes_toBytes, c.fromBytes_toBytes] at hPQ
  exact Option.some.inj hPQ

theorem order_pos : 0 < c.order := Nat.zero_lt_of_lt c.one_lt_order

@[simp] theorem value_reduce (n : ℕ) : value (c.reduce n) = n % c.order := by
  have hlt : n % c.order < 256 ^ 32 := by
    have hmod := Nat.mod_lt n (order_pos (c := c))
    have hle := c.order_le
    have hpow : (2 : ℕ) ^ 253 ≤ 256 ^ 32 := by norm_num
    omega
  exact leValue_leBytes hlt

theorem scCheck_iff : c.scCheck a = true ↔ value a < c.order := decide_eq_true_iff

theorem scCheck_reduce (n : ℕ) : c.scCheck (c.reduce n) = true := by
  rw [scCheck_iff, value_reduce]
  exact Nat.mod_lt n order_pos

/-- Scalars are read back from their numbers. -/
theorem value_injective : Function.Injective value := by
  intro a b h
  have ha := leBytes_leValue a.val
  have hb := leBytes_leValue b.val
  rw [a.2] at ha
  rw [b.2] at hb
  apply List.Vector.eq
  calc a.val = leBytes 32 (leValue a.val) := ha.symm
    _ = leBytes 32 (leValue b.val) := by rw [show leValue a.val = leValue b.val from h]
    _ = b.val := hb

@[simp] theorem residue_reduce (n : ℕ) : c.residue (c.reduce n) = n := by
  rw [residue, value_reduce, ZMod.natCast_mod]

theorem natCast_order_sub (n : ℕ) :
    ((c.order - n % c.order : ℕ) : ZMod c.order) = -(n : ZMod c.order) := by
  have hlt := Nat.mod_lt n (order_pos (c := c))
  rw [Nat.cast_sub hlt.le, ZMod.natCast_self, ZMod.natCast_mod, zero_sub]

@[simp] theorem residue_scReduce32 : c.residue (c.scReduce32 a) = c.residue a := by
  rw [scReduce32, residue_reduce, residue]

@[simp] theorem residue_scAdd : c.residue (c.scAdd a b) = c.residue a + c.residue b := by
  rw [scAdd, residue_reduce, Nat.cast_add, residue, residue]

@[simp] theorem residue_scSub : c.residue (c.scSub a b) = c.residue a - c.residue b := by
  rw [scSub, residue_reduce, Nat.cast_add, natCast_order_sub, residue, residue, sub_eq_add_neg]

@[simp] theorem residue_scMulsub :
    c.residue (c.scMulsub a b d) = c.residue d - c.residue a * c.residue b := by
  rw [scMulsub, residue_reduce, Nat.cast_add, natCast_order_sub, Nat.cast_mul, residue, residue,
    residue, sub_eq_add_neg]

@[simp] theorem residue_scZero : c.residue scZero = 0 := by
  have hzero : value scZero = 0 := by decide
  rw [residue, hzero, Nat.cast_zero]

/-- A reduced scalar is zero exactly if its residue is. -/
theorem scIsNonzero_eq_false_iff (ha : c.scCheck a = true) :
    scIsNonzero a = false ↔ c.residue a = 0 := by
  rw [scCheck_iff] at ha
  rw [scIsNonzero, decide_eq_false_iff_not, not_not, residue, ZMod.natCast_eq_zero_iff]
  constructor
  · intro h
    rw [h]
    exact dvd_zero _
  · exact fun h => Nat.eq_zero_of_dvd_of_lt h ha

/-! ### Scalars on points -/

theorem regular_base : c.Regular c.base := by
  have h := addOrderOf_nsmul_eq_zero c.base
  rwa [c.addOrderOf_base] at h

theorem regular_hashToEc (key : Pod 32) : c.Regular (c.hashToEc key) := c.cofactor _

/-- On a regular point a scalar acts by its residue. -/
theorem Regular.mul_congr (h : c.Regular P) (hab : c.residue a = c.residue b) :
    c.mul a P = c.mul b P := by
  have hdvd : addOrderOf P ∣ c.order := addOrderOf_dvd_of_nsmul_eq_zero h
  rw [residue, residue, ZMod.natCast_eq_natCast_iff] at hab
  exact nsmul_eq_nsmul_iff_modEq.mpr (hab.of_dvd hdvd)

theorem Regular.mod_nsmul (h : c.Regular P) (n : ℕ) : (n % c.order) • P = n • P := by
  have hdvd : addOrderOf P ∣ c.order := addOrderOf_dvd_of_nsmul_eq_zero h
  exact nsmul_eq_nsmul_iff_modEq.mpr ((Nat.mod_modEq n c.order).of_dvd hdvd)

theorem Regular.order_sub_nsmul (h : c.Regular P) (n : ℕ) :
    (c.order - n % c.order) • P = -(n • P) := by
  have hlt := Nat.mod_lt n (order_pos (c := c))
  have hsum : (c.order - n % c.order) • P + (n % c.order) • P = 0 := by
    rw [← add_smul, Nat.sub_add_cancel hlt.le]
    exact h
  rw [← h.mod_nsmul n]
  exact eq_neg_of_add_eq_zero_left hsum

theorem Regular.mul_scAdd (h : c.Regular P) : c.mul (c.scAdd a b) P = c.mul a P + c.mul b P := by
  rw [Curve.mul, scAdd, value_reduce, h.mod_nsmul, add_smul, Curve.mul, Curve.mul]

theorem Regular.mul_scSub (h : c.Regular P) : c.mul (c.scSub a b) P = c.mul a P - c.mul b P := by
  rw [Curve.mul, scSub, value_reduce, h.mod_nsmul, add_smul, h.order_sub_nsmul, Curve.mul,
    Curve.mul, sub_eq_add_neg]

/-- The response `d - a * b` and `a` times the point of `b` give the point of `d`. -/
theorem Regular.mul_scMulsub (h : c.Regular P) :
    c.mul (c.scMulsub a b d) P = c.mul d P - c.mul a (c.mul b P) := by
  rw [Curve.mul, scMulsub, value_reduce, h.mod_nsmul, add_smul, h.order_sub_nsmul, mul_smul,
    sub_eq_add_neg]
  rfl

theorem mulBase_scAdd : c.mulBase (c.scAdd a b) = c.mulBase a + c.mulBase b :=
  regular_base.mul_scAdd

theorem mulBase_scMulsub :
    c.mulBase (c.scMulsub a b d) = c.mulBase d - c.mul a (c.mulBase b) :=
  regular_base.mul_scMulsub

theorem mul_comm_mul : c.mul a (c.mul b P) = c.mul b (c.mul a P) := smul_comm _ _ _

end Curve

/-! ### A small curve -/

def smallToBytes (P : ZMod 13) : Pod 32 := ⟨leBytes 32 (P.val + 1), leBytes_length _ _⟩

def smallFromBytes (key : Pod 32) : Option (ZMod 13) :=
  if 0 < value key ∧ value key ≤ 13 then some (value key - 1 : ℕ) else none

theorem smallFromBytes_smallToBytes : ∀ P, smallFromBytes (smallToBytes P) = some P := by
  decide +kernel

/-- The residues of thirteen, which is prime, with a hash that can be computed at once. -/
def smallCurve : Curve where
  Point := ZMod 13
  group := inferInstance
  base := 1
  order := 13
  one_lt_order := by decide
  order_le := by decide
  addOrderOf_base := ZMod.addOrderOf_one 13
  cofactor := by decide
  toBytes := smallToBytes
  fromBytes := smallFromBytes
  fromBytes_toBytes := smallFromBytes_smallToBytes
  toBytes_zero := by decide
  fromFe key := (value key : ℕ)
  cnFastHash data :=
    ⟨leBytes 32 (data.foldl (fun n b => 3 * n + b.toNat) 5 % 11 + 1), leBytes_length _ _⟩

def smallKey (n : ℕ) : Pod 32 := smallToBytes n

theorem isSome_fromBytes_smallKey (n : ℕ) : (smallCurve.fromBytes (smallKey n)).isSome = true := by
  rw [smallKey]
  exact Option.isSome_iff_exists.mpr ⟨_, smallCurve.fromBytes_toBytes _⟩

end XrCoin.Crypto

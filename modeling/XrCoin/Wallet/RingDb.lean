import XrCoin.Archive.Varint
import XrCoin.Blockchain.ScanTable
import XrCoin.Cryptonote.ExtraFields
import XrCoin.Data.KeyedTable
import XrCoin.Data.Runs
import XrCoin.Data.Throwing

/-!
The database of the rings that were used for a key image.

A ring is stored as differences, as numbers of varying length one after the other, and encrypted; so
is the key image it is stored for. The cipher and the hash are parameters, and the table is a map
whose keys are compared by their first 32 bytes.
-/

namespace XrCoin.Wallet

open Archive Blockchain Cryptonote Data

/-! ### Keys of the table -/

/-- The `n`th `uint32_t` of some bytes. -/
def wordAt (s : List UInt8) (n : ℕ) : ℕ :=
  (s.getD (4 * n) 0).toNat + 2 ^ 8 * (s.getD (4 * n + 1) 0).toNat +
    2 ^ 16 * (s.getD (4 * n + 2) 0).toNat + 2 ^ 24 * (s.getD (4 * n + 3) 0).toNat

def compareWords (a b : List UInt8) : ℕ → Ordering
  | 0 => .eq
  | n + 1 =>
      if wordAt a n = wordAt b n then compareWords a b n
      else if wordAt a n < wordAt b n then .lt else .gt

def compareHash32 (a b : List UInt8) : Ordering := compareWords a b 8

def SameKey (a b : List UInt8) : Prop := compareHash32 a b = .eq

instance : DecidableRel SameKey := fun _ _ => inferInstanceAs (Decidable (_ = _))

abbrev Rings : Type := KeyedTable (List UInt8) (List UInt8)

/-! ### Rings as bytes -/

def compressRing (ring : List UInt64) : List UInt8 := ring.flatMap fun out => writeVarint out.toNat

/-- The loop of `decompress_ring`. A turn that goes on takes a byte at least, so that there are at
most as many turns as bytes. -/
def decompressLoop : ℕ → List UInt8 → List UInt64 → Except String (List UInt64)
  | _, [], ring => .ok ring
  | 0, _ :: _, ring => .ok ring
  | fuel + 1, b :: s, ring => do
      let r := readVarint 64 (b :: s)
      throwIf (r.code ≤ 0 ∨ 256 < r.code) "Internal error decompressing ring"
      decompressLoop fuel ((b :: s).drop r.code.toNat) (ring ++ [UInt64.ofNat r.value])

def decompressRing (s : List UInt8) : Except String (List UInt64) := decompressLoop s.length s []

/-- The loop of `absolute_output_offsets_to_relative`. It runs from the back, so that each offset
takes away the one before it as it was. -/
def differences : UInt64 → List UInt64 → List UInt64
  | _, [] => []
  | last, offset :: offsets => (offset - last) :: differences offset offsets

def absoluteOutputOffsetsToRelative (off : List UInt64) : List UInt64 :=
  differences 0 (off.insertionSort (· ≤ ·))

/-! ### Encryption -/

structure RingCrypto where
  cnFastHash : List UInt8 → Hash
  chacha20 : SecretKey → List UInt8 → List UInt8 → List UInt8

def ringSalt : List UInt8 := [114, 105, 110, 103, 100, 115, 98, 0]

section

variable (crypto : RingCrypto) (chachaKey : SecretKey)

def makeIv (keyImage : KeyImage) : List UInt8 :=
  (crypto.cnFastHash (keyImage.toList ++ chachaKey.toList ++ ringSalt)).toList.take 8

def encrypt (plaintext : List UInt8) (keyImage : KeyImage) : List UInt8 :=
  let iv := makeIv crypto chachaKey keyImage
  iv ++ crypto.chacha20 chachaKey iv plaintext

def encryptKeyImage (keyImage : KeyImage) : List UInt8 :=
  encrypt crypto chachaKey keyImage.toList keyImage

def decrypt (ciphertext : List UInt8) (keyImage : KeyImage) : Except String (List UInt8) := do
  throwIf (ciphertext.length < 8) "Bad ciphertext text"
  .ok (crypto.chacha20 chachaKey (makeIv crypto chachaKey keyImage) (ciphertext.drop 8))

/-! ### The calls -/

def storeRelativeRing (rings : Rings) (keyImage : KeyImage) (relativeRing : List UInt64) : Rings :=
  KeyedTable.put SameKey rings (encryptKeyImage crypto chachaKey keyImage)
    (encrypt crypto chachaKey (compressRing relativeRing) keyImage)

def ringSize (keyOffsets : StdVector UInt64) : UInt32 := UInt32.ofNat keyOffsets.toList.length

def addRing (rings : Rings) : Txin → Rings
  | .toKey _ keyOffsets kImage =>
      if ringSize keyOffsets = 1 then rings
      else storeRelativeRing crypto chachaKey rings kImage keyOffsets.toList
  | _ => rings

def addRings (rings : Rings) (vin : List Txin) : Rings := vin.foldl (addRing crypto chachaKey) rings

def removeRing (rings : Rings) : Txin → Except String Rings
  | .toKey _ keyOffsets kImage =>
      if ringSize keyOffsets = 1 then .ok rings
      else
        match KeyedTable.get SameKey rings (encryptKeyImage crypto chachaKey kImage) with
        | none => .ok rings
        | some data => do
            throwIf (data.length ≤ 0) "Invalid ring data size"
            .ok (KeyedTable.del SameKey rings (encryptKeyImage crypto chachaKey kImage))
  | _ => .ok rings

def removeRings (rings : Rings) (vin : List Txin) : Except String Rings :=
  vin.foldlM (removeRing crypto chachaKey) rings

def setRing (rings : Rings) (keyImage : KeyImage) (outs : List UInt64) (relative : Bool) : Rings :=
  storeRelativeRing crypto chachaKey rings keyImage
    (if relative then outs else absoluteOutputOffsetsToRelative outs)

/-- `get_ring`, with nothing where it returns `false`. -/
def getRing (rings : Rings) (keyImage : KeyImage) : Except String (Option (List UInt64)) :=
  match KeyedTable.get SameKey rings (encryptKeyImage crypto chachaKey keyImage) with
  | none => .ok none
  | some data => do
      throwIf (data.length ≤ 0) "Invalid ring data size"
      let plaintext ← decrypt crypto chachaKey data keyImage
      let outs ← decompressRing plaintext
      .ok (some (relativeOutputOffsetsToAbsolute outs))

end

inductive RingCall
  | setRing (keyImage : KeyImage) (outs : List UInt64) (relative : Bool)
  | addRings (vin : List Txin)
  | removeRings (vin : List Txin)

section

variable (crypto : RingCrypto) (chachaKey : SecretKey)

/-- The table after a call. A call that throws aborts its transaction. -/
def ringStep (rings : Rings) : RingCall → Rings
  | .setRing keyImage outs relative => setRing crypto chachaKey rings keyImage outs relative
  | .addRings vin => addRings crypto chachaKey rings vin
  | .removeRings vin =>
      match removeRings crypto chachaKey rings vin with
      | .ok rings' => rings'
      | .error _ => rings

end

/-! ### What is meant -/

def absoluteRing (outs : List UInt64) (relative : Bool) : List ℕ :=
  if relative then ((outs.map UInt64.toNat).scanl (· + ·) 0).tail
  else (outs.map UInt64.toNat).insertionSort (· ≤ ·)

/-- What an input does to the ring of a key image, where a call stores the rings of its inputs or
removes them. A ring of size 1 is ignored. -/
def inputEffects (keyImage : KeyImage) (stores : Bool) : Txin → List (Option (List ℕ))
  | .toKey _ keyOffsets kImage =>
      if kImage = keyImage ∧ keyOffsets.toList.length ≠ 1 then
        [if stores then some (absoluteRing keyOffsets.toList true) else none]
      else []
  | _ => []

def ringEffects (keyImage : KeyImage) : RingCall → List (Option (List ℕ))
  | .setRing kImage outs relative =>
      if kImage = keyImage then [some (absoluteRing outs relative)] else []
  | .addRings vin => vin.flatMap (inputEffects keyImage true)
  | .removeRings vin => vin.flatMap (inputEffects keyImage false)

def afterEffects (ring : Option (List ℕ)) (effects : List (Option (List ℕ))) : Option (List ℕ) :=
  effects.foldl (fun _ effect => effect) ring

/-- The last ring that was stored for a key image and not removed since. -/
def lastRing (calls : List RingCall) (keyImage : KeyImage) : Option (List ℕ) :=
  afterEffects none (calls.flatMap (ringEffects keyImage))

/-! ### Comparing keys -/

theorem compareWords_eq_iff {a b : List UInt8} {n : ℕ} :
    compareWords a b n = .eq ↔ ∀ i < n, wordAt a i = wordAt b i := by
  induction n with
  | zero => simp [compareWords]
  | succ n ih =>
      rw [compareWords]
      split_ifs with heq hlt
      · rw [ih, Nat.forall_lt_succ_right]
        exact (and_iff_left heq).symm
      · exact iff_of_false (by simp) fun h => heq (h n (Nat.lt_succ_self n))
      · exact iff_of_false (by simp) fun h => heq (h n (Nat.lt_succ_self n))

theorem sameKey_iff {a b : List UInt8} : SameKey a b ↔ ∀ i < 8, wordAt a i = wordAt b i :=
  compareWords_eq_iff

theorem equivalence_sameKey : Equivalence SameKey := by
  refine ⟨fun a => ?_, fun h => ?_, fun h h' => ?_⟩
  · exact sameKey_iff.mpr fun _ _ => rfl
  · exact sameKey_iff.mpr fun i hi => (sameKey_iff.mp h i hi).symm
  · exact sameKey_iff.mpr fun i hi => (sameKey_iff.mp h i hi).trans (sameKey_iff.mp h' i hi)

/-- Keys that are as long as what is compared are told apart by these bytes. -/
theorem SameKey.take_eq {a b : List UInt8} (h : SameKey a b) (ha : 32 ≤ a.length)
    (hb : 32 ≤ b.length) : a.take 32 = b.take 32 := by
  have hbyte : ∀ i < 32, a.getD i 0 = b.getD i 0 := by
    intro i hi
    have hword := sameKey_iff.mp h (i / 4) (by omega)
    rw [wordAt, wordAt] at hword
    have hsame {j : ℕ} (hj : (a.getD j 0).toNat = (b.getD j 0).toNat) :
        a.getD j 0 = b.getD j 0 := UInt8.toNat_inj.mp hj
    have hlt (s : List UInt8) (j : ℕ) : (s.getD j 0).toNat < 2 ^ 8 := (s.getD j 0).toNat_lt
    have ha₀ := hlt a (4 * (i / 4))
    have ha₁ := hlt a (4 * (i / 4) + 1)
    have ha₂ := hlt a (4 * (i / 4) + 2)
    have hb₀ := hlt b (4 * (i / 4))
    have hb₁ := hlt b (4 * (i / 4) + 1)
    have hb₂ := hlt b (4 * (i / 4) + 2)
    obtain hi | hi | hi | hi : i = 4 * (i / 4) ∨ i = 4 * (i / 4) + 1 ∨ i = 4 * (i / 4) + 2 ∨
        i = 4 * (i / 4) + 3 := by omega
    all_goals
      rw [hi]
      apply hsame
      omega
  apply List.ext_getElem?
  intro i
  rw [List.getElem?_take, List.getElem?_take]
  split_ifs with hi
  · have hget := hbyte i hi
    rw [List.getD_eq_getElem _ _ (by omega), List.getD_eq_getElem _ _ (by omega)] at hget
    rw [List.getElem?_eq_getElem (by omega), List.getElem?_eq_getElem (by omega), hget]
  · rfl

/-! ### Rings and bytes -/

theorem decompressLoop_compressRing {ring : List UInt64} {fuel : ℕ}
    (hfuel : (compressRing ring).length ≤ fuel) (done : List UInt64) :
    decompressLoop fuel (compressRing ring) done = .ok (done ++ ring) := by
  induction ring generalizing fuel done with
  | nil => simp [compressRing, decompressLoop]
  | cons out ring ih =>
      have hread := readVarint_writeVarint (by decide) out.toNat_lt (compressRing ring)
      have hpos := writeVarint_length_pos out.toNat
      have hshort : (writeVarint out.toNat).length ≤ 10 :=
        writeVarint_length_le 9 (out.toNat_lt.trans (by decide))
      have hcons : compressRing (out :: ring) = writeVarint out.toNat ++ compressRing ring := by
        rw [compressRing, List.flatMap_cons, compressRing]
      rw [hcons, List.length_append] at hfuel
      cases fuel with
      | zero => omega
      | succ fuel =>
          obtain ⟨b, s, hbytes⟩ : ∃ b s, compressRing (out :: ring) = b :: s :=
            List.exists_cons_of_ne_nil fun hnil => by
              rw [hcons, List.append_eq_nil_iff] at hnil
              rw [hnil.1] at hpos
              exact absurd hpos (by decide)
          have hgood : ¬((readVarint 64 (b :: s)).code ≤ 0 ∨ 256 < (readVarint 64 (b :: s)).code) := by
            rw [← hbytes, hcons, hread]
            simp only
            omega
          have hrest : (b :: s).drop (readVarint 64 (b :: s)).code.toNat = compressRing ring := by
            rw [← hbytes, hcons, hread]
            exact List.drop_left' (Int.toNat_natCast _).symm
          have hvalue : UInt64.ofNat (readVarint 64 (b :: s)).value = out := by
            rw [← hbytes, hcons, hread]
            exact UInt64.ofNat_toNat
          rw [hbytes, decompressLoop, throwIf, if_neg hgood, hrest, hvalue]
          change decompressLoop fuel (compressRing ring) (done ++ [out]) = _
          rw [ih (by omega), List.append_assoc, List.singleton_append]

theorem decompressRing_compressRing (ring : List UInt64) :
    decompressRing (compressRing ring) = .ok ring := by
  rw [decompressRing, decompressLoop_compressRing (Nat.le_refl _), List.nil_append]

/-! ### Relative and absolute offsets -/

theorem addUpOffsets_differences (last : UInt64) (offsets : List UInt64) :
    addUpOffsets last (differences last offsets) = offsets := by
  induction offsets generalizing last with
  | nil => rfl
  | cons offset offsets ih =>
      have hsum : last + (offset - last) = offset := by
        rw [UInt64.add_comm, UInt64.sub_add_cancel]
      rw [differences, addUpOffsets, hsum, ih]

theorem map_toNat_addUpOffsets {last : UInt64} {offsets : List UInt64}
    (h : last.toNat + (offsets.map UInt64.toNat).sum < 2 ^ 64) :
    (addUpOffsets last offsets).map UInt64.toNat =
      ((offsets.map UInt64.toNat).scanl (· + ·) last.toNat).tail := by
  induction offsets generalizing last with
  | nil => rfl
  | cons offset offsets ih =>
      rw [List.map_cons, List.sum_cons] at h
      have hnext : (last + offset).toNat = last.toNat + offset.toNat := by
        rw [UInt64.toNat_add, Nat.mod_eq_of_lt (by omega)]
      have hrest := @ih (last + offset) (by omega)
      rw [addUpOffsets, List.map_cons, List.map_cons, List.scanl_cons, List.tail_cons, hrest, hnext]
      cases offsets.map UInt64.toNat <;> simp

theorem relativeOutputOffsetsToAbsolute_set (outs : List UInt64) (relative : Bool)
    (h : relative = true → (outs.map UInt64.toNat).sum < 2 ^ 64) :
    (relativeOutputOffsetsToAbsolute
        (if relative then outs else absoluteOutputOffsetsToRelative outs)).map UInt64.toNat =
      absoluteRing outs relative := by
  cases relative with
  | true =>
      have hsum := h rfl
      exact map_toNat_addUpOffsets (by simpa using hsum)
  | false =>
      change (relativeOutputOffsetsToAbsolute (differences 0 _)).map UInt64.toNat = _
      rw [relativeOutputOffsetsToAbsolute, addUpOffsets_differences]
      exact List.map_insertionSort _ _ _ _ fun a _ b _ => UInt64.le_iff_toNat_le

theorem absoluteRing_pairwise (outs : List UInt64) (relative : Bool) :
    (absoluteRing outs relative).Pairwise (· ≤ ·) := by
  cases relative with
  | true =>
      suffices h : ∀ (offsets : List ℕ) last, (offsets.scanl (· + ·) last).Pairwise (· ≤ ·) ∧
          ∀ n ∈ offsets.scanl (· + ·) last, last ≤ n from (h _ 0).1.tail
      intro offsets
      induction offsets with
      | nil => simp
      | cons offset offsets ih =>
          intro last
          obtain ⟨hsorted, hle⟩ := ih (last + offset)
          have hlater : ∀ n ∈ offsets.scanl (· + ·) (last + offset), last ≤ n := fun n hn =>
            (Nat.le_add_right _ _).trans (hle n hn)
          rw [List.scanl_cons]
          refine ⟨List.pairwise_cons.mpr ⟨hlater, hsorted⟩, ?_⟩
          rw [List.forall_mem_cons]
          exact ⟨Nat.le_refl _, hlater⟩
  | false => exact List.pairwise_insertionSort _ _

/-! ### What is assumed -/

/-- The cipher undoes itself and keeps the length, and no two key images are taken for the same
one by the table. -/
structure RingCrypto.Lawful (crypto : RingCrypto) (chachaKey : SecretKey) : Prop where
  involutive : ∀ iv s, crypto.chacha20 chachaKey iv (crypto.chacha20 chachaKey iv s) = s
  length : ∀ iv s, (crypto.chacha20 chachaKey iv s).length = s.length
  distinct : ∀ k k', (encryptKeyImage crypto chachaKey k).take 32 =
    (encryptKeyImage crypto chachaKey k').take 32 → k = k'

section

variable {crypto : RingCrypto} {chachaKey : SecretKey}

@[simp] theorem length_makeIv (keyImage : KeyImage) :
    (makeIv crypto chachaKey keyImage).length = 8 := by
  rw [makeIv, List.length_take, List.Vector.toList_length]
  rfl

theorem RingCrypto.Lawful.length_encrypt (h : crypto.Lawful chachaKey) (plaintext : List UInt8)
    (keyImage : KeyImage) :
    (encrypt crypto chachaKey plaintext keyImage).length = 8 + plaintext.length := by
  rw [encrypt, List.length_append, length_makeIv, h.length]

theorem RingCrypto.Lawful.decrypt_encrypt (h : crypto.Lawful chachaKey) (plaintext : List UInt8)
    (keyImage : KeyImage) :
    decrypt crypto chachaKey (encrypt crypto chachaKey plaintext keyImage) keyImage =
      .ok plaintext := by
  have hlong : ¬(encrypt crypto chachaKey plaintext keyImage).length < 8 := by
    rw [h.length_encrypt]
    omega
  have hdrop : (encrypt crypto chachaKey plaintext keyImage).drop 8 =
      crypto.chacha20 chachaKey (makeIv crypto chachaKey keyImage) plaintext :=
    List.drop_left' (length_makeIv keyImage)
  rw [decrypt, throwIf, if_neg hlong, hdrop, h.involutive]
  rfl

theorem RingCrypto.Lawful.sameKey_iff (h : crypto.Lawful chachaKey) {k k' : KeyImage} :
    SameKey (encryptKeyImage crypto chachaKey k) (encryptKeyImage crypto chachaKey k') ↔
      k = k' := by
  have hlong (k : KeyImage) : 32 ≤ (encryptKeyImage crypto chachaKey k).length := by
    rw [encryptKeyImage, h.length_encrypt, List.Vector.toList_length]
    omega
  constructor
  · intro hsame
    exact h.distinct k k' (hsame.take_eq (hlong k) (hlong k'))
  · rintro rfl
    exact equivalence_sameKey.refl _

/-! ### What the table holds -/

/-- What stands in the table for a key image. -/
def Holds (crypto : RingCrypto) (chachaKey : SecretKey) (rings : Rings) (keyImage : KeyImage)
    (ring : Option (List ℕ)) : Prop :=
  match ring with
  | none => KeyedTable.get SameKey rings (encryptKeyImage crypto chachaKey keyImage) = none
  | some offsets => ∃ relativeRing,
      KeyedTable.get SameKey rings (encryptKeyImage crypto chachaKey keyImage) =
        some (encrypt crypto chachaKey (compressRing relativeRing) keyImage) ∧
      (relativeOutputOffsetsToAbsolute relativeRing).map UInt64.toNat = offsets

theorem Holds.getRing_eq (hlawful : crypto.Lawful chachaKey) {rings : Rings} {keyImage : KeyImage}
    {ring : Option (List ℕ)} (h : Holds crypto chachaKey rings keyImage ring) :
    (getRing crypto chachaKey rings keyImage).map (Option.map (List.map UInt64.toNat)) =
      .ok ring := by
  cases ring with
  | none =>
      rw [Holds] at h
      rw [getRing, h]
      rfl
  | some offsets =>
      obtain ⟨relativeRing, hget, rfl⟩ := h
      have hlong : ¬(encrypt crypto chachaKey (compressRing relativeRing) keyImage).length ≤ 0 := by
        rw [hlawful.length_encrypt]
        omega
      rw [getRing, hget]
      simp only [throwIf, if_neg hlong, hlawful.decrypt_encrypt, bind, Except.bind,
        decompressRing_compressRing]
      rfl

/-- Only the entries of the key image matter. -/
theorem Holds.of_get_eq {rings rings' : Rings} {keyImage : KeyImage} {ring : Option (List ℕ)}
    (h : Holds crypto chachaKey rings keyImage ring)
    (hget : KeyedTable.get SameKey rings' (encryptKeyImage crypto chachaKey keyImage) =
      KeyedTable.get SameKey rings (encryptKeyImage crypto chachaKey keyImage)) :
    Holds crypto chachaKey rings' keyImage ring := by
  cases ring with
  | none => exact hget.trans h
  | some offsets =>
      obtain ⟨relativeRing, hstored, hoffsets⟩ := h
      exact ⟨relativeRing, hget.trans hstored, hoffsets⟩

theorem holds_nil (keyImage : KeyImage) : Holds crypto chachaKey [] keyImage none := rfl

theorem holds_storeRelativeRing (hlawful : crypto.Lawful chachaKey) {rings : Rings}
    {keyImage kImage : KeyImage} {ring : Option (List ℕ)}
    (h : Holds crypto chachaKey rings keyImage ring) (relativeRing : List UInt64) :
    Holds crypto chachaKey (storeRelativeRing crypto chachaKey rings kImage relativeRing) keyImage
      (if kImage = keyImage then
        some ((relativeOutputOffsetsToAbsolute relativeRing).map UInt64.toNat) else ring) := by
  split_ifs with heq
  · subst heq
    exact ⟨relativeRing, KeyedTable.get_put_of_same (hlawful.sameKey_iff.mpr rfl) _, rfl⟩
  · apply h.of_get_eq
    exact KeyedTable.get_put_of_not_same equivalence_sameKey (mt hlawful.sameKey_iff.mp heq) _

/-! ### The calls -/

/-- The sum of the offsets of a ring has room in 64 bits. -/
def OffsetsFit (outs : List UInt64) : Prop := (outs.map UInt64.toNat).sum < 2 ^ 64

/-- The rings of a call have absolute offsets below `2 ^ 64`. -/
def RingCall.Fits : RingCall → Prop
  | .setRing _ outs relative => relative = true → OffsetsFit outs
  | .addRings vin => ∀ amount keyOffsets kImage, Txin.toKey amount keyOffsets kImage ∈ vin →
      OffsetsFit keyOffsets.toList
  | .removeRings _ => True

/-- A ring that counts as one of size 1 in 32 bits is one. -/
def SizeFits (keyOffsets : StdVector UInt64) : Prop :=
  keyOffsets.toList.length % 2 ^ 32 = 1 → keyOffsets.toList.length = 1

/-- The rings of a call keep their size in 32 bits, or at least do not become rings of size 1. -/
def RingCall.SizesFit : RingCall → Prop
  | .setRing _ _ _ => True
  | .addRings vin | .removeRings vin => ∀ amount keyOffsets kImage,
      Txin.toKey amount keyOffsets kImage ∈ vin → SizeFits keyOffsets

theorem ringSize_eq_one_iff {keyOffsets : StdVector UInt64} (h : SizeFits keyOffsets) :
    ringSize keyOffsets = 1 ↔ keyOffsets.toList.length = 1 := by
  have hnat : ringSize keyOffsets = 1 ↔ keyOffsets.toList.length % 2 ^ 32 = 1 := by
    rw [ringSize, ← UInt32.toNat_inj, UInt32.toNat_ofNat']
    rfl
  rw [hnat]
  constructor
  · exact h
  · intro hone
    rw [hone]
    rfl

theorem holds_addRing (hlawful : crypto.Lawful chachaKey) {rings : Rings} {keyImage : KeyImage}
    {ring : Option (List ℕ)} (h : Holds crypto chachaKey rings keyImage ring) {txin : Txin}
    (hfits : ∀ amount keyOffsets kImage, txin = Txin.toKey amount keyOffsets kImage →
      OffsetsFit keyOffsets.toList ∧ SizeFits keyOffsets) :
    Holds crypto chachaKey (addRing crypto chachaKey rings txin) keyImage
      (afterEffects ring (inputEffects keyImage true txin)) := by
  cases txin with
  | toKey amount keyOffsets kImage =>
      obtain ⟨hoffsets, hsize⟩ := hfits _ _ _ rfl
      have hset := relativeOutputOffsetsToAbsolute_set keyOffsets.toList true fun _ => hoffsets
      have hstored := @holds_storeRelativeRing _ _ hlawful _ _ kImage _ h keyOffsets.toList
      rw [if_pos rfl] at hset
      rw [addRing, inputEffects]
      by_cases hone : keyOffsets.toList.length = 1
      · rw [if_pos ((ringSize_eq_one_iff hsize).mpr hone), if_neg (fun hboth => hboth.2 hone)]
        exact h
      rw [if_neg (mt (ringSize_eq_one_iff hsize).mp hone)]
      by_cases heq : kImage = keyImage
      · rw [if_pos ⟨heq, hone⟩]
        rw [if_pos heq, hset] at hstored
        exact hstored
      · rw [if_neg (fun hboth => heq hboth.1)]
        rw [if_neg heq] at hstored
        exact hstored
  | gen height => exact h
  | toScript prev prevout sigset => exact h
  | toScriptHash prev prevout script sigset => exact h

theorem holds_removeRing (hlawful : crypto.Lawful chachaKey) {rings : Rings}
    {held : KeyImage → Option (List ℕ)}
    (h : ∀ keyImage, Holds crypto chachaKey rings keyImage (held keyImage)) {txin : Txin}
    (hfits : ∀ amount keyOffsets kImage, txin = Txin.toKey amount keyOffsets kImage →
      SizeFits keyOffsets) :
    ∃ rings', removeRing crypto chachaKey rings txin = .ok rings' ∧
      ∀ keyImage, Holds crypto chachaKey rings' keyImage
        (afterEffects (held keyImage) (inputEffects keyImage false txin)) := by
  cases txin with
  | toKey amount keyOffsets kImage =>
      have hsize := hfits _ _ _ rfl
      rw [removeRing]
      by_cases hone : keyOffsets.toList.length = 1
      · rw [if_pos ((ringSize_eq_one_iff hsize).mpr hone)]
        refine ⟨rings, rfl, fun keyImage => ?_⟩
        rw [inputEffects, if_neg (fun hboth => hboth.2 hone)]
        exact h keyImage
      rw [if_neg (mt (ringSize_eq_one_iff hsize).mp hone)]
      cases hget : KeyedTable.get SameKey rings (encryptKeyImage crypto chachaKey kImage) with
      | none =>
          refine ⟨rings, rfl, fun keyImage => ?_⟩
          rw [inputEffects]
          by_cases heq : kImage = keyImage
          · rw [if_pos ⟨heq, hone⟩, ← heq]
            exact hget
          · rw [if_neg (fun hboth => heq hboth.1)]
            exact h keyImage
      | some data =>
          have hlong : ¬data.length ≤ 0 := by
            have hheld := h kImage
            cases hring : held kImage with
            | none =>
                rw [hring, Holds, hget] at hheld
                cases hheld
            | some offsets =>
                rw [hring] at hheld
                obtain ⟨relativeRing, hstored, -⟩ := hheld
                rw [hget] at hstored
                rw [Option.some.inj hstored, hlawful.length_encrypt]
                omega
          refine ⟨KeyedTable.del SameKey rings (encryptKeyImage crypto chachaKey kImage), ?_,
            fun keyImage => ?_⟩
          · simp only [throwIf, if_neg hlong]
            rfl
          · rw [inputEffects]
            by_cases heq : kImage = keyImage
            · rw [if_pos ⟨heq, hone⟩]
              exact KeyedTable.get_del_of_same equivalence_sameKey (hlawful.sameKey_iff.mpr heq)
            · rw [if_neg (fun hboth => heq hboth.1)]
              apply (h keyImage).of_get_eq
              exact KeyedTable.get_del_of_not_same equivalence_sameKey
                (mt hlawful.sameKey_iff.mp heq)
  | gen height => exact ⟨rings, rfl, h⟩
  | toScript prev prevout sigset => exact ⟨rings, rfl, h⟩
  | toScriptHash prev prevout script sigset => exact ⟨rings, rfl, h⟩

@[simp] theorem afterEffects_append (ring : Option (List ℕ)) (effects effects' : List _) :
    afterEffects ring (effects ++ effects') = afterEffects (afterEffects ring effects) effects' :=
  List.foldl_append

theorem holds_addRings (hlawful : crypto.Lawful chachaKey) {vin : List Txin} {rings : Rings}
    {keyImage : KeyImage} {ring : Option (List ℕ)}
    (h : Holds crypto chachaKey rings keyImage ring)
    (hfits : (RingCall.addRings vin).Fits) (hsizes : (RingCall.addRings vin).SizesFit) :
    Holds crypto chachaKey (addRings crypto chachaKey rings vin) keyImage
      (afterEffects ring (ringEffects keyImage (.addRings vin))) := by
  rw [ringEffects]
  induction vin generalizing rings ring with
  | nil => exact h
  | cons txin vin ih =>
      rw [List.flatMap_cons, afterEffects_append]
      apply ih
      · apply holds_addRing hlawful h
        rintro amount keyOffsets kImage rfl
        exact ⟨hfits _ _ _ List.mem_cons_self, hsizes _ _ _ List.mem_cons_self⟩
      · exact fun _ _ _ hmem => hfits _ _ _ (List.mem_cons_of_mem _ hmem)
      · exact fun _ _ _ hmem => hsizes _ _ _ (List.mem_cons_of_mem _ hmem)

theorem holds_removeRings (hlawful : crypto.Lawful chachaKey) {vin : List Txin} {rings : Rings}
    {held : KeyImage → Option (List ℕ)}
    (h : ∀ keyImage, Holds crypto chachaKey rings keyImage (held keyImage))
    (hsizes : (RingCall.removeRings vin).SizesFit) :
    ∃ rings', removeRings crypto chachaKey rings vin = .ok rings' ∧
      ∀ keyImage, Holds crypto chachaKey rings' keyImage
        (afterEffects (held keyImage) (ringEffects keyImage (.removeRings vin))) := by
  simp only [ringEffects]
  induction vin generalizing rings held with
  | nil => exact ⟨rings, rfl, h⟩
  | cons txin vin ih =>
      have hsize : ∀ amount keyOffsets kImage, txin = Txin.toKey amount keyOffsets kImage →
          SizeFits keyOffsets := by
        rintro amount keyOffsets kImage rfl
        exact hsizes _ _ _ List.mem_cons_self
      obtain ⟨rings', hremove, h'⟩ := holds_removeRing hlawful h hsize
      obtain ⟨rings₂, hrest, h₂⟩ := ih h' fun _ _ _ hmem => hsizes _ _ _ (List.mem_cons_of_mem _ hmem)
      refine ⟨rings₂, ?_, fun keyImage => ?_⟩
      · rw [removeRings, List.foldlM_cons, hremove]
        exact hrest
      · rw [List.flatMap_cons, afterEffects_append]
        exact h₂ keyImage

theorem holds_ringStep (hlawful : crypto.Lawful chachaKey) {rings : Rings}
    {held : KeyImage → Option (List ℕ)}
    (h : ∀ keyImage, Holds crypto chachaKey rings keyImage (held keyImage)) {call : RingCall}
    (hfits : call.Fits) (hsizes : call.SizesFit) (keyImage : KeyImage) :
    Holds crypto chachaKey (ringStep crypto chachaKey rings call) keyImage
      (afterEffects (held keyImage) (ringEffects keyImage call)) := by
  cases call with
  | setRing kImage outs relative =>
      have hstored := @holds_storeRelativeRing _ _ hlawful _ _ kImage _ (h keyImage)
        (if relative then outs else absoluteOutputOffsetsToRelative outs)
      rw [relativeOutputOffsetsToAbsolute_set outs relative hfits] at hstored
      rw [ringEffects]
      by_cases heq : kImage = keyImage
      · rw [if_pos heq] at hstored ⊢
        exact hstored
      · rw [if_neg heq] at hstored ⊢
        exact hstored
  | addRings vin => exact holds_addRings hlawful (h keyImage) hfits hsizes
  | removeRings vin =>
      obtain ⟨rings', hremove, h'⟩ := holds_removeRings hlawful h hsizes
      rw [ringStep, hremove]
      exact h' keyImage

theorem holds_run (hlawful : crypto.Lawful chachaKey) {calls : List RingCall}
    (hfits : ∀ call ∈ calls, call.Fits) (hsizes : ∀ call ∈ calls, call.SizesFit)
    (keyImage : KeyImage) :
    Holds crypto chachaKey (run (ringStep crypto chachaKey) [] calls) keyImage
      (lastRing calls keyImage) := by
  induction calls using List.reverseRecOn generalizing keyImage with
  | nil => exact holds_nil keyImage
  | append_singleton calls call ih =>
      rw [List.forall_mem_append] at hfits hsizes
      have hstep := holds_ringStep hlawful (ih hfits.1 hsizes.1)
        (hfits.2 call (List.mem_singleton.mpr rfl)) (hsizes.2 call (List.mem_singleton.mpr rfl))
        keyImage
      rw [run_concat, lastRing, List.flatMap_append, afterEffects_append, List.flatMap_singleton]
      exact hstep

theorem mem_of_afterEffects {effects : List (Option (List ℕ))} {ring : List ℕ}
    (h : afterEffects none effects = some ring) : some ring ∈ effects := by
  induction effects using List.reverseRecOn with
  | nil => cases h
  | append_singleton effects effect _ =>
      rw [afterEffects_append] at h
      exact List.mem_append_right _ (List.mem_singleton.mpr h.symm)

theorem pairwise_of_mem_inputEffects {keyImage : KeyImage} {stores : Bool} {txin : Txin}
    {ring : List ℕ} (h : some ring ∈ inputEffects keyImage stores txin) :
    ring.Pairwise (· ≤ ·) := by
  cases txin with
  | toKey amount keyOffsets kImage =>
      rw [inputEffects] at h
      by_cases hboth : kImage = keyImage ∧ keyOffsets.toList.length ≠ 1
      · rw [if_pos hboth, List.mem_singleton] at h
        cases stores with
        | false => cases h
        | true =>
            rw [Option.some.inj h]
            exact absoluteRing_pairwise _ _
      · rw [if_neg hboth] at h
        cases h
  | gen height => cases h
  | toScript prev prevout sigset => cases h
  | toScriptHash prev prevout script sigset => cases h

theorem lastRing_pairwise {calls : List RingCall} {keyImage : KeyImage} {ring : List ℕ}
    (h : lastRing calls keyImage = some ring) : ring.Pairwise (· ≤ ·) := by
  obtain ⟨call, -, hring⟩ := List.mem_flatMap.mp (mem_of_afterEffects h)
  cases call with
  | setRing kImage outs relative =>
      rw [ringEffects] at hring
      by_cases heq : kImage = keyImage
      · rw [if_pos heq, List.mem_singleton] at hring
        rw [Option.some.inj hring]
        exact absoluteRing_pairwise _ _
      · rw [if_neg heq] at hring
        cases hring
  | addRings vin =>
      obtain ⟨txin, -, hring⟩ := List.mem_flatMap.mp hring
      exact pairwise_of_mem_inputEffects hring
  | removeRings vin =>
      obtain ⟨txin, -, hring⟩ := List.mem_flatMap.mp hring
      exact pairwise_of_mem_inputEffects hring

/-- What is returned for a key image is the last ring that was stored for it and not removed since,
and a call for other key images does not change it. -/
theorem getRing_run (hlawful : crypto.Lawful chachaKey) {calls : List RingCall}
    (hfits : ∀ call ∈ calls, call.Fits) (hsizes : ∀ call ∈ calls, call.SizesFit)
    (keyImage : KeyImage) :
    (∃ outs, getRing crypto chachaKey (run (ringStep crypto chachaKey) [] calls) keyImage =
        .ok outs ∧ outs.map (List.map UInt64.toNat) = lastRing calls keyImage) ∧
      (∀ ring, lastRing calls keyImage = some ring → ring.Pairwise (· ≤ ·)) ∧
      ∀ call : RingCall, call.Fits → call.SizesFit → ringEffects keyImage call = [] →
        getRing crypto chachaKey (run (ringStep crypto chachaKey) [] (calls ++ [call])) keyImage =
          getRing crypto chachaKey (run (ringStep crypto chachaKey) [] calls) keyImage := by
  have hget {calls : List RingCall} (hfits : ∀ call ∈ calls, call.Fits)
      (hsizes : ∀ call ∈ calls, call.SizesFit) :
      ∃ outs, getRing crypto chachaKey (run (ringStep crypto chachaKey) [] calls) keyImage =
        .ok outs ∧ outs.map (List.map UInt64.toNat) = lastRing calls keyImage := by
    have hmap := (holds_run hlawful hfits hsizes keyImage).getRing_eq hlawful
    cases hring : getRing crypto chachaKey (run (ringStep crypto chachaKey) [] calls) keyImage with
    | error e =>
        rw [hring] at hmap
        cases hmap
    | ok outs =>
        rw [hring] at hmap
        exact ⟨outs, rfl, Except.ok.inj hmap⟩
  refine ⟨hget hfits hsizes, fun ring hring => lastRing_pairwise hring, ?_⟩
  intro call hcallFits hcallSizes hnone
  have hsame : lastRing (calls ++ [call]) keyImage = lastRing calls keyImage := by
    rw [lastRing, lastRing, List.flatMap_append, List.flatMap_singleton, hnone, List.append_nil]
  obtain ⟨outs, houts, hmap⟩ := hget hfits hsizes
  obtain ⟨outs', houts', hmap'⟩ := @hget (calls ++ [call])
    (List.forall_mem_append.mpr ⟨hfits, List.forall_mem_singleton.mpr hcallFits⟩)
    (List.forall_mem_append.mpr ⟨hsizes, List.forall_mem_singleton.mpr hcallSizes⟩)
  have hinjective : Function.Injective (Option.map (List.map UInt64.toNat)) :=
    Option.map_injective (List.map_injective_iff.mpr fun _ _ heq => UInt64.toNat_inj.mp heq)
  rw [houts, houts', hinjective (hmap'.trans (hsame.trans hmap.symm))]

end

/-! ### A table of rings -/

/-- A cipher by exclusive or, with an iv from the end of the key image. -/
def sampleRingCrypto : RingCrypto :=
  { cnFastHash := fun buffer =>
      ⟨((buffer.drop 24).take 8 ++ List.replicate 32 0).take 32, by
        rw [List.length_take, List.length_append, List.length_replicate]
        omega⟩
    chacha20 := fun _ iv s => s.map (· ^^^ iv.headD 0) }

def sampleChachaKey : SecretKey := List.Vector.replicate 32 1

theorem makeIv_sample (keyImage : KeyImage) :
    makeIv sampleRingCrypto sampleChachaKey keyImage = keyImage.toList.drop 24 := by
  have hlength := keyImage.toList_length
  have hbuffer : ((keyImage.toList ++ sampleChachaKey.toList ++ ringSalt).drop 24).take 8 =
      keyImage.toList.drop 24 := by
    rw [List.append_assoc, List.drop_append_of_le_length (by omega)]
    exact List.take_left' (by rw [List.length_drop]; omega)
  change ((((keyImage.toList ++ sampleChachaKey.toList ++ ringSalt).drop 24).take 8 ++
    List.replicate 32 0).take 32).take 8 = _
  rw [hbuffer, List.take_take]
  exact List.take_left' (by rw [List.length_drop]; omega)

theorem lawful_sample : sampleRingCrypto.Lawful sampleChachaKey := by
  refine ⟨fun iv s => ?_, fun iv s => List.length_map _, fun k k' h => ?_⟩
  · change (s.map (· ^^^ iv.headD 0)).map (· ^^^ iv.headD 0) = s
    rw [List.map_map]
    exact (List.map_congr_left fun b _ => by simp).trans (List.map_id s)
  · have hlength := k.toList_length
    have hlength' := k'.toList_length
    have hsplit (k : KeyImage) : (encryptKeyImage sampleRingCrypto sampleChachaKey k).take 32 =
        makeIv sampleRingCrypto sampleChachaKey k ++
          ((k.toList.map (· ^^^ (makeIv sampleRingCrypto sampleChachaKey k).headD 0)).take 24) := by
      change (makeIv sampleRingCrypto sampleChachaKey k ++ _).take 32 = _
      rw [List.take_append, List.take_of_length_le (by rw [length_makeIv]; omega), length_makeIv]
      rfl
    rw [hsplit, hsplit] at h
    obtain ⟨hiv, hrest⟩ := List.append_inj h (by rw [length_makeIv, length_makeIv])
    rw [hiv, ← List.map_take, ← List.map_take] at hrest
    have hfront : k.toList.take 24 = k'.toList.take 24 :=
      List.map_injective_iff.mpr (fun a b heq => by simpa using heq) hrest
    rw [makeIv_sample, makeIv_sample] at hiv
    apply List.Vector.toList_injective
    rw [← List.take_append_drop 24 k.toList, hfront, hiv, List.take_append_drop]

def sampleImage : KeyImage := List.Vector.replicate 32 2

def otherImage : KeyImage := List.Vector.replicate 32 3

def threeOffsets : StdVector UInt64 := ⟨[3, 2, 1], by decide⟩

/-- A ring is set, a transaction adds another one, and a transaction with the first is removed. -/
def sampleCalls : List RingCall :=
  [.setRing sampleImage [7, 5, 6] false, .addRings [.toKey 0 threeOffsets otherImage],
    .removeRings [.toKey 0 threeOffsets sampleImage]]

def sampleRings : Rings := run (ringStep sampleRingCrypto sampleChachaKey) [] sampleCalls

theorem fits_sampleCalls : ∀ call ∈ sampleCalls, call.Fits ∧ call.SizesFit := by
  have hoffsets (image : KeyImage) : ∀ amount keyOffsets kImage,
      Txin.toKey amount keyOffsets kImage ∈ [Txin.toKey 0 threeOffsets image] →
        keyOffsets = threeOffsets := by
    intro amount keyOffsets kImage hmem
    obtain ⟨-, rfl, -⟩ := Txin.toKey.inj (List.mem_singleton.mp hmem)
    rfl
  have hsize : SizeFits threeOffsets := fun h => absurd h (by decide)
  rw [sampleCalls]
  simp only [List.forall_mem_cons, List.not_mem_nil, false_implies, implies_true, and_true]
  refine ⟨⟨fun h => ?_, trivial⟩, ⟨?_, ?_⟩, trivial, ?_⟩
  · cases h
  · intro amount keyOffsets kImage hmem
    rw [hoffsets _ _ _ _ hmem]
    show ([3, 2, 1].map UInt64.toNat).sum < 2 ^ 64
    decide
  · intro amount keyOffsets kImage hmem
    rwa [hoffsets _ _ _ _ hmem]
  · intro amount keyOffsets kImage hmem
    rwa [hoffsets _ _ _ _ hmem]

theorem getRing_run_sample :
    (∃ outs, getRing sampleRingCrypto sampleChachaKey sampleRings otherImage = .ok outs ∧
        outs.map (List.map UInt64.toNat) = some [3, 5, 6]) ∧
      ∃ outs, getRing sampleRingCrypto sampleChachaKey sampleRings sampleImage = .ok outs ∧
        outs.map (List.map UInt64.toNat) = none := by
  have hother : lastRing sampleCalls otherImage = some [3, 5, 6] := by decide
  have hremoved : lastRing sampleCalls sampleImage = none := by decide
  rw [← hother, ← hremoved]
  exact ⟨(getRing_run lawful_sample (fun call h => (fits_sampleCalls call h).1)
      (fun call h => (fits_sampleCalls call h).2) otherImage).1,
    (getRing_run lawful_sample (fun call h => (fits_sampleCalls call h).1)
      (fun call h => (fits_sampleCalls call h).2) sampleImage).1⟩

/-- As many offsets as count as one in 32 bits. -/
def longRing : StdVector UInt64 :=
  ⟨List.replicate (2 ^ 32 + 1) 1, by rw [List.length_replicate]; decide⟩

theorem length_longRing : longRing.toList.length = 2 ^ 32 + 1 := List.length_replicate

theorem addRings_longRing :
    sampleRingCrypto.Lawful sampleChachaKey ∧
      (RingCall.addRings [.toKey 0 longRing sampleImage]).Fits ∧
      getRing sampleRingCrypto sampleChachaKey
        (run (ringStep sampleRingCrypto sampleChachaKey) []
          [.addRings [.toKey 0 longRing sampleImage]]) sampleImage = .ok none ∧
      lastRing [.addRings [.toKey 0 longRing sampleImage]] sampleImage =
        some (absoluteRing longRing.toList true) := by
  refine ⟨lawful_sample, ?_, ?_, ?_⟩
  · rintro amount keyOffsets kImage hmem
    obtain ⟨-, rfl, -⟩ := Txin.toKey.inj (List.mem_singleton.mp hmem)
    rw [OffsetsFit, longRing, List.map_replicate, List.sum_replicate]
    decide
  · have hone : ringSize longRing = 1 := by
      rw [ringSize, length_longRing]
      rfl
    have hadd : addRing sampleRingCrypto sampleChachaKey [] (.toKey 0 longRing sampleImage) = [] := by
      rw [addRing, if_pos hone]
    have hrun (call : RingCall) : run (ringStep sampleRingCrypto sampleChachaKey) [] [call] =
        ringStep sampleRingCrypto sampleChachaKey [] call := rfl
    rw [hrun, ringStep, addRings, List.foldl_cons, List.foldl_nil, hadd, getRing,
      KeyedTable.get_nil]
  · have heffect : inputEffects sampleImage true (.toKey 0 longRing sampleImage) =
        [some (absoluteRing longRing.toList true)] := by
      rw [inputEffects, if_pos ⟨rfl, by rw [length_longRing]; decide⟩, if_pos rfl]
    rw [lastRing, List.flatMap_singleton, ringEffects, List.flatMap_singleton, heffect,
      afterEffects, List.foldl_cons, List.foldl_nil]

end XrCoin.Wallet

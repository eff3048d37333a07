import Mathlib
import XrCoin.Cryptonote.WideProduct
import XrCoin.Data.FixedDigits

/-!
`base58`: bytes as text. Blocks of eight bytes become blocks of eleven letters, and a shorter last
block becomes fewer letters by a table.

A block is a number in base 256 and in base 58. The first functions follow the loops of the source
with their indices and 64-bit arithmetic, and are then shown to convert the number.
-/

namespace XrCoin.Common

open Cryptonote Data

/-! ### Tables -/

def alphabet : List UInt8 :=
  "123456789ABCDEFGHJKLMNPQRSTUVWXYZabcdefghijkmnopqrstuvwxyz".toList.map fun c => c.toNat.toUInt8

def alphabetSize : ℕ := 58

def encodedBlockSizes : List ℕ := [0, 2, 3, 5, 6, 7, 9, 10, 11]

def fullBlockSize : ℕ := 8

def fullEncodedBlockSize : ℕ := 11

def encodedBlockSize (size : ℕ) : ℕ := encodedBlockSizes.getD size 0

/-- The data of `reverse_alphabet`, which has an entry from the first letter to the last. -/
def reverseTable : List ℤ :=
  (List.range alphabetSize).foldl
    (fun data i => data.set (alphabet.getD i 0 - alphabet.getD 0 0).toNat i) (List.replicate 74 (-1))

/-- `reverse_alphabet`, for a letter that is a signed `char`. -/
def reverseAlphabet (letter : UInt8) : ℤ :=
  let idx := ((letter.toInt8.toInt - 49) % 2 ^ 64).toNat
  if idx < reverseTable.length then reverseTable.getD idx (-1) else -1

def decodedTable : List ℤ :=
  (List.range (fullBlockSize + 1)).foldl (fun data i => data.set (encodedBlockSize i) i)
    (List.replicate (fullEncodedBlockSize + 1) (-1))

def decodedBlockSize (size : ℕ) : ℤ := decodedTable.getD size (-1)

/-! ### Blocks -/

def uint8beTo64 (data : List UInt8) : UInt64 :=
  data.foldl (fun res byte => (res <<< 8) ||| byte.toUInt64) 0

/-- `uint_64_to_8be`: the last bytes of the number, the highest first. -/
def uint64To8be (num : UInt64) (size : ℕ) : List UInt8 :=
  [num >>> 56, num >>> 48, num >>> 40, num >>> 32, num >>> 24, num >>> 16, num >>> 8, num].map
    UInt64.toUInt8 |>.drop (8 - size)

/-- The loop of `encode_block`, from the place behind the next letter. Nothing is written in front
of the block. -/
def encodeLoop : ℕ → UInt64 → List UInt8 → Option (List UInt8)
  | 0, num, res => if num = 0 then some res else none
  | i + 1, num, res =>
      if num = 0 then some res
      else encodeLoop i (num / 58) (res.set i (alphabet.getD (num % 58).toNat 0))

/-- `encode_block`, into letters that are all the first one. -/
def encodeBlock (block : List UInt8) : Option (List UInt8) :=
  encodeLoop (encodedBlockSize block.length) (uint8beTo64 block)
    (List.replicate (encodedBlockSize block.length) (alphabet.getD 0 0))

inductive DecodeError where
  | invalidLength
  | invalidBlockSize
  | invalidSymbol
  | overflow
  | outOfBounds
  deriving DecidableEq

/-- The loop of `decode_block`, from the place behind the next letter. -/
def decodeLoop (block : List UInt8) : ℕ → UInt64 → UInt64 → Except DecodeError UInt64
  | 0, _, resNum => .ok resNum
  | i + 1, order, resNum =>
      match block[i]? with
      | none => .error .outOfBounds
      | some letter =>
          let digit := reverseAlphabet letter
          if digit < 0 then .error .invalidSymbol
          else
            let product := mul128 order digit.toNat.toUInt64
            let tmp := resNum + product.1
            if tmp < resNum ∨ product.2 ≠ 0 then .error .overflow
            else decodeLoop block i (order * 58) tmp

def decodeBlock (block : List UInt8) : Except DecodeError (List UInt8) :=
  let resSize := decodedBlockSize block.length
  if resSize ≤ 0 then .error .invalidBlockSize
  else
    match decodeLoop block block.length 1 0 with
    | .error e => .error e
    | .ok resNum =>
        if resSize.toNat < fullBlockSize ∧ (1 : UInt64) <<< (8 * resSize.toNat).toUInt64 ≤ resNum then
          .error .overflow
        else .ok (uint64To8be resNum resSize.toNat)

/-! ### Whole strings -/

def encodeBlocks : ℕ → List UInt8 → Option (List UInt8)
  | 0, data => if 0 < data.length then encodeBlock data else some []
  | blocks + 1, data => do
      let res ← encodeBlock (data.take fullBlockSize)
      let rest ← encodeBlocks blocks (data.drop fullBlockSize)
      some (res ++ rest)

def encode (data : List UInt8) : Option (List UInt8) :=
  if data = [] then some [] else encodeBlocks (data.length / fullBlockSize) data

def decodeBlocks : ℕ → List UInt8 → Except DecodeError (List UInt8)
  | 0, enc => if 0 < enc.length then decodeBlock enc else .ok []
  | blocks + 1, enc =>
      match decodeBlock (enc.take fullEncodedBlockSize) with
      | .error e => .error e
      | .ok res =>
          match decodeBlocks blocks (enc.drop fullEncodedBlockSize) with
          | .error e => .error e
          | .ok rest => .ok (res ++ rest)

def decode (enc : List UInt8) : Except DecodeError (List UInt8) :=
  if enc = [] then .ok []
  else if decodedBlockSize (enc.length % fullEncodedBlockSize) < 0 then .error .invalidLength
  else decodeBlocks (enc.length / fullEncodedBlockSize) enc

/-! ### What the tables say -/

theorem alphabet_eq : alphabet =
    [49, 50, 51, 52, 53, 54, 55, 56, 57, 65, 66, 67, 68, 69, 70, 71, 72, 74, 75, 76, 77, 78,
      80, 81, 82, 83, 84, 85, 86, 87, 88, 89, 90, 97, 98, 99, 100, 101, 102, 103, 104, 105,
      106, 107, 109, 110, 111, 112, 113, 114, 115, 116, 117, 118, 119, 120, 121, 122] := by
  decide

theorem length_alphabet : alphabet.length = 58 := by
  rw [alphabet_eq]
  rfl

theorem reverseTable_eq : reverseTable =
    [0, 1, 2, 3, 4, 5, 6, 7, 8, -1, -1, -1, -1, -1, -1, -1, 9, 10, 11, 12, 13, 14, 15, 16, -1, 17,
      18, 19, 20, 21, -1, 22, 23, 24, 25, 26, 27, 28, 29, 30, 31, 32, -1, -1, -1, -1, -1, -1, 33,
      34, 35, 36, 37, 38, 39, 40, 41, 42, 43, -1, 44, 45, 46, 47, 48, 49, 50, 51, 52, 53, 54, 55,
      56, 57] := by
  decide

/-- A letter of the alphabet gives its place, and any other character none. -/
theorem reverseAlphabet_getD : ∀ i : Fin 58, reverseAlphabet (alphabet.getD i 0) = (i : ℕ) := by
  simp only [reverseAlphabet, reverseTable_eq, alphabet_eq]
  decide

theorem getD_reverseAlphabet (letter : UInt8) : reverseAlphabet letter < 0 ∨
    alphabet.getD (reverseAlphabet letter).toNat 0 = letter ∧ (reverseAlphabet letter).toNat < 58 := by
  have hall : ∀ n : Fin 256, reverseAlphabet (UInt8.ofNat n) < 0 ∨
      alphabet.getD (reverseAlphabet (UInt8.ofNat n)).toNat 0 = UInt8.ofNat n ∧
        (reverseAlphabet (UInt8.ofNat n)).toNat < 58 := by
    simp only [reverseAlphabet, reverseTable_eq, alphabet_eq]
    decide +kernel
  have hletter := hall ⟨letter.toNat, letter.toNat_lt⟩
  rwa [UInt8.ofNat_toNat] at hletter

def digitOf (letter : UInt8) : ℕ := (reverseAlphabet letter).toNat

def letterOf (digit : ℕ) : UInt8 := alphabet.getD digit 0

theorem mem_alphabet_iff (letter : UInt8) : letter ∈ alphabet ↔ 0 ≤ reverseAlphabet letter := by
  constructor
  · intro h
    obtain ⟨i, hi, rfl⟩ := List.mem_iff_getElem.mp h
    have hplace := reverseAlphabet_getD ⟨i, length_alphabet ▸ hi⟩
    rw [List.getD_eq_getElem _ _ hi] at hplace
    rw [hplace]
    exact Int.natCast_nonneg i
  · intro h
    obtain hneg | ⟨hletter, hlt⟩ := getD_reverseAlphabet letter
    · omega
    · rw [← hletter, List.getD_eq_getElem _ _ (by rw [length_alphabet]; exact hlt)]
      exact List.getElem_mem _

theorem letterOf_digitOf {letter : UInt8} (h : letter ∈ alphabet) :
    letterOf (digitOf letter) = letter ∧ digitOf letter < 58 := by
  have hpos := (mem_alphabet_iff letter).mp h
  exact (getD_reverseAlphabet letter).resolve_left (by omega)

theorem digitOf_letterOf {digit : ℕ} (h : digit < 58) :
    digitOf (letterOf digit) = digit ∧ letterOf digit ∈ alphabet := by
  have hplace : reverseAlphabet (letterOf digit) = digit := reverseAlphabet_getD ⟨digit, h⟩
  constructor
  · rw [digitOf, hplace, Int.toNat_natCast]
  · rw [mem_alphabet_iff, hplace]
    exact Int.natCast_nonneg digit

attribute [irreducible] digitOf letterOf

theorem encodedBlockSize_fits : ∀ size ≤ 8,
    256 ^ size ≤ 58 ^ encodedBlockSize size ∧ encodedBlockSize size ≤ 11 := by
  decide

theorem decodedTable_eq : decodedTable = [0, -1, 1, 2, -1, 3, 4, 5, -1, 6, 7, 8] := by
  decide

theorem decodedBlockSize_eq : ∀ size ≤ 11, ∀ n ≤ 8,
    decodedBlockSize size = (n : ℕ) ↔ size = encodedBlockSize n := by
  simp only [decodedBlockSize, decodedTable_eq]
  decide

theorem decodedBlockSize_cases : ∀ size ≤ 11, decodedBlockSize size = -1 ∨
    ∃ n ≤ 8, decodedBlockSize size = (n : ℕ) := by
  simp only [decodedBlockSize, decodedTable_eq]
  decide

/-! ### The numbers of a block -/

def bytesValue (block : List UInt8) : ℕ := fixedValue 256 (block.map UInt8.toNat)

def bytesOf (size n : ℕ) : List UInt8 := (fixedDigits 256 size n).map UInt8.ofNat

def lettersValue (block : List UInt8) : ℕ := fixedValue 58 (block.map digitOf)

def lettersOf (size n : ℕ) : List UInt8 := (fixedDigits 58 size n).map letterOf

@[simp] theorem length_bytesOf (size n : ℕ) : (bytesOf size n).length = size := by
  simp [bytesOf]

@[simp] theorem length_lettersOf (size n : ℕ) : (lettersOf size n).length = size := by
  simp [lettersOf]

@[simp] theorem bytesValue_concat (block : List UInt8) (byte : UInt8) :
    bytesValue (block ++ [byte]) = bytesValue block * 256 + byte.toNat := by
  simp [bytesValue]

@[simp] theorem lettersValue_concat (block : List UInt8) (letter : UInt8) :
    lettersValue (block ++ [letter]) = lettersValue block * 58 + digitOf letter := by
  simp [lettersValue]

theorem lt_of_mem_bytes (block : List UInt8) : ∀ d ∈ block.map UInt8.toNat, d < 256 := by
  intro d hd
  obtain ⟨byte, -, rfl⟩ := List.mem_map.mp hd
  exact byte.toNat_lt

theorem bytesValue_lt (block : List UInt8) : bytesValue block < 256 ^ block.length := by
  have hlt := fixedValue_lt (lt_of_mem_bytes block)
  rwa [List.length_map] at hlt

theorem bytesOf_bytesValue (block : List UInt8) :
    bytesOf block.length (bytesValue block) = block := by
  have hdigits := fixedDigits_fixedValue (lt_of_mem_bytes block)
  rw [List.length_map] at hdigits
  rw [bytesOf, bytesValue, hdigits, List.map_map]
  exact (List.map_congr_left fun byte _ => UInt8.ofNat_toNat).trans (List.map_id block)

theorem bytesValue_bytesOf {size n : ℕ} (h : n < 256 ^ size) : bytesValue (bytesOf size n) = n := by
  have hdigits : ((fixedDigits 256 size n).map UInt8.ofNat).map UInt8.toNat =
      fixedDigits 256 size n := by
    rw [List.map_map]
    refine (List.map_congr_left fun d hd => ?_).trans (List.map_id _)
    exact Nat.mod_eq_of_lt (lt_of_mem_fixedDigits (by decide) hd)
  rw [bytesValue, bytesOf, hdigits, fixedValue_fixedDigits h]

theorem lettersOf_lettersValue {block : List UInt8} (h : ∀ letter ∈ block, letter ∈ alphabet) :
    lettersOf block.length (lettersValue block) = block := by
  have hlt : ∀ d ∈ block.map digitOf, d < 58 := by
    intro d hd
    obtain ⟨letter, hletter, rfl⟩ := List.mem_map.mp hd
    exact (letterOf_digitOf (h letter hletter)).2
  have hdigits := fixedDigits_fixedValue hlt
  rw [List.length_map] at hdigits
  rw [lettersOf, lettersValue, hdigits, List.map_map]
  refine (List.map_congr_left fun letter hletter => ?_).trans (List.map_id block)
  show letterOf (digitOf letter) = letter
  exact (letterOf_digitOf (h letter hletter)).1

theorem lettersValue_lettersOf {size n : ℕ} (h : n < 58 ^ size) :
    lettersValue (lettersOf size n) = n ∧ ∀ letter ∈ lettersOf size n, letter ∈ alphabet := by
  have hlt : ∀ d ∈ fixedDigits 58 size n, d < 58 := fun d hd => lt_of_mem_fixedDigits (by decide) hd
  have hdigits : ((fixedDigits 58 size n).map letterOf).map digitOf = fixedDigits 58 size n := by
    refine List.ext_getElem (by simp) fun i _ hi => ?_
    rw [List.getElem_map, List.getElem_map]
    exact (digitOf_letterOf (hlt _ (List.getElem_mem hi))).1
  constructor
  · rw [lettersValue, lettersOf, hdigits, fixedValue_fixedDigits h]
  · intro letter hletter
    obtain ⟨d, hd, rfl⟩ := List.mem_map.mp hletter
    exact (digitOf_letterOf (hlt d hd)).2

/-! ### The loops -/

theorem toNat_uint8beTo64 {data : List UInt8} (h : data.length ≤ 8) :
    (uint8beTo64 data).toNat = bytesValue data := by
  induction data using List.reverseRecOn with
  | nil => rfl
  | append_singleton data byte ih =>
      rw [List.length_append, List.length_singleton] at h
      have hvalue : bytesValue data < 2 ^ 56 :=
        calc bytesValue data < 256 ^ data.length := bytesValue_lt data
          _ ≤ 256 ^ 7 := Nat.pow_le_pow_right (by decide) (by omega)
          _ = 2 ^ 56 := by decide
      have hbyte := byte.toNat_lt
      have hshift : ((uint8beTo64 data) <<< 8).toNat = bytesValue data <<< 8 := by
        have height : (8 : UInt64).toNat % 64 = 8 := by decide
        rw [UInt64.toNat_shiftLeft, ih (by omega), height, Nat.shiftLeft_eq]
        exact Nat.mod_eq_of_lt (by omega)
      have hfold : uint8beTo64 (data ++ [byte]) = (uint8beTo64 data) <<< 8 ||| byte.toUInt64 := by
        rw [uint8beTo64, List.foldl_append]
        rfl
      rw [hfold, UInt64.toNat_or, hshift, UInt8.toNat_toUInt64,
        ← Nat.shiftLeft_add_eq_or_of_lt (show byte.toNat < 2 ^ 8 from hbyte), Nat.shiftLeft_eq,
        bytesValue_concat]

theorem toUInt8_shiftRight (num k : UInt64) (hk : k.toNat < 64) :
    (num >>> k).toUInt8 = UInt8.ofNat (num.toNat / 2 ^ k.toNat % 256) := by
  rw [← UInt8.toNat_inj, UInt64.toNat_toUInt8, UInt64.toNat_shiftRight, Nat.mod_eq_of_lt hk,
    Nat.shiftRight_eq_div_pow, UInt8.toNat_ofNat']
  omega

theorem uint64To8be_eq (num : UInt64) {size : ℕ} (h : size ≤ 8) :
    uint64To8be num size = bytesOf size num.toNat := by
  have hall : [num >>> 56, num >>> 48, num >>> 40, num >>> 32, num >>> 24, num >>> 16, num >>> 8,
      num].map UInt64.toUInt8 = bytesOf 8 num.toNat := by
    have hlast : num.toUInt8 = UInt8.ofNat (num.toNat % 256) := by
      rw [← UInt8.toNat_inj, UInt64.toNat_toUInt8, UInt8.toNat_ofNat']
      omega
    simp only [List.map_cons, List.map_nil, hlast, bytesOf, fixedDigits, List.nil_append,
      List.cons_append, Nat.div_div_eq_div_mul]
    rw [toUInt8_shiftRight num 56 (by decide), toUInt8_shiftRight num 48 (by decide),
      toUInt8_shiftRight num 40 (by decide), toUInt8_shiftRight num 32 (by decide),
      toUInt8_shiftRight num 24 (by decide), toUInt8_shiftRight num 16 (by decide),
      toUInt8_shiftRight num 8 (by decide)]
    rfl
  have hsplit : bytesOf 8 num.toNat = bytesOf (8 - size) (num.toNat / 256 ^ size) ++
      bytesOf size num.toNat := by
    have hdigits := fixedDigits_add (b := 256) (8 - size) size num.toNat
    rw [Nat.sub_add_cancel h] at hdigits
    rw [bytesOf, hdigits, List.map_append]
    rfl
  show (([_, _, _, _, _, _, _, _].map UInt64.toUInt8).drop (8 - size)) = _
  rw [hall, hsplit, List.drop_left' (length_bytesOf _ _)]

/-- The letters are written from the end on, and the ones that are not reached stand for zero. -/
theorem encodeLoop_eq (i : ℕ) (num : UInt64) (res : List UInt8) (hnum : num.toNat < 58 ^ i)
    (hi : i ≤ res.length) (hres : res.take i = List.replicate i (letterOf 0)) :
    encodeLoop i num res = some (lettersOf i num.toNat ++ res.drop i) := by
  induction i generalizing num res with
  | zero =>
      have hzero : num = 0 := by
        rw [← UInt64.toNat_inj, UInt64.toNat_zero]
        omega
      rw [encodeLoop, if_pos hzero]
      rfl
  | succ i ih =>
      rw [encodeLoop]
      split
      · rename_i hzero
        rw [hzero, UInt64.toNat_zero, lettersOf, fixedDigits_zero, List.map_replicate, ← hres,
          List.take_append_drop]
      · have hquotient : (num / 58).toNat < 58 ^ i := by
          rw [UInt64.toNat_div]
          exact Nat.div_lt_of_lt_mul (by rwa [Nat.pow_succ'] at hnum)
        have htake : (res.set i (alphabet.getD (num % 58).toNat 0)).take i =
            List.replicate i (letterOf 0) := by
          have hshorter : res.take i = (res.take (i + 1)).take i := by
            rw [List.take_take, Nat.min_eq_left (Nat.le_succ i)]
          rw [List.take_set_of_le le_rfl, hshorter, hres, List.take_replicate,
            Nat.min_eq_left (Nat.le_succ i)]
        have hdrop : (res.set i (alphabet.getD (num % 58).toNat 0)).drop i =
            letterOf (num % 58).toNat :: res.drop (i + 1) := by
          rw [List.drop_set, if_neg (by omega), Nat.sub_self, List.drop_eq_getElem_cons hi, letterOf]
          rfl
        rw [ih _ _ hquotient (by rw [List.length_set]; omega) htake, hdrop, UInt64.toNat_div,
          UInt64.toNat_mod, lettersOf, lettersOf, fixedDigits, List.map_append, List.append_assoc]
        rfl

theorem encodeBlock_eq {block : List UInt8} (h : block.length ≤ 8) :
    encodeBlock block = some (lettersOf (encodedBlockSize block.length) (bytesValue block)) := by
  have hfits : (uint8beTo64 block).toNat < 58 ^ encodedBlockSize block.length := by
    rw [toNat_uint8beTo64 h]
    exact (bytesValue_lt block).trans_le (encodedBlockSize_fits _ h).1
  rw [encodeBlock, encodeLoop_eq _ _ _ hfits (by simp) (by simp [letterOf]), toNat_uint8beTo64 h]
  simp

/-- One turn of the loop adds a digit unless the sum has no room. -/
theorem decodeLoop_succ {block : List UInt8} {i k : ℕ} {order resNum n : UInt64}
    (hi : i < block.length) (horder : order.toNat = 58 ^ k) :
    decodeLoop block (i + 1) order resNum = .ok n ↔
      block[i] ∈ alphabet ∧ resNum.toNat + 58 ^ k * digitOf block[i] < 2 ^ 64 ∧
        ∃ tmp : UInt64, tmp.toNat = resNum.toNat + 58 ^ k * digitOf block[i] ∧
          decodeLoop block i (order * 58) tmp = .ok n := by
  rw [decodeLoop, List.getElem?_eq_getElem hi]
  simp only
  split
  · rename_i hneg
    have hletter : block[i] ∉ alphabet := fun h => by
      have := (mem_alphabet_iff _).mp h
      omega
    simp [hletter]
  · rename_i hpos
    have hletter : block[i] ∈ alphabet := (mem_alphabet_iff _).mpr (by omega)
    have hdigit : (digitOf block[i]).toUInt64.toNat = digitOf block[i] := by
      have hlt := (letterOf_digitOf hletter).2
      exact UInt64.toNat_ofNat_of_lt' (show digitOf block[i] < 2 ^ 64 by omega)
    rw [← digitOf]
    have hproduct := mul128_exact order (digitOf block[i]).toUInt64
    rw [hdigit, horder, wideValue] at hproduct
    generalize mul128 order (digitOf block[i]).toUInt64 = product at hproduct ⊢
    have hlow := product.1.toNat_lt
    have hres := resNum.toNat_lt
    have hsum : (resNum + product.1).toNat = (resNum.toNat + product.1.toNat) % 2 ^ 64 :=
      UInt64.toNat_add _ _
    have hover : (resNum + product.1 < resNum ∨ product.2 ≠ 0) ↔
        (resNum.toNat + product.1.toNat) % 2 ^ 64 < resNum.toNat ∨ product.2.toNat ≠ 0 := by
      rw [UInt64.lt_iff_toNat_lt, hsum, Ne, ← UInt64.toNat_inj, UInt64.toNat_zero]
    rw [← hproduct, if_congr hover rfl rfl]
    split
    · rename_i hover
      have hroom : ¬resNum.toNat + (product.1.toNat + 2 ^ 64 * product.2.toNat) < 2 ^ 64 := by
        omega
      constructor
      · intro h
        cases h
      · exact fun h => absurd h.2.1 hroom
    · rename_i hfits
      have hroom : resNum.toNat + (product.1.toNat + 2 ^ 64 * product.2.toNat) < 2 ^ 64 := by
        omega
      have htmp : (resNum + product.1).toNat =
          resNum.toNat + (product.1.toNat + 2 ^ 64 * product.2.toNat) := by
        omega
      constructor
      · intro h
        exact ⟨hletter, hroom, _, htmp, h⟩
      · rintro ⟨-, -, tmp, hsame, h⟩
        rwa [UInt64.toNat_inj.mp (htmp.trans hsame.symm)]

/-- The loop multiplies by a power of 58 that fits into 64 bits for each of the eleven letters. -/
theorem decodeLoop_eq_ok {block : List UInt8} {i k : ℕ} {order resNum n : UInt64}
    (hi : i ≤ block.length) (hk : k + i ≤ 11) (horder : 0 < i → order.toNat = 58 ^ k) :
    decodeLoop block i order resNum = .ok n ↔
      (∀ letter ∈ block.take i, letter ∈ alphabet) ∧
        n.toNat = resNum.toNat + 58 ^ k * lettersValue (block.take i) := by
  induction i generalizing k order resNum with
  | zero =>
      have hempty : lettersValue (block.take 0) = 0 := rfl
      rw [decodeLoop, hempty, Except.ok.injEq, ← UInt64.toNat_inj]
      simp [eq_comm]
  | succ i ih =>
      have hlast : block.take (i + 1) = block.take i ++ [block[i]] := by
        rw [List.take_append_getElem]
      have hnext : 0 < i → (order * 58).toNat = 58 ^ (k + 1) := by
        intro hpos
        have hpower : 58 ^ (k + 1) ≤ 58 ^ 10 := Nat.pow_le_pow_right (by decide) (by omega)
        have hsmall : 58 ^ 10 < 2 ^ 64 := by decide
        have hfactor : (58 : UInt64).toNat = 58 := rfl
        rw [UInt64.toNat_mul, horder (Nat.succ_pos i), hfactor, ← Nat.pow_succ]
        exact Nat.mod_eq_of_lt (by omega)
      rw [decodeLoop_succ hi (horder (Nat.succ_pos i)), hlast, lettersValue_concat]
      have hsplit : 58 ^ k * (lettersValue (block.take i) * 58 + digitOf block[i]) =
          58 ^ k * digitOf block[i] + 58 ^ (k + 1) * lettersValue (block.take i) := by
        rw [Nat.pow_succ]
        ring
      rw [hsplit]
      constructor
      · rintro ⟨hletter, -, tmp, htmp, h⟩
        obtain ⟨hletters, hn⟩ := (ih (by omega) (by omega) hnext).mp h
        refine ⟨fun letter hmem => ?_, by omega⟩
        rcases List.mem_append.mp hmem with hmem | hmem
        · exact hletters letter hmem
        · rwa [List.mem_singleton.mp hmem]
      · rintro ⟨hletters, hn⟩
        have hroom := n.toNat_lt
        have hfits : resNum.toNat + 58 ^ k * digitOf block[i] < 2 ^ 64 := by omega
        have hlastLetter : block[i] ∈ alphabet :=
          hletters _ (List.mem_append_right _ (List.mem_singleton_self _))
        have htmp := UInt64.toNat_ofNat_of_lt' hfits
        refine ⟨hlastLetter, hfits, _, htmp, (ih (by omega) (by omega) hnext).mpr ⟨?_, ?_⟩⟩
        · exact fun letter hmem => hletters letter (List.mem_append_left _ hmem)
        · omega

theorem decodeLoop_inBounds {block : List UInt8} {i : ℕ} (order resNum : UInt64)
    (hi : i ≤ block.length) : decodeLoop block i order resNum ≠ .error .outOfBounds := by
  induction i generalizing order resNum with
  | zero => simp [decodeLoop]
  | succ i ih =>
      rw [decodeLoop, List.getElem?_eq_getElem hi]
      simp only
      split
      · simp
      · split
        · simp
        · exact ih _ _ (by omega)

theorem shiftLeft_le_iff {size : ℕ} (hsize : size < 8) (n : UInt64) :
    (1 : UInt64) <<< (8 * size).toUInt64 ≤ n ↔ 256 ^ size ≤ n.toNat := by
  have hshift : (8 * size).toUInt64.toNat = 8 * size :=
    UInt64.toNat_ofNat_of_lt' (show 8 * size < 2 ^ 64 by omega)
  have hbits : 8 * size < 64 := by omega
  have hpower : 2 ^ (8 * size) < 2 ^ 64 := Nat.pow_lt_pow_right (by decide) hbits
  rw [UInt64.le_iff_toNat_le, UInt64.toNat_shiftLeft, hshift, Nat.mod_eq_of_lt hbits,
    UInt64.toNat_one, Nat.one_shiftLeft, Nat.mod_eq_of_lt hpower, Nat.pow_mul]

theorem decodeBlock_eq_ok {block bytes : List UInt8} (h : block.length ≤ 11) :
    decodeBlock block = .ok bytes ↔ ∃ size, 1 ≤ size ∧ size ≤ 8 ∧
      block.length = encodedBlockSize size ∧ (∀ letter ∈ block, letter ∈ alphabet) ∧
        lettersValue block < 256 ^ size ∧ bytes = bytesOf size (lettersValue block) := by
  have hloop (n : UInt64) : decodeLoop block block.length 1 0 = .ok n ↔
      (∀ letter ∈ block, letter ∈ alphabet) ∧ n.toNat = lettersValue block := by
    rw [decodeLoop_eq_ok (k := 0) le_rfl (by omega) (fun _ => rfl), List.take_length]
    simp
  rw [decodeBlock]
  constructor
  · intro hdecode
    obtain hnone | ⟨size, hsize, hsome⟩ := decodedBlockSize_cases block.length h
    · rw [hnone, if_pos (by decide)] at hdecode
      cases hdecode
    · have hlength : block.length = encodedBlockSize size :=
        (decodedBlockSize_eq _ h size hsize).mp hsome
      rw [hsome, Int.toNat_natCast] at hdecode
      split at hdecode
      · cases hdecode
      · split at hdecode
        · cases hdecode
        · rename_i hpos _ resNum hres
          obtain ⟨hletters, hvalue⟩ := (hloop resNum).mp hres
          split at hdecode
          · cases hdecode
          · rename_i hfits
            have hlt : lettersValue block < 256 ^ size := by
              rw [← hvalue]
              rcases Nat.lt_or_ge size 8 with hlt | hge
              · by_contra hge
                exact hfits ⟨hlt, (shiftLeft_le_iff hlt resNum).mpr (by omega)⟩
              · obtain rfl : size = 8 := by omega
                exact resNum.toNat_lt
            rw [uint64To8be_eq resNum hsize, hvalue] at hdecode
            exact ⟨size, by omega, hsize, hlength, hletters, hlt, (Except.ok.inj hdecode).symm⟩
  · rintro ⟨size, hpos, hsize, hlength, hletters, hlt, rfl⟩
    have hsome := (decodedBlockSize_eq _ h size hsize).mpr hlength
    have hroom : lettersValue block < 2 ^ 64 :=
      calc lettersValue block < 256 ^ size := hlt
        _ ≤ 256 ^ 8 := Nat.pow_le_pow_right (by decide) hsize
        _ = 2 ^ 64 := by decide
    have hvalue := UInt64.toNat_ofNat_of_lt' hroom
    have hfits : ¬(size < fullBlockSize ∧
        (1 : UInt64) <<< (8 * size).toUInt64 ≤ UInt64.ofNat (lettersValue block)) := by
      rintro ⟨hshort, hge⟩
      have := (shiftLeft_le_iff hshort _).mp hge
      omega
    rw [hsome, Int.toNat_natCast, if_neg (by omega), (hloop _).mpr ⟨hletters, hvalue⟩]
    show (if _ then _ else _) = _
    rw [if_neg hfits, uint64To8be_eq _ hsize, hvalue]

theorem decodeBlock_inBounds (block : List UInt8) : decodeBlock block ≠ .error .outOfBounds := by
  rw [decodeBlock]
  split
  · simp
  · have hloop : decodeLoop block block.length 1 0 ≠ .error .outOfBounds :=
      decodeLoop_inBounds 1 0 le_rfl
    split
    · rename_i e he
      rw [he, Ne, Except.error.injEq] at hloop
      rwa [Ne, Except.error.injEq]
    · split <;> simp

theorem decodeBlock_iff {block bytes : List UInt8} (h : block.length ≤ 11) :
    decodeBlock block = .ok bytes ↔
      1 ≤ bytes.length ∧ bytes.length ≤ 8 ∧ encodeBlock bytes = some block := by
  rw [decodeBlock_eq_ok h]
  constructor
  · rintro ⟨size, hpos, hsize, hlength, hletters, hlt, rfl⟩
    rw [encodeBlock_eq (by rwa [length_bytesOf]), length_bytesOf, bytesValue_bytesOf hlt, ← hlength,
      lettersOf_lettersValue hletters]
    exact ⟨hpos, hsize, rfl⟩
  · rintro ⟨hpos, hsize, hencode⟩
    rw [encodeBlock_eq hsize, Option.some.injEq] at hencode
    have hvalue := bytesValue_lt bytes
    have hfits := (encodedBlockSize_fits _ hsize).1
    obtain ⟨hsame, hletters⟩ := lettersValue_lettersOf (hvalue.trans_le hfits)
    rw [hencode] at hsame hletters
    refine ⟨bytes.length, hpos, hsize, ?_, hletters, by rwa [hsame], ?_⟩
    · rw [← hencode, length_lettersOf]
    · rw [hsame, bytesOf_bytesValue]

/-! ### Strings -/

theorem encodedBlockSize_iff : ∀ size ≤ 8,
    (encodedBlockSize size = 0 ↔ size = 0) ∧ (encodedBlockSize size = 11 ↔ size = 8) := by
  decide

theorem length_of_encodeBlock {block letters : List UInt8} (h : block.length ≤ 8)
    (hencode : encodeBlock block = some letters) :
    letters.length = encodedBlockSize block.length := by
  rw [encodeBlock_eq h, Option.some.injEq] at hencode
  rw [← hencode, length_lettersOf]

theorem encodeBlocks_succ {blocks : ℕ} {data enc : List UInt8} :
    encodeBlocks (blocks + 1) data = some enc ↔ ∃ res rest,
      encodeBlock (data.take fullBlockSize) = some res ∧
        encodeBlocks blocks (data.drop fullBlockSize) = some rest ∧ enc = res ++ rest := by
  rw [encodeBlocks]
  constructor
  · intro h
    obtain ⟨res, hres, h⟩ := Option.bind_eq_some_iff.mp h
    obtain ⟨rest, hrest, h⟩ := Option.bind_eq_some_iff.mp h
    exact ⟨res, rest, hres, hrest, (Option.some.inj h).symm⟩
  · rintro ⟨res, rest, hres, hrest, rfl⟩
    rw [hres, hrest]
    rfl

theorem decodeBlocks_succ {blocks : ℕ} {enc data : List UInt8} :
    decodeBlocks (blocks + 1) enc = .ok data ↔ ∃ res rest,
      decodeBlock (enc.take fullEncodedBlockSize) = .ok res ∧
        decodeBlocks blocks (enc.drop fullEncodedBlockSize) = .ok rest ∧ data = res ++ rest := by
  rw [decodeBlocks]
  cases decodeBlock (enc.take fullEncodedBlockSize) with
  | error e => simp
  | ok res =>
      cases decodeBlocks blocks (enc.drop fullEncodedBlockSize) with
      | error e => simp
      | ok rest => simp [eq_comm]

theorem encodeBlocks_total {blocks : ℕ} (data : List UInt8) (h : data.length / 8 = blocks) :
    ∃ enc, encodeBlocks blocks data = some enc ∧
      enc.length = 11 * blocks + encodedBlockSize (data.length % 8) := by
  induction blocks generalizing data with
  | zero =>
      have hshort : data.length % 8 = data.length := Nat.mod_eq_of_lt (by omega)
      rw [encodeBlocks, hshort]
      split
      · rw [encodeBlock_eq (by omega)]
        exact ⟨_, rfl, by simp⟩
      · have hempty : data.length = 0 := by omega
        rw [hempty]
        exact ⟨[], rfl, rfl⟩
  | succ blocks ih =>
      have hfull : (data.take fullBlockSize).length = 8 := by
        rw [List.length_take]
        show min 8 data.length = 8
        omega
      have hrest : (data.drop fullBlockSize).length = data.length - 8 := List.length_drop
      obtain ⟨rest, hencode, hlength⟩ := ih (data.drop fullBlockSize) (by omega)
      refine ⟨_, encodeBlocks_succ.mpr ⟨_, rest, encodeBlock_eq hfull.le, hencode, rfl⟩, ?_⟩
      have hmod : (data.drop fullBlockSize).length % 8 = data.length % 8 := by omega
      have helevenLetters : encodedBlockSize 8 = 11 := by decide
      rw [List.length_append, length_lettersOf, hfull, hlength, hmod, helevenLetters]
      omega

theorem decodeBlocks_iff {blocks : ℕ} {enc data : List UInt8} (h : enc.length / 11 = blocks) :
    decodeBlocks blocks enc = .ok data ↔
      data.length / 8 = blocks ∧ encodeBlocks blocks data = some enc := by
  induction blocks generalizing enc data with
  | zero =>
      rw [decodeBlocks, encodeBlocks]
      constructor
      · intro hdecode
        split at hdecode
        · obtain ⟨hpos, hsize, hencode⟩ := (decodeBlock_iff (by omega)).mp hdecode
          have hlength := length_of_encodeBlock hsize hencode
          have hfull := (encodedBlockSize_iff _ hsize).2
          rw [if_pos (by omega)]
          exact ⟨by omega, hencode⟩
        · obtain rfl := Except.ok.inj hdecode
          have hempty : enc = [] := List.eq_nil_of_length_eq_zero (by omega)
          rw [hempty]
          exact ⟨rfl, rfl⟩
      · rintro ⟨hshort, hencode⟩
        split at hencode
        · have hlength := length_of_encodeBlock (by omega) hencode
          have hempty := (encodedBlockSize_iff data.length (by omega)).1
          rw [if_pos (by omega), decodeBlock_iff (by omega)]
          exact ⟨by omega, by omega, hencode⟩
        · obtain rfl := Option.some.inj hencode
          have hempty : data = [] := List.eq_nil_of_length_eq_zero (by omega)
          rw [hempty]
          rfl
  | succ blocks ih =>
      rw [decodeBlocks_succ, encodeBlocks_succ]
      constructor
      · rintro ⟨res, rest, hres, hrest, rfl⟩
        have hfull : (enc.take fullEncodedBlockSize).length = 11 := by
          rw [List.length_take]
          show min 11 enc.length = 11
          omega
        have hdrop : (enc.drop fullEncodedBlockSize).length = enc.length - 11 := List.length_drop
        obtain ⟨-, hsize, hencode⟩ := (decodeBlock_iff hfull.le).mp hres
        obtain ⟨hlength, hblocks⟩ := (ih (by omega)).mp hrest
        have hlengthRes := length_of_encodeBlock hsize hencode
        have height : res.length = fullBlockSize := (encodedBlockSize_iff _ hsize).2.mp (by omega)
        rw [List.take_left' height, List.drop_left' height, List.length_append, height]
        refine ⟨?_, _, _, hencode, hblocks, (List.take_append_drop _ _).symm⟩
        show (8 + rest.length) / 8 = blocks + 1
        omega
      · rintro ⟨hlength, res, rest, hres, hrest, rfl⟩
        have hfull : (data.take fullBlockSize).length = 8 := by
          rw [List.length_take]
          show min 8 data.length = 8
          omega
        have hdrop : (data.drop fullBlockSize).length = data.length - 8 := List.length_drop
        have heleven : res.length = fullEncodedBlockSize := by
          rw [length_of_encodeBlock hfull.le hres, hfull]
          decide
        rw [List.length_append, heleven] at h
        have hshort : rest.length / 11 = blocks := by
          have : fullEncodedBlockSize = 11 := rfl
          omega
        rw [List.take_left' heleven, List.drop_left' heleven]
        exact ⟨_, _, (decodeBlock_iff heleven.le).mpr ⟨by omega, by omega, hres⟩,
          (ih hshort).mpr ⟨by omega, hrest⟩, (List.take_append_drop _ _).symm⟩

theorem encode_total (data : List UInt8) : ∃ enc, encode data = some enc := by
  rw [encode]
  split
  · exact ⟨[], rfl⟩
  · obtain ⟨enc, hencode, -⟩ := encodeBlocks_total data rfl
    exact ⟨enc, hencode⟩

theorem decode_iff (enc data : List UInt8) : decode enc = .ok data ↔ encode data = some enc := by
  rw [decode, encode]
  constructor
  · intro hdecode
    split at hdecode
    · rename_i hempty
      rw [← Except.ok.inj hdecode, hempty]
      rfl
    · rename_i hne
      split at hdecode
      · cases hdecode
      · obtain ⟨hlength, hencode⟩ := (decodeBlocks_iff rfl).mp hdecode
        split
        · rename_i hempty
          rw [hempty] at hencode hlength
          rw [← hlength] at hencode
          exact absurd (Option.some.inj hencode).symm hne
        · show encodeBlocks (data.length / 8) data = _
          rw [hlength]
          exact hencode
  · intro hencode
    split at hencode
    · rename_i hempty
      rw [← Option.some.inj hencode, hempty]
      rfl
    · rename_i hne
      obtain ⟨enc', hencode', hlength⟩ := encodeBlocks_total data rfl
      obtain rfl : enc' = enc := Option.some.inj (hencode'.symm.trans hencode)
      have hpos : 0 < data.length := List.length_pos_iff.mpr hne
      have hrest := encodedBlockSize_iff (data.length % 8) (by omega)
      have hfits := (encodedBlockSize_fits (data.length % 8) (by omega)).2
      have hblocks : enc'.length / 11 = data.length / 8 := by omega
      have hlast : enc'.length % 11 = encodedBlockSize (data.length % 8) := by omega
      have hne' : enc' ≠ [] := by
        rintro rfl
        rw [List.length_nil] at hlength
        omega
      have hsize := (decodedBlockSize_eq _ hfits (data.length % 8) (by omega)).mpr rfl
      show (if _ then _ else if decodedBlockSize (enc'.length % 11) < 0 then _ else
        decodeBlocks (enc'.length / 11) enc') = _
      rw [if_neg hne', hlast, hsize, if_neg (by omega)]
      exact (decodeBlocks_iff rfl).mpr ⟨hblocks.symm, by rw [hblocks]; exact hencode'⟩

example : encode (List.replicate 8 0xFF) =
    some ("jpXCZedGfVQ".toList.map fun c => c.toNat.toUInt8) := by
  decide

/-! ### What is rejected -/

/-- The block of a string that `decode` reads in its turn `i`, the last one included. -/
def blockAt (enc : List UInt8) (i : ℕ) : List UInt8 :=
  (enc.drop (fullEncodedBlockSize * i)).take fullEncodedBlockSize

theorem decodeBlock_blockAt {blocks : ℕ} {enc data : List UInt8} (h : enc.length / 11 = blocks)
    (hdecode : decodeBlocks blocks enc = .ok data) {i : ℕ} (hi : 11 * i < enc.length) :
    ∃ bytes, decodeBlock (blockAt enc i) = .ok bytes := by
  induction blocks generalizing enc data i with
  | zero =>
      obtain rfl : i = 0 := by omega
      have hshort : blockAt enc 0 = enc := List.take_of_length_le (show enc.length ≤ 11 by omega)
      rw [decodeBlocks, if_pos (by omega)] at hdecode
      exact ⟨data, hshort.symm ▸ hdecode⟩
  | succ blocks ih =>
      obtain ⟨res, rest, hres, hrest, -⟩ := decodeBlocks_succ.mp hdecode
      have hdrop : (enc.drop fullEncodedBlockSize).length = enc.length - 11 := List.length_drop
      cases i with
      | zero => exact ⟨res, hres⟩
      | succ i =>
          have hblock : blockAt enc (i + 1) = blockAt (enc.drop fullEncodedBlockSize) i := by
            rw [blockAt, blockAt, List.drop_drop, Nat.mul_succ, Nat.add_comm]
          rw [hblock]
          exact ih (by omega) hrest (by omega)

theorem decodeBlock_blockAt_of_decode {enc data : List UInt8} (hdecode : decode enc = .ok data)
    {i : ℕ} (hi : 11 * i < enc.length) : ∃ bytes, decodeBlock (blockAt enc i) = .ok bytes := by
  rw [decode] at hdecode
  split at hdecode
  · rename_i hempty
    rw [hempty] at hi
    exact absurd hi (Nat.not_lt_zero _)
  · split at hdecode
    · cases hdecode
    · exact decodeBlock_blockAt rfl hdecode hi

theorem length_blockAt (enc : List UInt8) (i : ℕ) : (blockAt enc i).length ≤ 11 :=
  List.length_take_le _ _

theorem mem_blockAt {enc : List UInt8} {letter : UInt8} (h : letter ∈ enc) :
    ∃ i, 11 * i < enc.length ∧ letter ∈ blockAt enc i := by
  obtain ⟨j, hj, rfl⟩ := List.mem_iff_getElem.mp h
  refine ⟨j / 11, by omega, List.mem_iff_getElem.mpr ⟨j % 11, ?_, ?_⟩⟩
  · rw [blockAt, List.length_take, List.length_drop]
    show j % 11 < min 11 (enc.length - 11 * (j / 11))
    omega
  · simp only [blockAt, fullEncodedBlockSize, List.getElem_take, List.getElem_drop,
      Nat.div_add_mod]

theorem decodeBlocks_inBounds (blocks : ℕ) (enc : List UInt8) :
    decodeBlocks blocks enc ≠ .error .outOfBounds := by
  induction blocks generalizing enc with
  | zero =>
      rw [decodeBlocks]
      split
      · exact decodeBlock_inBounds enc
      · simp
  | succ blocks ih =>
      have hblock := decodeBlock_inBounds (enc.take fullEncodedBlockSize)
      have hrest := ih (enc.drop fullEncodedBlockSize)
      rw [decodeBlocks]
      split
      · rename_i e he
        rwa [he] at hblock
      · split
        · rename_i e he
          rwa [he] at hrest
        · simp

theorem decode_inBounds (enc : List UInt8) : decode enc ≠ .error .outOfBounds := by
  rw [decode]
  split
  · simp
  · split
    · simp
    · exact decodeBlocks_inBounds _ enc

theorem exists_error_of_ne_ok {enc : List UInt8} (h : ∀ data, decode enc ≠ .ok data) :
    ∃ e, decode enc = .error e := by
  cases hdecode : decode enc with
  | error e => exact ⟨e, rfl⟩
  | ok data => exact absurd hdecode (h data)

/-- Text and bytes are in bijection: decoding gives back what was encoded, and only the text that
is written for some bytes is decoded. No index leaves its block, and letters, lengths and numbers
that no bytes have are rejected. -/
theorem decode_encode :
    (∀ data, ∃ enc, encode data = some enc ∧ decode enc = .ok data) ∧
    (∀ enc data, decode enc = .ok data → encode data = some enc) ∧
    ((∀ block : List UInt8, 1 ≤ block.length → block.length ≤ 8 → encodeBlock block ≠ none) ∧
      (∀ block, decodeBlock block ≠ .error .outOfBounds) ∧
      ∀ enc, decode enc ≠ .error .outOfBounds) ∧
    (∀ enc, (∃ letter ∈ enc, letter ∉ alphabet) → ∃ e, decode enc = .error e) ∧
    (∀ enc, (∀ size ≤ 8, enc.length % 11 ≠ encodedBlockSize size) →
      decode enc = .error .invalidLength) ∧
    ∀ enc i size, 11 * i < enc.length → size ≤ 8 → (blockAt enc i).length = encodedBlockSize size →
      256 ^ size ≤ lettersValue (blockAt enc i) → ∃ e, decode enc = .error e := by
  refine ⟨fun data => ?_, fun enc data => (decode_iff enc data).mp,
    ⟨fun block _ hsize => ?_, decodeBlock_inBounds, decode_inBounds⟩, ?_, ?_, ?_⟩
  · obtain ⟨enc, hencode⟩ := encode_total data
    exact ⟨enc, hencode, (decode_iff enc data).mpr hencode⟩
  · rw [encodeBlock_eq hsize]
    simp
  · rintro enc ⟨letter, hmem, hletter⟩
    refine exists_error_of_ne_ok fun data hdecode => ?_
    obtain ⟨i, hi, hblock⟩ := mem_blockAt hmem
    obtain ⟨bytes, hbytes⟩ := decodeBlock_blockAt_of_decode hdecode hi
    obtain ⟨-, -, -, -, hletters, -⟩ := (decodeBlock_eq_ok (length_blockAt enc i)).mp hbytes
    exact hletter (hletters letter hblock)
  · intro enc hlength
    have hne : enc ≠ [] := by
      rintro rfl
      exact hlength 0 (by decide) rfl
    have hmod : enc.length % 11 ≤ 11 := by omega
    have hnone : decodedBlockSize (enc.length % 11) = -1 := by
      refine (decodedBlockSize_cases _ hmod).resolve_right ?_
      rintro ⟨size, hsize, hsome⟩
      exact hlength size hsize ((decodedBlockSize_eq _ hmod size hsize).mp hsome)
    show (if _ then _ else if decodedBlockSize (enc.length % 11) < 0 then _ else _) = _
    rw [if_neg hne, hnone, if_pos (by decide)]
  · intro enc i size hi hsize hlength hvalue
    refine exists_error_of_ne_ok fun data hdecode => ?_
    obtain ⟨bytes, hbytes⟩ := decodeBlock_blockAt_of_decode hdecode hi
    have hblock := length_blockAt enc i
    obtain ⟨size', -, hsize', hlength', -, hlt, -⟩ := (decodeBlock_eq_ok hblock).mp hbytes
    have hsame := (decodedBlockSize_eq _ hblock size hsize).mpr hlength
    have hsame' := (decodedBlockSize_eq _ hblock size' hsize').mpr hlength'
    obtain rfl : size = size' := by omega
    omega

end XrCoin.Common

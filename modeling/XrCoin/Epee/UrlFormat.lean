import Mathlib

/-!
The escaping of text in URLs: `conver_to_url_format` and `convert_from_url_format`.

A string is a list of bytes. Letters outside of ASCII have no upper case.
-/

namespace XrCoin.Epee

def ascii (s : String) : List UInt8 := s.toList.map fun c => c.toNat.toUInt8

def hexVals : List UInt8 := ascii "0123456789ABCDEF"

def unsaveChars : List UInt8 := ascii "\"<>%\\^[]`+$,@:;!#&"

def isUnsafe (c : UInt8) : Bool := c ≤ 32 || 123 ≤ c || unsaveChars.contains c

/-- `dec_to_hex` for the radix 16: its loop is left after one turn. -/
def decToHex (num : UInt8) : List UInt8 :=
  if num.toNat < 16 then
    [48, hexVals.getD num.toNat 0]
  else
    [hexVals.getD (num.toNat / 16) 0, hexVals.getD (num.toNat % 16) 0]

def percentEncoded (c : UInt8) : List UInt8 := 37 :: decToHex c

def converToUrlFormat (uri : List UInt8) : List UInt8 :=
  uri.flatMap fun c => if isUnsafe c then percentEncoded c else [c]

def toUpper (c : UInt8) : UInt8 := if 97 ≤ c ∧ c ≤ 122 then c - 32 else c

def hexIndex (c : UInt8) : Option ℕ := hexVals.idxOf? (toUpper c)

def hexToDec2Bytes (s₀ s₁ : UInt8) : List UInt8 :=
  match hexIndex s₀, hexIndex s₁ with
  | some i₀, some i₁ => [(i₀ * 16 ||| i₁).toUInt8]
  | _, _ => [37, s₀, s₁]

def convertFromUrlFormat : List UInt8 → List UInt8
  | [] => []
  | [a] => [a]
  | [a, b] => [a, b]
  | a :: b :: c :: rest =>
      if a = 37 then
        hexToDec2Bytes b c ++ convertFromUrlFormat rest
      else
        a :: convertFromUrlFormat (b :: c :: rest)

/-- A byte that is no percent sign stands for itself. -/
theorem convertFromUrlFormat_cons {a : UInt8} (h : a ≠ 37) (rest : List UInt8) :
    convertFromUrlFormat (a :: rest) = a :: convertFromUrlFormat rest := by
  match rest with
  | [] => rfl
  | [_] => rfl
  | _ :: _ :: _ => rw [convertFromUrlFormat, if_neg h]

theorem hexIndex_hexVals : ∀ n < 16, hexIndex (hexVals.getD n 0) = some n := by decide

theorem hexToDec2Bytes_hexVals {high low : ℕ} (hhigh : high < 16) (hlow : low < 16) :
    hexToDec2Bytes (hexVals.getD high 0) (hexVals.getD low 0) = [(high * 16 + low).toUInt8] := by
  have hor : high * 16 ||| low = high * 16 + low :=
    (by decide : ∀ high < 16, ∀ low < 16, high * 16 ||| low = high * 16 + low) high hhigh low hlow
  rw [hexToDec2Bytes, hexIndex_hexVals high hhigh, hexIndex_hexVals low hlow, ← hor]

theorem exists_decToHex (c : UInt8) :
    ∃ high low, decToHex c = [high, low] ∧ hexToDec2Bytes high low = [c] := by
  have hc := c.toNat_lt
  unfold decToHex
  split
  · next hlt =>
      refine ⟨48, _, rfl, ?_⟩
      have hzero : (48 : UInt8) = hexVals.getD 0 0 := by decide
      rw [hzero, hexToDec2Bytes_hexVals (by omega) hlt, Nat.zero_mul, Nat.zero_add]
      simp
  · refine ⟨_, _, rfl, ?_⟩
    rw [hexToDec2Bytes_hexVals (by omega) (by omega), Nat.div_add_mod']
    simp

theorem convertFromUrlFormat_percentEncoded (c : UInt8) (rest : List UInt8) :
    convertFromUrlFormat (percentEncoded c ++ rest) = c :: convertFromUrlFormat rest := by
  obtain ⟨high, low, hhex, hdec⟩ := exists_decToHex c
  rw [percentEncoded, hhex, List.cons_append, List.cons_append, List.cons_append,
    List.nil_append, convertFromUrlFormat, if_pos rfl, hdec]
  rfl

theorem convertFromUrlFormat_converToUrlFormat (s : List UInt8) :
    convertFromUrlFormat (converToUrlFormat s) = s := by
  induction s with
  | nil => rfl
  | cons c s ih =>
      rw [converToUrlFormat, List.flatMap_cons]
      by_cases hunsafe : isUnsafe c = true
      · rw [if_pos hunsafe, convertFromUrlFormat_percentEncoded]
        exact congrArg (c :: ·) ih
      · have hpercent : c ≠ 37 := by
          rintro rfl
          exact hunsafe (by decide)
        rw [if_neg hunsafe, List.singleton_append, convertFromUrlFormat_cons hpercent]
        exact congrArg (c :: ·) ih

def escapeChars : List UInt8 := 37 :: hexVals

theorem mem_percentEncoded {c b : UInt8} (h : b ∈ percentEncoded c) : b ∈ escapeChars := by
  have hval : ∀ n : ℕ, n < 16 → hexVals.getD n 0 ∈ hexVals := by decide
  have hc := c.toNat_lt
  rcases List.mem_cons.mp h with rfl | h
  · exact List.mem_cons_self
  · refine List.mem_cons_of_mem _ ?_
    unfold decToHex at h
    split at h
    · next hlt =>
        rcases List.mem_cons.mp h with rfl | h
        · decide
        · rw [List.mem_singleton.mp h]
          exact hval _ hlt
    · rcases List.mem_cons.mp h with rfl | h
      · exact hval _ (by omega)
      · rw [List.mem_singleton.mp h]
        exact hval _ (by omega)

/-- A byte that is not used for escaping is written only if it is not escaped itself. -/
theorem mem_converToUrlFormat {s : List UInt8} {b : UInt8} (hb : b ∉ escapeChars) :
    b ∈ converToUrlFormat s ↔ b ∈ s ∧ isUnsafe b = false := by
  rw [converToUrlFormat, List.mem_flatMap]
  constructor
  · rintro ⟨c, hc, hmem⟩
    split at hmem
    · exact absurd (mem_percentEncoded hmem) hb
    · next hsafe =>
        rw [List.mem_singleton.mp hmem]
        exact ⟨hc, by simpa using hsafe⟩
  · rintro ⟨hmem, hsafe⟩
    exact ⟨b, hmem, by rw [if_neg (by simp [hsafe])]; exact List.mem_singleton_self b⟩

end XrCoin.Epee

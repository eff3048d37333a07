import XrCoin.Archive.Varint

/-!
`read_varint` as a decoder of its own, by its return code. A positive code counts the bytes of a
number, except where the bytes end within one: there is no code for that.
-/

namespace XrCoin.Archive

/-- The bytes end within a number that could still go on. -/
def OpenWithin (bits : ℕ) (input : List UInt8) : Prop :=
  input ≠ [] ∧ (∀ byte ∈ input, 0x80 ≤ byte.toNat) ∧ 7 * input.length < bits

instance (bits : ℕ) (input : List UInt8) : Decidable (OpenWithin bits input) :=
  inferInstanceAs (Decidable (_ ∧ _))

/-- A positive code counts the bytes that the value is written as. -/
def CountsWritten (bits : ℕ) (input : List UInt8) : Prop :=
  0 < (readVarint bits input).code →
    input.take (readVarint bits input).code.toNat = writeVarint (readVarint bits input).value

variable {bits shift read write : ℕ} {input : List UInt8}

theorem readVarintLoop_of_open (hopen : ∀ byte ∈ input, 0x80 ≤ byte.toNat)
    (hwidth : shift + 7 * input.length < bits) :
    (readVarintLoop bits shift read write input).code = (read + input.length : ℕ) := by
  induction input generalizing shift read write with
  | nil => rfl
  | cons byte input ih =>
      obtain ⟨hbyte, hrest⟩ := List.forall_mem_cons.mp hopen
      rw [List.length_cons] at hwidth ⊢
      have hne : byte ≠ 0 := by
        rintro rfl
        simp at hbyte
      rw [readVarintLoop, if_neg (by omega), if_neg (by simp [hne]), if_neg (by omega),
        ih hrest (by omega)]
      push_cast
      ring

theorem readVarintLoop_of_too_long (hshift : shift < bits)
    (hopen : ∀ byte ∈ input, 0x80 ≤ byte.toNat) (hwidth : bits ≤ shift + 7 * input.length) :
    (readVarintLoop bits shift read write input).code = evarintOverflow := by
  induction input generalizing shift read write with
  | nil => exact absurd hwidth (by simpa using hshift)
  | cons byte input ih =>
      obtain ⟨hbyte, hrest⟩ := List.forall_mem_cons.mp hopen
      rw [List.length_cons] at hwidth
      rw [readVarintLoop]
      split
      · rfl
      · rename_i hover
        have hne : byte ≠ 0 := by
          rintro rfl
          simp at hbyte
        rw [if_neg (by simp [hne]), if_neg (by omega)]
        exact ih (continuation_fits hover hbyte) hrest (by omega)

theorem readVarintLoop_code (bits shift read write : ℕ) (input : List UInt8) :
    (readVarintLoop bits shift read write input).code = evarintOverflow ∨
      (readVarintLoop bits shift read write input).code = evarintRepresent ∨
      (readVarintLoop bits shift read write input).code = read ∧ input = [] ∨
      (read : ℤ) < (readVarintLoop bits shift read write input).code := by
  induction input generalizing shift read write with
  | nil => exact .inr (.inr (.inl ⟨rfl, rfl⟩))
  | cons byte input ih =>
      rw [readVarintLoop]
      split
      · exact .inl rfl
      split
      · exact .inr (.inl rfl)
      split
      · exact .inr (.inr (.inr (by simp)))
      · rcases ih (shift + 7) (read + 1) (write ||| (byte.toNat % 0x80) <<< shift) with
          hcode | hcode | ⟨hcode, -⟩ | hcode
        · exact .inl hcode
        · exact .inr (.inl hcode)
        · exact .inr (.inr (.inr (by rw [hcode]; simp)))
        · exact .inr (.inr (.inr (by push_cast at hcode; omega)))

theorem countsWritten_iff_not_open (hbits : 0 < bits) :
    CountsWritten bits input ↔ ¬OpenWithin bits input := by
  by_cases hends : ∃ byte ∈ input, byte.toNat < 0x80
  · refine iff_of_true (fun hcode => ?_) ?_
    · -- what was written and what is left make up the input
      have hwhole := writeVarint_readVarint hbits hcode hends
      have hsplit := List.take_append_drop (readVarint bits input).code.toNat input
      exact List.append_cancel_right (hsplit.trans hwhole.symm)
    · rintro ⟨-, hopen, -⟩
      obtain ⟨byte, hmem, hlt⟩ := hends
      exact absurd (hopen byte hmem) (Nat.not_le.mpr hlt)
  · have hopen : ∀ byte ∈ input, 0x80 ≤ byte.toNat := by
      intro byte hmem
      by_contra hlt
      exact hends ⟨byte, hmem, Nat.not_le.mp hlt⟩
    by_cases hwidth : 7 * input.length < bits
    · have hcode : (readVarint bits input).code = input.length := by
        rw [readVarint, readVarintLoop_of_open hopen (by omega), Nat.zero_add]
      rw [CountsWritten, hcode, Int.toNat_natCast, List.take_length]
      constructor
      · rintro hwritten ⟨hne, -, -⟩
        have hpos : 0 < input.length := List.length_pos_iff.mpr hne
        -- the last byte that is written has no top bit
        have hlast := writeVarint_getLast (readVarint bits input).value
        rw [← hwritten (by exact_mod_cast hpos)] at hlast
        have hlt := hlast _ (List.getLast?_eq_some_getLast hne)
        exact absurd (hopen _ (List.getLast_mem hne)) (Nat.not_le.mpr hlt)
      · intro hnot hpos
        refine absurd ⟨List.length_pos_iff.mp (by exact_mod_cast hpos), hopen, hwidth⟩ hnot
    · have hcode : (readVarint bits input).code = evarintOverflow :=
        readVarintLoop_of_too_long hbits hopen (by omega)
      refine iff_of_true (fun hpos => ?_) fun h => hwidth h.2.2
      rw [hcode] at hpos
      exact absurd hpos (by decide)

/-- What is written is read back in front of anything. A positive code counts the bytes of a
written number exactly when the bytes do not end within one, and every other code is a failure
or stands for no bytes. -/
theorem varint_codec (hbits : 0 < bits) :
    (∀ v < 2 ^ bits, ∀ suffix, readVarint bits (writeVarint v ++ suffix) =
      ⟨(writeVarint v).length, v, suffix⟩) ∧
    (∀ input, CountsWritten bits input ↔ ¬OpenWithin bits input) ∧
    ∀ input, (readVarint bits input).code ≤ 0 →
      (readVarint bits input).code = evarintOverflow ∨
        (readVarint bits input).code = evarintRepresent ∨ input = [] := by
  refine ⟨fun v hv suffix => readVarint_writeVarint hbits hv suffix,
    fun input => countsWritten_iff_not_open hbits, fun input hcode => ?_⟩
  rcases readVarintLoop_code bits 0 0 0 input with h | h | ⟨-, h⟩ | h
  · exact .inl h
  · exact .inr (.inl h)
  · exact .inr (.inr h)
  · exact absurd hcode (not_le.mpr h)

/-- The byte `0x80` alone counts as one byte of the number zero. -/
theorem openByte_miscounted :
    (readVarint 64 [0x80]).code = 1 ∧ (readVarint 64 [0x80]).value = 0 ∧
      ¬CountsWritten 64 [0x80] := by
  refine ⟨by decide, by decide, fun h => ?_⟩
  cases h (by decide)

/-- The number 300 is read back in front of another byte, and its bytes are counted. -/
theorem varint_codec_64 :
    readVarint 64 (writeVarint 300 ++ [7]) = ⟨(writeVarint 300).length, 300, [7]⟩ ∧
      (CountsWritten 64 [0xac, 0x02, 7] ↔ ¬OpenWithin 64 [0xac, 0x02, 7]) := by
  constructor
  · exact (varint_codec (by decide)).1 300 (by decide) [7]
  · exact (varint_codec (by decide)).2.1 [0xac, 0x02, 7]

end XrCoin.Archive

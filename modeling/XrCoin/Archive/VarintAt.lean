import XrCoin.Archive.Binary

/-!
Varints in front of a tail. A read either stops by itself, and does so in front of every tail,
or it took all there was; and of a reader only its value and what it leaves matter here, not
what it logs.
-/

namespace XrCoin.Archive

/-! ### Varints -/

/-- In front of `tail` the bytes `piece` are read as one varint. -/
def VarintAt (bits : ℕ) (piece : List UInt8) (value : ℕ) (tail : List UInt8) : Prop :=
  (readVarint bits (piece ++ tail)).value = value ∧ (readVarint bits (piece ++ tail)).rest = tail

theorem readVarintLoop_rest_length (bits shift read write : ℕ) (byte : UInt8)
    (rest : List UInt8) :
    (readVarintLoop bits shift read write (byte :: rest)).rest.length ≤ rest.length := by
  induction rest generalizing shift read write byte with
  | nil =>
      simp only [readVarintLoop]
      split
      · simp
      · split
        · simp
        · split <;> simp
  | cons next rest ih =>
      rw [readVarintLoop]
      split
      · simp
      · split
        · simp
        · split
          · simp
          · exact (ih _ _ _ next).trans (by simp)

/-- A read that left `tail` behind a piece stops there in front of any other tail too, unless it
ran out of bytes. Then it was still within its width, and found zero only in bytes `0x80`. -/
theorem readVarintLoop_closed_or_open {bits shift read write : ℕ} (hshift : shift < bits)
    {piece tail : List UInt8}
    (hrest : (readVarintLoop bits shift read write (piece ++ tail)).rest = tail) :
    (∀ t, (readVarintLoop bits shift read write (piece ++ t)).value =
        (readVarintLoop bits shift read write (piece ++ tail)).value ∧
      (readVarintLoop bits shift read write (piece ++ t)).rest = t) ∨
    tail = [] ∧ shift + 7 * piece.length < bits ∧
      ((readVarintLoop bits shift read write (piece ++ tail)).value = 0 →
        write = 0 ∧ piece = List.replicate piece.length 0x80) := by
  induction piece generalizing shift read write with
  | nil =>
      cases tail with
      | nil => exact .inr ⟨rfl, by simpa using hshift, fun hzero => ⟨hzero, rfl⟩⟩
      | cons byte tail =>
          have hle := readVarintLoop_rest_length bits shift read write byte tail
          rw [List.nil_append] at hrest
          rw [hrest] at hle
          simp at hle
  | cons byte piece ih =>
      simp only [List.cons_append, readVarintLoop] at hrest ⊢
      split at hrest
      · rename_i hover
        obtain rfl : piece = [] := by simpa using hrest
        exact .inl fun t => by simp [hover]
      · rename_i hover
        split at hrest
        · rename_i hrep
          obtain rfl : piece = [] := by simpa using hrest
          exact .inl fun t => by simp [hrep]
        · rename_i hrep
          split at hrest
          · rename_i hend
            obtain rfl : piece = [] := by simpa using hrest
            exact .inl fun t => by simp [hover, hrep, hend]
          · rename_i hcont
            simp only [if_neg hover, if_neg hrep, if_neg hcont]
            rcases ih (continuation_fits hover (Nat.le_of_not_lt hcont)) hrest with hclosed | hopen
            · exact .inl hclosed
            · obtain ⟨rfl, hwidth, hvalue⟩ := hopen
              refine .inr ⟨rfl, by rw [List.length_cons]; omega, fun hzero => ?_⟩
              obtain ⟨hwrite, hpiece⟩ := hvalue hzero
              rw [Nat.or_eq_zero_iff, Nat.shiftLeft_eq_zero_iff] at hwrite
              have hbyte : byte = 0x80 := by
                have hlt := byte.toNat_lt
                apply UInt8.toNat_inj.mp
                show byte.toNat = 128
                omega
              refine ⟨hwrite.1, ?_⟩
              rw [hbyte, List.length_cons, List.replicate_succ, ← hpiece]

namespace VarintAt

variable {bits value value' : ℕ} {piece piece' tail tail' : List UInt8}

/-- The read stops by itself, or it is cut off by the end. -/
theorem closed_or_open (hbits : 0 < bits) (h : VarintAt bits piece value tail) :
    (∀ t, VarintAt bits piece value t) ∨
      tail = [] ∧ 7 * piece.length < bits ∧
        (value = 0 → piece = List.replicate piece.length 0x80) := by
  obtain ⟨rfl, hrest⟩ := h
  rcases readVarintLoop_closed_or_open hbits hrest with hclosed | ⟨htail, hwidth, hvalue⟩
  · exact .inl hclosed
  · exact .inr ⟨htail, by omega, fun hzero => (hvalue hzero).2⟩

theorem value_lt (hbits : 0 < bits) (h : VarintAt bits piece value tail) : value < 2 ^ bits :=
  h.1 ▸ readVarint_value_lt hbits _

theorem of_write (hbits : 0 < bits) (hvalue : value < 2 ^ bits) (tail : List UInt8) :
    VarintAt bits (writeVarint value) value tail := by
  rw [VarintAt, readVarint_writeVarint hbits hvalue]
  exact ⟨rfl, rfl⟩

theorem unique (h : VarintAt bits piece value tail) (h' : VarintAt bits piece' value' tail')
    (heq : piece ++ tail = piece' ++ tail') : piece = piece' ∧ value = value' ∧ tail = tail' := by
  obtain ⟨rfl, hrest⟩ := h
  obtain ⟨rfl, hrest'⟩ := h'
  rw [← heq, hrest] at hrest'
  subst hrest'
  exact ⟨List.append_cancel_right heq, by rw [heq], rfl⟩

/-- Where there is something to read, a varint takes some of it. -/
theorem nil_tail (h : VarintAt bits [] value tail) : tail = [] := by
  cases tail with
  | nil => rfl
  | cons byte tail =>
      have hle := readVarintLoop_rest_length bits 0 0 0 byte tail
      have hrest : (readVarintLoop bits 0 0 0 (byte :: tail)).rest = byte :: tail := h.2
      rw [hrest] at hle
      simp at hle

/-- There is a varint at the front of all bytes. -/
theorem exists_piece (bits : ℕ) (input : List UInt8) :
    ∃ piece, input = piece ++ (readVarint bits input).rest ∧
      VarintAt bits piece (readVarint bits input).value (readVarint bits input).rest := by
  obtain ⟨piece, hsplit, -⟩ := readVarint_split bits input
  refine ⟨piece, hsplit, ?_⟩
  rw [VarintAt, ← hsplit]
  exact ⟨rfl, rfl⟩

/-- The bytes are those of the writer exactly when they are well formed. -/
theorem canonical_iff (hbits : 0 < bits) (h : VarintAt bits piece value tail) :
    piece = writeVarint value ↔ VarintWellFormed bits piece := by
  have hlt := h.value_lt hbits
  obtain ⟨hvalue, hrest⟩ := h
  obtain ⟨alone, hsplit, hagain⟩ := readVarint_split bits (piece ++ tail)
  rw [hrest] at hsplit
  obtain rfl := List.append_cancel_right hsplit
  constructor
  · rintro rfl
    exact wellFormed_writeVarint hbits hlt
  · intro hwf
    rw [← writeVarint_value_of_wellFormed hbits (by rw [hagain]) hwf, hagain, hvalue]

end VarintAt

theorem writeVarint_two_mul (k : ℕ) :
    writeVarint (2 * 128 ^ k) = List.replicate k 0x80 ++ [0x02] := by
  induction k with
  | zero => rfl
  | succ k ih =>
      have hpos : 0 < 128 ^ k := Nat.pow_pos (by omega)
      have hmod : 2 * 128 ^ (k + 1) % 128 = 0 := by
        rw [pow_succ, ← Nat.mul_assoc]
        exact Nat.mul_mod_left _ _
      have hdiv : 2 * 128 ^ (k + 1) / 128 = 2 * 128 ^ k := by
        rw [pow_succ, ← Nat.mul_assoc]
        exact Nat.mul_div_cancel _ (by omega)
      have hle : 0x80 ≤ 2 * 128 ^ (k + 1) := by
        rw [pow_succ]
        omega
      rw [writeVarint_of_le hle, hmod, hdiv, ih, List.replicate_succ]
      rfl

/-! ### Readers without their log -/

/-- The reader has a value and leaves `rest`. -/
def Reads {α : Type} (r : Reader α) (s : InStream) (a : α) (rest : List UInt8) : Prop :=
  ∃ s', r s = some (a, s') ∧ s'.rest = rest

namespace Reads

variable {α β : Type} {s : InStream} {rest : List UInt8}

theorem of_eq {r : Reader α} {a : α} {s' : InStream} (h : r s = some (a, s')) :
    Reads r s a s'.rest := ⟨s', h, rfl⟩

theorem bind_iff {r : Reader α} {k : α → Reader β} {b : β} :
    Reads (r >>= k) s b rest ↔ ∃ a s₁, r s = some (a, s₁) ∧ Reads (k a) s₁ b rest := by
  simp only [Reads, Reader.bind_eq_some]
  constructor
  · rintro ⟨s', ⟨a, s₁, hr, hk⟩, hrest⟩
    exact ⟨a, s₁, hr, s', hk, hrest⟩
  · rintro ⟨a, s₁, hr, s', hk, hrest⟩
    exact ⟨s', ⟨a, s₁, hr, hk⟩, hrest⟩

/-- Where the second reader only looks at the bytes, so does the composition. -/
theorem bind_congr {r : Reader α} {k : α → Reader β} {b : β} {P : α → List UInt8 → Prop}
    (hk : ∀ a s₁, Reads (k a) s₁ b rest ↔ P a s₁.rest) :
    Reads (r >>= k) s b rest ↔ ∃ a left, Reads r s a left ∧ P a left := by
  rw [bind_iff]
  constructor
  · rintro ⟨a, s₁, hr, hreads⟩
    exact ⟨a, s₁.rest, of_eq hr, (hk a s₁).mp hreads⟩
  · rintro ⟨a, left, ⟨s₁, hr, rfl⟩, hP⟩
    exact ⟨a, s₁, hr, (hk a s₁).mpr hP⟩

theorem pure_iff {a b : α} : Reads (pure a : Reader α) s b rest ↔ a = b ∧ s.rest = rest := by
  simp only [Reads, Reader.pure_eq_some]
  constructor
  · rintro ⟨s', ⟨hab, rfl⟩, hrest⟩
    exact ⟨hab, hrest⟩
  · rintro ⟨hab, hrest⟩
    exact ⟨s, ⟨hab, rfl⟩, hrest⟩

theorem fail_iff {a : α} : Reads (Reader.fail : Reader α) s a rest ↔ False := by
  simp [Reads, Reader.fail]

theorem blob_iff {n : ℕ} {v : List.Vector UInt8 n} :
    Reads (Reader.blob n) s v rest ↔ s.rest = v.val ++ rest := by
  constructor
  · rintro ⟨s', h, rfl⟩
    rw [Reader.blob] at h
    split at h
    · obtain ⟨rfl, rfl⟩ := Prod.mk.inj (Option.some.inj h)
      exact (List.take_append_drop n s.rest).symm
    · cases h
  · intro h
    obtain ⟨s', hs', hrest⟩ := Delivers.blob v s rest h
    exact ⟨s', hs', hrest⟩

theorem uint8_iff {v : UInt8} : Reads loadUint8 s v rest ↔ s.rest = v :: rest := by
  constructor
  · rintro ⟨s', h, rfl⟩
    obtain ⟨n, s₁, hn, h⟩ := Reader.bind_eq_some.mp h
    obtain ⟨rfl, rfl⟩ := Reader.pure_eq_some.mp h
    obtain ⟨bs, s₂, hbs, hn⟩ := Reader.bind_eq_some.mp hn
    obtain ⟨rfl, rfl⟩ := Reader.pure_eq_some.mp hn
    rw [blob_iff.mp (of_eq hbs)]
    obtain ⟨byte, hbyte⟩ := List.length_eq_one_iff.mp bs.2
    rw [hbyte]
    simp [leValue]
  · intro h
    have hsave : (saveUint8 v).bytes = [v] := by simp [saveUint8, saveUint, leBytes, Nat.mod_eq_of_lt v.toNat_lt]
    obtain ⟨s', hs', hrest⟩ := inverts_uint8 v rfl s rest (by rw [hsave, h]; rfl)
    exact ⟨s', hs', hrest⟩

theorem varint64_iff {v : UInt64} :
    Reads loadVarint64 s v rest ↔
      ∃ piece, s.rest = piece ++ rest ∧ VarintAt 64 piece v.toNat rest := by
  have hread : ∀ n left, Reads (Reader.varint 64) s n left ↔
      n = (readVarint 64 s.rest).value ∧ left = (readVarint 64 s.rest).rest := by
    intro n left
    simp [Reads, Reader.varint, eq_comm]
  have hlt := readVarint_value_lt (show 0 < 64 by decide) s.rest
  rw [loadVarint64, bind_congr (P := fun n left => UInt64.ofNat n = v ∧ left = rest)
    fun a s₁ => pure_iff]
  simp only [hread]
  constructor
  · rintro ⟨n, left, ⟨rfl, rfl⟩, rfl, rfl⟩
    obtain ⟨piece, hsplit, hat⟩ := VarintAt.exists_piece 64 s.rest
    rw [UInt64.toNat_ofNat_of_lt' hlt]
    exact ⟨piece, hsplit, hat⟩
  · rintro ⟨piece, hsplit, hvalue, hrest⟩
    rw [← hsplit] at hvalue hrest
    exact ⟨_, _, ⟨rfl, rfl⟩, by rw [hvalue]; simp, hrest⟩

end Reads

end XrCoin.Archive

import Mathlib

/-!
Variable-length integers: seven payload bits a byte, least significant group
first, the top bit set on every byte but the last.

The reader reports failures through a return code and keeps whatever value it
had accumulated; it is the caller who has to look at the code. Everything the
rest of the archive needs about a read is therefore stated for every outcome:
what was consumed, which value came out, and when the consumed bytes are the
ones the writer would have produced for that value.
-/

namespace XrCoin.Archive

def evarintOverflow : ℤ := -1

def evarintRepresent : ℤ := -2

/-- The loop of `write_varint`. The first argument only bounds the number of
iterations. -/
def writeVarintLoop : ℕ → ℕ → List UInt8
  | 0, i => [UInt8.ofNat i]
  | fuel + 1, i =>
      if 0x80 ≤ i then UInt8.ofNat (i % 0x80 + 0x80) :: writeVarintLoop fuel (i / 0x80)
      else [UInt8.ofNat i]

def writeVarint (i : ℕ) : List UInt8 := writeVarintLoop i i

/-- What `read_varint` leaves behind: its return code, the value in `write`,
and the input after the last byte it looked at. -/
structure VarintRead where
  code : ℤ
  value : ℕ
  rest : List UInt8
  deriving DecidableEq, Repr

/-- The loop of `read_varint`: `shift` bits have been filled from `read`
bytes into `write`. -/
def readVarintLoop (bits : ℕ) : ℕ → ℕ → ℕ → List UInt8 → VarintRead
  | _, read, write, [] => ⟨read, write, []⟩
  | shift, read, write, byte :: rest =>
      if bits ≤ shift + 7 ∧ 2 ^ (bits - shift) ≤ byte.toNat then
        ⟨evarintOverflow, write, rest⟩
      else if byte = 0 ∧ shift ≠ 0 then
        ⟨evarintRepresent, write, rest⟩
      else if byte.toNat < 0x80 then
        ⟨read + 1, write ||| (byte.toNat % 0x80) <<< shift, rest⟩
      else
        readVarintLoop bits (shift + 7) (read + 1)
          (write ||| (byte.toNat % 0x80) <<< shift) rest

def readVarint (bits : ℕ) (input : List UInt8) : VarintRead :=
  readVarintLoop bits 0 0 0 input

/-! ### The writer -/

theorem writeVarintLoop_fuel {fuel i : ℕ} (hfuel : i ≤ fuel) :
    writeVarintLoop fuel i = writeVarint i := by
  suffices h : ∀ n i, i ≤ n → ∀ m, i ≤ m → writeVarintLoop m i = writeVarintLoop n i from
    h i i le_rfl fuel hfuel
  intro n
  induction n with
  | zero =>
      intro i hi m hm
      obtain rfl : i = 0 := by omega
      cases m <;> rfl
  | succ n ih =>
      intro i hi m hm
      cases m with
      | zero =>
          obtain rfl : i = 0 := by omega
          rfl
      | succ m =>
          simp only [writeVarintLoop]
          split
          · rw [ih (i / 0x80) (by omega) m (by omega)]
          · rfl

theorem writeVarint_of_lt {i : ℕ} (hi : i < 0x80) : writeVarint i = [UInt8.ofNat i] := by
  unfold writeVarint
  cases i with
  | zero => rfl
  | succ i => rw [writeVarintLoop, if_neg (by omega)]

theorem writeVarint_of_le {i : ℕ} (hi : 0x80 ≤ i) :
    writeVarint i = UInt8.ofNat (i % 0x80 + 0x80) :: writeVarint (i / 0x80) := by
  unfold writeVarint
  obtain ⟨n, rfl⟩ : ∃ n, i = n + 1 := ⟨i - 1, by omega⟩
  rw [writeVarintLoop, if_pos hi, writeVarintLoop_fuel (by omega)]
  rfl

theorem writeVarint_length_pos (i : ℕ) : 1 ≤ (writeVarint i).length := by
  by_cases hi : i < 0x80
  · simp [writeVarint_of_lt hi]
  · simp [writeVarint_of_le (Nat.le_of_not_lt hi)]

/-! ### Arithmetic of one group -/

theorem or_group {write shift : ℕ} (hwrite : write < 2 ^ shift) (group : ℕ) :
    write ||| group <<< shift = write + 2 ^ shift * group := by
  rw [Nat.shiftLeft_eq, Nat.mul_comm, Nat.or_comm, ← Nat.two_pow_add_eq_or_of_lt hwrite,
    Nat.add_comm]

theorem toNat_ofNat_byte {n : ℕ} (hn : n < 256) : (UInt8.ofNat n).toNat = n := by
  rw [UInt8.toNat_ofNat']
  exact Nat.mod_eq_of_lt hn

theorem ofNat_byte_ne_zero {n : ℕ} (hn : n < 256) (hpos : 0 < n) : UInt8.ofNat n ≠ 0 := by
  intro h
  have hval := congrArg UInt8.toNat h
  rw [toNat_ofNat_byte hn] at hval
  simp at hval
  omega

theorem group_fits {bits shift byte : ℕ} (hbyte : byte < 256)
    (hover : ¬(bits ≤ shift + 7 ∧ 2 ^ (bits - shift) ≤ byte)) (hshift : shift < bits) :
    2 ^ shift * (byte % 0x80) + 2 ^ shift ≤ 2 ^ bits := by
  have hpos : 0 < 2 ^ shift := Nat.two_pow_pos shift
  have hgroup : byte % 0x80 + 1 ≤ 2 ^ (bits - shift) := by
    by_cases hlast : bits ≤ shift + 7
    · have : byte < 2 ^ (bits - shift) := by
        by_contra hle
        exact hover ⟨hlast, Nat.le_of_not_lt hle⟩
      omega
    · have hpow : 2 ^ 7 ≤ 2 ^ (bits - shift) := Nat.pow_le_pow_right (by omega) (by omega)
      omega
  calc
    2 ^ shift * (byte % 0x80) + 2 ^ shift = 2 ^ shift * (byte % 0x80 + 1) := by ring
    _ ≤ 2 ^ shift * 2 ^ (bits - shift) := Nat.mul_le_mul_left _ hgroup
    _ = 2 ^ bits := by rw [← Nat.pow_add]; congr 1; omega

theorem continuation_fits {bits shift byte : ℕ}
    (hover : ¬(bits ≤ shift + 7 ∧ 2 ^ (bits - shift) ≤ byte)) (hcont : 0x80 ≤ byte) :
    shift + 7 < bits := by
  by_contra hle
  apply hover
  refine ⟨by omega, ?_⟩
  calc
    2 ^ (bits - shift) ≤ 2 ^ 7 := Nat.pow_le_pow_right (by omega) (by omega)
    _ ≤ byte := hcont

/-! ### Every read, failed or not -/

/-- A read consumes a front piece of its input, and reading that piece alone
gives the same code and value. -/
theorem readVarintLoop_split (bits shift read write : ℕ) (input : List UInt8) :
    ∃ piece, input = piece ++ (readVarintLoop bits shift read write input).rest ∧
      readVarintLoop bits shift read write piece =
        { readVarintLoop bits shift read write input with rest := [] } := by
  induction input generalizing shift read write with
  | nil => exact ⟨[], rfl, rfl⟩
  | cons byte rest ih =>
      simp only [readVarintLoop]
      split
      · exact ⟨[byte], rfl, by simp [readVarintLoop, *]⟩
      · split
        · exact ⟨[byte], rfl, by simp [readVarintLoop, *]⟩
        · split
          · exact ⟨[byte], rfl, by simp [readVarintLoop, *]⟩
          · rename_i hover hrep hcont
            obtain ⟨piece, hsplit, hagain⟩ := ih (shift + 7) (read + 1)
              (write ||| (byte.toNat % 0x80) <<< shift)
            refine ⟨byte :: piece, ?_, ?_⟩
            · rw [List.cons_append, ← hsplit]
            · rw [← hagain, readVarintLoop, if_neg hover, if_neg hrep, if_neg hcont]

theorem readVarint_split (bits : ℕ) (input : List UInt8) :
    ∃ piece, input = piece ++ (readVarint bits input).rest ∧
      readVarint bits piece = { readVarint bits input with rest := [] } :=
  readVarintLoop_split bits 0 0 0 input

/-- Whatever the outcome, the accumulated value fits the width. -/
theorem readVarintLoop_value_lt {bits shift read write : ℕ} (hshift : shift < bits)
    (hwrite : write < 2 ^ shift) (input : List UInt8) :
    (readVarintLoop bits shift read write input).value < 2 ^ bits := by
  induction input generalizing shift read write with
  | nil => exact hwrite.trans (Nat.pow_lt_pow_right (by omega) hshift)
  | cons byte rest ih =>
      have hw : write < 2 ^ bits := hwrite.trans (Nat.pow_lt_pow_right (by omega) hshift)
      simp only [readVarintLoop]
      split
      · exact hw
      · rename_i hover
        have hfits := group_fits byte.toNat_lt hover hshift
        split
        · exact hw
        · split
          · simp only
            rw [or_group hwrite]
            omega
          · rename_i hcont
            apply ih (continuation_fits hover (by omega))
            rw [or_group hwrite, Nat.pow_add]
            have hgroup : byte.toNat % 0x80 ≤ 127 := by omega
            have := Nat.mul_le_mul_left (2 ^ shift) hgroup
            omega

theorem readVarint_value_lt {bits : ℕ} (hbits : 0 < bits) (input : List UInt8) :
    (readVarint bits input).value < 2 ^ bits :=
  readVarintLoop_value_lt hbits (by simp) input

/-! ### Reading what was written -/

theorem readVarintLoop_writeVarint {bits : ℕ} (v : ℕ) :
    ∀ shift read write, shift < bits → write < 2 ^ shift → (shift ≠ 0 → 0 < v) →
      write + 2 ^ shift * v < 2 ^ bits → ∀ rest,
      readVarintLoop bits shift read write (writeVarint v ++ rest) =
        ⟨read + (writeVarint v).length, write + 2 ^ shift * v, rest⟩ := by
  induction v using Nat.strong_induction_on with
  | _ v ih =>
      intro shift read write hshift hwrite hpos hfits rest
      have hp : 0 < 2 ^ shift := Nat.two_pow_pos shift
      have hpow : 2 ^ bits = 2 ^ shift * 2 ^ (bits - shift) := by
        rw [← Nat.pow_add]
        congr 1
        omega
      have hv : v < 2 ^ (bits - shift) := by
        rw [hpow] at hfits
        have : 2 ^ shift * v < 2 ^ shift * 2 ^ (bits - shift) := by omega
        exact Nat.lt_of_mul_lt_mul_left this
      by_cases hlast : v < 0x80
      · rw [writeVarint_of_lt hlast]
        have hbyte : (UInt8.ofNat v).toNat = v := toNat_ofNat_byte (by omega)
        have hover : ¬(bits ≤ shift + 7 ∧ 2 ^ (bits - shift) ≤ v) := by omega
        have hrep : ¬(UInt8.ofNat v = 0 ∧ shift ≠ 0) := by
          rintro ⟨hzero, hne⟩
          exact ofNat_byte_ne_zero (by omega) (hpos hne) hzero
        simp only [List.singleton_append, readVarintLoop, hbyte, if_neg hover, if_neg hrep,
          if_pos hlast, Nat.mod_eq_of_lt hlast, or_group hwrite]
        simp
      · have hle : 0x80 ≤ v := Nat.le_of_not_lt hlast
        rw [writeVarint_of_le hle]
        have hbyte : (UInt8.ofNat (v % 0x80 + 0x80)).toNat = v % 0x80 + 0x80 :=
          toNat_ofNat_byte (by omega)
        have hroom : shift + 7 < bits := by
          by_contra hno
          have : 2 ^ (bits - shift) ≤ 2 ^ 7 := Nat.pow_le_pow_right (by omega) (by omega)
          omega
        have hover : ¬(bits ≤ shift + 7 ∧ 2 ^ (bits - shift) ≤ v % 0x80 + 0x80) := by omega
        have hrep : ¬(UInt8.ofNat (v % 0x80 + 0x80) = 0 ∧ shift ≠ 0) := by
          rintro ⟨hzero, -⟩
          exact ofNat_byte_ne_zero (by omega) (by omega) hzero
        have hcont : ¬v % 0x80 + 0x80 < 0x80 := by omega
        have hgroup : (v % 0x80 + 0x80) % 0x80 = v % 0x80 := by omega
        have hnext : 2 ^ (shift + 7) = 2 ^ shift * 0x80 := by rw [Nat.pow_add]
        have hsum : write + 2 ^ shift * (v % 0x80) + 2 ^ (shift + 7) * (v / 0x80) =
            write + 2 ^ shift * v := by
          have hdiv : v = v % 0x80 + 0x80 * (v / 0x80) := by omega
          calc
            write + 2 ^ shift * (v % 0x80) + 2 ^ (shift + 7) * (v / 0x80) =
                write + 2 ^ shift * (v % 0x80 + 0x80 * (v / 0x80)) := by rw [hnext]; ring
            _ = write + 2 ^ shift * v := by rw [← hdiv]
        have hstep := ih (v / 0x80) (by omega) (shift + 7) (read + 1)
          (write + 2 ^ shift * (v % 0x80)) hroom
          (by
            rw [hnext]
            have := Nat.mul_le_mul_left (2 ^ shift) (show v % 0x80 ≤ 127 by omega)
            omega)
          (fun _ => by omega) (by rw [hsum]; exact hfits) rest
        simp only [List.cons_append, readVarintLoop, hbyte, if_neg hover, if_neg hrep,
          if_neg hcont, hgroup, or_group hwrite]
        rw [hstep, hsum]
        simp only [List.length_cons, VarintRead.mk.injEq, and_true]
        push_cast
        ring

/-- Reading a written value gives it back, with the number of bytes written as
the return code, whatever follows it in the input. -/
theorem readVarint_writeVarint {bits v : ℕ} (hbits : 0 < bits) (hv : v < 2 ^ bits)
    (rest : List UInt8) :
    readVarint bits (writeVarint v ++ rest) = ⟨(writeVarint v).length, v, rest⟩ := by
  have h := readVarintLoop_writeVarint v 0 0 0 hbits (by simp) (by simp) (by simpa using hv) rest
  simpa [readVarint] using h

/-! ### When the consumed bytes are the written ones -/

/-- `bytes` is a varint `read_varint` finds nothing wrong with: no failure
code, and it did not stop for lack of input. -/
def VarintWellFormed (bits : ℕ) (bytes : List UInt8) : Prop :=
  0 < (readVarint bits bytes).code ∧ ∀ b ∈ bytes.getLast?, b.toNat < 0x80

instance (bits : ℕ) (bytes : List UInt8) : Decidable (VarintWellFormed bits bytes) :=
  inferInstanceAs (Decidable (_ ∧ _))

theorem readVarintLoop_wellFormed {bits : ℕ} (bytes : List UInt8) :
    ∀ shift read write, shift < bits → write < 2 ^ shift → (bytes = [] → shift = 0) →
      0 < (readVarintLoop bits shift read write bytes).code →
      (readVarintLoop bits shift read write bytes).rest = [] →
      bytes ≠ [] → (∀ b ∈ bytes.getLast?, b.toNat < 0x80) →
      ∃ v, (readVarintLoop bits shift read write bytes).value = write + 2 ^ shift * v ∧
        writeVarint v = bytes ∧ (shift ≠ 0 → 0 < v) := by
  induction bytes with
  | nil => intro _ _ _ _ _ _ _ _ hne; exact absurd rfl hne
  | cons byte rest ih =>
      intro shift read write hshift hwrite _ hcode hrest _ hlast
      simp only [readVarintLoop] at hcode hrest ⊢
      split at hcode
      · exact absurd hcode (by simp [evarintOverflow])
      · rename_i hover
        rw [if_neg hover] at hrest ⊢
        split at hcode
        · exact absurd hcode (by simp [evarintRepresent])
        · rename_i hrep
          rw [if_neg hrep] at hrest ⊢
          by_cases hend : byte.toNat < 0x80
          · rw [if_pos hend] at hrest ⊢
            simp only at hrest ⊢
            refine ⟨byte.toNat, ?_, ?_, ?_⟩
            · rw [Nat.mod_eq_of_lt hend, or_group hwrite]
            · rw [writeVarint_of_lt hend, hrest]
              simp
            · intro hne
              by_contra hzero
              apply hrep
              refine ⟨?_, hne⟩
              apply UInt8.toNat_inj.mp
              simpa using Nat.le_zero.mp (Nat.le_of_not_lt hzero)
          · rw [if_neg hend] at hcode hrest ⊢
            have hnil : rest ≠ [] := by
              rintro rfl
              exact hend (hlast byte (by simp))
            have hroom := continuation_fits hover (Nat.le_of_not_lt hend)
            have hgroup : byte.toNat % 0x80 ≤ 127 := by omega
            have hnext : 2 ^ (shift + 7) = 2 ^ shift * 0x80 := by rw [Nat.pow_add]
            obtain ⟨v, hvalue, hbytes, hv⟩ := ih (shift + 7) (read + 1)
              (write ||| (byte.toNat % 0x80) <<< shift) hroom
              (by
                rw [or_group hwrite, hnext]
                have := Nat.mul_le_mul_left (2 ^ shift) hgroup
                omega)
              (fun h => absurd h hnil) hcode hrest hnil
              (by
                intro b hb
                apply hlast b
                rw [List.getLast?_cons]
                obtain ⟨c, hc⟩ := Option.isSome_iff_exists.mp
                  (by simpa using hnil : rest.getLast?.isSome)
                simp_all)
            have hvpos : 0 < v := hv (by omega)
            have hbyte := byte.toNat_lt
            refine ⟨byte.toNat % 0x80 + 0x80 * v, ?_, ?_, fun _ => by omega⟩
            · rw [hvalue, or_group hwrite, hnext]
              ring
            · rw [writeVarint_of_le (by omega)]
              have hmod : (byte.toNat % 0x80 + 0x80 * v) % 0x80 = byte.toNat % 0x80 := by omega
              have hdiv : (byte.toNat % 0x80 + 0x80 * v) / 0x80 = v := by omega
              have hval : byte.toNat % 0x80 + 0x80 = byte.toNat := by omega
              rw [hmod, hdiv, hbytes, hval]
              simp

theorem writeVarint_value_of_wellFormed {bits : ℕ} (hbits : 0 < bits) {bytes : List UInt8}
    (hrest : (readVarint bits bytes).rest = []) (hwf : VarintWellFormed bits bytes) :
    writeVarint (readVarint bits bytes).value = bytes := by
  obtain ⟨hcode, hlast⟩ := hwf
  have hne : bytes ≠ [] := by
    rintro rfl
    exact absurd hcode (by simp [readVarint, readVarintLoop])
  obtain ⟨v, hvalue, hbytes, -⟩ := readVarintLoop_wellFormed bytes 0 0 0 hbits (by simp)
    (fun _ => rfl) hcode hrest hne hlast
  unfold readVarint
  rw [hvalue]
  simpa using hbytes

theorem writeVarint_getLast (v : ℕ) : ∀ b ∈ (writeVarint v).getLast?, b.toNat < 0x80 := by
  induction v using Nat.strong_induction_on with
  | _ v ih =>
      by_cases hlast : v < 0x80
      · rw [writeVarint_of_lt hlast]
        simp only [List.getLast?_singleton, Option.mem_some_iff, forall_eq']
        rw [toNat_ofNat_byte (by omega)]
        exact hlast
      · rw [writeVarint_of_le (Nat.le_of_not_lt hlast), List.getLast?_cons]
        have hne : writeVarint (v / 0x80) ≠ [] :=
          List.ne_nil_of_length_pos (writeVarint_length_pos _)
        obtain ⟨c, hc⟩ := Option.isSome_iff_exists.mp
          (by simpa using hne : (writeVarint (v / 0x80)).getLast?.isSome)
        intro b hb
        apply ih (v / 0x80) (by omega) b
        simp_all

theorem wellFormed_writeVarint {bits v : ℕ} (hbits : 0 < bits) (hv : v < 2 ^ bits) :
    VarintWellFormed bits (writeVarint v) := by
  refine ⟨?_, writeVarint_getLast v⟩
  have h := readVarint_writeVarint hbits hv []
  rw [List.append_nil] at h
  rw [h]
  have := writeVarint_length_pos v
  simp only
  omega

/-! ### Reads that succeed -/

/-- A read that succeeds counts the bytes it took, and took the last byte of a number unless there
was none. -/
theorem readVarintLoop_consumes {bits shift read write : ℕ} (input : List UInt8)
    (hcode : 0 ≤ (readVarintLoop bits shift read write input).code) :
    ∃ piece, input = piece ++ (readVarintLoop bits shift read write input).rest ∧
      (readVarintLoop bits shift read write input).code = (read + piece.length : ℕ) ∧
      ((∃ byte ∈ input, byte.toNat < 0x80) → ∃ byte ∈ piece.getLast?, byte.toNat < 0x80) ∧
      ((∀ byte ∈ input, ¬byte.toNat < 0x80) → piece = input) := by
  induction input generalizing shift read write with
  | nil => exact ⟨[], rfl, rfl, by simp, fun _ => rfl⟩
  | cons byte rest ih =>
      simp only [readVarintLoop] at hcode ⊢
      split at hcode
      · simp [evarintOverflow] at hcode
      · split at hcode
        · simp [evarintRepresent] at hcode
        · rename_i hover hrep
          rw [if_neg hover, if_neg hrep]
          split at hcode
          · rename_i hend
            rw [if_pos hend]
            refine ⟨[byte], rfl, rfl, fun _ => ⟨byte, rfl, hend⟩, fun hall => ?_⟩
            exact absurd hend (hall byte List.mem_cons_self)
          · rename_i hcont
            rw [if_neg hcont]
            obtain ⟨piece, hpiece, hcount, hends, hwhole⟩ := ih hcode
            refine ⟨byte :: piece, ?_, ?_, ?_, ?_⟩
            · rw [List.cons_append, ← hpiece]
            · rw [hcount, List.length_cons]
              push_cast
              omega
            · rintro ⟨last, hmem, hlast⟩
              have hrest : last ∈ rest := by
                rcases List.mem_cons.mp hmem with rfl | hmem
                · exact absurd hlast hcont
                · exact hmem
              obtain ⟨last', hmem', hlast'⟩ := hends ⟨last, hrest, hlast⟩
              refine ⟨last', ?_, hlast'⟩
              rw [List.getLast?_cons, Option.mem_def.mp hmem']
              rfl
            · intro hall
              rw [hwhole fun b hb => hall b (List.mem_cons_of_mem _ hb)]

/-- A number that is read from bytes which end it is written as these bytes again, and the return
code says where the rest starts. -/
theorem writeVarint_readVarint {bits : ℕ} (hbits : 0 < bits) {input : List UInt8}
    (hcode : 0 < (readVarint bits input).code) (hends : ∃ byte ∈ input, byte.toNat < 0x80) :
    writeVarint (readVarint bits input).value ++
      input.drop (readVarint bits input).code.toNat = input := by
  obtain ⟨piece, hpiece, hcount, hlast, -⟩ := readVarintLoop_consumes input hcode.le
  obtain ⟨piece', hpiece', hagain⟩ := readVarint_split bits input
  obtain rfl : piece' = piece := List.append_cancel_right (hpiece'.symm.trans hpiece)
  have hwf : VarintWellFormed bits piece' := by
    refine ⟨by rwa [hagain], fun b hb => ?_⟩
    obtain ⟨last, hmem, hlt⟩ := hlast hends
    rw [Option.mem_unique hb hmem]
    exact hlt
  have hwritten := writeVarint_value_of_wellFormed hbits (by rw [hagain]) hwf
  rw [hagain] at hwritten
  have hdrop : input.drop (readVarint bits input).code.toNat = (readVarint bits input).rest := by
    have hlength : (readVarint bits input).code.toNat = piece'.length := by
      rw [readVarint, hcount, Int.toNat_natCast, Nat.zero_add]
    rw [hlength]
    nth_rewrite 1 [hpiece']
    exact List.drop_left' rfl
  rw [hdrop, hwritten]
  exact hpiece'.symm

/-- A number that nothing ends takes all of the bytes. -/
theorem code_readVarint_of_open {bits : ℕ} {input : List UInt8}
    (hcode : 0 < (readVarint bits input).code) (hopen : ∀ byte ∈ input, ¬byte.toNat < 0x80) :
    (readVarint bits input).code = input.length := by
  obtain ⟨piece, -, hcount, -, hwhole⟩ := readVarintLoop_consumes input hcode.le
  rw [readVarint, hcount, hwhole hopen, Nat.zero_add]

end XrCoin.Archive

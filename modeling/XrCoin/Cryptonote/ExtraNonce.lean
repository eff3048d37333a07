import XrCoin.Cryptonote.ExtraFields

/-!
`add_extra_nonce_to_tx_extra` and how its result parses. The length is written as one byte and
read as a varint, so that it comes back up to 127 bytes; and a field whose size is cut off by
the end of the old extra bytes goes on in the new ones.
-/

namespace XrCoin.Cryptonote

open Archive

def EndsInPadding (extra : List UInt8) : Prop :=
  ∃ size, (parseTxExtra extra).1.getLast? = some (.padding size)

/-- The last field is an empty one whose size is cut off by the end. -/
def EndsCutOff (extra : List UInt8) : Prop :=
  ∃ os last, Fields extra (os ++ [last]) [] ∧ CutOff last

def NonceComesBack (extra nonce : List UInt8) : Prop :=
  ∃ new, addExtraNonceToTxExtra extra nonce = some new ∧
    parseTxExtra new = ((parseTxExtra extra).1 ++ [.nonce nonce], true)

variable {extra nonce bytes rest : List UInt8} {os : List Occupied} {o last : Occupied}

/-! ### The field that is added -/

theorem nonceField_short (hlength : nonce.length ≤ 127) :
    FieldAt ⟨.nonce nonce, [[nonce.length.toUInt8]], 0x02 :: nonce.length.toUInt8 :: nonce⟩ [] := by
  have hwrite : writeVarint nonce.length = [nonce.length.toUInt8] :=
    writeVarint_of_lt (by omega)
  have hat : VarintAt 64 [nonce.length.toUInt8] nonce.length (nonce ++ []) := by
    rw [← hwrite]
    exact .of_write (by decide) (by omega) _
  exact .nonce hat (by omega)

theorem length_le_of_varintAt (hmax : nonce.length ≤ 255)
    (h : VarintAt 64 [nonce.length.toUInt8] nonce.length nonce) : nonce.length ≤ 127 := by
  by_contra hlong
  have hbyte : nonce.length.toUInt8.toNat = nonce.length := toNat_ofNat_byte (by omega)
  obtain ⟨first, tail, rfl⟩ := List.exists_cons_of_length_pos (show 0 < nonce.length by omega)
  have hrest := h.2
  have hle := readVarintLoop_rest_length 64 (0 + 7) (0 + 1)
    (0 ||| ((first :: tail).length.toUInt8.toNat % 0x80) <<< 0) first tail
  rw [List.singleton_append, readVarint, readVarintLoop, if_neg (by omega), if_neg (by simp),
    if_neg (by omega)] at hrest
  rw [hrest] at hle
  simp at hle

theorem FieldAt.nonce_bytes (h : FieldAt o []) (hfield : o.field = .nonce nonce) :
    ∃ size, o.bytes = 0x02 :: (size ++ nonce) ∧ VarintAt 64 size nonce.length nonce := by
  cases h <;> cases hfield
  rename_i size hmax hsize
  exact ⟨size, rfl, by simpa using hsize⟩

/-! ### A size that goes on -/

theorem nine_open_bytes (rest : List UInt8) :
    VarintAt 64 (List.replicate 9 0x80 ++ [0x02]) 0 rest := by
  exact ⟨rfl, rfl⟩

/-- With a 2 behind it a size that was cut off is read on. Up to eight bytes it is a number that
is not zero, and with nine it is too large, which stands for zero. -/
theorem varintAt_open (k : ℕ) (hk : k ≤ 9) (rest : List UInt8) :
    ∃ value, VarintAt 64 (List.replicate k 0x80 ++ [0x02]) value rest ∧ (value = 0 → k = 9) := by
  by_cases hnine : k = 9
  · exact ⟨0, hnine ▸ nine_open_bytes rest, fun _ => hnine⟩
  · refine ⟨2 * 128 ^ k, ?_, fun hzero => ?_⟩
    · rw [← writeVarint_two_mul]
      refine .of_write (by decide) ?_ rest
      have hpow : 128 ^ k ≤ 128 ^ 8 := Nat.pow_le_pow_right (by decide) (by omega)
      omega
    · have hpos : 0 < 128 ^ k := Nat.pow_pos (by decide)
      omega

theorem FieldAt.zero_varint {o' : Occupied} (h : FieldAt o rest) (hfield : o.field = o'.field)
    (hcut : CutOff o') : ∃ tag varint, o.bytes = tag :: varint ∧ VarintAt 64 varint 0 rest := by
  obtain ⟨tag, k, -, -, hsave, htag⟩ := hcut
  rw [← hfield] at hsave
  have hlength := congrArg List.length hsave
  cases h with
  | padding hmax =>
      have hzero : tag = 0 := (List.cons.inj hsave).1.symm
      rcases htag with rfl | rfl | rfl <;> cases hzero
  | pubKey key =>
      have hkey : key.val.length = 32 := key.2
      simp [TxExtraField.save, hkey] at hlength
  | nonce hsize hmax =>
      rename_i size nonce
      have hpos := writeVarint_length_pos nonce.length
      simp only [TxExtraField.save, saveString, List.length_cons, List.length_append] at hlength
      obtain rfl : nonce = [] := List.length_eq_zero_iff.mp (by simp at hlength; omega)
      exact ⟨0x02, size, by simp, hsize⟩
  | mergeMiningTag hsize hdepth =>
      rename_i merkleRoot
      have hroot : merkleRoot.val.length = 32 := merkleRoot.2
      simp [TxExtraField.save, saveString, hroot] at hlength
      omega
  | additionalPubKeys hcount =>
      rename_i count data
      have hpos := writeVarint_length_pos data.length
      have hkeys := flatMap_key_length data
      simp only [TxExtraField.save, List.length_cons, List.length_append, hkeys] at hlength
      obtain rfl : data = [] := List.length_eq_zero_iff.mp (by simp at hlength; omega)
      exact ⟨0x04, count, by simp, hcount⟩
  | mysteriousMinergate hsize =>
      rename_i size data
      have hpos := writeVarint_length_pos data.length
      simp only [TxExtraField.save, saveString, List.length_cons, List.length_append] at hlength
      obtain rfl : data = [] := List.length_eq_zero_iff.mp (by simp at hlength; omega)
      exact ⟨0xde, size, by simp, hsize⟩

theorem not_found_of_cutOff {os' : List Occupied} (hcut : CutOff last)
    (h : Fields (last.bytes ++ 0x02 :: nonce.length.toUInt8 :: nonce) os' []) :
    os'.map Occupied.field ≠ [last.field, .nonce nonce] := by
  intro hfields
  obtain ⟨first, tail, rfl, hfirst, htail⟩ := List.map_eq_cons_iff.mp hfields
  obtain ⟨second, tail, rfl, hsecond, hnil⟩ := List.map_eq_cons_iff.mp htail
  obtain rfl := List.map_eq_nil_iff.mp hnil
  generalize heq : last.bytes ++ 0x02 :: nonce.length.toUInt8 :: nonce = bytes at h
  cases h with
  | field hat hrest =>
      obtain ⟨tag', varint, hbytes, hzero⟩ := hat.zero_varint hfirst hcut
      obtain ⟨tag, k, hk, hlast, -, -⟩ := hcut
      obtain ⟨value, hopen, hvalue⟩ := varintAt_open k hk (nonce.length.toUInt8 :: nonce)
      rw [hbytes, hlast, List.cons_append, List.cons_append] at heq
      have hsplit := (List.cons.inj heq).2
      rw [List.append_cons] at hsplit
      obtain ⟨-, -, rfl⟩ := hopen.unique hzero hsplit
      -- what is left for the nonce starts with its length
      generalize hleft : nonce.length.toUInt8 :: nonce = left at hrest
      cases hrest with
      | field hat' hrest' =>
          obtain rfl := hrest'.nil_iff.mpr ⟨rfl, rfl⟩
          obtain ⟨size, hsize, hvarint⟩ := hat'.nonce_bytes hsecond
          rw [hsize, List.append_nil] at hleft
          obtain ⟨htwo, hnonce⟩ := List.cons.inj hleft
          obtain rfl : size = [] := by simpa using hnonce
          rw [hvarint.nil_tail] at htwo
          cases htwo

theorem delimited_of_ends (h : Fields extra os []) (hpadding : ¬EndsInPadding extra)
    (hcut : ¬EndsCutOff extra) : ∀ o ∈ os, Delimited o := by
  rcases h.delimited_or with hall | ⟨-, front, last, rfl, hfront, hat, hpad | hlast⟩
  · exact hall
  · obtain ⟨n, rfl⟩ := hpad
    refine absurd ⟨n + 1, ?_⟩ hpadding
    rw [h.parse]
    simp
  · exact absurd ⟨front, last, h, hlast⟩ hcut

theorem front_delimited {front : List Occupied} (h : Fields extra (front ++ [last]) []) :
    ∀ o ∈ front, Delimited o := by
  rcases h.delimited_or with hall | ⟨-, front', last', heq, hfront, -⟩
  · exact fun o ho => hall o (List.mem_append_left _ ho)
  · rw [(List.append_inj' heq rfl).1]
    exact hfront

theorem fields_of_accepted (haccepted : (parseTxExtra extra).2 = true) :
    ∃ os, Fields extra os [] := by
  obtain ⟨os, left, h⟩ := exists_fields extra
  rw [h.parse] at haccepted
  rw [of_decide_eq_true haccepted] at h
  exact ⟨os, h⟩

/-- The nonce comes back exactly when it has at most 127 bytes and no size is cut off. -/
theorem nonceComesBack_iff (haccepted : (parseTxExtra extra).2 = true)
    (hpadding : ¬EndsInPadding extra) (hmax : nonce.length ≤ 255) :
    NonceComesBack extra nonce ↔ nonce.length ≤ 127 ∧ ¬EndsCutOff extra := by
  obtain ⟨os, h⟩ := fields_of_accepted haccepted
  have hextra : extra = os.flatMap Occupied.bytes := by simpa using h.split
  have hadd : addExtraNonceToTxExtra extra nonce =
      some (extra ++ 0x02 :: nonce.length.toUInt8 :: nonce) := if_pos hmax
  have hback : NonceComesBack extra nonce ↔
      parseTxExtra (extra ++ 0x02 :: nonce.length.toUInt8 :: nonce) =
        (os.map Occupied.field ++ [.nonce nonce], true) := by
    rw [NonceComesBack, hadd, h.parse]
    simp
  rw [hback]
  obtain ⟨os', left', h'⟩ := exists_fields (0x02 :: nonce.length.toUInt8 :: nonce)
  constructor
  · intro hparse
    have hcut : ¬EndsCutOff extra := by
      rintro ⟨front, last, hfields, hlast⟩
      obtain ⟨rfl, -⟩ := h.unique hfields
      obtain ⟨tail, left, htail⟩ :=
        exists_fields (last.bytes ++ 0x02 :: nonce.length.toUInt8 :: nonce)
      have hnew := (Fields.prepend (front_delimited h) htail).parse
      rw [← List.append_assoc, ← List.flatMap_singleton Occupied.bytes last,
        ← List.flatMap_append, ← hextra, hparse, Prod.mk.injEq] at hnew
      obtain rfl := of_decide_eq_true hnew.2.symm
      exact not_found_of_cutOff hlast htail (by simpa using hnew.1.symm)
    refine ⟨?_, hcut⟩
    have hall := delimited_of_ends h hpadding hcut
    have hnew := (Fields.prepend hall h').parse
    rw [← hextra, hparse, List.map_append, Prod.mk.injEq] at hnew
    obtain ⟨o', rfl, hfield⟩ := List.map_eq_singleton_iff.mp
      (List.append_cancel_left hnew.1).symm
    obtain rfl := of_decide_eq_true hnew.2.symm
    generalize hbytes : 0x02 :: nonce.length.toUInt8 :: nonce = bytes at h'
    cases h' with
    | field hat hrest =>
        obtain rfl := hrest.nil_iff.mpr ⟨rfl, rfl⟩
        obtain ⟨size, hsize, hvarint⟩ := hat.nonce_bytes hfield
        rw [hsize, List.append_nil] at hbytes
        have hone : [nonce.length.toUInt8] = size :=
          List.append_cancel_right (List.cons.inj hbytes).2
        exact length_le_of_varintAt hmax (hone ▸ hvarint)
  · rintro ⟨hshort, hcut⟩
    have hall := delimited_of_ends h hpadding hcut
    have hnew := (Fields.prepend hall (.field (nonceField_short hshort) .done)).parse
    rw [← hextra, List.append_nil] at hnew
    rw [hnew]
    simp

/-! ### A nonce of 128 bytes -/

def longNonce : List UInt8 := List.replicate 128 0x01

theorem longNonce_length : longNonce.length = 128 := List.length_replicate

set_option maxRecDepth 4000 in
theorem longNonce_lost :
    (parseTxExtra []).2 = true ∧ longNonce.length ≤ 255 ∧ ¬EndsInPadding [] ∧
      ¬NonceComesBack [] longNonce := by
  refine ⟨rfl, by simp [longNonce_length], ?_, ?_⟩
  · rintro ⟨size, hsize⟩
    cases hsize
  · rintro ⟨new, hnew, hparse⟩
    obtain rfl := Option.some.inj hnew
    have hfails : (parseTxExtra ([] ++ 0x02 :: longNonce.length.toUInt8 :: longNonce)).2 =
        false := by decide +kernel
    rw [hparse] at hfails
    cases hfails

/-- The extra bytes of a transaction with one public key. -/
def keyExtra : List UInt8 := 1 :: List.replicate 32 0x22

theorem not_endsInPadding_keyExtra : ¬EndsInPadding keyExtra := by
  rintro ⟨size, hsize⟩
  have hlast : (parseTxExtra keyExtra).1.getLast? = some (.pubKey (List.Vector.replicate 32 0x22)) := by
    decide
  rw [hlast] at hsize
  cases hsize

theorem nonceComesBack_iff_nonces :
    (NonceComesBack keyExtra [7, 8] ∧ ¬EndsCutOff keyExtra) ∧ ¬NonceComesBack keyExtra longNonce := by
  have haccepted : (parseTxExtra keyExtra).2 = true := by decide
  have hshort : NonceComesBack keyExtra [7, 8] := ⟨_, rfl, by decide⟩
  have hiff : NonceComesBack keyExtra [7, 8] ↔ _ :=
    nonceComesBack_iff haccepted not_endsInPadding_keyExtra (by simp)
  have hlong : NonceComesBack keyExtra longNonce ↔ _ :=
    nonceComesBack_iff haccepted not_endsInPadding_keyExtra (by simp [longNonce_length])
  exact ⟨⟨hshort, (hiff.mp hshort).2⟩, hlong.not.mpr fun h => absurd h.1 (by simp [longNonce_length])⟩

end XrCoin.Cryptonote

import XrCoin.Archive.Varint
import XrCoin.Common.Base58
import XrCoin.Cryptonote.Basic

/-!
Addresses as text: `base58` over a tag, the data and the start of their hash.

The tag is a varint, and its reader does not tell a number that the input breaks off from one that
ends. Such bytes are accepted, but they are not the ones that are written for what was read.
-/

namespace XrCoin.Common

open Archive Cryptonote

def addrChecksumSize : ℕ := 4

section Codec

variable (cnFastHash : List UInt8 → Hash)

def addrChecksum (buf : List UInt8) : List UInt8 := (cnFastHash buf).val.take addrChecksumSize

def encodeAddr (tag : UInt64) (data : List UInt8) : Option (List UInt8) :=
  let buf := writeVarint tag.toNat ++ data
  encode (buf ++ addrChecksum cnFastHash buf)

def decodeAddr (addr : List UInt8) : Option (UInt64 × List UInt8) :=
  match decode addr with
  | .error _ => none
  | .ok addrData =>
      if addrData.length ≤ addrChecksumSize then none
      else
        let checksum := addrData.drop (addrData.length - addrChecksumSize)
        let addrData := addrData.take (addrData.length - addrChecksumSize)
        if addrChecksum cnFastHash addrData ≠ checksum then none
        else
          let read := readVarint 64 addrData
          if read.code ≤ 0 then none
          else some (UInt64.ofNat read.value, addrData.drop read.code.toNat)

def addrPayload (addr : List UInt8) : List UInt8 :=
  match decode addr with
  | .error _ => []
  | .ok addrData => addrData.take (addrData.length - addrChecksumSize)

/-- Some byte in front of the checksum ends a number: its top bit is clear. -/
def TagEnds (addr : List UInt8) : Prop := ∃ byte ∈ addrPayload addr, byte.toNat < 0x80

instance (addr : List UInt8) : Decidable (TagEnds addr) :=
  inferInstanceAs (Decidable (∃ byte ∈ addrPayload addr, byte.toNat < 0x80))

theorem length_addrChecksum (buf : List UInt8) :
    (addrChecksum cnFastHash buf).length = addrChecksumSize := by
  rw [addrChecksum, List.length_take, (cnFastHash buf).property]
  rfl

theorem addrPayload_eq {addr payload : List UInt8}
    (h : decode addr = .ok (payload ++ addrChecksum cnFastHash payload)) :
    addrPayload addr = payload := by
  rw [addrPayload, h]
  simp only [List.length_append, length_addrChecksum, Nat.add_sub_cancel]
  exact List.take_left' rfl

theorem decodeAddr_eq_some {addr data : List UInt8} {tag : UInt64} :
    decodeAddr cnFastHash addr = some (tag, data) ↔ ∃ payload,
      decode addr = .ok (payload ++ addrChecksum cnFastHash payload) ∧
        0 < (readVarint 64 payload).code ∧ tag = UInt64.ofNat (readVarint 64 payload).value ∧
          data = payload.drop (readVarint 64 payload).code.toNat := by
  rw [decodeAddr]
  constructor
  · intro h
    split at h
    · cases h
    · rename_i addrData hdecode
      simp only at h
      split at h
      · cases h
      · split at h
        · cases h
        · rename_i hchecksum
          split at h
          · cases h
          · rename_i hcode
            rw [Option.some.injEq, Prod.mk.injEq] at h
            refine ⟨_, ?_, Int.not_le.mp hcode, h.1.symm, h.2.symm⟩
            rw [not_not.mp hchecksum, List.take_append_drop]
            exact hdecode
  · rintro ⟨payload, hdecode, hcode, rfl, rfl⟩
    have hpayload : payload ≠ [] := by
      rintro rfl
      exact absurd hcode (Int.lt_irrefl 0)
    have hlong : ¬(payload ++ addrChecksum cnFastHash payload).length ≤ addrChecksumSize := by
      have := List.length_pos_iff.mpr hpayload
      rw [List.length_append, length_addrChecksum]
      omega
    rw [hdecode]
    simp only
    rw [if_neg hlong, List.length_append, length_addrChecksum, Nat.add_sub_cancel,
      List.drop_left' rfl, List.take_left' rfl, if_neg (not_not.mpr rfl),
      if_neg (Int.not_le.mpr hcode)]

theorem encodeAddr_total (tag : UInt64) (data : List UInt8) : ∃ addr,
    encodeAddr cnFastHash tag data = some addr ∧
      decodeAddr cnFastHash addr = some (tag, data) := by
  have hread : readVarint 64 (writeVarint tag.toNat ++ data) =
      ⟨(writeVarint tag.toNat).length, tag.toNat, data⟩ :=
    readVarint_writeVarint (by decide) tag.toNat_lt data
  obtain ⟨addr, hencode⟩ := encode_total ((writeVarint tag.toNat ++ data) ++
    addrChecksum cnFastHash (writeVarint tag.toNat ++ data))
  refine ⟨addr, hencode, (decodeAddr_eq_some cnFastHash).mpr
    ⟨_, (decode_iff _ _).mpr hencode, ?_, ?_, ?_⟩⟩
  · rw [hread]
    exact Int.natCast_pos.mpr (writeVarint_length_pos _)
  · rw [hread, UInt64.ofNat_toNat]
  · rw [hread, Int.toNat_natCast, List.drop_left' rfl]

/-- An accepted address is the one that is written for its tag and data exactly when its tag
ends. -/
theorem encodeAddr_iff {addr data : List UInt8} {tag : UInt64}
    (h : decodeAddr cnFastHash addr = some (tag, data)) :
    encodeAddr cnFastHash tag data = some addr ↔ TagEnds addr := by
  obtain ⟨payload, hdecode, hcode, rfl, rfl⟩ := (decodeAddr_eq_some cnFastHash).mp h
  have hvalue : (UInt64.ofNat (readVarint 64 payload).value).toNat = (readVarint 64 payload).value :=
    UInt64.toNat_ofNat_of_lt' (readVarint_value_lt (by decide) payload)
  rw [TagEnds, addrPayload_eq cnFastHash hdecode, encodeAddr, hvalue, ← decode_iff, hdecode,
    Except.ok.injEq]
  constructor
  · intro hsame
    by_contra hopen
    push Not at hopen
    have hwhole := code_readVarint_of_open hcode fun byte hbyte => Nat.not_lt.mpr (hopen byte hbyte)
    have hnone : payload.drop (readVarint 64 payload).code.toNat = [] := by
      rw [hwhole, Int.toNat_natCast, List.drop_length]
    rw [hnone, List.append_nil] at hsame
    have hpayload : payload = writeVarint (readVarint 64 payload).value := by
      refine (List.append_inj' hsame ?_).1
      rw [length_addrChecksum, length_addrChecksum]
    -- What is written ends in a byte with the top bit clear, and no byte of the payload is one.
    have hne : payload ≠ [] := by
      rw [hpayload]
      exact List.ne_nil_of_length_pos (writeVarint_length_pos _)
    have hlast := List.getLast?_eq_some_getLast hne
    have hends := writeVarint_getLast (readVarint 64 payload).value (payload.getLast hne)
      (by rw [← hpayload]; exact hlast)
    exact Nat.not_lt.mpr (hopen _ (List.getLast_mem hne)) hends
  · intro hends
    rw [writeVarint_readVarint (by decide) hcode hends]

/-- An address gives back the tag and data it was written for. The one that is accepted is the one
that is written exactly when its tag ends: such addresses differ when they are different strings,
and any other one has a second string beside it. -/
theorem decodeAddr_encodeAddr :
    (∀ tag data, ∃ addr, encodeAddr cnFastHash tag data = some addr ∧
      decodeAddr cnFastHash addr = some (tag, data)) ∧
    (∀ addr tag data, decodeAddr cnFastHash addr = some (tag, data) →
      (encodeAddr cnFastHash tag data = some addr ↔ TagEnds addr)) ∧
    (∀ addr addr' tag data, TagEnds addr → TagEnds addr' →
      decodeAddr cnFastHash addr = some (tag, data) →
        decodeAddr cnFastHash addr' = some (tag, data) → addr = addr') ∧
    ∀ addr tag data, decodeAddr cnFastHash addr = some (tag, data) → ¬TagEnds addr →
      ∃ addr', addr' ≠ addr ∧ decodeAddr cnFastHash addr' = some (tag, data) := by
  refine ⟨encodeAddr_total cnFastHash, fun addr tag data => encodeAddr_iff cnFastHash, ?_, ?_⟩
  · intro addr addr' tag data hends hends' hdecode hdecode'
    have hencode := (encodeAddr_iff cnFastHash hdecode).mpr hends
    have hencode' := (encodeAddr_iff cnFastHash hdecode').mpr hends'
    exact Option.some.inj (hencode.symm.trans hencode')
  · intro addr tag data hdecode hopen
    obtain ⟨addr', hencode, hdecode'⟩ := encodeAddr_total cnFastHash tag data
    refine ⟨addr', ?_, hdecode'⟩
    rintro rfl
    exact hopen ((encodeAddr_iff cnFastHash hdecode).mp hencode)

end Codec

def sampleHash (buf : List UInt8) : Hash :=
  if buf = [0x80] then
    ⟨[0x56, 0xe8, 0x1f, 0x17, 0x1b, 0xcc, 0x55, 0xa6, 0xff, 0x83, 0x45, 0xe6, 0x92, 0xc0, 0xf8,
      0x6e, 0x5b, 0x48, 0xe0, 0x1b, 0x99, 0x6c, 0xad, 0xc0, 0x01, 0x62, 0x2f, 0xb5, 0xe3, 0x63,
      0xb4, 0x21], rfl⟩
  else
    ⟨[0xbc, 0x36, 0x78, 0x9e, 0x7a, 0x1e, 0x28, 0x14, 0x36, 0x46, 0x42, 0x29, 0x82, 0x8f, 0x81,
      0x7d, 0x66, 0x12, 0xf7, 0xb4, 0x77, 0xd6, 0x65, 0x91, 0xff, 0x96, 0xa9, 0xe0, 0x64, 0xbc,
      0xc9, 0x8a], rfl⟩

/-- The addresses `FUot9bC`, whose tag is broken off, and `15p2yAV`. -/
def openAddress : List UInt8 := [70, 85, 111, 116, 57, 98, 67]

def endedAddress : List UInt8 := [49, 53, 112, 50, 121, 65, 86]

/-- Both are accepted for the tag 0 without data, and only one of them is written for it. -/
theorem decodeAddr_openAddress :
    (¬∀ addr tag data, decodeAddr sampleHash addr = some (tag, data) →
      encodeAddr sampleHash tag data = some addr) ∧
    ¬∀ addr addr' tag data, decodeAddr sampleHash addr = some (tag, data) →
      decodeAddr sampleHash addr' = some (tag, data) → addr = addr' := by
  have hopen : decodeAddr sampleHash openAddress = some (0, []) := by decide +kernel
  have hended : decodeAddr sampleHash endedAddress = some (0, []) := by decide +kernel
  have hencode : encodeAddr sampleHash 0 [] = some endedAddress := by decide
  have hne : endedAddress ≠ openAddress := by decide
  constructor
  · intro h
    exact hne (Option.some.inj (hencode.symm.trans (h openAddress 0 [] hopen)))
  · intro h
    exact hne (h endedAddress openAddress 0 [] hended hopen)

end XrCoin.Common

import XrCoin.Archive.Binary

/-!
The head of a levin packet, as it lies packed in memory and on the wire, and whole packets.

`m_have_to_return_data` is a `bool` that is copied from the wire, so it is kept as its byte and
tested against zero.
-/

namespace XrCoin.Levin

open Archive

abbrev Bytes := List UInt8

def LEVIN_SIGNATURE : UInt64 := 0x0101010101012101

def LEVIN_PACKET_REQUEST : UInt32 := 1

def LEVIN_PACKET_RESPONSE : UInt32 := 2

def LEVIN_PROTOCOL_VER_1 : UInt32 := 1

structure BucketHead2 where
  signature : UInt64
  cb : UInt64
  haveToReturnData : UInt8
  command : UInt32
  returnCode : Int32
  flags : UInt32
  protocolVersion : UInt32
  deriving DecidableEq, Repr

namespace BucketHead2

def size : ℕ := 33

def toBytes (h : BucketHead2) : Bytes :=
  leBytes 8 h.signature.toNat ++ (leBytes 8 h.cb.toNat ++ (leBytes 1 h.haveToReturnData.toNat ++
    (leBytes 4 h.command.toNat ++ (leBytes 4 h.returnCode.toUInt32.toNat ++
      (leBytes 4 h.flags.toNat ++ leBytes 4 h.protocolVersion.toNat)))))

def field (buffer : Bytes) (offset width : ℕ) : ℕ := leValue ((buffer.drop offset).take width)

def ofBytes (buffer : Bytes) : BucketHead2 where
  signature := UInt64.ofNat (field buffer 0 8)
  cb := UInt64.ofNat (field buffer 8 8)
  haveToReturnData := UInt8.ofNat (field buffer 16 1)
  command := UInt32.ofNat (field buffer 17 4)
  returnCode := (UInt32.ofNat (field buffer 21 4)).toInt32
  flags := UInt32.ofNat (field buffer 25 4)
  protocolVersion := UInt32.ofNat (field buffer 29 4)

@[simp] theorem toBytes_length (h : BucketHead2) : h.toBytes.length = size := by
  simp [toBytes, size]

theorem field_head {width n : ℕ} (hn : n < 256 ^ width) (rest : Bytes) :
    field (leBytes width n ++ rest) 0 width = n := by
  rw [field, List.drop_zero, List.take_left' (leBytes_length width n), leValue_leBytes hn]

theorem field_skip {front : Bytes} {offset : ℕ} (h : front.length ≤ offset) (rest : Bytes)
    (width : ℕ) : field (front ++ rest) offset width = field rest (offset - front.length) width := by
  rw [field, field, List.drop_append, List.drop_eq_nil_of_le h, List.nil_append]

theorem field_lt (buffer : Bytes) (offset width : ℕ) : field buffer offset width < 256 ^ width := by
  have hlt := leValue_lt ((buffer.drop offset).take width)
  have hlen : ((buffer.drop offset).take width).length ≤ width := List.length_take_le _ _
  exact hlt.trans_le (Nat.pow_le_pow_right (by norm_num) hlen)

theorem leBytes_field {buffer : Bytes} {offset width : ℕ} (h : offset + width ≤ buffer.length) :
    leBytes width (field buffer offset width) = (buffer.drop offset).take width := by
  have hlen : ((buffer.drop offset).take width).length = width := by
    rw [List.length_take, List.length_drop]
    omega
  have hback := leBytes_leValue ((buffer.drop offset).take width)
  rwa [hlen] at hback

/-- A head is read back from its bytes, whatever follows them. -/
theorem ofBytes_toBytes (h : BucketHead2) (rest : Bytes) : ofBytes (h.toBytes ++ rest) = h := by
  have hone : ∀ n : UInt8, n.toNat < 256 ^ 1 := fun n => n.toNat_lt
  have hfour : ∀ n : UInt32, n.toNat < 256 ^ 4 := fun n => n.toNat_lt
  have height : ∀ n : UInt64, n.toNat < 256 ^ 8 := fun n => n.toNat_lt
  simp only [ofBytes, toBytes, List.append_assoc]
  simp only [field_skip, field_head, leBytes_length, hone, hfour, height, Nat.reduceLeDiff,
    Nat.reduceSub, UInt64.ofNat_toNat, UInt8.ofNat_toNat, UInt32.ofNat_toNat,
    Int32.toInt32_toUInt32]

theorem toBytes_ofBytes {buffer : Bytes} (h : size ≤ buffer.length) :
    (ofBytes buffer).toBytes = buffer.take size := by
  have hone : ∀ offset, (UInt8.ofNat (field buffer offset 1)).toNat = field buffer offset 1 :=
    fun offset => UInt8.toNat_ofNat_of_lt' (field_lt buffer offset 1)
  have hfour : ∀ offset, (UInt32.ofNat (field buffer offset 4)).toNat = field buffer offset 4 :=
    fun offset => UInt32.toNat_ofNat_of_lt' (field_lt buffer offset 4)
  have height : ∀ offset, (UInt64.ofNat (field buffer offset 8)).toNat = field buffer offset 8 :=
    fun offset => UInt64.toNat_ofNat_of_lt' (field_lt buffer offset 8)
  have hsize : size = 8 + 8 + 1 + 4 + 4 + 4 + 4 := rfl
  rw [hsize] at h
  simp only [toBytes, ofBytes, hone, hfour, height, UInt32.toUInt32_toInt32]
  rw [leBytes_field (by omega), leBytes_field (by omega), leBytes_field (by omega),
    leBytes_field (by omega), leBytes_field (by omega), leBytes_field (by omega),
    leBytes_field (by omega), hsize]
  simp only [List.take_add, List.append_assoc, List.drop_zero]

end BucketHead2

/-! ### Packets -/

structure Packet where
  head : BucketHead2
  body : Bytes
  size_body : body.length = head.cb.toNat

def Packet.bytes (p : Packet) : Bytes := p.head.toBytes ++ p.body

theorem Packet.length_bytes (p : Packet) :
    p.bytes.length = BucketHead2.size + p.head.cb.toNat := by
  rw [bytes, List.length_append, BucketHead2.toBytes_length, p.size_body]

@[ext] theorem Packet.ext {p q : Packet} (hhead : p.head = q.head) (hbody : p.body = q.body) :
    p = q := by
  cases p
  cases q
  subst hhead hbody
  rfl

/-- A packet in front of a stream is told apart from what follows it. -/
theorem Packet.bytes_append_inj {p q : Packet} {xs ys : Bytes}
    (h : p.bytes ++ xs = q.bytes ++ ys) : p = q ∧ xs = ys := by
  have hhead : p.head = q.head := by
    have hof := congrArg BucketHead2.ofBytes h
    rwa [bytes, bytes, List.append_assoc, List.append_assoc, BucketHead2.ofBytes_toBytes,
      BucketHead2.ofBytes_toBytes] at hof
  have hlen : p.bytes.length = q.bytes.length := by rw [length_bytes, length_bytes, hhead]
  obtain ⟨hbytes, hrest⟩ := List.append_inj h hlen
  refine ⟨Packet.ext hhead ?_, hrest⟩
  rw [bytes, bytes, hhead] at hbytes
  exact List.append_cancel_left hbytes

end XrCoin.Levin

import XrCoin.Archive.VarintAt
import XrCoin.Cryptonote.TxExtra

/-!
The fields of the extra bytes with the bytes that each of them occupies. What is read does
not depend on what was read before, and but for the last field not on what follows either.
-/

namespace XrCoin.Cryptonote

open Archive

/-! ### One field -/

structure Occupied where
  field : TxExtraField
  varints : List (List UInt8)
  bytes : List UInt8

/-- The field that is read in front of `rest`. The varints are the size of a string, the count
of keys, and the depth in a merge-mining tag. -/
inductive FieldAt : Occupied → List UInt8 → Prop
  | padding {n : ℕ} (hmax : n < 255) :
      FieldAt ⟨.padding (n + 1), [], List.replicate (n + 1) 0⟩ []
  | pubKey (key : PublicKey) (rest : List UInt8) :
      FieldAt ⟨.pubKey key, [], 0x01 :: key.val⟩ rest
  | nonce {size nonce rest : List UInt8}
      (hsize : VarintAt 64 size nonce.length (nonce ++ rest)) (hmax : nonce.length ≤ 255) :
      FieldAt ⟨.nonce nonce, [size], 0x02 :: (size ++ nonce)⟩ rest
  | mergeMiningTag {size depthBytes rest : List UInt8} {depth : UInt64} {merkleRoot : Hash}
      (hsize : VarintAt 64 size (depthBytes ++ merkleRoot.val).length
        (depthBytes ++ merkleRoot.val ++ rest))
      (hdepth : VarintAt 64 depthBytes depth.toNat merkleRoot.val) :
      FieldAt ⟨.mergeMiningTag depth merkleRoot, [size, depthBytes],
        0x03 :: (size ++ (depthBytes ++ merkleRoot.val))⟩ rest
  | additionalPubKeys {count rest : List UInt8} {data : List PublicKey}
      (hcount : VarintAt 64 count data.length ((data.flatMap fun key => key.val) ++ rest)) :
      FieldAt ⟨.additionalPubKeys data, [count],
        0x04 :: (count ++ data.flatMap fun key => key.val)⟩ rest
  | mysteriousMinergate {size data rest : List UInt8}
      (hsize : VarintAt 64 size data.length (data ++ rest)) :
      FieldAt ⟨.mysteriousMinergate data, [size], 0xde :: (size ++ data)⟩ rest

/-! ### The readers -/

theorem loadString_iff {s : InStream} {bytes rest : List UInt8} :
    Reads loadString s bytes rest ↔ ∃ size, s.rest = size ++ (bytes ++ rest) ∧
      VarintAt 64 size bytes.length (bytes ++ rest) := by
  have hread : ∀ (size : UInt64) (s₁ : InStream),
      Reads (do
        let left ← Reader.remainingBytes
        Reader.require (size.toNat ≤ left)
        let v ← Reader.blob size.toNat
        pure v.val) s₁ bytes rest ↔
        size.toNat = bytes.length ∧ s₁.rest = bytes ++ rest := by
    intro size s₁
    simp only [Reads.bind_iff, Reads.pure_iff, Reader.remainingBytes_eq_some,
      Reader.require_eq_some]
    constructor
    · rintro ⟨left, s₂, ⟨rfl, rfl⟩, u, s₃, ⟨hle, rfl⟩, v, s₄, hv, rfl, rfl⟩
      exact ⟨v.2.symm, Reads.blob_iff.mp (.of_eq hv)⟩
    · rintro ⟨hsize, hrest⟩
      obtain ⟨s', hs', rfl⟩ := Reads.blob_iff (v := ⟨bytes, hsize.symm⟩).mpr hrest
      refine ⟨_, _, ⟨rfl, rfl⟩, (), _, ⟨?_, rfl⟩, _, s', hs', rfl, rfl⟩
      rw [hrest, List.length_append]
      omega
  rw [loadString, Reads.bind_congr (P := fun size left =>
    size.toNat = bytes.length ∧ left = bytes ++ rest) hread]
  simp only [Reads.varint64_iff]
  constructor
  · rintro ⟨size, left, ⟨piece, hsplit, hat⟩, hsize, rfl⟩
    exact ⟨piece, hsplit, hsize ▸ hat⟩
  · rintro ⟨piece, hsplit, hat⟩
    have hlt := hat.value_lt (by decide)
    have hsize : (UInt64.ofNat bytes.length).toNat = bytes.length :=
      UInt64.toNat_ofNat_of_lt' hlt
    refine ⟨UInt64.ofNat bytes.length, _, ⟨piece, hsplit, ?_⟩, hsize, rfl⟩
    rw [hsize]
    exact hat

/-- Zero bytes up to the end. -/
theorem loadPadding_iff {rounds size : ℕ} {s : InStream} {field : TxExtraField}
    {rest : List UInt8} :
    Reads (loadPadding rounds size) s field rest ↔
      ∃ n < rounds, s.rest = List.replicate n 0 ∧ rest = [] ∧ field = .padding (size + n) := by
  induction rounds generalizing size s with
  | zero => simp [loadPadding, Reads.fail_iff]
  | succ rounds ih =>
      rw [loadPadding, Reads.bind_iff]
      simp only [Reader.remainingBytes_eq_some]
      constructor
      · rintro ⟨left, s₁, ⟨rfl, rfl⟩, hread⟩
        split at hread
        · rename_i hleft
          obtain ⟨rfl, rfl⟩ := Reads.pure_iff.mp hread
          have hnil := List.length_eq_zero_iff.mp hleft
          exact ⟨0, by omega, hnil, hnil, rfl⟩
        · obtain ⟨zero, s₁, hzero, hread⟩ := Reads.bind_iff.mp hread
          obtain ⟨u, s₂, hreq, hread⟩ := Reads.bind_iff.mp hread
          obtain ⟨rfl, rfl⟩ := Reader.require_eq_some.mp hreq
          obtain ⟨n, hn, hs, rfl, rfl⟩ := ih.mp hread
          refine ⟨n + 1, by omega, ?_, rfl, by rw [Nat.add_assoc, Nat.add_comm 1]⟩
          rw [Reads.uint8_iff.mp (.of_eq hzero), hs, List.replicate_succ]
      · rintro ⟨n, hn, hs, rfl, rfl⟩
        refine ⟨_, s, ⟨rfl, rfl⟩, ?_⟩
        cases n with
        | zero =>
            rw [List.replicate_zero] at hs
            rw [if_pos (by rw [hs]; rfl)]
            exact Reads.pure_iff.mpr ⟨rfl, hs⟩
        | succ n =>
            rw [List.replicate_succ] at hs
            rw [if_neg (by rw [hs]; simp)]
            obtain ⟨s₁, hs₁, hrest⟩ := Reads.uint8_iff.mpr hs
            refine Reads.bind_iff.mpr ⟨0, s₁, hs₁, Reads.bind_iff.mpr ⟨(), s₁, ?_, ?_⟩⟩
            · exact Reader.require_eq_some.mpr ⟨rfl, rfl⟩
            · exact ih.mpr ⟨n, by omega, hrest, rfl, by rw [Nat.add_assoc, Nat.add_comm 1]⟩

theorem loadExtraNonce_iff {s : InStream} {field : TxExtraField} {rest : List UInt8} :
    Reads loadExtraNonce s field rest ↔ ∃ nonce, field = .nonce nonce ∧ nonce.length ≤ 255 ∧
      ∃ size, s.rest = size ++ (nonce ++ rest) ∧
        VarintAt 64 size nonce.length (nonce ++ rest) := by
  rw [loadExtraNonce, Reads.bind_congr (P := fun nonce left =>
    nonce.length ≤ 255 ∧ .nonce nonce = field ∧ left = rest)]
  · simp only [loadString_iff]
    constructor
    · rintro ⟨nonce, left, ⟨size, hsplit, hsize⟩, hmax, rfl, rfl⟩
      exact ⟨nonce, rfl, hmax, size, hsplit, hsize⟩
    · rintro ⟨nonce, rfl, hmax, size, hsplit, hsize⟩
      exact ⟨nonce, rest, ⟨size, hsplit, hsize⟩, hmax, rfl, rfl⟩
  · intro nonce s₁
    rw [Reads.bind_iff]
    simp only [Reader.require_eq_some, Reads.pure_iff]
    constructor
    · rintro ⟨u, s₂, ⟨hmax, rfl⟩, hfield, hrest⟩
      exact ⟨hmax, hfield, hrest⟩
    · rintro ⟨hmax, hfield, hrest⟩
      exact ⟨(), s₁, ⟨hmax, rfl⟩, hfield, hrest⟩

theorem mergeMiningArchive_iff {content : List UInt8} {field : TxExtraField} :
    deserialize (do
      let depth ← loadVarint64
      let merkleRoot ← Reader.blob 32
      pure (TxExtraField.mergeMiningTag depth merkleRoot)) content = some field ↔
      ∃ depthBytes depth, ∃ merkleRoot : Hash, content = depthBytes ++ merkleRoot.val ∧
        VarintAt 64 depthBytes depth.toNat merkleRoot.val ∧
        field = .mergeMiningTag depth merkleRoot := by
  rw [deserialize_eq_some]
  change Reads _ (.ofBytes content) field [] ↔ _
  have hroot : ∀ depth s₁, Reads (do
      let merkleRoot ← Reader.blob 32
      pure (TxExtraField.mergeMiningTag depth merkleRoot)) s₁ field [] ↔
      ∃ merkleRoot : Hash, s₁.rest = merkleRoot.val ∧
        field = .mergeMiningTag depth merkleRoot := by
    intro depth s₁
    rw [Reads.bind_congr (P := fun merkleRoot left =>
      .mergeMiningTag depth merkleRoot = field ∧ left = []) fun _ _ => Reads.pure_iff]
    simp only [Reads.blob_iff]
    constructor
    · rintro ⟨merkleRoot, left, hsplit, rfl, rfl⟩
      exact ⟨merkleRoot, by rw [hsplit, List.append_nil], rfl⟩
    · rintro ⟨merkleRoot, hsplit, rfl⟩
      exact ⟨merkleRoot, [], by rw [hsplit, List.append_nil], rfl, rfl⟩
  rw [Reads.bind_congr (P := fun depth left => ∃ merkleRoot : Hash, left = merkleRoot.val ∧
    field = .mergeMiningTag depth merkleRoot) hroot]
  simp only [Reads.varint64_iff]
  constructor
  · rintro ⟨depth, left, ⟨depthBytes, hsplit, hdepth⟩, merkleRoot, rfl, rfl⟩
    exact ⟨depthBytes, depth, merkleRoot, hsplit, hdepth, rfl⟩
  · rintro ⟨depthBytes, depth, merkleRoot, hsplit, hdepth, rfl⟩
    exact ⟨depth, _, ⟨depthBytes, hsplit, hdepth⟩, merkleRoot, rfl, rfl⟩

theorem loadMergeMiningTag_iff {s : InStream} {field : TxExtraField} {rest : List UInt8} :
    Reads loadMergeMiningTag s field rest ↔ ∃ depthBytes depth, ∃ merkleRoot : Hash,
      field = .mergeMiningTag depth merkleRoot ∧
      VarintAt 64 depthBytes depth.toNat merkleRoot.val ∧
      ∃ size, s.rest = size ++ (depthBytes ++ merkleRoot.val ++ rest) ∧
        VarintAt 64 size (depthBytes ++ merkleRoot.val).length
          (depthBytes ++ merkleRoot.val ++ rest) := by
  rw [loadMergeMiningTag, Reads.bind_congr (P := fun content left =>
    (∃ depthBytes depth, ∃ merkleRoot : Hash, content = depthBytes ++ merkleRoot.val ∧
      VarintAt 64 depthBytes depth.toNat merkleRoot.val ∧
      field = .mergeMiningTag depth merkleRoot) ∧ left = rest)]
  · simp only [loadString_iff]
    constructor
    · rintro ⟨content, left, ⟨size, hsplit, hsize⟩, ⟨depthBytes, depth, merkleRoot, rfl, hdepth,
        rfl⟩, rfl⟩
      exact ⟨depthBytes, depth, merkleRoot, rfl, hdepth, size, hsplit, hsize⟩
    · rintro ⟨depthBytes, depth, merkleRoot, rfl, hdepth, size, hsplit, hsize⟩
      exact ⟨_, rest, ⟨size, hsplit, hsize⟩, ⟨depthBytes, depth, merkleRoot, rfl, hdepth, rfl⟩,
        rfl⟩
  · intro content s₁
    rw [← mergeMiningArchive_iff]
    split
    · rename_i tag htag
      rw [htag, Reads.pure_iff, Option.some.injEq]
    · rename_i hnone
      rw [hnone, Reads.fail_iff]
      simp

theorem replicate_blob_iff {n : ℕ} {s : InStream} {keys : List.Vector PublicKey n}
    {rest : List UInt8} :
    Reads ((Reader.blob 32).replicate n) s keys rest ↔
      s.rest = (keys.val.flatMap fun key => key.val) ++ rest := by
  induction n generalizing s with
  | zero =>
      rw [Reader.replicate, Reads.pure_iff, List.Vector.eq_nil keys]
      exact and_iff_right rfl
  | succ n ih =>
      have htail : ∀ key s₁, Reads (do
          let as ← (Reader.blob 32).replicate n
          pure (key ::ᵥ as)) s₁ keys rest ↔
          ∃ tail, key ::ᵥ tail = keys ∧
            s₁.rest = (tail.val.flatMap fun key => key.val) ++ rest := by
        intro key s₁
        rw [Reads.bind_congr (P := fun as left => key ::ᵥ as = keys ∧ left = rest)
          fun _ _ => Reads.pure_iff]
        constructor
        · rintro ⟨tail, left, hread, hkeys, rfl⟩
          exact ⟨tail, hkeys, ih.mp hread⟩
        · rintro ⟨tail, hkeys, hsplit⟩
          exact ⟨tail, rest, ih.mpr hsplit, hkeys, rfl⟩
      rw [Reader.replicate, Reads.bind_congr (P := fun key left => ∃ tail, key ::ᵥ tail = keys ∧
        left = (tail.val.flatMap fun key => key.val) ++ rest) htail]
      constructor
      · rintro ⟨key, left, hread, tail, rfl, rfl⟩
        rw [Reads.blob_iff.mp hread, List.Vector.cons_val, List.flatMap_cons, List.append_assoc]
      · intro hsplit
        refine ⟨keys.head, _, Reads.blob_iff.mpr ?_, keys.tail, List.Vector.cons_head_tail keys,
          rfl⟩
        rw [hsplit]
        nth_rewrite 1 [← List.Vector.cons_head_tail keys]
        rw [List.Vector.cons_val, List.flatMap_cons, List.append_assoc]

theorem flatMap_key_length (data : List PublicKey) :
    (data.flatMap fun key => key.val).length = 32 * data.length := by
  induction data with
  | nil => rfl
  | cons key data ih =>
      have hkey : key.val.length = 32 := key.2
      rw [List.flatMap_cons, List.length_append, ih, List.length_cons, hkey]
      omega

/-- The check of the count lets all counts of keys that are there through. -/
theorem loadContainer_key_iff {s : InStream} {data : StdVector PublicKey} {rest : List UInt8} :
    Reads (loadContainer (Reader.blob 32)) s data rest ↔
      ∃ count, s.rest = count ++ ((data.toList.flatMap fun key => key.val) ++ rest) ∧
        VarintAt 64 count data.toList.length
          ((data.toList.flatMap fun key => key.val) ++ rest) := by
  constructor
  · intro h
    obtain ⟨cnt, s₁, hcnt, h⟩ := Reads.bind_iff.mp h
    obtain ⟨left, s₂, hleft, h⟩ := Reads.bind_iff.mp h
    obtain ⟨-, rfl⟩ := Reader.remainingBytes_eq_some.mp hleft
    obtain ⟨u, s₃, hreq, h⟩ := Reads.bind_iff.mp h
    obtain ⟨-, rfl⟩ := Reader.require_eq_some.mp hreq
    obtain ⟨keys, s₄, hkeys, h⟩ := Reads.bind_iff.mp h
    obtain ⟨rfl, rfl⟩ := Reads.pure_iff.mp h
    have hsplit := replicate_blob_iff.mp (.of_eq hkeys)
    obtain ⟨count, hfront, hat⟩ := Reads.varint64_iff.mp (.of_eq hcnt)
    have hlength : cnt.toNat = (StdVector.ofVector keys).toList.length := keys.2.symm
    rw [hlength, hsplit] at hat
    rw [hsplit] at hfront
    exact ⟨count, hfront, hat⟩
  · rintro ⟨count, hfront, hat⟩
    have hsize := data.size_toNat
    rw [← hsize] at hat
    obtain ⟨s₁, hcnt, hrest⟩ := Reads.varint64_iff.mpr ⟨count, hfront, hat⟩
    have hread : Reads ((Reader.blob 32).replicate data.size.toNat) s₁ ⟨data.toList, hsize.symm⟩
        rest := replicate_blob_iff.mpr hrest
    obtain ⟨s', hkeys, hend⟩ := hread
    refine Reads.bind_iff.mpr ⟨_, s₁, hcnt, Reads.bind_iff.mpr ⟨_, s₁,
      Reader.remainingBytes_eq_some.mpr ⟨rfl, rfl⟩, Reads.bind_iff.mpr ⟨(), s₁,
      Reader.require_eq_some.mpr ⟨?_, rfl⟩, Reads.bind_iff.mpr ⟨_, s', hkeys, ?_⟩⟩⟩⟩
    · rw [hrest, List.length_append, flatMap_key_length, hsize]
      omega
    · exact Reads.pure_iff.mpr ⟨StdVector.ext rfl, hend⟩

theorem loadAdditionalPubKeys_iff {s : InStream} {field : TxExtraField} {rest : List UInt8} :
    Reads loadAdditionalPubKeys s field rest ↔ ∃ data, field = .additionalPubKeys data ∧
      ∃ count, s.rest = count ++ ((data.flatMap fun key => key.val) ++ rest) ∧
        VarintAt 64 count data.length ((data.flatMap fun key => key.val) ++ rest) := by
  rw [loadAdditionalPubKeys, Reads.bind_congr (P := fun data left =>
    .additionalPubKeys data.toList = field ∧ left = rest) fun _ _ => Reads.pure_iff]
  constructor
  · rintro ⟨data, left, hread, rfl, rfl⟩
    exact ⟨data.toList, rfl, loadContainer_key_iff.mp hread⟩
  · rintro ⟨data, rfl, count, hfront, hat⟩
    have hlt : data.length < 2 ^ 64 := hat.value_lt (by decide)
    exact ⟨⟨data, hlt⟩, rest, loadContainer_key_iff.mpr ⟨count, hfront, hat⟩, rfl, rfl⟩

theorem loadTxExtraField_iff {s : InStream} {field : TxExtraField} {rest : List UInt8} :
    Reads loadTxExtraField s field rest ↔
      ∃ o : Occupied, o.field = field ∧ s.rest = o.bytes ++ rest ∧ FieldAt o rest := by
  constructor
  · intro h
    obtain ⟨tag, s₁, htag, h⟩ := Reads.bind_iff.mp h
    have hfront := Reads.uint8_iff.mp (.of_eq htag)
    split at h
    · rename_i heq
      obtain ⟨n, hn, hsplit, rfl, rfl⟩ := loadPadding_iff.mp h
      rw [Nat.add_comm 1]
      refine ⟨_, rfl, ?_, .padding hn⟩
      rw [hfront, hsplit, heq, List.append_nil, List.replicate_succ]
    split at h
    · rename_i heq
      obtain ⟨key, s₂, hkey, h⟩ := Reads.bind_iff.mp h
      obtain ⟨rfl, rfl⟩ := Reads.pure_iff.mp h
      refine ⟨_, rfl, ?_, .pubKey key s₂.rest⟩
      rw [hfront, Reads.blob_iff.mp (.of_eq hkey), heq, List.cons_append]
    split at h
    · rename_i heq
      obtain ⟨nonce, rfl, hmax, size, hsplit, hsize⟩ := loadExtraNonce_iff.mp h
      refine ⟨_, rfl, ?_, .nonce hsize hmax⟩
      simp [hfront, hsplit, heq]
    split at h
    · rename_i heq
      obtain ⟨depthBytes, depth, merkleRoot, rfl, hdepth, size, hsplit, hsize⟩ :=
        loadMergeMiningTag_iff.mp h
      refine ⟨_, rfl, ?_, .mergeMiningTag hsize hdepth⟩
      simp [hfront, hsplit, heq]
    split at h
    · rename_i heq
      obtain ⟨data, rfl, count, hsplit, hcount⟩ := loadAdditionalPubKeys_iff.mp h
      refine ⟨_, rfl, ?_, .additionalPubKeys hcount⟩
      simp [hfront, hsplit, heq]
    split at h
    · rename_i heq
      obtain ⟨data, s₂, hdata, h⟩ := Reads.bind_iff.mp h
      obtain ⟨rfl, rfl⟩ := Reads.pure_iff.mp h
      obtain ⟨size, hsplit, hsize⟩ := loadString_iff.mp (.of_eq hdata)
      refine ⟨_, rfl, ?_, .mysteriousMinergate hsize⟩
      simp [hfront, hsplit, heq]
    · exact absurd h (by simp [Reads.fail_iff])
  · rintro ⟨o, rfl, hfront, hat⟩
    have hread : ∀ (tag : UInt8) (body : List UInt8), o.bytes = tag :: body →
        (∀ s₁ : InStream, s₁.rest = body ++ rest → Reads (if tag = 0x00 then loadPadding 255 1
          else if tag = 0x01 then do
            let key ← Reader.blob 32
            pure (.pubKey key)
          else if tag = 0x02 then loadExtraNonce
          else if tag = 0x03 then loadMergeMiningTag
          else if tag = 0x04 then loadAdditionalPubKeys
          else if tag = 0xde then do
            let data ← loadString
            pure (.mysteriousMinergate data)
          else Reader.fail) s₁ o.field rest) → Reads loadTxExtraField s o.field rest := by
      intro tag body htag hbody
      rw [htag, List.cons_append] at hfront
      obtain ⟨s₁, hs₁, hrest⟩ := Reads.uint8_iff.mpr hfront
      exact Reads.bind_iff.mpr ⟨tag, s₁, hs₁, hbody s₁ hrest⟩
    cases hat with
    | padding hmax =>
        refine hread 0 _ List.replicate_succ fun s₁ hs₁ => ?_
        rw [List.append_nil] at hs₁
        exact loadPadding_iff.mpr ⟨_, hmax, hs₁, rfl, by rw [Nat.add_comm]⟩
    | pubKey key =>
        refine hread 1 _ rfl fun s₁ hs₁ => ?_
        obtain ⟨s', hs', hend⟩ := Reads.blob_iff.mpr hs₁
        exact Reads.bind_iff.mpr ⟨key, s', hs', Reads.pure_iff.mpr ⟨rfl, hend⟩⟩
    | nonce hsize hmax =>
        refine hread 2 _ rfl fun s₁ hs₁ => ?_
        refine loadExtraNonce_iff.mpr ⟨_, rfl, hmax, _, ?_, hsize⟩
        rw [hs₁, List.append_assoc]
    | mergeMiningTag hsize hdepth =>
        refine hread 3 _ rfl fun s₁ hs₁ => ?_
        refine loadMergeMiningTag_iff.mpr ⟨_, _, _, rfl, hdepth, _, ?_, hsize⟩
        rw [hs₁, List.append_assoc]
    | additionalPubKeys hcount =>
        refine hread 4 _ rfl fun s₁ hs₁ => ?_
        refine loadAdditionalPubKeys_iff.mpr ⟨_, rfl, _, ?_, hcount⟩
        rw [hs₁, List.append_assoc]
    | mysteriousMinergate hsize =>
        refine hread 0xde _ rfl fun s₁ hs₁ => ?_
        obtain ⟨s', hs', hend⟩ := loadString_iff.mpr
          ⟨_, by rw [hs₁, List.append_assoc], hsize⟩
        exact Reads.bind_iff.mpr ⟨_, s', hs', Reads.pure_iff.mpr ⟨rfl, hend⟩⟩

/-! ### What follows a field -/

/-- The field is read in front of anything. -/
def Delimited (o : Occupied) : Prop := ∀ rest, FieldAt o rest

/-- Zero bytes that take up the rest. -/
def IsPadding (o : Occupied) : Prop :=
  ∃ n, o = ⟨.padding (n + 1), [], List.replicate (n + 1) 0⟩

/-- The end of the bytes cuts off the size of an empty field: nothing is there of it, or only
bytes `0x80`, which ten of would be too many. -/
def CutOff (o : Occupied) : Prop :=
  ∃ tag k, k ≤ 9 ∧ o.bytes = tag :: List.replicate k 0x80 ∧ o.field.save = [tag, 0] ∧
    (tag = 0x02 ∨ tag = 0x04 ∨ tag = 0xde)

variable {o o' : Occupied} {os os' : List Occupied} {bytes rest left : List UInt8}

theorem FieldAt.bytes_ne_nil (h : FieldAt o rest) : o.bytes ≠ [] := by
  cases h <;> simp

theorem varint_closed_or_cut {size content : List UInt8} {n : ℕ}
    (h : VarintAt 64 size n (content ++ rest)) (hn : content = [] → n = 0) :
    (∀ t, VarintAt 64 size n (content ++ t)) ∨
      rest = [] ∧ content = [] ∧ ∃ k ≤ 9, size = List.replicate k 0x80 := by
  rcases h.closed_or_open (by decide) with hclosed | ⟨hnil, hwidth, hzero⟩
  · exact .inl fun t => hclosed _
  · obtain ⟨rfl, rfl⟩ := List.append_eq_nil_iff.mp hnil
    exact .inr ⟨rfl, rfl, size.length, by omega, hzero (hn rfl)⟩

theorem FieldAt.delimited_or (h : FieldAt o rest) :
    Delimited o ∨ rest = [] ∧ (IsPadding o ∨ CutOff o) := by
  have hzero : writeVarint 0 = [0] := rfl
  cases h with
  | padding hmax => exact .inr ⟨rfl, .inl ⟨_, rfl⟩⟩
  | pubKey key => exact .inl fun rest => .pubKey key rest
  | nonce hsize hmax =>
      rcases varint_closed_or_cut hsize (by simp) with hclosed | ⟨rfl, rfl, k, hk, rfl⟩
      · exact .inl fun rest => .nonce (hclosed rest) hmax
      · refine .inr ⟨rfl, .inr ⟨0x02, k, hk, by simp, ?_, .inl rfl⟩⟩
        simp [TxExtraField.save, saveString, hzero]
  | mergeMiningTag hsize hdepth =>
      rename_i depthBytes depth merkleRoot
      have hlength : merkleRoot.val.length = 32 := merkleRoot.2
      rcases varint_closed_or_cut hsize (fun hnil => by rw [hnil]; rfl) with hclosed | ⟨-, hnil, -⟩
      · exact .inl fun rest => .mergeMiningTag (hclosed rest) hdepth
      · rw [List.append_eq_nil_iff] at hnil
        rw [hnil.2] at hlength
        cases hlength
  | additionalPubKeys hcount =>
      rename_i data
      have hnone : (data.flatMap fun key => key.val) = [] → data.length = 0 := by
        intro hnil
        have hlength := flatMap_key_length data
        rw [hnil, List.length_nil] at hlength
        omega
      rcases varint_closed_or_cut hcount hnone with hclosed | ⟨rfl, hnil, k, hk, rfl⟩
      · exact .inl fun rest => .additionalPubKeys (hclosed rest)
      · obtain rfl := List.length_eq_zero_iff.mp (hnone hnil)
        refine .inr ⟨rfl, .inr ⟨0x04, k, hk, by simp, ?_, .inr (.inl rfl)⟩⟩
        simp [TxExtraField.save, hzero]
  | mysteriousMinergate hsize =>
      rcases varint_closed_or_cut hsize (by simp) with hclosed | ⟨rfl, rfl, k, hk, rfl⟩
      · exact .inl fun rest => .mysteriousMinergate (hclosed rest)
      · refine .inr ⟨rfl, .inr ⟨0xde, k, hk, by simp, ?_, .inr (.inr rfl)⟩⟩
        simp [TxExtraField.save, saveString, hzero]

theorem FieldAt.unique {rest' : List UInt8} (h : FieldAt o rest) (h' : FieldAt o' rest')
    (heq : o.bytes ++ rest = o'.bytes ++ rest') : o = o' ∧ rest = rest' := by
  obtain ⟨s, hs, hrest⟩ := loadTxExtraField_iff.mpr
    ⟨o, rfl, show (InStream.ofBytes (o.bytes ++ rest)).rest = _ from rfl, h⟩
  obtain ⟨s', hs', hrest'⟩ := loadTxExtraField_iff.mpr
    ⟨o', rfl, show (InStream.ofBytes (o.bytes ++ rest)).rest = _ from heq, h'⟩
  rw [hs, Option.some.injEq, Prod.mk.injEq] at hs'
  obtain ⟨hfield, rfl⟩ := hs'
  obtain rfl : rest = rest' := hrest.symm.trans hrest'
  have hbytes := List.append_cancel_right heq
  refine ⟨?_, rfl⟩
  cases h <;> cases h' <;> simp_all
  -- two merge-mining tags: the sizes are the same varint, and so are the depths
  rename_i hdepth hsize hdepth' hsize'
  obtain ⟨rfl, -, htail⟩ := hsize.unique hsize' heq
  exact ⟨rfl, List.append_cancel_right htail⟩

/-! ### Fields as they are written -/

/-- A field that is read back from what it is written as, in front of anything. -/
def Writable (field : TxExtraField) : Prop := ∃ varints, Delimited ⟨field, varints, field.save⟩

theorem writeVarint_length_le (k : ℕ) {v : ℕ} (hv : v < 128 ^ (k + 1)) :
    (writeVarint v).length ≤ k + 1 := by
  induction k generalizing v with
  | zero => simp [writeVarint_of_lt (show v < 0x80 by omega)]
  | succ k ih =>
      by_cases hlt : v < 0x80
      · simp [writeVarint_of_lt hlt]
      · rw [writeVarint_of_le (Nat.le_of_not_lt hlt), List.length_cons]
        have hdiv : v / 128 < 128 ^ (k + 1) := by
          rw [pow_succ] at hv
          exact Nat.div_lt_of_lt_mul (by omega)
        have hle := ih hdiv
        omega

theorem writtenTag_length_lt (merkleRoot : Hash) {depth : ℕ} (hdepth : depth < 2 ^ 64) :
    (writeVarint depth ++ merkleRoot.val).length < 2 ^ 64 := by
  have hshort := writeVarint_length_le 9 (hdepth.trans (show 2 ^ 64 < 128 ^ 10 by decide))
  have hlength : merkleRoot.val.length = 32 := merkleRoot.2
  rw [List.length_append, hlength]
  omega

theorem FieldAt.written (h : FieldAt o rest) : Writable o.field ∨ IsPadding o := by
  have hpos : 0 < 64 := by decide
  cases h with
  | padding hmax => exact .inr ⟨_, rfl⟩
  | pubKey key => exact .inl ⟨[], fun rest => .pubKey key rest⟩
  | nonce hsize hmax =>
      exact .inl ⟨_, fun rest => .nonce (.of_write hpos (hsize.value_lt hpos) _) hmax⟩
  | mergeMiningTag hsize hdepth =>
      rename_i depthBytes depth merkleRoot
      have hdepth := hdepth.value_lt hpos
      have hfits := writtenTag_length_lt merkleRoot hdepth
      exact .inl ⟨_, fun rest => .mergeMiningTag (.of_write hpos hfits _)
        (.of_write hpos hdepth _)⟩
  | additionalPubKeys hcount =>
      exact .inl ⟨_, fun rest => .additionalPubKeys (.of_write hpos (hcount.value_lt hpos) _)⟩
  | mysteriousMinergate hsize =>
      exact .inl ⟨_, fun rest => .mysteriousMinergate (.of_write hpos (hsize.value_lt hpos) _)⟩

theorem IsPadding.save (h : IsPadding o) : o.bytes = o.field.save := by
  obtain ⟨n, rfl⟩ := h
  rfl

/-- The bytes are those that the field is written as exactly when its varints are well formed. -/
theorem FieldAt.save_iff (h : FieldAt o rest) :
    o.bytes = o.field.save ↔ ∀ varint ∈ o.varints, VarintWellFormed 64 varint := by
  have hpos : 0 < 64 := by decide
  cases h with
  | padding hmax => simp [TxExtraField.save]
  | pubKey key => simp [TxExtraField.save]
  | nonce hsize hmax =>
      simp [TxExtraField.save, saveString, ← hsize.canonical_iff hpos]
  | mergeMiningTag hsize hdepth =>
      rename_i size depthBytes depth merkleRoot
      rw [List.forall_mem_cons, List.forall_mem_singleton, ← hsize.canonical_iff hpos,
        ← hdepth.canonical_iff hpos]
      constructor
      · intro heq
        have halone : VarintAt 64 size (depthBytes ++ merkleRoot.val).length
            (depthBytes ++ merkleRoot.val) := by
          rcases varint_closed_or_cut hsize (fun hnil => by rw [hnil]; rfl) with hclosed | hopen
          · simpa using hclosed []
          · simpa [hopen.1] using hsize
        have hfits := writtenTag_length_lt merkleRoot (hdepth.value_lt hpos)
        obtain ⟨hsize, -, hcontent⟩ := halone.unique (.of_write hpos hfits _)
          (List.cons.inj heq).2
        refine ⟨?_, List.append_cancel_right hcontent⟩
        rw [hsize, hcontent]
      · rintro ⟨hsize, hdepth⟩
        simp only [TxExtraField.save, saveString]
        rw [← hdepth, ← hsize]
  | additionalPubKeys hcount =>
      simp [TxExtraField.save, ← hcount.canonical_iff hpos]
  | mysteriousMinergate hsize =>
      simp [TxExtraField.save, saveString, ← hsize.canonical_iff hpos]

/-! ### All fields -/

/-- The fields in front of `left`, where there is nothing more, or no field. -/
inductive Fields : List UInt8 → List Occupied → List UInt8 → Prop
  | done : Fields [] [] []
  | stop {left : List UInt8} (hne : left ≠ [])
      (hnone : ∀ o rest, left = o.bytes ++ rest → ¬FieldAt o rest) : Fields left [] left
  | field {o : Occupied} {rest left : List UInt8} {os : List Occupied} (h : FieldAt o rest)
      (hrest : Fields rest os left) : Fields (o.bytes ++ rest) (o :: os) left

theorem exists_fields (bytes : List UInt8) : ∃ os left, Fields bytes os left := by
  induction hlength : bytes.length using Nat.strong_induction_on generalizing bytes with
  | _ n ih =>
      by_cases hnil : bytes = []
      · exact ⟨[], [], hnil ▸ .done⟩
      · by_cases hfield : ∃ o rest, bytes = o.bytes ++ rest ∧ FieldAt o rest
        · obtain ⟨o, rest, rfl, hat⟩ := hfield
          have hlt : rest.length < n := by
            have hpos := List.length_pos_iff.mpr hat.bytes_ne_nil
            rw [List.length_append] at hlength
            omega
          obtain ⟨os, left, hrest⟩ := ih rest.length hlt rest rfl
          exact ⟨o :: os, left, .field hat hrest⟩
        · refine ⟨[], bytes, .stop hnil fun o rest heq hat => hfield ⟨o, rest, heq, hat⟩⟩

theorem Fields.split (h : Fields bytes os left) :
    bytes = (os.flatMap Occupied.bytes) ++ left := by
  induction h with
  | done => rfl
  | stop => rfl
  | field hat hrest ih => rw [List.flatMap_cons, List.append_assoc, ← ih]

theorem Fields.nil_iff (h : Fields bytes os left) : bytes = [] ↔ os = [] ∧ left = [] := by
  cases h with
  | done => simp
  | stop hne => simp [hne]
  | field hat => simp [hat.bytes_ne_nil]

theorem Fields.parseTxExtraLoop (h : Fields bytes os left) {rounds : ℕ} {s : InStream}
    (hs : s.rest = bytes) (hne : bytes ≠ []) (hrounds : bytes.length ≤ rounds) :
    parseTxExtraLoop rounds s = (os.map Occupied.field, decide (left = [])) := by
  induction h generalizing rounds s with
  | done => exact absurd rfl hne
  | stop hne hnone =>
      obtain ⟨rounds, rfl⟩ := Nat.exists_eq_add_one_of_ne_zero
        (Nat.lt_of_lt_of_le (List.length_pos_iff.mpr hne) hrounds).ne'
      rw [Cryptonote.parseTxExtraLoop]
      split
      · simp [hne]
      · rename_i field s' hload
        obtain ⟨o, -, hfront, hat⟩ := loadTxExtraField_iff.mp (.of_eq hload)
        exact absurd hat (hnone o _ (hs.symm.trans hfront))
  | @field o rest left os hat hrest ih =>
      obtain ⟨rounds, rfl⟩ := Nat.exists_eq_add_one_of_ne_zero
        (Nat.lt_of_lt_of_le (List.length_pos_iff.mpr hne) hrounds).ne'
      obtain ⟨s', hload, hrest'⟩ := loadTxExtraField_iff.mpr ⟨o, rfl, hs, hat⟩
      rw [Cryptonote.parseTxExtraLoop, hload]
      by_cases hnil : rest = []
      · obtain ⟨rfl, rfl⟩ := hrest.nil_iff.mp hnil
        simp [hrest', hnil]
      · have hpos := List.length_pos_iff.mpr hat.bytes_ne_nil
        rw [List.length_append] at hrounds
        have hloop := ih hrest' hnil (show rest.length ≤ rounds by omega)
        simp [hrest', hnil, hloop]

theorem Fields.parse (h : Fields bytes os left) :
    parseTxExtra bytes = (os.map Occupied.field, decide (left = [])) := by
  by_cases hnil : bytes = []
  · obtain ⟨rfl, rfl⟩ := h.nil_iff.mp hnil
    rw [hnil]
    rfl
  · exact h.parseTxExtraLoop rfl hnil le_rfl

theorem Fields.unique {left' : List UInt8} (h : Fields bytes os left)
    (h' : Fields bytes os' left') : os = os' ∧ left = left' := by
  induction h generalizing os' left' with
  | done =>
      obtain ⟨rfl, rfl⟩ := h'.nil_iff.mp rfl
      exact ⟨rfl, rfl⟩
  | stop hne hnone =>
      cases h' with
      | done => exact absurd rfl hne
      | stop => exact ⟨rfl, rfl⟩
      | field hat => exact absurd hat (hnone _ _ rfl)
  | @field o rest left os hat hrest ih =>
      generalize heq : o.bytes ++ rest = bytes at h'
      cases h' with
      | done => exact absurd (List.append_eq_nil_iff.mp heq).1 hat.bytes_ne_nil
      | stop hne hnone => exact absurd hat (hnone _ _ heq.symm)
      | field hat' hrest' =>
          obtain ⟨rfl, rfl⟩ := hat.unique hat' heq
          obtain ⟨rfl, rfl⟩ := ih hrest'
          exact ⟨rfl, rfl⟩

theorem Fields.delimited_or (h : Fields bytes os left) :
    (∀ o ∈ os, Delimited o) ∨ left = [] ∧ ∃ front last, os = front ++ [last] ∧
      (∀ o ∈ front, Delimited o) ∧ FieldAt last [] ∧ (IsPadding last ∨ CutOff last) := by
  induction h with
  | done => exact .inl (by simp)
  | stop => exact .inl (by simp)
  | @field o rest left os hat hrest ih =>
      rcases hat.delimited_or with hdel | ⟨rfl, hlast⟩
      · rcases ih with hall | ⟨hleft, front, last, rfl, hfront, hlast⟩
        · exact .inl (List.forall_mem_cons.mpr ⟨hdel, hall⟩)
        · exact .inr ⟨hleft, o :: front, last, rfl, List.forall_mem_cons.mpr ⟨hdel, hfront⟩, hlast⟩
      · obtain ⟨rfl, rfl⟩ := hrest.nil_iff.mp rfl
        exact .inr ⟨rfl, [], o, rfl, by simp, hat, hlast⟩

theorem Fields.prepend (hos : ∀ o ∈ os, Delimited o) (h : Fields rest os' left) :
    Fields ((os.flatMap Occupied.bytes) ++ rest) (os ++ os') left := by
  induction os with
  | nil => exact h
  | cons o os ih =>
      rw [List.forall_mem_cons] at hos
      rw [List.flatMap_cons, List.append_assoc, List.cons_append]
      exact .field (hos.1 _) (ih hos.2)

end XrCoin.Cryptonote

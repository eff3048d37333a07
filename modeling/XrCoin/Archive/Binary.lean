import XrCoin.Archive.Stream

/-!
The fields of a binary archive: fixed-width integers, varints, blobs and
containers, each as a pair of a writer and a reader.

For every pair two laws are kept. `Accounts` says that a value that was read is
written as the bytes that were read, up to the form of the varints; `Inverts`
says that a value that was written is read back.
-/

namespace XrCoin.Archive

/-! ### Vectors -/

structure StdVector (α : Type) where
  toList : List α
  size_lt : toList.length < 2 ^ 64
  deriving DecidableEq

namespace StdVector

variable {α β : Type}

def size (v : StdVector α) : UInt64 := UInt64.ofNat v.toList.length

def nil : StdVector α := ⟨[], by simp⟩

instance : Inhabited (StdVector α) := ⟨nil⟩

def map (f : α → β) (v : StdVector α) : StdVector β :=
  ⟨v.toList.map f, by simpa using v.size_lt⟩

/-- A list as a vector. A vector that is too long cannot be allocated. -/
def ofList? (as : List α) : Option (StdVector α) :=
  if h : as.length < 2 ^ 64 then some ⟨as, h⟩ else none

/-- The vector of `n` elements that a loop up to `n` filled. -/
def ofVector {n : UInt64} (as : List.Vector α n.toNat) : StdVector α :=
  ⟨as.val, by rw [as.2]; exact n.toNat_lt⟩

def zip (v : StdVector α) (w : StdVector β) : StdVector (α × β) :=
  ⟨v.toList.zip w.toList, by
    have h := v.size_lt
    rw [List.length_zip]
    omega⟩

/-- The loop that builds a list of the same length and may give up. -/
def traverseList (f : α → Option β) : (as : List α) → Option (List.Vector β as.length)
  | [] => some .nil
  | a :: as => do
      let b ← f a
      let bs ← traverseList f as
      some (b ::ᵥ bs)

def traverse (f : α → Option β) (v : StdVector α) : Option (StdVector β) :=
  (traverseList f v.toList).map fun bs => ⟨bs.val, by rw [bs.2]; exact v.size_lt⟩

theorem ofList?_eq_some {as : List α} {v : StdVector α} (h : ofList? as = some v) :
    v.toList = as := by
  rw [ofList?] at h
  split at h
  · rw [← Option.some.inj h]
  · cases h

@[ext] theorem ext {v w : StdVector α} (h : v.toList = w.toList) : v = w := by
  cases v
  cases w
  simpa using h

@[simp] theorem size_toNat (v : StdVector α) : v.size.toNat = v.toList.length :=
  UInt64.toNat_ofNat_of_lt' v.size_lt

theorem size_eq_iff {v : StdVector α} {n : UInt64} : v.size = n ↔ v.toList.length = n.toNat := by
  rw [← UInt64.toNat_inj, size_toNat]

@[simp] theorem map_toList (f : α → β) (v : StdVector α) : (v.map f).toList = v.toList.map f :=
  rfl

@[simp] theorem map_id (v : StdVector α) : v.map id = v := by
  ext1
  simp

@[simp] theorem map_size (f : α → β) (v : StdVector α) : (v.map f).size = v.size := by
  simp [size]

@[simp] theorem ofVector_size {n : UInt64} (as : List.Vector α n.toNat) :
    (ofVector as).size = n := by
  rw [size_eq_iff]
  exact as.2

@[simp] theorem zip_toList (v : StdVector α) (w : StdVector β) :
    (v.zip w).toList = v.toList.zip w.toList := rfl

theorem forall₂_traverseList {f : α → Option β} {as : List α} {bs : List.Vector β as.length}
    (h : traverseList f as = some bs) : List.Forall₂ (fun a b => f a = some b) as bs.val := by
  induction as with
  | nil =>
      obtain rfl := Option.some.inj h
      exact .nil
  | cons a as ih =>
      obtain ⟨b, hb, h⟩ := Option.bind_eq_some_iff.mp h
      obtain ⟨tail, htail, h⟩ := Option.bind_eq_some_iff.mp h
      obtain rfl := Option.some.inj h
      exact .cons hb (ih htail)

theorem forall₂_traverse {f : α → Option β} {v : StdVector α} {w : StdVector β}
    (h : v.traverse f = some w) :
    List.Forall₂ (fun a b => f a = some b) v.toList w.toList := by
  obtain ⟨bs, hbs, rfl⟩ := Option.map_eq_some_iff.mp h
  exact forall₂_traverseList hbs

@[simp] theorem nil_toList : (nil : StdVector α).toList = [] := rfl

end StdVector

/-! ### Fixed-width integers -/

/-- The `width` low bytes of `n`, least significant first. -/
def leBytes : ℕ → ℕ → List UInt8
  | 0, _ => []
  | width + 1, n => UInt8.ofNat (n % 256) :: leBytes width (n / 256)

def leValue : List UInt8 → ℕ
  | [] => 0
  | b :: bs => b.toNat + 256 * leValue bs

@[simp] theorem leBytes_length (width n : ℕ) : (leBytes width n).length = width := by
  induction width generalizing n with
  | zero => rfl
  | succ width ih => simp [leBytes, ih]

theorem leValue_leBytes {width n : ℕ} (hn : n < 256 ^ width) : leValue (leBytes width n) = n := by
  induction width generalizing n with
  | zero =>
      have : n = 0 := by simpa using hn
      simp [leBytes, leValue, this]
  | succ width ih =>
      have hdiv : n / 256 < 256 ^ width := by
        rw [Nat.pow_succ] at hn
        exact Nat.div_lt_of_lt_mul (by omega)
      rw [leBytes, leValue, ih hdiv, toNat_ofNat_byte (by omega)]
      omega

theorem leValue_lt (bs : List UInt8) : leValue bs < 256 ^ bs.length := by
  induction bs with
  | nil => simp [leValue]
  | cons b bs ih =>
      have hb := b.toNat_lt
      rw [leValue, List.length_cons, Nat.pow_succ]
      omega

theorem leBytes_leValue (bs : List UInt8) : leBytes bs.length (leValue bs) = bs := by
  induction bs with
  | nil => rfl
  | cons b bs ih =>
      have hb := b.toNat_lt
      have hmod : (b.toNat + 256 * leValue bs) % 256 = b.toNat := by omega
      have hdiv : (b.toNat + 256 * leValue bs) / 256 = leValue bs := by omega
      rw [List.length_cons, leValue, leBytes, hmod, hdiv, ih]
      simp

def loadUint (width : ℕ) : Reader ℕ := do
  let v ← Reader.blob width
  pure (leValue v.val)

def saveUint (width n : ℕ) : Out := .emit (leBytes width n)

theorem span_loadUint {width n : ℕ} {s s' : InStream} (h : loadUint width s = some (n, s')) :
    Span s s' (saveUint width n) ∧ n < 256 ^ width := by
  obtain ⟨v, s₁, hv, h⟩ := Reader.bind_eq_some.mp h
  obtain ⟨rfl, rfl⟩ := Reader.pure_eq_some.mp h
  obtain ⟨bs, rfl⟩ := v
  refine ⟨?_, leValue_lt bs⟩
  unfold saveUint
  rw [leBytes_leValue]
  exact Span.blob hv

theorem delivers_loadUint {width n : ℕ} (hn : n < 256 ^ width) :
    Delivers (loadUint width) (saveUint width n).bytes n := by
  exact (Delivers.blob ⟨leBytes width n, leBytes_length width n⟩).convert (leValue_leBytes hn)

/-! ### Scalars -/

def loadUint8 : Reader UInt8 := do
  let n ← loadUint 1
  pure (UInt8.ofNat n)

def saveUint8 (v : UInt8) : Out := saveUint 1 v.toNat

def loadUint32 : Reader UInt32 := do
  let n ← loadUint 4
  pure (UInt32.ofNat n)

def saveUint32 (v : UInt32) : Out := saveUint 4 v.toNat

def loadUint64 : Reader UInt64 := do
  let n ← loadUint 8
  pure (UInt64.ofNat n)

def saveUint64 (v : UInt64) : Out := saveUint 8 v.toNat

def loadVarint8 : Reader UInt8 := do
  let n ← Reader.varint 8
  pure (UInt8.ofNat n)

def saveVarint8 (v : UInt8) : Out := .emit (writeVarint v.toNat)

/-- `serialize_varint` of a 64-bit field. -/
def loadVarint64 : Reader UInt64 := do
  let n ← Reader.varint 64
  pure (UInt64.ofNat n)

def saveVarint64 (v : UInt64) : Out := .emit (writeVarint v.toNat)

theorem accounts_uint8 : Accounts loadUint8 saveUint8 := by
  intro s s' v h
  obtain ⟨n, s₁, hn, h⟩ := Reader.bind_eq_some.mp h
  obtain ⟨rfl, rfl⟩ := Reader.pure_eq_some.mp h
  obtain ⟨hspan, hlt⟩ := span_loadUint hn
  unfold saveUint8
  rw [UInt8.toNat_ofNat_of_lt' (by simpa using hlt)]
  exact hspan

theorem accounts_uint32 : Accounts loadUint32 saveUint32 := by
  intro s s' v h
  obtain ⟨n, s₁, hn, h⟩ := Reader.bind_eq_some.mp h
  obtain ⟨rfl, rfl⟩ := Reader.pure_eq_some.mp h
  obtain ⟨hspan, hlt⟩ := span_loadUint hn
  unfold saveUint32
  rw [UInt32.toNat_ofNat_of_lt' (by simpa using hlt)]
  exact hspan

theorem accounts_uint64 : Accounts loadUint64 saveUint64 := by
  intro s s' v h
  obtain ⟨n, s₁, hn, h⟩ := Reader.bind_eq_some.mp h
  obtain ⟨rfl, rfl⟩ := Reader.pure_eq_some.mp h
  obtain ⟨hspan, hlt⟩ := span_loadUint hn
  unfold saveUint64
  rw [UInt64.toNat_ofNat_of_lt' (by simpa using hlt)]
  exact hspan

theorem reader_varint_lt {bits n : ℕ} (hbits : 0 < bits) {s s' : InStream}
    (h : Reader.varint bits s = some (n, s')) : n < 2 ^ bits := by
  simp only [Reader.varint, Option.some.injEq, Prod.mk.injEq] at h
  rw [← h.1]
  exact readVarint_value_lt hbits _

theorem accounts_varint8 : Accounts loadVarint8 saveVarint8 := by
  intro s s' v h
  obtain ⟨n, s₁, hn, h⟩ := Reader.bind_eq_some.mp h
  obtain ⟨rfl, rfl⟩ := Reader.pure_eq_some.mp h
  unfold saveVarint8
  rw [UInt8.toNat_ofNat_of_lt' (reader_varint_lt (by decide) hn)]
  exact Span.varint (by decide) hn

theorem accounts_varint64 : Accounts loadVarint64 saveVarint64 := by
  intro s s' v h
  obtain ⟨n, s₁, hn, h⟩ := Reader.bind_eq_some.mp h
  obtain ⟨rfl, rfl⟩ := Reader.pure_eq_some.mp h
  unfold saveVarint64
  rw [UInt64.toNat_ofNat_of_lt' (reader_varint_lt (by decide) hn)]
  exact Span.varint (by decide) hn

theorem inverts_uint8 : Inverts loadUint8 saveUint8 id := fun v _ =>
  (delivers_loadUint (by simpa using v.toNat_lt)).convert (by simp)

theorem inverts_uint32 : Inverts loadUint32 saveUint32 id := fun v _ =>
  (delivers_loadUint (by simpa using v.toNat_lt)).convert (by simp)

theorem inverts_uint64 : Inverts loadUint64 saveUint64 id := fun v _ =>
  (delivers_loadUint (by simpa using v.toNat_lt)).convert (by simp)

theorem inverts_varint8 : Inverts loadVarint8 saveVarint8 id := fun v _ =>
  (Delivers.varint (by decide) v.toNat_lt).convert (by simp)

theorem inverts_varint64 : Inverts loadVarint64 saveVarint64 id := fun v _ =>
  (Delivers.varint (by decide) v.toNat_lt).convert (by simp)

/-! ### Blobs -/

/-- A plain old data type of `n` bytes, kept as its bytes. -/
abbrev Pod (n : ℕ) : Type := List.Vector UInt8 n

def savePod {n : ℕ} (v : Pod n) : Out := .emit v.val

theorem accounts_pod {n : ℕ} : Accounts (Reader.blob n) savePod :=
  fun _ _ _ h => Span.blob h

theorem inverts_pod {n : ℕ} : Inverts (Reader.blob n) savePod id := fun v _ => Delivers.blob v

/-! ### Containers -/

/-- A loop over a vector that was resized to `n` first. -/
def loadArray {α : Type} (n : UInt64) (r : Reader α) : Reader (StdVector α) := do
  let as ← r.replicate n.toNat
  pure (.ofVector as)

/-- The saving side of the same loop, behind the check of the size. -/
def saveArray {α : Type} (n : UInt64) (save : α → Out) (v : StdVector α) : Out :=
  .require (v.size = n) ++ .saveAll save v.toList

def loadContainer {α : Type} (r : Reader α) : Reader (StdVector α) := do
  let cnt ← loadVarint64
  let left ← Reader.remainingBytes
  Reader.require (cnt.toNat ≤ left)
  loadArray cnt r

def saveContainer {α : Type} (save : α → Out) (v : StdVector α) : Out :=
  saveVarint64 v.size ++ .saveAll save v.toList

theorem loadArray_size {α : Type} {n : UInt64} {r : Reader α} {v : StdVector α}
    {s s' : InStream} (h : loadArray n r s = some (v, s')) : v.size = n := by
  obtain ⟨as, s₁, -, h⟩ := Reader.bind_eq_some.mp h
  obtain ⟨rfl, rfl⟩ := Reader.pure_eq_some.mp h
  exact StdVector.ofVector_size as

theorem span_loadArray {α : Type} {n : UInt64} {r : Reader α} {save : α → Out}
    (hr : Accounts r save) {v : StdVector α} {s s' : InStream}
    (h : loadArray n r s = some (v, s')) : Span s s' (.saveAll save v.toList) := by
  obtain ⟨as, s₁, has, h⟩ := Reader.bind_eq_some.mp h
  obtain ⟨rfl, rfl⟩ := Reader.pure_eq_some.mp h
  exact Span.replicate hr has

theorem accounts_array {α : Type} {n : UInt64} {r : Reader α} {save : α → Out}
    (hr : Accounts r save) : Accounts (loadArray n r) (saveArray n save) := by
  intro s s' v h
  unfold saveArray
  rw [Out.require_true (loadArray_size h), Out.emit_nil_append]
  exact span_loadArray hr h

theorem accounts_container {α : Type} {r : Reader α} {save : α → Out}
    (hr : Accounts r save) : Accounts (loadContainer r) (saveContainer save) := by
  intro s s' v h
  obtain ⟨cnt, s₁, hcnt, h⟩ := Reader.bind_eq_some.mp h
  obtain ⟨left, s₂, hleft, h⟩ := Reader.bind_eq_some.mp h
  obtain ⟨-, rfl⟩ := Reader.remainingBytes_eq_some.mp hleft
  obtain ⟨⟨⟩, s₃, hreq, h⟩ := Reader.bind_eq_some.mp h
  obtain ⟨-, rfl⟩ := Reader.require_eq_some.mp hreq
  unfold saveContainer
  rw [loadArray_size h]
  exact (accounts_varint64 hcnt).trans (span_loadArray hr h)

theorem delivers_loadArray {α β : Type} {n : UInt64} {r : Reader β} {save : α → Out}
    {norm : α → β} {v : StdVector α}
    (hr : ∀ a ∈ v.toList, (save a).ok = true → Delivers r (save a).bytes (norm a))
    (hok : (Out.saveAll save v.toList).ok = true) (hn : v.size = n) :
    Delivers (loadArray n r) (Out.saveAll save v.toList).bytes (v.map norm) := by
  have hlen : (v.toList.map norm).length = n.toNat := by
    rw [List.length_map]
    exact StdVector.size_eq_iff.mp hn
  exact (Delivers.replicate hr hok hlen).convert (StdVector.ext rfl)

theorem inverts_array {α β : Type} {n : UInt64} {r : Reader β} {save : α → Out} {norm : α → β}
    (hr : Inverts r save norm) :
    Inverts (loadArray n r) (saveArray n save) (StdVector.map norm) := by
  intro v hok
  unfold saveArray at hok ⊢
  rw [Out.append_ok, Out.require_ok] at hok
  rw [Out.require_true hok.1, Out.emit_nil_append]
  exact delivers_loadArray (fun a _ => hr a) hok.2 hok.1

theorem inverts_array_id {α : Type} {n : UInt64} {r : Reader α} {save : α → Out}
    (hr : Inverts r save id) : Inverts (loadArray n r) (saveArray n save) id := by
  intro v
  have h := inverts_array (n := n) hr v
  rw [StdVector.map_id] at h
  exact h

theorem saveAll_length_le {α : Type} {save : α → Out} {l : List α}
    (hok : (Out.saveAll save l).ok = true)
    (hpos : ∀ a ∈ l, 1 ≤ (save a).bytes.length) :
    l.length ≤ (Out.saveAll save l).bytes.length := by
  induction l with
  | nil => simp
  | cons a l ih =>
      rw [Out.saveAll_cons, Out.append_ok] at hok
      rw [Out.saveAll_cons, Out.append_bytes hok.1, List.length_append, List.length_cons]
      have ha := hpos a (by simp)
      have htail := ih hok.2 (fun b hb => hpos b (by simp [hb]))
      omega

theorem Delivers.remainingBytes_bind {β : Type} {n : ℕ} {k : ℕ → Reader β} {bs : List UInt8}
    {b : β} (hn : n ≤ bs.length) (hk : ∀ left, n ≤ left → Delivers (k left) bs b) :
    Delivers (Reader.remainingBytes >>= k) bs b := by
  intro s t hs
  have hleft : n ≤ s.rest.length := by
    rw [hs, List.length_append]
    omega
  obtain ⟨s', hk', hrest⟩ := hk s.rest.length hleft s t hs
  exact ⟨s', Reader.bind_eq_some.mpr
    ⟨_, s, Reader.remainingBytes_eq_some.mpr ⟨rfl, rfl⟩, hk'⟩, hrest⟩

/-- The check against the remaining bytes lets every written container through:
an element takes at least a byte. -/
theorem inverts_container {α β : Type} {r : Reader β} {save : α → Out} {norm : α → β}
    (hr : Inverts r save norm) (hpos : ∀ a, 1 ≤ (save a).bytes.length) :
    Inverts (loadContainer r) (saveContainer save) (StdVector.map norm) := by
  intro v hok
  unfold saveContainer at hok ⊢
  rw [Out.append_ok] at hok
  rw [Out.append_bytes hok.1]
  refine (inverts_varint64 v.size hok.1).bind ?_
  have hlen : v.size.toNat ≤ (Out.saveAll save v.toList).bytes.length := by
    rw [StdVector.size_toNat]
    exact saveAll_length_le hok.2 (fun a _ => hpos a)
  refine Delivers.remainingBytes_bind hlen ?_
  intro left hleft
  refine Delivers.require_bind hleft ?_
  exact delivers_loadArray (fun a _ => hr a) hok.2 rfl

theorem inverts_container_id {α : Type} {r : Reader α} {save : α → Out}
    (hr : Inverts r save id) (hpos : ∀ a, 1 ≤ (save a).bytes.length) :
    Inverts (loadContainer r) (saveContainer save) id := by
  intro v
  have h := inverts_container hr hpos v
  rw [StdVector.map_id] at h
  exact h

end XrCoin.Archive

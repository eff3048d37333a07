import Mathlib
import XrCoin.Archive.Varint

/-!
The two ends of a binary archive.

A saving archive collects bytes until some field refuses, and what it collected
before stays in the stream. A loading archive consumes its input from the front.
The loading stream also keeps a log of its reads, which no reader looks at: it
says which bytes each read consumed, so that the consumed bytes can be compared
with the bytes the writer would have produced.
-/

namespace XrCoin.Archive

/-! ### Saving -/

/-- A saving archive after some fields: whether it still accepts more, and the
bytes in its stream. -/
structure Out where
  ok : Bool
  bytes : List UInt8
  deriving DecidableEq, Repr

namespace Out

def emit (bytes : List UInt8) : Out := ⟨true, bytes⟩

/-- A check between two fields: `return false` unless `p`. -/
def require (p : Prop) [Decidable p] : Out := ⟨decide p, []⟩

def saveIf (c : Prop) [Decidable c] (out : Out) : Out := if c then out else emit []

/-- Fields after a refusal are not written. -/
instance : Append Out where
  append a b := if a.ok then ⟨b.ok, a.bytes ++ b.bytes⟩ else a

def saveAll {α : Type} (save : α → Out) (as : List α) : Out :=
  as.foldr (fun a out => save a ++ out) (emit [])

theorem append_def (a b : Out) :
    a ++ b = if a.ok then ⟨b.ok, a.bytes ++ b.bytes⟩ else a := rfl

@[simp] theorem emit_ok (bytes : List UInt8) : (emit bytes).ok = true := rfl

@[simp] theorem emit_bytes (bytes : List UInt8) : (emit bytes).bytes = bytes := rfl

@[simp] theorem require_ok {p : Prop} [Decidable p] : (require p).ok = true ↔ p := by
  simp [require]

theorem require_true {p : Prop} [Decidable p] (hp : p) : require p = emit [] := by
  simp [require, emit, hp]

theorem require_congr {p q : Prop} [Decidable p] [Decidable q] (h : p ↔ q) :
    require p = require q := by
  simp [require, h]

theorem saveIf_pos {c : Prop} [Decidable c] (hc : c) (out : Out) : saveIf c out = out :=
  if_pos hc

theorem saveIf_neg {c : Prop} [Decidable c] (hc : ¬c) (out : Out) : saveIf c out = emit [] :=
  if_neg hc

@[simp] theorem emit_append_emit (as bs : List UInt8) :
    emit as ++ emit bs = emit (as ++ bs) := rfl

@[simp] theorem emit_nil_append (out : Out) : emit [] ++ out = out := rfl

@[simp] theorem append_emit_nil (out : Out) : out ++ emit [] = out := by
  rcases out with ⟨ok, bytes⟩
  cases ok <;> simp [append_def, emit]

theorem append_assoc (a b c : Out) : a ++ b ++ c = a ++ (b ++ c) := by
  rcases a with ⟨aok, as⟩
  rcases b with ⟨bok, bs⟩
  cases aok <;> cases bok <;> simp [append_def]

@[simp] theorem append_ok (a b : Out) : (a ++ b).ok = true ↔ a.ok = true ∧ b.ok = true := by
  rcases a with ⟨aok, as⟩
  cases aok <;> simp [append_def]

theorem length_le_append (a b : Out) : a.bytes.length ≤ (a ++ b).bytes.length := by
  rcases a with ⟨aok, as⟩
  cases aok <;> simp [append_def]

theorem append_bytes {a : Out} (ha : a.ok = true) (b : Out) :
    (a ++ b).bytes = a.bytes ++ b.bytes := by
  simp [append_def, ha]

@[simp] theorem saveAll_nil {α : Type} (save : α → Out) : saveAll save [] = emit [] := rfl

@[simp] theorem saveAll_cons {α : Type} (save : α → Out) (a : α) (as : List α) :
    saveAll save (a :: as) = save a ++ saveAll save as := rfl

theorem saveAll_ok {α : Type} {save : α → Out} {as : List α} :
    (saveAll save as).ok = true ↔ ∀ a ∈ as, (save a).ok = true := by
  induction as with
  | nil => simp
  | cons a as ih => simp [ih]

theorem saveAll_emit_nil {α : Type} {save : α → Out} {as : List α}
    (h : ∀ a ∈ as, save a = emit []) : saveAll save as = emit [] := by
  induction as with
  | nil => rfl
  | cons a as ih =>
      rw [saveAll_cons, h a (by simp), emit_nil_append]
      exact ih fun b hb => h b (by simp [hb])

end Out

/-! ### Loading -/

inductive Piece
  | raw (bytes : List UInt8)
  | varint (bits : ℕ) (bytes : List UInt8)
  deriving DecidableEq, Repr

namespace Piece

def consumed : Piece → List UInt8
  | raw bytes => bytes
  | varint _ bytes => bytes

def canonical : Piece → List UInt8
  | raw bytes => bytes
  | varint bits bytes => writeVarint (readVarint bits bytes).value

def WellFormed : Piece → Prop
  | raw _ => True
  | varint bits bytes => VarintWellFormed bits bytes

instance (p : Piece) : Decidable p.WellFormed :=
  match p with
  | raw _ => inferInstanceAs (Decidable True)
  | varint bits bytes => inferInstanceAs (Decidable (VarintWellFormed bits bytes))

/-- The read that left `rest` consumed exactly this piece. -/
def StopsBefore (rest : List UInt8) : Piece → Prop
  | raw _ => True
  | varint bits bytes =>
      0 < bits ∧ (readVarint bits (bytes ++ rest)).rest = rest ∧
        readVarint bits bytes = { readVarint bits (bytes ++ rest) with rest := [] }

/-- A varint whose bytes are the writer's is well formed, and conversely; it is
enough that some continuations agree. -/
theorem canonical_eq_consumed_of_append {p : Piece} {rest tail : List UInt8}
    (hstop : p.StopsBefore rest) (heq : p.consumed ++ rest = p.canonical ++ tail) :
    p.WellFormed ∧ rest = tail := by
  cases p with
  | raw bytes => exact ⟨trivial, List.append_cancel_left heq⟩
  | varint bits bytes =>
      obtain ⟨hbits, hrest, halone⟩ := hstop
      simp only [consumed, canonical] at heq
      have hlt := readVarint_value_lt hbits bytes
      have hread := readVarint_writeVarint hbits hlt tail
      rw [← heq] at hread
      rw [hread] at hrest
      obtain rfl : tail = rest := hrest
      refine ⟨?_, rfl⟩
      have hbytes := List.append_cancel_right heq
      show VarintWellFormed bits bytes
      rw [hbytes]
      exact wellFormed_writeVarint hbits hlt

theorem canonical_of_wellFormed {p : Piece} {rest : List UInt8} (hstop : p.StopsBefore rest)
    (hwf : p.WellFormed) : p.canonical = p.consumed := by
  cases p with
  | raw bytes => rfl
  | varint bits bytes =>
      obtain ⟨hbits, -, halone⟩ := hstop
      apply writeVarint_value_of_wellFormed hbits _ hwf
      rw [halone]

end Piece

def consumedAll (pieces : List Piece) : List UInt8 := pieces.flatMap Piece.consumed

/-- The bytes the writer would have put for the same series. -/
def canonicalAll (pieces : List Piece) : List UInt8 := pieces.flatMap Piece.canonical

@[simp] theorem consumedAll_append (ps qs : List Piece) :
    consumedAll (ps ++ qs) = consumedAll ps ++ consumedAll qs := List.flatMap_append

@[simp] theorem canonicalAll_append (ps qs : List Piece) :
    canonicalAll (ps ++ qs) = canonicalAll ps ++ canonicalAll qs := List.flatMap_append

/-- Every piece of the series was consumed by a read of its own, and the last
one left `rest`. -/
def StopBefore (rest : List UInt8) : List Piece → Prop
  | [] => True
  | p :: ps => p.StopsBefore (consumedAll ps ++ rest) ∧ StopBefore rest ps

theorem stopBefore_append {rest : List UInt8} {ps qs : List Piece}
    (hps : StopBefore (consumedAll qs ++ rest) ps) (hqs : StopBefore rest qs) :
    StopBefore rest (ps ++ qs) := by
  induction ps with
  | nil => exact hqs
  | cons p ps ih =>
      obtain ⟨hp, hps⟩ := hps
      refine ⟨?_, ih hps⟩
      show p.StopsBefore (consumedAll (ps ++ qs) ++ rest)
      rw [consumedAll_append, List.append_assoc]
      exact hp

/-- Two byte strings cannot differ inside and agree as a whole: the reads of a
series consumed the writer's bytes exactly when each of them did. -/
theorem consumedAll_eq_canonicalAll {ps : List Piece} (hstop : StopBefore [] ps) :
    consumedAll ps = canonicalAll ps ↔ ∀ p ∈ ps, p.WellFormed := by
  induction ps with
  | nil => simp [consumedAll, canonicalAll]
  | cons p ps ih =>
      obtain ⟨hp, hps⟩ := hstop
      rw [List.append_nil] at hp
      have hcons : consumedAll (p :: ps) = p.consumed ++ consumedAll ps := rfl
      have hcan : canonicalAll (p :: ps) = p.canonical ++ canonicalAll ps := rfl
      rw [hcons, hcan, List.forall_mem_cons]
      constructor
      · intro heq
        obtain ⟨hwf, htail⟩ := Piece.canonical_eq_consumed_of_append hp heq
        exact ⟨hwf, (ih hps).mp htail⟩
      · rintro ⟨hwf, hall⟩
        rw [Piece.canonical_of_wellFormed hp hwf, (ih hps).mpr hall]

/-- A loading stream that is still good. A stream that is not has no value
here: every reader fails on it. -/
structure InStream where
  rest : List UInt8
  log : List Piece
  deriving DecidableEq, Repr

def InStream.ofBytes (bytes : List UInt8) : InStream := ⟨bytes, []⟩

/-- A loading step: it fails, or gives a value and the stream behind it. -/
def Reader (α : Type) : Type := InStream → Option (α × InStream)

namespace Reader

variable {α β : Type}

protected def pure (a : α) : Reader α := fun s => some (a, s)

protected def bind (r : Reader α) (k : α → Reader β) : Reader β := fun s =>
  match r s with
  | none => none
  | some (a, s') => k a s'

instance : Monad Reader where
  pure := Reader.pure
  bind := Reader.bind

def fail : Reader α := fun _ => none

/-- `return false` unless `p`. -/
def require (p : Prop) [Decidable p] : Reader Unit := fun s => if p then some ((), s) else none

def remainingBytes : Reader ℕ := fun s => some (s.rest.length, s)

def blob (n : ℕ) : Reader (List.Vector UInt8 n) := fun s =>
  if h : n ≤ s.rest.length then
    some (⟨s.rest.take n, by simpa using h⟩,
      ⟨s.rest.drop n, s.log ++ [.raw (s.rest.take n)]⟩)
  else none

/-- `serialize_uvarint` of a type with `bits` bits. The return code of
`read_varint` is not looked at. -/
def varint (bits : ℕ) : Reader ℕ := fun s =>
  let r := readVarint bits s.rest
  some (r.value,
    ⟨r.rest, s.log ++ [.varint bits (s.rest.take (s.rest.length - r.rest.length))]⟩)

def loadIf (c : Prop) [Decidable c] (r : Reader α) (absent : α) : Reader α :=
  if c then r else pure absent

def replicate (r : Reader α) : (n : ℕ) → Reader (List.Vector α n)
  | 0 => pure .nil
  | n + 1 => do
      let a ← r
      let as ← replicate r n
      pure (a ::ᵥ as)

def traverse (f : α → Reader β) : (as : List α) → Reader (List.Vector β as.length)
  | [] => pure .nil
  | a :: as => do
      let b ← f a
      let bs ← traverse f as
      pure (b ::ᵥ bs)

@[simp] theorem bind_eq_some {r : Reader α} {k : α → Reader β} {s : InStream}
    {p : β × InStream} :
    (r >>= k) s = some p ↔ ∃ a s', r s = some (a, s') ∧ k a s' = some p := by
  show Reader.bind r k s = some p ↔ _
  unfold Reader.bind
  rcases r s with _ | ⟨a, s'⟩ <;> simp

@[simp] theorem pure_eq_some {a b : α} {s s' : InStream} :
    (pure a : Reader α) s = some (b, s') ↔ a = b ∧ s = s' := by
  show some (a, s) = some (b, s') ↔ _
  simp

@[simp] theorem fail_eq_some {s : InStream} {p : α × InStream} :
    (fail : Reader α) s = some p ↔ False := by
  simp [fail]

@[simp] theorem require_eq_some {p : Prop} [Decidable p] {u : Unit} {s s' : InStream} :
    require p s = some (u, s') ↔ p ∧ s = s' := by
  unfold require
  split <;> simp_all

@[simp] theorem remainingBytes_eq_some {n : ℕ} {s s' : InStream} :
    remainingBytes s = some (n, s') ↔ s.rest.length = n ∧ s = s' := by
  simp [remainingBytes]

end Reader

/-! ### What a load consumed -/

/-- Between `s` and `s'` the stream consumed pieces for which the writer's
output is `out`. -/
def Span (s s' : InStream) (out : Out) : Prop :=
  ∃ pieces, s'.log = s.log ++ pieces ∧ s.rest = consumedAll pieces ++ s'.rest ∧
    StopBefore s'.rest pieces ∧ out = Out.emit (canonicalAll pieces)

/-- Whatever `r` reads, `save` writes it as the pieces consumed stand for. -/
def Accounts {α : Type} (r : Reader α) (save : α → Out) : Prop :=
  ∀ ⦃s s' a⦄, r s = some (a, s') → Span s s' (save a)

namespace Span

variable {s s' s'' : InStream} {out out' : Out}

theorem refl (s : InStream) : Span s s (Out.emit []) :=
  ⟨[], by simp, by simp [consumedAll], trivial, rfl⟩

theorem trans (h : Span s s' out) (h' : Span s' s'' out') : Span s s'' (out ++ out') := by
  obtain ⟨ps, hlog, hrest, hstop, rfl⟩ := h
  obtain ⟨qs, hlog', hrest', hstop', rfl⟩ := h'
  refine ⟨ps ++ qs, ?_, ?_, ?_, ?_⟩
  · rw [hlog', hlog, List.append_assoc]
  · rw [hrest, hrest', consumedAll_append, List.append_assoc]
  · rw [hrest'] at hstop
    exact stopBefore_append hstop hstop'
  · simp

theorem ok (h : Span s s' out) : out.ok = true := by
  obtain ⟨ps, -, -, -, rfl⟩ := h
  rfl

theorem blob {n : ℕ} {v : List.Vector UInt8 n} (h : Reader.blob n s = some (v, s')) :
    Span s s' (Out.emit v.val) := by
  unfold Reader.blob at h
  split at h
  · obtain ⟨rfl, rfl⟩ := Option.some.inj h
    refine ⟨[.raw (s.rest.take n)], rfl, ?_, ⟨trivial, trivial⟩, ?_⟩
    · simp [consumedAll, Piece.consumed]
    · simp [canonicalAll, Piece.canonical]
  · exact absurd h (by simp)

theorem varint {bits v : ℕ} (hbits : 0 < bits) (h : Reader.varint bits s = some (v, s')) :
    Span s s' (Out.emit (writeVarint v)) := by
  obtain ⟨piece, hsplit, halone⟩ := readVarint_split bits s.rest
  have htake : s.rest.take (s.rest.length - (readVarint bits s.rest).rest.length) = piece := by
    have hlen := congrArg List.length hsplit
    rw [List.length_append] at hlen
    rw [hlen, Nat.add_sub_cancel]
    nth_rewrite 1 [hsplit]
    exact List.take_left
  simp only [Reader.varint, htake, Option.some.injEq, Prod.mk.injEq] at h
  obtain ⟨rfl, rfl⟩ := h
  refine ⟨[.varint bits piece], rfl, ?_, ⟨⟨hbits, ?_, ?_⟩, trivial⟩, ?_⟩
  · simpa [consumedAll, Piece.consumed] using hsplit
  · simp only [consumedAll, List.flatMap_nil, List.nil_append]
    rw [← hsplit]
  · simp only [consumedAll, List.flatMap_nil, List.nil_append]
    rw [← hsplit]
    exact halone
  · simp [canonicalAll, Piece.canonical, halone]

theorem loadIf {c : Prop} [Decidable c] {α : Type} {r : Reader α} {save : α → Out}
    (hr : Accounts r save) {absent a : α} (h : Reader.loadIf c r absent s = some (a, s')) :
    Span s s' (Out.saveIf c (save a)) := by
  unfold Reader.loadIf at h
  unfold Out.saveIf
  by_cases hc : c
  · rw [if_pos hc] at h ⊢
    exact hr h
  · rw [if_neg hc] at h ⊢
    obtain ⟨-, rfl⟩ := Reader.pure_eq_some.mp h
    exact refl s

theorem replicate {α : Type} {r : Reader α} {save : α → Out} (hr : Accounts r save) {n : ℕ}
    {as : List.Vector α n} (h : r.replicate n s = some (as, s')) :
    Span s s' (Out.saveAll save as.val) := by
  induction n generalizing s s' with
  | zero =>
      obtain ⟨rfl, rfl⟩ := Reader.pure_eq_some.mp h
      exact refl s
  | succ n ih =>
      obtain ⟨a, s₁, ha, h⟩ := Reader.bind_eq_some.mp h
      obtain ⟨tail, s₂, htail, h⟩ := Reader.bind_eq_some.mp h
      obtain ⟨rfl, rfl⟩ := Reader.pure_eq_some.mp h
      exact (hr ha).trans (ih htail)

theorem traverse {α β : Type} {f : α → Reader β} {save : α → β → Out}
    (hf : ∀ a, Accounts (f a) (save a)) {as : List α} {bs : List.Vector β as.length}
    (h : Reader.traverse f as s = some (bs, s')) :
    Span s s' (Out.saveAll (fun p => save p.1 p.2) (as.zip bs.val)) := by
  induction as generalizing s s' with
  | nil =>
      obtain ⟨rfl, rfl⟩ := Reader.pure_eq_some.mp h
      exact refl s
  | cons a as ih =>
      obtain ⟨b, s₁, hb, h⟩ := Reader.bind_eq_some.mp h
      obtain ⟨tail, s₂, htail, h⟩ := Reader.bind_eq_some.mp h
      obtain ⟨rfl, rfl⟩ := Reader.pure_eq_some.mp h
      exact (hf a hb).trans (ih htail)

end Span

/-- A load of a whole input gives an object that is saved to the same bytes
exactly when every read of the load was well formed. -/
theorem span_bytes_eq_iff {input : List UInt8} {s' : InStream} {out : Out}
    (h : Span (.ofBytes input) s' out) (hend : s'.rest = []) :
    out.bytes = input ↔ ∀ p ∈ s'.log, p.WellFormed := by
  obtain ⟨ps, hlog, hrest, hstop, rfl⟩ := h
  rw [hend] at hrest hstop
  have hinput : input = consumedAll ps := by simpa [InStream.ofBytes] using hrest
  have hps : s'.log = ps := by simpa [InStream.ofBytes] using hlog
  rw [hinput, hps, Out.emit_bytes, eq_comm]
  exact consumedAll_eq_canonicalAll hstop

/-! ### What a load delivers -/

/-- In front of any continuation, `r` reads `bytes` and delivers `a`. -/
def Delivers {α : Type} (r : Reader α) (bytes : List UInt8) (a : α) : Prop :=
  ∀ s t, s.rest = bytes ++ t → ∃ s', r s = some (a, s') ∧ s'.rest = t

namespace Delivers

variable {α β : Type}

theorem pure (a : α) : Delivers (Pure.pure a : Reader α) [] a := by
  intro s t hs
  exact ⟨s, Reader.pure_eq_some.mpr ⟨rfl, rfl⟩, by simpa using hs⟩

theorem bind {r : Reader α} {k : α → Reader β} {as bs : List UInt8} {a : α} {b : β}
    (hr : Delivers r as a) (hk : Delivers (k a) bs b) : Delivers (r >>= k) (as ++ bs) b := by
  intro s t hs
  obtain ⟨s₁, hs₁, hrest₁⟩ := hr s (bs ++ t) (by rw [hs, List.append_assoc])
  obtain ⟨s₂, hs₂, hrest₂⟩ := hk s₁ t hrest₁
  exact ⟨s₂, Reader.bind_eq_some.mpr ⟨a, s₁, hs₁, hs₂⟩, hrest₂⟩

/-- A reader is a function of its input: what it delivers is self-delimiting. -/
theorem unique {r : Reader α} {as bs t u : List UInt8} {a b : α} (ha : Delivers r as a)
    (hb : Delivers r bs b) (heq : as ++ t = bs ++ u) : a = b ∧ t = u := by
  obtain ⟨s, hs, hrest⟩ := ha (.ofBytes (as ++ t)) t rfl
  obtain ⟨s', hs', hrest'⟩ := hb (.ofBytes (as ++ t)) u heq
  rw [hs, Option.some.injEq, Prod.mk.injEq] at hs'
  obtain ⟨rfl, rfl⟩ := hs'
  exact ⟨rfl, hrest.symm.trans hrest'⟩

/-- A reader followed by a conversion that gives back the value written. -/
theorem convert {r : Reader α} {f : α → β} {bytes : List UInt8} {a : α} {b : β}
    (hr : Delivers r bytes a) (hf : f a = b) :
    Delivers (r >>= fun a => Pure.pure (f a)) bytes b := by
  rw [← List.append_nil bytes, ← hf]
  exact hr.bind (k := fun a => Pure.pure (f a)) (pure (f a))

theorem require {p : Prop} [Decidable p] (hp : p) : Delivers (Reader.require p) [] () := by
  intro s t hs
  exact ⟨s, Reader.require_eq_some.mpr ⟨hp, rfl⟩, by simpa using hs⟩

theorem require_bind {p : Prop} [Decidable p] (hp : p) {k : Unit → Reader β}
    {bs : List UInt8} {b : β} (hk : Delivers (k ()) bs b) :
    Delivers (Reader.require p >>= k) bs b :=
  (require hp).bind hk

theorem blob {n : ℕ} (v : List.Vector UInt8 n) : Delivers (Reader.blob n) v.val v := by
  intro s t hs
  have hlen : v.val.length = n := v.2
  have hle : n ≤ s.rest.length := by simp [hs, hlen]
  have htake : s.rest.take n = v.val := by
    rw [hs]
    exact List.take_left' hlen
  refine ⟨⟨s.rest.drop n, s.log ++ [.raw (s.rest.take n)]⟩, ?_, ?_⟩
  · rw [Reader.blob, dif_pos hle]
    have hv : v = ⟨s.rest.take n, by simpa using hle⟩ := Subtype.ext htake.symm
    rw [hv]
  · rw [hs]
    exact List.drop_left' hlen

theorem varint {bits v : ℕ} (hbits : 0 < bits) (hv : v < 2 ^ bits) :
    Delivers (Reader.varint bits) (writeVarint v) v := by
  intro s t hs
  have hread := readVarint_writeVarint hbits hv t
  refine ⟨⟨t, s.log ++ [.varint bits (s.rest.take (s.rest.length - t.length))]⟩, ?_, rfl⟩
  unfold Reader.varint
  rw [hs, hread]

theorem replicate {r : Reader β} {save : α → Out} {norm : α → β} {l : List α}
    (hr : ∀ a ∈ l, (save a).ok = true → Delivers r (save a).bytes (norm a))
    (hok : (Out.saveAll save l).ok = true) {n : ℕ} (hn : (l.map norm).length = n) :
    Delivers (r.replicate n) (Out.saveAll save l).bytes ⟨l.map norm, hn⟩ := by
  induction l generalizing n with
  | nil =>
      subst hn
      exact pure _
  | cons a l ih =>
      subst hn
      rw [Out.saveAll_cons, Out.append_ok] at hok
      rw [Out.saveAll_cons, Out.append_bytes hok.1]
      refine (hr a (by simp) hok.1).bind ?_
      rw [← List.append_nil (Out.saveAll save l).bytes]
      exact (ih (fun b hb => hr b (by simp [hb])) hok.2 rfl).bind (pure _)

theorem traverse {f : α → Reader β} {save : α → β → Out}
    (hf : ∀ a b, (save a b).ok = true → Delivers (f a) (save a b).bytes b)
    {as : List α} {bs : List β}
    (hok : (Out.saveAll (fun p => save p.1 p.2) (as.zip bs)).ok = true)
    (hlen : bs.length = as.length) :
    Delivers (Reader.traverse f as) (Out.saveAll (fun p => save p.1 p.2) (as.zip bs)).bytes
      ⟨bs, hlen⟩ := by
  induction as generalizing bs with
  | nil =>
      obtain rfl : bs = [] := by simpa using hlen
      exact pure _
  | cons a as ih =>
      cases bs with
      | nil => exact absurd hlen (by simp)
      | cons b bs =>
          rw [List.zip_cons_cons, Out.saveAll_cons, Out.append_ok] at hok
          rw [List.zip_cons_cons, Out.saveAll_cons, Out.append_bytes hok.1]
          refine (hf a b hok.1).bind ?_
          rw [← List.append_nil (Out.saveAll _ _).bytes]
          exact (ih hok.2 (by simpa using hlen)).bind (pure _)

end Delivers

def ReadsBack {α : Type} (r : Reader α) (out : Out) (a : α) : Prop :=
  out.ok = true → Delivers r out.bytes a

/-- Whatever `save` accepts, `r` reads it back as `norm` of it. -/
def Inverts {α β : Type} (r : Reader β) (save : α → Out) (norm : α → β) : Prop :=
  ∀ a, ReadsBack r (save a) (norm a)

namespace ReadsBack

variable {α β : Type} {out out' : Out}

theorem pure (a : α) : ReadsBack (Pure.pure a : Reader α) (Out.emit []) a :=
  fun _ => Delivers.pure a

theorem bind {r : Reader α} {k : α → Reader β} {a : α} {b : β} (hr : ReadsBack r out a)
    (hk : ReadsBack (k a) out' b) : ReadsBack (r >>= k) (out ++ out') b := by
  intro hok
  rw [Out.append_ok] at hok
  rw [Out.append_bytes hok.1]
  exact (hr hok.1).bind (hk hok.2)

/-- A reader that ends with the value it was after. -/
theorem bind_pure {r : Reader α} {f : α → β} {a : α} {b : β} (hr : ReadsBack r out a)
    (hf : f a = b) : ReadsBack (r >>= fun a => Pure.pure (f a)) out b :=
  fun hok => (hr hok).convert hf

/-- A check made on both sides. -/
theorem require {p : Prop} [Decidable p] {k : Unit → Reader β} {b : β}
    (hk : p → ReadsBack (k ()) out b) :
    ReadsBack (Reader.require p >>= k) (Out.require p ++ out) b := by
  intro hok
  rw [Out.append_ok, Out.require_ok] at hok
  rw [Out.require_true hok.1, Out.emit_nil_append]
  exact Delivers.require_bind hok.1 (hk hok.1 hok.2)

/-- A check the reader makes and every written value passes. -/
theorem require_left {p : Prop} [Decidable p] {k : Unit → Reader β} {b : β}
    (hp : out.ok = true → p) (hk : ReadsBack (k ()) out b) :
    ReadsBack (Reader.require p >>= k) out b :=
  fun hok => Delivers.require_bind (hp hok) (hk hok)

theorem loadIf {c : Prop} [Decidable c] {r : Reader α} {absent a : α}
    (hr : ReadsBack r out a) :
    ReadsBack (Reader.loadIf c r absent) (Out.saveIf c out) (if c then a else absent) := by
  unfold Reader.loadIf Out.saveIf
  by_cases hc : c
  · simp only [if_pos hc]
    exact hr
  · simp only [if_neg hc]
    exact pure absent

end ReadsBack

end XrCoin.Archive

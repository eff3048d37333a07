import Mathlib

/-!
Tables with integer keys that grow at their end, and programs that write them.

`append` is a put with `MDB_APPEND` (or `MDB_APPENDDUP`): the key has to come
after every key in the table. What was appended last can be deleted again, and
nothing else has to be known of the table for that.
-/

namespace XrCoin.Lmdb

universe u

/-- Entries in the order of their keys. -/
@[ext]
structure Table (α : Type u) where
  entries : List (ℕ × α)
  sorted : entries.Pairwise fun a b => a.1 < b.1

namespace Table

variable {α : Type u}

instance [DecidableEq α] : DecidableEq (Table α) := fun s t =>
  decidable_of_iff (s.entries = t.entries) Table.ext_iff.symm

def empty : Table α := ⟨[], .nil⟩

instance : Inhabited (Table α) := ⟨empty⟩

def count (t : Table α) : ℕ := t.entries.length

def get (t : Table α) (key : ℕ) : Option α := t.entries.lookup key

def erase (t : Table α) (key : ℕ) : Table α :=
  ⟨t.entries.filter fun e => decide (e.1 ≠ key), t.sorted.filter _⟩

/-- Every key of the table is below `key`. -/
def Below (t : Table α) (key : ℕ) : Prop := ∀ e ∈ t.entries, e.1 < key

instance (t : Table α) (key : ℕ) : Decidable (t.Below key) :=
  inferInstanceAs (Decidable (∀ e ∈ t.entries, e.1 < key))

def push (t : Table α) (key : ℕ) (value : α) (h : t.Below key) : Table α :=
  ⟨t.entries ++ [(key, value)], by
    rw [List.pairwise_append]
    refine ⟨t.sorted, List.pairwise_singleton _ _, fun e he b hb => ?_⟩
    rw [List.mem_singleton.mp hb]
    exact h e he⟩

/-- The put fails with `MDB_KEYEXIST` when the key does not come last. -/
def append (t : Table α) (key : ℕ) (value : α) : Option (Table α) :=
  if h : t.Below key then some (t.push key value h) else none

theorem append_eq_some {t t' : Table α} {key : ℕ} {value : α} :
    t.append key value = some t' ↔
      t.Below key ∧ t'.entries = t.entries ++ [(key, value)] := by
  rw [append]
  by_cases h : t.Below key
  · rw [dif_pos h, Option.some.injEq]
    constructor
    · rintro rfl
      exact ⟨h, rfl⟩
    · rintro ⟨-, hentries⟩
      exact Table.ext hentries.symm
  · rw [dif_neg h]
    constructor
    · intro hnone
      exact absurd hnone (by simp)
    · rintro ⟨hbelow, -⟩
      exact absurd hbelow h

section Append

variable {t t' : Table α} {key : ℕ} {value : α} (happend : t.append key value = some t')

include happend

theorem entries_append : t'.entries = t.entries ++ [(key, value)] :=
  (append_eq_some.mp happend).2

theorem count_append : t'.count = t.count + 1 := by
  rw [count, entries_append happend, List.length_append, List.length_singleton, count]

theorem get_append : t'.get key = some value := by
  obtain ⟨hbelow, hentries⟩ := append_eq_some.mp happend
  have hnone : t.entries.lookup key = none := by
    rw [List.lookup_eq_none_iff]
    intro e he
    have hlt := hbelow e he
    exact bne_iff_ne.mpr (by omega)
  rw [get, hentries, List.lookup_append, hnone]
  simp

theorem get_append_of_ne {other : ℕ} (hne : other ≠ key) : t'.get other = t.get other := by
  have hnone : [(key, value)].lookup other = none := by
    rw [List.lookup_eq_none_iff]
    intro e he
    rw [List.mem_singleton.mp he]
    exact bne_iff_ne.mpr hne
  rw [get, entries_append happend, List.lookup_append, hnone, Option.or_none, get]

theorem erase_append : t'.erase key = t := by
  obtain ⟨hbelow, hentries⟩ := append_eq_some.mp happend
  have hkeep : t.entries.filter (fun e => decide (e.1 ≠ key)) = t.entries := by
    rw [List.filter_eq_self]
    intro e he
    have hlt := hbelow e he
    exact decide_eq_true (by omega)
  apply Table.ext
  change t'.entries.filter (fun e => decide (e.1 ≠ key)) = t.entries
  rw [hentries, List.filter_append, hkeep]
  simp

end Append

end Table

/-! ### Programs -/

section Programs

variable {ε σ α β : Type u}

/-- The state in which a program stops, normally or not. -/
def finalState : EStateM.Result ε σ α → σ
  | .ok _ s => s
  | .error _ s => s

@[simp] theorem finalState_ok (a : α) (s : σ) :
    finalState (.ok a s : EStateM.Result ε σ α) = s := rfl

@[simp] theorem finalState_error (e : ε) (s : σ) :
    finalState (.error e s : EStateM.Result ε σ α) = s := rfl

def returned : EStateM.Result ε σ α → Option α
  | .ok a _ => some a
  | .error _ _ => none

def thrown : EStateM.Result ε σ α → Option ε
  | .ok _ _ => none
  | .error e _ => some e

theorem eq_ok_of_returned {r : EStateM.Result ε σ α} {a : α} (h : returned r = some a) :
    r = .ok a (finalState r) := by
  cases r with
  | ok b s =>
      obtain rfl := Option.some.inj h
      rfl
  | error e s => exact absurd h (by simp [returned])

theorem eq_error_of_thrown {r : EStateM.Result ε σ α} {e : ε} (h : thrown r = some e) :
    r = .error e (finalState r) := by
  cases r with
  | ok a s => exact absurd h (by simp [thrown])
  | error e' s =>
      obtain rfl := Option.some.inj h
      rfl

theorem bind_eq_ok {x : EStateM ε σ α} {f : α → EStateM ε σ β} {s t : σ} {b : β} :
    (x >>= f) s = .ok b t ↔ ∃ a u, x s = .ok a u ∧ f a u = .ok b t := by
  change EStateM.bind x f s = .ok b t ↔ _
  rw [EStateM.bind]
  rcases x s with ⟨a, u⟩ | ⟨e, u⟩
  · constructor
    · intro h
      exact ⟨a, u, rfl, h⟩
    · rintro ⟨a', u', heq, h⟩
      obtain ⟨rfl, rfl⟩ := EStateM.Result.ok.inj heq
      exact h
  · constructor
    · intro h
      exact absurd h (by simp)
    · rintro ⟨a', u', heq, -⟩
      exact absurd heq (by simp)

theorem bind_of_ok {x : EStateM ε σ α} {f : α → EStateM ε σ β} {s t : σ} {a : α}
    (h : x s = .ok a t) : (x >>= f) s = f a t := by
  change EStateM.bind x f s = f a t
  rw [EStateM.bind, h]

theorem bind_of_error {x : EStateM ε σ α} {f : α → EStateM ε σ β} {s t : σ} {e : ε}
    (h : x s = .error e t) : (x >>= f) s = .error e t := by
  change EStateM.bind x f s = .error e t
  rw [EStateM.bind, h]

theorem get_bind (f : σ → EStateM ε σ β) (s : σ) : (get >>= f) s = f s s := rfl

theorem throw_ne_ok {e : ε} {s t : σ} {a : α} :
    ¬(MonadExcept.throw e : EStateM ε σ α) s = .ok a t := by
  intro h
  exact absurd h (by simp [MonadExcept.throw, throwThe, MonadExceptOf.throw, EStateM.throw])

/-- A program moves the state along `R` whether it returns or throws. -/
def Moves (R : σ → σ → Prop) (x : EStateM ε σ α) : Prop := ∀ s, R s (finalState (x s))

variable {R : σ → σ → Prop}

theorem Moves.pure (hrefl : ∀ s, R s s) (a : α) :
    Moves R (Pure.pure a : EStateM ε σ α) := fun s => hrefl s

theorem Moves.throw (hrefl : ∀ s, R s s) (e : ε) :
    Moves R (MonadExcept.throw e : EStateM ε σ α) := fun s => hrefl s

theorem Moves.bind (htrans : ∀ s t u, R s t → R t u → R s u) {x : EStateM ε σ α}
    {f : α → EStateM ε σ β} (hx : Moves R x) (hf : ∀ a, Moves R (f a)) : Moves R (x >>= f) := by
  intro s
  have hstep := hx s
  cases hrun : x s with
  | ok a u =>
      rw [hrun] at hstep
      rw [bind_of_ok hrun]
      exact htrans s u _ hstep (hf a u)
  | error e u =>
      rw [hrun] at hstep
      rw [bind_of_error hrun]
      exact hstep

theorem Moves.after (hrefl : ∀ s, R s s) {x : EStateM ε σ α} {f : α → EStateM ε σ β}
    (hf : ∀ a, Moves R (f a)) (s : σ) : R (finalState (x s)) (finalState ((x >>= f) s)) := by
  cases hrun : x s with
  | ok a t =>
      rw [bind_of_ok hrun]
      exact hf a t
  | error e t =>
      rw [bind_of_error hrun]
      exact hrefl t

end Programs

end XrCoin.Lmdb

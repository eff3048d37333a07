import Mathlib
import XrCoin.Data.Throwing

/-!
Computations that read and write containers by index. They stop where they throw, where an
exception does not leave the job it is thrown in, and where an index is outside of its container.

A computation stays inside if the first of the three is the only one it may stop by.
-/

namespace XrCoin.Data

inductive Stop
  | thrown (message : String)
  | escaped (message : String)
  | outOfRange
  deriving DecidableEq

/-- A computation on a state, with what it returns or is stopped by and the state it leaves. -/
def Accessing (σ α : Type) : Type := σ → Except Stop α × σ

namespace Accessing

variable {σ α β : Type}

protected def pure (a : α) : Accessing σ α := fun s => (.ok a, s)

protected def bind (x : Accessing σ α) (f : α → Accessing σ β) : Accessing σ β := fun s =>
  match x s with
  | (.ok a, s') => f a s'
  | (.error e, s') => (.error e, s')

instance : Monad (Accessing σ) where
  pure := Accessing.pure
  bind := Accessing.bind

def get : Accessing σ σ := fun s => (.ok s, s)

def modify (f : σ → σ) : Accessing σ Unit := fun s => (.ok (), f s)

def lift (x : Except Stop α) : Accessing σ α := fun s => (x, s)

def throwIf (c : Prop) [Decidable c] (message : String) : Accessing σ Unit :=
  lift (if c then .error (.thrown message) else .ok ())

def when (c : Prop) [Decidable c] (x : Accessing σ Unit) : Accessing σ Unit :=
  if c then x else pure ()

def ofThrowing (x : Throwing σ α) : Accessing σ α := fun s =>
  match x s with
  | (.ok a, s') => (.ok a, s')
  | (.error message, s') => (.error (.thrown message), s')

def read (l : List α) (i : ℕ) : Accessing σ α :=
  lift (match l[i]? with
    | some a => .ok a
    | none => .error .outOfRange)

def write (i : ℕ) (a : α) : Accessing (List α) Unit := fun l =>
  if i < l.length then (.ok (), l.set i a) else (.error .outOfRange, l)

def locally {τ : Type} (x : Accessing τ Unit) (t : τ) : Accessing σ τ := fun s =>
  match x t with
  | (.ok _, t') => (.ok t', s)
  | (.error e, _) => (.error e, s)

def loop (f : α → Accessing σ Unit) : List α → Accessing σ Unit
  | [] => pure ()
  | a :: as => do
      f a
      loop f as

/-! ### What it does -/

theorem bind_of_ok {x : Accessing σ α} {f : α → Accessing σ β} {s s₁ : σ} {a : α}
    (h : x s = (.ok a, s₁)) : (x >>= f) s = f a s₁ := by
  show Accessing.bind x f s = _
  rw [Accessing.bind, h]

theorem bind_of_error {x : Accessing σ α} {f : α → Accessing σ β} {s s₁ : σ} {e : Stop}
    (h : x s = (.error e, s₁)) : (x >>= f) s = (.error e, s₁) := by
  show Accessing.bind x f s = _
  rw [Accessing.bind, h]

theorem exists_of_bind_eq_ok {x : Accessing σ α} {f : α → Accessing σ β} {s s' : σ} {b : β}
    (h : (x >>= f) s = (.ok b, s')) : ∃ a s₁, x s = (.ok a, s₁) ∧ f a s₁ = (.ok b, s') := by
  rcases hx : x s with ⟨e | a, s₁⟩
  · rw [bind_of_error hx] at h
    cases h
  · rw [bind_of_ok hx] at h
    exact ⟨a, s₁, rfl, h⟩

theorem modify_bind (g : σ → σ) (f : Unit → Accessing σ α) (s : σ) :
    (modify g >>= f) s = f () (g s) := rfl

theorem get_bind (f : σ → Accessing σ α) (s : σ) : (get >>= f) s = f s s := rfl

theorem throwIf_bind_of_not {c : Prop} [Decidable c] {message : String} {f : Unit → Accessing σ α}
    {s : σ} (h : ¬c) : (throwIf c message >>= f) s = f () s := by
  apply bind_of_ok
  rw [throwIf, if_neg h]
  rfl

theorem throwIf_bind_of {c : Prop} [Decidable c] {message : String} {f : Unit → Accessing σ α}
    {s : σ} (h : c) : (throwIf c message >>= f) s = (.error (.thrown message), s) := by
  apply bind_of_error
  rw [throwIf, if_pos h]
  rfl

theorem read_bind_of_some {l : List α} {i : ℕ} {a : α} {f : α → Accessing σ β} {s : σ}
    (h : l[i]? = some a) : (read l i >>= f) s = f a s := by
  apply bind_of_ok
  rw [read, h]
  rfl

theorem read_bind_of_none {l : List α} {i : ℕ} {f : α → Accessing σ β} {s : σ}
    (h : l[i]? = none) : (read l i >>= f) s = (.error .outOfRange, s) := by
  apply bind_of_error
  rw [read, h]
  rfl

theorem write_of_lt {i : ℕ} {a : α} {l : List α} (h : i < l.length) :
    write i a l = (.ok (), l.set i a) := if_pos h

theorem locally_of_ok {τ : Type} {x : Accessing τ Unit} {t t' : τ} {u : Unit}
    (h : x t = (.ok u, t')) (s : σ) : locally x t s = (.ok t', s) := by
  rw [locally, h]

theorem locally_of_error {τ : Type} {x : Accessing τ Unit} {t t' : τ} {e : Stop}
    (h : x t = (.error e, t')) (s : σ) : locally x t s = (.error e, s) := by
  rw [locally, h]

theorem exists_of_locally_eq_ok {τ : Type} {x : Accessing τ Unit} {t t' : τ} {s s' : σ}
    (h : locally x t s = (.ok t', s')) : ∃ u, x t = (.ok u, t') := by
  rcases hx : x t with ⟨e | u, t₁⟩
  · rw [locally_of_error hx] at h
    cases h
  · rw [locally_of_ok hx] at h
    cases h
    exact ⟨u, rfl⟩

/-! ### Staying inside -/

def Inside (x : Accessing σ α) (s : σ) : Prop :=
  ∀ e, (x s).1 = .error e → ∃ message, e = .thrown message

theorem inside_of_ok {x : Accessing σ α} {s s' : σ} {a : α} (h : x s = (.ok a, s')) :
    Inside x s := by
  intro e he
  rw [h] at he
  cases he

theorem inside_of_thrown {x : Accessing σ α} {s s' : σ} {message : String}
    (h : x s = (.error (.thrown message), s')) : Inside x s := by
  intro e he
  rw [h] at he
  exact ⟨message, (Except.error.inj he).symm⟩

theorem not_inside_of_error {x : Accessing σ α} {s s' : σ} {e : Stop} (h : x s = (.error e, s'))
    (he : ∀ message, e ≠ .thrown message) : ¬Inside x s := by
  intro hinside
  obtain ⟨message, hmessage⟩ := hinside e (by rw [h])
  exact he message hmessage

theorem inside_congr {x : Accessing σ α} {y : Accessing σ β} {s s' : σ} {e : Stop}
    (hx : x s = (.error e, s')) (hy : y s = (.error e, s')) : Inside x s ↔ Inside y s := by
  rw [Inside, Inside, hx, hy]
  exact ⟨fun h e he => h e (congrArg _ (Except.error.inj he)),
    fun h e he => h e (congrArg _ (Except.error.inj he))⟩

theorem inside_bind_iff {x : Accessing σ α} {f : α → Accessing σ β} {s : σ} :
    Inside (x >>= f) s ↔ Inside x s ∧ ∀ a s', x s = (.ok a, s') → Inside (f a) s' := by
  rcases hx : x s with ⟨e | a, s₁⟩
  · rw [inside_congr (bind_of_error hx) hx]
    exact ⟨fun h => ⟨h, fun a s' hok => by cases hok⟩, fun h => h.1⟩
  · rw [Inside, bind_of_ok hx]
    constructor
    · rintro h
      refine ⟨inside_of_ok hx, ?_⟩
      rintro a' s' hok
      cases hok
      exact h
    · rintro ⟨-, h⟩
      exact h a s₁ rfl

theorem Inside.bind {x : Accessing σ α} {f : α → Accessing σ β} {s : σ} (hx : Inside x s)
    (hf : ∀ a s', Inside (f a) s') : Inside (x >>= f) s :=
  inside_bind_iff.mpr ⟨hx, fun a s' _ => hf a s'⟩

theorem inside_pure (a : α) (s : σ) : Inside (pure a : Accessing σ α) s := inside_of_ok rfl

theorem inside_modify (f : σ → σ) (s : σ) : Inside (modify f) s := inside_of_ok rfl

theorem inside_throwIf_bind {c : Prop} [Decidable c] {message : String} {f : Unit → Accessing σ α}
    {s : σ} : Inside (throwIf c message >>= f) s ↔ (¬c → Inside (f ()) s) := by
  by_cases hc : c
  · exact iff_of_true (inside_of_thrown (throwIf_bind_of hc)) fun hnot => absurd hc hnot
  · rw [Inside, throwIf_bind_of_not hc]
    exact ⟨fun h _ => h, fun h => h hc⟩

theorem inside_read_bind {l : List α} {i : ℕ} {a : α} {f : α → Accessing σ β} {s : σ}
    (h : l[i]? = some a) : Inside (read l i >>= f) s ↔ Inside (f a) s := by
  rw [Inside, Inside, read_bind_of_some h]

theorem inside_ofThrowing (x : Throwing σ α) (s : σ) : Inside (ofThrowing x) s := by
  rcases hx : x s with ⟨message | a, s'⟩
  · have hthrown : ofThrowing x s = (.error (.thrown message), s') := by rw [ofThrowing, hx]
    exact inside_of_thrown hthrown
  · apply inside_of_ok
    rw [ofThrowing, hx]

theorem inside_locally {τ : Type} {x : Accessing τ Unit} {t : τ} {s : σ} :
    Inside (locally x t) s ↔ Inside x t := by
  rcases hx : x t with ⟨e | ⟨⟩, t'⟩
  · rw [Inside, Inside, locally_of_error hx, hx]
    exact ⟨fun h e he => h e (congrArg _ (Except.error.inj he)),
      fun h e he => h e (congrArg _ (Except.error.inj he))⟩
  · exact iff_of_true (inside_of_ok (locally_of_ok hx s)) (inside_of_ok hx)

theorem inside_when {c : Prop} [Decidable c] {x : Accessing σ Unit} {s : σ}
    (hx : c → Inside x s) : Inside (when c x) s := by
  rw [when]
  split_ifs with hc
  · exact hx hc
  · exact inside_pure () s

theorem inside_loop {f : α → Accessing σ Unit} {as : List α}
    (hf : ∀ a ∈ as, ∀ s, Inside (f a) s) (s : σ) : Inside (loop f as) s := by
  induction as generalizing s with
  | nil => exact inside_pure () s
  | cons a as ih =>
      rw [List.forall_mem_cons] at hf
      exact (hf.1 s).bind fun _ s' => ih hf.2 s'

/-! ### Conditions that decide whether it does -/

/-- From each state with the invariant it returns to one if the condition holds, and goes outside
if it does not. -/
structure Decides (I : σ → Prop) (p : Prop) (x : Accessing σ Unit) : Prop where
  returns : p → ∀ s, I s → ∃ s', x s = (.ok (), s') ∧ I s'
  leaves : ¬p → ∀ s, I s → ¬Inside x s

section Decides

variable {I : σ → Prop} {p q : Prop} {x y : Accessing σ Unit}

theorem Decides.inside_iff (h : Decides I p x) {s : σ} (hs : I s) : Inside x s ↔ p := by
  constructor
  · intro hinside
    by_contra hp
    exact h.leaves hp s hs hinside
  · intro hp
    obtain ⟨s', hok, -⟩ := h.returns hp s hs
    exact inside_of_ok hok

theorem Decides.of_iff (h : Decides I p x) (hpq : p ↔ q) : Decides I q x :=
  propext hpq ▸ h

theorem decides_pure : Decides I True (pure ()) :=
  ⟨fun _ s hs => ⟨s, rfl, hs⟩, fun h => absurd trivial h⟩

theorem Decides.bind (hx : Decides I p x) (hy : Decides I q y) :
    Decides I (p ∧ q) (x >>= fun _ => y) where
  returns := by
    rintro ⟨hp, hq⟩ s hs
    obtain ⟨s₁, hok₁, hs₁⟩ := hx.returns hp s hs
    obtain ⟨s₂, hok₂, hs₂⟩ := hy.returns hq s₁ hs₁
    exact ⟨s₂, (bind_of_ok hok₁).trans hok₂, hs₂⟩
  leaves := by
    intro hnot s hs hinside
    obtain ⟨hfirst, hrest⟩ := inside_bind_iff.mp hinside
    have hp : p := (hx.inside_iff hs).mp hfirst
    obtain ⟨s₁, hok₁, hs₁⟩ := hx.returns hp s hs
    exact hy.leaves (fun hq => hnot ⟨hp, hq⟩) s₁ hs₁ (hrest () s₁ hok₁)

theorem Decides.when {c : Prop} [Decidable c] (hx : c → Decides I p x) :
    Decides I (c → p) (when c x) := by
  rw [Accessing.when]
  split_ifs with hc
  · exact (hx hc).of_iff ⟨fun hp _ => hp, fun h => h hc⟩
  · exact decides_pure.of_iff ⟨fun _ h => absurd h hc, fun _ => trivial⟩

theorem Decides.guarded {c : σ → Prop} [DecidablePred c] {message : String}
    (hc : ∀ s, I s → ¬c s) (hx : Decides I p x) :
    Decides I p (get >>= fun s => throwIf (c s) message >>= fun _ => x) where
  returns := by
    intro hp s hs
    rw [get_bind, throwIf_bind_of_not (hc s hs)]
    exact hx.returns hp s hs
  leaves := by
    intro hp s hs
    rw [Inside, get_bind, throwIf_bind_of_not (hc s hs)]
    exact hx.leaves hp s hs

theorem decides_checked {c : σ → Prop} [DecidablePred c] {message : String}
    (hc : ∀ s, I s → ¬c s) : Decides I True (get >>= fun s => throwIf (c s) message) where
  returns := by
    intro _ s hs
    refine ⟨s, ?_, hs⟩
    rw [get_bind, throwIf, if_neg (hc s hs)]
    rfl
  leaves := fun h => absurd trivial h

theorem Decides.loop {f : α → Accessing σ Unit} {P : α → Prop} {as : List α}
    (hf : ∀ a ∈ as, Decides I (P a) (f a)) : Decides I (∀ a ∈ as, P a) (loop f as) := by
  induction as with
  | nil => exact decides_pure.of_iff (iff_of_true trivial (List.forall_mem_nil P))
  | cons a as ih =>
      rw [List.forall_mem_cons] at hf
      exact (hf.1.bind (ih hf.2)).of_iff List.forall_mem_cons.symm

end Decides

end Accessing

end XrCoin.Data

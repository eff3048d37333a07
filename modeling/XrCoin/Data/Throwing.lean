import Mathlib

/-!
Computations on a state that may throw. What was changed before a throw stays changed.

An invariant that every part keeps is kept by the whole, whether it returns or throws.
-/

namespace XrCoin.Data

/-! ### Without a state -/

def throwIf (c : Prop) [Decidable c] (message : String) : Except String Unit :=
  if c then .error message else .ok ()

def orThrow {α : Type} (a : Option α) (message : String) : Except String α :=
  match a with
  | some a => .ok a
  | none => .error message

theorem bind_eq_ok {α β : Type} {x : Except String α} {f : α → Except String β} {b : β} :
    (x >>= f) = .ok b ↔ ∃ a, x = .ok a ∧ f a = .ok b := by
  cases x with
  | error e => simp [bind, Except.bind]
  | ok a => simp [bind, Except.bind]

theorem throwIf_eq_ok {c : Prop} [Decidable c] {message : String} {u : Unit} :
    throwIf c message = .ok u ↔ ¬ c := by
  rw [throwIf]
  split_ifs with hc <;> simp [hc]

theorem orThrow_eq_ok {α : Type} {o : Option α} {message : String} {a : α} :
    orThrow o message = .ok a ↔ o = some a := by
  cases o <;> simp [orThrow]

/-- A loop that returns has a result for each element. -/
theorem mapM_eq_ok {α β : Type} {f : α → Except String β} {as : List α} {bs : List β} :
    as.mapM f = .ok bs ↔ List.Forall₂ (fun a b => f a = .ok b) as bs := by
  induction as generalizing bs with
  | nil =>
      rw [List.mapM_nil, List.forall₂_nil_left_iff]
      exact ⟨fun h => (Except.ok.inj h).symm, fun h => h ▸ rfl⟩
  | cons a as ih =>
      rw [List.mapM_cons, bind_eq_ok, List.forall₂_cons_left_iff]
      simp only [bind_eq_ok, ih]
      constructor
      · rintro ⟨b, hb, bs', hbs, h⟩
        exact ⟨b, bs', hb, hbs, (Except.ok.inj h).symm⟩
      · rintro ⟨b, bs', hb, hbs, rfl⟩
        exact ⟨b, hb, bs', hbs, rfl⟩

/-- A loop returns if none of its elements throws. -/
theorem exists_mapM_eq_ok {α β : Type} {f : α → Except String β} {as : List α} :
    (∃ bs, as.mapM f = .ok bs) ↔ ∀ a ∈ as, ∃ b, f a = .ok b := by
  simp only [mapM_eq_ok]
  induction as with
  | nil => simp
  | cons a as ih =>
      rw [List.forall_mem_cons, ← ih]
      simp only [List.forall₂_cons_left_iff]
      constructor
      · rintro ⟨_, b, bs, hb, hbs, rfl⟩
        exact ⟨⟨b, hb⟩, bs, hbs⟩
      · rintro ⟨⟨b, hb⟩, bs, hbs⟩
        exact ⟨b :: bs, b, bs, hb, hbs, rfl⟩

def Throws {α : Type} (allowed : String → Prop) (x : Except String α) : Prop :=
  ∀ e, x = .error e → allowed e

theorem throws_ok {α : Type} {allowed : String → Prop} {a : α} : Throws allowed (.ok a) := by
  intro e h
  cases h

theorem throws_error {α : Type} {allowed : String → Prop} {e : String} (h : allowed e) :
    Throws allowed (.error e : Except String α) := by
  intro e' heq
  cases heq
  exact h

theorem Throws.bind {α β : Type} {allowed : String → Prop} {x : Except String α}
    {f : α → Except String β} (hx : Throws allowed x) (hf : ∀ a, Throws allowed (f a)) :
    Throws allowed (x >>= f) := by
  cases x with
  | error e => exact throws_error (hx e rfl)
  | ok a => exact hf a

theorem throws_throwIf {c : Prop} [Decidable c] {allowed : String → Prop} {message : String}
    (h : allowed message) : Throws allowed (throwIf c message) := by
  rw [throwIf]
  split_ifs
  · exact throws_error h
  · exact throws_ok

theorem throws_orThrow {α : Type} {allowed : String → Prop} {o : Option α} {message : String}
    (h : allowed message) : Throws allowed (orThrow o message) := by
  cases o with
  | none => exact throws_error h
  | some a => exact throws_ok

/-! ### With a state -/

/-- A computation on a state, with what it returns or throws and the state it leaves. -/
def Throwing (σ α : Type) : Type := σ → Except String α × σ

namespace Throwing

variable {σ α β : Type}

protected def pure (a : α) : Throwing σ α := fun s => (.ok a, s)

protected def bind (x : Throwing σ α) (f : α → Throwing σ β) : Throwing σ β := fun s =>
  match x s with
  | (.ok a, s') => f a s'
  | (.error e, s') => (.error e, s')

instance : Monad (Throwing σ) where
  pure := Throwing.pure
  bind := Throwing.bind

def get : Throwing σ σ := fun s => (.ok s, s)

def modify (f : σ → σ) : Throwing σ Unit := fun s => (.ok (), f s)

def lift (x : Except String α) : Throwing σ α := fun s => (x, s)

def throwIf (c : Prop) [Decidable c] (message : String) : Throwing σ Unit :=
  lift (Data.throwIf c message)

def when (c : Prop) [Decidable c] (x : Throwing σ Unit) : Throwing σ Unit :=
  if c then x else pure ()

def loop (f : β → α → Throwing σ β) : List α → β → Throwing σ β
  | [], b => pure b
  | a :: as, b => do
      let b ← f b a
      loop f as b

/-! ### What it does -/

theorem bind_eq_ok {x : Throwing σ α} {f : α → Throwing σ β} {s s' : σ} {b : β} :
    (x >>= f) s = (.ok b, s') ↔ ∃ a s₁, x s = (.ok a, s₁) ∧ f a s₁ = (.ok b, s') := by
  show Throwing.bind x f s = _ ↔ _
  rw [Throwing.bind]
  rcases hx : x s with ⟨e | a, s₁⟩
  · simp
  · constructor
    · intro h
      exact ⟨a, s₁, rfl, h⟩
    · rintro ⟨_, _, hok, h⟩
      cases hok
      exact h

theorem bind_of_ok {x : Throwing σ α} {f : α → Throwing σ β} {s s₁ : σ} {a : α}
    (h : x s = (.ok a, s₁)) : (x >>= f) s = f a s₁ := by
  show Throwing.bind x f s = _
  rw [Throwing.bind, h]

theorem bind_of_error {x : Throwing σ α} {f : α → Throwing σ β} {s s₁ : σ} {e : String}
    (h : x s = (.error e, s₁)) : (x >>= f) s = (.error e, s₁) := by
  show Throwing.bind x f s = _
  rw [Throwing.bind, h]

theorem bind_congr_left {x y : Throwing σ α} {f : α → Throwing σ β} {s s' : σ}
    (h : x s = y s') : (x >>= f) s = (y >>= f) s' := by
  show Throwing.bind x f s = Throwing.bind y f s'
  rw [Throwing.bind, Throwing.bind, h]

@[simp] theorem pure_apply (a : α) (s : σ) : (pure a : Throwing σ α) s = (.ok a, s) := rfl

@[simp] theorem get_bind (f : σ → Throwing σ α) (s : σ) : (get >>= f) s = f s s := rfl

@[simp] theorem modify_bind (g : σ → σ) (f : Unit → Throwing σ α) (s : σ) :
    (modify g >>= f) s = f () (g s) := rfl

@[simp] theorem lift_ok_bind (a : α) (f : α → Throwing σ β) (s : σ) :
    (lift (.ok a) >>= f) s = f a s := rfl

@[simp] theorem lift_error_bind (e : String) (f : α → Throwing σ β) (s : σ) :
    (lift (.error e) >>= f) s = (.error e, s) := rfl

theorem bind_modify_eq_error {x : Throwing σ α} {g : σ → σ} {s s' : σ} {e : String} :
    (x >>= fun _ => modify g) s = (.error e, s') ↔ x s = (.error e, s') := by
  rcases hx : x s with ⟨e' | a, s₁⟩
  · rw [bind_of_error hx]
    simp
  · rw [bind_of_ok hx, modify]
    simp

theorem throwIf_bind (c : Prop) [Decidable c] (message : String) (f : Unit → Throwing σ β) (s : σ) :
    (throwIf c message >>= f) s = if c then (.error message, s) else f () s := by
  rw [throwIf, Data.throwIf]
  split_ifs <;> rfl

theorem when_apply (c : Prop) [Decidable c] (x : Throwing σ Unit) (s : σ) :
    when c x s = if c then x s else (.ok (), s) := by
  rw [when]
  split_ifs <;> rfl

theorem throwIf_eq_ok {c : Prop} [Decidable c] {message : String} {s s' : σ} {u : Unit} :
    throwIf c message s = (.ok u, s') ↔ ¬ c ∧ s = s' := by
  rw [throwIf, lift, Prod.mk.injEq, Data.throwIf_eq_ok]

theorem loop_congr {f g : β → α → Throwing σ β} {as : List α} (h : ∀ a ∈ as, ∀ b, f b a = g b a)
    (b : β) : loop f as b = loop g as b := by
  induction as generalizing b with
  | nil => rfl
  | cons a as ih =>
      rw [List.forall_mem_cons] at h
      rw [loop, loop, h.1, funext fun b' => ih h.2 b']

/-! ### Invariants -/

/-- Whatever a computation does from a state with the property, it leaves one. -/
def Keeps (P : σ → Prop) (x : Throwing σ α) : Prop := ∀ s, P s → P (x s).2

section Keeps

variable {P : σ → Prop}

theorem keeps_pure (a : α) : Keeps P (pure a) := fun _ h => h

theorem keeps_modify {f : σ → σ} (hf : ∀ s, P s → P (f s)) : Keeps P (modify f) := hf

theorem Keeps.when {c : Prop} [Decidable c] {x : Throwing σ Unit} (hx : c → Keeps P x) :
    Keeps P (when c x) := by
  rw [Throwing.when]
  split_ifs with hc
  · exact hx hc
  · exact keeps_pure ()

theorem keeps_throwIf (c : Prop) [Decidable c] (message : String) :
    Keeps P (throwIf c message) := fun _ h => h

theorem Keeps.bind {x : Throwing σ α} {f : α → Throwing σ β} (hx : Keeps P x)
    (hf : ∀ a, Keeps P (f a)) : Keeps P (x >>= f) := by
  intro s hs
  have hafter := hx s hs
  rcases hresult : x s with ⟨e | a, s₁⟩
  · rw [bind_of_error hresult]
    rwa [hresult] at hafter
  · rw [bind_of_ok hresult]
    rw [hresult] at hafter
    exact hf a s₁ hafter

/-- A computation that begins with a look at the state. -/
theorem keeps_get_bind {f : σ → Throwing σ α} (hf : ∀ s, P s → P (f s s).2) :
    Keeps P (get >>= f) := fun s hs => hf s hs

theorem Keeps.loop {f : β → α → Throwing σ β} {as : List α} (hf : ∀ b, ∀ a ∈ as, Keeps P (f b a))
    (b : β) : Keeps P (loop f as b) := by
  induction as generalizing b with
  | nil => exact keeps_pure b
  | cons a as ih =>
      apply (hf b a List.mem_cons_self).bind
      intro b'
      exact ih (fun b a ha => hf b a (List.mem_cons_of_mem _ ha)) b'

end Keeps

/-! ### What is returned and what is thrown -/

/-- From a state a computation returns with `Q`, or throws a message that is allowed. -/
def Yields (allowed : String → Prop) (Q : α → σ → Prop) (x : Throwing σ α) (s : σ) : Prop :=
  match x s with
  | (.ok a, s') => Q a s'
  | (.error e, _) => allowed e

section Yields

variable {allowed : String → Prop} {Q : α → σ → Prop} {s : σ}

theorem yields_pure {a : α} (h : Q a s) : Yields allowed Q (pure a) s := h

theorem yields_modify {f : σ → σ} {Q : Unit → σ → Prop} (h : Q () (f s)) :
    Yields allowed Q (modify f) s := h

theorem yields_lift {x : Except String α} (hok : ∀ a, x = .ok a → Q a s)
    (herror : ∀ e, x = .error e → allowed e) : Yields allowed Q (lift x) s := by
  cases x with
  | ok a => exact hok a rfl
  | error e => exact herror e rfl

theorem yields_throwIf {c : Prop} [Decidable c] {message : String} {Q : Unit → σ → Prop}
    (hthrow : c → allowed message) (hpass : ¬c → Q () s) :
    Yields allowed Q (throwIf c message) s := by
  rw [throwIf, Data.throwIf]
  by_cases hc : c
  · rw [if_pos hc]
    exact hthrow hc
  · rw [if_neg hc]
    exact hpass hc

theorem Yields.mono {R : α → σ → Prop} {x : Throwing σ α} (h : Yields allowed Q x s)
    (hR : ∀ a s', Q a s' → R a s') : Yields allowed R x s := by
  rw [Yields] at h ⊢
  rcases hx : x s with ⟨e | a, s'⟩
  · rw [hx] at h
    exact h
  · rw [hx] at h
    exact hR a s' h

theorem Yields.bind {R : β → σ → Prop} {x : Throwing σ α} {f : α → Throwing σ β}
    (hx : Yields allowed Q x s) (hf : ∀ a s', Q a s' → Yields allowed R (f a) s') :
    Yields allowed R (x >>= f) s := by
  rw [Yields] at hx
  rcases hresult : x s with ⟨e | a, s'⟩
  · rw [Yields, bind_of_error hresult]
    rw [hresult] at hx
    exact hx
  · rw [Yields, bind_of_ok hresult]
    rw [hresult] at hx
    exact hf a s' hx

theorem yields_when {c : Prop} [Decidable c] {Q : Unit → σ → Prop} {x : Throwing σ Unit}
    (hx : c → Yields allowed Q x s) (hskip : ¬c → Q () s) : Yields allowed Q (when c x) s := by
  rw [when]
  by_cases hc : c
  · rw [if_pos hc]
    exact hx hc
  · rw [if_neg hc]
    exact hskip hc

/-- The invariant of a loop may speak of the elements that are left. -/
theorem yields_loop {f : β → α → Throwing σ β} {P : List α → β → σ → Prop} {as : List α} {b : β}
    (hstep : ∀ a as b s, P (a :: as) b s → Yields allowed (P as) (f b a) s) (h : P as b s) :
    Yields allowed (P []) (loop f as b) s := by
  induction as generalizing b s with
  | nil => exact h
  | cons a as ih => exact (hstep a as b s h).bind fun b' s' h' => ih h'

end Yields

end Throwing

end XrCoin.Data

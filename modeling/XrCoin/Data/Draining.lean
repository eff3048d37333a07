import Mathlib

/-!
A machine that takes its input in pieces and keeps what it cannot use yet in a buffer.

One move looks at the buffer: it waits for more, takes a part from the front and goes on, or
stops for good. Where more input behind the buffer changes none of the moves that are made,
it does not matter how the input was cut into pieces.
-/

namespace XrCoin.Data

inductive Move (σ α : Type)
  | wait
  | go (s : σ) (rest : List α)
  | stop (s : σ)

def Move.append {σ α : Type} (more : List α) : Move σ α → Move σ α
  | .wait => .wait
  | .go s rest => .go s (rest ++ more)
  | .stop s => .stop s

inductive Drained (σ α : Type)
  | waiting (s : σ) (buffer : List α)
  | stopped (s : σ)

structure Consumer (σ α : Type) where
  move : σ → List α → Move σ α
  cost : σ → List α → ℕ
  cost_lt : ∀ {s s' buffer rest}, move s buffer = .go s' rest → cost s' rest < cost s buffer
  move_append : ∀ {s buffer}, move s buffer ≠ .wait →
    ∀ more, move s (buffer ++ more) = (move s buffer).append more

namespace Consumer

variable {σ α : Type} (c : Consumer σ α)

def drainFor : ℕ → σ → List α → Drained σ α
  | 0, s, buffer => .waiting s buffer
  | n + 1, s, buffer =>
      match c.move s buffer with
      | .wait => .waiting s buffer
      | .go s' rest => drainFor n s' rest
      | .stop s' => .stopped s'

def drain (s : σ) (buffer : List α) : Drained σ α := c.drainFor (c.cost s buffer + 1) s buffer

/-- The next piece of the input. -/
def feed : Drained σ α → List α → Drained σ α
  | .waiting s buffer, piece => c.drain s (buffer ++ piece)
  | .stopped s, _ => .stopped s

variable {c} {s s' : σ} {buffer rest : List α}

theorem go_append (h : c.move s buffer = .go s' rest) (more : List α) :
    c.move s (buffer ++ more) = .go s' (rest ++ more) := by
  have hmove : c.move s buffer ≠ .wait := by
    rw [h]
    simp
  rw [c.move_append hmove, h, Move.append]

theorem stop_append (h : c.move s buffer = .stop s') (more : List α) :
    c.move s (buffer ++ more) = .stop s' := by
  have hmove : c.move s buffer ≠ .wait := by
    rw [h]
    simp
  rw [c.move_append hmove, h, Move.append]

theorem drainFor_of_lt {n : ℕ} (h : c.cost s buffer < n) :
    c.drainFor n s buffer = c.drain s buffer := by
  suffices hall : ∀ n m s buffer, c.cost s buffer < n → c.cost s buffer < m →
      c.drainFor n s buffer = c.drainFor m s buffer from hall _ _ _ _ h (Nat.lt_succ_self _)
  intro n
  induction n with
  | zero => intro m s buffer h; cases h
  | succ n ih =>
      intro m s buffer hn hm
      cases m with
      | zero => cases hm
      | succ m =>
          rw [drainFor, drainFor]
          cases hmove : c.move s buffer with
          | wait => rfl
          | stop s' => rfl
          | go s' rest =>
              have hlt := c.cost_lt hmove
              exact ih m s' rest (by omega) (by omega)

theorem drain_wait (h : c.move s buffer = .wait) : c.drain s buffer = .waiting s buffer := by
  rw [drain, drainFor, h]

theorem drain_stop (h : c.move s buffer = .stop s') : c.drain s buffer = .stopped s' := by
  rw [drain, drainFor, h]

theorem drain_go (h : c.move s buffer = .go s' rest) : c.drain s buffer = c.drain s' rest := by
  rw [drain, drainFor, h]
  exact drainFor_of_lt (c.cost_lt h)

/-- What every move keeps holds where the machine waits or stops. -/
theorem drain_induction {P : σ → List α → Prop} {Q : Drained σ α → Prop}
    (hgo : ∀ s s' buffer rest, c.move s buffer = .go s' rest → P s buffer → P s' rest)
    (hwait : ∀ s buffer, c.move s buffer = .wait → P s buffer → Q (.waiting s buffer))
    (hstop : ∀ s s' buffer, c.move s buffer = .stop s' → P s buffer → Q (.stopped s'))
    (h : P s buffer) : Q (c.drain s buffer) := by
  induction hn : c.cost s buffer using Nat.strong_induction_on generalizing s buffer with
  | h n ih =>
      cases hmove : c.move s buffer with
      | wait =>
          rw [drain_wait hmove]
          exact hwait s buffer hmove h
      | stop s' =>
          rw [drain_stop hmove]
          exact hstop s s' buffer hmove h
      | go s' rest =>
          rw [drain_go hmove]
          exact ih _ (hn ▸ c.cost_lt hmove) (hgo s s' buffer rest hmove h) rfl

/-- A machine that waits would make no further move. -/
theorem move_of_drain (h : c.drain s buffer = .waiting s' rest) : c.move s' rest = .wait := by
  have hend : ∀ t kept, c.drain s buffer = .waiting t kept → c.move t kept = .wait := by
    apply drain_induction (P := fun _ _ => True)
      (Q := fun d => ∀ t kept, d = .waiting t kept → c.move t kept = .wait)
    · exact fun _ _ _ _ _ _ => trivial
    · intro s buffer hmove _ t kept heq
      cases heq
      exact hmove
    · intro s t buffer _ _ t' kept heq
      cases heq
    · trivial
  exact hend s' rest h

/-- The input in one piece gives what it gives in two. -/
theorem drain_append (s : σ) (first second : List α) :
    c.drain s (first ++ second) = c.feed (c.drain s first) second := by
  induction hn : c.cost s first using Nat.strong_induction_on generalizing s first with
  | h n ih =>
      cases hmove : c.move s first with
      | wait => rw [drain_wait hmove, feed]
      | stop s' => rw [drain_stop hmove, drain_stop (stop_append hmove second), feed]
      | go s' rest =>
          rw [drain_go hmove, drain_go (go_append hmove second)]
          exact ih _ (hn ▸ c.cost_lt hmove) s' rest rfl

end Consumer

end XrCoin.Data

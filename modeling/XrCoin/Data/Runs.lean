import Mathlib

/-!
Runs of a machine that takes one operation after the other.

An invariant that a step keeps holds in every state of a run. Where the step keeps the
property under a condition only, and breaks it otherwise, the property holds in all states
exactly when every step meets the condition.
-/

namespace XrCoin.Data

variable {σ ω : Type} (step : σ → ω → σ)

def run (s : σ) (ops : List ω) : σ := ops.foldl step s

@[simp] theorem run_nil (s : σ) : run step s [] = s := rfl

@[simp] theorem run_concat (s : σ) (ops : List ω) (op : ω) :
    run step s (ops ++ [op]) = step (run step s ops) op := by
  rw [run, List.foldl_append]
  rfl

/-- What the first state has and every step keeps holds after any run. -/
theorem run_invariant {P : σ → Prop} {s : σ} (hs : P s)
    (hstep : ∀ s op, P s → P (step s op)) (ops : List ω) : P (run step s ops) := by
  induction ops using List.reverseRecOn with
  | nil => exact hs
  | append_singleton ops op ih =>
      rw [run_concat]
      exact hstep _ _ ih

/-- Every step of a run meets a condition on the operation and the state before it. -/
def Throughout (C : ω → σ → Prop) : σ → List ω → Prop
  | _, [] => True
  | s, op :: ops => C op s ∧ Throughout C (step s op) ops

instance Throughout.decidable (C : ω → σ → Prop) [∀ op s, Decidable (C op s)] :
    ∀ s ops, Decidable (Throughout step C s ops)
  | _, [] => inferInstanceAs (Decidable True)
  | s, op :: ops =>
      have := Throughout.decidable C (step s op) ops
      inferInstanceAs (Decidable (C op s ∧ Throughout step C (step s op) ops))

/-- What the steps that meet a condition keep holds after a run of such steps. -/
theorem Throughout.invariant {P : σ → Prop} {C : ω → σ → Prop} {s : σ} {ops : List ω}
    (h : Throughout step C s ops) (hs : P s)
    (hstep : ∀ s, ∀ op ∈ ops, P s → C op s → P (step s op)) : P (run step s ops) := by
  induction ops generalizing s with
  | nil => exact hs
  | cons op ops ih =>
      apply ih h.2 (hstep s op List.mem_cons_self hs h.1)
      intro s' op' hop'
      exact hstep s' op' (List.mem_cons_of_mem op hop')

/-- A property of all states of a run, where `C` says which steps keep it. -/
theorem every_state_iff {P : σ → Prop} {C : ω → σ → Prop} {s : σ} (hs : P s)
    (hstep : ∀ s op, P s → (P (step s op) ↔ C op s)) (ops : List ω) :
    (∀ done, done <+: ops → P (run step s done)) ↔
      ∀ done op, done ++ [op] <+: ops → C op (run step s done) := by
  constructor
  · intro hall done op hdone
    have hbefore : P (run step s done) := hall done ((List.prefix_append done [op]).trans hdone)
    have hafter := hall _ hdone
    rw [run_concat] at hafter
    exact (hstep _ _ hbefore).mp hafter
  · intro hall done
    induction done using List.reverseRecOn with
    | nil => exact fun _ => hs
    | append_singleton done op ih =>
        intro hdone
        have hbefore := ih ((List.prefix_append done [op]).trans hdone)
        rw [run_concat, hstep _ _ hbefore]
        exact hall _ _ hdone

end XrCoin.Data

import Mathlib

/-!
# Conditions on the steps of a run

A run is a list of events taken from a state; it ends at the first event that the state does not
allow. `Always step P s es` says that every step of it meets `P`. Where an invariant makes two
conditions agree on one step, they hold of the same runs (`Always.congr`).

`answers` is the run of a machine that takes every event and answers it; `answers_simulates` is the rule
for two machines that answer alike.
-/

namespace Trace

variable {σ ε : Type} {step : σ → ε → Option σ}

def Always (step : σ → ε → Option σ) (P : σ → ε → Prop) : σ → List ε → Prop
  | _, [] => True
  | s, e :: es => ∀ s', step s e = some s' → P s e ∧ Always step P s' es

/-- The state that a run ends in, when every event of it is allowed. -/
def run (step : σ → ε → Option σ) : σ → List ε → Option σ
  | s, [] => some s
  | s, e :: es => do
    let s' ← step s e
    run step s' es

variable {P Q : σ → ε → Prop} {s s' : σ} {e : ε} {es es' : List ε}

theorem run_cons (h : step s e = some s') : run step s (e :: es) = run step s' es := by
  rw [run, h, Option.bind_eq_bind, Option.bind_some]

theorem run_append (h : run step s es = some s') : run step s (es ++ es') = run step s' es' := by
  induction es generalizing s with
  | nil =>
    cases h
    rfl
  | cons e es ih =>
    cases hstep : step s e with
    | none =>
      rw [run, hstep] at h
      cases h
    | some s₁ =>
      rw [run_cons hstep] at h
      rw [List.cons_append, run_cons hstep, ih h]

/-- What an invariant makes agree on one step agrees on every run. -/
theorem Always.congr {I : σ → Prop} (hI : ∀ s e s', I s → step s e = some s' → I s')
    (hPQ : ∀ s e s', I s → step s e = some s' → (P s e ↔ Q s e)) (hs : I s) (es : List ε) :
    Always step P s es ↔ Always step Q s es := by
  induction es generalizing s with
  | nil => exact Iff.rfl
  | cons e es ih =>
    refine forall_congr' fun s' => forall_congr' fun hstep => ?_
    exact and_congr (hPQ s e s' hs hstep) (ih (hI s e s' hs hstep))

/-- The condition at a step that a run gets to. -/
theorem Always.reached (h : Always step P s (es ++ e :: es')) (hrun : run step s es = some s')
    {s'' : σ} (hstep : step s' e = some s'') : P s' e := by
  induction es generalizing s with
  | nil =>
    cases hrun
    exact (h s'' hstep).1
  | cons e₁ es ih =>
    cases hfirst : step s e₁ with
    | none =>
      rw [run, hfirst] at hrun
      cases hrun
    | some s₁ =>
      rw [run_cons hfirst] at hrun
      exact ih (h s₁ hfirst).2 hrun

/-! ## Runs with answers -/

section

variable {τ ο : Type} {act : σ → ε → ο × σ} {act' : τ → ε → ο × τ} {R : σ → τ → Prop} {t : τ}

/-- The answers to the events, and the state after them. -/
def answers (act : σ → ε → ο × σ) (s : σ) : List ε → List ο × σ
  | [] => ([], s)
  | e :: es =>
    let rest := answers act (act s e).2 es
    ((act s e).1 :: rest.1, rest.2)

/-- Machines whose steps answer alike and keep a relation answer alike in every run. -/
theorem answers_simulates
    (hR : ∀ s t e, R s t → (act s e).1 = (act' t e).1 ∧ R (act s e).2 (act' t e).2) (h : R s t)
    (es : List ε) :
    (answers act s es).1 = (answers act' t es).1 ∧ R (answers act s es).2 (answers act' t es).2 := by
  induction es generalizing s t with
  | nil => exact ⟨rfl, h⟩
  | cons e es ih =>
    obtain ⟨hanswer, hnext⟩ := hR s t e h
    obtain ⟨hrest, hend⟩ := ih hnext
    exact ⟨congrArg₂ List.cons hanswer hrest, hend⟩

end

end Trace

import ContextFree.Event

/-!
# Runs that succeed

A run of several parts succeeds when each part does (`Run.bind_eq_ok_iff`), and restating errors
keeps a success (`Run.mapError_eq_ok_iff`). These take a run apart into its parts.
-/

namespace ContextFree.Run

variable {ε δ α β : Type}

/-- A run of two parts succeeds when both parts do. -/
theorem bind_eq_ok_iff {run : Run ε α} {next : α → Run ε β} {b : β} :
    (run >>= next).outcome = .ok b ↔ ∃ a, run.outcome = .ok a ∧ (next a).outcome = .ok b := by
  rw [outcome_bind]
  cases run.outcome with
  | error e => simp [Except.bind]
  | ok a => simp [Except.bind]

@[simp] theorem mapError_ok (f : ε → δ) (a : α) :
    (Except.ok a : Except ε α).mapError f = .ok a := rfl

@[simp] theorem mapError_error (f : ε → δ) (e : ε) :
    (Except.error e : Except ε α).mapError f = .error (f e) := rfl

/-- Restating errors keeps a success. -/
theorem mapError_eq_ok_iff {f : ε → δ} {outcome : Except ε α} {a : α} :
    outcome.mapError f = .ok a ↔ outcome = .ok a := by
  cases outcome with
  | error e => simp
  | ok b => simp

/-- What holds of the value that a computation has, if it has one, holds of some value it has. -/
theorem exists_eq_ok_of_any {outcome : Except ε α} {test : α → Bool}
    (h : outcome.toOption.any test = true) : ∃ a, outcome = .ok a ∧ test a = true := by
  cases outcome with
  | error e => exact absurd h Bool.false_ne_true
  | ok a => exact ⟨a, rfl, h⟩

end ContextFree.Run

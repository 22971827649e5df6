import Mathlib.Data.List.Basic

/-!
# Machines that answer calls

A machine takes a call in a state and gives an answer and the next state. The machine of a program
is partial: `none` is a call that goes wrong. What it is for is a total machine on abstract states.

* `Implements.replies`: a relation that every call keeps makes the program answer every sequence of
  calls as the abstract machine does, and never go wrong.
-/

namespace Simulation

variable {σ τ α ρ : Type*}

/-- The answers of a partial machine to a list of calls and the state behind them. -/
def replies (call : σ → α → Option (ρ × σ)) : σ → List α → Option (List ρ × σ)
  | s, [] => some ([], s)
  | s, a :: as =>
      (call s a).bind fun next => (replies call next.2 as).map fun rest =>
        (next.1 :: rest.1, rest.2)

/-- The answers of a total machine to a list of calls and the state behind them. -/
def follow (call : τ → α → ρ × τ) : τ → List α → List ρ × τ
  | t, [] => ([], t)
  | t, a :: as =>
      let next := call t a
      let rest := follow call next.2 as
      (next.1 :: rest.1, rest.2)

/-- In related states both machines give the same answer and go to related states. -/
def Implements (R : σ → τ → Prop) (concrete : σ → α → Option (ρ × σ))
    (abstract : τ → α → ρ × τ) : Prop :=
  ∀ s t a, R s t → ∃ s', concrete s a = some ((abstract t a).1, s') ∧ R s' (abstract t a).2

/-- **Simulation**: the same answers to every sequence of calls. -/
theorem Implements.replies {R : σ → τ → Prop} {concrete : σ → α → Option (ρ × σ)}
    {abstract : τ → α → ρ × τ} (implements : Implements R concrete abstract) {s : σ} {t : τ}
    (related : R s t) (calls : List α) :
    ∃ s', Simulation.replies concrete s calls = some ((follow abstract t calls).1, s') ∧
      R s' (follow abstract t calls).2 := by
  induction calls generalizing s t with
  | nil => exact ⟨s, rfl, related⟩
  | cons a calls ih =>
      obtain ⟨next, answered, related⟩ := implements s t a related
      obtain ⟨last, rest, related⟩ := ih related
      refine ⟨last, ?_, related⟩
      rw [Simulation.replies, answered, Option.bind_some, rest]
      rfl

end Simulation

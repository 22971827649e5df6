import Mathlib.Data.List.Basic

/-!
# Computations with a record

`Recorded μ ε α` answers or fails as `Except ε α` does and lists, in order, what it did on the way.
`Traces P x y` says that `x` answers as the plain computation `y` does and that everything it
recorded satisfies `P`; it is proved step by step, with the answers of the plain computation so far
at hand.
-/

universe u

/-- An answer or a failure, and the record up to there. -/
structure Recorded (μ ε : Type*) (α : Type u) where
  record : List μ
  answer : Except ε α

namespace Recorded

variable {μ ε : Type*} {α γ : Type u}

/-- The record goes on where the first step answers, and ends where it fails. -/
protected def bind (x : Recorded μ ε α) (f : α → Recorded μ ε γ) : Recorded μ ε γ :=
  match x.answer with
  | .error e => ⟨x.record, .error e⟩
  | .ok a => ⟨x.record ++ (f a).record, (f a).answer⟩

instance : Monad (Recorded μ ε) where
  pure a := ⟨[], .ok a⟩
  bind := Recorded.bind

/-- Do one thing that is recorded. -/
def note (m : μ) : Recorded μ ε PUnit := ⟨[m], .ok ⟨⟩⟩

/-- A step that records nothing. -/
def lift (x : Except ε α) : Recorded μ ε α := ⟨[], x⟩

def fail (e : ε) : Recorded μ ε α := ⟨[], .error e⟩

/-- The same answer as the plain computation, on a record that satisfies `P` throughout. -/
structure Traces (P : μ → Prop) (x : Recorded μ ε α) (y : Except ε α) : Prop where
  answer : x.answer = y
  record : ∀ m ∈ x.record, P m

variable {P : μ → Prop}

theorem Traces.pure (a : α) : Traces P (Pure.pure a : Recorded μ ε α) (.ok a) := ⟨rfl, nofun⟩

theorem Traces.lift (x : Except ε α) : Traces P (Recorded.lift x) x := ⟨rfl, nofun⟩

theorem Traces.fail (e : ε) : Traces P (Recorded.fail e : Recorded μ ε α) (.error e) := ⟨rfl, nofun⟩

theorem Traces.note {m : μ} (holds : P m) :
    Traces P (Recorded.note m : Recorded μ ε PUnit) (.ok ⟨⟩) :=
  ⟨rfl, List.forall_mem_singleton.mpr holds⟩

theorem Traces.bind {x : Recorded μ ε α} {y : Except ε α} {f : α → Recorded μ ε γ}
    {g : α → Except ε γ} (head : Traces P x y) (tail : ∀ a, y = .ok a → Traces P (f a) (g a)) :
    Traces P (x >>= f) (y >>= g) := by
  obtain ⟨rfl, holds⟩ := head
  change Traces P (x.bind f) _
  unfold Recorded.bind
  cases answered : x.answer with
  | error e => exact ⟨rfl, holds⟩
  | ok a =>
      have rest := tail a answered
      exact ⟨rest.answer, List.forall_mem_append.mpr ⟨holds, rest.record⟩⟩

/-- A step that fails is the last one. -/
theorem Traces.stop {x : Recorded μ ε α} {e : ε} {f : α → Recorded μ ε γ}
    (head : Traces P x (.error e)) : Traces P (x >>= f) (.error e) := by
  have joined : Traces P (x >>= f) (Except.error e >>= fun _ => Except.error e) :=
    head.bind fun _ none => by cases none
  exact joined

/-- A step of the recorded computation alone, which the plain one does not take. -/
theorem Traces.step {x : Recorded μ ε α} {a : α} {f : α → Recorded μ ε γ} {y : Except ε γ}
    (head : Traces P x (.ok a)) (tail : Traces P (f a) y) : Traces P (x >>= f) y := by
  have joined : Traces P (x >>= f) (Except.ok a >>= fun _ => y) := by
    refine head.bind fun b same => ?_
    cases same
    exact tail
  exact joined

end Recorded

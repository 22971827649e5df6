import Mathlib.Data.List.Perm.Basic

/-!
# Processes in the slots of a list

A system that keeps its processes in a list lets one of them take a step by setting its slot.

* `split_slot`, `split_set`: the list before and behind the step, around the slot.
* `getElem?_set_cases`, `mem_set_cases`, `mem_set_of_mem`: which processes there are behind it.
* `filterMap_set_perm`: a process that comes to count joins those that count already.
* `Sole`: mutual exclusion, with one lemma for each way in which a process enters, leaves or stays
  outside of the part that only one may be in.
-/

namespace Slots

variable {α β : Type*} {l : List α} {i j : Nat} {a b c : α}

theorem split_slot (here : l[i]? = some a) : l = l.take i ++ a :: l.drop (i + 1) := by
  obtain ⟨inside, same⟩ := List.getElem?_eq_some_iff.mp here
  rw [← same, ← List.drop_eq_getElem_cons inside, List.take_append_drop]

theorem split_set (here : l[i]? = some a) (b : α) :
    l.set i b = l.take i ++ b :: l.drop (i + 1) :=
  List.set_eq_take_append_cons_drop.trans (if_pos (List.getElem?_eq_some_iff.mp here).1)

theorem getElem?_set_slot (here : l[i]? = some a) (b : α) : (l.set i b)[i]? = some b :=
  List.getElem?_set_self (List.getElem?_eq_some_iff.mp here).1

theorem getElem?_concat_iff : (l ++ [b])[i]? = some c ↔ l[i]? = some c ∨ i = l.length ∧ c = b := by
  rcases Nat.lt_trichotomy i l.length with inside | rfl | outside
  · rw [List.getElem?_append_left inside, or_iff_left fun last => Nat.ne_of_lt inside last.1]
  · rw [List.getElem?_concat_length, List.getElem?_eq_none (Nat.le_refl _)]
    simp [eq_comm]
  · have behind := Nat.le_of_lt outside
    rw [List.getElem?_append_right behind, List.getElem?_eq_none behind,
      List.getElem?_eq_none (by rw [List.length_singleton]; omega)]
    simp [Nat.ne_of_gt outside]

/-- A slot behind the step is the one that was set, or as it was. -/
theorem getElem?_set_cases (there : (l.set i b)[j]? = some c) :
    i = j ∧ c = b ∨ i ≠ j ∧ l[j]? = some c := by
  by_cases same : i = j
  · subst same
    rw [List.getElem?_set_self'] at there
    obtain ⟨-, -, rfl⟩ := Option.map_eq_some_iff.mp there
    exact Or.inl ⟨rfl, rfl⟩
  · rw [List.getElem?_set_ne same] at there
    exact Or.inr ⟨same, there⟩

theorem mem_set_cases (member : c ∈ l.set i b) : c = b ∨ c ∈ l.eraseIdx i := by
  obtain ⟨j, there⟩ := List.mem_iff_getElem?.mp member
  rcases getElem?_set_cases there with ⟨-, same⟩ | ⟨other, there⟩
  · exact Or.inl same
  · exact Or.inr (List.mem_eraseIdx_iff_getElem?.mpr ⟨j, other.symm, there⟩)

/-- A process is the one that takes the step, or is still there behind it. -/
theorem mem_set_of_mem (member : c ∈ l) (here : l[i]? = some a) (b : α) :
    c = a ∨ c ∈ l.set i b := by
  obtain ⟨j, there⟩ := List.mem_iff_getElem?.mp member
  by_cases same : i = j
  · subst same
    rw [here] at there
    exact Or.inl (Option.some.inj there).symm
  · refine Or.inr (List.mem_iff_getElem?.mpr ⟨j, ?_⟩)
    rw [List.getElem?_set_ne same]
    exact there

theorem forall_mem_set {P : α → Prop} (all : ∀ c ∈ l, P c) (new : P b) : ∀ c ∈ l.set i b, P c := by
  intro c member
  rcases mem_set_cases member with rfl | other
  · exact new
  · exact all c (List.mem_of_mem_eraseIdx other)

/-- A step that does not change whether its process satisfies `P` does not change whether some
process does. -/
theorem exists_mem_set_iff {P : α → Prop} (here : l[i]? = some a) (same : P b ↔ P a) :
    (∃ c ∈ l.set i b, P c) ↔ ∃ c ∈ l, P c := by
  constructor
  · intro held
    rcases held with ⟨c, member, holds⟩
    rcases List.mem_or_eq_of_mem_set member with old | rfl
    · exact ⟨c, old, holds⟩
    · exact ⟨a, List.mem_of_getElem? here, same.mp holds⟩
  · intro held
    rcases held with ⟨c, member, holds⟩
    rcases mem_set_of_mem member here b with rfl | still
    · exact ⟨b, List.mem_of_getElem? (getElem?_set_slot here b), same.mpr holds⟩
    · exact ⟨c, still, holds⟩

/-- What `f` makes of the processes, when it made nothing of the one that takes the step. -/
theorem filterMap_set_perm {f : α → Option β} (here : l[i]? = some a) (none : f a = none) (b : α) :
    ((l.set i b).filterMap f).Perm (l.filterMap f ++ (f b).toList) := by
  have kept : l.filterMap f = (l.take i).filterMap f ++ (l.drop (i + 1)).filterMap f := by
    conv_lhs => rw [split_slot here]
    rw [List.filterMap_append, List.filterMap_cons_none none]
  rw [split_set here, List.filterMap_append, kept, List.append_assoc]
  refine List.Perm.append_left _ ?_
  cases made : f b with
  | none => rw [List.filterMap_cons_none made, Option.toList_none, List.append_nil]
  | some x =>
      rw [List.filterMap_cons_some made, Option.toList_some]
      exact (List.perm_append_singleton x _).symm

theorem filter_set_perm {p : α → Bool} (here : l[i]? = some a) (before : p a = false) (b : α) :
    ((l.set i b).filter p).Perm (l.filter p ++ [b].filter p) := by
  have none : Option.guard p a = none := by rw [Option.guard, before]; rfl
  have joined := filterMap_set_perm here none b
  rw [List.filterMap_eq_filter] at joined
  cases counts : p b with
  | false =>
      rw [Option.guard, counts] at joined
      rw [List.filter_cons_of_neg (by simp [counts])]
      exact joined
  | true =>
      rw [Option.guard, counts] at joined
      rw [List.filter_cons_of_pos counts]
      exact joined

/-! ## One process at a time -/

/-- The only process in its critical part is that of slot `i`, which is `a`, or there is none. -/
def Sole (Critical : α → Prop) (l : List α) (sole : Option (Nat × α)) : Prop :=
  ∀ i a, Critical a → (l[i]? = some a ↔ sole = some (i, a))

namespace Sole

variable {Critical : α → Prop} {sole : Option (Nat × α)}

theorem nil : Sole Critical ([] : List α) none := by
  intro i a _
  rw [List.getElem?_nil]
  exact iff_of_false nofun nofun

theorem eq (h : Sole Critical l sole) (here : l[i]? = some a) (critical : Critical a) :
    sole = some (i, a) := (h i a critical).mp here

/-- Nobody is in the critical part. -/
theorem none_iff (h : Sole Critical l sole) (valid : ∀ i a, sole = some (i, a) → Critical a) :
    sole = none ↔ ∀ c ∈ l, ¬ Critical c := by
  constructor
  · intro none c member critical
    obtain ⟨i, here⟩ := List.mem_iff_getElem?.mp member
    cases none.symm.trans (h.eq here critical)
  · intro outside
    cases held : sole with
    | none => rfl
    | some slot =>
        have critical := valid slot.1 slot.2 held
        exact (outside _ (List.mem_of_getElem? ((h _ _ critical).mpr held)) critical).elim

theorem append_outside (h : Sole Critical l sole) (outside : ¬ Critical b) :
    Sole Critical (l ++ [b]) sole := by
  intro i c critical
  rw [getElem?_concat_iff, h i c critical]
  refine or_iff_left fun last => outside ?_
  rw [← last.2]
  exact critical

theorem append_inside (h : Sole Critical l none) (b : α) :
    Sole Critical (l ++ [b]) (some (l.length, b)) := by
  intro i c critical
  rw [getElem?_concat_iff, or_iff_right fun old => Option.some_ne_none _ (h.eq old critical).symm]
  rw [Option.some_inj, Prod.mk.injEq, eq_comm (a := c), eq_comm (a := i)]

/-- What becomes of the critical part when slot `i` is set, from what its process does there. -/
theorem set (h : Sole Critical l sole) (here : l[i]? = some a) {sole' : Option (Nat × α)}
    (own : ∀ c, Critical c → (b = c ↔ sole' = some (i, c)))
    (others : ∀ j c, i ≠ j → (sole = some (j, c) ↔ sole' = some (j, c))) :
    Sole Critical (l.set i b) sole' := by
  intro j c critical
  by_cases same : i = j
  · subst same
    rw [getElem?_set_slot here, Option.some_inj]
    exact own c critical
  · rw [List.getElem?_set_ne same, h j c critical]
    exact others j c same

theorem set_outside (h : Sole Critical l sole) (here : l[i]? = some a) (before : ¬ Critical a)
    (after : ¬ Critical b) : Sole Critical (l.set i b) sole := by
  refine h.set here (fun c critical => ?_) fun _ _ _ => Iff.rfl
  apply iff_of_false
  · rintro rfl
    exact after critical
  · intro held
    rw [Option.some.inj (here.symm.trans ((h i c critical).mpr held))] at before
    exact before critical

theorem set_leave (h : Sole Critical l (some (i, a))) (here : l[i]? = some a)
    (after : ¬ Critical b) : Sole Critical (l.set i b) none := by
  refine h.set here (fun c critical => ?_) fun j c other => ?_
  · refine iff_of_false ?_ nofun
    rintro rfl
    exact after critical
  · refine iff_of_false (fun held => other ?_) nofun
    exact congrArg Prod.fst (Option.some.inj held)

theorem set_inside (h : Sole Critical l sole) (here : l[i]? = some a)
    (free : sole = none ∨ sole = some (i, a)) (b : α) :
    Sole Critical (l.set i b) (some (i, b)) := by
  refine h.set here (fun c _ => ?_) fun j c other => ?_
  · rw [Option.some_inj, Prod.mk.injEq, and_iff_right rfl]
  · have apart : some (i, b) ≠ some (j, c) := fun held =>
      other (congrArg Prod.fst (Option.some.inj held))
    refine iff_of_false (fun held => ?_) apart
    rcases free with none | own
    · cases none.symm.trans held
    · exact other (congrArg Prod.fst (Option.some.inj (own.symm.trans held)))

end Sole

end Slots

import Blp.Core.Acts
import Mathlib.Logic.Function.Basic

/-!
# Keys past their deadline

`get`, `ttl` and the cleaner compare the deadline of an entry with the clock; `expire` does not.

* `stays_dead_iff`: a key whose deadline the clock has reached stays dead until it is put again
  exactly in the runs in which `expire` comes only when its entry has been removed.
* `revived`: two calls of `expire` suffice for the opposite.
-/

namespace Blp.Core

open CString Runs

/-- The store and, for every key, the deadline it was last given since it was put. -/
structure Timeline where
  store : Store
  deadline : Bytes → Option Nat

def Timeline.start : Timeline := ⟨Store.empty, fun _ => none⟩

/-- A `put` takes the deadline away, an `expire` that returns true sets it. -/
def Timeline.exec (s : Timeline) (act : Act) : Timeline :=
  ⟨(s.store.exec act).2,
    match act with
    | .put key _ _ written => if written then Function.update s.deadline key none else s.deadline
    | .expire key ts now _ _ =>
        if (s.store.exec act).1 = .done true then
          Function.update s.deadline key (some (now.toNat + ts.toNat))
        else s.deadline
    | _ => s.deadline⟩

def timelineStep (s : Timeline) (act : Act) : Option Timeline := some (s.exec act)

/-- No value that is put has a tab. -/
def Act.TabFree : Act → Prop
  | .put _ value _ _ => tab ∉ value
  | _ => True

instance (act : Act) : Decidable act.TabFree :=
  match act with
  | .put _ value _ _ => inferInstanceAs (Decidable (tab ∉ value))
  | .remove _ _ _ => isTrue True.intro
  | .get _ _ _ => isTrue True.intro
  | .ttl _ _ => isTrue True.intro
  | .expire _ _ _ _ _ => isTrue True.intro
  | .ttlCleaner _ _ => isTrue True.intro

/-! ## What should hold and when it does -/

/-- The clock has reached the deadline of the key. -/
def Timeline.Reached (s : Timeline) (key : Bytes) (now : UInt64) : Prop :=
  ∃ deadline ∈ s.deadline key, deadline ≤ now.toNat

instance (s : Timeline) (key : Bytes) (now : UInt64) : Decidable (s.Reached key now) :=
  inferInstanceAs (Decidable (∃ deadline ∈ s.deadline key, _))

/-- On a dead key `get` returns false, `ttl` returns -2, and `expire` returns false and changes
nothing. -/
def StaysDead (s : Timeline) : Act → Prop
  | .get key now written => s.Reached key now → (s.store.get key [] now written).1 = false
  | .ttl key now => s.Reached key now → s.store.ttl key now = -2
  | .expire key ts now append written =>
      s.Reached key now → s.store.expire key ts now append written = (false, s.store)
  | _ => True

/-- A deadline that is the number for "never" has not been reached, or its entry is gone. -/
def Timeline.Numbered (s : Timeline) (key : Bytes) : Prop :=
  s.deadline key = some (2 ^ 64 - 1) → s.store.db.lookup key = none

/-- `expire` is called on a dead key only when its entry is gone, or when neither the log nor
LevelDB takes what it writes. -/
def Buried (s : Timeline) : Act → Prop
  | .get key now _ => s.Reached key now → s.Numbered key
  | .ttl key now => s.Reached key now → s.Numbered key
  | .expire key _ now append written =>
      s.Reached key now →
        s.store.db.lookup key = none ∨
          written = false ∧ append.async = false ∧ append.blocking = false
  | _ => True

instance (s : Timeline) (key : Bytes) : Decidable (s.Numbered key) :=
  inferInstanceAs (Decidable (s.deadline key = _ → s.store.db.lookup key = none))

instance (s : Timeline) (act : Act) : Decidable (Buried s act) :=
  match act with
  | .put _ _ _ _ => isTrue True.intro
  | .remove _ _ _ => isTrue True.intro
  | .get key now _ => inferInstanceAs (Decidable (s.Reached key now → s.Numbered key))
  | .ttl key now => inferInstanceAs (Decidable (s.Reached key now → s.Numbered key))
  | .expire key _ now _ _ => inferInstanceAs (Decidable (s.Reached key now → _ ∨ _ ∧ _ ∧ _))
  | .ttlCleaner _ _ => isTrue True.intro

/-! ## What LevelDB has under a key -/

/-- The deadline of a key and what LevelDB has under it. -/
inductive Shape : Option Nat → Option Bytes → Prop
  | gone {deadline : Option Nat} : Shape deadline none
  | forever {value : Bytes} (clean : tab ∉ value) : Shape none (some (storedValue value))
  | timed {value : Bytes} {deadline : Nat} (clean : tab ∉ value) :
      Shape (some deadline) (some (timedValue value (UInt64.ofNat deadline)))

theorem Shape.filter {deadline : Option Nat} {raw : Option Bytes} (h : Shape deadline raw)
    (keep : Bytes → Bool) : Shape deadline (raw.filter keep) := by
  cases raw with
  | none => exact .gone
  | some raw =>
      rw [Option.filter_some]
      split
      · exact h
      · exact .gone

theorem Shape.stored {deadline : Option Nat} {raw : Bytes} (h : Shape deadline (some raw)) :
    tab ∉ textOf raw ∧ raw ≠ [] := by
  cases h with
  | forever clean => exact ⟨(textOf_storedValue clean).symm ▸ clean, storedValue_ne_nil _⟩
  | timed clean => exact ⟨(textOf_timedValue clean _).symm ▸ clean, storedValue_ne_nil _⟩

/-- An entry whose deadline the clock has reached is expired, unless its deadline reads as
"never". -/
theorem Shape.dead {deadline : Nat} {raw : Bytes} {now : UInt64}
    (h : Shape (some deadline) (some raw)) (reached : deadline ≤ now.toNat) :
    (deadline ≠ 2 ^ 64 - 1 ∧ (readEntry raw).expired now = true) ∨
      deadline = 2 ^ 64 - 1 ∧ ∃ value, readEntry raw = .forever value := by
  cases h with
  | @timed value _ clean =>
      have bound : deadline < 2 ^ 64 := reached.trans_lt now.toNat_lt
      have number : (UInt64.ofNat deadline).toNat = deadline := UInt64.toNat_ofNat_of_lt' bound
      rw [readEntry_timedValue clean]
      by_cases never : deadline = 2 ^ 64 - 1
      · refine Or.inr ⟨never, value, if_pos ?_⟩
        subst never
        rfl
      · refine Or.inl ⟨never, ?_⟩
        rw [if_neg, Entry.expired]
        · exact decide_eq_true (UInt64.le_iff_toNat_le.mpr (by omega))
        · intro same
          rw [same] at number
          exact never number.symm

/-- Every entry has the deadline its key was given. -/
def Kept (s : Timeline) : Prop := ∀ key, Shape (s.deadline key) (s.store.db.lookup key)

theorem Kept.start : Kept Timeline.start := fun key => by
  rw [Timeline.start, Store.empty, AList.lookup_empty]
  exact .gone

theorem Kept.exec {s : Timeline} (h : Kept s) {act : Act} (clean : act.TabFree) :
    Kept (s.exec act) := by
  cases act with
  | put key value append written =>
      intro other
      simp only [Timeline.exec, Store.exec, lookup_put]
      cases written with
      | false => simpa using h other
      | true =>
          by_cases same : other = key
          · subst same
            simp only [Function.update_self, true_and, if_true]
            exact .forever clean
          · simp only [if_true, Function.update_of_ne same, same, false_and, if_false]
            exact h other
  | remove key append written =>
      intro other
      simp only [Timeline.exec, Store.exec, lookup_remove]
      split
      · exact .gone
      · exact h other
  | get key now written =>
      intro other
      simp only [Timeline.exec, Store.exec, lookup_get]
      split
      · rename_i same
        subst same
        exact (h other).filter _
      · exact h other
  | ttl key now => exact h
  | expire key ts now append written =>
      cases found : s.store.db.lookup key with
      | none =>
          simp only [Timeline.exec, Store.exec, expire_of_none found]
          exact h
      | some raw =>
          have shape := h key
          rw [found] at shape
          obtain ⟨text, stored⟩ := shape.stored
          intro other
          simp only [Timeline.exec, Store.exec, expire_of_some found stored, lookup_put]
          cases written with
          | false => simpa [Store.put] using h other
          | true =>
              by_cases same : other = key
              · subst same
                have sum : now + ts = UInt64.ofNat (now.toNat + ts.toNat) := by
                  rw [UInt64.ofNat_add, UInt64.ofNat_toNat, UInt64.ofNat_toNat]
                simp only [Store.put, Function.update_self, true_and, if_true]
                rw [sum]
                exact .timed text
              · simp only [Store.put, Function.update_of_ne same, same, false_and, if_true,
                  if_false]
                exact h other
  | ttlCleaner now written =>
      intro key
      simp only [Timeline.exec, Store.exec, lookup_sweep]
      exact (h key).filter _

/-! ## Every act -/

/-- What the readers see of a dead key. -/
theorem Kept.dead {s : Timeline} (h : Kept s) {key : Bytes} {now : UInt64}
    (reached : s.Reached key now) :
    (s.Numbered key ∧ ((readEntry (s.store.raw key [])).read now).1 = false ∧
        (readEntry (s.store.raw key [])).ttl now = -2) ∨
      ¬ s.Numbered key ∧ ∃ value, readEntry (s.store.raw key []) = .forever value := by
  obtain ⟨deadline, given, passed⟩ := reached
  have shape := h key
  unfold Timeline.Numbered Store.raw
  rw [Option.mem_def.mp given] at shape ⊢
  cases found : s.store.db.lookup key with
  | none => exact Or.inl ⟨fun _ => rfl, rfl, rfl⟩
  | some raw =>
      rw [found] at shape
      rw [Option.getD_some]
      rcases shape.dead passed with ⟨number, expired⟩ | ⟨never, forever⟩
      · refine Or.inl ⟨fun never => ?_, ?_, Entry.ttl_of_expired expired⟩
        · cases never
          exact (number rfl).elim
        · rw [Entry.read_of_expired expired]
      · refine Or.inr ⟨fun numbered => ?_, forever⟩
        cases numbered (congrArg some never)

/-- One act does what it should exactly under the condition. -/
theorem staysDead_iff {s : Timeline} (h : Kept s) (act : Act) : StaysDead s act ↔ Buried s act := by
  cases act with
  | get key now written =>
      refine forall_congr' fun reached => ?_
      rw [get_written_eq]
      rcases h.dead reached with ⟨numbered, read, -⟩ | ⟨never, value, entry⟩
      · exact iff_of_true read numbered
      · refine iff_of_false ?_ never
        rw [entry]
        exact Bool.noConfusion
  | ttl key now =>
      refine forall_congr' fun reached => ?_
      rw [ttl_eq]
      rcases h.dead reached with ⟨numbered, -, ttl⟩ | ⟨never, value, entry⟩
      · exact iff_of_true ttl numbered
      · refine iff_of_false ?_ never
        rw [entry]
        exact (by decide : (-1 : Int64) ≠ -2)
  | expire key ts now append written =>
      refine forall_congr' fun _ => ?_
      cases found : s.store.db.lookup key with
      | none => exact iff_of_true (expire_of_none found ts now append written) (Or.inl rfl)
      | some raw =>
          have shape := h key
          rw [found] at shape
          rw [expire_of_some found shape.stored.2, Store.put]
          cases written with
          | false => simp [log_eq_self_iff]
          | true => simp
  | put key value append written => exact Iff.rfl
  | remove key append written => exact Iff.rfl
  | ttlCleaner now written => exact Iff.rfl

/-- **When an expired key stays dead.** -/
theorem stays_dead_iff {acts : List Act} (clean : ∀ act ∈ acts, act.TabFree) :
    Along timelineStep StaysDead Timeline.start acts ↔
      Along timelineStep Buried Timeline.start acts := by
  refine along_congr_of_mem (C := Act.TabFree) (I := Kept) (fun s act _ h => staysDead_iff h act)
    (fun s act t clean _ h taken => ?_) clean Kept.start
  cases taken
  exact h.exec clean

/-- A key past its deadline is read, and `expire` comes behind that. -/
def forget : List Act :=
  [.put [107] [118] ⟨true, true⟩ true, .expire [107] 10 5 ⟨true, true⟩ true, .ttl [107] 20,
    .get [107] 20 true, .expire [107] 100 21 ⟨true, true⟩ true]

theorem stays_dead_forget : Along timelineStep StaysDead Timeline.start forget :=
  (stays_dead_iff (by decide)).mpr (by decide)

/-- A key that was put for ten seconds at the time 5 is given a hundred more at the time 20. -/
def revive : List Act :=
  [.put [107] [118] ⟨true, true⟩ true, .expire [107] 10 5 ⟨true, true⟩ true,
    .expire [107] 100 20 ⟨true, true⟩ true]

/-- The second `expire` returns true. -/
theorem revived : (∀ act ∈ revive, act.TabFree) ∧
    ¬ Along timelineStep StaysDead Timeline.start revive := by
  refine ⟨by decide, fun along => ?_⟩
  have dead := (along.2 _ rfl).2 _ rfl
  have refused := dead.1 ⟨15, by decide, by decide⟩
  exact absurd (congrArg Prod.fst refused) (by decide)

end Blp.Core

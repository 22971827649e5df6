import Blp.Core.Calls

/-!
# Removing what has expired

`get` and the cleaner look at an entry first and remove its key later, whatever the key holds by
then.

* `cleanup_spares_fresh`: in the runs in which every such removal finds the entry that was looked
  at, and calls on one key write in the order in which they started, a value that was put without a
  deadline stays until the next call on its key.
* `fresh_removed`, `fresh_cleaned`: a `put` between look and removal suffices for the opposite.
-/

namespace Blp.Core

open CString Runs Slots

/-! ## What should hold and when it does -/

/-- The value brings no deadline of its own. -/
def NoDeadline (value : Bytes) : Prop :=
  ∀ text deadline, readEntry (storedValue value) ≠ .timed text deadline

theorem noDeadline_of_clean {value : Bytes} (clean : tab ∉ value) : NoDeadline value := by
  intro text deadline timed
  rw [readEntry_storedValue clean] at timed
  cases timed

/-- When a `put` has returned and no later `put`, `expire` or `remove` on its key has started, the
key holds the value. -/
def FreshKept (s : World) : Prop :=
  ∀ i key value now written, s.calls[i]? = some (.put key value, .returned now written true) →
    NoDeadline value →
    (∀ call ∈ s.calls.drop (i + 1), call.1 = .get key ∨ call.1.key ≠ key) →
    s.store.db.lookup key = some (storedValue value)

/-- The call has changed LevelDB. -/
def wrote : Request × Phase → Bool
  | (.get _, _) => false
  | (_, .returned _ _ ok) => ok
  | _ => false

/-- The entry that the call is about to remove. -/
def Phase.due? : Phase → Option Due
  | .removing due => some due
  | _ => none

/-- A removal finds the entry that was looked at, or none; any other write on the key comes behind
none of a call that started later than number `i`. -/
def Spares (s : World) (i : Nat) (key : Bytes) : Option Due → Prop
  | some due => ∀ raw ∈ s.store.db.lookup key, raw = due.raw
  | none => ∀ later ∈ s.calls.drop (i + 1), wrote later = true → later.1.key ≠ key

instance (s : World) (i : Nat) (key : Bytes) : DecidablePred (Spares s i key)
  | some due => inferInstanceAs (Decidable (∀ raw ∈ s.store.db.lookup key, raw = due.raw))
  | none =>
      inferInstanceAs (Decidable (∀ later ∈ s.calls.drop (i + 1), wrote later = true → _ ≠ key))

/-- No removal by `get` or the cleaner and no other write is in such a race. -/
def Unraced (s : World) : Move → Prop
  | .turn i (.write true) => ∀ call ∈ s.calls[i]?, Spares s i call.1.key call.2.due?
  | .clean true => ∀ entry ∈ s.removing, Spares s 0 entry.1 (some entry.2)
  | _ => True

instance (s : World) (move : Move) : Decidable (Unraced s move) :=
  match move with
  | .call _ => isTrue True.intro
  | .turn _ .read => isTrue True.intro
  | .turn _ (.clock _) => isTrue True.intro
  | .turn _ (.append _) => isTrue True.intro
  | .turn _ (.write false) => isTrue True.intro
  | .turn i (.write true) =>
      inferInstanceAs (Decidable (∀ call ∈ s.calls[i]?, Spares s i call.1.key call.2.due?))
  | .snapshot => isTrue True.intro
  | .check _ _ => isTrue True.intro
  | .clean false => isTrue True.intro
  | .clean true =>
      inferInstanceAs (Decidable (∀ entry ∈ s.removing, Spares s 0 entry.1 (some entry.2)))

/-! ## The invariant -/

/-- No call on the key that started behind number `i` has written. -/
def LastOn (calls : List (Request × Phase)) (i : Nat) (key : Bytes) : Prop :=
  ∀ (j : Nat) (call : Request × Phase), i < j → calls[j]? = some call → wrote call = true →
    call.1.key ≠ key

/-- A key holds the value of the last `put` on it. -/
def LastPut (s : World) : Prop :=
  ∀ (i : Nat) (key value : Bytes) (phase : Phase), s.calls[i]? = some (.put key value, phase) →
    wrote (.put key value, phase) = true → NoDeadline value → LastOn s.calls i key →
    s.store.db.lookup key = some (storedValue value)

theorem LastPut.start (db : LevelDB) : LastPut (World.start db) := by
  intro i key value phase there
  cases there

theorem mem_drop_of_getElem? {α : Type} {l : List α} {i j : Nat} {a : α} (after : i < j)
    (there : l[j]? = some a) : a ∈ l.drop (i + 1) := by
  refine List.mem_iff_getElem?.mpr ⟨j - (i + 1), ?_⟩
  rw [List.getElem?_drop, ← there]
  congr 1
  omega

theorem LastPut.freshKept {s : World} (h : LastPut s) : FreshKept s := by
  intro i key value now written there clean last
  refine h i key value _ there rfl clean fun j call after found done => ?_
  rcases last call (mem_drop_of_getElem? after found) with get | other
  · obtain ⟨request, phase⟩ := call
    subst get
    cases done
  · exact other

/-- A value without a deadline is not what was found past its deadline. -/
theorem Due.ne_fresh {value : Bytes} (clean : NoDeadline value) (due : Due) :
    storedValue value ≠ due.raw := by
  intro same
  have past := due.past
  rw [← same, isExpired_eq] at past
  cases entry : readEntry (storedValue value) with
  | timed text deadline => exact clean text deadline entry
  | bare raw =>
      rw [entry] at past
      cases past
  | unreadable raw =>
      rw [entry] at past
      cases past
  | forever text =>
      rw [entry] at past
      cases past

/-- A removal that finds what was looked at leaves fresh values alone. -/
theorem lookup_removal {s : Store} {key other value : Bytes} {due : Due}
    (same : ∀ raw ∈ s.db.lookup other, raw = due.raw) (clean : NoDeadline value)
    (found : s.db.lookup key = some (storedValue value)) :
    (s.write (.del other)).db.lookup key = some (storedValue value) := by
  by_cases hit : key = other
  · subst hit
    exact (due.ne_fresh clean (same _ found)).elim
  · exact (AList.lookup_erase_ne hit).trans found

section Turn

variable {s t : World} {i : Nat} {request : Request} {phase phase' : Phase}

theorem LastOn.of_set {calls : List (Request × Phase)} {j : Nat} {key : Bytes}
    (there : calls[i]? = some (request, phase)) (before : wrote (request, phase) = false)
    (last : LastOn (calls.set i (request, phase')) j key) : LastOn calls j key := by
  intro m call behind found done
  refine last m call behind ?_ done
  rw [List.getElem?_set]
  split
  · rename_i same
    subst same
    rw [there] at found
    cases found
    rw [before] at done
    cases done
  · exact found

/-- A step of a call that neither has written before nor writes now. -/
theorem LastPut.set (h : LastPut s) (there : s.calls[i]? = some (request, phase))
    (before : wrote (request, phase) = false) (calls : t.calls = s.calls.set i (request, phase'))
    (after : wrote (request, phase') = false)
    (kept : ∀ key value, NoDeadline value → s.store.db.lookup key = some (storedValue value) →
      t.store.db.lookup key = some (storedValue value)) : LastPut t := by
  intro j key value phaseJ thereJ done clean last
  rw [calls] at thereJ last
  rcases getElem?_set_cases thereJ with ⟨-, same⟩ | ⟨-, thereJ⟩
  · cases same
    rw [after] at done
    cases done
  · exact kept key value clean (h j key value phaseJ thereJ done clean (last.of_set there before))

theorem lookup_command {seen : Option (Found × UInt64)} {cmd : Command}
    (command : request.command seen = some cmd) (store : Store) {key : Bytes}
    (differ : key ≠ request.key) : (store.write cmd).db.lookup key = store.db.lookup key := by
  cases request <;> cases seen <;> cases command
  · exact AList.lookup_insert_ne differ
  · exact AList.lookup_erase_ne differ
  · exact AList.lookup_insert_ne differ

/-- A call writes behind all that has been written on its key. -/
theorem LastPut.write {cmd : Command} {seen : Option (Found × UInt64)} (h : LastPut s)
    (there : s.calls[i]? = some (request, phase)) (before : wrote (request, phase) = false)
    (calls : t.calls = s.calls.set i (request, phase')) (after : wrote (request, phase') = true)
    (command : request.command seen = some cmd) (db : t.store.db = (s.store.write cmd).db)
    (ordered : ∀ later ∈ s.calls.drop (i + 1), wrote later = true → later.1.key ≠ request.key) :
    LastPut t := by
  intro j key value phaseJ thereJ done clean last
  rw [calls] at thereJ last
  rcases getElem?_set_cases thereJ with ⟨-, same⟩ | ⟨different, thereJ⟩
  · cases same
    cases seen <;> cases command
    rw [db]
    exact AList.lookup_insert _
  · have differ : key ≠ request.key := by
      intro same
      rcases Nat.lt_or_gt_of_ne different with earlier | later
      · exact ordered _ (mem_drop_of_getElem? earlier thereJ) done same
      · exact last i (request, phase') later (getElem?_set_slot there _) after same.symm
    rw [db, lookup_command command _ differ]
    exact h j key value phaseJ thereJ done clean (last.of_set there before)

end Turn

theorem wrote_of_not_returned {request : Request} {phase : Phase}
    (goesOn : ∀ now written ok, phase ≠ .returned now written ok) :
    wrote (request, phase) = false := by
  cases phase with
  | returned now written ok => exact (goesOn now written ok rfl).elim
  | _ => cases request <;> rfl

theorem LastPut.turn {s t : World} {i : Nat} {turn : Turn} (h : LastPut s)
    (unraced : Unraced s (.turn i turn)) (taken : worldStep s (.turn i turn) = some t) :
    LastPut t := by
  obtain ⟨request, phase, ⟨phase', store'⟩, there, step, rfl⟩ := worldStep_turn taken
  have before : wrote (request, phase) = false := wrote_of_not_returned (not_returned step)
  cases turn_cases step with
  | goes db goesOn =>
      refine h.set there before rfl (wrote_of_not_returned goesOn) fun key value _ found => ?_
      rw [db]
      exact found
  | absent expire none => exact h.set there before rfl (by rw [expire]; rfl) fun _ _ _ => id
  | answers get => exact h.set there before rfl (by rw [get]; rfl) fun _ _ _ => id
  | @writes seen cmd written appended command =>
      cases written with
      | false =>
          refine h.set there before rfl ?_ fun _ _ _ => id
          cases request <;> rfl
      | true =>
          have ordered := unraced _ there
          simp only [appended, Phase.due?, Spares] at ordered
          refine h.write there before rfl ?_ command rfl ordered
          cases request <;> cases seen <;> cases command <;> rfl
  | @removes key due written get removing =>
      subst get
      refine h.set there before rfl rfl fun other value clean found => ?_
      cases written with
      | false => exact found
      | true =>
          have same := unraced _ there
          simp only [removing, Phase.due?, Spares] at same
          exact lookup_removal same clean found

theorem LastPut.step {s t : World} {move : Move} (h : LastPut s) (unraced : Unraced s move)
    (taken : worldStep s move = some t) : LastPut t := by
  cases move with
  | call request =>
      cases taken
      intro i key value phase there done clean last
      have old : i < s.calls.length := by
        by_contra new
        rw [List.getElem?_append_right (by omega)] at there
        have called := List.mem_singleton.mp (List.mem_of_getElem? there)
        cases called
        cases done
      rw [List.getElem?_append_left old] at there
      refine h i key value phase there done clean fun j call after found => ?_
      refine last j call after ?_
      exact (List.getElem?_append_left (List.getElem?_eq_some_iff.mp found).1).trans found
  | turn i turn => exact h.turn unraced taken
  | snapshot =>
      obtain ⟨-, ⟨⟩⟩ := Option.ite_none_right_eq_some.mp taken
      exact h
  | check key now =>
      simp only [worldStep] at taken
      split at taken
      · obtain ⟨-, ⟨⟩⟩ := Option.ite_none_right_eq_some.mp taken
        exact h
      · cases taken
  | clean written =>
      simp only [worldStep] at taken
      split at taken
      · rename_i key due removing
        cases taken
        intro i other value phase there done clean last
        have found := h i other value phase there done clean last
        cases written with
        | false => exact found
        | true =>
            exact lookup_removal (unraced _ removing) clean found
      · cases taken

/-- **Cleaning up spares fresh values** in the runs without such a race. -/
theorem cleanup_spares_fresh {db : LevelDB} {moves : List Move} {t : World}
    (reached : run worldStep (World.start db) moves = some t)
    (unraced : Along worldStep Unraced (World.start db) moves) : FreshKept t :=
  (along_induction (I := LastPut) (fun _ _ _ alone h taken => h.step alone taken) reached unraced
    (LastPut.start db)).freshKept

/-- A key past its deadline. -/
def leftover : LevelDB := AList.insert [107] (timedValue [118] 5) ∅

/-- `get` and the cleaner look at the entry and remove it, and then the key is put again. -/
def removeThenPut : List Move :=
  [.call (.get [107]), .snapshot, .turn 0 .read, .turn 0 (.clock 9), .check [107] 9,
    .turn 0 (.write true), .clean true, .call (.put [107] [119]),
    .turn 1 (.append ⟨true, true⟩), .turn 1 (.write true)]

theorem spared_removeThenPut :
    FreshKept ((run worldStep (World.start leftover) removeThenPut).get (by decide)) :=
  cleanup_spares_fresh (Option.some_get _).symm (by decide)

/-- The key is put between the look of `get` at the old entry and the removal. -/
def putThenRemove : List Move :=
  [.call (.get [107]), .turn 0 .read, .turn 0 (.clock 9), .call (.put [107] [119]),
    .turn 1 (.append ⟨true, true⟩), .turn 1 (.write true), .turn 0 (.write true)]

/-- The value is gone. -/
theorem fresh_removed :
    ∃ t, run worldStep (World.start leftover) putThenRemove = some t ∧ ¬ FreshKept t := by
  refine ⟨(run worldStep (World.start leftover) putThenRemove).get (by decide),
    (Option.some_get _).symm, fun kept => ?_⟩
  have held := kept 1 [107] [119] 0 true (by decide) (noDeadline_of_clean (by decide)) (by decide)
  exact absurd held (by decide)

/-- The key is put between the look of the cleaner at its snapshot and the removal. -/
def putThenClean : List Move :=
  [.snapshot, .call (.put [107] [119]), .turn 0 (.append ⟨true, true⟩), .turn 0 (.write true),
    .check [107] 9, .clean true]

theorem fresh_cleaned :
    ∃ t, run worldStep (World.start leftover) putThenClean = some t ∧ ¬ FreshKept t := by
  refine ⟨(run worldStep (World.start leftover) putThenClean).get (by decide),
    (Option.some_get _).symm, fun kept => ?_⟩
  have held := kept 0 [107] [119] 0 true (by decide) (noDeadline_of_clean (by decide)) (by decide)
  exact absurd held (by decide)

end Blp.Core

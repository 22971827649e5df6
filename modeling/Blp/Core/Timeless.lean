import Blp.Core.Linear

/-!
# A store without deadlines

As long as nobody calls `expire` and no value has a tab, no entry is ever found past its deadline:
`get` and the cleaner only read.

* `Timeless`: nothing that is stored or was read can expire.
* `timeless_linearizable`: then the store is linearizable, whatever the order of the steps.
-/

namespace Blp.Core

open CString Runs Slots

/-- Nobody finds the entry past its deadline. -/
def Lasts (raw : Bytes) : Prop := ∀ now, isExpired raw now = false

theorem lasts_storedValue {value : Bytes} (clean : tab ∉ value) : Lasts (storedValue value) := by
  intro now
  rw [isExpired_eq, readEntry_storedValue clean]
  rfl

theorem lasts_nil : Lasts [] := fun _ => rfl

/-- All that is stored. -/
def AllLast (db : LevelDB) : Prop := ∀ key, ∀ raw ∈ db.lookup key, Lasts raw

/-- Neither `expire` nor a value with a tab. -/
def Request.Plain : Request → Prop
  | .put _ value => tab ∉ value
  | .expire _ _ => False
  | _ => True

instance (request : Request) : Decidable request.Plain :=
  match request with
  | .put _ value => inferInstanceAs (Decidable (tab ∉ value))
  | .remove _ => isTrue True.intro
  | .expire _ _ => isFalse id
  | .get _ => isTrue True.intro

def Move.Plain : Move → Prop
  | .call request => request.Plain
  | _ => True

instance (move : Move) : Decidable move.Plain :=
  match move with
  | .call request => inferInstanceAs (Decidable request.Plain)
  | .turn _ _ => isTrue True.intro
  | .snapshot => isTrue True.intro
  | .check _ _ => isTrue True.intro
  | .clean _ => isTrue True.intro

/-- Nothing that is stored, or that a call or the cleaner has read, can expire. -/
structure Timeless (s : World) : Prop where
  stored : AllLast s.store.db
  todo : AllLast s.todo
  idle : s.removing = none
  plain : ∀ call ∈ s.calls, call.1.Plain
  read : ∀ call ∈ s.calls, ∀ raw, call.2 = .read raw → Lasts raw
  keeps : ∀ call ∈ s.calls, ∀ due, call.2 ≠ .removing due

theorem Timeless.start {db : LevelDB} (all : AllLast db) : Timeless (World.start db) where
  stored := all
  todo := fun key raw found => by
    rw [World.start, AList.lookup_empty] at found
    cases found
  idle := rfl
  plain := nofun
  read := nofun
  keeps := nofun

/-- What a plain request writes lasts. -/
theorem AllLast.write {store : Store} (all : AllLast store.db) {request : Request}
    (plain : request.Plain) {seen : Option (Found × UInt64)} {cmd : Command}
    (command : request.command seen = some cmd) : AllLast (store.write cmd).db := by
  intro key raw found
  rw [lookup_write] at found
  split at found
  · cases request with
    | put key value =>
        cases seen <;> cases command
        cases found
        exact lasts_storedValue plain
    | remove key =>
        cases seen <;> cases command
        cases found
    | expire key ts => exact plain.elim
    | get key => cases seen <;> cases command
  · exact all key raw found

theorem AllLast.raw {store : Store} (all : AllLast store.db) (key : Bytes) :
    Lasts (store.raw key []) := by
  unfold Store.raw
  cases found : store.db.lookup key with
  | none => exact lasts_nil
  | some raw => exact all key raw found

/-- Only a `get` goes on with what it has read. -/
theorem get_of_has {request : Request} {store store' : Store} {phase phase' : Phase} {turn : Turn}
    {raw : Bytes} (taken : request.turn store phase turn = some (phase', store'))
    (has : phase'.has = some raw) : ∃ key, request = .get key := by
  cases turn with
  | read =>
      cases phase with
      | called =>
          cases request with
          | get key => exact ⟨key, rfl⟩
          | expire key ts =>
              rw [Request.turn] at taken
              split at taken <;> cases taken <;> cases has
          | _ => cases taken
      | _ => cases taken
  | clock now =>
      cases phase with
      | read raw =>
          cases request with
          | get key => exact ⟨key, rfl⟩
          | _ => cases taken
      | found entry =>
          cases taken
          cases has
      | _ => cases taken
  | append append =>
      cases phase with
      | called =>
          obtain ⟨cmd, -, ⟨⟩⟩ := Option.map_eq_some_iff.mp taken
          cases has
      | computed entry now =>
          obtain ⟨cmd, -, ⟨⟩⟩ := Option.map_eq_some_iff.mp taken
          cases has
      | _ => cases taken
  | write written =>
      cases phase with
      | appended seen =>
          obtain ⟨cmd, -, ⟨⟩⟩ := Option.map_eq_some_iff.mp taken
          cases has
      | removing due =>
          cases request with
          | get key => exact ⟨key, rfl⟩
          | _ => cases taken
      | _ => cases taken

/-- What a step of a plain call leaves. -/
theorem Timeless.turned {s : World} (h : Timeless s) {request : Request} {phase phase' : Phase}
    {turn : Turn} {store' : Store} (member : (request, phase) ∈ s.calls)
    (step : request.turn s.store phase turn = some (phase', store')) :
    AllLast store'.db ∧ (∀ raw, phase' = .read raw → Lasts raw) ∧
      ∀ due, phase' ≠ .removing due := by
  have plain := h.plain _ member
  by_cases get : ∃ key, request = .get key
  · obtain ⟨key, rfl⟩ := get
    cases get_cases step with
    | reads =>
        refine ⟨h.stored, fun raw same => ?_, nofun⟩
        cases same
        exact h.stored.raw key
    | @waits raw now past =>
        have lasts := h.read _ member raw rfl now
        rw [past] at lasts
        cases lasts
    | answers live => exact ⟨h.stored, nofun, nofun⟩
    | @removes due written => exact (h.keeps _ member due rfl).elim
    | computes => exact ⟨h.stored, nofun, nofun⟩
  · have reads : ∀ raw, phase'.has ≠ some raw := fun raw has => get (get_of_has step has)
    refine ⟨?_, fun raw same => ?_, fun due same => ?_⟩
    · cases turn_cases step with
      | goes same _ =>
          rw [same]
          exact h.stored
      | absent => exact h.stored
      | answers get' => exact (get ⟨_, get'⟩).elim
      | @writes seen cmd written _ command =>
          cases written with
          | false => exact h.stored
          | true => exact h.stored.write plain command
      | removes get' => exact (get ⟨_, get'⟩).elim
    · exact (reads raw (by rw [same]; rfl)).elim
    · exact reads due.raw (by rw [same]; rfl)

theorem Timeless.step {s t : World} {move : Move} (h : Timeless s) (plain : move.Plain)
    (taken : worldStep s move = some t) : Timeless t := by
  cases move with
  | call request =>
      cases taken
      refine ⟨h.stored, h.todo, h.idle, fun call member => ?_, fun call member => ?_,
        fun call member => ?_⟩
      · rcases List.mem_append.mp member with old | new
        · exact h.plain call old
        · cases List.mem_singleton.mp new
          exact plain
      · rcases List.mem_append.mp member with old | new
        · exact h.read call old
        · cases List.mem_singleton.mp new
          exact nofun
      · rcases List.mem_append.mp member with old | new
        · exact h.keeps call old
        · cases List.mem_singleton.mp new
          exact nofun
  | turn i turn =>
      obtain ⟨request, phase, ⟨phase', store'⟩, there, step, rfl⟩ := worldStep_turn taken
      have member := List.mem_of_getElem? there
      have plain : request.Plain := h.plain _ member
      obtain ⟨stored, read, keeps⟩ := h.turned member step
      exact ⟨stored, h.todo, h.idle, forall_mem_set h.plain plain,
        forall_mem_set h.read read, forall_mem_set h.keeps keeps⟩
  | snapshot =>
      obtain ⟨-, ⟨⟩⟩ := Option.ite_none_right_eq_some.mp taken
      exact ⟨h.stored, h.stored, h.idle, h.plain, h.read, h.keeps⟩
  | check key now =>
      simp only [worldStep] at taken
      split at taken
      · rename_i raw found
        obtain ⟨-, ⟨⟩⟩ := Option.ite_none_right_eq_some.mp taken
        refine ⟨h.stored, fun other raw' left => ?_, ?_, h.plain, h.read, h.keeps⟩
        · by_cases same : other = key
          · rw [same, AList.lookup_erase] at left
            cases left
          · rw [AList.lookup_erase_ne same] at left
            exact h.todo other raw' left
        · have lasts := h.todo key raw found now
          exact dif_neg (by rw [lasts]; exact Bool.noConfusion)
      · cases taken
  | clean written =>
      rw [worldStep, h.idle] at taken
      cases taken

/-- Nobody writes what was decided on from an entry. -/
theorem Timeless.finds {s : World} (h : Timeless s) (move : Move) : FindsRead s move := by
  cases move with
  | turn i turn =>
      cases turn with
      | write written =>
          cases written with
          | false => trivial
          | true =>
              intro call there
              have member := List.mem_of_getElem? there
              obtain ⟨request, phase⟩ := call
              cases request with
              | expire key ts => exact (h.plain _ member).elim
              | get key =>
                  cases phase with
                  | removing due => exact (h.keeps _ member due rfl).elim
                  | _ => trivial
              | _ => trivial
      | _ => trivial
  | clean written =>
      cases written with
      | false => trivial
      | true =>
          intro found there
          rw [h.idle] at there
          cases there
  | _ => trivial

/-- **Without deadlines the store is linearizable**, in whatever order the calls and the cleaner
take their steps. -/
theorem timeless_linearizable {db : LevelDB} (all : AllLast db) {moves : List Move} {t : World}
    (plain : ∀ move ∈ moves, move.Plain)
    (reached : run worldStep (World.start db) moves = some t) :
    ∃ order, Linearization db moves t order := by
  refine linearization_of_run reached ?_
  refine (along_congr_of_mem (Q := fun _ _ => True) (I := Timeless) ?_ ?_ plain
    (Timeless.start all)).mpr (along_of_forall_mem fun _ _ => trivial)
  · exact fun s move _ h => iff_of_true (h.finds move) trivial
  · exact fun s move t plain _ h taken => h.step plain taken

/-- `put` and `remove` on a key with a `get` and a pass of the cleaner across both. -/
def acrossBoth : List Move :=
  [.call (.get [107]), .call (.put [107] [119]), .snapshot, .turn 0 .read,
    .turn 1 (.append ⟨true, true⟩), .call (.remove [107]), .turn 2 (.append ⟨false, true⟩),
    .check [107] 3, .turn 2 (.write true), .turn 1 (.write true), .turn 0 (.clock 7)]

theorem allLast_kept : AllLast kept := by
  intro key raw found
  by_cases same : key = [107]
  · rw [same, kept, AList.lookup_insert] at found
    cases found
    exact lasts_storedValue (by decide)
  · rw [kept, AList.lookup_insert_ne same, AList.lookup_empty] at found
    cases found

theorem timeless_linearizable_acrossBoth :
    ∃ order, Linearization kept acrossBoth
      ((run worldStep (World.start kept) acrossBoth).get (by decide)) order :=
  timeless_linearizable allLast_kept (by decide) (Option.some_get _).symm

end Blp.Core

import Blp.Core.Acts
import Blp.Lib.Slots

/-!
# Calls step by step

Between its reads and writes of LevelDB, its looks at the clock and its append to the log a call of
the store holds no lock. `Request.turn` is one such step of one call; in `worldStep` any number of
calls and the cleaner take theirs in any order.

* `alone_put`, `alone_remove`, `alone_expire`, `alone_get`: a call that is left alone does what the
  operation does.
* `turn_cases`: what one step can do.
-/

namespace Blp.Core

open CString Runs

inductive Request
  | put (key value : Bytes)
  | remove (key : Bytes)
  | expire (key : Bytes) (ts : UInt64)
  | get (key : Bytes)
  deriving DecidableEq

def Request.key : Request → Bytes
  | .put key _ => key
  | .remove key => key
  | .expire key _ => key
  | .get key => key

/-- What `expire` has read and goes on with. -/
structure Found where
  raw : Bytes
  stored : raw ≠ []
  deriving DecidableEq

/-- What `get` or the cleaner has found past its deadline. -/
structure Due where
  raw : Bytes
  now : UInt64
  past : isExpired raw now = true
  deriving DecidableEq

/-- How far a call has come. -/
inductive Phase
  | called
  /-- `get` has read LevelDB. -/
  | read (raw : Bytes)
  /-- `expire` has read LevelDB. -/
  | found (entry : Found)
  /-- `expire` has looked at the clock. -/
  | computed (entry : Found) (now : UInt64)
  /-- The command is in the log; `seen` is what `expire` made it of. -/
  | appended (seen : Option (Found × UInt64))
  /-- `get` has looked at the clock and is about to remove the entry. -/
  | removing (due : Due)
  /-- With the time, the status of the LevelDB write and the result. -/
  | returned (now : UInt64) (written ok : Bool)
  deriving DecidableEq

/-- What a call appends and then writes, once it has seen all that it needs. -/
def Request.command : Request → Option (Found × UInt64) → Option Command
  | .put key value, none => some (.set key value)
  | .remove key, none => some (.del key)
  | .expire key ts, some (entry, now) =>
      some (.set key (textOf entry.raw ++ tab :: decimal (now + ts).toNat))
  | _, _ => none

/-- What a call does next. -/
inductive Turn
  /-- `impl_->get`. -/
  | read
  /-- `now_sec()`. -/
  | clock (now : UInt64)
  | append (append : Append)
  /-- `impl_->put` or `impl_->remove`, and the return. -/
  | write (written : Bool)
  deriving DecidableEq

/-- One step of one call. -/
def Request.turn (request : Request) (store : Store) : Phase → Turn → Option (Phase × Store)
  | .called, .read =>
      match request with
      | .get key => some (.read (store.raw key []), store)
      | .expire key _ =>
          if stored : store.raw key [] = [] then some (.returned 0 true false, store)
          else some (.found ⟨store.raw key [], stored⟩, store)
      | _ => none
  | .read raw, .clock now =>
      match request with
      | .get _ =>
          if past : isExpired raw now = true then some (.removing ⟨raw, now, past⟩, store)
          else some (.returned now true ((readEntry raw).read now).1, store)
      | _ => none
  | .found entry, .clock now => some (.computed entry now, store)
  | .called, .append append =>
      (request.command none).map fun cmd => (.appended none, store.log cmd append)
  | .computed entry now, .append append =>
      (request.command (some (entry, now))).map fun cmd =>
        (.appended (some (entry, now)), store.log cmd append)
  | .appended seen, .write written =>
      (request.command seen).map fun cmd =>
        (.returned (seen.elim 0 Prod.snd) written written,
          if written then store.write cmd else store)
  | .removing due, .write written =>
      match request with
      | .get key =>
          some (.returned due.now written false,
            if written then store.write (.del key) else store)
      | _ => none
  | _, _ => none

/-! ## A call alone -/

/-- The steps of one call, with nothing between them. -/
def Request.alone (request : Request) (s : Phase × Store) (turn : Turn) : Option (Phase × Store) :=
  request.turn s.2 s.1 turn

theorem alone_put (store : Store) (key value : Bytes) (append : Append) (written : Bool) :
    run (Request.put key value).alone (.called, store) [.append append, .write written] =
      some (.returned 0 written (store.put key value append written).1,
        (store.put key value append written).2) := rfl

theorem alone_remove (store : Store) (key : Bytes) (append : Append) (written : Bool) :
    run (Request.remove key).alone (.called, store) [.append append, .write written] =
      some (.returned 0 written (store.remove key append written).1,
        (store.remove key append written).2) := rfl

theorem alone_expire {store : Store} {key : Bytes} (stored : store.raw key [] ≠ [])
    (ts now : UInt64) (append : Append) (written : Bool) :
    run (Request.expire key ts).alone (.called, store)
        [.read, .clock now, .append append, .write written] =
      some (.returned now written (store.expire key ts now append written).1,
        (store.expire key ts now append written).2) := by
  have step : (Request.expire key ts).alone (.called, store) .read =
      some (.found ⟨store.raw key [], stored⟩, store) := dif_neg stored
  have same : store.expire key ts now append written =
      store.put key (textOf (store.raw key []) ++ tab :: decimal (now + ts).toNat) append
        written := if_neg stored
  rw [run_cons, step, same]
  rfl

theorem alone_expire_absent {store : Store} {key : Bytes} (absent : store.raw key [] = [])
    (ts now : UInt64) (append : Append) (written : Bool) :
    run (Request.expire key ts).alone (.called, store) [.read] =
      some (.returned 0 true (store.expire key ts now append written).1,
        (store.expire key ts now append written).2) := by
  have step : (Request.expire key ts).alone (.called, store) .read =
      some (.returned 0 true false, store) := dif_pos absent
  have same : store.expire key ts now append written = (false, store) := if_pos absent
  rw [run_cons, step, same]
  rfl

theorem alone_get {store : Store} {key : Bytes} {now : UInt64}
    (live : isExpired (store.raw key []) now = false) :
    run (Request.get key).alone (.called, store) [.read, .clock now] =
      some (.returned now true (store.get key [] now true).1, (store.get key [] now true).2.2) := by
  have step : (Request.get key).alone (.read (store.raw key []), store) (.clock now) =
      some (.returned now true ((readEntry (store.raw key [])).read now).1, store) :=
    dif_neg (by rw [live]; exact Bool.noConfusion)
  have first : (Request.get key).alone (.called, store) .read =
      some (.read (store.raw key []), store) := rfl
  rw [isExpired_eq] at live
  rw [run_cons, first, Option.bind_some, run_cons, step, get_eq, live]
  rfl

theorem alone_get_expired {store : Store} {key : Bytes} {now : UInt64}
    (past : isExpired (store.raw key []) now = true) (written : Bool) :
    run (Request.get key).alone (.called, store) [.read, .clock now, .write written] =
      some (.returned now written (store.get key [] now written).1,
        (store.get key [] now written).2.2) := by
  have first : (Request.get key).alone (.called, store) .read =
      some (.read (store.raw key []), store) := rfl
  have step : (Request.get key).alone (.read (store.raw key []), store) (.clock now) =
      some (.removing ⟨store.raw key [], now, past⟩, store) := dif_pos past
  have expired := past
  rw [isExpired_eq] at expired
  rw [run_cons, first, Option.bind_some, run_cons, step, get_written_eq, expired,
    Entry.read_of_expired expired]
  cases written <;> rfl

/-! ## Many calls -/

/-- The store, the clock, the calls in the order in which they started, and the cleaner: the part
of its snapshot that it has not come to, and the entry it is about to remove. -/
structure World where
  store : Store
  clock : UInt64
  calls : List (Request × Phase)
  todo : LevelDB
  removing : Option (Bytes × Due)

def World.start (db : LevelDB) : World := ⟨⟨db, []⟩, 0, [], ∅, none⟩

inductive Move
  | call (request : Request)
  /-- Call number `i` takes its next step. -/
  | turn (i : Nat) (turn : Turn)
  /-- The cleaner starts a pass. -/
  | snapshot
  /-- It comes to the entry of `key`. -/
  | check (key : Bytes) (now : UInt64)
  /-- It removes what it has found past its deadline. -/
  | clean (written : Bool)
  deriving DecidableEq

/-- What the clock shows behind a step. -/
def Turn.clockAfter (clock : UInt64) : Turn → UInt64
  | .clock now => now
  | _ => clock

def worldStep (s : World) : Move → Option World
  | .call request => some { s with calls := s.calls ++ [(request, .called)] }
  | .turn i turn =>
      match s.calls[i]? with
      | some (request, phase) =>
          if s.clock ≤ turn.clockAfter s.clock then
            (request.turn s.store phase turn).map fun next =>
              { s with
                store := next.2
                clock := turn.clockAfter s.clock
                calls := s.calls.set i (request, next.1) }
          else none
      | none => none
  | .snapshot =>
      if s.todo.entries = [] ∧ s.removing = none then some { s with todo := s.store.db } else none
  | .check key now =>
      match s.todo.lookup key with
      | some raw =>
          if s.clock ≤ now ∧ s.removing = none then
            some { s with
              clock := now
              todo := s.todo.erase key
              removing :=
                if past : isExpired raw now = true then some (key, ⟨raw, now, past⟩) else none }
          else none
      | none => none
  | .clean written =>
      match s.removing with
      | some (key, _) =>
          some { s with
            store := if written then s.store.write (.del key) else s.store
            removing := none }
      | none => none

/-! ## What one step can do -/

/-- The effects of a step of a call. -/
inductive Turned (request : Request) (store : Store) (phase : Phase) : Turn → Phase → Store → Prop
  /-- It reads, looks at the clock or appends. -/
  | goes {turn : Turn} {phase' : Phase} {store' : Store} (db : store'.db = store.db)
      (goesOn : ∀ now written ok, phase' ≠ .returned now written ok) :
      Turned request store phase turn phase' store'
  /-- `expire` finds nothing. -/
  | absent {key : Bytes} {ts : UInt64} (expire : request = .expire key ts)
      (none : store.raw key [] = []) :
      Turned request store phase .read (.returned 0 true false) store
  /-- `get` returns what it has read. -/
  | answers {key : Bytes} {now : UInt64} {ok : Bool} (get : request = .get key) :
      Turned request store phase (.clock now) (.returned now true ok) store
  | writes {seen : Option (Found × UInt64)} {cmd : Command} {written : Bool}
      (appended : phase = .appended seen) (command : request.command seen = some cmd) :
      Turned request store phase (.write written)
        (.returned (seen.elim 0 Prod.snd) written written)
        (if written then store.write cmd else store)
  | removes {key : Bytes} {due : Due} {written : Bool} (get : request = .get key)
      (removing : phase = .removing due) :
      Turned request store phase (.write written) (.returned due.now written false)
        (if written then store.write (.del key) else store)

theorem turn_cases {request : Request} {store store' : Store} {phase phase' : Phase} {turn : Turn}
    (taken : request.turn store phase turn = some (phase', store')) :
    Turned request store phase turn phase' store' := by
  cases phase with
  | called =>
      cases turn with
      | read =>
          cases request with
          | get key =>
              cases taken
              exact .goes rfl (by simp)
          | expire key ts =>
              rw [Request.turn] at taken
              split at taken
              · rename_i none
                cases taken
                exact .absent rfl none
              · cases taken
                exact .goes rfl (by simp)
          | put key value => cases taken
          | remove key => cases taken
      | append append =>
          obtain ⟨cmd, -, same⟩ := Option.map_eq_some_iff.mp taken
          cases same
          exact .goes (db_log _ _ _) (by simp)
      | clock now => cases taken
      | write written => cases taken
  | read raw =>
      cases turn with
      | clock now =>
          cases request with
          | get key =>
              rw [Request.turn] at taken
              split at taken
              · cases taken
                exact .goes rfl (by simp)
              · cases taken
                exact .answers rfl
          | put key value => cases taken
          | remove key => cases taken
          | expire key ts => cases taken
      | read => cases taken
      | append append => cases taken
      | write written => cases taken
  | found entry =>
      cases turn with
      | clock now =>
          cases taken
          exact .goes rfl (by simp)
      | read => cases taken
      | append append => cases taken
      | write written => cases taken
  | computed entry now =>
      cases turn with
      | append append =>
          obtain ⟨cmd, -, same⟩ := Option.map_eq_some_iff.mp taken
          cases same
          exact .goes (db_log _ _ _) (by simp)
      | read => cases taken
      | clock now => cases taken
      | write written => cases taken
  | appended seen =>
      cases turn with
      | write written =>
          obtain ⟨cmd, command, same⟩ := Option.map_eq_some_iff.mp taken
          cases same
          exact .writes rfl command
      | read => cases taken
      | clock now => cases taken
      | append append => cases taken
  | removing due =>
      cases turn with
      | write written =>
          cases request with
          | get key =>
              cases taken
              exact .removes rfl rfl
          | put key value => cases taken
          | remove key => cases taken
          | expire key ts => cases taken
      | read => cases taken
      | clock now => cases taken
      | append append => cases taken
  | returned now written ok => cases turn <;> cases taken

/-- A call that has returned takes no more steps. -/
theorem not_returned {request : Request} {store : Store} {phase : Phase} {turn : Turn}
    {next : Phase × Store} (taken : request.turn store phase turn = some next)
    (now : UInt64) (written ok : Bool) : phase ≠ .returned now written ok := by
  intro returned
  subst returned
  cases turn <;> cases taken

/-- A step of call `i` changes that call alone. -/
theorem worldStep_turn {s t : World} {i : Nat} {turn : Turn}
    (taken : worldStep s (.turn i turn) = some t) :
    ∃ request phase next, s.calls[i]? = some (request, phase) ∧
      request.turn s.store phase turn = some next ∧
      t = { s with
            store := next.2
            clock := turn.clockAfter s.clock
            calls := s.calls.set i (request, next.1) } := by
  simp only [worldStep] at taken
  split at taken
  · rename_i request phase there
    obtain ⟨-, step⟩ := Option.ite_none_right_eq_some.mp taken
    obtain ⟨next, step, same⟩ := Option.map_eq_some_iff.mp step
    exact ⟨request, phase, next, there, step, same.symm⟩
  · cases taken

end Blp.Core

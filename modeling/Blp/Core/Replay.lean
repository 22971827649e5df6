import Blp.Aof.Recover
import Blp.Core.Db
import Blp.Lib.Runs

/-!
# The log describes the store

The commands that the store logs, encoded, decoded and applied to an empty store, give a store
that may hold more: an entry whose deadline has passed is deleted by whoever meets it, and that is
not logged. No reader can tell.

* `Agree`: the same string, or none where the replayed one is past its deadline.
* `replay_agrees`: `get` and `ttl` return the same on both from the end of the run on.
-/

namespace Blp.Core

open CString Runs Framing Aof

/-! ## Runs against a clock -/

inductive Call
  | put (key value : Bytes) (append : Append)
  | remove (key : Bytes) (append : Append)
  | expire (key : Bytes) (ts now : UInt64) (append : Append)
  | get (key out : Bytes) (now : UInt64)
  | ttl (key : Bytes) (now : UInt64)
  /-- A pass that ends at the time `ended`. -/
  | ttlCleaner (now : Bytes → UInt64) (ended : UInt64)

/-- A store and the last reading of the clock. -/
structure Timed where
  store : Store
  now : UInt64

def Timed.start : Timed := ⟨Store.empty, 0⟩

/-- A call with its append accepted, its LevelDB operations successful and its readings of the
clock not before the last one. -/
def callStep (s : Timed) : Call → Option Timed
  | .put key value append =>
      if append.Accepted then some { s with store := (s.store.put key value append true).2 }
      else none
  | .remove key append =>
      if append.Accepted then some { s with store := (s.store.remove key append true).2 } else none
  | .expire key ts now append =>
      if append.Accepted ∧ s.now ≤ now then some ⟨(s.store.expire key ts now append true).2, now⟩
      else none
  | .get key out now =>
      if s.now ≤ now then some ⟨(s.store.get key out now true).2.2, now⟩ else none
  | .ttl _ now => if s.now ≤ now then some { s with now } else none
  | .ttlCleaner now ended =>
      if s.now ≤ ended ∧
          ∀ entry ∈ s.store.db.entries, s.now ≤ now entry.1 ∧ now entry.1 ≤ ended then
        some ⟨s.store.ttlCleaner now, ended⟩
      else none

/-! ## Replay -/

/-- What a command of the log does to a store. -/
def Store.apply (s : Store) : Command → Store
  | .set key value => (s.put key value ⟨true, true⟩ true).2
  | .del key => (s.remove key ⟨true, true⟩ true).2

theorem apply_db (s : Store) (cmd : Command) : (s.apply cmd).db = (s.write cmd).db := by
  cases cmd with
  | set key value => rfl
  | del key => rfl

/-- `SET k v` and `DEL k` as a list of parts; any other list is ignored. -/
def Command.ofParts : List Bytes → Option Command
  | [word, key, value] => if word = setWord then some (.set key value) else none
  | [word, key] => if word = delWord then some (.del key) else none
  | _ => none

theorem Command.ofParts_parts (cmd : Command) : Command.ofParts cmd.parts = some cmd := by
  cases cmd with
  | set key value => rfl
  | del key => rfl

/-- Decode a log and apply it to an empty store. -/
def replay (log : Bytes) : Store :=
  ((drain tryParseRESPArray log).frames.filterMap fun frame => Command.ofParts frame.1).foldl
    Store.apply Store.empty

/-- The bytes that the store's commands make in the log. -/
def Store.logBytes (s : Store) : Bytes := logOf (s.aof.map Command.parts)

theorem loggable_parts {cmds : List Command}
    (short : (logOf (cmds.map Command.parts)).length < 2 ^ 62) :
    Loggable (cmds.map Command.parts) where
  count := count_parts
  short := Nat.lt_trans short (by decide)

/-- Decoding undoes encoding. -/
theorem replay_logBytes {s : Store} (short : s.logBytes.length < 2 ^ 62) :
    replay s.logBytes = s.aof.foldl Store.apply Store.empty := by
  have ok := loggable_parts short
  have decoded := drain_log ok.parsable ok.short (List.prefix_refl _)
  rw [wholeCommands_logOf, List.take_length] at decoded
  rw [replay, Store.logBytes, decoded]
  congr 1
  simp [sized, List.filterMap_map, Function.comp_def, Command.ofParts_parts]

/-! ## The relation between the stores -/

/-- At the time `now`, a store and a replayed one: every key holds the same string, or none and in
the replayed one an entry past its deadline. -/
def Agree (now : UInt64) (db replayed : LevelDB) : Prop :=
  ∀ key, replayed.lookup key = db.lookup key ∨
    db.lookup key = none ∧
      ∃ raw, replayed.lookup key = some raw ∧ (readEntry raw).expired now = true

namespace Agree

variable {now later : UInt64} {db replayed : LevelDB}

theorem empty (now : UInt64) : Agree now ∅ ∅ := fun _ => Or.inl rfl

theorem mono (h : Agree now db replayed) (after : now ≤ later) : Agree later db replayed := by
  intro key
  rcases h key with same | ⟨gone, raw, found, expired⟩
  · exact Or.inl same
  · exact Or.inr ⟨gone, raw, found, Entry.expired_mono expired after⟩

theorem insert (h : Agree now db replayed) (key value : Bytes) :
    Agree now (db.insert key value) (replayed.insert key value) := by
  intro other
  by_cases same : other = key
  · subst same
    rw [AList.lookup_insert, AList.lookup_insert]
    exact Or.inl rfl
  · rw [AList.lookup_insert_ne same, AList.lookup_insert_ne same]
    exact h other

theorem erase (h : Agree now db replayed) (key : Bytes) :
    Agree now (db.erase key) (replayed.erase key) := by
  intro other
  by_cases same : other = key
  · subst same
    rw [AList.lookup_erase, AList.lookup_erase]
    exact Or.inl rfl
  · rw [AList.lookup_erase_ne same, AList.lookup_erase_ne same]
    exact h other

/-- Entries may go without a trace once their deadline has passed. -/
theorem forget (h : Agree now db replayed) {shrunk : LevelDB}
    (only : ∀ key, shrunk.lookup key = db.lookup key ∨
      shrunk.lookup key = none ∧
        ∀ raw, db.lookup key = some raw → (readEntry raw).expired now = true) :
    Agree now shrunk replayed := by
  intro key
  rcases only key with same | ⟨gone, expired⟩
  · rw [same]
    exact h key
  · rcases h key with same | old
    · cases found : db.lookup key with
      | none => exact Or.inl (by rw [same, found, gone])
      | some raw => exact Or.inr ⟨gone, raw, by rw [same, found], expired raw found⟩
    · exact Or.inr ⟨gone, old.2⟩

/-- **No reader can tell the stores apart.** -/
theorem read (h : Agree now db replayed) (key : Bytes) :
    (readEntry ((replayed.lookup key).getD [])).read now =
        (readEntry ((db.lookup key).getD [])).read now ∧
      (readEntry ((replayed.lookup key).getD [])).ttl now =
        (readEntry ((db.lookup key).getD [])).ttl now := by
  rcases h key with same | ⟨gone, raw, found, expired⟩
  · rw [same]
    exact ⟨rfl, rfl⟩
  · rw [found, gone, Option.getD_some, Option.getD_none, Entry.read_of_expired expired,
      Entry.ttl_of_expired expired]
    exact ⟨rfl, rfl⟩

end Agree

/-! ## Every call keeps the relation -/

/-- The store agrees with the replay of its commands. -/
def Replayable (s : Timed) : Prop :=
  Agree s.now s.store.db (s.store.aof.foldl Store.apply Store.empty).db

theorem Replayable.write {s : Timed} (h : Replayable s) {append : Append}
    (accepted : append.Accepted) (cmd : Command) :
    Replayable { s with store := (s.store.log cmd append).write cmd } := by
  have aof : ((s.store.log cmd append).write cmd).aof = s.store.aof ++ [cmd] := by
    rw [log_of_accepted accepted]
    cases cmd <;> rfl
  unfold Replayable
  dsimp only
  rw [aof, List.foldl_concat, apply_db]
  cases cmd with
  | set key value =>
      have inserted := h.insert key (storedValue value)
      simpa only [Store.write, db_log] using inserted
  | del key =>
      have erased := h.erase key
      simpa only [Store.write, db_log] using erased

theorem Replayable.put {s : Timed} (h : Replayable s) {append : Append}
    (accepted : append.Accepted) (key value : Bytes) :
    Replayable { s with store := (s.store.put key value append true).2 } :=
  h.write accepted (.set key value)

theorem Replayable.remove {s : Timed} (h : Replayable s) {append : Append}
    (accepted : append.Accepted) (key : Bytes) :
    Replayable { s with store := (s.store.remove key append true).2 } :=
  h.write accepted (.del key)

theorem Replayable.expire {s : Timed} (h : Replayable s) {append : Append}
    (accepted : append.Accepted) (key : Bytes) (ts now : UInt64) :
    Replayable { s with store := (s.store.expire key ts now append true).2 } := by
  unfold Store.expire
  dsimp only
  split
  · exact h
  · exact h.put accepted key _

theorem Replayable.get {s : Timed} (h : Replayable s) (key out : Bytes) :
    Replayable { s with store := (s.store.get key out s.now true).2.2 } := by
  rw [get_eq]
  dsimp only
  split
  · rename_i expired
    refine Agree.forget h fun other => ?_
    by_cases same : other = key
    · subst same
      refine Or.inr ⟨AList.lookup_erase _ _, fun raw found => ?_⟩
      rw [Store.raw, found, Option.getD_some] at expired
      exact expired
    · exact Or.inl (AList.lookup_erase_ne same)
  · exact h

theorem Replayable.ttlCleaner {s : Timed} (h : Replayable s) {now : Bytes → UInt64}
    (before : ∀ entry ∈ s.store.db.entries, now entry.1 ≤ s.now) :
    Replayable { s with store := s.store.ttlCleaner now } := by
  refine Agree.forget h fun key => ?_
  rw [lookup_ttlCleaner]
  refine (filter_cases _ _).imp_right fun removed => ⟨removed.1, fun raw found => ?_⟩
  have expired : (readEntry raw).expired (now key) = true := by
    simpa using removed.2 raw found
  exact Entry.expired_mono expired (before ⟨key, raw⟩ (AList.mem_lookup_iff.mp found))

theorem Replayable.step {s t : Timed} {call : Call} (h : Replayable s)
    (taken : callStep s call = some t) : Replayable t := by
  have at_ : ∀ {now : UInt64}, s.now ≤ now → Replayable { s with now } := fun after => h.mono after
  cases call with
  | put key value append =>
      obtain ⟨accepted, ⟨⟩⟩ := Option.ite_none_right_eq_some.mp taken
      exact h.put accepted key value
  | remove key append =>
      obtain ⟨accepted, ⟨⟩⟩ := Option.ite_none_right_eq_some.mp taken
      exact h.remove accepted key
  | expire key ts now append =>
      obtain ⟨⟨accepted, after⟩, ⟨⟩⟩ := Option.ite_none_right_eq_some.mp taken
      exact (at_ after).expire accepted key ts now
  | get key out now =>
      obtain ⟨after, ⟨⟩⟩ := Option.ite_none_right_eq_some.mp taken
      exact (at_ after).get key out
  | ttl key now =>
      obtain ⟨after, ⟨⟩⟩ := Option.ite_none_right_eq_some.mp taken
      exact at_ after
  | ttlCleaner now ended =>
      obtain ⟨⟨after, readings⟩, ⟨⟩⟩ := Option.ite_none_right_eq_some.mp taken
      exact (at_ after).ttlCleaner fun entry member => (readings entry member).2

/-- **The log describes the store**: from the end of a run on, `get` and `ttl` return the same on
the store that the decoded log makes. -/
theorem replay_agrees {calls : List Call} {t : Timed}
    (reached : run callStep Timed.start calls = some t)
    (short : t.store.logBytes.length < 2 ^ 62) {now : UInt64} (later : t.now ≤ now) (key : Bytes) :
    ((replay t.store.logBytes).get key [] now true).1 = (t.store.get key [] now true).1 ∧
      ((replay t.store.logBytes).get key [] now true).2.1 = (t.store.get key [] now true).2.1 ∧
      (replay t.store.logBytes).ttl key now = t.store.ttl key now := by
  have h : Replayable t :=
    run_induction (fun s call t h taken => h.step taken) reached (Agree.empty 0)
  have same := Agree.read (h.mono later) key
  have ret := congrArg Prod.fst same.1
  have value := congrArg Prod.snd same.1
  rw [replay_logBytes short, get_eq, get_eq, ttl_eq, ttl_eq]
  exact ⟨ret, value, same.2⟩

/-- A key with a deadline that a `get` finds passed: the store forgets it, the log does not. -/
def expiring : List Call :=
  [.put [107] [118] ⟨true, true⟩, .expire [107] 5 10 ⟨false, true⟩, .get [107] [] 15]

def expiringEnd : Timed := (run callStep Timed.start expiring).get (by decide)

theorem replay_agrees_expiring :
    ((replay expiringEnd.store.logBytes).get [107] [] 15 true).1 =
        (expiringEnd.store.get [107] [] 15 true).1 ∧
      ((replay expiringEnd.store.logBytes).get [107] [] 15 true).2.1 =
        (expiringEnd.store.get [107] [] 15 true).2.1 ∧
      (replay expiringEnd.store.logBytes).ttl [107] 15 = expiringEnd.store.ttl [107] 15 :=
  replay_agrees (Option.some_get _).symm (by decide) (by decide) [107]

example : expiringEnd.store.db.lookup [107] = none ∧
    (replay expiringEnd.store.logBytes).db.lookup [107] ≠ none := by decide

end Blp.Core

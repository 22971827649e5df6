import Blp.Core.Db
import Blp.Lib.Runs
import Blp.Lib.Slots

/-!
# Concurrent writers of the store

`put` and `remove` append to the log under one lock and write LevelDB under another; between the
two steps any number of other calls may take theirs.

* `log_describes_store`: in the runs in which no LevelDB write comes behind one of a call on the
  same key that appended later, the last command of every key in the log is what the store holds
  when all calls have returned.
* `set_overtaken`: two calls suffice for the opposite.
-/

namespace Blp.Core

open CString Runs Slots

/-! ## The two steps of a call -/

/-- `put` is its two steps one behind the other. -/
theorem put_eq_write_log (s : Store) (key value : Bytes) (append : Append) :
    (s.put key value append true).2 = (s.log (.set key value) append).write (.set key value) := rfl

theorem remove_eq_write_log (s : Store) (key : Bytes) (append : Append) :
    (s.remove key append true).2 = (s.log (.del key) append).write (.del key) := rfl

/-- A store with the calls that have appended to its log, in that order; the flag says whether a
call has written LevelDB and returned. -/
structure Shared where
  store : Store
  calls : List (Command × Bool)

def Shared.start (db : LevelDB) : Shared := ⟨⟨db, []⟩, []⟩

inductive CallStep
  /-- A new call takes its first step. -/
  | append (cmd : Command) (append : Append)
  /-- The call that appended as number `i` takes its second step and returns. -/
  | write (i : Nat)
  deriving DecidableEq

/-- A step of one call. An append that is accepted neither at once nor later is left out. -/
def sharedStep (s : Shared) : CallStep → Option Shared
  | .append cmd append =>
      if append.async || append.blocking then
        some ⟨s.store.log cmd append, s.calls ++ [(cmd, false)]⟩
      else none
  | .write i =>
      match s.calls[i]? with
      | some (cmd, false) => some ⟨s.store.write cmd, s.calls.set i (cmd, true)⟩
      | _ => none

/-- No call on the same key that appended later than the writing one has written already. -/
def InOrder (s : Shared) : CallStep → Prop
  | .append _ _ => True
  | .write i =>
      ∀ cmd ∈ (s.calls[i]?).map Prod.fst, ∀ later ∈ s.calls.drop (i + 1),
        later.2 = true → later.1.key ≠ cmd.key

instance (s : Shared) (a : CallStep) : Decidable (InOrder s a) :=
  match a with
  | .append _ _ => isTrue True.intro
  | .write i =>
      inferInstanceAs (Decidable (∀ cmd ∈ (s.calls[i]?).map Prod.fst,
        ∀ later ∈ s.calls.drop (i + 1), later.2 = true → later.1.key ≠ cmd.key))

/-! ## What a list of commands makes of a store -/

/-- The last command for a key. -/
def lastFor (key : Bytes) (cmds : List Command) : Option Command :=
  (cmds.filter fun cmd => cmd.key = key).getLast?

/-- A key holds what the last command for it says, or what it held before. -/
def Describes (db : LevelDB) (cmds : List Command) (now : LevelDB) : Prop :=
  ∀ key, now.lookup key = match lastFor key cmds with
    | some cmd => cmd.content
    | none => db.lookup key

/-- The commands of the calls that have written, in the order in which they appended. -/
def Shared.written (s : Shared) : List Command := (s.calls.filter Prod.snd).map Prod.fst

/-- The log in the order of acceptance, and the store as the calls that have written left it. -/
structure Settled (db : LevelDB) (s : Shared) : Prop where
  logged : s.store.aof = s.calls.map Prod.fst
  described : Describes db s.written s.store.db

theorem Settled.start (db : LevelDB) : Settled db (Shared.start db) := ⟨rfl, fun _ => rfl⟩

/-- A command that comes in with none for its key behind it. -/
theorem lastFor_insert {before after : List Command} {cmd : Command}
    (last : ∀ other ∈ after, other.key ≠ cmd.key) (key : Bytes) :
    lastFor key (before ++ cmd :: after) =
      if cmd.key = key then some cmd else lastFor key (before ++ after) := by
  unfold lastFor
  rw [List.filter_append, List.filter_append, List.filter_cons]
  by_cases same : cmd.key = key
  · subst same
    have none : (after.filter fun other => other.key = cmd.key) = [] := by
      rw [List.filter_eq_nil_iff]
      intro other member
      simpa using last other member
    simp [none]
  · simp [same]

theorem written_append (s : Shared) (cmd : Command) (store : Store) :
    Shared.written ⟨store, s.calls ++ [(cmd, false)]⟩ = s.written := by
  simp [Shared.written]

theorem Settled.step {db : LevelDB} {s t : Shared} {a : CallStep} (h : Settled db s)
    (ordered : InOrder s a) (taken : sharedStep s a = some t) : Settled db t := by
  cases a with
  | append cmd append =>
      obtain ⟨accepted, ⟨⟩⟩ := Option.ite_none_right_eq_some.mp taken
      refine ⟨?_, ?_⟩
      · have logged : (s.store.log cmd append).aof = s.store.aof ++ [cmd] := by
          rw [Bool.or_eq_true] at accepted
          unfold Store.log
          rcases accepted with async | blocking
          · rw [if_pos async]
          · rw [if_pos blocking, ite_self]
        rw [logged, h.logged, List.map_append]
        rfl
      · rw [Describes, written_append, db_log]
        exact h.described
  | write i =>
      simp only [sharedStep] at taken
      split at taken
      · rename_i cmd found
        cases taken
        have split := split_slot found
        have after : ∀ other ∈ ((s.calls.drop (i + 1)).filter Prod.snd).map Prod.fst,
            other.key ≠ cmd.key := by
          intro other member
          obtain ⟨later, kept, rfl⟩ := List.mem_map.mp member
          rcases List.mem_filter.mp kept with ⟨inside, done⟩
          exact ordered cmd (by rw [found]; rfl) later inside done
        have set := split_set found (cmd, true)
        refine ⟨?_, fun key => ?_⟩
        · have logged := h.logged
          rw [split] at logged
          rw [set, List.map_append, List.map_cons]
          rw [List.map_append, List.map_cons] at logged
          cases cmd <;> exact logged
        · have described := h.described key
          have before : s.written =
              ((s.calls.take i).filter Prod.snd).map Prod.fst ++
                ((s.calls.drop (i + 1)).filter Prod.snd).map Prod.fst := by
            unfold Shared.written
            conv_lhs => rw [split]
            rw [List.filter_append, List.filter_cons, List.map_append]
            rfl
          rw [before] at described
          rw [lookup_write, Shared.written, set, List.filter_append, List.filter_cons, if_pos rfl,
            List.map_append, List.map_cons, lastFor_insert after]
          split
          · rfl
          · exact described
      · cases taken

/-- **Log order is store order** in the runs in which no write comes behind one of a call on the
same key that appended later. -/
theorem log_describes_store {db : LevelDB} {acts : List CallStep} {t : Shared}
    (reached : run sharedStep (Shared.start db) acts = some t)
    (ordered : Along sharedStep InOrder (Shared.start db) acts)
    (returned : ∀ call ∈ t.calls, call.2 = true) : Describes db t.store.aof t.store.db := by
  have h := along_induction (I := Settled db) (fun _ _ _ keeps h taken => h.step keeps taken)
    reached ordered (Settled.start db)
  have all : t.written = t.store.aof := by
    rw [h.logged, Shared.written, List.filter_eq_self.mpr returned]
  rw [← all]
  exact h.described

/-- `DEL k` appends and writes while `SET k v` is between its two steps, on another key. -/
def sideBySide : List CallStep :=
  [.append (.set [107] [118]) ⟨true, true⟩, .append (.del [108]) ⟨true, true⟩, .write 1, .write 0]

def sideBySideEnd : Shared := (run sharedStep (Shared.start ∅) sideBySide).get (by decide)

theorem log_describes_sideBySide : Describes ∅ sideBySideEnd.store.aof sideBySideEnd.store.db :=
  log_describes_store (Option.some_get _).symm (by decide) (by decide)

/-- The same on one key. -/
def overtaking : List CallStep :=
  [.append (.set [107] [118]) ⟨true, true⟩, .append (.del [107]) ⟨true, true⟩, .write 1, .write 0]

/-- The log ends with `DEL k`, the store holds the value. -/
theorem set_overtaken :
    ∃ t, run sharedStep (Shared.start ∅) overtaking = some t ∧ (∀ call ∈ t.calls, call.2 = true) ∧
      ¬ Describes ∅ t.store.aof t.store.db := by
  refine ⟨(run sharedStep (Shared.start ∅) overtaking).get (by decide),
    (Option.some_get _).symm, by decide, fun described => ?_⟩
  exact absurd (described [107]) (by decide)

end Blp.Core

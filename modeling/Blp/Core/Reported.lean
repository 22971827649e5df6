import Blp.Core.Db
import Blp.Lib.Runs

/-!
# What `put` and `remove` report

Both append the command to the log, drop the results of the two attempts, and return the status of
the LevelDB write.

* `reported_iff`: a return value stands for both log and store, and the log holds exactly what was
  reported, if and only if LevelDB answers each call as the log did.
* `misreported`: a call with a stopped log and one with a failed write.
-/

namespace Blp.Core

open CString Runs

/-- A call of `put` or `remove` with the answers of the log and of LevelDB. -/
structure Update where
  cmd : Command
  append : Append
  written : Bool
  deriving DecidableEq

def Store.update (s : Store) (u : Update) : Bool × Store :=
  match u.cmd with
  | .set key value => s.put key value u.append u.written
  | .del key => s.remove key u.append u.written

/-- A store and the commands whose calls returned true. -/
structure Ledger where
  store : Store
  reported : List Command

def ledgerStep (s : Ledger) (u : Update) : Option Ledger :=
  some ⟨(s.store.update u).2,
    if (s.store.update u).1 then s.reported ++ [u.cmd] else s.reported⟩

/-- True is returned with the command in the log and in the store, false with neither. -/
def Truthful (s : Ledger) (u : Update) : Prop :=
  ((s.store.update u).1 = true →
    (s.store.update u).2 = ⟨(s.store.write u.cmd).db, s.store.aof ++ [u.cmd]⟩) ∧
  ((s.store.update u).1 = false → (s.store.update u).2 = s.store)

/-- LevelDB takes what the log took, and nothing else. -/
def Update.Matched (u : Update) : Prop := u.append.Accepted ↔ u.written = true

instance (u : Update) : Decidable u.Matched :=
  inferInstanceAs (Decidable (u.append.Accepted ↔ u.written = true))

theorem update_eq (s : Store) (u : Update) :
    s.update u = (u.written,
      if u.written then (s.log u.cmd u.append).write u.cmd else s.log u.cmd u.append) := by
  rcases u with ⟨cmd, append, written⟩
  cases cmd <;> rfl

theorem write_log_of_accepted {append : Append} (accepted : append.Accepted) (s : Store)
    (cmd : Command) : (s.log cmd append).write cmd = ⟨(s.write cmd).db, s.aof ++ [cmd]⟩ := by
  rw [log_of_accepted accepted]
  cases cmd <;> rfl

theorem aof_write (s : Store) (cmd : Command) : (s.write cmd).aof = s.aof := by
  cases cmd <;> rfl

theorem log_of_refused {append : Append} (refused : ¬ append.Accepted) (s : Store)
    (cmd : Command) : s.log cmd append = s := by
  rw [log_eq_self_iff]
  simpa only [Append.Accepted, not_or, Bool.not_eq_true] using refused

theorem truthful_iff (s : Ledger) (u : Update) : Truthful s u ↔ u.Matched := by
  rw [Truthful, update_eq, Update.Matched]
  cases written : u.written with
  | true =>
      simp only [if_true, true_implies, Bool.true_eq_false, false_implies, and_true, iff_true]
      by_cases accepted : u.append.Accepted
      · exact iff_of_true (write_log_of_accepted accepted s.store u.cmd) accepted
      · refine iff_of_false (fun same => ?_) accepted
        have longer := congrArg (fun s => s.aof.length) same
        rw [log_of_refused accepted] at longer
        simp [aof_write] at longer
  | false =>
      simp only [Bool.false_eq_true, if_false, false_implies, true_implies, true_and, iff_false]
      by_cases accepted : u.append.Accepted
      · refine iff_of_false (fun same => ?_) (not_not_intro accepted)
        have longer := congrArg (fun s => s.aof.length) same
        simp [log_of_accepted accepted] at longer
      · exact iff_of_true (log_of_refused accepted s.store u.cmd) accepted

theorem aof_of_truthful {s t : Ledger} {u : Update} {before : List Command}
    (truthful : Truthful s u) (log : s.store.aof = before ++ s.reported)
    (taken : ledgerStep s u = some t) : t.store.aof = before ++ t.reported := by
  cases taken
  dsimp only
  cases ok : (s.store.update u).1 with
  | true => rw [truthful.1 ok, if_pos rfl, ← List.append_assoc, ← log]
  | false => rw [truthful.2 ok, if_neg Bool.false_ne_true, log]

/-- **What a return value stands for.** In a run of calls each of them reports what it did, and the
log holds exactly the commands reported, in order, if and only if LevelDB takes each command that
the log took and no other. -/
theorem reported_iff (s : Store) (updates : List Update) :
    (Along ledgerStep Truthful ⟨s, []⟩ updates ∧
        ∀ t, run ledgerStep ⟨s, []⟩ updates = some t → t.store.aof = s.aof ++ t.reported) ↔
      ∀ u ∈ updates, u.Matched := by
  have each : Along ledgerStep Truthful ⟨s, []⟩ updates ↔
      Along ledgerStep (fun _ u => u.Matched) ⟨s, []⟩ updates :=
    along_congr (I := fun _ => True) (fun s u _ => truthful_iff s u)
      (fun _ _ _ _ _ _ => True.intro) True.intro
  constructor
  · intro kept
    exact forall_mem_of_along (fun _ _ => ⟨_, rfl⟩) (each.mp kept.1)
  · intro matched
    have along := each.mpr (along_of_forall_mem matched)
    refine ⟨along, fun t reached => ?_⟩
    exact along_induction (I := fun t => t.store.aof = s.aof ++ t.reported)
      (fun _ _ _ truthful log taken => aof_of_truthful truthful log taken) reached along
      (List.append_nil _).symm

/-- The log has stopped; LevelDB takes the value. -/
def unlogged : Update := ⟨.set [107] [118], ⟨false, false⟩, true⟩

/-- The log takes the command; the LevelDB write fails. -/
def unwritten : Update := ⟨.set [107] [118], ⟨true, true⟩, false⟩

/-- `put` returns true with nothing in the log, and false with its command there. -/
theorem misreported :
    (¬ Along ledgerStep Truthful ⟨Store.empty, []⟩ [unlogged] ∧
      ∃ t, run ledgerStep ⟨Store.empty, []⟩ [unlogged] = some t ∧
        t.reported = [unlogged.cmd] ∧ t.store.aof = []) ∧
    ¬ Along ledgerStep Truthful ⟨Store.empty, []⟩ [unwritten] ∧
      ∃ t, run ledgerStep ⟨Store.empty, []⟩ [unwritten] = some t ∧
        t.reported = [] ∧ t.store.aof = [unwritten.cmd] := by
  refine ⟨⟨fun along => ?_, _, rfl, rfl, rfl⟩, fun along => ?_, _, rfl, rfl, rfl⟩
  · exact absurd ((truthful_iff _ unlogged).mp along.1) (by decide)
  · exact absurd ((truthful_iff _ unwritten).mp along.1) (by decide)

end Blp.Core

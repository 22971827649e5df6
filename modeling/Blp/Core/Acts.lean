import Blp.Core.Db
import Blp.Lib.Runs

/-!
# Acts on the store

What happens to a `LevelDBWrapper` one thing after the other: its operations and the passes of its
cleaner, each with the clock and with the answers of the log and of LevelDB.

* `readEntry_timedValue`: `expire` writes through `put`, which puts a second `\t-1` behind the
  deadline; the readers stop at that tab.
* `lookup_put`, `lookup_remove`, `lookup_get`, `lookup_sweep`: what each leaves of every key.
-/

namespace Blp.Core

open CString Runs

/-- One pass of `ttl_cleaner` in which LevelDB answers `written key` to the removal of `key`. -/
def Store.sweep (s : Store) (now : Bytes → UInt64) (written : Bytes → Bool) : Store :=
  { s with
    db := s.db.entries.foldl
      (fun db entry =>
        if isExpired entry.2 (now entry.1) && written entry.1 then db.erase entry.1 else db) s.db }

theorem ttlCleaner_eq_sweep (s : Store) (now : Bytes → UInt64) :
    s.ttlCleaner now = s.sweep now fun _ => true := by
  simp only [Store.ttlCleaner, Store.sweep, Bool.and_true]

inductive Act
  | put (key value : Bytes) (append : Append) (written : Bool)
  | remove (key : Bytes) (append : Append) (written : Bool)
  /-- With an empty string in `*value`, as its caller has it. -/
  | get (key : Bytes) (now : UInt64) (written : Bool)
  | ttl (key : Bytes) (now : UInt64)
  | expire (key : Bytes) (ts now : UInt64) (append : Append) (written : Bool)
  | ttlCleaner (now : Bytes → UInt64) (written : Bytes → Bool)

/-- What the caller sees. -/
inductive Result
  | done (ok : Bool)
  | got (ok : Bool) (value : Bytes)
  | seconds (ttl : Int)
  /-- A pass of the cleaner has no caller. -/
  | swept
  deriving DecidableEq

def Store.exec (s : Store) : Act → Result × Store
  | .put key value append written =>
      (.done (s.put key value append written).1, (s.put key value append written).2)
  | .remove key append written =>
      (.done (s.remove key append written).1, (s.remove key append written).2)
  | .get key now written =>
      (.got (s.get key [] now written).1 (s.get key [] now written).2.1,
        (s.get key [] now written).2.2)
  | .ttl key now => (.seconds (s.ttl key now).toInt, s)
  | .expire key ts now append written =>
      (.done (s.expire key ts now append written).1, (s.expire key ts now append written).2)
  | .ttlCleaner now written => (.swept, s.sweep now written)

/-- A `uint64_t` returned as an `int64_t`. -/
theorem toInt_toInt64 (x : UInt64) :
    x.toInt64.toInt = if x.toNat < 2 ^ 63 then (x.toNat : Int) else x.toNat - 2 ^ 64 := by
  change x.toBitVec.toInt = _
  rw [BitVec.toInt_eq_toNat_cond]
  change (if 2 * x.toNat < 2 ^ 64 then (x.toNat : Int) else x.toNat - (2 ^ 64 : Nat)) = _
  have same : 2 * x.toNat < 2 ^ 64 ↔ x.toNat < 2 ^ 63 := by omega
  simp only [same]
  rfl

/-! ## What `expire` writes -/

/-- `actual_value + "\t" + std::to_string(expire_time)`, as `put` stores it. -/
def timedValue (value : Bytes) (deadline : UInt64) : Bytes :=
  storedValue (value ++ tab :: decimal deadline.toNat)

/-- What `expire` keeps of a stored string. -/
def textOf (raw : Bytes) : Bytes :=
  match findTab raw with
  | none => raw
  | some tabPos => raw.take tabPos

/-- The value of an entry that has been put or given a deadline. -/
def Entry.value : Entry → Option Bytes
  | .forever value => some value
  | .timed value _ => some value
  | _ => none

theorem storedValue_ne_nil (value : Bytes) : storedValue value ≠ [] := by simp [storedValue]

theorem timedValue_eq (value : Bytes) (deadline : UInt64) :
    timedValue value deadline = value ++ tab :: (decimal deadline.toNat ++ [tab, 45, 49]) := by
  simp [timedValue, storedValue]

theorem textOf_append {value : Bytes} (clean : tab ∉ value) (rest : Bytes) :
    textOf (value ++ tab :: rest) = value := by
  rw [textOf, findTab_of_notMem clean]
  exact List.take_left

theorem textOf_storedValue {value : Bytes} (clean : tab ∉ value) :
    textOf (storedValue value) = value := textOf_append clean _

theorem textOf_timedValue {value : Bytes} (clean : tab ∉ value) (deadline : UInt64) :
    textOf (timedValue value deadline) = value := by
  rw [timedValue_eq, textOf_append clean]

/-- The conversion of the deadline stops at the second tab. -/
theorem readEntry_timedValue {value : Bytes} (clean : tab ∉ value) (deadline : UInt64) :
    readEntry (timedValue value deadline) =
      if deadline = noExpiry then .forever value else .timed value deadline := by
  have behind : (value ++ tab :: (decimal deadline.toNat ++ [tab, 45, 49])).drop
      (value.length + 1) = decimal deadline.toNat ++ [tab, 45, 49] := by
    rw [← List.drop_drop, List.drop_left, List.drop_one, List.tail_cons]
  have stop : ∀ b ∈ [tab, 45, 49].head?, isDigit b = false := by
    intro b first
    cases first
    rfl
  have conv : stoull (decimal deadline.toNat ++ [tab, 45, 49]) = .ok deadline := by
    rw [stoull_decimal_append deadline.toNat_lt stop, UInt64.ofNat_toNat]
  rw [readEntry, timedValue_eq, findTab_of_notMem clean]
  dsimp only
  rw [behind, conv, List.take_left]

theorem expire_of_none {s : Store} {key : Bytes} (absent : s.db.lookup key = none)
    (ts now : UInt64) (append : Append) (written : Bool) :
    s.expire key ts now append written = (false, s) := by
  rw [Store.expire, absent]
  exact if_pos rfl

/-- `expire` on a stored entry, whether its deadline has passed or not. -/
theorem expire_of_some {s : Store} {key raw : Bytes} (found : s.db.lookup key = some raw)
    (some : raw ≠ []) (ts now : UInt64) (append : Append) (written : Bool) :
    s.expire key ts now append written =
      s.put key (textOf raw ++ tab :: decimal (now + ts).toNat) append written := by
  rw [Store.expire, found]
  exact if_neg some

/-! ## What is left of a key -/

/-- `get` and the cleaner remove an entry only past its deadline. -/
theorem filter_expired_cases (here : Option Bytes) (now : UInt64) (written : Bool) :
    (here.filter fun raw => !((readEntry raw).expired now && written)) = here ∨
      (here.filter fun raw => !((readEntry raw).expired now && written)) = none ∧
        ∀ raw ∈ here, (readEntry raw).expired now = true := by
  refine (filter_cases _ here).imp_right fun removed => ⟨removed.1, fun raw found => ?_⟩
  have both := removed.2 raw found
  rw [Bool.not_eq_false', Bool.and_eq_true] at both
  exact both.1

theorem lookup_put (s : Store) (key value : Bytes) (append : Append) (written : Bool)
    (other : Bytes) :
    (s.put key value append written).2.db.lookup other =
      if other = key ∧ written then some (storedValue value) else s.db.lookup other := by
  unfold Store.put
  cases written with
  | false => simp
  | true =>
      by_cases same : other = key
      · subst same
        simp [Store.write, AList.lookup_insert]
      · simp [Store.write, same, AList.lookup_insert_ne same]

theorem lookup_remove (s : Store) (key : Bytes) (append : Append) (written : Bool)
    (other : Bytes) :
    (s.remove key append written).2.db.lookup other =
      if other = key ∧ written then none else s.db.lookup other := by
  unfold Store.remove
  cases written with
  | false => simp
  | true =>
      by_cases same : other = key
      · subst same
        simp [Store.write, AList.lookup_erase]
      · simp [Store.write, same, AList.lookup_erase_ne same]

theorem lookup_get (s : Store) (key : Bytes) (now : UInt64) (written : Bool) (other : Bytes) :
    (s.get key [] now written).2.2.db.lookup other =
      if other = key then
        (s.db.lookup key).filter fun raw => !((readEntry raw).expired now && written)
      else s.db.lookup other := by
  rw [get_written_eq, Store.raw]
  dsimp only
  by_cases same : other = key
  · subst same
    rw [if_pos rfl]
    cases found : s.db.lookup other with
    | none =>
        have bare : (readEntry []).expired now = false := rfl
        simp [found, bare]
    | some raw =>
        rw [Option.getD_some, Option.filter_some]
        cases expired : (readEntry raw).expired now <;> cases written <;>
          simp [found, AList.lookup_erase]
  · rw [if_neg same]
    split
    · exact AList.lookup_erase_ne same
    · rfl

theorem lookup_sweep (s : Store) (now : Bytes → UInt64) (written : Bytes → Bool) (key : Bytes) :
    (s.sweep now written).db.lookup key =
      (s.db.lookup key).filter fun raw =>
        !((readEntry raw).expired (now key) && written key) := by
  simp only [Store.sweep, ← isExpired_eq]
  exact lookup_foldl_entries (fun key raw => isExpired raw (now key) && written key) s.db key

end Blp.Core

import Blp.Core.Db
import Blp.Lib.Runs
import Mathlib.Logic.Function.Basic

/-!
# Reading what was written

Sequences of `put`, `get` and `remove` and passes of the cleaner, without `expire`.

* `reads_your_writes_iff`: every `get` returns what was put last, and nothing that was put
  disappears, exactly in the sequences that meet no value with a tab where a reader looks for the
  expiry.
-/

namespace Blp.Core

open CString Runs

inductive Op
  | put (key value : Bytes) (append : Append)
  | remove (key : Bytes) (append : Append)
  | get (key out : Bytes) (now : UInt64)
  | ttlCleaner (now : Bytes → UInt64)

/-- A store and, for every key, the value put last and not removed since. -/
structure Traced where
  store : Store
  last : Bytes → Option Bytes

def Traced.start : Traced := ⟨Store.empty, fun _ => none⟩

/-- An operation whose LevelDB calls succeed. -/
def Traced.exec (s : Traced) : Op → Traced
  | .put key value append =>
      ⟨(s.store.put key value append true).2, Function.update s.last key (some value)⟩
  | .remove key append =>
      ⟨(s.store.remove key append true).2, Function.update s.last key none⟩
  | .get key out now => ⟨(s.store.get key out now true).2.2, s.last⟩
  | .ttlCleaner now => ⟨s.store.ttlCleaner now, s.last⟩

def opStep (s : Traced) (op : Op) : Option Traced := some (s.exec op)

/-! ## What the operations should and when they do -/

/-- No key that was put and not removed is gone behind the operation. -/
def Keeps (s : Traced) (op : Op) : Prop :=
  ∀ key, s.last key ≠ none → (s.exec op).store.db.lookup key ≠ none

/-- `get` returns what was put last, false if there is nothing, and neither `get` nor the cleaner
loses a key. -/
def Honest (s : Traced) : Op → Prop
  | .get key out now =>
      (match s.last key with
        | some value =>
            (s.store.get key out now true).1 = true ∧ (s.store.get key out now true).2.1 = value
        | none => (s.store.get key out now true).1 = false) ∧
      Keeps s (.get key out now)
  | .ttlCleaner now => Keeps s (.ttlCleaner now)
  | _ => True

/-- `get` is called on a key whose value has no tab, or on an absent key with nothing in the
caller's string that reads as an entry, and the cleaner meets no value with a tab and a passed
deadline behind it. -/
def TabFree (s : Traced) : Op → Prop
  | .get key out now =>
      match s.last key with
      | some value => tab ∉ value
      | none => ((readEntry out).read now).1 = false
  | .ttlCleaner now =>
      ∀ key value, s.last key = some value →
        (readEntry (storedValue value)).expired (now key) = false
  | _ => True

/-- Every key holds what was put last. -/
def Stored (s : Traced) : Prop :=
  ∀ key, s.store.db.lookup key = (s.last key).map storedValue

theorem Stored.start : Stored Traced.start := fun key => AList.lookup_empty key

theorem Stored.put {s : Traced} (h : Stored s) (key value : Bytes) (append : Append) :
    Stored (s.exec (.put key value append)) := by
  intro other
  simp only [Traced.exec, Store.put, Store.write, if_true, db_log]
  by_cases same : other = key
  · subst same
    rw [AList.lookup_insert, Function.update_self, Option.map_some]
  · rw [AList.lookup_insert_ne same, Function.update_of_ne same]
    exact h other

theorem Stored.remove {s : Traced} (h : Stored s) (key : Bytes) (append : Append) :
    Stored (s.exec (.remove key append)) := by
  intro other
  simp only [Traced.exec, Store.remove, Store.write, if_true, db_log]
  by_cases same : other = key
  · subst same
    rw [AList.lookup_erase, Function.update_self, Option.map_none]
  · rw [AList.lookup_erase_ne same, Function.update_of_ne same]
    exact h other

theorem Stored.raw_of_some {s : Traced} (h : Stored s) {key value : Bytes}
    (last : s.last key = some value) (out : Bytes) : s.store.raw key out = storedValue value := by
  rw [Store.raw, h key, last, Option.map_some, Option.getD_some]

theorem Stored.raw_of_none {s : Traced} (h : Stored s) {key : Bytes} (last : s.last key = none)
    (out : Bytes) : s.store.raw key out = out := by
  rw [Store.raw, h key, last, Option.map_none, Option.getD_none]

/-- A `get` that the condition allows leaves the store as it is. -/
theorem Stored.get {s : Traced} (h : Stored s) {key out : Bytes} {now : UInt64}
    (clean : TabFree s (.get key out now)) : Stored (s.exec (.get key out now)) := by
  intro other
  rw [Traced.exec, get_eq]
  dsimp only
  split
  · rename_i expired
    cases last : s.last key with
    | some value =>
        simp only [TabFree, last] at clean
        rw [h.raw_of_some last, readEntry_storedValue clean] at expired
        cases expired
    | none =>
        by_cases same : other = key
        · subst same
          rw [AList.lookup_erase, last, Option.map_none]
        · rw [AList.lookup_erase_ne same]
          exact h other
  · exact h other

theorem Stored.ttlCleaner {s : Traced} (h : Stored s) {now : Bytes → UInt64}
    (clean : TabFree s (.ttlCleaner now)) : Stored (s.exec (.ttlCleaner now)) := by
  intro key
  rw [Traced.exec, lookup_ttlCleaner, h key]
  cases last : s.last key with
  | none => rfl
  | some value =>
      rw [Option.map_some, Option.filter_some, clean key value last]
      rfl

theorem Stored.exec {s : Traced} (h : Stored s) {op : Op} (clean : TabFree s op) :
    Stored (s.exec op) := by
  cases op with
  | put key value append => exact h.put key value append
  | remove key append => exact h.remove key append
  | get key out now => exact h.get clean
  | ttlCleaner now => exact h.ttlCleaner clean

theorem Stored.keeps {s : Traced} {op : Op} (h : Stored (s.exec op))
    (same : (s.exec op).last = s.last) : Keeps s op := by
  intro key put
  rw [h key, same]
  exact fun none => put (Option.map_eq_none_iff.mp none)

/-- In a store that holds what was put, one operation does what it should exactly under the
condition. -/
theorem honest_iff {s : Traced} (h : Stored s) (op : Op) : Honest s op ↔ TabFree s op := by
  cases op with
  | put key value append => exact Iff.rfl
  | remove key append => exact Iff.rfl
  | get key out now =>
      constructor
      · intro honest
        rcases honest with ⟨read, -⟩
        cases last : s.last key with
        | none =>
            simp only [last, get_eq, h.raw_of_none last] at read
            simp only [TabFree, last, read]
        | some value =>
            simp only [last, get_eq, h.raw_of_some last] at read
            simp only [TabFree, last]
            intro dirty
            exact read_storedValue_ne dirty now (Prod.ext read.1 read.2)
      · intro clean
        refine ⟨?_, (h.get clean).keeps rfl⟩
        cases last : s.last key with
        | none =>
            simp only [TabFree, last] at clean
            simp only [get_eq, h.raw_of_none last, clean]
        | some value =>
            simp only [TabFree, last] at clean
            simp only [get_eq, h.raw_of_some last, readEntry_storedValue clean, Entry.read,
              and_self]
  | ttlCleaner now =>
      constructor
      · intro keeps key value last
        have found := keeps key (by rw [last]; exact Option.some_ne_none value)
        rw [Traced.exec, lookup_ttlCleaner, h key, last, Option.map_some,
          Option.filter_some] at found
        cases expired : (readEntry (storedValue value)).expired (now key) with
        | false => rfl
        | true =>
            rw [expired] at found
            exact (found rfl).elim
      · exact fun clean => (h.ttlCleaner clean).keeps rfl

/-- **When one reads what one wrote.** -/
theorem reads_your_writes_iff (ops : List Op) :
    Along opStep Honest Traced.start ops ↔ Along opStep TabFree Traced.start ops := by
  refine along_congr (fun s op h => honest_iff h op) (fun s op t honest h taken => ?_) Stored.start
  cases taken
  exact h.exec ((honest_iff h op).mp honest)

/-- `put` of a value with a tab, then `get`. -/
def putTab : List Op :=
  [.put [107] [97, tab, 98] ⟨true, true⟩, .get [107] [] 0]

/-- The value is there and `get` returns false. -/
theorem get_false_behind_putTab : ¬ Along opStep Honest Traced.start putTab := by
  intro along
  have read := (along.2 _ rfl).1.1
  exact absurd read.1 (by decide)

end Blp.Core

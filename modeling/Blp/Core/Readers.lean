import Blp.Core.Acts

/-!
# The three readers of an entry

`get`, `ttl` and the cleaner take a stored string apart each on its own. They differ where the text
behind the first tab is no number, and where a deadline is so far away that the seconds left do not
fit into an `int64_t`.

* `readers_agree_iff`: in every store that the operations can produce they agree exactly elsewhere.
* `readers_differ`, `far_deadline`: a store of each kind.
-/

namespace Blp.Core

open CString

/-- The store behind an act. -/
def Store.after (s : Store) (act : Act) : Store := (s.exec act).2

/-! ## What should hold and when it does -/

/-- A pass of the cleaner at the time `now` removes the key. -/
def Store.Cleans (s : Store) (key : Bytes) (now : UInt64) : Prop :=
  s.db.lookup key ≠ none ∧ (s.ttlCleaner fun _ => now).db.lookup key = none

/-- `get` succeeds exactly when `ttl` is not -2, `ttl` is never below that, and the cleaner removes
exactly what is stored and fails to be read. -/
structure ReadersAgree (s : Store) (key : Bytes) (now : UInt64) : Prop where
  ttl_ne : (s.get key [] now true).1 = true ↔ s.ttl key now ≠ -2
  le_ttl : -2 ≤ s.ttl key now
  cleans : s.Cleans key now ↔ s.db.lookup key ≠ none ∧ (s.get key [] now true).1 = false

/-- Behind the first tab of what is stored stands a number, and unless it says "never" or has
passed it is less than `2 ^ 63` seconds away. -/
def Store.Readable (s : Store) (key : Bytes) (now : UInt64) : Prop :=
  ∀ raw ∈ s.db.lookup key, ∀ tabPos ∈ findTab raw,
    ∃ expireTime, stoull (raw.drop (tabPos + 1)) = .ok expireTime ∧
      (expireTime = noExpiry ∨ expireTime ≤ now ∨ (expireTime - now).toNat < 2 ^ 63)

/-! ## One entry -/

/-- The same for an entry. -/
def Entry.Agrees (e : Entry) (now : UInt64) : Prop :=
  ((e.read now).1 = true ↔ e.ttl now ≠ -2) ∧ -2 ≤ e.ttl now ∧
    (e.expired now = true ↔ (e.read now).1 = false)

theorem Entry.not_agrees_unreadable (raw : Bytes) (now : UInt64) :
    ¬ (Entry.unreadable raw).Agrees now := by
  intro agrees
  have read := agrees.1.mpr (by decide : (-1 : Int64) ≠ -2)
  cases read

theorem Entry.agrees_forever (value : Bytes) (now : UInt64) :
    (Entry.forever value).Agrees now :=
  ⟨iff_of_true rfl (by decide : (-1 : Int64) ≠ -2), (by decide : (-2 : Int64) ≤ -1),
    iff_of_false Bool.noConfusion Bool.noConfusion⟩

/-- The seconds left, as an `int64_t`, are below -2 or equal to it once they do not fit. -/
theorem Entry.agrees_timed (value : Bytes) {deadline : UInt64} (number : deadline ≠ noExpiry)
    (now : UInt64) :
    (Entry.timed value deadline).Agrees now ↔
      deadline ≤ now ∨ (deadline - now).toNat < 2 ^ 63 := by
  unfold Entry.Agrees Entry.read Entry.ttl Entry.expired
  by_cases due : deadline ≤ now
  · simp [due]
  · have ahead : now ≤ deadline := (UInt64.le_total deadline now).resolve_left due
    have left := UInt64.toNat_sub_of_le _ _ ahead
    have small : deadline.toNat ≠ 2 ^ 64 - 1 := fun same => number (UInt64.toNat_inj.mp same)
    have bound := deadline.toNat_lt
    have seconds := toInt_toInt64 (deadline - now)
    have two : (-2 : Int64).toInt = -2 := rfl
    simp only [due, if_false, decide_false, false_or, true_iff, ne_eq, Bool.true_eq_false,
      iff_self, and_true, Bool.false_eq_true, ← Int64.toInt_inj, Int64.le_iff_toInt_le, seconds,
      two, left]
    split
    · rename_i close
      exact iff_of_true (by omega) close
    · rename_i far
      exact iff_of_false (by omega) far

/-! ## Every store -/

/-- Every stored string has a tab. -/
def Tabbed (s : Store) : Prop := ∀ key, ∀ raw ∈ s.db.lookup key, findTab raw ≠ none

theorem findTab_storedValue (value : Bytes) : findTab (storedValue value) ≠ none := by
  by_cases dirty : tab ∈ value
  · obtain ⟨tabPos, -, found⟩ := findTab_of_mem dirty [tab, 45, 49]
    rw [storedValue, found]
    exact Option.some_ne_none _
  · rw [storedValue, findTab_of_notMem dirty]
    exact Option.some_ne_none _

theorem Tabbed.put {s : Store} (h : Tabbed s) (key value : Bytes) (append : Append)
    (written : Bool) : Tabbed (s.put key value append written).2 := by
  intro other raw found
  rw [lookup_put] at found
  split at found
  · cases found
    exact findTab_storedValue value
  · exact h other raw found

theorem Tabbed.after {s : Store} (h : Tabbed s) (act : Act) : Tabbed (s.after act) := by
  cases act with
  | put key value append written => exact h.put key value append written
  | remove key append written =>
      intro other raw found
      rw [Store.after, Store.exec, lookup_remove] at found
      split at found
      · cases found
      · exact h other raw found
  | get key now written =>
      intro other raw found
      rw [Store.after, Store.exec, lookup_get] at found
      split at found
      · exact h key raw (Option.filter_eq_some_iff.mp found).1
      · exact h other raw found
  | ttl key now => exact h
  | expire key ts now append written =>
      unfold Store.after Store.exec Store.expire
      dsimp only
      split
      · exact h
      · exact h.put key _ append written
  | ttlCleaner now written =>
      intro key raw found
      rw [Store.after, Store.exec, lookup_sweep] at found
      exact h key raw (Option.filter_eq_some_iff.mp found).1

theorem Tabbed.reached (acts : List Act) : Tabbed (acts.foldl Store.after Store.empty) := by
  have start : Tabbed Store.empty := by
    intro key raw found
    rw [Store.empty, AList.lookup_empty] at found
    cases found
  induction acts using List.reverseRecOn with
  | nil => exact start
  | append_singleton acts act ih =>
      rw [List.foldl_append]
      exact ih.after act

/-- The three readers of a stored string agree when they agree on its entry. -/
theorem readersAgree_iff {s : Store} {key raw : Bytes} (found : s.db.lookup key = some raw)
    (now : UInt64) : ReadersAgree s key now ↔ (readEntry raw).Agrees now := by
  have get : (s.get key [] now true).1 = ((readEntry raw).read now).1 := by
    rw [get_eq, Store.raw, found, Option.getD_some]
  have ttl : s.ttl key now = (readEntry raw).ttl now := by
    rw [ttl_eq, Store.raw, found, Option.getD_some]
  have cleans : s.Cleans key now ↔ (readEntry raw).expired now = true := by
    rw [Store.Cleans, lookup_ttlCleaner, found, Option.filter_some]
    cases (readEntry raw).expired now <;> simp
  have stored : s.db.lookup key ≠ none := by
    rw [found]
    exact Option.some_ne_none raw
  constructor
  · intro agree
    rcases agree with ⟨ttl_ne, le_ttl, removes⟩
    rw [get, ttl] at ttl_ne
    rw [ttl] at le_ttl
    rw [cleans, get, and_iff_right stored] at removes
    exact ⟨ttl_ne, le_ttl, removes⟩
  · intro agrees
    rcases agrees with ⟨ttl_ne, le_ttl, removes⟩
    refine ⟨?_, ?_, ?_⟩
    · rw [get, ttl]
      exact ttl_ne
    · rw [ttl]
      exact le_ttl
    · rw [cleans, get, and_iff_right stored]
      exact removes

/-- **When the readers agree**, in every store that comes about by the operations and the
cleaner. -/
theorem readers_agree_iff (acts : List Act) (key : Bytes) (now : UInt64) :
    ReadersAgree (acts.foldl Store.after Store.empty) key now ↔
      (acts.foldl Store.after Store.empty).Readable key now := by
  have tabbed := Tabbed.reached acts
  generalize acts.foldl Store.after Store.empty = s at tabbed ⊢
  cases found : s.db.lookup key with
  | none =>
      refine iff_of_true ⟨?_, ?_, ?_⟩ ?_
      · rw [get_eq, ttl_eq, Store.raw, found]
        exact iff_of_false Bool.noConfusion fun differ => differ rfl
      · rw [ttl_eq, Store.raw, found]
        exact (by decide : (-2 : Int64) ≤ -2)
      · rw [Store.Cleans, found]
        exact iff_of_false (fun h => h.1 rfl) fun h => h.1 rfl
      · intro raw member
        rw [found] at member
        cases member
  | some raw =>
      rw [readersAgree_iff found, Store.Readable, found]
      simp only [Option.mem_some_iff, forall_eq']
      rcases readEntry_cases raw with
        ⟨none, -⟩ | ⟨tabPos, tabbed', ⟨e, conv, entry⟩ | ⟨t, conv, entry⟩⟩
      · exact (tabbed key raw found none).elim
      · simp [tabbed', conv, entry, Entry.not_agrees_unreadable]
      · rw [entry, tabbed']
        simp only [Option.mem_some_iff, forall_eq', conv, Except.ok.injEq, exists_eq_left']
        split
        · rename_i never
          exact iff_of_true (Entry.agrees_forever _ now) (Or.inl never)
        · rename_i number
          rw [Entry.agrees_timed _ number, or_iff_right number]

/-- `put` of a value with a tab and no number behind it. -/
def tabbedPut : List Act := [.put [107] [97, tab, 98] ⟨true, true⟩ true]

/-- `get` fails and `ttl` says -1. -/
theorem readers_differ : ¬ ReadersAgree (tabbedPut.foldl Store.after Store.empty) [107] 0 := by
  intro agree
  have read := agree.ttl_ne.mpr (by decide)
  exact absurd read (by decide)

/-- `expire` with so many seconds that `ttl` falls below -2. -/
def farExpire : List Act :=
  [.put [107] [118] ⟨true, true⟩ true,
    .expire [107] (UInt64.ofNat (2 ^ 63)) 0 ⟨true, true⟩ true]

theorem far_deadline : ¬ ReadersAgree (farExpire.foldl Store.after Store.empty) [107] 0 := by
  intro agree
  exact absurd agree.le_ttl (by decide)

end Blp.Core

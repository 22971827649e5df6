import Blp.Core.Acts
import Mathlib.Logic.Function.Basic

/-!
# The store against its reference

The store as its users think of it is a map from keys to a value and perhaps a deadline, without
strings, tabs, removals at reading and cleaner passes.

* `Holds` relates an entry of the reference to what LevelDB has under the key.
* `refines_reference`: in every sequence of acts within the domain all results are those of the
  reference, and of successive `expire` calls the last counts.
-/

namespace Blp.Core

open CString Runs

/-! ## The reference -/

/-- A value and perhaps a deadline under every key. -/
abbrev Reference := Bytes → Option (Bytes × Option Nat)

def Reference.empty : Reference := fun _ => none

/-- An entry whose deadline is not after `now` is absent. -/
def liveAt (now : Nat) (entry : Option (Bytes × Option Nat)) : Option (Bytes × Option Nat) :=
  entry.filter fun e => e.2.all fun deadline => now < deadline

def Reference.exec (r : Reference) : Act → Result × Reference
  | .put key value _ _ => (.done true, Function.update r key (some (value, none)))
  | .remove key _ _ => (.done true, Function.update r key none)
  | .get key now _ =>
      match liveAt now.toNat (r key) with
      | none => (.got false [], r)
      | some (value, _) => (.got true value, r)
  | .ttl key now =>
      match liveAt now.toNat (r key) with
      | none => (.seconds (-2), r)
      | some (_, none) => (.seconds (-1), r)
      | some (_, some deadline) => (.seconds (deadline - now.toNat), r)
  | .expire key ts now _ _ =>
      match liveAt now.toNat (r key) with
      | none => (.done false, r)
      | some (value, _) =>
          (.done true, Function.update r key (some (value, some (now.toNat + ts.toNat))))
  | .ttlCleaner _ _ => (.swept, r)

/-- The results of one act after the other. -/
def results {σ : Type} (exec : σ → Act → Result × σ) : σ → List Act → List Result
  | _, [] => []
  | s, act :: acts => (exec s act).1 :: results exec (exec s act).2 acts

/-! ## The domain -/

/-- The store and the reference behind the same acts, and the last reading of the clock. -/
structure Paired where
  store : Store
  reference : Reference
  clock : Nat

def Paired.start : Paired := ⟨Store.empty, Reference.empty, 0⟩

/-- What the clock has shown behind an act; a pass of the cleaner reads it at every entry. -/
def tick (s : Store) (clock : Nat) : Act → Nat
  | .get _ now _ => now.toNat
  | .ttl _ now => now.toNat
  | .expire _ _ now _ _ => now.toNat
  | .ttlCleaner now _ => (s.db.entries.map fun entry => (now entry.1).toNat).foldr max clock
  | _ => clock

def Paired.exec (s : Paired) (act : Act) : Paired :=
  ⟨(s.store.exec act).2, (s.reference.exec act).2, tick s.store s.clock act⟩

def pairStep (s : Paired) (act : Act) : Option Paired := some (s.exec act)

/-- The clock does not run backwards and stays below `2 ^ 63`. -/
def InTime (clock : Nat) (now : UInt64) : Prop := clock ≤ now.toNat ∧ now.toNat < 2 ^ 63

/-- Values have no tab, LevelDB writes what it is given, and `expire` is called with a signed
number of seconds on a key that is absent or not past its deadline. -/
def InDomain (s : Paired) : Act → Prop
  | .put _ value _ written => tab ∉ value ∧ written = true
  | .remove _ _ written => written = true
  | .get _ now _ => InTime s.clock now
  | .ttl _ now => InTime s.clock now
  | .expire key ts now _ written =>
      InTime s.clock now ∧ ts.toNat < 2 ^ 63 ∧ written = true ∧
        (s.store.db.lookup key = none ∨
          ∀ e ∈ s.reference key, ∀ deadline ∈ e.2, now.toNat < deadline)
  | .ttlCleaner now _ => ∀ entry ∈ s.store.db.entries, InTime s.clock (now entry.1)

instance (clock : Nat) (now : UInt64) : Decidable (InTime clock now) :=
  inferInstanceAs (Decidable (_ ∧ _))

instance (s : Paired) (act : Act) : Decidable (InDomain s act) :=
  match act with
  | .put _ _ _ _ => inferInstanceAs (Decidable (_ ∧ _))
  | .remove _ _ written => inferInstanceAs (Decidable (written = true))
  | .get _ now _ => inferInstanceAs (Decidable (InTime s.clock now))
  | .ttl _ now => inferInstanceAs (Decidable (InTime s.clock now))
  | .expire _ _ _ _ _ => inferInstanceAs (Decidable (_ ∧ _ ∧ _ ∧ (_ ∨ _)))
  | .ttlCleaner now _ =>
      inferInstanceAs (Decidable (∀ entry ∈ s.store.db.entries, InTime s.clock (now entry.1)))

/-! ## What LevelDB has of the reference -/

/-- An entry of the reference and what LevelDB has under its key. An entry whose deadline the
clock has reached may be gone. -/
inductive Holds (clock : Nat) : Option (Bytes × Option Nat) → Option Bytes → Prop
  | absent : Holds clock none none
  | forever {value : Bytes} (clean : tab ∉ value) :
      Holds clock (some (value, none)) (some (storedValue value))
  | timed {value : Bytes} {deadline : UInt64} (clean : tab ∉ value)
      (number : deadline ≠ noExpiry) (near : deadline.toNat < clock + 2 ^ 63) :
      Holds clock (some (value, some deadline.toNat)) (some (timedValue value deadline))
  | removed {value : Bytes} {deadline : Nat} (past : deadline ≤ clock) :
      Holds clock (some (value, some deadline)) none

variable {clock later : Nat} {entry : Option (Bytes × Option Nat)} {raw : Option Bytes}

theorem Holds.mono (h : Holds clock entry raw) (after : clock ≤ later) : Holds later entry raw := by
  cases h with
  | absent => exact .absent
  | forever clean => exact .forever clean
  | timed clean number near => exact .timed clean number (by omega)
  | removed past => exact .removed (past.trans after)

/-- Removing an entry whose deadline has passed is not seen. -/
theorem Holds.filter (h : Holds clock entry raw) {now : UInt64} (after : clock ≤ later)
    (shown : now.toNat ≤ later) (written : Bool) :
    Holds later entry (raw.filter fun raw => !((readEntry raw).expired now && written)) := by
  cases h with
  | absent => exact .absent
  | forever clean =>
      rw [Option.filter_some, readEntry_storedValue clean]
      exact .forever clean
  | @timed value deadline clean number near =>
      rw [Option.filter_some, readEntry_timedValue clean, if_neg number, Entry.expired]
      split
      · exact .timed clean number (by omega)
      · rename_i gone
        refine .removed ?_
        simp only [Bool.not_eq_true', Bool.and_eq_false_imp, decide_eq_true_eq, not_forall] at gone
        obtain ⟨due, -⟩ := gone
        exact (UInt64.le_iff_toNat_le.mp due).trans shown
  | removed past => exact .removed (past.trans after)

/-- A lease is over from its deadline on. -/
theorem liveAt_lease (now deadline : UInt64) (value : Bytes) :
    liveAt now.toNat (some (value, some deadline.toNat)) =
      if deadline ≤ now then none else some (value, some deadline.toNat) := by
  by_cases due : deadline ≤ now
  · have past : ¬ now.toNat < deadline.toNat := by
      simpa [UInt64.le_iff_toNat_le] using due
    simp [due, liveAt, Option.filter_some, past]
  · have ahead : now.toNat < deadline.toNat := by
      simpa [UInt64.le_iff_toNat_le] using due
    simp [due, liveAt, Option.filter_some, ahead]

/-- Both sides read the same. -/
theorem Holds.read (h : Holds clock entry raw) {now : UInt64} (after : clock ≤ now.toNat) :
    (readEntry (raw.getD [])).read now =
      match liveAt now.toNat entry with
      | none => (false, [])
      | some (value, _) => (true, value) := by
  cases h with
  | absent => rfl
  | forever clean =>
      rw [Option.getD_some, readEntry_storedValue clean]
      rfl
  | @timed value deadline clean number near =>
      rw [Option.getD_some, readEntry_timedValue clean, if_neg number, Entry.read, liveAt_lease]
      by_cases due : deadline ≤ now <;> simp [due]
  | @removed value deadline past =>
      have late : ¬ now.toNat < deadline := by omega
      simp [liveAt, Option.filter_some, late]
      rfl

theorem Holds.ttl (h : Holds clock entry raw) {now : UInt64} (after : clock ≤ now.toNat) :
    ((readEntry (raw.getD [])).ttl now).toInt =
      match liveAt now.toNat entry with
      | none => -2
      | some (_, none) => -1
      | some (_, some deadline) => deadline - now.toNat := by
  cases h with
  | absent => rfl
  | forever clean =>
      rw [Option.getD_some, readEntry_storedValue clean]
      rfl
  | @timed value deadline clean number near =>
      rw [Option.getD_some, readEntry_timedValue clean, if_neg number, Entry.ttl, liveAt_lease]
      by_cases due : deadline ≤ now
      · simp [due]
      · have ahead : now.toNat < deadline.toNat := by
          simpa [UInt64.le_iff_toNat_le] using due
        have left : (deadline - now).toNat = deadline.toNat - now.toNat :=
          UInt64.toNat_sub_of_le _ _ (UInt64.le_iff_toNat_le.mpr ahead.le)
        have close : deadline.toNat - now.toNat < 2 ^ 63 := by omega
        simp only [due, if_false, toInt_toInt64, left, close]
        exact Int.ofNat_sub ahead.le
  | @removed value deadline past =>
      have late : ¬ now.toNat < deadline := by omega
      simp [liveAt, Option.filter_some, late]
      rfl

/-- What LevelDB does not have the reference does not show. -/
theorem Holds.live_of_none (h : Holds clock entry none) {now : Nat} (after : clock ≤ now) :
    liveAt now entry = none := by
  cases h with
  | absent => rfl
  | @removed value deadline past =>
      have late : ¬ now < deadline := by omega
      simp [liveAt, Option.filter_some, late]

/-- Before the first tab of a stored string stands the value. -/
theorem Holds.text {raw : Bytes} (h : Holds clock entry (some raw)) :
    ∃ value deadline, entry = some (value, deadline) ∧ tab ∉ value ∧ textOf raw = value ∧
      raw ≠ [] := by
  cases h with
  | forever clean => exact ⟨_, _, rfl, clean, textOf_storedValue clean, storedValue_ne_nil _⟩
  | timed clean number near =>
      exact ⟨_, _, rfl, clean, textOf_timedValue clean _, storedValue_ne_nil _⟩

/-- Neither the addition of `expire` overflows nor does it give the number that means "never". -/
theorem toNat_deadline {now ts : UInt64} (shown : now.toNat < 2 ^ 63) (signed : ts.toNat < 2 ^ 63) :
    (now + ts).toNat = now.toNat + ts.toNat ∧ now + ts ≠ noExpiry := by
  have sum : (now + ts).toNat = now.toNat + ts.toNat := by
    rw [UInt64.toNat_add, Nat.mod_eq_of_lt (by omega)]
  refine ⟨sum, fun never => ?_⟩
  rw [never] at sum
  have big : noExpiry.toNat = 2 ^ 64 - 1 := rfl
  omega

/-- A value that is read is the text of the stored string. -/
theorem Holds.text_of_value (h : Holds clock entry raw) {value : Bytes}
    (read : (readEntry (raw.getD [])).value = some value) :
    ∃ stored, raw = some stored ∧ textOf stored = value ∧ tab ∉ value ∧ stored ≠ [] := by
  cases raw with
  | none => cases read
  | some stored =>
      obtain ⟨text, deadline, -, clean, same, nonempty⟩ := h.text
      refine ⟨stored, rfl, ?_⟩
      cases h with
      | forever clean =>
          rw [Option.getD_some, readEntry_storedValue clean] at read
          cases read
          exact ⟨textOf_storedValue clean, clean, nonempty⟩
      | timed clean number near =>
          rw [Option.getD_some, readEntry_timedValue clean, if_neg number] at read
          cases read
          exact ⟨textOf_timedValue clean _, clean, nonempty⟩

/-! ## Every act -/

/-- LevelDB holds the reference. -/
def Refines (s : Paired) : Prop :=
  ∀ key, Holds s.clock (s.reference key) (s.store.db.lookup key)

theorem Refines.start : Refines Paired.start := fun key => by
  rw [Paired.start, Store.empty, AList.lookup_empty]
  exact .absent

theorem Refines.put {s : Paired} (h : Refines s) {key value : Bytes} {append : Append}
    {written : Bool} (inside : InDomain s (.put key value append written)) :
    Refines (s.exec (.put key value append written)) := by
  obtain ⟨clean, rfl⟩ := inside
  intro other
  simp only [Paired.exec, Store.exec, Reference.exec, tick, lookup_put]
  by_cases same : other = key
  · subst same
    simp only [Function.update_self, true_and, if_true]
    exact .forever clean
  · simp only [Function.update_of_ne same, same, false_and, if_false]
    exact h other

theorem Refines.remove {s : Paired} (h : Refines s) {key : Bytes} {append : Append}
    {written : Bool} (inside : InDomain s (.remove key append written)) :
    Refines (s.exec (.remove key append written)) := by
  cases inside
  intro other
  simp only [Paired.exec, Store.exec, Reference.exec, tick, lookup_remove]
  by_cases same : other = key
  · subst same
    simp only [Function.update_self, true_and, if_true]
    exact .absent
  · simp only [Function.update_of_ne same, same, false_and, if_false]
    exact h other

theorem Reference.get_snd (r : Reference) (key : Bytes) (now : UInt64) (written : Bool) :
    (r.exec (.get key now written)).2 = r := by
  rw [Reference.exec]
  split <;> rfl

theorem Reference.ttl_snd (r : Reference) (key : Bytes) (now : UInt64) :
    (r.exec (.ttl key now)).2 = r := by
  rw [Reference.exec]
  split <;> rfl

theorem Refines.get {s : Paired} (h : Refines s) {key : Bytes} {now : UInt64} {written : Bool}
    (inside : InDomain s (.get key now written)) :
    (s.store.exec (.get key now written)).1 = (s.reference.exec (.get key now written)).1 ∧
      Refines (s.exec (.get key now written)) := by
  have after : s.clock ≤ now.toNat := inside.1
  constructor
  · have read := (h key).read after
    simp only [Store.exec, Reference.exec, get_written_eq, Store.raw, read]
    split <;> rfl
  · intro other
    simp only [Paired.exec, Reference.get_snd, tick, Store.exec, lookup_get]
    split
    · rename_i same
      subst same
      exact (h other).filter after le_rfl written
    · exact (h other).mono after

theorem Refines.ttl {s : Paired} (h : Refines s) {key : Bytes} {now : UInt64}
    (inside : InDomain s (.ttl key now)) :
    (s.store.exec (.ttl key now)).1 = (s.reference.exec (.ttl key now)).1 ∧
      Refines (s.exec (.ttl key now)) := by
  have after : s.clock ≤ now.toNat := inside.1
  constructor
  · have read := (h key).ttl after
    simp only [Store.exec, Reference.exec, ttl_eq, Store.raw, read]
    split <;> rfl
  · intro other
    simp only [Paired.exec, Reference.ttl_snd, tick, Store.exec]
    exact (h other).mono after

theorem Refines.expire {s : Paired} (h : Refines s) {key : Bytes} {ts now : UInt64}
    {append : Append} {written : Bool} (inside : InDomain s (.expire key ts now append written)) :
    (s.store.exec (.expire key ts now append written)).1 =
        (s.reference.exec (.expire key ts now append written)).1 ∧
      Refines (s.exec (.expire key ts now append written)) := by
  obtain ⟨⟨after, shown⟩, signed, rfl, ahead⟩ := inside
  have holds := h key
  cases found : s.store.db.lookup key with
  | none =>
      rw [found] at holds
      have live := holds.live_of_none after
      simp only [Paired.exec, Store.exec, Reference.exec, expire_of_none found, live, tick]
      exact ⟨trivial, fun other => (h other).mono after⟩
  | some raw =>
      rw [found] at holds
      obtain ⟨value, deadline, entry, clean, text, stored⟩ := holds.text
      have live : liveAt now.toNat (s.reference key) = some (value, deadline) := by
        rw [found, entry] at ahead
        rcases ahead with absent | ahead
        · cases absent
        · rw [liveAt, entry, Option.filter_some, if_pos]
          cases deadline with
          | none => rfl
          | some deadline => exact decide_eq_true (ahead _ rfl deadline rfl)
      obtain ⟨sum, number⟩ := toNat_deadline shown signed
      simp only [Paired.exec, Store.exec, Reference.exec, expire_of_some found stored, live, tick,
        text]
      refine ⟨rfl, fun other => ?_⟩
      simp only [lookup_put]
      by_cases same : other = key
      · subst same
        simp only [Function.update_self, true_and, if_true, ← sum]
        exact .timed clean number (by omega)
      · simp only [Function.update_of_ne same, same, false_and, if_false]
        exact (h other).mono after

theorem le_foldr_max {l : List Nat} {n a : Nat} (among : n ∈ a :: l) : n ≤ l.foldr max a := by
  induction l with
  | nil => exact (List.mem_singleton.mp among).le
  | cons b l ih =>
      rw [List.foldr_cons]
      rcases List.mem_cons.mp among with rfl | later
      · exact (ih List.mem_cons_self).trans (le_max_right _ _)
      · rcases List.mem_cons.mp later with rfl | later
        · exact le_max_left _ _
        · exact (ih (List.mem_cons_of_mem _ later)).trans (le_max_right _ _)

theorem Refines.ttlCleaner {s : Paired} (h : Refines s) (now : Bytes → UInt64)
    (written : Bytes → Bool) : Refines (s.exec (.ttlCleaner now written)) := by
  intro key
  simp only [Paired.exec, Store.exec, Reference.exec, tick, lookup_sweep]
  have after := le_foldr_max (l := s.store.db.entries.map fun entry => (now entry.1).toNat)
    (a := s.clock) List.mem_cons_self
  cases found : s.store.db.lookup key with
  | none =>
      rw [Option.filter_none, ← found]
      exact (h key).mono after
  | some raw =>
      rw [← found]
      refine (h key).filter after (le_foldr_max (List.mem_cons_of_mem _ ?_)) (written key)
      exact List.mem_map.mpr ⟨⟨key, raw⟩, AList.mem_lookup_iff.mp found, rfl⟩

/-- One act within the domain has the result of the reference. -/
theorem Refines.exec {s : Paired} (h : Refines s) {act : Act} (inside : InDomain s act) :
    (s.store.exec act).1 = (s.reference.exec act).1 ∧ Refines (s.exec act) := by
  cases act with
  | put key value append written =>
      refine ⟨?_, h.put inside⟩
      obtain ⟨-, rfl⟩ := inside
      rfl
  | remove key append written =>
      refine ⟨?_, h.remove inside⟩
      cases inside
      rfl
  | get key now written => exact h.get inside
  | ttl key now => exact h.ttl inside
  | expire key ts now append written => exact h.expire inside
  | ttlCleaner now written => exact ⟨rfl, h.ttlCleaner now written⟩

/-! ## Whole runs -/

theorem Refines.reached {acts : List Act} (valid : Along pairStep InDomain Paired.start acts) :
    Refines (acts.foldl Paired.exec Paired.start) := by
  have reached : run pairStep Paired.start acts = some (acts.foldl Paired.exec Paired.start) :=
    run_some Paired.exec Paired.start acts
  refine along_induction (I := Refines) (fun s act t inside h taken => ?_) reached valid
    Refines.start
  cases taken
  exact (h.exec inside).2

theorem Refines.same_results {acts : List Act} {s : Paired} (h : Refines s)
    (valid : Along pairStep InDomain s acts) :
    results Store.exec s.store acts = results Reference.exec s.reference acts := by
  induction acts generalizing s with
  | nil => rfl
  | cons act acts ih =>
      obtain ⟨same, next⟩ := h.exec valid.1
      rw [results, results, same]
      exact congrArg _ (ih next (valid.2 _ rfl))

/-- Calls of `expire` on one key, with the seconds, the clock and the answer of the log. -/
def expires (key : Bytes) (calls : List (UInt64 × UInt64 × Append)) : List Act :=
  calls.map fun call => .expire key call.1 call.2.1 call.2.2 true

/-- However often a key is given a deadline, the text stays what it was. -/
theorem lookup_expires {key value : Bytes} (clean : tab ∉ value)
    (calls : List (UInt64 × UInt64 × Append)) {s : Paired} {raw : Bytes}
    (found : s.store.db.lookup key = some raw) (text : textOf raw = value) (stored : raw ≠ []) :
    ∃ raw', ((expires key calls).foldl Paired.exec s).store.db.lookup key = some raw' ∧
      textOf raw' = value ∧ raw' ≠ [] := by
  induction calls generalizing s raw with
  | nil => exact ⟨raw, found, text, stored⟩
  | cons call calls ih =>
      have next : (s.exec (.expire key call.1 call.2.1 call.2.2 true)).store.db.lookup key =
          some (timedValue value (call.2.1 + call.1)) := by
        rw [Paired.exec, Store.exec, expire_of_some found stored, lookup_put, text]
        exact if_pos ⟨rfl, rfl⟩
      exact ih next (textOf_timedValue clean _) (storedValue_ne_nil _)

/-- **The store refines its reference.** Within the domain all results are those of the reference;
behind any number of calls of `expire` on a key its value is the one before them and its deadline
that of the last call. -/
theorem refines_reference {acts : List Act}
    (valid : Along pairStep InDomain Paired.start acts) :
    results Store.exec Store.empty acts = results Reference.exec Reference.empty acts ∧
    ∀ before key calls ts now append,
      acts = before ++ expires key calls ++ [.expire key ts now append true] →
      ∀ value,
        (readEntry ((before.foldl Paired.exec Paired.start).store.raw key [])).value =
            some value →
          readEntry ((acts.foldl Paired.exec Paired.start).store.raw key []) =
            .timed value (now + ts) := by
  refine ⟨Refines.start.same_results valid, ?_⟩
  intro before key calls ts now append split value read
  subst split
  obtain ⟨earlier, last⟩ := along_append.mp valid
  have begun : Refines (before.foldl Paired.exec Paired.start) :=
    Refines.reached (along_append.mp earlier).1
  obtain ⟨raw, found, text, clean, stored⟩ := (begun key).text_of_value read
  obtain ⟨raw', found', text', stored'⟩ := lookup_expires clean calls found text stored
  rw [← List.foldl_append] at found'
  have inside := (last _ (run_some Paired.exec Paired.start _)).1
  obtain ⟨⟨-, shown⟩, signed, -⟩ := inside
  obtain ⟨-, number⟩ := toNat_deadline shown signed
  have final : (((before ++ expires key calls ++ [Act.expire key ts now append true]).foldl
      Paired.exec Paired.start).store.db.lookup key) = some (timedValue value (now + ts)) := by
    rw [List.foldl_append, List.foldl_cons, List.foldl_nil, Paired.exec, Store.exec,
      expire_of_some found' stored', lookup_put, text']
    exact if_pos ⟨rfl, rfl⟩
  rw [Store.raw, final, Option.getD_some, readEntry_timedValue clean, if_neg number]

/-- A key that is given a deadline twice, read, removed by the cleaner and read again. -/
def lease : List Act :=
  [.put [107] [118] ⟨true, true⟩ true, .expire [107] 10 5 ⟨true, true⟩ true,
    .expire [107] 20 6 ⟨false, true⟩ true, .ttl [107] 7, .ttlCleaner (fun _ => 30) fun _ => true,
    .get [107] 31 true]

theorem refines_reference_lease :
    results Store.exec Store.empty lease = results Reference.exec Reference.empty lease :=
  (refines_reference (by decide)).1

example : results Store.exec Store.empty lease =
    [.done true, .done true, .done true, .seconds 19, .swept, .got false []] := by decide

end Blp.Core

import Blp.Lib.CString
import Mathlib.Data.List.AList

/-!
# The store

`LevelDBWrapper` keeps a value and its expiry in one string, the value first, then a tab and a
number; `put` writes `-1` for "never". Each reader finds the first tab and converts what follows.

`readEntry` says what such a string means; `get_eq`, `ttl_eq` and `lookup_ttlCleaner` say what the
readers do in these terms.
-/

namespace Blp.Core

open CString

/-! ## Commands of the log -/

/-- `SET`. -/
def setWord : Bytes := [83, 69, 84]

/-- `DEL`. -/
def delWord : Bytes := [68, 69, 76]

/-- A command that the store logs. -/
inductive Command
  | set (key value : Bytes)
  | del (key : Bytes)
  deriving DecidableEq

/-- `{"SET", key, value}` and `{"DEL", key}`. -/
def Command.parts : Command → List Bytes
  | .set key value => [setWord, key, value]
  | .del key => [delWord, key]

def Command.key : Command → Bytes
  | .set key _ => key
  | .del key => key

theorem count_parts {cmds : List Command} : ∀ c ∈ cmds.map Command.parts, c.length < 2 ^ 31 := by
  intro c member
  obtain ⟨cmd, -, rfl⟩ := List.mem_map.mp member
  cases cmd with
  | set key value => exact (by decide : 3 < 2 ^ 31)
  | del key => exact (by decide : 2 < 2 ^ 31)

/-! ## Stored strings -/

/-- LevelDB as a map. -/
abbrev LevelDB := AList fun _ : Bytes => Bytes

def tab : UInt8 := 9

/-- `value->find('\t')`. -/
def findTab (value : Bytes) : Option Nat := value.findIdx? (· == tab)

/-- The integer `-1` that an expiry time is compared with. -/
def noExpiry : UInt64 := -1

/-- `value + "\t-1"`. -/
def storedValue (value : Bytes) : Bytes := value ++ [tab, 45, 49]

/-! ## The operations of `LevelDBWrapper` -/

/-- How `appendCommandAsync` answers, and `appendCommandBlocking` behind it. -/
structure Append where
  async : Bool
  blocking : Bool
  deriving DecidableEq

def Append.Accepted (append : Append) : Prop := append.async = true ∨ append.blocking = true

instance (append : Append) : Decidable append.Accepted := inferInstanceAs (Decidable (_ ∨ _))

/-- The store and the commands that its `aof_` accepted. -/
structure Store where
  db : LevelDB
  aof : List Command

def Store.empty : Store := ⟨∅, []⟩

/-- `if (!aof_.appendCommandAsync(cmd)) { aof_.appendCommandBlocking(cmd); }` -/
def Store.log (s : Store) (cmd : Command) (append : Append) : Store :=
  if append.async then { s with aof := s.aof ++ [cmd] }
  else if append.blocking then { s with aof := s.aof ++ [cmd] }
  else s

/-- The LevelDB write behind it: `impl_->put(key, stored_value)` or `impl_->remove(key)`. -/
def Store.write (s : Store) : Command → Store
  | .set key value => { s with db := s.db.insert key (storedValue value) }
  | .del key => { s with db := s.db.erase key }

/-- `LevelDBWrapper::put`; `written` is the status of the LevelDB write. -/
def Store.put (s : Store) (key value : Bytes) (append : Append) (written : Bool) : Bool × Store :=
  let s := s.log (.set key value) append
  (written, if written then s.write (.set key value) else s)

/-- `LevelDBWrapper::remove`. -/
def Store.remove (s : Store) (key : Bytes) (append : Append) (written : Bool) : Bool × Store :=
  let s := s.log (.del key) append
  (written, if written then s.write (.del key) else s)

/-- `LevelDBWrapper::get`, called with `out` in `*value` at the time `now`: the return value, what
it leaves in `*value`, and the store. The LevelDB read leaves `*value` alone when there is no
entry. -/
def Store.get (s : Store) (key out : Bytes) (now : UInt64) (written : Bool) :
    Bool × Bytes × Store :=
  let value := (s.db.lookup key).getD out
  if value = [] then (false, value, s)
  else
    match findTab value with
    | none => (true, value, s)
    | some tabPos =>
        match stoull (value.drop (tabPos + 1)) with
        | .error _ => (false, value, s)
        | .ok expireTime =>
            let value := value.take tabPos
            if expireTime = noExpiry then (true, value, s)
            else if expireTime ≤ now then
              (false, [], if written then { s with db := s.db.erase key } else s)
            else (true, value, s)

/-- `LevelDBWrapper::ttl`. -/
def Store.ttl (s : Store) (key : Bytes) (now : UInt64) : Int64 :=
  let value := (s.db.lookup key).getD []
  if value = [] then -2
  else
    match findTab value with
    | none => -2
    | some tabPos =>
        match stoull (value.drop (tabPos + 1)) with
        | .error _ => -1
        | .ok expireTime =>
            if expireTime = noExpiry then -1
            else if expireTime ≤ now then -2
            else (expireTime - now).toInt64

/-- `LevelDBWrapper::expire`. -/
def Store.expire (s : Store) (key : Bytes) (ts now : UInt64) (append : Append) (written : Bool) :
    Bool × Store :=
  let value := (s.db.lookup key).getD []
  if value = [] then (false, s)
  else
    let actualValue :=
      match findTab value with
      | none => value
      | some tabPos => value.take tabPos
    let expireTime := now + ts
    s.put key (actualValue ++ tab :: decimal expireTime.toNat) append written

/-- One entry of the pass of `ttl_cleaner`, at the time `now`: is it removed? -/
def isExpired (value : Bytes) (now : UInt64) : Bool :=
  match findTab value with
  | none => false
  | some tabPos =>
      match stoull (value.drop (tabPos + 1)) with
      | .error _ => false
      | .ok expireTime => if expireTime = noExpiry then false else expireTime ≤ now

/-- One pass of `ttl_cleaner`: the iterator walks over the entries there were at its start; `now`
is what the clock shows at each of them. -/
def Store.ttlCleaner (s : Store) (now : Bytes → UInt64) : Store :=
  { s with
    db := s.db.entries.foldl
      (fun db entry => if isExpired entry.2 (now entry.1) then db.erase entry.1 else db) s.db }

@[simp] theorem db_log (s : Store) (cmd : Command) (append : Append) :
    (s.log cmd append).db = s.db := by
  unfold Store.log
  split
  · rfl
  · split <;> rfl

theorem log_of_accepted {append : Append} (accepted : append.Accepted) (s : Store) (cmd : Command) :
    s.log cmd append = { s with aof := s.aof ++ [cmd] } := by
  unfold Store.log
  rcases accepted with async | blocking
  · rw [if_pos async]
  · rw [if_pos blocking, ite_self]

theorem log_eq_self_iff (s : Store) (cmd : Command) (append : Append) :
    s.log cmd append = s ↔ append.async = false ∧ append.blocking = false := by
  have longer : ({ s with aof := s.aof ++ [cmd] } : Store) ≠ s := by
    intro same
    have := congrArg (fun s => s.aof.length) same
    simp at this
  unfold Store.log
  cases append.async <;> cases append.blocking <;> simp [longer]

/-! ## What a stored string means -/

/-- A stored string as its readers take it. -/
inductive Entry
  /-- No tab. -/
  | bare (raw : Bytes)
  /-- No number behind the tab. -/
  | unreadable (raw : Bytes)
  | forever (value : Bytes)
  | timed (value : Bytes) (deadline : UInt64)
  deriving DecidableEq

def readEntry (raw : Bytes) : Entry :=
  match findTab raw with
  | none => .bare raw
  | some tabPos =>
      match stoull (raw.drop (tabPos + 1)) with
      | .error _ => .unreadable raw
      | .ok expireTime =>
          if expireTime = noExpiry then .forever (raw.take tabPos)
          else .timed (raw.take tabPos) expireTime

/-- What `get` makes of an entry: the return value and what it leaves in `*value`. -/
def Entry.read (now : UInt64) : Entry → Bool × Bytes
  | .bare raw => (!raw.isEmpty, raw)
  | .unreadable raw => (false, raw)
  | .forever value => (true, value)
  | .timed value deadline => if deadline ≤ now then (false, []) else (true, value)

/-- What `ttl` makes of an entry. -/
def Entry.ttl (now : UInt64) : Entry → Int64
  | .bare _ => -2
  | .unreadable _ => -1
  | .forever _ => -1
  | .timed _ deadline => if deadline ≤ now then -2 else (deadline - now).toInt64

/-- The entry has a deadline and it has passed. -/
def Entry.expired (now : UInt64) : Entry → Bool
  | .timed _ deadline => deadline ≤ now
  | _ => false

theorem Entry.expired_mono {now later : UInt64} {e : Entry} (expired : e.expired now = true)
    (after : now ≤ later) : e.expired later = true := by
  cases e with
  | timed value deadline =>
      exact decide_eq_true (UInt64.le_trans (of_decide_eq_true expired) after)
  | _ => exact expired

/-- Nobody sees an entry past its deadline. -/
theorem Entry.read_of_expired {now : UInt64} {e : Entry} (expired : e.expired now = true) :
    e.read now = (false, []) := by
  cases e with
  | timed value deadline => exact if_pos (of_decide_eq_true expired)
  | _ => cases expired

theorem Entry.ttl_of_expired {now : UInt64} {e : Entry} (expired : e.expired now = true) :
    e.ttl now = -2 := by
  cases e with
  | timed value deadline => exact if_pos (of_decide_eq_true expired)
  | _ => cases expired

/-- The string that `get` reads. -/
def Store.raw (s : Store) (key out : Bytes) : Bytes := (s.db.lookup key).getD out

/-- The three ways a reader takes a string. -/
theorem readEntry_cases (raw : Bytes) :
    (findTab raw = none ∧ readEntry raw = .bare raw) ∨
    ∃ tabPos, findTab raw = some tabPos ∧
      ((∃ e, stoull (raw.drop (tabPos + 1)) = .error e ∧ readEntry raw = .unreadable raw) ∨
        ∃ t, stoull (raw.drop (tabPos + 1)) = .ok t ∧
          readEntry raw =
            if t = noExpiry then .forever (raw.take tabPos) else .timed (raw.take tabPos) t) := by
  unfold readEntry
  cases findTab raw with
  | none => exact Or.inl ⟨rfl, rfl⟩
  | some tabPos =>
      refine Or.inr ⟨tabPos, rfl, ?_⟩
      dsimp only
      cases stoull (raw.drop (tabPos + 1)) with
      | error e => exact Or.inl ⟨e, rfl, rfl⟩
      | ok t => exact Or.inr ⟨t, rfl, rfl⟩

theorem isExpired_eq (raw : Bytes) (now : UInt64) :
    isExpired raw now = (readEntry raw).expired now := by
  unfold isExpired
  rcases readEntry_cases raw with
    ⟨found, entry⟩ | ⟨tabPos, found, ⟨e, conv, entry⟩ | ⟨t, conv, entry⟩⟩
  · simp only [found, entry, Entry.expired]
  · simp only [found, conv, entry, Entry.expired]
  · simp only [found, conv, entry]
    split <;> rfl

/-- `get` by the entry it reads; `written` is the status of the removal. -/
theorem get_written_eq (s : Store) (key out : Bytes) (now : UInt64) (written : Bool) :
    s.get key out now written =
      (((readEntry (s.raw key out)).read now).1, ((readEntry (s.raw key out)).read now).2,
        if (readEntry (s.raw key out)).expired now ∧ written then
          { s with db := s.db.erase key }
        else s) := by
  unfold Store.get Store.raw
  generalize (s.db.lookup key).getD out = raw
  by_cases empty : raw = []
  · subst empty
    cases written <;> rfl
  · rcases readEntry_cases raw with
      ⟨found, entry⟩ | ⟨tabPos, found, ⟨e, conv, entry⟩ | ⟨t, conv, entry⟩⟩
    · simp [found, entry, empty, Entry.read, Entry.expired]
    · simp [found, conv, entry, empty, Entry.read, Entry.expired]
    · simp only [found, conv, entry, empty, if_false]
      split
      · simp [Entry.read, Entry.expired]
      · split
        · rename_i due
          simp [Entry.read, Entry.expired, due]
        · rename_i due
          simp [Entry.read, Entry.expired, due]

theorem get_eq (s : Store) (key out : Bytes) (now : UInt64) :
    s.get key out now true =
      (((readEntry (s.raw key out)).read now).1, ((readEntry (s.raw key out)).read now).2,
        if (readEntry (s.raw key out)).expired now then { s with db := s.db.erase key }
        else s) := by
  rw [get_written_eq]
  simp only [and_true]

/-- `ttl` by the entry it reads. -/
theorem ttl_eq (s : Store) (key : Bytes) (now : UInt64) :
    s.ttl key now = (readEntry (s.raw key [])).ttl now := by
  unfold Store.ttl Store.raw
  generalize (s.db.lookup key).getD [] = raw
  by_cases empty : raw = []
  · subst empty
    rfl
  · rcases readEntry_cases raw with
      ⟨found, entry⟩ | ⟨tabPos, found, ⟨e, conv, entry⟩ | ⟨t, conv, entry⟩⟩
    · simp [found, entry, empty, Entry.ttl]
    · simp [found, conv, entry, empty, Entry.ttl]
    · simp only [found, conv, entry, empty, if_false]
      split <;> rfl

/-! ## Values that `put` stores -/

theorem findTab_of_notMem {value : Bytes} (clean : tab ∉ value) (rest : Bytes) :
    findTab (value ++ tab :: rest) = some value.length := by
  have none : value.findIdx? (· == tab) = none := by
    rw [List.findIdx?_eq_none_iff]
    intro b member
    exact beq_eq_false_iff_ne.mpr fun same => clean (same ▸ member)
  rw [findTab, List.findIdx?_append, none, Option.none_or, List.findIdx?_cons, beq_self_eq_true,
    if_pos rfl, Option.map_some, Nat.zero_add]

theorem findTab_of_mem {value : Bytes} (dirty : tab ∈ value) (rest : Bytes) :
    ∃ tabPos < value.length, findTab (value ++ rest) = some tabPos := by
  cases found : value.findIdx? (· == tab) with
  | none =>
      rw [List.findIdx?_eq_none_iff] at found
      exact absurd (found tab dirty) (by decide)
  | some tabPos =>
      refine ⟨tabPos, (List.findIdx?_eq_some_iff_getElem.mp found).1, ?_⟩
      rw [findTab, List.findIdx?_append, found, Option.some_or]

/-- A value without a tab is read back as it was put. -/
theorem readEntry_storedValue {value : Bytes} (clean : tab ∉ value) :
    readEntry (storedValue value) = .forever value := by
  have conv : stoull [45, 49] = .ok noExpiry := by decide
  have behind : (value ++ [tab, 45, 49]).drop (value.length + 1) = [45, 49] := by
    rw [← List.drop_drop, List.drop_left, List.drop_one, List.tail_cons]
  rw [readEntry, storedValue, findTab_of_notMem clean]
  dsimp only
  rw [behind, conv, List.take_left]
  exact if_pos rfl

/-- A value with a tab in it never is. -/
theorem read_storedValue_ne {value : Bytes} (dirty : tab ∈ value) (now : UInt64) :
    (readEntry (storedValue value)).read now ≠ (true, value) := by
  obtain ⟨tabPos, inside, found⟩ := findTab_of_mem dirty [tab, 45, 49]
  have shorter : (storedValue value).take tabPos ≠ value := by
    intro same
    have len := congrArg List.length same
    rw [List.length_take, storedValue, List.length_append] at len
    omega
  intro read
  rcases readEntry_cases (storedValue value) with
    ⟨none, -⟩ | ⟨tabPos', found', ⟨e, -, entry⟩ | ⟨t, -, entry⟩⟩
  · rw [storedValue, found] at none
    cases none
  · rw [entry] at read
    cases read
  · rw [storedValue, found] at found'
    cases found'
    rw [entry] at read
    split at read
    · exact shorter (congrArg Prod.snd read)
    · rw [Entry.read] at read
      split at read
      · cases read
      · exact shorter (congrArg Prod.snd read)

/-- What a key holds behind a command for it. -/
def Command.content : Command → Option Bytes
  | .set _ value => some (storedValue value)
  | .del _ => none

theorem lookup_write (s : Store) (cmd : Command) (key : Bytes) :
    (s.write cmd).db.lookup key = if cmd.key = key then cmd.content else s.db.lookup key := by
  cases cmd with
  | set other value =>
      by_cases same : other = key
      · subst same
        simp [Store.write, Command.key, Command.content, AList.lookup_insert]
      · simp [Store.write, Command.key, same, AList.lookup_insert_ne (Ne.symm same)]
  | del other =>
      by_cases same : other = key
      · subst same
        simp [Store.write, Command.key, Command.content, AList.lookup_erase]
      · simp [Store.write, Command.key, same, AList.lookup_erase_ne (Ne.symm same)]

/-- What is left of a key behind the removals of a pass over some entries. -/
theorem lookup_foldl_erase (gone : Bytes → Bytes → Bool)
    (entries : List (Sigma fun _ : Bytes => Bytes)) (db : LevelDB) (key : Bytes) :
    (entries.foldl (fun db entry => if gone entry.1 entry.2 then db.erase entry.1 else db)
        db).lookup key =
      if entries.any (fun entry => entry.1 == key && gone entry.1 entry.2) then none
      else db.lookup key := by
  induction entries generalizing db with
  | nil => rfl
  | cons entry entries ih =>
      obtain ⟨other, raw⟩ := entry
      rw [List.foldl_cons, ih, List.any_cons]
      cases removed : gone other raw with
      | false => simp only [Bool.false_eq_true, if_false, Bool.and_false, Bool.false_or]
      | true =>
          by_cases same : other = key
          · subst same
            simp only [if_true, AList.lookup_erase, ite_self, beq_self_eq_true, Bool.and_true,
              Bool.true_or]
          · simp only [if_true, AList.lookup_erase_ne (Ne.symm same), beq_eq_false_iff_ne.mpr same,
              Bool.false_and, Bool.false_or]

/-- A pass over the entries of a store keeps those that it does not remove. -/
theorem lookup_foldl_entries (gone : Bytes → Bytes → Bool) (db : LevelDB) (key : Bytes) :
    (db.entries.foldl (fun db entry => if gone entry.1 entry.2 then db.erase entry.1 else db)
        db).lookup key = (db.lookup key).filter fun raw => !gone key raw := by
  rw [lookup_foldl_erase]
  have any_iff : (db.entries.any fun entry => entry.1 == key && gone entry.1 entry.2) = true ↔
      ∃ raw, db.lookup key = some raw ∧ gone key raw = true := by
    rw [List.any_eq_true]
    constructor
    · intro any
      rcases any with ⟨⟨other, raw⟩, member, removed⟩
      rw [Bool.and_eq_true, beq_iff_eq] at removed
      obtain ⟨rfl, removed⟩ := removed
      exact ⟨raw, AList.mem_lookup_iff.mpr member, removed⟩
    · intro any
      rcases any with ⟨raw, found, removed⟩
      refine ⟨⟨key, raw⟩, AList.mem_lookup_iff.mp found, ?_⟩
      rw [Bool.and_eq_true, beq_iff_eq]
      exact ⟨rfl, removed⟩
  cases found : db.lookup key with
  | none => simp
  | some raw =>
      rw [Option.filter_some]
      cases removed : gone key raw with
      | true =>
          rw [if_pos (any_iff.mpr ⟨raw, found, removed⟩)]
          rfl
      | false =>
          rw [if_neg]
          · rfl
          · intro any
            obtain ⟨raw', found', removed'⟩ := any_iff.mp any
            rw [found] at found'
            cases found'
            rw [removed] at removed'
            cases removed'

/-- What a filter leaves of an entry. -/
theorem filter_cases (keep : Bytes → Bool) (here : Option Bytes) :
    here.filter keep = here ∨ here.filter keep = none ∧ ∀ raw ∈ here, keep raw = false := by
  cases here with
  | none => exact Or.inl rfl
  | some raw =>
      rw [Option.filter_some]
      split
      · exact Or.inl rfl
      · rename_i removed
        refine Or.inr ⟨rfl, fun other same => ?_⟩
        cases same
        exact Bool.eq_false_iff.mpr removed

/-- A pass of the cleaner removes exactly the entries whose deadline has passed when it comes to
them. -/
theorem lookup_ttlCleaner (s : Store) (now : Bytes → UInt64) (key : Bytes) :
    (s.ttlCleaner now).db.lookup key =
      (s.db.lookup key).filter fun raw => !(readEntry raw).expired (now key) := by
  simp only [Store.ttlCleaner, ← isExpired_eq]
  exact lookup_foldl_entries (fun key raw => isExpired raw (now key)) s.db key

end Blp.Core

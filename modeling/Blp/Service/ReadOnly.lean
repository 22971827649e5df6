import Blp.Service.Handlers

/-!
# Clients of a replica

Only `set` and `del` ask for the role of the node.

* `replica_is_read_only`: as long as no `expire` of a client gets through to a key that is stored,
  the log and what `get` and `ttl` report are as if there had been no clients.
* `replica_written`: one that does.
-/

namespace Blp.Service

open CString Runs Blp.Core

/-! ## What should hold and when it does -/

/-- What happens to a replica. -/
inductive Event
  | client (q : Query) (env : Env)
  /-- The replica applies a command of its master. -/
  | applied (cmd : Command) (append : Append) (written : Bool)
  /-- A pass of the cleaner. -/
  | pass (now : Bytes → UInt64) (written : Bytes → Bool)

/-- A node, the store that it would have without clients, and the last reading of the clock. -/
structure Replica where
  node : Node
  baseline : Store
  clock : UInt64

def Replica.start (model : String) (store : Store) : Replica := ⟨Node.start model store, store, 0⟩

def applyCommand (s : Store) (append : Append) (written : Bool) : Command → Store
  | .set key value => (s.put key value append written).2
  | .del key => (s.remove key append written).2

def replicaStep (s : Replica) : Event → Option Replica
  | .client q env =>
      if s.clock ≤ env.now then some ⟨(s.node.handle q env).2, s.baseline, env.now⟩ else none
  | .applied cmd append written =>
      some ⟨{ s.node with store := applyCommand s.node.store append written cmd },
        applyCommand s.baseline append written cmd, s.clock⟩
  | .pass now written =>
      some ⟨{ s.node with store := s.node.store.sweep now written }, s.baseline.sweep now written,
        s.clock⟩

/-- The log is that of the node without clients, and from now on `get` and `ttl` report the
same. -/
structure Unaffected (s : Replica) : Prop where
  aof : s.node.store.aof = s.baseline.aof
  get : ∀ key now written, s.clock ≤ now →
    (s.node.store.get key [] now written).1 = (s.baseline.get key [] now written).1 ∧
      (s.node.store.get key [] now written).2.1 = (s.baseline.get key [] now written).2.1
  ttl : ∀ key now, s.clock ≤ now → s.node.store.ttl key now = s.baseline.ttl key now

/-- An `expire` with a session and two arguments, the second one a number, names a key that is
not stored. -/
def ExpireMisses (s : Replica) : Event → Prop
  | .client q _ =>
      q.command = .expire ∧ (s.node.sessions q.conn).getD [] ≠ [] ∧ q.args.length = 3 ∧
          (stoll (q.args.getD 2 [])).isOk = true →
        s.node.store.raw (q.args.getD 1 []) [] = []
  | _ => True

instance (s : Replica) (event : Event) : Decidable (ExpireMisses s event) :=
  match event with
  | .client _ _ => inferInstanceAs (Decidable (_ ∧ _ ∧ _ ∧ _ → _))
  | .applied _ _ _ => isTrue True.intro
  | .pass _ _ => isTrue True.intro

/-! ## Requests -/

/-- Past the checks a handler runs, before them the store is left alone. -/
theorem withSession_cases (session : Option Bytes) (args : List Bytes) (size : Nat)
    (usage : String) (store : Store) (run : Reply × Store) :
    (withSession session args size usage store run).2 = store ∨
      session.getD [] ≠ [] ∧ args.length = size ∧
        withSession session args size usage store run = run := by
  cases session with
  | none => exact Or.inl rfl
  | some password =>
      unfold withSession
      by_cases empty : password = []
      · exact Or.inl (by simp [empty])
      · by_cases count : args.length = size
        · exact Or.inr ⟨empty, count, by simp [empty, count]⟩
        · exact Or.inl (by simp [empty, count])

/-- On a replica a request does to the store at most what one `get` does. -/
theorem handle_store {s : Replica} (slave : s.node.model ≠ "master") {q : Query} {env : Env}
    (misses : ExpireMisses s (.client q env)) :
    (s.node.handle q env).2.store = s.node.store ∨
      ∃ key, (s.node.handle q env).2.store =
        (s.node.store.get key [] env.now env.written).2.2 := by
  obtain ⟨conn, command, args⟩ := q
  cases command with
  | auth => exact Or.inl rfl
  | set => simp only [Node.handle, setCommandHandler, if_pos slave, true_or]
  | del => simp only [Node.handle, delCommandHandler, if_pos slave, true_or]
  | get =>
      simp only [Node.handle, getCommandHandler]
      rcases withSession_cases (s.node.sessions conn) args 2
        "Expect 1 arg for 'get', actually %lu" s.node.store _ with kept | ⟨-, -, run⟩
      · exact Or.inl kept
      · rw [run]
        exact Or.inr ⟨_, rfl⟩
  | ttl =>
      simp only [Node.handle, ttlCommandHandler]
      rcases withSession_cases (s.node.sessions conn) args 2
        "Expect 1 arg for 'ttl', actually %lu" s.node.store _ with kept | ⟨-, -, run⟩
      · exact Or.inl kept
      · rw [run]
        exact Or.inl rfl
  | expire =>
      simp only [Node.handle, expireCommandHandler]
      rcases withSession_cases (s.node.sessions conn) args 3
        "Expect 2 arg for 'expire', actually %lu" s.node.store _ with
        kept | ⟨session, count, run⟩
      · exact Or.inl kept
      · rw [run]
        split
        · exact Or.inl rfl
        · rename_i seconds number
          have absent := misses ⟨rfl, session, count, by rw [number]; rfl⟩
          rw [Store.raw] at absent
          simp only [Store.expire, absent, if_true, true_or]

/-! ## Entries removed early -/

/-- A store without some of the entries whose deadline the clock has reached. -/
structure Cleaned (clock : UInt64) (base s : Store) : Prop where
  aof : s.aof = base.aof
  lookup : ∀ key, s.db.lookup key = base.db.lookup key ∨
    s.db.lookup key = none ∧
      ∀ raw ∈ base.db.lookup key, (readEntry raw).expired clock = true

variable {clock now : UInt64} {base s : Store}

theorem Cleaned.mono (h : Cleaned clock base s) (after : clock ≤ now) : Cleaned now base s := by
  refine ⟨h.aof, fun key => ?_⟩
  rcases h.lookup key with same | ⟨gone, past⟩
  · exact Or.inl same
  · exact Or.inr ⟨gone, fun raw found => Entry.expired_mono (past raw found) after⟩

/-- `get` removes an entry that is past its deadline. -/
theorem Cleaned.get (h : Cleaned now base s) (key : Bytes) (written : Bool) :
    Cleaned now base (s.get key [] now written).2.2 := by
  refine ⟨?_, fun other => ?_⟩
  · rw [get_written_eq]
    dsimp only
    split <;> exact h.aof
  · rw [lookup_get]
    split
    · rename_i same
      subst same
      rcases filter_expired_cases (s.db.lookup other) now written with kept | ⟨removed, passed⟩
      · rw [kept]
        exact h.lookup other
      · rw [removed]
        refine Or.inr ⟨rfl, fun raw found => ?_⟩
        rcases h.lookup other with same | ⟨-, past⟩
        · rw [← same] at found
          exact passed raw found
        · exact past raw found
    · exact h.lookup other

theorem aof_log (s : Store) (cmd : Command) (append : Append) :
    (s.log cmd append).aof =
      if append.async || append.blocking then s.aof ++ [cmd] else s.aof := by
  unfold Store.log
  cases append.async <;> cases append.blocking <;> rfl

theorem Cleaned.log (h : Cleaned clock base s) (cmd : Command) (append : Append) :
    Cleaned clock (base.log cmd append) (s.log cmd append) := by
  refine ⟨?_, fun key => ?_⟩
  · rw [aof_log, aof_log, h.aof]
  · rw [db_log, db_log]
    exact h.lookup key

/-- A write on both sides. -/
theorem Cleaned.write (h : Cleaned clock base s) (cmd : Command) :
    Cleaned clock (base.write cmd) (s.write cmd) := by
  refine ⟨?_, fun key => ?_⟩
  · cases cmd <;> exact h.aof
  · rw [lookup_write, lookup_write]
    split
    · exact Or.inl rfl
    · exact h.lookup key

theorem Cleaned.applyCommand (h : Cleaned clock base s) (append : Append) (written : Bool)
    (cmd : Command) :
    Cleaned clock (applyCommand base append written cmd) (applyCommand s append written cmd) := by
  have logged := h.log cmd append
  have both := logged.write cmd
  cases written with
  | false => cases cmd <;> exact logged
  | true => cases cmd <;> exact both

theorem Cleaned.sweep (h : Cleaned clock base s) (times : Bytes → UInt64)
    (written : Bytes → Bool) :
    Cleaned clock (base.sweep times written) (s.sweep times written) := by
  refine ⟨h.aof, fun key => ?_⟩
  rw [lookup_sweep, lookup_sweep]
  rcases h.lookup key with same | ⟨gone, past⟩
  · exact Or.inl (by rw [same])
  · rw [gone]
    exact Or.inr ⟨rfl, fun raw found => past raw (Option.filter_eq_some_iff.mp found).1⟩

/-- The readers do not see the difference. -/
theorem Cleaned.entry (h : Cleaned clock base s) (key : Bytes) :
    readEntry (s.raw key []) = readEntry (base.raw key []) ∨
      readEntry (s.raw key []) = .bare [] ∧
        (readEntry (base.raw key [])).expired clock = true := by
  unfold Store.raw
  rcases h.lookup key with same | ⟨gone, past⟩
  · exact Or.inl (by rw [same])
  · rw [gone]
    cases found : base.db.lookup key with
    | none => exact Or.inl rfl
    | some raw => exact Or.inr ⟨rfl, past raw found⟩

theorem Cleaned.unaffected {r : Replica} (h : Cleaned r.clock r.baseline r.node.store) :
    Unaffected r := by
  refine ⟨h.aof, fun key now written after => ?_, fun key now after => ?_⟩
  · rw [get_written_eq, get_written_eq]
    rcases h.entry key with same | ⟨gone, past⟩
    · exact ⟨by rw [same], by rw [same]⟩
    · rw [gone, Entry.read_of_expired (Entry.expired_mono past after)]
      exact ⟨rfl, rfl⟩
  · rw [ttl_eq, ttl_eq]
    rcases h.entry key with same | ⟨gone, past⟩
    · rw [same]
    · rw [gone, Entry.ttl_of_expired (Entry.expired_mono past after)]
      rfl

/-! ## Runs -/

/-- Clients have only had entries removed whose time was up. -/
def OnlyCleaned (model : String) (s : Replica) : Prop :=
  s.node.model = model ∧ Cleaned s.clock s.baseline s.node.store

theorem OnlyCleaned.step {model : String} (slave : model ≠ "master") {s t : Replica}
    {event : Event} (h : OnlyCleaned model s) (misses : ExpireMisses s event)
    (taken : replicaStep s event = some t) : OnlyCleaned model t := by
  obtain ⟨role, cleaned⟩ := h
  cases event with
  | client q env =>
      obtain ⟨after, same⟩ := Option.ite_none_right_eq_some.mp taken
      cases same
      refine ⟨(handle_model _ _ _).trans role, ?_⟩
      have later := cleaned.mono after
      rcases handle_store (role.symm ▸ slave) misses with kept | ⟨key, got⟩
      · dsimp only
        rw [kept]
        exact later
      · dsimp only
        rw [got]
        exact later.get key env.written
  | applied cmd append written =>
      cases taken
      exact ⟨role, cleaned.applyCommand append written cmd⟩
  | pass now written =>
      cases taken
      exact ⟨role, cleaned.sweep now written⟩

/-- **A replica is read-only** as long as the requests for `expire` miss. -/
theorem replica_is_read_only {model : String} (slave : model ≠ "master") {store : Store}
    {events : List Event} {t : Replica}
    (reached : run replicaStep (Replica.start model store) events = some t)
    (misses : Along replicaStep ExpireMisses (Replica.start model store) events) :
    Unaffected t := by
  have start : OnlyCleaned model (Replica.start model store) :=
    ⟨rfl, ⟨rfl, fun _ => Or.inl rfl⟩⟩
  have ended := along_induction (I := OnlyCleaned model)
    (fun _ _ _ miss h taken => h.step slave miss taken) reached misses start
  exact ended.2.unaffected

/-- `auth` with the accepted password on connection 0. -/
def login : Event :=
  .client ⟨0, .auth, [[97, 117, 116, 104], acceptedPassword]⟩ ⟨1, ⟨true, true⟩, true⟩

/-- `get k`, at the time 9. -/
def getK : Event := .client ⟨0, .get, [[103, 101, 116], [107]]⟩ ⟨9, ⟨true, true⟩, true⟩

/-- `expire k 10`, at the time 9. -/
def expireK : Event :=
  .client ⟨0, .expire, [[101, 120, 112, 105, 114, 101], [107], [49, 48]]⟩ ⟨9, ⟨true, true⟩, true⟩

/-- `k` with the value `v`, which expires at the time 5. -/
def dueStore : Store := ⟨AList.insert [107] (timedValue [118] 5) ∅, []⟩

/-- The key is past its deadline, is read and then missed. -/
def quietEvents : List Event :=
  [login, getK, expireK, .applied (.set [107] [119]) ⟨true, true⟩ true]

theorem read_only_quietEvents :
    Unaffected
      ((run replicaStep (Replica.start "replicate" dueStore) quietEvents).get (by decide)) :=
  replica_is_read_only (by decide) (Option.some_get _).symm (by decide)

/-- A client gives a key that the replica holds a deadline. -/
def expiring : List Event := [.applied (.set [107] [119]) ⟨true, true⟩ true, login, expireK]

/-- The replica has logged a command of its own. -/
theorem replica_written :
    ∃ t, run replicaStep (Replica.start "replicate" Store.empty) expiring = some t ∧
      ¬ Unaffected t := by
  refine ⟨(run replicaStep (Replica.start "replicate" Store.empty) expiring).get (by decide),
    (Option.some_get _).symm, ?_⟩
  intro unaffected
  exact absurd unaffected.aof (by decide)

end Blp.Service

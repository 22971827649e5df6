import Blp.Core.Reference
import Blp.Service.ReadOnly

/-!
# A node against its reference

To its clients a node is the set of the connections that have authenticated and the reference of its
store. A request is refused for its arguments, the role of the node or the missing session, or is an
act on the store.

* `handle_eq`: what a handler does, in terms of what the request means.
* `serves_reference`: within the domain of the store a node, master or replica, answers every
  sequence of requests as its reference does.
-/

namespace Blp.Service

open CString Runs Blp.Core

/-! ## What a request means -/

inductive Meaning
  | refused (reply : Reply)
  /-- An `auth` with the right password. -/
  | authenticated
  | act (act : Act)

/-- A request with the right number of arguments, of a client that may make it. -/
def Query.asked (q : Query) (env : Env) : Meaning :=
  let key := q.args.getD 1 []
  match q.command with
  | .auth =>
      if key = acceptedPassword then .authenticated
      else .refused (.formatError "Invalid password for database" [])
  | .get => .act (.get key env.now env.written)
  | .set => .act (.put key (q.args.getD 2 []) env.append env.written)
  | .del => .act (.remove key env.append env.written)
  | .ttl => .act (.ttl key env.now)
  | .expire =>
      match stoll (q.args.getD 2 []) with
      | .error _ => .refused (.formatError "Invalid expire time" [])
      | .ok seconds =>
          .act (.expire key (Int64.ofInt seconds).toUInt64 env.now env.append env.written)

/-- The number of arguments, the name of the command included, and what is said about another. -/
def RedisCommand.arity : RedisCommand → Nat × String
  | .auth => (2, "Expect 1 arg for 'auth', actually %lu")
  | .get => (2, "Expect 1 arg for 'get', actually %lu")
  | .set => (3, "Expect 2 args for 'set', actually %lu")
  | .del => (2, "Expect 1 arg for 'del', actually %lu")
  | .ttl => (2, "Expect 1 arg for 'ttl', actually %lu")
  | .expire => (3, "Expect 2 arg for 'expire', actually %lu")

/-- The commands that only a master runs. -/
def RedisCommand.slaveRefuses : RedisCommand → Option String
  | .set => some "slaver can not run 'set' command"
  | .del => some "slaver can not run 'del' command"
  | _ => none

def Query.meaning (model : String) (authenticated : Bool) (q : Query) (env : Env) : Meaning :=
  match (if model ≠ "master" then q.command.slaveRefuses else none) with
  | some text => .refused (.formatError text [])
  | none =>
      if q.command ≠ .auth ∧ authenticated = false then
        .refused (.formatError "No auth session" [])
      else if q.args.length ≠ q.command.arity.1 then
        .refused (.formatError q.command.arity.2 [.lu (argCount q.args)])
      else q.asked env

/-- What a result of the store is to a client. -/
def Query.reply (q : Query) : Result → Reply
  | .got true value => .string value
  | .got false _ => .nullString
  | .seconds n => .integer (Int64.ofInt n)
  | .swept => .nullString
  | .done ok =>
      match q.command with
      | .expire => .integer (if ok then 1 else 0)
      | .set =>
          if ok then .status "OK"
          else .formatError "Failed to set key '%s'" [.s (cStr (q.args.getD 1 []))]
      | _ => if ok then .status "OK" else .nullString

theorem reply_got (q : Query) (ok : Bool) (value : Bytes) :
    q.reply (.got ok value) = if ok then .string value else .nullString := by cases ok <;> rfl

theorem reply_ttl (q : Query) (n : Int64) : q.reply (.seconds n.toInt) = .integer n :=
  congrArg Reply.integer (Int64.ofInt_toInt n)

/-! ## The handlers -/

/-- Where every session holds the accepted password, the check for an empty one is idle. -/
theorem withSession_some (args : List Bytes) (size : Nat) (usage : String) (store : Store)
    (run : Reply × Store) :
    withSession (some acceptedPassword) args size usage store run =
      if args.length ≠ size then (.formatError usage [.lu (argCount args)], store) else run := by
  have some_ : acceptedPassword ≠ [] := by decide
  rw [withSession, if_neg some_]

/-- The sessions of a node whose clients have authenticated. -/
def sessionsOf (authenticated : Nat → Bool) (conn : Nat) : Option Bytes :=
  if authenticated conn then some acceptedPassword else none

/-- What a node does with a request that means this. -/
def Node.perform (node : Node) (q : Query) : Meaning → Reply × Node
  | .refused reply => (reply, node)
  | .authenticated =>
      (.status "OK", { node with
        sessions := Function.update node.sessions q.conn (some acceptedPassword) })
  | .act act =>
      (q.reply (node.store.exec act).1, { node with store := (node.store.exec act).2 })

section Handle

variable {model : String} {authenticated : Nat → Bool} {store : Store} {conn : Nat}
  {args : List Bytes} {env : Env} {command : RedisCommand}

/-- Only `auth` changes a session. -/
theorem perform_asked {node : Node} {q : Query} (other : q.command ≠ .auth) (env : Env) :
    (node.perform q (q.asked env)).2 =
      { node with store := (node.perform q (q.asked env)).2.store } := by
  cases asked : q.asked env with
  | refused reply => rfl
  | act act => rfl
  | authenticated =>
      unfold Query.asked at asked
      split at asked
      · rename_i auth
        exact (other auth).elim
      · cases asked
      · cases asked
      · cases asked
      · cases asked
      · split at asked <;> cases asked

/-- The checks of a handler, behind the one for the role of the node. -/
theorem perform_meaning {node : Node} (sessions : node.sessions = sessionsOf authenticated)
    {q : Query} (other : q.command ≠ .auth)
    (allowed : (if node.model ≠ "master" then q.command.slaveRefuses else none) = none) :
    node.perform q (q.meaning node.model (authenticated q.conn) env) =
      let result := withSession (node.sessions q.conn) q.args q.command.arity.1
        q.command.arity.2 node.store
        ((node.perform q (q.asked env)).1, (node.perform q (q.asked env)).2.store)
      (result.1, { node with store := result.2 }) := by
  have session : node.sessions q.conn =
      if authenticated q.conn then some acceptedPassword else none := by
    rw [sessions]
    rfl
  rw [Query.meaning, allowed, session]
  dsimp only
  cases authenticated q.conn with
  | false =>
      rw [if_pos ⟨other, rfl⟩]
      rfl
  | true =>
      have passed : ¬ (q.command ≠ .auth ∧ true = false) := fun both => Bool.noConfusion both.2
      rw [if_neg passed, if_pos rfl, withSession_some]
      by_cases count : q.args.length = q.command.arity.1
      · rw [if_neg (not_not_intro count), if_neg (not_not_intro count)]
        exact Prod.ext rfl (perform_asked other env)
      · rw [if_pos count, if_pos count]
        rfl

/-- **A handler does what the request means.** -/
theorem handle_eq {node : Node} (sessions : node.sessions = sessionsOf authenticated) (q : Query)
    (env : Env) :
    node.handle q env =
      node.perform q (q.meaning node.model (authenticated q.conn) env) := by
  obtain ⟨conn, command, args⟩ := q
  cases command with
  | auth =>
      rw [Query.meaning, show (if node.model ≠ "master" then RedisCommand.auth.slaveRefuses else
        none) = none from ite_self none]
      dsimp only
      rw [if_neg (fun both => both.1 rfl)]
      simp only [Node.handle, authCommandHandler, Query.asked, RedisCommand.arity, auth,
        beq_iff_eq]
      by_cases count : args.length = 2
      · by_cases password : args.getD 1 [] = acceptedPassword
        · simp only [if_neg (not_not_intro count), password, if_true, Node.perform]
        · simp only [if_neg (not_not_intro count), if_neg password, Node.perform,
            Function.update_eq_self]
      · simp only [ne_eq, count, not_false_eq_true, if_true, Node.perform, Function.update_eq_self]
  | get =>
      rw [perform_meaning sessions (show RedisCommand.get ≠ .auth by decide) (ite_self none)]
      simp only [Node.handle, getCommandHandler, Node.perform, Query.asked, reply_got, Store.exec,
        RedisCommand.arity]
  | set =>
      by_cases master : node.model = "master"
      · rw [perform_meaning sessions (show RedisCommand.set ≠ .auth by decide)
          (if_neg (not_not_intro master))]
        simp only [Node.handle, setCommandHandler, Node.perform, Query.asked, Query.reply,
          Store.exec, RedisCommand.arity, if_neg (not_not_intro master)]
      · rw [Query.meaning, if_pos master]
        simp only [Node.handle, setCommandHandler, if_pos master]
        rfl
  | del =>
      by_cases master : node.model = "master"
      · rw [perform_meaning sessions (show RedisCommand.del ≠ .auth by decide)
          (if_neg (not_not_intro master))]
        simp only [Node.handle, delCommandHandler, Node.perform, Query.asked, Query.reply,
          Store.exec, RedisCommand.arity, if_neg (not_not_intro master)]
      · rw [Query.meaning, if_pos master]
        simp only [Node.handle, delCommandHandler, if_pos master]
        rfl
  | ttl =>
      rw [perform_meaning sessions (show RedisCommand.ttl ≠ .auth by decide) (ite_self none)]
      simp only [Node.handle, ttlCommandHandler, Node.perform, Query.asked, reply_ttl, Store.exec,
        RedisCommand.arity]
  | expire =>
      rw [perform_meaning sessions (show RedisCommand.expire ≠ .auth by decide) (ite_self none)]
      simp only [Node.handle, expireCommandHandler, Query.asked, RedisCommand.arity]
      cases stoll (args.getD 2 []) with
      | error e => rfl
      | ok seconds => rfl

end Handle

/-! ## The reference of a node -/

/-- Who has authenticated, and the reference of the store. -/
structure Server where
  authenticated : Nat → Bool
  reference : Reference

def Server.start : Server := ⟨fun _ => false, Reference.empty⟩

/-- What the reference answers to a request that means this. -/
def Server.perform (server : Server) (q : Query) : Meaning → Reply × Server
  | .refused reply => (reply, server)
  | .authenticated =>
      (.status "OK", { server with
        authenticated := Function.update server.authenticated q.conn true })
  | .act act =>
      (q.reply (server.reference.exec act).1,
        { server with reference := (server.reference.exec act).2 })

/-- What the node does at an event, with the reply to a request. -/
def Node.on (node : Node) : Event → Option Reply × Node
  | .client q env => (some (node.handle q env).1, (node.handle q env).2)
  | .applied cmd append written =>
      (none, { node with store := applyCommand node.store append written cmd })
  | .pass now written => (none, { node with store := node.store.sweep now written })

/-- The act of the store that a command of the master is. -/
def commandAct (append : Append) (written : Bool) : Command → Act
  | .set key value => .put key value append written
  | .del key => .remove key append written

def Server.on (model : String) (server : Server) : Event → Option Reply × Server
  | .client q env =>
      let result := server.perform q (q.meaning model (server.authenticated q.conn) env)
      (some result.1, result.2)
  | .applied cmd append written =>
      (none, { server with
        reference := (server.reference.exec (commandAct append written cmd)).2 })
  | .pass _ _ => (none, server)

/-- A node and its reference behind the same events, and the last reading of the clock. -/
structure Backed where
  node : Node
  server : Server
  clock : Nat

def Backed.start (model : String) : Backed := ⟨Node.start model Store.empty, Server.start, 0⟩

/-- The act on the store that an event is. -/
def Backed.act (s : Backed) : Event → Option Act
  | .client q env =>
      match q.meaning s.node.model (s.server.authenticated q.conn) env with
      | .act act => some act
      | _ => none
  | .applied cmd append written => some (commandAct append written cmd)
  | .pass now written => some (.ttlCleaner now written)

def Backed.paired (s : Backed) : Paired := ⟨s.node.store, s.server.reference, s.clock⟩

def backedStep (s : Backed) (event : Event) : Option Backed :=
  some ⟨(s.node.on event).2, (s.server.on s.node.model event).2,
    (s.act event).elim s.clock (tick s.node.store s.clock)⟩

/-- An event that reaches the store does so within the domain of the reference. -/
def Served (s : Backed) (event : Event) : Prop := ∀ act ∈ s.act event, InDomain s.paired act

instance (s : Backed) (event : Event) : Decidable (Served s event) :=
  inferInstanceAs (Decidable (∀ act ∈ s.act event, InDomain s.paired act))

/-- What was answered to the events, one after the other. -/
def outputs {σ : Type} (on : σ → Event → Option Reply × σ) : σ → List Event → List (Option Reply)
  | _, [] => []
  | s, event :: events => (on s event).1 :: outputs on (on s event).2 events

/-- The node holds what its reference says. -/
structure Backs (model : String) (s : Backed) : Prop where
  model : s.node.model = model
  sessions : s.node.sessions = sessionsOf s.server.authenticated
  refines : Refines s.paired

theorem sessionsOf_update (authenticated : Nat → Bool) (conn : Nat) :
    Function.update (sessionsOf authenticated) conn (some acceptedPassword) =
      sessionsOf (Function.update authenticated conn true) := by
  funext other
  by_cases same : other = conn
  · subst same
    simp [sessionsOf]
  · simp [sessionsOf, same]

theorem applyCommand_eq (s : Store) (append : Append) (written : Bool) (cmd : Command) :
    applyCommand s append written cmd = (s.exec (commandAct append written cmd)).2 := by
  cases cmd <;> rfl

/-- **One event**: the same reply, and the relation behind it. -/
theorem Backs.step {model : String} {s t : Backed} {event : Event} (h : Backs model s)
    (served : Served s event) (taken : backedStep s event = some t) :
    (s.node.on event).1 = (s.server.on model event).1 ∧ Backs model t := by
  obtain ⟨node, server, clock⟩ := s
  obtain ⟨rfl, sessions, refines⟩ := h
  cases taken
  cases event with
  | client q env =>
      have handled := handle_eq sessions q env
      simp only [Node.on, Server.on, handled]
      cases meant : q.meaning node.model (server.authenticated q.conn) env with
      | refused reply =>
          refine ⟨rfl, rfl, sessions, ?_⟩
          simp only [Backed.act, meant]
          exact refines
      | authenticated =>
          refine ⟨rfl, rfl, ?_, ?_⟩
          · dsimp only [Node.perform, Server.perform]
            rw [sessions, sessionsOf_update]
          · simp only [Backed.act, meant]
            exact refines
      | act act =>
          have inside : InDomain (Backed.paired ⟨node, server, clock⟩) act :=
            served act (by rw [Backed.act, meant]; rfl)
          obtain ⟨same, next⟩ := refines.exec inside
          refine ⟨congrArg (fun r => some (q.reply r)) same, rfl, sessions, ?_⟩
          simp only [Backed.act, meant]
          exact next
  | applied cmd append written =>
      have next := (refines.exec (served _ rfl)).2
      refine ⟨rfl, rfl, sessions, ?_⟩
      simp only [Node.on, applyCommand_eq]
      exact next
  | pass now written =>
      exact ⟨rfl, rfl, sessions, (refines.exec (served _ rfl)).2⟩

/-- **A node answers as its reference does**, whatever its role, whoever is connected and however
requests, commands of the master and passes of the cleaner come in turn. -/
theorem serves_reference {model : String} {events : List Event}
    (served : Along backedStep Served (Backed.start model) events) :
    outputs Node.on (Node.start model Store.empty) events =
      outputs (Server.on model) Server.start events := by
  suffices all : ∀ s : Backed, Backs model s → Along backedStep Served s events →
      outputs Node.on s.node events = outputs (Server.on model) s.server events from
    all (Backed.start model) ⟨rfl, rfl, Refines.start⟩ served
  clear served
  induction events with
  | nil => exact fun _ _ _ => rfl
  | cons event events ih =>
      intro s h served
      obtain ⟨same, next⟩ := h.step served.1 rfl
      have rest := ih _ next (served.2 _ rfl)
      rw [outputs, outputs, same]
      refine congrArg _ (rest.trans ?_)
      rw [h.model]

/-- A request without a session, an `auth`, a key that is set, given five seconds, asked for, and
gone when it is asked for again. -/
def leaseRequests : List Event :=
  let env (now : UInt64) : Env := ⟨now, ⟨true, true⟩, true⟩
  [.client ⟨0, .get, [[103], [107]]⟩ (env 1),
    .client ⟨0, .auth, [[97], acceptedPassword]⟩ (env 1),
    .client ⟨0, .set, [[115], [107], [118]]⟩ (env 2),
    .client ⟨0, .expire, [[101], [107], [53]]⟩ (env 3),
    .client ⟨0, .ttl, [[116], [107]]⟩ (env 4), .client ⟨1, .ttl, [[116], [107]]⟩ (env 4),
    .pass (fun _ => 9) fun _ => true, .client ⟨0, .get, [[103], [107]]⟩ (env 10)]

theorem serves_reference_leaseRequests :
    outputs Node.on (Node.start "master" Store.empty) leaseRequests =
      outputs (Server.on "master") Server.start leaseRequests :=
  serves_reference (by decide)

end Blp.Service

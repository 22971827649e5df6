import Blp.Core.Acts
import Mathlib.Logic.Function.Basic

/-!
# The Redis commands

Each of the six handlers checks the session, the number of arguments and (two of them) the role of
the node on its own before it calls the store.

* `handle_sessions`: an accepted `auth` is all that gives a session.
* `handle_of_no_session`: what a request without one gets, whatever the store holds.
-/

namespace Blp.Service

open CString Blp.Core

/-! ## Handlers -/

inductive RedisCommand
  | auth
  | get
  | set
  | del
  | ttl
  | expire
  deriving DecidableEq

/-- What `FormatError` puts in place of `%lu` and `%s`. -/
inductive FormatArg
  | lu (n : UInt64)
  | s (text : Bytes)
  deriving DecidableEq

inductive Reply
  | status (text : String)
  | string (value : Bytes)
  | nullString
  | integer (n : Int64)
  | formatError (format : String) (args : List FormatArg)
  deriving DecidableEq

/-- What the clock, the log and LevelDB answer to a handler. -/
structure Env where
  now : UInt64
  append : Append
  written : Bool
  deriving DecidableEq

/-- `args.size() - 1`. -/
def argCount (args : List Bytes) : UInt64 := UInt64.ofNat args.length - 1

/-- `key.c_str()` ends at the first zero byte. -/
def cStr (key : Bytes) : Bytes := key.takeWhile fun b => b != 0

/-- `123456`. -/
def acceptedPassword : Bytes := [49, 50, 51, 52, 53, 54]

/-- `RedisServiceImpl::Auth`. -/
def auth (password : Bytes) : Bool := password == acceptedPassword

/-- The checks that all handlers but `auth` make: a session, a password in it, the number of
arguments. A session is its `_password`. -/
def withSession (session : Option Bytes) (args : List Bytes) (size : Nat) (usage : String)
    (store : Store) (run : Reply × Store) : Reply × Store :=
  match session with
  | none => (.formatError "No auth session" [], store)
  | some password =>
      if password = [] then (.formatError "No user name" [], store)
      else if args.length ≠ size then (.formatError usage [.lu (argCount args)], store)
      else run

/-- `AuthCommandHandler::Run`: the reply and the session behind it. -/
def authCommandHandler (session : Option Bytes) (args : List Bytes) : Reply × Option Bytes :=
  if args.length ≠ 2 then
    (.formatError "Expect 1 arg for 'auth', actually %lu" [.lu (argCount args)], session)
  else
    let password := args.getD 1 []
    if auth password then (.status "OK", some password)
    else (.formatError "Invalid password for database" [], session)

/-- `GetCommandHandler::Run`. -/
def getCommandHandler (session : Option Bytes) (args : List Bytes) (store : Store) (env : Env) :
    Reply × Store :=
  withSession session args 2 "Expect 1 arg for 'get', actually %lu" store
    (let key := args.getD 1 []
     let result := store.get key [] env.now env.written
     (if result.1 then .string result.2.1 else .nullString, result.2.2))

/-- `SetCommandHandler::Run`. -/
def setCommandHandler (model : String) (session : Option Bytes) (args : List Bytes)
    (store : Store) (env : Env) : Reply × Store :=
  if model ≠ "master" then (.formatError "slaver can not run 'set' command" [], store)
  else
    withSession session args 3 "Expect 2 args for 'set', actually %lu" store
      (let key := args.getD 1 []
       let value := args.getD 2 []
       let result := store.put key value env.append env.written
       (if result.1 then .status "OK" else .formatError "Failed to set key '%s'" [.s (cStr key)],
         result.2))

/-- `DelCommandHandler::Run`. -/
def delCommandHandler (model : String) (session : Option Bytes) (args : List Bytes)
    (store : Store) (env : Env) : Reply × Store :=
  if model ≠ "master" then (.formatError "slaver can not run 'del' command" [], store)
  else
    withSession session args 2 "Expect 1 arg for 'del', actually %lu" store
      (let key := args.getD 1 []
       let result := store.remove key env.append env.written
       (if result.1 then .status "OK" else .nullString, result.2))

/-- `TtlCommandHandler::Run`. -/
def ttlCommandHandler (session : Option Bytes) (args : List Bytes) (store : Store) (env : Env) :
    Reply × Store :=
  withSession session args 2 "Expect 1 arg for 'ttl', actually %lu" store
    (let key := args.getD 1 []
     (.integer (store.ttl key env.now), store))

/-- `ExpireCommandHandler::Run`; `Expire` takes the `int64_t` as a `uint64_t`. -/
def expireCommandHandler (session : Option Bytes) (args : List Bytes) (store : Store)
    (env : Env) : Reply × Store :=
  withSession session args 3 "Expect 2 arg for 'expire', actually %lu" store
    (let key := args.getD 1 []
     match stoll (args.getD 2 []) with
     | .error _ => (.formatError "Invalid expire time" [], store)
     | .ok seconds =>
         let result := store.expire key (Int64.ofInt seconds).toUInt64 env.now env.append
           env.written
         (.integer (if result.1 then 1 else 0), result.2))

/-! ## A node -/

/-- One Redis request. -/
structure Query where
  conn : Nat
  command : RedisCommand
  /-- The name of the command comes first. -/
  args : List Bytes
  deriving DecidableEq

/-- `config::model`, the session of every connection, and the store. -/
structure Node where
  model : String
  sessions : Nat → Option Bytes
  store : Store

def Node.start (model : String) (store : Store) : Node := ⟨model, fun _ => none, store⟩

def Node.handle (node : Node) (q : Query) (env : Env) : Reply × Node :=
  let session := node.sessions q.conn
  match q.command with
  | .auth =>
      let result := authCommandHandler session q.args
      (result.1, { node with sessions := Function.update node.sessions q.conn result.2 })
  | .get =>
      let result := getCommandHandler session q.args node.store env
      (result.1, { node with store := result.2 })
  | .set =>
      let result := setCommandHandler node.model session q.args node.store env
      (result.1, { node with store := result.2 })
  | .del =>
      let result := delCommandHandler node.model session q.args node.store env
      (result.1, { node with store := result.2 })
  | .ttl =>
      let result := ttlCommandHandler session q.args node.store env
      (result.1, { node with store := result.2 })
  | .expire =>
      let result := expireCommandHandler session q.args node.store env
      (result.1, { node with store := result.2 })

@[simp] theorem handle_model (node : Node) (q : Query) (env : Env) :
    (node.handle q env).2.model = node.model := by
  unfold Node.handle
  cases q.command <;> rfl

/-! ## Sessions -/

/-- An `auth` with the accepted password as its only argument. -/
def Query.Accepted (q : Query) : Prop :=
  q.command = .auth ∧ q.args.tail = [acceptedPassword]

instance (q : Query) : Decidable q.Accepted := inferInstanceAs (Decidable (_ ∧ _))

theorem authCommandHandler_session (session : Option Bytes) (args : List Bytes) :
    (authCommandHandler session args).2 =
      if args.tail = [acceptedPassword] then some acceptedPassword else session := by
  unfold authCommandHandler
  match args with
  | [] => rfl
  | [_] => rfl
  | [_, password] =>
      by_cases accepted : password = acceptedPassword
      · subst accepted
        rfl
      · simp [auth, accepted]
  | _ :: _ :: _ :: _ => simp

theorem handle_sessions (node : Node) (q : Query) (env : Env) :
    (node.handle q env).2.sessions =
      if q.Accepted then Function.update node.sessions q.conn (some acceptedPassword)
      else node.sessions := by
  obtain ⟨conn, command, args⟩ := q
  cases command with
  | auth =>
      simp only [Node.handle, Query.Accepted, authCommandHandler_session, true_and]
      split
      · rfl
      · exact Function.update_eq_self _ _
  | _ => simp [Node.handle, Query.Accepted]

@[simp] theorem withSession_none (args : List Bytes) (size : Nat) (usage : String) (store : Store)
    (run : Reply × Store) :
    withSession none args size usage store run = (.formatError "No auth session" [], store) := rfl

/-- The reply to a request on a connection without a session. -/
def refusal (model : String) (q : Query) : Reply :=
  match q.command with
  | .auth => (authCommandHandler none q.args).1
  | .set =>
      if model ≠ "master" then .formatError "slaver can not run 'set' command" []
      else .formatError "No auth session" []
  | .del =>
      if model ≠ "master" then .formatError "slaver can not run 'del' command" []
      else .formatError "No auth session" []
  | _ => .formatError "No auth session" []

/-- Without a session the store is neither read nor written. -/
theorem handle_of_no_session {node : Node} {q : Query} (none : node.sessions q.conn = none)
    (env : Env) :
    (node.handle q env).1 = refusal node.model q ∧ (node.handle q env).2.store = node.store := by
  obtain ⟨conn, command, args⟩ := q
  cases command with
  | set =>
      simp only [Node.handle, refusal, none, setCommandHandler, withSession_none]
      split <;> exact ⟨rfl, rfl⟩
  | del =>
      simp only [Node.handle, refusal, none, delCommandHandler, withSession_none]
      split <;> exact ⟨rfl, rfl⟩
  | auth => simp only [Node.handle, refusal, none, and_self]
  | get =>
      simp only [Node.handle, none]
      exact ⟨rfl, rfl⟩
  | ttl =>
      simp only [Node.handle, none]
      exact ⟨rfl, rfl⟩
  | expire =>
      simp only [Node.handle, none]
      exact ⟨rfl, rfl⟩

end Blp.Service

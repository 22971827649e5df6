import Blp.Lib.Slots
import Blp.Replica.Delivery
import Blp.Replica.Protocol

/-!
# Departed replicas

`startServer` registers a listener for each connection it accepts, and nothing removes it when
`handle_replica` closes the descriptor. Every accepted append goes through all listeners registered
so far, and the kernel gives the number of a closed descriptor out again. Each listener is taken to
keep the number that its connection was accepted with, although the lambda that `startServer`
registers captures `client_fd` by reference.

* `nothing_to_departed`: no listener run sends on a number that was closed before the run started,
  as long as no append is accepted behind a close and no descriptor is closed while a notification
  has its listener still to call.
* `sends_to_departed`: the first step that does otherwise leads to such a send.
-/

namespace Blp.Replica

open CString Runs Slots Blp.Core

/-- A call of a listener: its `client_fd`, which is `none` for a failed `accept`, the
`offset_to_read` it has loaded, and the descriptors that `handle_replica` had closed before. -/
structure ListenerRun where
  fd : Option Nat
  offset : Nat
  departed : List Nat
  deriving DecidableEq

/-- A call of `notifyListeners`: what it has still to call of its copy of `listeners_`, and the call
it is in. -/
structure Notification where
  todo : List (Option Nat)
  running : Option ListenerRun
  deriving DecidableEq

/-- A message that a listener gave to `sendToSocket`, with the descriptors closed before the
listener was called. -/
structure Sending where
  fd : Nat
  message : Message
  departed : List Nat
  deriving DecidableEq

/-- The open descriptors of replicas, those closed so far, the descriptors of the registered
listeners, the calls of `notifyListeners` and what the listeners have sent. -/
structure ReplicationServer where
  connected : List Nat
  closed : List Nat
  listeners : List (Option Nat)
  notifications : List Notification
  sent : List Sending
  deriving DecidableEq

def ReplicationServer.start : ReplicationServer := ⟨[], [], [], [], []⟩

inductive ServerAct
  /-- `accept` returns a number that is not open, and the listener for it is registered. -/
  | accept (fd : Nat)
  /-- `accept` returns −1, which is not checked: a listener is registered all the same. -/
  | acceptError
  /-- `handle_replica` leaves its loop and closes the descriptor. -/
  | disconnect (fd : Nat)
  /-- An append is accepted and comes to `notifyListeners`. -/
  | append
  /-- Notification `i` calls its next listener, which loads the offset. -/
  | call (i offset : Nat)
  /-- The listener parses a command and gives it to `exec_fn`. -/
  | exec (i : Nat) (parts : List Bytes)
  /-- The listener is at the end of the file, or has raised. -/
  | ret (i : Nat)
  deriving DecidableEq

def Notification.call (offset : Nat) (closed : List Nat) (n : Notification) : Option Notification :=
  match n.running, n.todo with
  | none, fd :: todo => some ⟨todo, some ⟨fd, offset, closed⟩⟩
  | _, _ => none

def Notification.ret (n : Notification) : Option Notification :=
  n.running.map fun _ => { n with running := none }

/-- What the executor of a run sends for a command, and on which descriptor. -/
def ListenerRun.exec (r : ListenerRun) (parts : List Bytes) : Option Sending :=
  r.fd.bind fun fd => (listenerCommand r.offset parts).map fun e =>
    ⟨fd, .fromDataEntity incrSync e, r.departed⟩

/-- Replace notification `i` by the result of its step. -/
def ReplicationServer.notify (s : ReplicationServer) (i : Nat)
    (next : Notification → Option Notification) : Option ReplicationServer :=
  (s.notifications[i]?.bind next).map fun n =>
    { s with notifications := s.notifications.set i n }

def serverStep (s : ReplicationServer) : ServerAct → Option ReplicationServer
  | .accept fd =>
      if fd ∉ s.connected then
        some { s with connected := fd :: s.connected, listeners := s.listeners ++ [some fd] }
      else none
  | .acceptError => some { s with listeners := s.listeners ++ [none] }
  | .disconnect fd =>
      if fd ∈ s.connected then
        some { s with connected := s.connected.erase fd, closed := fd :: s.closed }
      else none
  | .append => some { s with notifications := s.notifications ++ [⟨s.listeners, none⟩] }
  | .call i offset => s.notify i (Notification.call offset s.closed)
  | .exec i parts =>
      (s.notifications[i]?.bind Notification.running).map fun r =>
        { s with sent := s.sent ++ (r.exec parts).toList }
  | .ret i => s.notify i Notification.ret

/-- What a step of the server can be. -/
inductive ServerStep (s : ReplicationServer) : ServerAct → ReplicationServer → Prop
  | accept {fd : Nat} (fresh : fd ∉ s.connected) : ServerStep s (.accept fd)
      { s with connected := fd :: s.connected, listeners := s.listeners ++ [some fd] }
  | acceptError : ServerStep s .acceptError { s with listeners := s.listeners ++ [none] }
  | disconnect {fd : Nat} (there : fd ∈ s.connected) : ServerStep s (.disconnect fd)
      { s with connected := s.connected.erase fd, closed := fd :: s.closed }
  | append : ServerStep s .append
      { s with notifications := s.notifications ++ [⟨s.listeners, none⟩] }
  | call {i offset : Nat} {fd : Option Nat} {todo : List (Option Nat)}
      (found : s.notifications[i]? = some ⟨fd :: todo, none⟩) : ServerStep s (.call i offset)
        { s with notifications := s.notifications.set i ⟨todo, some ⟨fd, offset, s.closed⟩⟩ }
  | exec {i : Nat} {parts : List Bytes} {todo : List (Option Nat)} {r : ListenerRun}
      (found : s.notifications[i]? = some ⟨todo, some r⟩) : ServerStep s (.exec i parts)
        { s with sent := s.sent ++ (r.exec parts).toList }
  | ret {i : Nat} {todo : List (Option Nat)} {r : ListenerRun}
      (found : s.notifications[i]? = some ⟨todo, some r⟩) : ServerStep s (.ret i)
        { s with notifications := s.notifications.set i ⟨todo, none⟩ }

variable {s t : ReplicationServer} {act : ServerAct}

theorem serverStep_cases (taken : serverStep s act = some t) : ServerStep s act t := by
  cases act with
  | accept fd =>
      obtain ⟨fresh, ⟨⟩⟩ := Option.ite_none_right_eq_some.mp taken
      exact .accept fresh
  | acceptError =>
      cases taken
      exact .acceptError
  | disconnect fd =>
      obtain ⟨there, ⟨⟩⟩ := Option.ite_none_right_eq_some.mp taken
      exact .disconnect there
  | append =>
      cases taken
      exact .append
  | call i offset =>
      obtain ⟨n, next, rfl⟩ := Option.map_eq_some_iff.mp taken
      obtain ⟨⟨todo, running⟩, found, called⟩ := Option.bind_eq_some_iff.mp next
      cases running with
      | none =>
          cases todo with
          | nil => cases called
          | cons fd todo =>
              cases called
              exact .call found
      | some r => cases todo <;> cases called
  | exec i parts =>
      obtain ⟨r, next, rfl⟩ := Option.map_eq_some_iff.mp taken
      obtain ⟨⟨todo, running⟩, found, rfl⟩ := Option.bind_eq_some_iff.mp next
      exact .exec found
  | ret i =>
      obtain ⟨n, next, rfl⟩ := Option.map_eq_some_iff.mp taken
      obtain ⟨⟨todo, running⟩, found, returned⟩ := Option.bind_eq_some_iff.mp next
      obtain ⟨r, rfl, rfl⟩ := Option.map_eq_some_iff.mp returned
      exact .ret found

theorem exec_eq_some {r : ListenerRun} {parts : List Bytes} {m : Sending}
    (sent : r.exec parts = some m) : r.fd = some m.fd ∧ m.departed = r.departed := by
  obtain ⟨fd, here, found⟩ := Option.bind_eq_some_iff.mp sent
  obtain ⟨e, -, rfl⟩ := Option.map_eq_some_iff.mp found
  exact ⟨here, rfl⟩

/-! ## What is sent -/

/-- No listener has sent on a number that was closed before it was called. -/
def NothingToDeparted (s : ReplicationServer) : Prop := ∀ m ∈ s.sent, m.fd ∉ m.departed

/-- No append is accepted once a descriptor has been closed, and none is closed while a notification
has its listener still to call. -/
def KeepsListeners (s : ReplicationServer) : ServerAct → Prop
  | .append => s.closed = []
  | .disconnect fd => ∀ n ∈ s.notifications, some fd ∉ n.todo
  | _ => True

instance (s : ReplicationServer) : DecidablePred (KeepsListeners s)
  | .append => inferInstanceAs (Decidable (s.closed = []))
  | .disconnect fd => inferInstanceAs (Decidable (∀ n ∈ s.notifications, some fd ∉ n.todo))
  | .accept _ | .acceptError | .call _ _ | .exec _ _ | .ret _ => inferInstanceAs (Decidable True)

/-- The listeners still to be called are those of open connections, and a running one was so when it
was called. -/
structure Notification.Current (closed : List Nat) (n : Notification) : Prop where
  todo : ∀ fd, some fd ∈ n.todo → fd ∉ closed
  running : ∀ r ∈ n.running, ∀ fd ∈ r.fd, fd ∉ r.departed

structure Current (s : ReplicationServer) : Prop where
  notifications : ∀ n ∈ s.notifications, n.Current s.closed
  sent : NothingToDeparted s

theorem Current.start : Current .start where
  notifications := fun _ member => absurd member List.not_mem_nil
  sent := fun _ member => absurd member List.not_mem_nil

theorem Current.step (h : Current s) (keeps : KeepsListeners s act)
    (taken : serverStep s act = some t) : Current t := by
  cases serverStep_cases taken with
  | accept fresh => exact ⟨h.notifications, h.sent⟩
  | acceptError => exact ⟨h.notifications, h.sent⟩
  | @disconnect fd there =>
      refine ⟨fun n member => ?_, h.sent⟩
      have current := h.notifications n member
      refine ⟨fun fd' todo closed => ?_, current.running⟩
      rcases List.mem_cons.mp closed with rfl | earlier
      · exact keeps n member todo
      · exact current.todo fd' todo earlier
  | append =>
      refine ⟨fun n member => ?_, h.sent⟩
      rcases List.mem_append.mp member with old | new
      · exact h.notifications n old
      · cases List.mem_singleton.mp new
        have none : s.closed = [] := keeps
        refine ⟨fun fd _ closed => ?_, fun r running => by cases running⟩
        rw [none] at closed
        cases closed
  | call found =>
      have current := h.notifications _ (List.mem_of_getElem? found)
      refine ⟨forall_mem_set h.notifications ?_, h.sent⟩
      refine ⟨fun fd later => ?_, fun r running fd here => ?_⟩
      · exact current.todo fd (List.mem_cons_of_mem _ later)
      · cases running
        cases here
        exact current.todo fd List.mem_cons_self
  | exec found =>
      have current := h.notifications _ (List.mem_of_getElem? found)
      refine ⟨h.notifications, fun m member => ?_⟩
      rcases List.mem_append.mp member with old | new
      · exact h.sent m old
      · obtain ⟨here, same⟩ := exec_eq_some (Option.mem_toList.mp new)
        rw [same]
        exact current.running _ rfl m.fd here
  | ret found =>
      have current := h.notifications _ (List.mem_of_getElem? found)
      refine ⟨forall_mem_set h.notifications ?_, h.sent⟩
      exact ⟨current.todo, fun r running => by cases running⟩

/-- The descriptors of the replicas, open or closed, are those of registered listeners. -/
def Registered (s : ReplicationServer) : Prop :=
  (∀ fd ∈ s.connected, some fd ∈ s.listeners) ∧ ∀ fd ∈ s.closed, some fd ∈ s.listeners

theorem Registered.step (h : Registered s) (taken : serverStep s act = some t) : Registered t := by
  cases serverStep_cases taken with
  | @accept fd fresh =>
      refine ⟨fun fd' member => ?_, fun fd' member => List.mem_append_left _ (h.2 fd' member)⟩
      rcases List.mem_cons.mp member with rfl | old
      · exact List.mem_append_right _ (List.mem_singleton.mpr rfl)
      · exact List.mem_append_left _ (h.1 fd' old)
  | acceptError =>
      exact ⟨fun fd member => List.mem_append_left _ (h.1 fd member),
        fun fd member => List.mem_append_left _ (h.2 fd member)⟩
  | @disconnect fd there =>
      refine ⟨fun fd' member => h.1 fd' (List.mem_of_mem_erase member), fun fd' member => ?_⟩
      rcases List.mem_cons.mp member with rfl | old
      · exact h.1 fd' there
      · exact h.2 fd' old
  | append => exact h
  | call found => exact h
  | exec found => exact h
  | ret found => exact h

theorem registered_of_run {acts : List ServerAct} (reached : run serverStep .start acts = some s) :
    Registered s := by
  have start : Registered .start :=
    ⟨fun _ member => absurd member List.not_mem_nil, fun _ member => absurd member List.not_mem_nil⟩
  exact run_induction (I := Registered) (fun _ _ _ h taken => h.step taken) reached start

/-- A step of a listener run. -/
def ServerAct.listens : ServerAct → Bool
  | .call _ _ | .exec _ _ | .ret _ => true
  | _ => false

theorem call_eq {i : Nat} {fd : Option Nat} {todo : List (Option Nat)}
    (found : s.notifications[i]? = some ⟨fd :: todo, none⟩) (offset : Nat) :
    serverStep s (.call i offset) = some
      { s with notifications := s.notifications.set i ⟨todo, some ⟨fd, offset, s.closed⟩⟩ } := by
  rw [serverStep, ReplicationServer.notify, found]
  rfl

theorem ret_eq {i : Nat} {todo : List (Option Nat)} {r : ListenerRun}
    (found : s.notifications[i]? = some ⟨todo, some r⟩) :
    serverStep s (.ret i) =
      some { s with notifications := s.notifications.set i ⟨todo, none⟩ } := by
  rw [serverStep, ReplicationServer.notify, found]
  rfl

theorem exec_eq {i : Nat} {todo : List (Option Nat)} {r : ListenerRun}
    (found : s.notifications[i]? = some ⟨todo, some r⟩) (parts : List Bytes) :
    serverStep s (.exec i parts) = some { s with sent := s.sent ++ (r.exec parts).toList } := by
  rw [serverStep, found]
  rfl

/-- A listener that reads nothing. -/
theorem call_ret {i : Nat} {fd : Option Nat} {todo : List (Option Nat)}
    (found : s.notifications[i]? = some ⟨fd :: todo, none⟩) :
    run serverStep s [.call i 0, .ret i] =
      some { s with notifications := s.notifications.set i ⟨todo, none⟩ } := by
  have running := getElem?_set_slot found ⟨todo, some ⟨fd, 0, s.closed⟩⟩
  have returned := ret_eq (s := { s with
    notifications := s.notifications.set i ⟨todo, some ⟨fd, 0, s.closed⟩⟩ }) running
  rw [List.set_set] at returned
  exact run_cons_eq_some.mpr ⟨_, call_eq found 0, run_cons_eq_some.mpr ⟨_, returned, rfl⟩⟩

/-- A notification that goes on comes to each listener of its copy. -/
theorem sends_of_todo {i fd : Nat} {todo : List (Option Nat)}
    (found : s.notifications[i]? = some ⟨todo, none⟩) (listed : some fd ∈ todo)
    (closed : fd ∈ s.closed) :
    ∃ later t, run serverStep s later = some t ∧ (∀ a ∈ later, a.listens) ∧
      ¬ NothingToDeparted t := by
  induction todo generalizing s with
  | nil => cases listed
  | cons next todo ih =>
      rcases List.mem_cons.mp listed with rfl | further
      · have running := getElem?_set_slot found ⟨todo, some ⟨some fd, 0, s.closed⟩⟩
        refine ⟨[.call i 0, .exec i setAToB.parts], _, run_cons_eq_some.mpr ⟨_, call_eq found 0,
          run_cons_eq_some.mpr ⟨_, exec_eq running _, rfl⟩⟩, by simp [ServerAct.listens],
          fun nothing => ?_⟩
        exact nothing ⟨fd, .fromDataEntity incrSync ⟨0, [97], [98], setWord⟩, s.closed⟩
          (List.mem_append_right _ (List.mem_singleton.mpr rfl)) closed
      · obtain ⟨later, t, reached, listens, sent⟩ :=
          ih (s := { s with notifications := s.notifications.set i ⟨todo, none⟩ })
            (getElem?_set_slot found ⟨todo, none⟩) further closed
        refine ⟨[.call i 0, .ret i] ++ later, t, ?_, fun a member => ?_, sent⟩
        · rw [run_append, call_ret found]
          exact reached
        · rcases List.mem_append.mp member with passed | member
          · simp only [List.mem_cons, List.not_mem_nil, or_false] at passed
            rcases passed with rfl | rfl <;> rfl
          · exact listens a member

/-- An append behind a close, or a close before its listener is called: the listener runs that are
under way can go on to a send on the number of a departed replica. -/
theorem sends_to_departed {acts : List ServerAct} (reached : run serverStep .start acts = some s)
    (breaks : ¬ KeepsListeners s act) (taken : serverStep s act = some t) :
    ∃ later t', run serverStep t later = some t' ∧ (∀ a ∈ later, a.listens) ∧
      ¬ NothingToDeparted t' := by
  cases serverStep_cases taken with
  | append =>
      obtain ⟨fd, closed⟩ := List.exists_mem_of_ne_nil s.closed breaks
      exact sends_of_todo (List.getElem?_concat_length ..) ((registered_of_run reached).2 fd closed)
        closed
  | @disconnect fd there =>
      have still : ∃ n ∈ s.notifications, some fd ∈ n.todo := by
        by_contra none
        exact breaks fun n member listed => none ⟨n, member, listed⟩
      obtain ⟨⟨todo, running⟩, member, listed⟩ := still
      obtain ⟨i, found⟩ := List.mem_iff_getElem?.mp member
      cases running with
      | none => exact sends_of_todo found listed List.mem_cons_self
      | some r =>
          -- the call that the notification is in comes to its end first
          have returned := ret_eq (s := { s with connected := s.connected.erase fd,
                                                 closed := fd :: s.closed }) found
          obtain ⟨later, t', reached, listens, sent⟩ :=
            sends_of_todo (s := { s with connected := s.connected.erase fd,
                                         closed := fd :: s.closed,
                                         notifications := s.notifications.set i ⟨todo, none⟩ })
              (getElem?_set_slot found ⟨todo, none⟩) listed List.mem_cons_self
          refine ⟨.ret i :: later, t', run_cons_eq_some.mpr ⟨_, returned, reached⟩,
            fun a member => ?_, sent⟩
          rcases List.mem_cons.mp member with rfl | member
          · rfl
          · exact listens a member
  | accept fresh => exact (breaks True.intro).elim
  | acceptError => exact (breaks True.intro).elim
  | call found => exact (breaks True.intro).elim
  | exec found => exact (breaks True.intro).elim
  | ret found => exact (breaks True.intro).elim

end Blp.Replica

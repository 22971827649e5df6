import Blp.Replica.Receive
import Blp.Replica.Replicate

/-!
# The end of the connection to the master

Behind the inner loop of `startReplica` stands the code that closes the socket and connects anew.
The loop has no `break` and does not look at what `recvFromSocket` returns: once the stream has
ended, each call leaves a fresh `Message{}`, an `ACK` that is printed, and the loop goes on. Only an
exception leaves it, past the `close`.

* `startReplica_eq`: the calls of the store are those of `startReplica`.
* `innerLoop_stands`: where the loop stands behind any stream.
* `reconnects_never`: control never comes to the `close`.
-/

namespace Blp.Replica

open CString BigEndian Framing Posix Blp.Core

def fullSync : MessageType := 1

/-- Where the body of the loop leaves control: at the head of the loop again, or, by a `break`,
behind it. -/
inductive Flow
  | again
  | leave
  deriving DecidableEq

/-- The body of the loop behind `recvFromSocket`: the call of the store, if there is one, and where
control goes. -/
def Message.work (header : Message) : Option Command × Flow :=
  if header.type = fullSync then (none, .again)
  else if header.type = incrSync then
    let entry := (header.toDataEntity DataEntity.empty).2
    -- the `continue`
    if entry.cmd = [] then (none, .again)
    else if entry.cmd = delWord then (some (.del entry.key), .again)
    else if entry.cmd = setWord then (some (.set entry.key entry.value), .again)
    else (none, .again)
  else if header.type = Replica.heartbeat then (none, .again)
  else if header.type = Replica.ack then (none, .again)
  else (none, .again)

/-- Where `startReplica` stands with a connection. -/
inductive Standing
  /-- In the inner loop, with so much of the stream to come. -/
  | receiving (socket : Socket)
  /-- At `close(sockfd)`, in front of a new connection. -/
  | closing
  /-- In the `catch` block, in front of a new connection; the socket stays open. -/
  | caught
  deriving DecidableEq

/-- The inner loop for a number of rounds: the calls of the store and where control stands. What
`recvFromSocket` returns is not looked at. -/
def innerLoop : Nat → Socket → List Command × Standing
  | 0, socket => ([], .receiving socket)
  | rounds + 1, socket =>
      match Message.recvFromSocket {} socket with
      | none => ([], .caught)
      | some (_, header, socket) =>
          match header.work with
          | (op, .leave) => (op.toList, .closing)
          | (op, .again) =>
              let later := innerLoop rounds socket
              (op.toList ++ later.1, later.2)

/-- The inner loop is left after finitely many rounds and the socket is closed. -/
def Reconnects (socket : Socket) : Prop := ∃ rounds, (innerLoop rounds socket).2 = .closing

/-! ## The body of the loop -/

theorem work_eq (header : Message) : header.work = (header.op, .again) := by
  rw [Message.work, Message.op]
  by_cases full : header.type = fullSync
  · rw [if_pos full, full]
    rfl
  · rw [if_neg full]
    by_cases incr : header.type = incrSync
    · rw [if_pos incr, if_pos incr]
      dsimp only
      split
      · rfl
      · split
        · rfl
        · split <;> rfl
    · rw [if_neg incr, if_neg incr, ite_self, ite_self]

/-- A round that receives something, whole or not, is followed by another. -/
theorem innerLoop_received {socket socket' : Socket} {returned : Bool} {header : Message}
    (received : Message.recvFromSocket {} socket = some (returned, header, socket'))
    (rounds : Nat) :
    innerLoop (rounds + 1) socket =
      (header.op.toList ++ (innerLoop rounds socket').1, (innerLoop rounds socket').2) := by
  rw [innerLoop, received]
  dsimp only
  rw [work_eq]

theorem innerLoop_raised {socket : Socket} (raised : Message.recvFromSocket {} socket = none)
    (rounds : Nat) : innerLoop (rounds + 1) socket = ([], .caught) := by
  rw [innerLoop, raised]

/-- The store sees what `startReplica` says. -/
theorem startReplica_eq (rounds : Nat) (socket : Socket) :
    (innerLoop rounds socket).1 = startReplica rounds socket := by
  induction rounds generalizing socket with
  | zero => rfl
  | succ rounds ih =>
      rw [startReplica]
      cases received : Message.recvFromSocket {} socket with
      | none => rw [innerLoop_raised received]
      | some result =>
          obtain ⟨returned, header, socket'⟩ := result
          rw [innerLoop_received received, ih]

/-- No round comes to the `close`. -/
theorem standing_ne_closing (rounds : Nat) (socket : Socket) :
    (innerLoop rounds socket).2 ≠ .closing := by
  induction rounds generalizing socket with
  | zero => exact fun same => by cases same
  | succ rounds ih =>
      cases received : Message.recvFromSocket {} socket with
      | none =>
          rw [innerLoop_raised received]
          exact fun same => by cases same
      | some result =>
          obtain ⟨returned, header, socket'⟩ := result
          rw [innerLoop_received received]
          exact ih socket'

/-! ## Any stream -/

/-- Behind whole frames the stream goes on with a header whose length `resize` refuses. -/
def Raises (w : Bytes) : Prop :=
  ∃ (frames : List Bytes) (rest : Bytes), w = frames.flatten ++ rest ∧
    (∀ f ∈ frames, IsFrame f) ∧ 12 ≤ rest.length ∧ vectorMax < lengthField rest

/-- A clock that stands still. -/
def still : Clock := ⟨0, fun _ => 0, fun _ => 0⟩

theorem last_still (i : Nat) (type : MessageType) : still.last i type 0 = 0 := ite_self 0

theorem not_timedOut_still (i : Nat) : ¬ still.TimedOut i 0 := by
  simp [Clock.TimedOut, still]

theorem inTime_still (i : Nat) (frames : List Bytes) : InTime still i 0 frames := by
  induction frames generalizing i with
  | nil => exact True.intro
  | cons f frames ih =>
      rw [InTime, last_still]
      exact ⟨not_timedOut_still i, ih (i + 1)⟩

/-- The replica has no timeout. -/
theorem raises_iff (i : Nat) (w : Bytes) : Raises w ↔ Oversized still i 0 w := by
  simp only [Raises, Oversized, inTime_still, true_and]

/-- A connection that has ended is received from for ever. -/
theorem innerLoop_nil (rounds : Nat) : (innerLoop rounds []).2 = .receiving [] := by
  induction rounds with
  | zero => rfl
  | succ rounds ih =>
      rw [innerLoop_received recvFromSocket_nil]
      exact ih

/-- **Where the loop stands behind a stream**, once it has had more rounds than the stream has
bytes: in the `catch` block if it has come to a length that `resize` refuses, and in the loop, with
nothing more to come, if it has not. -/
theorem innerLoop_stands {rounds : Nat} {w : Bytes} {socket : Socket} (reads : ReadsOf w socket)
    (enough : w.length < rounds) :
    Raises w ∧ (innerLoop rounds socket).2 = .caught ∨
      ¬ Raises w ∧ (innerLoop rounds socket).2 = .receiving [] := by
  induction rounds generalizing w socket with
  | zero => exact absurd enough (Nat.not_lt_zero _)
  | succ rounds ih =>
      rcases recvFromSocket_cases reads with
        ⟨header, beyond, raised⟩ | ⟨fits, whole, header, socket, received, -, reads⟩ |
          ⟨torn, header, received⟩
      · rw [innerLoop_raised raised, raises_iff 0]
        exact Or.inl ⟨oversized_of_header header beyond, rfl⟩
      · have step : Raises w ↔ Raises (w.drop (12 + lengthField w)) := by
          rw [raises_iff 0, raises_iff 1, oversized_iff_of_whole fits whole, last_still,
            and_iff_right (not_timedOut_still 0)]
        rw [innerLoop_received received, step]
        exact ih reads (by rw [List.length_drop]; omega)
      · rw [innerLoop_received received, raises_iff 0]
        exact Or.inr ⟨not_oversized_of_torn torn, innerLoop_nil rounds⟩

/-- **The socket is closed behind no stream.** The loop goes on for ever on a connection that has
ended, or an exception has taken control past the `close`. -/
theorem reconnects_never {w : Bytes} {socket : Socket} (reads : ReadsOf w socket) :
    ¬ Reconnects socket ∧
      ∀ rounds, w.length < rounds →
        Raises w ∧ (innerLoop rounds socket).2 = .caught ∨
          ¬ Raises w ∧ (innerLoop rounds socket).2 = .receiving [] :=
  ⟨fun closing => closing.elim fun rounds => standing_ne_closing rounds socket,
    fun _ => innerLoop_stands reads⟩

/-- The stream ends inside the value of its second message. -/
theorem reconnects_never_setKAb :
    ¬ Reconnects [Message.ack.frame, setKAb.frame.take 37] ∧
      ∀ rounds, (Message.ack.frame ++ setKAb.frame.take 37).length < rounds →
        Raises (Message.ack.frame ++ setKAb.frame.take 37) ∧
            (innerLoop rounds [Message.ack.frame, setKAb.frame.take 37]).2 = .caught ∨
          ¬ Raises (Message.ack.frame ++ setKAb.frame.take 37) ∧
            (innerLoop rounds [Message.ack.frame, setKAb.frame.take 37]).2 = .receiving [] :=
  reconnects_never ⟨by simp, by decide⟩

/-- The master sends its `ACK` and closes the connection: the loop is never left. -/
theorem ended_never_left :
    ReadsOf Message.ack.frame [Message.ack.frame] ∧ ¬ Reconnects [Message.ack.frame] ∧
      ∀ rounds, (innerLoop (rounds + 1) [Message.ack.frame]).2 = .receiving [] := by
  refine ⟨⟨by simp, by decide⟩, ?_, fun rounds => ?_⟩
  · exact fun closing => closing.elim fun rounds => standing_ne_closing rounds _
  · have received : Message.recvFromSocket {} [Message.ack.frame] =
        some (true, Message.ofHeader Message.ack.frame, []) := by decide
    rw [innerLoop_received received]
    exact innerLoop_nil rounds

end Blp.Replica

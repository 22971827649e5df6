import Blp.Aof.Offset
import Blp.Aof.Recover
import Blp.Core.Db

/-!
# The listener of a replica

Every accepted append runs the registered listener on the producer's thread: it loads
`written_offset_`, reads the file from there to its end, and sends each command it parses. The
writer goes on meanwhile, and so do the listener runs of other producers.

`Master` is the writer's system with the listener runs and what they have sent, each message with
the place in the file where its frame starts. As long as no write fails, a run is always at some
frames of the file (`Progress`).
-/

namespace Blp.Replica

open CString Framing Posix Runs Blp.Aof Blp.Core

/-! ## One listener run -/

/-- The fields of a `DataEntity`. -/
structure DataEntity where
  sequence : Nat
  key : Bytes
  value : Bytes
  cmd : Bytes
  deriving DecidableEq

/-- The command executor of the listener: the entity that goes out as `INCR_SYNC`, if one does. A
command with too few parts, which would be read past its end, is left out. -/
def listenerCommand (offsetToRead : Nat) : List Bytes → Option DataEntity
  | [] => none
  | cmd :: args =>
      if cmd = setWord then
        match args with
        | key :: value :: _ => some ⟨offsetToRead, key, value, cmd⟩
        | _ => none
      else if cmd = delWord then
        match args with
        | key :: _ => some ⟨offsetToRead, key, [], cmd⟩
        | _ => none
      else none

/-- The variables of `readCommandsFromOffset`: the offset it was called with, the position of the
descriptor, `stream_buf`, the parsed commands not yet given to `exec_fn`, each with the place in the
file where its frame starts, and whether the parser has raised behind them. -/
structure Reader where
  offset : Nat
  pos : Nat
  streamBuf : Bytes
  parsed : List (Nat × List Bytes)
  raised : Bool
  deriving DecidableEq

/-- The place in the file where `stream_buf` starts. -/
def Reader.base (r : Reader) : Nat := r.pos - r.streamBuf.length

inductive Listener
  /-- The append is accepted, the callback has not loaded the offset. -/
  | notified
  | reading (r : Reader)
  | finished (r : Reader)
  deriving DecidableEq

/-- The frames of a buffer with the places where they start. -/
def located (base : Nat) : List (List Bytes × Nat) → List (Nat × List Bytes)
  | [] => []
  | (parts, n) :: frames => (base, parts) :: located (base + n) frames

/-- The buffer of `readCommandsFromOffset`. -/
def readBuf : Nat := 64 * 1024

/-- `getCurrentOffset`, then `open` and `lseek`. -/
def Listener.load (writtenOffset : Nat) : Listener → Option Listener
  | .notified => some (.reading ⟨writtenOffset, writtenOffset, [], [], false⟩)
  | _ => none

/-- The buffer behind a `read` that returns `n` bytes. -/
def Reader.filled (r : Reader) (file : Bytes) (n : Nat) : Bytes :=
  r.streamBuf ++ (file.drop r.pos).take n

/-- A `read` that returns `n` bytes, and the parse loop behind it. -/
def Reader.read (r : Reader) (file : Bytes) (n : Nat) : Reader :=
  let drained := drain tryParseRESPArray (r.filled file n)
  ⟨r.offset, r.pos + n, (r.filled file n).drop drained.consumed, located r.base drained.frames,
    drained.raised.isSome⟩

def Listener.read (file : Bytes) (n : Nat) : Listener → Option Listener
  | .reading r =>
      if r.parsed = [] ∧ r.raised = false ∧ 0 < n ∧ n ≤ readBuf ∧ r.pos + n ≤ file.length then
        some (.reading (r.read file n))
      else none
  | _ => none

/-- A `read` at the end of the file, or the exception that `notifyListeners` catches. -/
def Listener.leave (file : Bytes) : Listener → Option Listener
  | .reading r =>
      if r.parsed = [] ∧ (r.raised = true ∨ file.length ≤ r.pos) then some (.finished r) else none
  | _ => none

/-- A call of `exec_fn`: the command sent, if it is one that is, and the place of its frame. -/
def Listener.send : Listener → Option (List (Nat × DataEntity) × Listener)
  | .reading r =>
      match r.parsed with
      | (place, parts) :: parsed =>
          some (((listenerCommand r.offset parts).map (place, ·)).toList,
            .reading { r with parsed })
      | [] => none
  | _ => none

/-! ## The master -/

/-- The writer's system, the accepted commands, the listener runs in the order of their appends,
and what was sent to the replica. -/
structure Master where
  sys : System
  commands : List Command
  listeners : List Listener
  sent : List (Nat × DataEntity)
  deriving DecidableEq

def Master.start (init : Bytes) : Master := ⟨System.start init, [], [], []⟩

inductive MasterAct
  | appendAsync (cmd : Command)
  | appendBlocking (cmd : Command)
  | stop
  | join
  | writer (act : WriterAct)
  | load (i : Nat)
  | read (i n : Nat)
  | leave (i : Nat)
  | send (i : Nat)
  /-- `sendToSocket` returns false, which is only printed. -/
  | sendError (i : Nat)
  deriving DecidableEq

/-- Behind an append that returned `accepted`: `notifyListeners` runs if it is true. -/
def Master.notify (s : Master) (cmd : Command) (sys : System) (accepted : Bool) : Master :=
  if accepted then
    { s with sys, commands := s.commands ++ [cmd], listeners := s.listeners ++ [.notified] }
  else { s with sys }

/-- Replace the listener run `i` by the result of its step. -/
def Master.listen (s : Master) (i : Nat) (next : Listener → Option Listener) : Option Master :=
  (s.listeners[i]?.bind next).map fun l => { s with listeners := s.listeners.set i l }

/-- `std::string::max_size()`: a payload is never longer. -/
def stringMax : Nat := 2 ^ 63 - 2

/-- A `writev` that would reach the largest `off_t` does not succeed. -/
def fits (file : Bytes) : WriterAct → Bool
  | .writev n => file.length + n < offMax
  | _ => true

def masterStep (opts : Options) (s : Master) : MasterAct → Option Master
  | .appendAsync cmd =>
      let resp := serializeToRESP cmd.parts
      if resp.length ≤ stringMax then
        let r := s.sys.aof.appendRawAsync opts resp
        some (s.notify cmd (s.sys.record resp r) r.1)
      else none
  | .appendBlocking cmd =>
      let resp := serializeToRESP cmd.parts
      if resp.length ≤ stringMax then
        (s.sys.aof.appendRawBlocking opts resp).map fun r => s.notify cmd (s.sys.record resp r) r.1
      else none
  | .stop => (step opts s.sys .stop).map fun sys => { s with sys }
  | .join => (step opts s.sys .join).map fun sys => { s with sys }
  | .writer act =>
      if fits s.sys.aof.file act then
        (step opts s.sys (.writer act)).map fun sys => { s with sys }
      else none
  | .load i => s.listen i (Listener.load s.sys.aof.writtenOffset)
  | .read i n => s.listen i (Listener.read s.sys.aof.file n)
  | .leave i => s.listen i (Listener.leave s.sys.aof.file)
  | .send i =>
      (s.listeners[i]?.bind Listener.send).map fun r =>
        { s with listeners := s.listeners.set i r.2, sent := s.sent ++ r.1 }
  | .sendError i =>
      (s.listeners[i]?.bind Listener.send).map fun r =>
        { s with listeners := s.listeners.set i r.2 }

/-- What a step of the master can be. -/
inductive MasterStep (opts : Options) (s : Master) : MasterAct → Master → Prop
  | accept {act : MasterAct} {a : Aof.Act} {cmd : Command} {sys : System}
      (call : a = .appendRawAsync (serializeToRESP cmd.parts) ∨
        a = .appendRawBlocking (serializeToRESP cmd.parts))
      (size : (serializeToRESP cmd.parts).length ≤ stringMax)
      (taken : step opts s.sys a = some sys)
      (recorded : sys.accepted = s.sys.accepted ++ [serializeToRESP cmd.parts])
      (still : sys.aof.file = s.sys.aof.file ∧ sys.aof.writtenOffset = s.sys.aof.writtenOffset) :
      MasterStep opts s act { s with sys, commands := s.commands ++ [cmd],
                                     listeners := s.listeners ++ [.notified] }
  | refuse {act : MasterAct} : MasterStep opts s act s
  | halt {act : MasterAct} {a : Aof.Act} {sys : System} (call : a = .stop ∨ a = .join)
      (taken : step opts s.sys a = some sys) : MasterStep opts s act { s with sys }
  | writer {act : WriterAct} {sys : System} (fit : fits s.sys.aof.file act = true)
      (taken : step opts s.sys (.writer act) = some sys) :
      MasterStep opts s (.writer act) { s with sys }
  | load {i : Nat} (found : s.listeners[i]? = some .notified) :
      MasterStep opts s (.load i)
        { s with listeners := s.listeners.set i
                   (.reading ⟨s.sys.aof.writtenOffset, s.sys.aof.writtenOffset, [], [], false⟩) }
  | read {i n : Nat} {r : Reader} (found : s.listeners[i]? = some (.reading r))
      (idle : r.parsed = []) (quiet : r.raised = false) (some_ : 0 < n)
      (within : r.pos + n ≤ s.sys.aof.file.length) :
      MasterStep opts s (.read i n)
        { s with listeners := s.listeners.set i (.reading (r.read s.sys.aof.file n)) }
  | leave {i : Nat} {r : Reader} (found : s.listeners[i]? = some (.reading r))
      (idle : r.parsed = []) (ended : r.raised = true ∨ s.sys.aof.file.length ≤ r.pos) :
      MasterStep opts s (.leave i) { s with listeners := s.listeners.set i (.finished r) }
  | send {i : Nat} {r : Reader} {place : Nat} {parts : List Bytes}
      {parsed : List (Nat × List Bytes)} (found : s.listeners[i]? = some (.reading r))
      (held : r.parsed = (place, parts) :: parsed) :
      MasterStep opts s (.send i)
        { s with listeners := s.listeners.set i (.reading { r with parsed }),
                 sent := s.sent ++ ((listenerCommand r.offset parts).map (place, ·)).toList }
  | sendError {i : Nat} {r : Reader} {place : Nat} {parts : List Bytes}
      {parsed : List (Nat × List Bytes)} (found : s.listeners[i]? = some (.reading r))
      (held : r.parsed = (place, parts) :: parsed) :
      MasterStep opts s (.sendError i)
        { s with listeners := s.listeners.set i (.reading { r with parsed }) }

theorem listen_eq_some {s t : Master} {i : Nat} {next : Listener → Option Listener}
    (taken : s.listen i next = some t) :
    ∃ l l', s.listeners[i]? = some l ∧ next l = some l' ∧
      t = { s with listeners := s.listeners.set i l' } := by
  obtain ⟨l', found, rfl⟩ := Option.map_eq_some_iff.mp taken
  obtain ⟨l, there, next⟩ := Option.bind_eq_some_iff.mp found
  exact ⟨l, l', there, next, rfl⟩

theorem send_eq_some {l : Listener} {next : List (Nat × DataEntity) × Listener}
    (sent : l.send = some next) :
    ∃ r place parts parsed, l = .reading r ∧ r.parsed = (place, parts) :: parsed ∧
      next = (((listenerCommand r.offset parts).map (place, ·)).toList,
        .reading { r with parsed }) := by
  cases l with
  | reading r =>
      simp only [Listener.send] at sent
      split at sent
      · rename_i place parts parsed held
        cases sent
        exact ⟨r, place, parts, parsed, rfl, held, rfl⟩
      · cases sent
  | _ => cases sent

theorem masterStep_cases {opts : Options} {s t : Master} {act : MasterAct}
    (taken : masterStep opts s act = some t) : MasterStep opts s act t := by
  cases act with
  | appendAsync cmd =>
      obtain ⟨size, ⟨⟩⟩ := Option.ite_none_right_eq_some.mp taken
      rcases appendRawAsync_cases opts s.sys.aof (serializeToRESP cmd.parts) with
        ⟨running, room, same⟩ | ⟨closed, same⟩
      · have step : step opts s.sys (.appendRawAsync (serializeToRESP cmd.parts)) =
            some (s.sys.record _ (s.sys.aof.appendRawAsync opts _)) := rfl
        rw [same] at step ⊢
        exact .accept (Or.inl rfl) size step rfl ⟨rfl, rfl⟩
      · rw [same]
        exact .refuse
  | appendBlocking cmd =>
      obtain ⟨size, taken⟩ := Option.ite_none_right_eq_some.mp taken
      obtain ⟨r, woken, rfl⟩ := Option.map_eq_some_iff.mp taken
      have step : step opts s.sys (.appendRawBlocking (serializeToRESP cmd.parts)) =
          some (s.sys.record (serializeToRESP cmd.parts) r) := by
        rw [Aof.step, woken, Option.map_some]
      rcases appendRawBlocking_cases woken with ⟨running, room, rfl⟩ | ⟨stopped, rfl⟩
      · exact .accept (Or.inr rfl) size step rfl ⟨rfl, rfl⟩
      · exact .refuse
  | stop =>
      obtain ⟨sys, done, rfl⟩ := Option.map_eq_some_iff.mp taken
      exact .halt (Or.inl rfl) done
  | join =>
      obtain ⟨sys, done, rfl⟩ := Option.map_eq_some_iff.mp taken
      exact .halt (Or.inr rfl) done
  | writer act =>
      obtain ⟨fit, done⟩ := Option.ite_none_right_eq_some.mp taken
      obtain ⟨sys, reached, rfl⟩ := Option.map_eq_some_iff.mp done
      exact .writer fit reached
  | load i =>
      obtain ⟨l, l', found, next, rfl⟩ := listen_eq_some taken
      cases l with
      | notified =>
          cases next
          exact .load found
      | _ => cases next
  | read i n =>
      obtain ⟨l, l', found, next, rfl⟩ := listen_eq_some taken
      cases l with
      | reading r =>
          obtain ⟨⟨idle, quiet, some_, -, within⟩, ⟨⟩⟩ := Option.ite_none_right_eq_some.mp next
          exact .read found idle quiet some_ within
      | _ => cases next
  | leave i =>
      obtain ⟨l, l', found, next, rfl⟩ := listen_eq_some taken
      cases l with
      | reading r =>
          obtain ⟨⟨idle, ended⟩, ⟨⟩⟩ := Option.ite_none_right_eq_some.mp next
          exact .leave found idle ended
      | _ => cases next
  | send i =>
      obtain ⟨next, found, rfl⟩ := Option.map_eq_some_iff.mp taken
      obtain ⟨l, there, sent⟩ := Option.bind_eq_some_iff.mp found
      obtain ⟨r, place, parts, parsed, rfl, held, rfl⟩ := send_eq_some sent
      exact .send there held
  | sendError i =>
      obtain ⟨next, found, rfl⟩ := Option.map_eq_some_iff.mp taken
      obtain ⟨l, there, sent⟩ := Option.bind_eq_some_iff.mp found
      obtain ⟨r, place, parts, parsed, rfl, held, rfl⟩ := send_eq_some sent
      exact .sendError there held

end Blp.Replica

import Blp.Lib.CString
import Blp.Lib.Pipe
import Blp.Lib.Runs
import Mathlib.Data.List.TakeDrop

/-!
# The append queue and its writer thread

Producers append payloads to the queue under a mutex; the writer pops a batch under the same
mutex and writes it with `writev`, outside of it. `appendRawAsync`, `appendRawBlocking` and `stop`
are the critical sections of the callers, `writerStep` is one step of `writerLoop`: a locked
section, one call of `writev`, or one unlocked test of `stop_flag_`. `System` puts them together
and keeps track of what was accepted.

The writer is a pipe from the queue to the file (`System.view_step`).
-/

namespace Blp.Aof

open CString Pipes Runs

/-- The fields of `aof::Options` that the queue and the writer test. -/
structure Options where
  maxQueueEntries : Nat
  maxBatchEntries : Nat
  maxBatchBytes : Nat
  deriving DecidableEq

/-- The defaults of `Options`. -/
def Options.default : Options := ⟨2 ^ 16, 512, 64 * 1024⟩

/-! ## The state of an `Aof` -/

/-- Where the writer thread stands in `writerLoop`, with its local variables. `iovs` are the
iovecs from `idx` on; one whose base was advanced is the rest of its string. -/
inductive Writer
  /-- Before the locked section. -/
  | top
  /-- In `cv_.wait_for`. -/
  | waiting
  /-- Behind the locked section, before `batch.empty()`. -/
  | popped (batch : List Bytes)
  /-- In the loop over the slices. -/
  | writing (iovs : List Bytes)
  /-- Behind the `break` of that loop. -/
  | broken (iovs : List Bytes)
  /-- `written_offset_` is stored, the batch not yet cleared. -/
  | stored (iovs : List Bytes)
  /-- `stop_flag_` was seen behind a batch, before the lock. -/
  | flagged
  | exited
  deriving DecidableEq

/-- The members of an `Aof`, the file behind `fd_` and its writer thread. -/
structure AofState where
  file : Bytes
  queue : List Bytes
  stopFlag : Bool
  writtenOffset : Nat
  writer : Writer
  deriving DecidableEq

/-- Behind the constructor: `openFile` stores the file size, `startWriter` clears `stop_flag_`. -/
def AofState.start (file : Bytes) : AofState := ⟨file, [], false, file.length, .top⟩

/-- The locked section of `Aof::appendRawAsync`. -/
def AofState.appendRawAsync (opts : Options) (s : AofState) (resp : Bytes) : Bool × AofState :=
  if s.stopFlag then (false, s)
  else if s.queue.length ≥ opts.maxQueueEntries then (false, s)
  else (true, { s with queue := s.queue ++ [resp] })

/-- The locked section of `Aof::appendRawBlocking`; `none` while it waits on `cv_space_`. -/
def AofState.appendRawBlocking (opts : Options) (s : AofState) (resp : Bytes) :
    Option (Bool × AofState) :=
  if s.stopFlag = true ∨ s.queue.length < opts.maxQueueEntries then
    if s.stopFlag then some (false, s)
    else some (true, { s with queue := s.queue ++ [resp] })
  else none

/-- The loop that moves entries from the queue to the batch: the batch and the queue left. -/
def popLoop (opts : Options) : List Bytes → List Bytes → Nat → List Bytes × List Bytes
  | [], batch, _ => (batch, [])
  | front :: queue, batch, batchBytes =>
      if batch.length < opts.maxBatchEntries ∧ batchBytes < opts.maxBatchBytes then
        popLoop opts queue (batch ++ [front]) (batchBytes + front.length)
      else (batch, front :: queue)

/-- The rest of the locked section at the top of the loop, behind the wait. -/
def AofState.popBatch (opts : Options) (s : AofState) : AofState :=
  let (batch, queue) := popLoop opts s.queue [] 0
  { s with queue, writer := .popped batch }

/-- `IOV_MAX_SLICE`. -/
def iovMaxSlice : Nat := 64

/-- Advance the iovecs by the `remaining` bytes of one `writev`. -/
def advance : List Bytes → Nat → List Bytes
  | [], _ => []
  | iov :: iovs, remaining =>
      if remaining > 0 then
        if remaining ≥ iov.length then advance iovs (remaining - iov.length)
        else iov.drop remaining :: iovs
      else iov :: iovs

/-! ## The steps of the writer -/

inductive WriterAct
  | lock
  | wake
  | emptyTest
  /-- `writev` returns `n`. -/
  | writev (n : Nat)
  /-- `writev` fails with `EINTR`. -/
  | interrupted
  /-- `writev` fails with another error. -/
  | writevError
  | storeOffset
  | flagTest
  | drainTest
  deriving DecidableEq

/-- One step of `Aof::writerLoop`. -/
def writerStep (opts : Options) (s : AofState) : WriterAct → Option AofState
  | .lock =>
      match s.writer with
      | .top =>
          if !s.stopFlag && s.queue.isEmpty then some { s with writer := .waiting }
          else some (s.popBatch opts)
      | _ => none
  | .wake =>
      match s.writer with
      | .waiting => some (s.popBatch opts)
      | _ => none
  | .emptyTest =>
      match s.writer with
      | .popped [] =>
          -- `stop_flag_` is read without the lock here
          if s.stopFlag then some { s with writer := .exited } else some { s with writer := .top }
      | .popped batch => some { s with writer := .writing batch }
      | _ => none
  | .writev n =>
      match s.writer with
      | .writing (iov :: iovs) =>
          let slice := ((iov :: iovs).take iovMaxSlice).flatten
          if n ≤ slice.length then
            some { s with file := s.file ++ slice.take n,
                          writer := .writing (advance (iov :: iovs) n) }
          else none
      | _ => none
  | .interrupted =>
      match s.writer with
      | .writing (_ :: _) => some s
      | _ => none
  | .writevError =>
      match s.writer with
      | .writing (iov :: iovs) => some { s with stopFlag := true, writer := .broken (iov :: iovs) }
      | _ => none
  | .storeOffset =>
      match s.writer with
      | .writing [] => some { s with writtenOffset := s.file.length, writer := .stored [] }
      | .broken iovs => some { s with writtenOffset := s.file.length, writer := .stored iovs }
      | _ => none
  | .flagTest =>
      -- `batch.clear()` comes first: what is left of the iovecs is gone
      match s.writer with
      | .stored _ => some { s with writer := if s.stopFlag then .flagged else .top }
      | _ => none
  | .drainTest =>
      match s.writer with
      | .flagged => some { s with writer := if s.queue.isEmpty then .exited else .top }
      | _ => none

/-- What a step of the writer can be: one constructor for each way through `writerLoop`. -/
inductive WriterStep (opts : Options) (s : AofState) : WriterAct → AofState → Prop
  | wait (place : s.writer = .top) (running : s.stopFlag = false) (empty : s.queue = []) :
      WriterStep opts s .lock { s with writer := .waiting }
  | pop (place : s.writer = .top) (due : s.stopFlag = true ∨ s.queue ≠ []) :
      WriterStep opts s .lock (s.popBatch opts)
  | wake (place : s.writer = .waiting) : WriterStep opts s .wake (s.popBatch opts)
  | exit (place : s.writer = .popped []) (stopped : s.stopFlag = true) :
      WriterStep opts s .emptyTest { s with writer := .exited }
  | idle (place : s.writer = .popped []) (running : s.stopFlag = false) :
      WriterStep opts s .emptyTest { s with writer := .top }
  | prepare {batch : List Bytes} (place : s.writer = .popped batch) (some_ : batch ≠ []) :
      WriterStep opts s .emptyTest { s with writer := .writing batch }
  | writev {iovs : List Bytes} {n : Nat} (place : s.writer = .writing iovs) (some_ : iovs ≠ [])
      (asked : n ≤ (iovs.take iovMaxSlice).flatten.length) :
      WriterStep opts s (.writev n)
        { s with file := s.file ++ (iovs.take iovMaxSlice).flatten.take n,
                 writer := .writing (advance iovs n) }
  | interrupted {iovs : List Bytes} (place : s.writer = .writing iovs) (some_ : iovs ≠ []) :
      WriterStep opts s .interrupted s
  | writevError {iovs : List Bytes} (place : s.writer = .writing iovs) (some_ : iovs ≠ []) :
      WriterStep opts s .writevError { s with stopFlag := true, writer := .broken iovs }
  | storeWritten (place : s.writer = .writing []) :
      WriterStep opts s .storeOffset { s with writtenOffset := s.file.length, writer := .stored [] }
  | storeBroken {iovs : List Bytes} (place : s.writer = .broken iovs) :
      WriterStep opts s .storeOffset
        { s with writtenOffset := s.file.length, writer := .stored iovs }
  | flagged {iovs : List Bytes} (place : s.writer = .stored iovs) (stopped : s.stopFlag = true) :
      WriterStep opts s .flagTest { s with writer := .flagged }
  | again {iovs : List Bytes} (place : s.writer = .stored iovs) (running : s.stopFlag = false) :
      WriterStep opts s .flagTest { s with writer := .top }
  | drained (place : s.writer = .flagged) (empty : s.queue = []) :
      WriterStep opts s .drainTest { s with writer := .exited }
  | drain (place : s.writer = .flagged) (more : s.queue ≠ []) :
      WriterStep opts s .drainTest { s with writer := .top }

theorem writerStep_cases {opts : Options} {s t : AofState} {act : WriterAct}
    (taken : writerStep opts s act = some t) : WriterStep opts s act t := by
  rcases s with ⟨file, queue, stopFlag, writtenOffset, writer⟩
  cases act with
  | lock =>
      cases writer with
      | top =>
          simp only [writerStep] at taken
          split at taken
          · rename_i calm
            cases taken
            simp only [Bool.and_eq_true, Bool.not_eq_true', List.isEmpty_iff] at calm
            exact .wait rfl calm.1 calm.2
          · rename_i due
            cases taken
            refine .pop rfl ?_
            simpa [Classical.or_iff_not_imp_left] using due
      | _ => cases taken
  | wake =>
      cases writer with
      | waiting =>
          cases taken
          exact .wake rfl
      | _ => cases taken
  | emptyTest =>
      cases writer with
      | popped batch =>
          cases batch with
          | nil =>
              simp only [writerStep] at taken
              split at taken
              · rename_i stopped
                cases taken
                exact .exit rfl stopped
              · rename_i running
                cases taken
                exact .idle rfl (Bool.eq_false_iff.mpr running)
          | cons s batch =>
              cases taken
              exact .prepare rfl (List.cons_ne_nil _ _)
      | _ => cases taken
  | writev n =>
      cases writer with
      | writing iovs =>
          cases iovs with
          | nil => cases taken
          | cons iov iovs =>
              simp only [writerStep] at taken
              split at taken
              · rename_i asked
                cases taken
                exact .writev rfl (List.cons_ne_nil _ _) asked
              · cases taken
      | _ => cases taken
  | interrupted =>
      cases writer with
      | writing iovs =>
          cases iovs with
          | nil => cases taken
          | cons iov iovs =>
              cases taken
              exact .interrupted rfl (List.cons_ne_nil _ _)
      | _ => cases taken
  | writevError =>
      cases writer with
      | writing iovs =>
          cases iovs with
          | nil => cases taken
          | cons iov iovs =>
              cases taken
              exact .writevError rfl (List.cons_ne_nil _ _)
      | _ => cases taken
  | storeOffset =>
      cases writer with
      | writing iovs =>
          cases iovs with
          | nil =>
              cases taken
              exact .storeWritten rfl
          | cons iov iovs => cases taken
      | broken iovs =>
          cases taken
          exact .storeBroken rfl
      | _ => cases taken
  | flagTest =>
      cases writer with
      | stored iovs =>
          cases taken
          cases stopFlag with
          | false => exact .again rfl rfl
          | true => exact .flagged rfl rfl
      | _ => cases taken
  | drainTest =>
      cases writer with
      | flagged =>
          cases taken
          cases queue with
          | nil => exact .drained rfl rfl
          | cons s queue => exact .drain rfl (List.cons_ne_nil _ _)
      | _ => cases taken

/-! ## Popping and advancing -/

theorem popLoop_append (opts : Options) (queue batch : List Bytes) (batchBytes : Nat) :
    (popLoop opts queue batch batchBytes).1 ++ (popLoop opts queue batch batchBytes).2 =
      batch ++ queue := by
  induction queue generalizing batch batchBytes with
  | nil => rfl
  | cons front queue ih =>
      rw [popLoop]
      split
      · rw [ih, List.append_assoc, List.singleton_append]
      · rfl

/-- The iovecs hold what `writev` has not written yet. -/
theorem flatten_advance (iovs : List Bytes) (remaining : Nat) :
    (advance iovs remaining).flatten = iovs.flatten.drop remaining := by
  induction iovs generalizing remaining with
  | nil => simp [advance]
  | cons iov iovs ih =>
      rw [advance]
      split
      · split
        · rename_i whole
          rw [ih, List.flatten_cons, List.drop_append, List.drop_eq_nil_of_le whole,
            List.nil_append]
        · rename_i inside
          rw [List.flatten_cons, List.flatten_cons, List.drop_append_of_le_length (by omega)]
      · rename_i none
        rw [Nat.eq_zero_of_not_pos none, List.drop_zero]

/-- What one `writev` writes is the beginning of all that is left. -/
theorem take_slice {iovs : List Bytes} {n : Nat}
    (asked : n ≤ (iovs.take iovMaxSlice).flatten.length) :
    (iovs.take iovMaxSlice).flatten.take n = iovs.flatten.take n := by
  conv_rhs => rw [← List.take_append_drop iovMaxSlice iovs, List.flatten_append]
  rw [List.take_append_of_le_length asked]

/-! ## Producers, `stop` and the writer -/

/-- Where the call of `Aof::stop` is. -/
inductive StopCall
  | notCalled
  /-- In `writer_thread_.join()`. -/
  | joining
  | returned
  deriving DecidableEq

/-- An `Aof` in use, with what the steps so far amount to: the payloads whose append returned true,
in that order, and the bytes of batches that were cleared before they were written. -/
structure System where
  aof : AofState
  stop : StopCall
  accepted : List Bytes
  dropped : Bytes
  deriving DecidableEq

def System.start (file : Bytes) : System := ⟨AofState.start file, .notCalled, [], []⟩

inductive Act
  | appendRawAsync (resp : Bytes)
  | appendRawBlocking (resp : Bytes)
  | stop
  | join
  | writer (act : WriterAct)
  deriving DecidableEq

/-- The state behind an append that returned `r.1`. -/
def System.record (s : System) (resp : Bytes) (r : Bool × AofState) : System :=
  { s with aof := r.2, accepted := if r.1 then s.accepted ++ [resp] else s.accepted }

/-- The bytes that `batch.clear()` throws away. -/
def AofState.cleared (s : AofState) (act : WriterAct) : Bytes :=
  match act, s.writer with
  | .flagTest, .stored iovs => iovs.flatten
  | _, _ => []

def step (opts : Options) (s : System) : Act → Option System
  | .appendRawAsync resp => some (s.record resp (s.aof.appendRawAsync opts resp))
  | .appendRawBlocking resp => (s.aof.appendRawBlocking opts resp).map (s.record resp)
  | .stop =>
      match s.stop with
      | .notCalled =>
          if s.aof.stopFlag then some { s with stop := .returned }
          else some { s with aof := { s.aof with stopFlag := true }, stop := .joining }
      | _ => none
  | .join =>
      if s.stop = .joining ∧ s.aof.writer = .exited then some { s with stop := .returned } else none
  | .writer act =>
      (writerStep opts s.aof act).map fun aof =>
        { s with aof, dropped := s.dropped ++ s.aof.cleared act }

/-- What a step of the system can be. -/
inductive Step (opts : Options) (s : System) : Act → System → Prop
  | accept {a : Act} {resp : Bytes} (call : a = .appendRawAsync resp ∨ a = .appendRawBlocking resp)
      (running : s.aof.stopFlag = false) (room : s.aof.queue.length < opts.maxQueueEntries) :
      Step opts s a { s with aof := { s.aof with queue := s.aof.queue ++ [resp] },
                             accepted := s.accepted ++ [resp] }
  | refuse {a : Act} {resp : Bytes} (call : a = .appendRawAsync resp ∨ a = .appendRawBlocking resp)
      (closed : s.aof.stopFlag = true ∨ opts.maxQueueEntries ≤ s.aof.queue.length) : Step opts s a s
  | stopAgain (before : s.stop = .notCalled) (stopped : s.aof.stopFlag = true) :
      Step opts s .stop { s with stop := .returned }
  | stop (before : s.stop = .notCalled) (running : s.aof.stopFlag = false) :
      Step opts s .stop { s with aof := { s.aof with stopFlag := true }, stop := .joining }
  | join (joining : s.stop = .joining) (ended : s.aof.writer = .exited) :
      Step opts s .join { s with stop := .returned }
  | writer {act : WriterAct} {aof : AofState} (taken : WriterStep opts s.aof act aof) :
      Step opts s (.writer act) { s with aof, dropped := s.dropped ++ s.aof.cleared act }

/-- An append either returns true and adds its payload to the queue or returns false and changes
nothing. -/
theorem appendRawAsync_cases (opts : Options) (s : AofState) (resp : Bytes) :
    (s.stopFlag = false ∧ s.queue.length < opts.maxQueueEntries ∧
      s.appendRawAsync opts resp = (true, { s with queue := s.queue ++ [resp] })) ∨
    ((s.stopFlag = true ∨ opts.maxQueueEntries ≤ s.queue.length) ∧
      s.appendRawAsync opts resp = (false, s)) := by
  unfold AofState.appendRawAsync
  split
  · rename_i stopped
    exact Or.inr ⟨Or.inl stopped, rfl⟩
  · rename_i running
    split
    · rename_i full
      exact Or.inr ⟨Or.inr full, rfl⟩
    · rename_i room
      exact Or.inl ⟨Bool.eq_false_iff.mpr running, Nat.lt_of_not_le room, rfl⟩

theorem appendRawBlocking_cases {opts : Options} {s : AofState} {resp : Bytes}
    {r : Bool × AofState} (woken : s.appendRawBlocking opts resp = some r) :
    (s.stopFlag = false ∧ s.queue.length < opts.maxQueueEntries ∧
      r = (true, { s with queue := s.queue ++ [resp] })) ∨
    (s.stopFlag = true ∧ r = (false, s)) := by
  unfold AofState.appendRawBlocking at woken
  split at woken
  · rename_i due
    split at woken
    · rename_i stopped
      cases woken
      exact Or.inr ⟨stopped, rfl⟩
    · rename_i running
      cases woken
      exact Or.inl ⟨Bool.eq_false_iff.mpr running, due.resolve_left running, rfl⟩
  · cases woken

/-- A step of the writer leaves the rest of the system alone. -/
theorem step_writer {opts : Options} {s t : System} {act : WriterAct}
    (taken : step opts s (.writer act) = some t) :
    ∃ aof, WriterStep opts s.aof act aof ∧
      t = { s with aof, dropped := s.dropped ++ s.aof.cleared act } := by
  obtain ⟨aof, done, rfl⟩ := Option.map_eq_some_iff.mp taken
  exact ⟨aof, writerStep_cases done, rfl⟩

theorem step_cases {opts : Options} {s t : System} {a : Act} (taken : step opts s a = some t) :
    Step opts s a t := by
  cases a with
  | appendRawAsync resp =>
      cases taken
      rcases appendRawAsync_cases opts s.aof resp with ⟨running, room, same⟩ | ⟨closed, same⟩
      · rw [same]
        exact .accept (Or.inl rfl) running room
      · rw [same]
        exact .refuse (Or.inl rfl) closed
  | appendRawBlocking resp =>
      obtain ⟨r, woken, rfl⟩ := Option.map_eq_some_iff.mp taken
      rcases appendRawBlocking_cases woken with ⟨running, room, rfl⟩ | ⟨stopped, rfl⟩
      · exact .accept (Or.inr rfl) running room
      · exact .refuse (Or.inr rfl) (Or.inl stopped)
  | stop =>
      rcases s with ⟨aof, stop, accepted, dropped⟩
      cases stop with
      | notCalled =>
          simp only [step] at taken
          split at taken
          · rename_i stopped
            cases taken
            exact .stopAgain rfl stopped
          · rename_i running
            cases taken
            exact .stop rfl (Bool.eq_false_iff.mpr running)
      | _ => cases taken
  | join =>
      simp only [step] at taken
      split at taken
      · rename_i ended
        cases taken
        exact .join ended.1 ended.2
      · cases taken
  | writer act =>
      obtain ⟨aof, done, rfl⟩ := step_writer taken
      exact .writer done

/-! ## The writer as a pipe -/

/-- The bytes of the writer's batch that are not written yet. -/
def Writer.rest : Writer → Bytes
  | .popped batch => batch.flatten
  | .writing iovs => iovs.flatten
  | .broken iovs => iovs.flatten
  | .stored iovs => iovs.flatten
  | _ => []

/-- What is between the producers and the file. -/
def AofState.pending (s : AofState) : Bytes := s.writer.rest ++ s.queue.flatten

/-- The system as a pipe from the producers to the file, `init` being there from the start. -/
def System.view (init : Bytes) (s : System) : Pipe UInt8 :=
  ⟨init ++ s.accepted.flatten, s.aof.file, s.aof.pending, s.dropped⟩

@[simp] theorem writer_popBatch (opts : Options) (s : AofState) :
    (s.popBatch opts).writer = .popped (popLoop opts s.queue [] 0).1 := rfl

theorem pending_popBatch (opts : Options) (s : AofState) :
    (s.popBatch opts).pending = s.queue.flatten := by
  have split := popLoop_append opts s.queue [] 0
  simp only [AofState.popBatch, AofState.pending, Writer.rest]
  rw [← List.flatten_append, split, List.nil_append]

/-- What a step in a given state can do to the pipe. -/
inductive Moved (s : System) : Op UInt8 → Prop
  | push (xs : Bytes) : Moved s (.push xs)
  | writev {iovs : List Bytes} (n : Nat) (place : s.aof.writer = .writing iovs) : Moved s (.move n)
  | clear {iovs : List Bytes} (place : s.aof.writer = .stored iovs) :
      Moved s (.lose iovs.flatten.length)

/-- **Refinement**: every step pushes into the pipe, moves bytes to the file, or clears a batch. -/
theorem System.view_step {opts : Options} {s t : System} {a : Act} (taken : step opts s a = some t)
    (init : Bytes) : ∃ op, Moved s op ∧ t.view init = (s.view init).apply op := by
  have still : ∀ {t : System}, t.accepted = s.accepted → t.aof.file = s.aof.file →
      t.aof.pending = s.aof.pending → t.dropped = s.dropped →
      ∃ op, Moved s op ∧ t.view init = (s.view init).apply op := by
    intro t accepted file pending dropped
    refine ⟨.push [], .push [], ?_⟩
    rw [Pipe.apply_push_nil, System.view, System.view, accepted, file, pending, dropped]
  cases step_cases taken with
  | @accept _ resp call running room =>
      refine ⟨.push resp, .push resp, ?_⟩
      simp [System.view, Pipe.apply, AofState.pending]
  | refuse => exact still rfl rfl rfl rfl
  | stopAgain => exact still rfl rfl rfl rfl
  | stop => exact still rfl rfl rfl rfl
  | join => exact still rfl rfl rfl rfl
  | writer done =>
      have quiet : ∀ {aof : AofState}, aof.file = s.aof.file → aof.writer.rest = s.aof.writer.rest →
          aof.queue = s.aof.queue → ∃ op, Moved s op ∧
            System.view init { s with aof, dropped := s.dropped ++ [] } =
              (s.view init).apply op := by
        intro aof file rest queue
        refine still rfl file ?_ (List.append_nil _)
        simp only [AofState.pending, rest, queue]
      cases done with
      | wait place => exact quiet rfl (by rw [place]; rfl) rfl
      | pop place =>
          refine still rfl rfl ?_ (List.append_nil _)
          rw [pending_popBatch, AofState.pending, place]
          rfl
      | wake place =>
          refine still rfl rfl ?_ (List.append_nil _)
          rw [pending_popBatch, AofState.pending, place]
          rfl
      | exit place => exact quiet rfl (by rw [place]; rfl) rfl
      | idle place => exact quiet rfl (by rw [place]; rfl) rfl
      | prepare place => exact quiet rfl (by rw [place]; rfl) rfl
      | @writev iovs n place some_ asked =>
          have within : n ≤ iovs.flatten.length := by
            rw [← List.take_append_drop iovMaxSlice iovs, List.flatten_append, List.length_append]
            omega
          refine ⟨.move n, .writev n place, ?_⟩
          simp only [System.view, Pipe.apply, AofState.pending, AofState.cleared, place,
            Writer.rest, take_slice asked, flatten_advance, List.take_append_of_le_length within,
            List.drop_append_of_le_length within, List.append_nil]
      | interrupted => exact quiet rfl rfl rfl
      | writevError place => exact quiet rfl (by rw [place]; rfl) rfl
      | storeWritten place => exact quiet rfl (by rw [place]; rfl) rfl
      | storeBroken place => exact quiet rfl (by rw [place]; rfl) rfl
      | flagged place =>
          refine ⟨_, .clear place, ?_⟩
          simp [System.view, Pipe.apply, AofState.pending, AofState.cleared, place, Writer.rest]
      | again place =>
          refine ⟨_, .clear place, ?_⟩
          simp [System.view, Pipe.apply, AofState.pending, AofState.cleared, place, Writer.rest]
      | drained place => exact quiet rfl (by rw [place]; rfl) rfl
      | drain place => exact quiet rfl (by rw [place]; rfl) rfl

end Blp.Aof

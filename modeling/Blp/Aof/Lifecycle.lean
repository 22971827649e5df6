import Blp.Aof.Shutdown
import Blp.Lib.Slots

/-!
# Starting and stopping the writer

`startWriter` and `stop` may be called any number of times and from several threads at once.
`startWriter` holds `start_mu_`, which nobody else takes: between its three writes (`stop_flag_`,
the thread, `writer_started_`) a `stop`, an append or the writer may take any step. `stop` tests and
sets `stop_flag_` under the mutex of the queue, then joins the thread, resets `writer_started_` and
closes `fd_`, each without a lock; the writer itself sets `stop_flag_` when `writev` fails. Only the
constructor opens `fd_`.

* `accepting_is_live`: in the runs in which `stop` does not set the flag between the writes of a
  `startWriter`, that one takes effect only while `fd_` is open, and `stop` closes it only while
  `stop_flag_` is set, whoever is accepted has a writer, or gets it by the next write of a
  `startWriter`.
* `stop_stops_iff`: where no `startWriter` is under way when `stop` sets the flag, `stop` returns
  with the thread joined and `fd_` closed exactly in the runs in which it finds `stop_flag_` set
  only behind another `stop` that has come to its end.
* `terminates_overlapping`, `stop_overlapping`: what may happen where the two overlap.
-/

namespace Blp.Aof

open CString Runs Slots

/-! ## The steps -/

/-- How far a call of `startWriter` has come. -/
inductive StartPlace
  /-- It has not taken `start_mu_` yet. -/
  | called
  /-- It has cleared `stop_flag_`. -/
  | cleared
  /-- It has created the thread. -/
  | created
  | returned
  deriving DecidableEq

/-- Between the first and the last of its writes. -/
def StartPlace.Writing : StartPlace → Prop
  | .cleared => True
  | .created => True
  | _ => False

instance (p : StartPlace) : Decidable p.Writing :=
  match p with
  | .called => isFalse id
  | .cleared => isTrue True.intro
  | .created => isTrue True.intro
  | .returned => isFalse id

/-- How far a call of `stop` has come. -/
inductive StopPlace
  /-- It has set `stop_flag_` and waits for the thread. -/
  | flagged
  | joined
  /-- It has reset `writer_started_`. -/
  | unstarted
  /-- It has returned at its end. -/
  | closed
  /-- It has found `stop_flag_` set and returned. -/
  | early
  deriving DecidableEq

/-- A call of `stop`, and whether `startWriter` was called since it began. -/
structure StopRun where
  place : StopPlace
  restarted : Bool
  deriving DecidableEq

/-- An `Aof` with its descriptor, `writer_started_`, `writer_thread_.joinable()`, and the calls of
`startWriter` and of `stop`, that of the destructor among them; `failed` says that it was the writer
that set `stop_flag_`, `terminated` that `std::terminate` was called. -/
structure Lifecycle where
  aof : AofState
  fdOpen : Bool
  started : Bool
  joinable : Bool
  starts : List StartPlace
  stops : List StopRun
  failed : Bool
  terminated : Bool
  deriving DecidableEq

/-- Behind the constructor. -/
def Lifecycle.start (file : Bytes) : Lifecycle :=
  ⟨AofState.start file, true, true, true, [], [], false, false⟩

inductive LifeAct
  /-- A new call of `startWriter`. -/
  | startWriter
  /-- It takes `start_mu_`, tests `writer_started_` and clears `stop_flag_`. -/
  | clearFlag (i : Nat)
  /-- `writer_thread_ = std::thread(...)`. -/
  | createThread (i : Nat)
  /-- `writer_started_ = true`, and the call returns. -/
  | setStarted (i : Nat)
  /-- A new call of `stop` takes its locked section. -/
  | stop
  | join (i : Nat)
  /-- `writer_started_ = false`. -/
  | unstart (i : Nat)
  /-- `fd_` is closed, if it is open, and the call returns. -/
  | close (i : Nat)
  | appendRawAsync (resp : Bytes)
  | appendRawBlocking (resp : Bytes)
  | writer (act : WriterAct)
  deriving DecidableEq

/-- A step of the writer. With `fd_` at -1, `writev` fails and `lseek` too. -/
def writerStepOn (opts : Options) (fdOpen : Bool) (s : AofState) (act : WriterAct) :
    Option AofState :=
  if fdOpen then writerStep opts s act
  else
    match act with
    | .writev _ => none
    | .interrupted => none
    | act =>
        (writerStep opts s act).map fun t => { t with writtenOffset := s.writtenOffset }

def StopRun.restart (c : StopRun) : StopRun := { c with restarted := true }

/-- A step of a process that has not been terminated. -/
def runningStep (opts : Options) (s : Lifecycle) : LifeAct → Option Lifecycle
  | .startWriter =>
      some { s with starts := s.starts ++ [.called], stops := s.stops.map StopRun.restart }
  | .clearFlag i =>
      -- `start_mu_` is free when no other call is between its writes
      if s.starts[i]? = some .called ∧ ∀ p ∈ s.starts, ¬ p.Writing then
        if s.started then some { s with starts := s.starts.set i .returned }
        else
          some { s with
            aof := { s.aof with stopFlag := false }
            starts := s.starts.set i .cleared
            failed := false }
      else none
  | .createThread i =>
      if s.starts[i]? = some .cleared then
        -- a `std::thread` that is joinable must not be assigned to
        if s.joinable then some { s with terminated := true }
        else
          some { s with
            aof := { s.aof with writer := .top }
            joinable := true
            starts := s.starts.set i .created }
      else none
  | .setStarted i =>
      if s.starts[i]? = some .created then
        some { s with started := true, starts := s.starts.set i .returned }
      else none
  | .stop =>
      if s.aof.stopFlag then some { s with stops := s.stops ++ [⟨.early, false⟩] }
      else
        some { s with
          aof := { s.aof with stopFlag := true }
          stops := s.stops ++ [⟨.flagged, false⟩] }
  | .join i =>
      match s.stops[i]? with
      | some ⟨.flagged, restarted⟩ =>
          if s.joinable = false ∨ s.aof.writer = .exited then
            some { s with joinable := false, stops := s.stops.set i ⟨.joined, restarted⟩ }
          else none
      | _ => none
  | .unstart i =>
      match s.stops[i]? with
      | some ⟨.joined, restarted⟩ =>
          some { s with started := false, stops := s.stops.set i ⟨.unstarted, restarted⟩ }
      | _ => none
  | .close i =>
      match s.stops[i]? with
      | some ⟨.unstarted, restarted⟩ =>
          some { s with fdOpen := false, stops := s.stops.set i ⟨.closed, restarted⟩ }
      | _ => none
  | .appendRawAsync resp => some { s with aof := (s.aof.appendRawAsync opts resp).2 }
  | .appendRawBlocking resp =>
      (s.aof.appendRawBlocking opts resp).map fun r => { s with aof := r.2 }
  | .writer act =>
      (writerStepOn opts s.fdOpen s.aof act).map fun aof =>
        { s with aof, failed := s.failed || (act == .writevError && !s.aof.stopFlag) }

def lifeStep (opts : Options) (s : Lifecycle) (act : LifeAct) : Option Lifecycle :=
  if s.terminated then none else runningStep opts s act

/-- What a step can be. -/
inductive LifeStep (opts : Options) (s : Lifecycle) : LifeAct → Lifecycle → Prop
  | call :
      LifeStep opts s .startWriter
        { s with starts := s.starts ++ [.called], stops := s.stops.map StopRun.restart }
  | startAgain {i : Nat} (here : s.starts[i]? = some .called) (running : s.started = true) :
      LifeStep opts s (.clearFlag i) { s with starts := s.starts.set i .returned }
  | clear {i : Nat} (here : s.starts[i]? = some .called) (free : ∀ p ∈ s.starts, ¬ p.Writing)
      (stopped : s.started = false) :
      LifeStep opts s (.clearFlag i)
        { s with
          aof := { s.aof with stopFlag := false }
          starts := s.starts.set i .cleared
          failed := false }
  | terminate {i : Nat} (here : s.starts[i]? = some .cleared) (joinable : s.joinable = true) :
      LifeStep opts s (.createThread i) { s with terminated := true }
  | create {i : Nat} (here : s.starts[i]? = some .cleared) (free : s.joinable = false) :
      LifeStep opts s (.createThread i)
        { s with
          aof := { s.aof with writer := .top }
          joinable := true
          starts := s.starts.set i .created }
  | begun {i : Nat} (here : s.starts[i]? = some .created) :
      LifeStep opts s (.setStarted i)
        { s with started := true, starts := s.starts.set i .returned }
  | early (stopped : s.aof.stopFlag = true) :
      LifeStep opts s .stop { s with stops := s.stops ++ [⟨.early, false⟩] }
  | flag (running : s.aof.stopFlag = false) :
      LifeStep opts s .stop
        { s with
          aof := { s.aof with stopFlag := true }
          stops := s.stops ++ [⟨.flagged, false⟩] }
  | join {i : Nat} {restarted : Bool} (here : s.stops[i]? = some ⟨.flagged, restarted⟩)
      (ended : s.joinable = false ∨ s.aof.writer = .exited) :
      LifeStep opts s (.join i)
        { s with joinable := false, stops := s.stops.set i ⟨.joined, restarted⟩ }
  | unstart {i : Nat} {restarted : Bool} (here : s.stops[i]? = some ⟨.joined, restarted⟩) :
      LifeStep opts s (.unstart i)
        { s with started := false, stops := s.stops.set i ⟨.unstarted, restarted⟩ }
  | close {i : Nat} {restarted : Bool} (here : s.stops[i]? = some ⟨.unstarted, restarted⟩) :
      LifeStep opts s (.close i)
        { s with fdOpen := false, stops := s.stops.set i ⟨.closed, restarted⟩ }
  | accept {act : LifeAct} {resp : Bytes}
      (call : act = .appendRawAsync resp ∨ act = .appendRawBlocking resp)
      (running : s.aof.stopFlag = false) (room : s.aof.queue.length < opts.maxQueueEntries) :
      LifeStep opts s act { s with aof := { s.aof with queue := s.aof.queue ++ [resp] } }
  | refuse {act : LifeAct} {resp : Bytes}
      (call : act = .appendRawAsync resp ∨ act = .appendRawBlocking resp)
      (closed : s.aof.stopFlag = true ∨ opts.maxQueueEntries ≤ s.aof.queue.length) :
      LifeStep opts s act s
  | writer {act : WriterAct} {aof : AofState} (writtenOffset : Nat)
      (done : WriterStep opts s.aof act aof) :
      LifeStep opts s (.writer act)
        { s with
          aof := { aof with writtenOffset }
          failed := s.failed || (act == .writevError && !s.aof.stopFlag) }

theorem writerStepOn_cases {opts : Options} {fdOpen : Bool} {s t : AofState} {act : WriterAct}
    (taken : writerStepOn opts fdOpen s act = some t) :
    ∃ aof, WriterStep opts s act aof ∧ t = { aof with writtenOffset := t.writtenOffset } := by
  unfold writerStepOn at taken
  split at taken
  · exact ⟨t, writerStep_cases taken, rfl⟩
  · split at taken
    · cases taken
    · cases taken
    · obtain ⟨aof, done, rfl⟩ := Option.map_eq_some_iff.mp taken
      exact ⟨aof, writerStep_cases done, rfl⟩

theorem runningStep_cases {opts : Options} {s t : Lifecycle} {a : LifeAct}
    (taken : runningStep opts s a = some t) : LifeStep opts s a t := by
  cases a with
  | startWriter =>
      cases taken
      exact .call
  | clearFlag i =>
      obtain ⟨⟨here, free⟩, taken⟩ := Option.ite_none_right_eq_some.mp taken
      split at taken
      · rename_i running
        cases taken
        exact .startAgain here running
      · rename_i stopped
        cases taken
        exact .clear here free (Bool.eq_false_iff.mpr stopped)
  | createThread i =>
      obtain ⟨here, taken⟩ := Option.ite_none_right_eq_some.mp taken
      split at taken
      · rename_i joinable
        cases taken
        exact .terminate here joinable
      · rename_i free
        cases taken
        exact .create here (Bool.eq_false_iff.mpr free)
  | setStarted i =>
      obtain ⟨here, same⟩ := Option.ite_none_right_eq_some.mp taken
      cases same
      exact .begun here
  | stop =>
      simp only [runningStep] at taken
      split at taken
      · rename_i stopped
        cases taken
        exact .early stopped
      · rename_i running
        cases taken
        exact .flag (Bool.eq_false_iff.mpr running)
  | join i =>
      simp only [runningStep] at taken
      split at taken
      · rename_i restarted here
        obtain ⟨ended, same⟩ := Option.ite_none_right_eq_some.mp taken
        cases same
        exact .join here ended
      · cases taken
  | unstart i =>
      simp only [runningStep] at taken
      split at taken
      · rename_i restarted here
        cases taken
        exact .unstart here
      · cases taken
  | close i =>
      simp only [runningStep] at taken
      split at taken
      · rename_i restarted here
        cases taken
        exact .close here
      · cases taken
  | appendRawAsync resp =>
      cases taken
      rcases appendRawAsync_cases opts s.aof resp with ⟨running, room, same⟩ | ⟨closed, same⟩
      · rw [same]
        exact .accept (Or.inl rfl) running room
      · rw [same]
        exact .refuse (Or.inl rfl) closed
  | appendRawBlocking resp =>
      obtain ⟨r, woken, rfl⟩ := Option.map_eq_some_iff.mp taken
      rcases appendRawBlocking_cases woken with ⟨running, room, rfl⟩ | ⟨stopped, rfl⟩
      · exact .accept (Or.inr rfl) running room
      · exact .refuse (Or.inr rfl) (Or.inl stopped)
  | writer act =>
      obtain ⟨aof, done, rfl⟩ := Option.map_eq_some_iff.mp taken
      obtain ⟨aof', step, same⟩ := writerStepOn_cases done
      rw [same]
      exact .writer _ step

theorem lifeStep_eq_some {opts : Options} {s t : Lifecycle} {a : LifeAct} :
    lifeStep opts s a = some t ↔ s.terminated = false ∧ runningStep opts s a = some t := by
  unfold lifeStep
  cases s.terminated <;> simp

theorem lifeStep_cases {opts : Options} {s t : Lifecycle} {a : LifeAct}
    (taken : lifeStep opts s a = some t) : LifeStep opts s a t :=
  runningStep_cases (lifeStep_eq_some.mp taken).2

/-! ## The phases of a lifecycle -/

/-- Between the locked section of `stop` and the reset of `writer_started_`. -/
def StopPlace.Busy : StopPlace → Prop
  | .flagged => True
  | .joined => True
  | _ => False

def places (stops : List StopRun) : List StopPlace := stops.map StopRun.place

@[simp] theorem places_restart (stops : List StopRun) :
    places (stops.map StopRun.restart) = places stops := by
  rw [places, List.map_map, places]
  rfl

@[simp] theorem places_concat (stops : List StopRun) (c : StopRun) :
    places (stops ++ [c]) = places stops ++ [c.place] := List.map_append

@[simp] theorem places_set (stops : List StopRun) (i : Nat) (c : StopRun) :
    places (stops.set i c) = (places stops).set i c.place := List.map_set

theorem places_of_some {stops : List StopRun} {i : Nat} {c : StopRun}
    (here : stops[i]? = some c) : (places stops)[i]? = some c.place := by
  rw [places, List.getElem?_map, here]
  rfl

/-- What an `Aof` goes through while `stop` and `startWriter` are kept apart: it runs; a call of
`stop` waits for the thread, has joined it, has reset `writer_started_`; a call of `startWriter` has
cleared the flag, has created the thread; then it runs again. `failed` says that the writer has set
the flag, and from there is no way on but to `running true`. -/
inductive Phase
  | running (failed : Bool)
  | stopping (i : Nat)
  | joined (i : Nat)
  | detached
  | cleared (i : Nat)
  | created (i : Nat) (failed : Bool)

namespace Phase

def flag : Phase → Bool
  | running failed => failed
  | cleared _ => false
  | created _ failed => failed
  | _ => true

def started : Phase → Bool
  | running _ => true
  | stopping _ => true
  | joined _ => true
  | _ => false

def joinable : Phase → Bool
  | running _ => true
  | stopping _ => true
  | created _ _ => true
  | _ => false

def failed : Phase → Bool
  | running failed => failed
  | created _ failed => failed
  | _ => false

/-- The call of `stop` that is busy. -/
def busy : Phase → Option (Nat × StopPlace)
  | stopping i => some (i, .flagged)
  | joined i => some (i, .joined)
  | _ => none

/-- The call of `startWriter` between its writes. -/
def writing : Phase → Option (Nat × StartPlace)
  | cleared i => some (i, .cleared)
  | created i _ => some (i, .created)
  | _ => none

theorem writing_valid {p : Phase} {i : Nat} {place : StartPlace}
    (held : p.writing = some (i, place)) : place.Writing := by
  cases p <;> cases held <;> exact True.intro

end Phase

structure InPhase (s : Lifecycle) (p : Phase) : Prop where
  flag : s.aof.stopFlag = p.flag
  started : s.started = p.started
  joinable : s.joinable = p.joinable
  failed : s.failed = p.failed
  busy : Sole StopPlace.Busy (places s.stops) p.busy
  writing : Sole StartPlace.Writing s.starts p.writing

/-- At the locked section of `stop` that sets the flag, no `startWriter` is between its writes. -/
def Apart (s : Lifecycle) (a : LifeAct) : Prop :=
  a = .stop → s.aof.stopFlag = false → ∀ p ∈ s.starts, ¬ p.Writing

instance (s : Lifecycle) (a : LifeAct) : Decidable (Apart s a) :=
  inferInstanceAs (Decidable (_ → _ → ∀ p ∈ s.starts, ¬ p.Writing))

/-- What is true of an `Aof` while `stop` and `startWriter` are kept apart. -/
structure Coherent (s : Lifecycle) : Prop where
  phase : ∃ p, InPhase s p
  leaving : s.joinable = true → s.aof.writer.Leaving → s.aof.stopFlag = true
  ended : s.joinable = false → s.aof.writer = .exited
  closed : s.fdOpen = false ↔ ∃ c ∈ s.stops, c.place = .closed
  alive : s.terminated = false

theorem Coherent.start (file : Bytes) : Coherent (Lifecycle.start file) where
  phase := ⟨.running false, rfl, rfl, rfl, rfl, Sole.nil, Sole.nil⟩
  leaving := fun _ => False.elim
  ended := Bool.noConfusion
  closed := ⟨Bool.noConfusion, fun closed => absurd closed.choose_spec.1 List.not_mem_nil⟩
  alive := rfl

/-! ### The writer -/

theorem writerStep_flag {opts : Options} {s t : AofState} {act : WriterAct}
    (done : WriterStep opts s act t) :
    act ≠ .writevError ∧ t.stopFlag = s.stopFlag ∨ act = .writevError ∧ t.stopFlag = true := by
  cases done with
  | writevError => exact Or.inr ⟨rfl, rfl⟩
  | _ => exact Or.inl ⟨WriterAct.noConfusion, rfl⟩

theorem writerStep_leaving {opts : Options} {s t : AofState} {act : WriterAct}
    (leaving : s.writer.Leaving → s.stopFlag = true) (done : WriterStep opts s act t) :
    t.writer.Leaving → t.stopFlag = true := by
  cases done with
  | exit place stopped => exact fun _ => stopped
  | flagged place stopped => exact fun _ => stopped
  | drained place empty => exact fun _ => leaving (by rw [place]; exact True.intro)
  | interrupted place => exact leaving
  | writevError place => exact fun _ => rfl
  | _ => exact False.elim

/-! ### Every step -/

namespace InPhase

variable {s : Lifecycle} {p : Phase} {i : Nat}

/-- A call of `stop` that waits is the one that the phase is about. -/
theorem of_flagged (h : InPhase s p) {restarted : Bool}
    (here : s.stops[i]? = some ⟨.flagged, restarted⟩) : p = .stopping i := by
  have held := h.busy.eq (places_of_some here) True.intro
  cases p <;> cases held
  rfl

theorem of_joined (h : InPhase s p) {restarted : Bool}
    (here : s.stops[i]? = some ⟨.joined, restarted⟩) : p = .joined i := by
  have held := h.busy.eq (places_of_some here) True.intro
  cases p <;> cases held
  rfl

theorem of_cleared (h : InPhase s p) (here : s.starts[i]? = some .cleared) : p = .cleared i := by
  have held := h.writing.eq here True.intro
  cases p <;> cases held
  rfl

theorem of_created (h : InPhase s p) (here : s.starts[i]? = some .created) :
    ∃ failed, p = .created i failed := by
  have held := h.writing.eq here True.intro
  cases p <;> cases held
  exact ⟨_, rfl⟩

/-- While nobody is between the writes of `startWriter`, `writer_started_` and `stop_flag_` tell
whether it runs. -/
theorem of_unstarted (h : InPhase s p) (free : ∀ p ∈ s.starts, ¬ p.Writing)
    (stopped : s.started = false) : p = .detached := by
  have none := (h.writing.none_iff fun _ _ => Phase.writing_valid).mpr free
  have started := h.started.symm.trans stopped
  cases p with
  | detached => rfl
  | cleared i => cases none
  | created i failed => cases none
  | _ => cases started

theorem of_running (h : InPhase s p) (free : ∀ p ∈ s.starts, ¬ p.Writing)
    (running : s.aof.stopFlag = false) : p = .running false := by
  have none := (h.writing.none_iff fun _ _ => Phase.writing_valid).mpr free
  have flag := h.flag.symm.trans running
  cases p with
  | running failed =>
      cases flag
      rfl
  | cleared i => cases none
  | created i failed => cases none
  | _ => cases flag

end InPhase

/-- The phase behind a step. -/
theorem Coherent.phase_step {opts : Options} {s t : Lifecycle} {a : LifeAct} (h : Coherent s)
    (apart : Apart s a) (taken : LifeStep opts s a t) : ∃ p, InPhase t p := by
  obtain ⟨p, phase⟩ := h.phase
  cases taken with
  | call =>
      refine ⟨p, phase.flag, phase.started, phase.joinable, phase.failed, ?_, ?_⟩
      · rw [places_restart]
        exact phase.busy
      · exact phase.writing.append_outside id
  | startAgain here running =>
      exact ⟨p, phase.flag, phase.started, phase.joinable, phase.failed, phase.busy,
        phase.writing.set_outside here id id⟩
  | @clear i here free stopped =>
      obtain rfl := phase.of_unstarted free stopped
      exact ⟨.cleared i, rfl, stopped, phase.joinable, rfl, phase.busy,
        phase.writing.set_inside here (Or.inl rfl) _⟩
  | terminate here joinable =>
      obtain rfl := phase.of_cleared here
      cases phase.joinable.symm.trans joinable
  | @create i here free =>
      obtain rfl := phase.of_cleared here
      exact ⟨.created i false, phase.flag, phase.started, rfl, phase.failed, phase.busy,
        phase.writing.set_inside here (Or.inr rfl) _⟩
  | @begun i here =>
      obtain ⟨failed, rfl⟩ := phase.of_created here
      exact ⟨.running failed, phase.flag, rfl, phase.joinable, phase.failed, phase.busy,
        phase.writing.set_leave here id⟩
  | early stopped =>
      refine ⟨p, phase.flag, phase.started, phase.joinable, phase.failed, ?_, phase.writing⟩
      rw [places_concat]
      exact phase.busy.append_outside id
  | flag running =>
      obtain rfl := phase.of_running (apart rfl running) running
      refine ⟨.stopping s.stops.length, rfl, phase.started, phase.joinable, phase.failed, ?_,
        phase.writing⟩
      rw [places_concat]
      have entered := phase.busy.append_inside .flagged
      rwa [places, List.length_map] at entered
  | @join i restarted here ended =>
      obtain rfl := phase.of_flagged here
      refine ⟨.joined i, phase.flag, phase.started, rfl, phase.failed, ?_, phase.writing⟩
      rw [places_set]
      exact phase.busy.set_inside (places_of_some here) (Or.inr rfl) _
  | @unstart i restarted here =>
      obtain rfl := phase.of_joined here
      refine ⟨.detached, phase.flag, rfl, phase.joinable, phase.failed, ?_, phase.writing⟩
      rw [places_set]
      exact phase.busy.set_leave (places_of_some here) id
  | close here =>
      refine ⟨p, phase.flag, phase.started, phase.joinable, phase.failed, ?_, phase.writing⟩
      rw [places_set]
      exact phase.busy.set_outside (places_of_some here) id id
  | accept =>
      exact ⟨p, phase.flag, phase.started, phase.joinable, phase.failed, phase.busy, phase.writing⟩
  | refuse => exact ⟨p, phase⟩
  | @writer act aof writtenOffset done =>
      have active : s.joinable = true := by
        by_contra gone
        exact not_writerStep_exited (h.ended (Bool.eq_false_iff.mpr gone)) done
      rcases writerStep_flag done with ⟨other, same⟩ | ⟨rfl, set⟩
      · refine ⟨p, same.trans phase.flag, phase.started, phase.joinable, ?_, phase.busy,
          phase.writing⟩
        rw [beq_eq_false_iff_ne.mpr other, Bool.false_and, Bool.or_false]
        exact phase.failed
      · -- the writer sets the flag, unless it is set
        have joinable := phase.joinable.symm.trans active
        have failed := phase.failed
        have flag := phase.flag
        cases p with
        | running failed' =>
            refine ⟨.running true, set, phase.started, phase.joinable, ?_, phase.busy,
              phase.writing⟩
            cases failed' <;> simp_all [Phase.failed, Phase.flag]
        | stopping i =>
            refine ⟨.stopping i, set, phase.started, phase.joinable, ?_, phase.busy,
              phase.writing⟩
            simp_all [Phase.failed, Phase.flag]
        | created i failed' =>
            refine ⟨.created i true, set, phase.started, phase.joinable, ?_, phase.busy,
              phase.writing⟩
            cases failed' <;> simp_all [Phase.failed, Phase.flag]
        | _ => cases joinable

/-- A new call of `stop` has not closed `fd_`. -/
theorem Coherent.closed_call {s : Lifecycle} (h : Coherent s) (call : StopRun)
    (other : call.place ≠ .closed) :
    s.fdOpen = false ↔ ∃ c ∈ s.stops ++ [call], c.place = .closed := by
  simpa [or_and_right, exists_or, other] using h.closed

/-- Nor does a call that goes on to another place. -/
theorem Coherent.closed_set {s : Lifecycle} (h : Coherent s) {i : Nat} {before after : StopRun}
    (here : s.stops[i]? = some before) (neither : before.place ≠ .closed ∧ after.place ≠ .closed) :
    s.fdOpen = false ↔ ∃ c ∈ s.stops.set i after, c.place = .closed := by
  rw [exists_mem_set_iff here (iff_of_false neither.2 neither.1)]
  exact h.closed

theorem Coherent.step {opts : Options} {s t : Lifecycle} {a : LifeAct} (h : Coherent s)
    (apart : Apart s a) (taken : lifeStep opts s a = some t) : Coherent t := by
  have done := lifeStep_cases taken
  have phase := h.phase_step apart done
  cases done with
  | call =>
      refine ⟨phase, h.leaving, h.ended, ?_, h.alive⟩
      simpa [StopRun.restart] using h.closed
  | startAgain => exact ⟨phase, h.leaving, h.ended, h.closed, h.alive⟩
  | clear here free stopped =>
      obtain ⟨p, at_⟩ := h.phase
      obtain rfl := at_.of_unstarted free stopped
      refine ⟨phase, fun joinable => ?_, h.ended, h.closed, h.alive⟩
      cases at_.joinable.symm.trans joinable
  | terminate here joinable =>
      obtain ⟨p, at_⟩ := h.phase
      obtain rfl := at_.of_cleared here
      cases at_.joinable.symm.trans joinable
  | create => exact ⟨phase, fun _ => False.elim, Bool.noConfusion, h.closed, h.alive⟩
  | begun => exact ⟨phase, h.leaving, h.ended, h.closed, h.alive⟩
  | early =>
      exact ⟨phase, h.leaving, h.ended, h.closed_call _ StopPlace.noConfusion, h.alive⟩
  | flag =>
      exact ⟨phase, fun _ _ => rfl, h.ended, h.closed_call _ StopPlace.noConfusion, h.alive⟩
  | join here ended =>
      exact ⟨phase, Bool.noConfusion, fun _ => ended.elim h.ended id,
        h.closed_set here ⟨StopPlace.noConfusion, StopPlace.noConfusion⟩, h.alive⟩
  | unstart here =>
      exact ⟨phase, h.leaving, h.ended,
        h.closed_set here ⟨StopPlace.noConfusion, StopPlace.noConfusion⟩, h.alive⟩
  | @close i restarted here =>
      refine ⟨phase, h.leaving, h.ended, iff_of_true rfl ⟨⟨.closed, restarted⟩, ?_, rfl⟩, h.alive⟩
      exact List.mem_of_getElem? (getElem?_set_slot here _)
  | accept => exact ⟨phase, h.leaving, h.ended, h.closed, h.alive⟩
  | refuse => exact h
  | @writer act aof writtenOffset done =>
      refine ⟨phase, fun joinable => ?_, fun free => ?_, h.closed, h.alive⟩
      · have leaving : aof.writer.Leaving → aof.stopFlag = true :=
          writerStep_leaving (h.leaving joinable) done
        exact leaving
      · exact (not_writerStep_exited (h.ended free) done).elim

/-! ## Who is accepted has a writer -/

/-- An append would be accepted. -/
def Lifecycle.Accepting (opts : Options) (s : Lifecycle) : Prop :=
  s.aof.stopFlag = false ∧ s.aof.queue.length < opts.maxQueueEntries

/-- A writer thread is running and has a file to write to. -/
def Lifecycle.Live (s : Lifecycle) : Prop :=
  s.joinable = true ∧ s.aof.writer ≠ .exited ∧ s.fdOpen = true

instance (opts : Options) (s : Lifecycle) : Decidable (s.Accepting opts) :=
  inferInstanceAs (Decidable (_ ∧ _))

instance (s : Lifecycle) : Decidable s.Live := inferInstanceAs (Decidable (_ ∧ _ ∧ _))

theorem accepting_iff (opts : Options) (s : Lifecycle) (resp : Bytes) :
    (s.aof.appendRawAsync opts resp).1 = true ↔ s.Accepting opts := by
  rcases appendRawAsync_cases opts s.aof resp with ⟨running, room, same⟩ | ⟨closed, same⟩
  · exact iff_of_true (by rw [same]) ⟨running, room⟩
  · refine iff_of_false (by rw [same]; exact Bool.false_ne_true) fun accepting => ?_
    rcases closed with stopped | full
    · exact Bool.noConfusion (accepting.1.symm.trans stopped)
    · exact absurd accepting.2 (Nat.not_lt.mpr full)

/-- `startWriter` takes effect only while `fd_` is open, and `stop` closes `fd_` only while
`stop_flag_` is set. -/
def KeepsOpen (s : Lifecycle) : LifeAct → Prop
  | .clearFlag _ => s.started = true ∨ s.fdOpen = true
  | .close _ => s.aof.stopFlag = true ∨ s.fdOpen = false
  | _ => True

instance (s : Lifecycle) (a : LifeAct) : Decidable (KeepsOpen s a) :=
  match a with
  | .startWriter => isTrue True.intro
  | .clearFlag _ => inferInstanceAs (Decidable (_ ∨ _))
  | .createThread _ => isTrue True.intro
  | .setStarted _ => isTrue True.intro
  | .stop => isTrue True.intro
  | .join _ => isTrue True.intro
  | .unstart _ => isTrue True.intro
  | .close _ => inferInstanceAs (Decidable (_ ∨ _))
  | .appendRawAsync _ => isTrue True.intro
  | .appendRawBlocking _ => isTrue True.intro
  | .writer _ => isTrue True.intro

/-- A call of `startWriter` has cleared `stop_flag_` and creates a writer that can write by its next
write. -/
def Lifecycle.Starting (opts : Options) (s : Lifecycle) : Prop :=
  ∃ i t, s.starts[i]? = some .cleared ∧ lifeStep opts s (.createThread i) = some t ∧ t.Live

theorem not_live_or_starting {opts : Options} {s : Lifecycle} (closed : s.fdOpen = false) :
    ¬ (s.Live ∨ s.Starting opts) := by
  rintro (live | ⟨i, t, -, taken, live⟩)
  · exact Bool.noConfusion (closed.symm.trans live.2.2)
  · have same : t.fdOpen = s.fdOpen := by
      cases lifeStep_cases taken with
      | terminate => rfl
      | create => rfl
      | accept call => rcases call with call | call <;> cases call
      | refuse call => rfl
    exact Bool.noConfusion ((same.trans closed).symm.trans live.2.2)

/-- The condition is needed at every step: behind one that breaks it, an append is accepted without
a file to write to, unless the queue is full. -/
theorem not_live_of_not_keepsOpen {opts : Options} {s t : Lifecycle} {a : LifeAct}
    (breaks : ¬ KeepsOpen s a) (taken : lifeStep opts s a = some t)
    (room : t.aof.queue.length < opts.maxQueueEntries) :
    t.Accepting opts ∧ ¬ (t.Live ∨ t.Starting opts) := by
  cases lifeStep_cases taken with
  | startAgain here running => exact (breaks (Or.inl running)).elim
  | clear here free stopped =>
      simp only [KeepsOpen, not_or, Bool.not_eq_true] at breaks
      exact ⟨⟨rfl, room⟩, not_live_or_starting breaks.2⟩
  | close =>
      simp only [KeepsOpen, not_or, Bool.not_eq_true] at breaks
      exact ⟨⟨breaks.1, room⟩, not_live_or_starting rfl⟩
  | accept call => rcases call with rfl | rfl <;> exact (breaks True.intro).elim
  | refuse call => rcases call with rfl | rfl <;> exact (breaks True.intro).elim
  | _ => exact (breaks True.intro).elim

/-- A second `stop` sets the flag between the first two writes of a `startWriter`, finds no thread
to join, and resets `writer_started_` behind the last one. -/
def overlapping : List LifeAct :=
  [.stop, .writer .lock, .writer .emptyTest, .join 0, .unstart 0, .startWriter, .clearFlag 0, .stop,
    .join 1, .createThread 0, .setStarted 0, .unstart 1]

/-- The thread that was not joined ends, the next `startWriter` clears the flag, an append is
accepted, and the thread cannot be created. -/
theorem terminates_overlapping :
    Along (lifeStep twoEntries) KeepsOpen (Lifecycle.start [0])
        (overlapping ++ [.writer .lock, .writer .emptyTest, .startWriter, .clearFlag 1]) ∧
      ∃ t u, run (lifeStep twoEntries) (Lifecycle.start [0])
          (overlapping ++ [.writer .lock, .writer .emptyTest, .startWriter, .clearFlag 1]) =
            some t ∧
        t.Accepting twoEntries ∧ t.aof.writer = .exited ∧
        lifeStep twoEntries t (.createThread 1) = some u ∧ u.terminated = true :=
  ⟨by decide,
    ⟨⟨[0], [], false, 1, .exited⟩, true, false, true, [.returned, .cleared],
      [⟨.unstarted, true⟩, ⟨.unstarted, true⟩], false, false⟩,
    ⟨⟨[0], [], false, 1, .exited⟩, true, false, true, [.returned, .cleared],
      [⟨.unstarted, true⟩, ⟨.unstarted, true⟩], false, true⟩,
    by decide, by decide, rfl, by decide, rfl⟩

/-! ## `stop` stops -/

/-- The thread has ended and has been joined, and `fd_` is closed. -/
def Lifecycle.Stopped (s : Lifecycle) : Prop :=
  s.aof.writer = .exited ∧ s.joinable = false ∧ s.fdOpen = false

/-- The step is the return of a call of `stop` since which `startWriter` was not called. -/
def Returns (s : Lifecycle) : LifeAct → Prop
  | .stop => s.aof.stopFlag = true
  | .close i => s.stops[i]? = some ⟨.unstarted, false⟩
  | _ => False

/-- A call of `stop` that returns has stopped the `Aof`. -/
def StopsReally (opts : Options) (s : Lifecycle) (a : LifeAct) : Prop :=
  Returns s a → ∀ t, lifeStep opts s a = some t → t.Stopped

/-- At the locked section of `stop` that sets the flag, no call of `startWriter` is under way. -/
def Alone (s : Lifecycle) (a : LifeAct) : Prop :=
  a = .stop → s.aof.stopFlag = false → ∀ p ∈ s.starts, p = .returned

instance (s : Lifecycle) (a : LifeAct) : Decidable (Alone s a) :=
  inferInstanceAs (Decidable (_ → _ → ∀ p ∈ s.starts, p = .returned))

theorem Alone.apart {s : Lifecycle} {a : LifeAct} (alone : Alone s a) : Apart s a := by
  intro call running p member
  rw [alone call running p member]
  exact id

/-- A call of `stop` finds `stop_flag_` set only if it was not the writer that set it, no other call
waits for the thread, and one has come to its end. -/
def FindsStopped (s : Lifecycle) (a : LifeAct) : Prop :=
  a = .stop → s.aof.stopFlag = true →
    s.failed = false ∧ (∀ c ∈ s.stops, c.place ≠ .flagged) ∧ ∃ c ∈ s.stops, c.place = .closed

instance (s : Lifecycle) (a : LifeAct) : Decidable (FindsStopped s a) :=
  inferInstanceAs (Decidable (_ → _ → _ ∧ _ ∧ _))

/-- From its locked section to its end. -/
def StopPlace.UnderWay : StopPlace → Prop
  | .flagged => True
  | .joined => True
  | .unstarted => True
  | _ => False

/-- During a call of `stop` since which `startWriter` was not called, no call of `startWriter` is
under way, and behind the reset of `writer_started_` there is no thread. -/
def Undisturbed (s : Lifecycle) : Prop :=
  ∀ c ∈ s.stops, c.restarted = false → c.place.UnderWay →
    (∀ p ∈ s.starts, p = .returned) ∧ (c.place = .unstarted → s.joinable = false)

/-- A call of `startWriter` that is under way has disturbed all calls of `stop`. -/
theorem Undisturbed.of_underWay {s : Lifecycle} (h : Undisturbed s) {i : Nat} {p : StartPlace}
    (here : s.starts[i]? = some p) (underWay : p ≠ .returned) :
    ∀ c ∈ s.stops, c.restarted = false → ¬ c.place.UnderWay := by
  intro c member fresh open_
  exact underWay ((h c member fresh open_).1 p (List.mem_of_getElem? here))

theorem Undisturbed.step {opts : Options} {s t : Lifecycle} {a : LifeAct} (h : Undisturbed s)
    (coherent : Coherent s) (alone : Alone s a) (taken : lifeStep opts s a = some t) :
    Undisturbed t := by
  intro c member fresh underWay
  cases lifeStep_cases taken with
  | call =>
      obtain ⟨d, -, rfl⟩ := List.mem_map.mp member
      cases fresh
  | startAgain here =>
      exact (h.of_underWay here StartPlace.noConfusion c member fresh underWay).elim
  | clear here =>
      exact (h.of_underWay here StartPlace.noConfusion c member fresh underWay).elim
  | terminate here =>
      exact (h.of_underWay here StartPlace.noConfusion c member fresh underWay).elim
  | create here =>
      exact (h.of_underWay here StartPlace.noConfusion c member fresh underWay).elim
  | begun here =>
      exact (h.of_underWay here StartPlace.noConfusion c member fresh underWay).elim
  | early =>
      rcases List.mem_append.mp member with old | new
      · exact h c old fresh underWay
      · cases List.mem_singleton.mp new
        exact underWay.elim
  | flag running =>
      rcases List.mem_append.mp member with old | new
      · exact h c old fresh underWay
      · cases List.mem_singleton.mp new
        exact ⟨alone rfl running, StopPlace.noConfusion⟩
  | join here =>
      rcases mem_set_cases member with rfl | old
      · have before := h _ (List.mem_of_getElem? here) fresh True.intro
        exact ⟨before.1, StopPlace.noConfusion⟩
      · exact ⟨(h c (List.mem_of_mem_eraseIdx old) fresh underWay).1, fun _ => rfl⟩
  | unstart here =>
      rcases mem_set_cases member with rfl | old
      · have before := h _ (List.mem_of_getElem? here) fresh True.intro
        obtain ⟨p, phase⟩ := coherent.phase
        obtain rfl := phase.of_joined here
        exact ⟨before.1, fun _ => phase.joinable⟩
      · exact h c (List.mem_of_mem_eraseIdx old) fresh underWay
  | close here =>
      rcases mem_set_cases member with rfl | old
      · exact underWay.elim
      · exact h c (List.mem_of_mem_eraseIdx old) fresh underWay
  | accept => exact h c member fresh underWay
  | refuse => exact h c member fresh underWay
  | writer => exact h c member fresh underWay

/-- While the flag is set, the thread is joined unless the writer has set it or a call of `stop` is
still waiting. -/
theorem InPhase.joined_iff {s : Lifecycle} {p : Phase} (phase : InPhase s p)
    (flag : s.aof.stopFlag = true) :
    s.joinable = false ↔ s.failed = false ∧ ∀ c ∈ s.stops, c.place ≠ .flagged := by
  have waiting : (∃ c ∈ s.stops, c.place = .flagged) ↔ ∃ i, p.busy = some (i, .flagged) := by
    constructor
    · intro held
      obtain ⟨c, member, place⟩ := held
      obtain ⟨i, here⟩ := List.mem_iff_getElem?.mp member
      exact ⟨i, phase.busy.eq (place ▸ places_of_some here) True.intro⟩
    · intro held
      obtain ⟨i, held⟩ := held
      have here := List.mem_of_getElem? ((phase.busy i .flagged True.intro).mpr held)
      exact List.mem_map.mp here
  have none : (∀ c ∈ s.stops, c.place ≠ .flagged) ↔ ¬ ∃ i, p.busy = some (i, .flagged) := by
    rw [← waiting]
    simp
  have set := phase.flag.symm.trans flag
  rw [none, phase.joinable, phase.failed]
  cases p with
  | running failed =>
      obtain rfl : failed = true := set
      simp [Phase.joinable, Phase.failed]
  | stopping i => simp [Phase.joinable, Phase.failed, Phase.busy]
  | joined i => simp [Phase.joinable, Phase.failed, Phase.busy]
  | detached => simp [Phase.joinable, Phase.failed, Phase.busy]
  | cleared i => cases set
  | created i failed =>
      obtain rfl : failed = true := set
      simp [Phase.joinable, Phase.failed]

theorem Coherent.stopsReally_iff {opts : Options} {s : Lifecycle} (h : Coherent s)
    (fresh : Undisturbed s) (a : LifeAct) : StopsReally opts s a ↔ FindsStopped s a := by
  cases a with
  | stop =>
      simp only [StopsReally, Returns, FindsStopped, true_implies]
      refine forall_congr' fun flag => ?_
      obtain ⟨p, phase⟩ := h.phase
      have early : lifeStep opts s .stop =
          some { s with stops := s.stops ++ [⟨.early, false⟩] } :=
        lifeStep_eq_some.mpr ⟨h.alive, if_pos flag⟩
      rw [early, ← and_assoc, ← phase.joined_iff flag, ← h.closed]
      constructor
      · intro stopped
        exact (stopped _ rfl).2
      · intro found t same
        cases same
        exact ⟨h.ended found.1, found.1, found.2⟩
  | close i =>
      refine iff_of_true (fun here t taken => ?_) nofun
      cases lifeStep_cases taken with
      | close there =>
          have free := (fresh _ (List.mem_of_getElem? here) rfl True.intro).2 rfl
          exact ⟨h.ended free, free, rfl⟩
      | accept call => rcases call with call | call <;> cases call
      | refuse call => rcases call with call | call <;> cases call
  | _ => exact iff_of_true False.elim nofun

/-- **When `stop` really stops**: among the runs in which no `startWriter` is under way when `stop`
sets the flag, exactly in those in which no call of it finds `stop_flag_` set by the writer, or by a
call that has not come to its end. -/
theorem stop_stops_iff {opts : Options} {file : Bytes} {acts : List LifeAct}
    (alone : Along (lifeStep opts) Alone (Lifecycle.start file) acts) :
    Along (lifeStep opts) (StopsReally opts) (Lifecycle.start file) acts ↔
      Along (lifeStep opts) FindsStopped (Lifecycle.start file) acts :=
  along_congr_under (I := fun s => Coherent s ∧ Undisturbed s)
    (fun _ a _ h => h.1.stopsReally_iff h.2 a)
    (fun _ _ _ alone _ h taken => ⟨h.1.step alone.apart taken, h.2.step h.1 alone taken⟩) alone
    ⟨Coherent.start file, fun _ member => absurd member List.not_mem_nil⟩

/-- A call of `stop` to its end, with an early one behind it, a new writer, and `stop` again. -/
def stoppedAgain : List LifeAct :=
  [.stop, .writer .lock, .writer .emptyTest, .join 0, .unstart 0, .close 0, .stop, .startWriter,
    .clearFlag 0, .createThread 0, .setStarted 0, .stop, .writer .lock, .writer .emptyTest, .join 2,
    .unstart 2, .close 2]

theorem stop_stops_stoppedAgain :
    (run (lifeStep twoEntries) (Lifecycle.start [0]) stoppedAgain).isSome ∧
      Along (lifeStep twoEntries) (StopsReally twoEntries) (Lifecycle.start [0]) stoppedAgain :=
  ⟨by decide, (stop_stops_iff (by decide)).mpr (by decide)⟩

/-- `writev` fails, and the writer leaves its loop. -/
def failedWrite : List LifeAct :=
  [.appendRawAsync [1], .writer .lock, .writer .emptyTest, .writer .writevError,
    .writer .storeOffset, .writer .flagTest, .writer .drainTest]

/-- `stop` returns at once: the thread is not joined and `fd_` is open. -/
theorem stop_behind_failedWrite :
    ¬ Along (lifeStep twoEntries) (StopsReally twoEntries) (Lifecycle.start [0])
        (failedWrite ++ [.stop]) ∧
      ∃ t, run (lifeStep twoEntries) (Lifecycle.start [0]) (failedWrite ++ [.stop]) = some t ∧
        t.stops = [⟨.early, false⟩] ∧ t.joinable = true ∧ t.fdOpen = true := by
  have reached : run (lifeStep twoEntries) (Lifecycle.start [0]) failedWrite =
      some ⟨⟨[0], [], true, 1, .exited⟩, true, true, true, [], [], true, false⟩ := by decide
  refine ⟨fun along => ?_, ⟨⟨[0], [], true, 1, .exited⟩, true, true, true, [], [⟨.early, false⟩],
    true, false⟩, by decide, rfl, rfl, rfl⟩
  have stopped := ((along_append.mp along).2 _ reached).1 rfl _ rfl
  exact Bool.noConfusion stopped.2.1

/-- Where a `startWriter` is under way, `stop` may find nothing to join and return beside a running
thread. -/
theorem stop_overlapping :
    Along (lifeStep twoEntries) FindsStopped (Lifecycle.start [0])
        (overlapping ++ [.close 1]) ∧
      ¬ Along (lifeStep twoEntries) (StopsReally twoEntries) (Lifecycle.start [0])
        (overlapping ++ [.close 1]) := by
  have reached : run (lifeStep twoEntries) (Lifecycle.start [0]) overlapping =
      some ⟨⟨[0], [], true, 1, .top⟩, true, false, true, [.returned],
        [⟨.unstarted, true⟩, ⟨.unstarted, false⟩], false, false⟩ := by decide
  refine ⟨by decide, fun along => ?_⟩
  have stopped := ((along_append.mp along).2 _ reached).1 rfl _ rfl
  exact Bool.noConfusion stopped.2.1

end Blp.Aof

import Blp.Aof.Account

/-!
# Producers that wait for space

A call of `appendRawBlocking` that finds the queue full waits on `cv_space_`. `SpaceSystem` is the
system with the calls that wait: those that no notify has reached yet, and those that a notify has
woken and that will test the queue again under the mutex. A notify wakes the calls that wait at that
moment, and nothing else wakes one.

The writer notifies when the queue it leaves is below half of its capacity, in whole numbers:
`never_starved_iff`.
-/

namespace Blp.Aof

open CString Runs

/-- A system with the payloads of the calls of `appendRawBlocking` inside of `cv_space_.wait`. -/
structure SpaceSystem where
  sys : System
  /-- No notify has come since they began to wait. -/
  waiting : List Bytes
  /-- Notified, before the mutex. -/
  woken : List Bytes
  /-- `stop` has called `cv_space_.notify_all()`. -/
  stopNotified : Bool
  deriving DecidableEq

def SpaceSystem.start (file : Bytes) : SpaceSystem := ⟨System.start file, [], [], false⟩

inductive SpaceAct
  /-- A step of the system other than `appendRawBlocking`. -/
  | sys (act : Act)
  /-- `appendRawBlocking` is called. -/
  | call (resp : Bytes)
  /-- The `i`-th of the woken calls tests the queue again. -/
  | resume (i : Nat)
  /-- The `cv_space_.notify_all()` of `stop`. -/
  | stopNotify
  deriving DecidableEq

/-- `cv_space_.notify_all()`. -/
def SpaceSystem.notifyAll (s : SpaceSystem) : SpaceSystem :=
  { s with waiting := [], woken := s.woken ++ s.waiting }

/-- The step went through the pop of `writerLoop`. -/
def pops (act : Act) (aof : AofState) : Bool :=
  match act, aof.writer with
  | .writer .lock, .popped _ => true
  | .writer .wake, .popped _ => true
  | _, _ => false

/-- Behind a step of the system: the writer has popped, and notifies if the queue is short. -/
def SpaceSystem.follow (opts : Options) (s : SpaceSystem) (act : Act) (sys : System) :
    SpaceSystem :=
  if pops act sys.aof && sys.aof.queue.length < opts.maxQueueEntries / 2 then
    { s with sys }.notifyAll
  else { s with sys }

/-- The test of `cv_space_.wait` and what is behind it: the call is through, or waits. -/
def SpaceSystem.block (opts : Options) (s : SpaceSystem) (resp : Bytes) : SpaceSystem :=
  match step opts s.sys (.appendRawBlocking resp) with
  | some sys => { s with sys }
  | none => { s with waiting := s.waiting ++ [resp] }

def spaceStep (opts : Options) (s : SpaceSystem) : SpaceAct → Option SpaceSystem
  | .sys (.appendRawBlocking _) => none
  | .sys .join => if s.stopNotified then (step opts s.sys .join).map (s.follow opts .join) else none
  | .sys act => (step opts s.sys act).map (s.follow opts act)
  | .call resp => some (s.block opts resp)
  | .resume i =>
      s.woken[i]?.map fun resp => { s with woken := s.woken.eraseIdx i }.block opts resp
  | .stopNotify =>
      if s.sys.stop = .joining ∧ s.stopNotified = false then
        some { s.notifyAll with stopNotified := true }
      else none

/-- The queue is empty, the writer is in its idle wait, and a producer waits un-notified. -/
def Starved (s : SpaceSystem) : Prop :=
  s.sys.aof.queue = [] ∧ s.sys.aof.writer = .waiting ∧ s.waiting ≠ []

/-! ## The steps of the queue -/

/-- Only the pop of the writer makes the queue shorter. -/
theorem length_queue_step {opts : Options} {s t : System} {a : Act}
    (taken : step opts s a = some t) (still : pops a t.aof = false) :
    s.aof.queue.length ≤ t.aof.queue.length := by
  cases step_cases taken with
  | accept => simp
  | writer done =>
      cases done with
      | pop => cases still
      | wake => cases still
      | _ => exact Nat.le_refl _
  | _ => exact Nat.le_refl _

/-- A call waits because the queue is full. -/
theorem full_of_block {opts : Options} {s : System} {resp : Bytes}
    (waits : step opts s (.appendRawBlocking resp) = none) :
    opts.maxQueueEntries ≤ s.aof.queue.length := by
  have shut := Option.map_eq_none_iff.mp waits
  unfold AofState.appendRawBlocking at shut
  split at shut
  · split at shut <;> cases shut
  · rename_i full
    exact Nat.le_of_not_lt fun room => full (Or.inr room)

/-! ## Who waits un-notified -/

/-- What a step can be: a step of the system, a call that tests the queue, or the notify of
`stop`. -/
inductive SpaceStep (opts : Options) (s : SpaceSystem) : SpaceSystem → Prop
  | follow {act : Act} {sys : System} (inner : step opts s.sys act = some sys) :
      SpaceStep opts s (s.follow opts act sys)
  | block {woken : List Bytes} {u : SpaceSystem} (same : u = { s with woken }) (resp : Bytes) :
      SpaceStep opts s (u.block opts resp)
  | stopNotify : SpaceStep opts s { s.notifyAll with stopNotified := true }

theorem spaceStep_cases {opts : Options} {s t : SpaceSystem} {a : SpaceAct}
    (taken : spaceStep opts s a = some t) : SpaceStep opts s t := by
  have follow : ∀ act, (step opts s.sys act).map (s.follow opts act) = some t →
      SpaceStep opts s t := by
    intro act done
    obtain ⟨sys, inner, rfl⟩ := Option.map_eq_some_iff.mp done
    exact .follow inner
  cases a with
  | sys act =>
      cases act with
      | appendRawBlocking resp => cases taken
      | join =>
          rw [spaceStep] at taken
          exact follow .join (Option.ite_none_right_eq_some.mp taken).2
      | appendRawAsync resp => exact follow (.appendRawAsync resp) taken
      | stop => exact follow .stop taken
      | writer act => exact follow (.writer act) taken
  | call resp =>
      cases taken
      exact .block rfl resp
  | resume i =>
      obtain ⟨resp, -, rfl⟩ := Option.map_eq_some_iff.mp taken
      exact .block rfl resp
  | stopNotify =>
      rw [spaceStep] at taken
      cases (Option.ite_none_right_eq_some.mp taken).2
      exact .stopNotify

/-- While a call waits un-notified, the queue holds half of its capacity. -/
def Fed (opts : Options) (s : SpaceSystem) : Prop :=
  s.waiting ≠ [] → opts.maxQueueEntries / 2 ≤ s.sys.aof.queue.length

theorem Fed.start (opts : Options) (init : Bytes) : Fed opts (SpaceSystem.start init) :=
  fun some_ => (some_ rfl).elim

theorem Fed.notifyAll (opts : Options) (s : SpaceSystem) : Fed opts s.notifyAll :=
  fun some_ => (some_ rfl).elim

theorem Fed.block {opts : Options} {s : SpaceSystem} (h : Fed opts s) (resp : Bytes) :
    Fed opts (s.block opts resp) := by
  unfold SpaceSystem.block
  cases taken : step opts s.sys (.appendRawBlocking resp) with
  | some sys => exact fun some_ => Nat.le_trans (h some_) (length_queue_step taken rfl)
  | none =>
      intro _
      exact Nat.le_trans (Nat.div_le_self _ _) (full_of_block taken)

theorem Fed.follow {opts : Options} {s : SpaceSystem} (h : Fed opts s) {act : Act} {sys : System}
    (taken : Aof.step opts s.sys act = some sys) : Fed opts (s.follow opts act sys) := by
  unfold SpaceSystem.follow
  split
  · exact Fed.notifyAll opts _
  · rename_i quiet
    intro some_
    cases popped : pops act sys.aof with
    | false => exact Nat.le_trans (h some_) (length_queue_step taken popped)
    | true =>
        rw [popped, Bool.true_and, decide_eq_true_eq] at quiet
        exact Nat.le_of_not_lt quiet

theorem Fed.step {opts : Options} {s t : SpaceSystem} {a : SpaceAct} (h : Fed opts s)
    (taken : spaceStep opts s a = some t) : Fed opts t := by
  cases spaceStep_cases taken with
  | follow inner => exact h.follow inner
  | @block woken u same resp =>
      subst same
      exact Fed.block (s := { s with woken }) h resp
  | stopNotify => exact fun some_ => (some_ rfl).elim

theorem fed_of_run {opts : Options} {init : Bytes} {acts : List SpaceAct} {t : SpaceSystem}
    (reached : run (spaceStep opts) (SpaceSystem.start init) acts = some t) : Fed opts t :=
  run_induction (fun _ _ _ h taken => h.step taken) reached (Fed.start opts init)

/-- With room for two entries the queue is not empty while a call waits un-notified. -/
theorem Fed.not_starved {opts : Options} {s : SpaceSystem} (h : Fed opts s)
    (two : 2 ≤ opts.maxQueueEntries) : ¬ Starved s := by
  intro starved
  obtain ⟨empty, -, some_⟩ := starved
  have half := h some_
  rw [empty, List.length_nil] at half
  omega

/-! ## Room for one entry -/

/-- One payload fills the queue, a call waits, and the writer writes the payload and goes back to
its idle wait. -/
def starving : List SpaceAct :=
  [.sys (.appendRawAsync [97]), .call [98], .sys (.writer .lock), .sys (.writer .emptyTest),
    .sys (.writer (.writev 1)), .sys (.writer .storeOffset), .sys (.writer .flagTest),
    .sys (.writer .lock)]

/-- The end of that run: nothing is queued, and the call still waits. -/
def starvingEnd : SpaceSystem :=
  ⟨⟨⟨[97], [], false, 1, .waiting⟩, .notCalled, [[97]], []⟩, [[98]], [], false⟩

/-- Half of one is nothing, and no queue is shorter than that. -/
theorem run_starving (entries bytes : Nat) :
    run (spaceStep ⟨1, entries + 1, bytes + 1⟩) (SpaceSystem.start []) starving =
      some starvingEnd := by
  have popped : popLoop ⟨1, entries + 1, bytes + 1⟩ [[97]] [] 0 = ([[97]], []) := by
    simp [popLoop]
  simp [run, starving, spaceStep, step, AofState.appendRawAsync, AofState.appendRawBlocking,
    SpaceSystem.start, System.start, AofState.start, System.record, SpaceSystem.follow, pops,
    SpaceSystem.block, writerStep, AofState.popBatch, popped, AofState.cleared, advance,
    iovMaxSlice, starvingEnd]

theorem starved_starvingEnd : Starved starvingEnd := ⟨rfl, rfl, List.cons_ne_nil _ _⟩

/-- **When no producer waits forever on an idle writer**: exactly when the queue has room for two
entries. -/
theorem never_starved_iff {opts : Options} (entries : 1 ≤ opts.maxQueueEntries)
    (batch : 1 ≤ opts.maxBatchEntries) (bytes : 1 ≤ opts.maxBatchBytes) :
    (∀ init acts t, run (spaceStep opts) (SpaceSystem.start init) acts = some t → ¬ Starved t) ↔
      2 ≤ opts.maxQueueEntries := by
  constructor
  · intro never
    by_contra one
    rcases opts with ⟨queueEntries, batchEntries, batchBytes⟩
    obtain rfl : queueEntries = 1 := by
      dsimp only at entries one
      omega
    obtain ⟨m, rfl⟩ : ∃ m, batchEntries = m + 1 := Nat.exists_eq_add_of_le' batch
    obtain ⟨n, rfl⟩ : ∃ n, batchBytes = n + 1 := Nat.exists_eq_add_of_le' bytes
    exact never [] starving starvingEnd (run_starving m n) starved_starvingEnd
  · intro two init acts t reached
    exact (fed_of_run reached).not_starved two

/-- With room for two the writer's pop wakes the call that waits. -/
theorem never_starved_twoEntries :
    ∃ t, run (spaceStep twoEntries) (SpaceSystem.start [])
        [.sys (.appendRawAsync [97]), .sys (.appendRawAsync [98]), .call [99],
          .sys (.writer .lock), .resume 0] = some t ∧
      t.sys.accepted = [[97], [98], [99]] ∧ ¬ Starved t := by
  have reached : run (spaceStep twoEntries) (SpaceSystem.start [])
      [.sys (.appendRawAsync [97]), .sys (.appendRawAsync [98]), .call [99],
        .sys (.writer .lock), .resume 0] =
      some ⟨⟨⟨[], [[99]], false, 0, .popped [[97], [98]]⟩, .notCalled, [[97], [98], [99]], []⟩,
        [], [], false⟩ := by decide
  exact ⟨_, reached, rfl,
    (never_starved_iff (by decide) (by decide) (by decide)).mpr (by decide) _ _ _ reached⟩

/-- With room for one, and the other limits as they are by default. -/
theorem starved_oneEntry :
    ∃ acts t, run (spaceStep ⟨1, 512, 64 * 1024⟩) (SpaceSystem.start []) acts = some t ∧
      Starved t :=
  ⟨starving, starvingEnd, run_starving 511 65535, starved_starvingEnd⟩

/-! ## The system underneath -/

/-- Every step is a step of the system, or none of its. -/
theorem sys_step {opts : Options} {s t : SpaceSystem} {a : SpaceAct}
    (taken : spaceStep opts s a = some t) :
    t.sys = s.sys ∨ ∃ act, step opts s.sys act = some t.sys := by
  cases spaceStep_cases taken with
  | @follow act sys inner =>
      refine Or.inr ⟨act, ?_⟩
      unfold SpaceSystem.follow
      split <;> exact inner
  | @block woken u same resp =>
      subst same
      unfold SpaceSystem.block
      cases inner : step opts s.sys (.appendRawBlocking resp) with
      | some sys => exact Or.inr ⟨_, inner⟩
      | none => exact Or.inl rfl
  | stopNotify => exact Or.inl rfl

/-- **Refinement**: what a run does to the system is a run of the system. -/
theorem sys_of_run {opts : Options} {init : Bytes} {acts : List SpaceAct} {t : SpaceSystem}
    (reached : run (spaceStep opts) (SpaceSystem.start init) acts = some t) :
    ∃ acts, run (step opts) (System.start init) acts = some t.sys := by
  refine run_induction (I := fun t : SpaceSystem =>
    ∃ acts, run (step opts) (System.start init) acts = some t.sys) ?_ reached ⟨[], rfl⟩
  intro s a t before taken
  obtain ⟨acts, reached⟩ := before
  rcases sys_step taken with same | ⟨act, taken⟩
  · exact ⟨acts, same ▸ reached⟩
  · refine ⟨acts ++ [act], ?_⟩
    rw [run_append, reached, Option.bind_some, run_cons, taken]
    rfl

end Blp.Aof

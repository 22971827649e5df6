import Blp.Aof.Account

/-!
# What `stop` leaves in the file

`stop` sets `stop_flag_` and joins the writer. The writer leaves its loop in two places: behind a
batch, where it looks at the queue under the lock, and on an empty batch, where it looks at
`stop_flag_` alone. Between the pop of that empty batch and this test a producer may still append.

* `stop_complete_iff`: in a run without write errors, the file holds all that was accepted when
  `stop` returns, exactly if the writer never left on an empty batch with bytes in the queue.
-/

namespace Blp.Aof

open CString Pipes Runs

/-- When the writer leaves on an empty batch, no bytes are queued. -/
def ExitsDry (s : System) (a : Act) : Prop :=
  a = .writer .emptyTest → s.aof.writer = .popped [] → s.aof.stopFlag = true →
    s.aof.queue.flatten = []

instance (s : System) (a : Act) : Decidable (ExitsDry s a) :=
  inferInstanceAs (Decidable (_ → _ → _ → _))

/-- Past a test of `stop_flag_` that found it set. -/
def Writer.Leaving : Writer → Prop
  | .flagged => True
  | .exited => True
  | _ => False

/-- `stop_flag_` is set by `stop` alone, and `stop` returns behind the writer. -/
structure Orderly (s : System) : Prop where
  asked : s.aof.stopFlag = true → s.stop ≠ .notCalled
  leaving : s.aof.writer.Leaving → s.aof.stopFlag = true
  joined : s.stop = .returned → s.aof.writer = .exited

theorem Orderly.start (init : Bytes) : Orderly (System.start init) := ⟨nofun, False.elim, nofun⟩

theorem not_writerStep_exited {opts : Options} {s t : AofState} {act : WriterAct}
    (ended : s.writer = .exited) (taken : WriterStep opts s act t) : False := by
  cases taken with
  | storeWritten place => rw [ended] at place; cases place
  | _ place => rw [ended] at place; cases place

/-- A writer that has left its loop stays where it is. -/
theorem step_of_exited {opts : Options} {s t : System} {a : Act}
    (ended : s.aof.writer = .exited) (stopped : s.aof.stopFlag = true)
    (taken : step opts s a = some t) : t.aof = s.aof := by
  cases step_cases taken with
  | accept call running =>
      rw [stopped] at running
      cases running
  | refuse => rfl
  | stopAgain => rfl
  | stop before running =>
      rw [stopped] at running
      cases running
  | join => rfl
  | writer done => exact (not_writerStep_exited ended done).elim

theorem Orderly.step {opts : Options} {s t : System} {a : Act} (h : Orderly s)
    (noError : a ≠ .writer .writevError) (taken : Aof.step opts s a = some t) : Orderly t := by
  cases step_cases taken with
  | accept => exact ⟨h.asked, h.leaving, h.joined⟩
  | refuse => exact h
  | stopAgain before stopped => exact (h.asked stopped before).elim
  | stop => exact ⟨nofun, fun _ => rfl, nofun⟩
  | join joining ended => exact ⟨nofun, h.leaving, fun _ => ended⟩
  | writer done =>
      have joined : s.stop ≠ .returned := fun back =>
        not_writerStep_exited (h.joined back) done
      cases done with
      | writevError => exact (noError rfl).elim
      | exit place stopped => exact ⟨h.asked, fun _ => stopped, fun back => (joined back).elim⟩
      | flagged place stopped => exact ⟨h.asked, fun _ => stopped, fun back => (joined back).elim⟩
      | drained place =>
          refine ⟨h.asked, fun _ => h.leaving ?_, fun back => (joined back).elim⟩
          rw [place]
          exact True.intro
      | interrupted => exact ⟨h.asked, h.leaving, fun back => (joined back).elim⟩
      | _ => exact ⟨h.asked, False.elim, fun back => (joined back).elim⟩

theorem orderly_of_run {opts : Options} {init : Bytes} {acts : List Act} {t : System}
    (reached : run (step opts) (System.start init) acts = some t)
    (noError : ∀ a ∈ acts, a ≠ .writer .writevError) : Orderly t :=
  along_induction (fun _ _ _ keeps h taken => h.step keeps taken) reached
    (along_of_forall_mem noError) (Orderly.start init)

/-- A writer that has left has left nothing behind. -/
def LeftNothing (s : System) : Prop := s.aof.writer = .exited → s.aof.queue.flatten = []

theorem leftNothing_step {opts : Options} {s t : System} {a : Act} (orderly : Orderly s)
    (h : LeftNothing s) (dry : ExitsDry s a) (taken : step opts s a = some t) : LeftNothing t := by
  intro ended
  by_cases before : s.aof.writer = .exited
  · have stopped : s.aof.stopFlag = true := orderly.leaving (by rw [before]; exact True.intro)
    rw [step_of_exited before stopped taken]
    exact h before
  · cases step_cases taken with
    | accept => exact (before ended).elim
    | refuse => exact (before ended).elim
    | stopAgain => exact (before ended).elim
    | stop => exact (before ended).elim
    | join => exact (before ended).elim
    | writer done =>
        cases done with
        | exit place stopped => exact dry rfl place stopped
        | drained place empty =>
            change s.aof.queue.flatten = []
            rw [empty, List.flatten_nil]
        | interrupted => exact (before ended).elim
        | _ => cases ended

/-- **What `stop` leaves**: the file holds all that was accepted exactly if the writer never left on
an empty batch with bytes in the queue. -/
theorem stop_complete_iff {opts : Options} {init : Bytes} {acts : List Act} {t : System}
    (reached : run (step opts) (System.start init) acts = some t)
    (noError : ∀ a ∈ acts, a ≠ .writer .writevError) (back : t.stop = .returned) :
    t.aof.file = init ++ t.accepted.flatten ↔
      Along (step opts) ExitsDry (System.start init) acts := by
  have ended := (orderly_of_run reached noError).joined back
  have complete : t.aof.file = init ++ t.accepted.flatten ↔ t.aof.queue.flatten = [] := by
    have intact := (intact_of_run reached).delivered_eq_iff (unfailed_of_run reached noError).kept
    rw [System.view, AofState.pending, ended] at intact
    exact intact
  rw [complete]
  constructor
  · intro empty
    by_contra wet
    obtain ⟨before, a, after, s, split, start, -, exits⟩ := not_along wet
    simp only [ExitsDry, Classical.not_imp] at exits
    obtain ⟨rfl, place, stopped, queued⟩ := exits
    rw [split, run_append, start] at reached
    obtain ⟨u, first, rest⟩ := run_cons_eq_some.mp reached
    obtain ⟨aof, done, rfl⟩ := Option.map_eq_some_iff.mp first
    cases writerStep_cases done with
    | exit =>
        -- from here on nothing of the queue is popped any more
        have kept := run_induction
          (I := fun u => u.aof.writer = .exited ∧ u.aof.stopFlag = true ∧ u.aof.queue.flatten ≠ [])
          (fun u a v h taken => by rw [step_of_exited h.1 h.2.1 taken]; exact h) rest
          ⟨rfl, stopped, queued⟩
        exact kept.2.2 empty
    | idle place running =>
        rw [stopped] at running
        cases running
    | prepare other some_ =>
        rw [place] at other
        cases other
        exact some_ rfl
  · intro dry
    have along := (along_of_forall_mem noError).and dry
    have h := along_induction (I := fun s => Orderly s ∧ LeftNothing s)
      (fun s a t ok h taken => ⟨h.1.step ok.1 taken, leftNothing_step h.1 h.2 ok.2 taken⟩) reached
      along ⟨Orderly.start init, fun left => Writer.noConfusion left⟩
    exact h.2 ended

/-- An orderly stop: the payload is written, then the writer leaves. -/
def stopping : List Act :=
  [.appendRawAsync [1, 2], .writer .lock, .stop, .writer .emptyTest, .writer (.writev 2),
    .writer .storeOffset, .writer .flagTest, .writer .drainTest, .join]

theorem stop_complete_stopping :
    ([0, 1, 2] : Bytes) = [0] ++ [[1, 2]].flatten ↔
      Along (step twoEntries) ExitsDry (System.start [0]) stopping := by
  have reached : run (step twoEntries) (System.start [0]) stopping =
      some ⟨⟨[0, 1, 2], [], true, 3, .exited⟩, .returned, [[1, 2]], []⟩ := by decide
  exact stop_complete_iff reached (by decide) rfl

/-- The writer wakes up to an empty queue; a payload is accepted and `stop` called before it looks
at `stop_flag_`. -/
def stoppingLate : List Act :=
  [.writer .lock, .writer .wake, .appendRawAsync [1, 2], .stop, .writer .emptyTest, .join]

/-- The payload is accepted and never written. -/
theorem accepted_lost_at_stop :
    ∃ t, run (step twoEntries) (System.start [0]) stoppingLate = some t ∧ t.stop = .returned ∧
      t.aof.file ≠ [0] ++ t.accepted.flatten :=
  ⟨⟨⟨[0], [[1, 2]], true, 1, .exited⟩, .returned, [[1, 2]], []⟩, by decide, rfl, by decide⟩

end Blp.Aof

import Blp.Aof.Writer

/-!
# What was accepted and what is in the file

* `run_accounted`: as long as no `writev` fails, the file, the rest of the writer's batch and the
  queue are together what was accepted.
* `run_noHole`: with write errors, the file keeps to a beginning of what was accepted in the runs
  in which the writer never goes on with queued bytes behind a batch that was cut short. It does go
  on when the queue is not empty (`hole_behind_torn_frame`).
-/

namespace Blp.Aof

open CString Pipes Runs

theorem length_queue_popBatch_le (opts : Options) (s : AofState) :
    (s.popBatch opts).queue.length ≤ s.queue.length := by
  have split := congrArg List.length (popLoop_append opts s.queue [] 0)
  simp only [List.length_append, List.length_nil, Nat.zero_add] at split
  simp only [AofState.popBatch]
  omega

theorem intact_start (init : Bytes) : ((System.start init).view init).Intact := by
  intro _
  simp [System.view, System.start, AofState.start, AofState.pending, Writer.rest]

/-- No step upsets the account of the pipe. -/
theorem intact_step {opts : Options} {init : Bytes} {s t : System} {a : Act}
    (h : (s.view init).Intact) (taken : step opts s a = some t) : (t.view init).Intact := by
  rcases s.view_step taken init with ⟨op, -, view⟩
  rw [view]
  exact h.apply op

theorem intact_of_run {opts : Options} {init : Bytes} {acts : List Act} {t : System}
    (reached : run (step opts) (System.start init) acts = some t) : (t.view init).Intact :=
  run_induction (I := fun s => (s.view init).Intact) (fun _ _ _ h taken => intact_step h taken)
    reached (intact_start init)

/-! ## Runs without a write error -/

/-- The state of a system in which no `writev` failed. -/
structure Unfailed (opts : Options) (s : System) : Prop where
  running : ∀ iovs, s.aof.writer ≠ .broken iovs
  whole : ∀ iovs, s.aof.writer = .stored iovs → iovs = []
  kept : s.dropped = []
  room : s.aof.queue.length ≤ opts.maxQueueEntries

theorem Unfailed.start (opts : Options) (init : Bytes) : Unfailed opts (System.start init) :=
  ⟨nofun, nofun, rfl, Nat.zero_le _⟩

theorem Unfailed.step {opts : Options} {s t : System} {a : Act} (h : Unfailed opts s)
    (noError : a ≠ .writer .writevError) (taken : Aof.step opts s a = some t) :
    Unfailed opts t := by
  cases step_cases taken with
  | accept call running room =>
      refine ⟨h.running, h.whole, h.kept, ?_⟩
      rw [List.length_append]
      exact room
  | refuse => exact h
  | stopAgain => exact ⟨h.running, h.whole, h.kept, h.room⟩
  | stop => exact ⟨h.running, h.whole, h.kept, h.room⟩
  | join => exact ⟨h.running, h.whole, h.kept, h.room⟩
  | writer done =>
      have kept : s.dropped ++ [] = [] := by rw [List.append_nil, h.kept]
      have shrunk := Nat.le_trans (length_queue_popBatch_le opts s.aof) h.room
      cases done with
      | writevError => exact (noError rfl).elim
      | storeBroken place => exact (h.running _ place).elim
      | pop => exact ⟨by simp, by simp, kept, shrunk⟩
      | wake => exact ⟨by simp, by simp, kept, shrunk⟩
      | interrupted => exact ⟨h.running, h.whole, kept, h.room⟩
      | storeWritten =>
          refine ⟨by simp, ?_, kept, h.room⟩
          intro iovs same
          cases same
          rfl
      | flagged place =>
          refine ⟨by simp, by simp, ?_, h.room⟩
          simp [AofState.cleared, place, h.whole _ place, h.kept]
      | again place =>
          refine ⟨by simp, by simp, ?_, h.room⟩
          simp [AofState.cleared, place, h.whole _ place, h.kept]
      | _ => exact ⟨by simp, by simp, kept, h.room⟩

theorem unfailed_of_run {opts : Options} {init : Bytes} {acts : List Act} {t : System}
    (reached : run (step opts) (System.start init) acts = some t)
    (noError : ∀ a ∈ acts, a ≠ .writer .writevError) : Unfailed opts t :=
  along_induction (fun _ _ _ keeps h taken => h.step keeps taken) reached
    (along_of_forall_mem noError) (Unfailed.start opts init)

/-- A refused append leaves the system as it was. -/
theorem step_of_refused {opts : Options} {s t : System} {resp : Bytes} {a : Act}
    (call : a = .appendRawAsync resp ∨ a = .appendRawBlocking resp)
    (taken : step opts s a = some t) (refused : t.accepted = s.accepted) : t = s := by
  cases step_cases taken with
  | accept => exact absurd refused (by simp)
  | refuse => rfl
  | stopAgain => rcases call with call | call <;> cases call
  | stop => rcases call with call | call <;> cases call
  | join => rcases call with call | call <;> cases call
  | writer => rcases call with call | call <;> cases call

/-- **Exact accounting.** -/
theorem run_accounted {opts : Options} {init : Bytes} {acts : List Act} {t : System}
    (reached : run (step opts) (System.start init) acts = some t)
    (noError : ∀ a ∈ acts, a ≠ .writer .writevError) :
    init ++ t.accepted.flatten = t.aof.file ++ t.aof.writer.rest ++ t.aof.queue.flatten ∧
      t.aof.queue.length ≤ opts.maxQueueEntries ∧
      (∀ resp, (t.aof.appendRawAsync opts resp).1 = false →
        step opts t (.appendRawAsync resp) = some t) ∧
      ∀ resp r, t.aof.appendRawBlocking opts resp = some r → r.1 = false →
        step opts t (.appendRawBlocking resp) = some t := by
  have unfailed := unfailed_of_run reached noError
  refine ⟨?_, unfailed.room, fun resp refused => ?_, fun resp r woken refused => ?_⟩
  · rw [List.append_assoc]
    exact (intact_of_run reached unfailed.kept).symm
  · refine congrArg some (step_of_refused (Or.inl rfl) rfl ?_)
    simp [System.record, refused]
  · have taken : step opts t (.appendRawBlocking resp) = some (t.record resp r) := by
      simp [step, woken]
    rw [taken]
    refine congrArg some (step_of_refused (Or.inr rfl) taken ?_)
    simp [System.record, refused]

/-- A queue for two entries. -/
def twoEntries : Options := ⟨2, 2, 100⟩

/-- A batch of one payload, written in two pieces with an `EINTR` between them; a second payload
comes in behind it and a third finds the queue full. -/
def piecewise : List Act :=
  [.writer .lock, .appendRawAsync [1, 2, 3], .writer .wake, .writer .emptyTest,
    .appendRawAsync [4], .writer (.writev 2), .writer .interrupted, .appendRawBlocking [5],
    .appendRawAsync [6]]

/-- The last byte of the first payload and all of the others are still on the way. -/
def piecewiseEnd : System :=
  ⟨⟨[0, 1, 2], [[4], [5]], false, 1, .writing [[3]]⟩, .notCalled, [[1, 2, 3], [4], [5]], []⟩

theorem run_accounted_piecewise :
    [0] ++ piecewiseEnd.accepted.flatten =
        piecewiseEnd.aof.file ++ piecewiseEnd.aof.writer.rest ++ piecewiseEnd.aof.queue.flatten ∧
      piecewiseEnd.aof.queue.length ≤ twoEntries.maxQueueEntries := by
  have reached : run (step twoEntries) (System.start [0]) piecewise = some piecewiseEnd := by decide
  have account := run_accounted reached (by decide)
  exact ⟨account.1, account.2.1⟩

/-! ## Runs with write errors -/

/-- At the locked test behind a batch, either no batch was cut short or no bytes are queued. -/
def DrainsDry (s : System) (a : Act) : Prop :=
  a = .writer .drainTest → s.dropped = [] ∨ s.aof.queue.flatten = []

instance (s : System) (a : Act) : Decidable (DrainsDry s a) := inferInstanceAs (Decidable (_ → _))

/-- The state of a system in which a batch may have been cut short. -/
structure NoHole (init : Bytes) (s : System) : Prop where
  intact : (s.view init).Intact
  sound : (s.view init).Sound
  old : init <+: s.aof.file
  shut : s.dropped ≠ [] → s.aof.stopFlag = true
  last : s.dropped ≠ [] → s.aof.writer = .flagged ∨ s.aof.pending = []
  failed : ∀ iovs, s.aof.writer = .broken iovs → s.aof.stopFlag = true
  cut : ∀ iovs, s.aof.writer = .stored iovs → iovs.flatten ≠ [] → s.aof.stopFlag = true

theorem NoHole.start (init : Bytes) : NoHole init (System.start init) where
  intact := intact_start init
  sound := by simp [Pipe.Sound, System.view, System.start, AofState.start]
  old := List.prefix_refl _
  shut := fun lost => (lost rfl).elim
  last := fun lost => (lost rfl).elim
  failed := nofun
  cut := nofun

theorem file_step {opts : Options} {s t : System} {a : Act} (taken : step opts s a = some t) :
    s.aof.file <+: t.aof.file := by
  rcases s.view_step taken [] with ⟨op, moved, view⟩
  have file : t.aof.file = ((s.view []).apply op).delivered := congrArg Pipe.delivered view
  rw [file]
  cases op with
  | move n => exact List.prefix_append _ _
  | _ => exact List.prefix_refl _

/-- Away from the locked test, bytes were lost only if none are on the way. -/
theorem NoHole.empty_of_lost {init : Bytes} {s : System} (h : NoHole init s)
    (lost : s.dropped ≠ []) {w : Writer} (place : s.aof.writer = w) (other : w ≠ .flagged) :
    w.rest ++ s.aof.queue.flatten = [] := by
  rcases h.last lost with flagged | empty
  · exact (other (place.symm.trans flagged)).elim
  · rw [← place]
    exact empty

theorem NoHole.queue_of_lost {init : Bytes} {s : System} (h : NoHole init s)
    (lost : s.dropped ≠ []) {w : Writer} (place : s.aof.writer = w) (other : w ≠ .flagged) :
    s.aof.queue.flatten = [] :=
  (List.append_eq_nil_iff.mp (h.empty_of_lost lost place other)).2

/-- A `writev` moves bytes only when none were lost, or it has none to move. -/
theorem NoHole.sound_step {opts : Options} {init : Bytes} {s t : System} {a : Act}
    (h : NoHole init s) (taken : Aof.step opts s a = some t) : (t.view init).Sound := by
  rcases s.view_step taken init with ⟨op, moved, view⟩
  rw [view]
  apply h.sound.apply h.intact
  intro n same
  subst same
  by_cases lost : s.dropped = []
  · exact Or.inl lost
  · cases moved with
    | writev n place =>
        apply Or.inr
        change s.aof.writer.rest ++ _ = []
        rw [place]
        exact h.empty_of_lost lost place (by simp)

theorem NoHole.step {opts : Options} {init : Bytes} {s t : System} {a : Act}
    (dry : DrainsDry s a) (h : NoHole init s) (taken : Aof.step opts s a = some t) :
    NoHole init t := by
  have intact := intact_step h.intact taken
  have sound := h.sound_step taken
  have old := h.old.trans (file_step taken)
  cases step_cases taken with
  | accept call running room =>
      have kept : s.dropped = [] := by
        by_contra lost
        rw [h.shut lost] at running
        cases running
      exact ⟨intact, sound, old, fun lost => absurd kept lost, fun lost => absurd kept lost,
        h.failed, h.cut⟩
  | refuse => exact h
  | stopAgain => exact ⟨intact, sound, old, h.shut, h.last, h.failed, h.cut⟩
  | stop => exact ⟨intact, sound, old, fun _ => rfl, h.last, fun _ _ => rfl, fun _ _ _ => rfl⟩
  | join => exact ⟨intact, sound, old, h.shut, h.last, h.failed, h.cut⟩
  | writer done =>
      have before : s.dropped ++ [] ≠ [] → s.dropped ≠ [] := by
        rw [List.append_nil]
        exact id
      have shut := fun lost => h.shut (before lost)
      have last : ∀ {w w' : Writer}, s.aof.writer = w → w ≠ .flagged → w'.rest = w.rest →
          s.dropped ++ [] ≠ [] → w' = .flagged ∨ w'.rest ++ s.aof.queue.flatten = [] := by
        intro w w' place other same lost
        rw [same]
        exact Or.inr (h.empty_of_lost (before lost) place other)
      cases done with
      | wait place =>
          exact ⟨intact, sound, old, shut, last place (by simp) rfl, by simp, by simp⟩
      | pop place =>
          refine ⟨intact, sound, old, shut, fun lost => Or.inr ?_, by simp, by simp⟩
          rw [pending_popBatch]
          exact h.queue_of_lost (before lost) place (by simp)
      | wake place =>
          refine ⟨intact, sound, old, shut, fun lost => Or.inr ?_, by simp, by simp⟩
          rw [pending_popBatch]
          exact h.queue_of_lost (before lost) place (by simp)
      | exit place =>
          exact ⟨intact, sound, old, shut, last place (by simp) rfl, by simp, by simp⟩
      | idle place =>
          exact ⟨intact, sound, old, shut, last place (by simp) rfl, by simp, by simp⟩
      | prepare place =>
          exact ⟨intact, sound, old, shut, last place (by simp) rfl, by simp, by simp⟩
      | @writev iovs n place =>
          refine ⟨intact, sound, old, shut, fun lost => Or.inr ?_, by simp, by simp⟩
          have none := h.empty_of_lost (before lost) place (by simp)
          rcases List.append_eq_nil_iff.mp none with ⟨written, empty⟩
          rw [Writer.rest] at written
          change (advance iovs n).flatten ++ s.aof.queue.flatten = []
          rw [flatten_advance, written, empty, List.drop_nil, List.nil_append]
      | interrupted place =>
          refine ⟨intact, sound, old, shut, fun lost => Or.inr ?_, h.failed, h.cut⟩
          rw [AofState.pending, place]
          exact h.empty_of_lost (before lost) place (by simp)
      | writevError place =>
          exact ⟨intact, sound, old, fun _ => rfl, last place (by simp) rfl,
            fun _ _ => rfl, by simp⟩
      | storeWritten place =>
          refine ⟨intact, sound, old, shut, last place (by simp) rfl, by simp,
            ?_⟩
          intro iovs same left
          cases same
          exact (left rfl).elim
      | storeBroken place =>
          exact ⟨intact, sound, old, shut, last place (by simp) rfl, by simp,
            fun _ _ _ => h.failed _ place⟩
      | flagged place stopped =>
          exact ⟨intact, sound, old, fun _ => stopped, fun _ => Or.inl rfl, by simp, by simp⟩
      | again place running =>
          have kept : s.dropped ++ s.aof.cleared .flagTest = [] := by
            by_contra lost
            have stopped : s.aof.stopFlag = true := by
              by_cases none : s.dropped = []
              · refine h.cut _ place fun whole => lost ?_
                simpa [none, AofState.cleared, place] using whole
              · exact h.shut none
            rw [stopped] at running
            cases running
          exact ⟨intact, sound, old, fun lost => absurd kept lost, fun lost => absurd kept lost,
            by simp, by simp⟩
      | drained place empty =>
          refine ⟨intact, sound, old, shut, fun lost => Or.inr ?_, by simp, by simp⟩
          simp [AofState.pending, Writer.rest, empty]
      | drain place more =>
          refine ⟨intact, sound, old, shut, fun lost => Or.inr ?_, by simp, by simp⟩
          exact (dry rfl).resolve_left (before lost)

/-- **No hole behind a write error**, in the runs in which no bytes are queued when the writer looks
for more behind a batch that was cut short. -/
theorem run_noHole {opts : Options} {init : Bytes} {acts : List Act} {t : System}
    (reached : run (step opts) (System.start init) acts = some t)
    (dry : Along (step opts) DrainsDry (System.start init) acts) :
    ∃ added, t.aof.file = init ++ added ∧ added <+: t.accepted.flatten := by
  have h := along_induction (I := NoHole init) (fun _ _ _ keeps h taken => h.step keeps taken)
    reached dry (NoHole.start init)
  rcases h.old with ⟨added, file⟩
  refine ⟨added, file.symm, ?_⟩
  have sound : t.aof.file <+: init ++ t.accepted.flatten := h.sound
  rw [← file, List.prefix_append_right_inj] at sound
  exact sound

/-- A payload of two bytes of which one is written before `writev` fails. -/
def failing : List Act :=
  [.appendRawAsync [1, 2], .writer .lock, .writer .emptyTest, .writer (.writev 1),
    .writer .writevError, .writer .storeOffset, .writer .flagTest, .writer .drainTest]

theorem run_noHole_failing :
    ∃ added : Bytes, [0, 1] = [0] ++ added ∧ added <+: [[1, 2]].flatten := by
  have reached : run (step twoEntries) (System.start [0]) failing =
      some ⟨⟨[0, 1], [], true, 2, .exited⟩, .notCalled, [[1, 2]], [2]⟩ := by decide
  exact run_noHole reached (by decide)

/-- The same with a second payload, accepted while the first was being written. -/
def failingTwice : List Act :=
  [.appendRawAsync [1, 2], .writer .lock, .writer .emptyTest, .appendRawAsync [3],
    .writer (.writev 1), .writer .writevError, .writer .storeOffset, .writer .flagTest,
    .writer .drainTest, .writer .lock, .writer .emptyTest, .writer (.writev 1)]

/-- The second payload is written behind the torn first one. -/
theorem hole_behind_torn_frame :
    ∃ t, run (step twoEntries) (System.start [0]) failingTwice = some t ∧
      ¬ ∃ added, t.aof.file = [0] ++ added ∧ added <+: t.accepted.flatten := by
  refine ⟨⟨⟨[0, 1, 3], [], true, 2, .writing []⟩, .notCalled, [[1, 2], [3]], [2]⟩, by decide, ?_⟩
  intro kept
  rcases kept with ⟨added, file, pre⟩
  have written : added = [1, 3] := (List.cons.inj file).2.symm
  subst written
  exact absurd pre (by decide)

end Blp.Aof

import Blp.Aof.Account

/-!
# The published offset

The writer stores the end of the file in `written_offset_` behind each batch. That is the end of a
payload (`Published.step`): what is not yet in the file is the rest of the batch and the queue, and
behind a batch nothing is left of it. Behind a batch that a write error cut short the offset may
stand inside a payload, but then the file has ended there (`Cut.step`). As long as no `writev` fails
it is the end of a payload in every state (`writtenOffset_boundary`).
-/

namespace Blp.Aof

open CString Pipes Runs

/-- The end of the first `j` accepted payloads in a file that held `init` at the start. -/
def payloadEnd (init : Bytes) (accepted : List Bytes) (j : Nat) : Nat :=
  init.length + ((accepted.take j).flatten).length

theorem payloadEnd_append {accepted : List Bytes} {j : Nat} (within : j ≤ accepted.length)
    (init : Bytes) (more : List Bytes) :
    payloadEnd init (accepted ++ more) j = payloadEnd init accepted j := by
  rw [payloadEnd, List.take_append_of_le_length within, payloadEnd]

/-- Bytes of a batch were thrown away, or are going to be. -/
def Cut (s : System) : Prop :=
  s.dropped ≠ [] ∨ ∃ iovs, s.aof.writer = .stored iovs ∧ iovs.flatten ≠ []

theorem Unfailed.not_cut {opts : Options} {s : System} (h : Unfailed opts s) : ¬ Cut s := by
  intro cut
  rcases cut with lost | ⟨iovs, place, some_⟩
  · exact lost h.kept
  · exact some_ (by rw [h.whole iovs place, List.flatten_nil])

/-- Behind a batch that was cut short the file does not grow. -/
theorem Cut.step {opts : Options} {init : Bytes} {s t : System} {a : Act} (cut : Cut s)
    (h : NoHole init s) (taken : Aof.step opts s a = some t) :
    Cut t ∧ t.aof.file = s.aof.file := by
  cases step_cases taken with
  | accept => exact ⟨cut, rfl⟩
  | refuse => exact ⟨cut, rfl⟩
  | stopAgain => exact ⟨cut, rfl⟩
  | stop => exact ⟨cut, rfl⟩
  | join => exact ⟨cut, rfl⟩
  | @writer act aof done =>
      rcases cut with lost | ⟨iovs, place, some_⟩
      · refine ⟨Or.inl fun none => lost (List.append_eq_nil_iff.mp none).1, ?_⟩
        cases done with
        | @writev iovs n place =>
            have written : iovs.flatten = [] :=
              (List.append_eq_nil_iff.mp (h.empty_of_lost lost place (by simp))).1
            rw [← List.take_append_drop iovMaxSlice iovs, List.flatten_append] at written
            change s.aof.file ++ _ = _
            rw [(List.append_eq_nil_iff.mp written).1, List.take_nil, List.append_nil]
        | _ => rfl
      · have lose : act = .flagTest →
            Cut { s with aof, dropped := s.dropped ++ s.aof.cleared act } := by
          intro same
          subst same
          refine Or.inl fun none => some_ ?_
          have cleared := (List.append_eq_nil_iff.mp none).2
          simpa [AofState.cleared, place] using cleared
        cases done with
        | flagged => exact ⟨lose rfl, rfl⟩
        | again => exact ⟨lose rfl, rfl⟩
        | interrupted there => rw [place] at there; cases there
        | _ there => rw [place] at there; cases there

/-- The queue is the end of what was accepted, and `written_offset_` the end of a payload inside the
file, or of a file that does not grow. -/
structure Published (init : Bytes) (s : System) : Prop where
  queued : s.aof.queue <:+ s.accepted
  ended : (∃ j ≤ s.accepted.length, s.aof.writtenOffset = payloadEnd init s.accepted j) ∨
    Cut s ∧ s.aof.writtenOffset = s.aof.file.length
  inside : s.aof.writtenOffset ≤ s.aof.file.length

theorem Published.start (init : Bytes) : Published init (System.start init) where
  queued := List.suffix_refl _
  ended := Or.inl ⟨0, Nat.le_refl _, by simp [System.start, AofState.start, payloadEnd]⟩
  inside := Nat.le_refl _

theorem queue_popBatch_suffix (opts : Options) (s : AofState) :
    (s.popBatch opts).queue <:+ s.queue :=
  ⟨_, popLoop_append opts s.queue [] 0⟩

/-- With nothing left of the batch, the file ends with a payload. -/
theorem length_file_of_rest {init : Bytes} {s : System} (intact : (s.view init).Intact)
    (kept : s.dropped = []) (queued : s.aof.queue <:+ s.accepted) (none : s.aof.writer.rest = []) :
    ∃ j ≤ s.accepted.length, s.aof.file.length = payloadEnd init s.accepted j := by
  obtain ⟨front, split⟩ := queued
  have account : s.aof.file ++ (s.aof.writer.rest ++ s.aof.queue.flatten) =
      init ++ s.accepted.flatten := intact kept
  rw [none, List.nil_append, ← split, List.flatten_append, ← List.append_assoc] at account
  refine ⟨front.length, by rw [← split, List.length_append]; exact Nat.le_add_right _ _, ?_⟩
  rw [payloadEnd, ← split, List.take_left, List.append_cancel_right account, List.length_append]

/-- What a store publishes. -/
theorem Published.store {init : Bytes} {s : System} (h : Published init s)
    (intact : (s.view init).Intact) (iovs : List Bytes) (place : s.aof.writer.rest = iovs.flatten)
    {dropped : Bytes} (lost : dropped = s.dropped) :
    Published init { s with aof := { s.aof with writtenOffset := s.aof.file.length,
                                                writer := .stored iovs },
                            dropped } := by
  subst lost
  refine ⟨h.queued, ?_, Nat.le_refl _⟩
  by_cases whole : s.dropped = [] ∧ iovs.flatten = []
  · have last := length_file_of_rest intact whole.1 h.queued (place.trans whole.2)
    exact Or.inl last
  · refine Or.inr ⟨?_, rfl⟩
    by_cases kept : s.dropped = []
    · exact Or.inr ⟨iovs, rfl, fun none => whole ⟨kept, none⟩⟩
    · exact Or.inl kept

theorem Published.step {opts : Options} {init : Bytes} {s t : System} {a : Act}
    (h : Published init s) (noHole : NoHole init s) (taken : Aof.step opts s a = some t) :
    Published init t := by
  have inside : s.aof.writtenOffset ≤ t.aof.file.length :=
    Nat.le_trans h.inside (file_step taken).length_le
  -- where the offset and what was accepted stay
  have ended : t.accepted = s.accepted → t.aof.writtenOffset = s.aof.writtenOffset →
      (∃ j ≤ t.accepted.length, t.aof.writtenOffset = payloadEnd init t.accepted j) ∨
        Cut t ∧ t.aof.writtenOffset = t.aof.file.length := by
    intro accepted offset
    rw [accepted, offset]
    refine h.ended.imp id ?_
    intro torn
    rcases torn with ⟨cut, last⟩
    rcases cut.step noHole taken with ⟨cut, file⟩
    exact ⟨cut, by rw [file]; exact last⟩
  cases step_cases taken with
  | @accept _ resp =>
      obtain ⟨front, split⟩ := h.queued
      refine ⟨⟨front, by rw [← split, List.append_assoc]⟩, ?_, inside⟩
      refine h.ended.imp ?_ id
      intro boundary
      rcases boundary with ⟨j, within, last⟩
      refine ⟨j, ?_, ?_⟩
      · exact Nat.le_trans within (by rw [List.length_append]; exact Nat.le_add_right _ _)
      · rw [payloadEnd_append within]
        exact last
  | refuse => exact h
  | stopAgain => exact ⟨h.queued, h.ended, h.inside⟩
  | stop => exact ⟨h.queued, h.ended, h.inside⟩
  | join => exact ⟨h.queued, h.ended, h.inside⟩
  | writer done =>
      have popped := (queue_popBatch_suffix opts s.aof).trans h.queued
      cases done with
      | storeWritten place =>
          exact h.store noHole.intact [] (by rw [place]; rfl) (List.append_nil _)
      | storeBroken place =>
          exact h.store noHole.intact _ (by rw [place]; rfl) (List.append_nil _)
      | pop => exact ⟨popped, ended rfl rfl, inside⟩
      | wake => exact ⟨popped, ended rfl rfl, inside⟩
      | _ => exact ⟨h.queued, ended rfl rfl, inside⟩

/-- The offset never goes back. -/
theorem writtenOffset_step {opts : Options} {s t : System} {a : Act}
    (inside : s.aof.writtenOffset ≤ s.aof.file.length) (taken : step opts s a = some t) :
    s.aof.writtenOffset ≤ t.aof.writtenOffset := by
  cases step_cases taken with
  | writer done =>
      cases done with
      | storeWritten => exact inside
      | storeBroken => exact inside
      | _ => exact Nat.le_refl _
  | _ => exact Nat.le_refl _

/-! ## Runs in which no `writev` fails -/

/-- A system in which no `writev` failed, with the offset it publishes. -/
structure Whole (opts : Options) (init : Bytes) (s : System) : Prop where
  unfailed : Unfailed opts s
  noHole : NoHole init s
  published : Published init s

theorem Whole.start (opts : Options) (init : Bytes) : Whole opts init (System.start init) :=
  ⟨Unfailed.start opts init, NoHole.start init, Published.start init⟩

theorem Whole.step {opts : Options} {init : Bytes} {s t : System} {a : Act}
    (h : Whole opts init s) (noError : a ≠ .writer .writevError)
    (taken : Aof.step opts s a = some t) : Whole opts init t where
  unfailed := h.unfailed.step noError taken
  noHole := h.noHole.step (fun _ => Or.inl h.unfailed.kept) taken
  published := h.published.step h.noHole taken

theorem Whole.run {opts : Options} {init : Bytes} {acts : List Act} {s t : System}
    (h : Whole opts init s) (reached : Runs.run (Aof.step opts) s acts = some t)
    (noError : ∀ a ∈ acts, a ≠ .writer .writevError) :
    Whole opts init t ∧ s.aof.writtenOffset ≤ t.aof.writtenOffset := by
  refine along_induction
    (I := fun t => Whole opts init t ∧ s.aof.writtenOffset ≤ t.aof.writtenOffset) ?_ reached
    (along_of_forall_mem noError) ⟨h, Nat.le_refl _⟩
  intro u a v keeps before taken
  exact ⟨before.1.step keeps taken,
    Nat.le_trans before.2 (writtenOffset_step before.1.published.inside taken)⟩

/-- Where nothing is left of the batch, the file ends with all that is not queued. -/
theorem Whole.file_eq {opts : Options} {init : Bytes} {s : System} (h : Whole opts init s)
    {before : List Bytes} (split : s.accepted = before ++ s.aof.queue)
    (none : s.aof.writer.rest = []) : s.aof.file = init ++ before.flatten := by
  have account : s.aof.file ++ (s.aof.writer.rest ++ s.aof.queue.flatten) =
      init ++ s.accepted.flatten := h.noHole.intact h.unfailed.kept
  rw [none, List.nil_append, split, List.flatten_append, ← List.append_assoc] at account
  exact List.append_cancel_right account

/-- The file is cut at the published offset: behind it come the payloads not counted there. -/
theorem Whole.boundary {opts : Options} {init : Bytes} {s : System} (h : Whole opts init s) :
    ∃ j ≤ s.accepted.length, s.aof.writtenOffset = payloadEnd init s.accepted j ∧
      s.aof.file.take s.aof.writtenOffset = init ++ (s.accepted.take j).flatten ∧
      s.aof.file.drop s.aof.writtenOffset <+: (s.accepted.drop j).flatten := by
  obtain ⟨j, within, offset⟩ := h.published.ended.resolve_right
    fun torn => h.unfailed.not_cut torn.1
  refine ⟨j, within, offset, ?_⟩
  have inside := h.published.inside
  have size : s.aof.writtenOffset = (init ++ (s.accepted.take j).flatten).length := by
    rw [offset, payloadEnd, List.length_append]
  have account : s.aof.file ++ s.aof.pending =
      init ++ (s.accepted.take j).flatten ++ (s.accepted.drop j).flatten := by
    rw [List.append_assoc, ← List.flatten_append, List.take_append_drop]
    exact h.noHole.intact h.unfailed.kept
  have front := congrArg (List.take s.aof.writtenOffset) account
  have back := congrArg (List.drop s.aof.writtenOffset) account
  rw [List.take_append_of_le_length inside, size, List.take_left] at front
  rw [List.drop_append_of_le_length inside, size, List.drop_left] at back
  rw [size]
  exact ⟨front, s.aof.pending, back⟩

/-- **The published offset is a frame boundary** in every state reached without a failed `writev`,
stays inside the file, and never goes back. -/
theorem writtenOffset_boundary {opts : Options} {init : Bytes} {before after : List Act}
    {s t : System} (reached : run (step opts) (System.start init) before = some s)
    (later : run (step opts) s after = some t)
    (noError : ∀ a ∈ before ++ after, a ≠ .writer .writevError) :
    (∃ j ≤ t.accepted.length, t.aof.writtenOffset = payloadEnd init t.accepted j ∧
        t.aof.file.take t.aof.writtenOffset = init ++ (t.accepted.take j).flatten ∧
        t.aof.file.drop t.aof.writtenOffset <+: (t.accepted.drop j).flatten) ∧
      t.aof.writtenOffset ≤ t.aof.file.length ∧
      s.aof.writtenOffset ≤ t.aof.writtenOffset := by
  have middle := (Whole.start opts init).run reached
    fun a member => noError a (List.mem_append_left _ member)
  have last := middle.1.run later fun a member => noError a (List.mem_append_right _ member)
  exact ⟨last.1.boundary, last.1.published.inside, last.2⟩

/-- The first payload published, a byte of the second one written. -/
def shortWrite : List Act :=
  [.appendRawAsync [1, 2], .writer .lock, .writer .emptyTest, .appendRawAsync [3, 4],
    .writer (.writev 1), .writer .interrupted, .writer (.writev 1), .writer .storeOffset]

theorem writtenOffset_boundary_shortWrite :
    ∃ t, run (step twoEntries) (System.start [0]) (shortWrite ++ [.writer .flagTest,
        .writer .lock, .writer .emptyTest, .writer (.writev 1)]) = some t ∧
      t.aof.file = [0, 1, 2, 3] ∧ t.aof.writtenOffset = 3 ∧
      ∃ j ≤ t.accepted.length, t.aof.writtenOffset = payloadEnd [0] t.accepted j := by
  let s : System := ⟨⟨[0, 1, 2], [[3, 4]], false, 3, .stored []⟩, .notCalled, [[1, 2], [3, 4]], []⟩
  let t : System :=
    ⟨⟨[0, 1, 2, 3], [], false, 3, .writing [[4]]⟩, .notCalled, [[1, 2], [3, 4]], []⟩
  have reached : run (step twoEntries) (System.start [0]) shortWrite = some s := by decide
  have later : run (step twoEntries) s [.writer .flagTest, .writer .lock, .writer .emptyTest,
      .writer (.writev 1)] = some t := by decide
  obtain ⟨⟨j, within, offset, -⟩, -⟩ := writtenOffset_boundary reached later (by decide)
  refine ⟨t, ?_, rfl, rfl, j, within, offset⟩
  rw [run_append, reached]
  exact later

end Blp.Aof

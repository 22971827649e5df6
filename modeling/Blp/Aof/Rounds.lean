import Blp.Aof.Offset

/-!
# How soon the writer comes to a payload

The queue is first in, first out, and every round of `writerLoop` takes a batch from its front.

* `ahead_step`: a round shortens what is ahead of a payload, unless the payload is written.
* `published_within`: an accepted payload is in the file, and published, when the writer begins the
  round behind as many rounds as there were entries in the queue.
-/

namespace Blp.Aof

open CString Pipes Runs

variable {opts : Options} {init : Bytes}

/-- The rounds of `writerLoop` that begin in a run. -/
def rounds (acts : List Act) : Nat := acts.count (.writer .lock)

/-- Of the first `n` accepted payloads, those that are queued still. -/
def System.ahead (n : Nat) (s : System) : Nat := n - (s.accepted.length - s.aof.queue.length)

/-- The first `n` accepted payloads are below the published offset. -/
def System.Through (init : Bytes) (n : Nat) (s : System) : Prop :=
  payloadEnd init s.accepted n ≤ s.aof.writtenOffset

/-- The writer holds bytes that it has not published, or may come to do so before its next round. -/
def Writer.Busy : Writer → Prop
  | .popped batch => batch ≠ []
  | .writing _ => True
  | .broken _ => True
  | _ => False

/-- A system in which no `writev` failed, with all that the writer has done published. -/
structure Current (opts : Options) (init : Bytes) (s : System) : Prop extends
    Whole opts init s where
  done : ¬ s.aof.writer.Busy → s.aof.writtenOffset = s.aof.file.length

theorem Current.start (opts : Options) (init : Bytes) : Current opts init (System.start init) :=
  ⟨Whole.start opts init, fun _ => rfl⟩

theorem Current.step {s t : System} {a : Act} (h : Current opts init s)
    (noError : a ≠ .writer .writevError) (taken : Aof.step opts s a = some t) :
    Current opts init t := by
  refine ⟨h.toWhole.step noError taken, ?_⟩
  cases step_cases taken with
  | accept => exact h.done
  | refuse => exact h.done
  | stopAgain => exact h.done
  | stop => exact h.done
  | join => exact h.done
  | writer done =>
      cases done with
      | pop place => exact fun _ => h.done (by rw [place]; exact id)
      | wake place => exact fun _ => h.done (by rw [place]; exact id)
      | writev => exact fun free => (free trivial).elim
      | interrupted => exact h.done
      | writevError => exact (noError rfl).elim
      | storeWritten => exact fun _ => rfl
      | storeBroken => exact fun _ => rfl
      | prepare => exact fun free => (free trivial).elim
      | wait place => exact fun _ => h.done (by rw [place]; exact id)
      | exit place => exact fun _ => h.done (by rw [place]; exact fun some_ => some_ rfl)
      | idle place => exact fun _ => h.done (by rw [place]; exact fun some_ => some_ rfl)
      | flagged place => exact fun _ => h.done (by rw [place]; exact id)
      | again place => exact fun _ => h.done (by rw [place]; exact id)
      | drained place => exact fun _ => h.done (by rw [place]; exact id)
      | drain place => exact fun _ => h.done (by rw [place]; exact id)

/-- In front of a round, what is not queued is published. -/
theorem Current.through {s : System} (h : Current opts init s) (top : s.aof.writer = .top) {n : Nat}
    (none : s.ahead n = 0) : s.Through init n := by
  obtain ⟨before, split⟩ := h.published.queued
  have file := h.toWhole.file_eq split.symm (by rw [top]; rfl)
  have offset := h.done (by rw [top]; exact id)
  have size := congrArg List.length split
  rw [List.length_append] at size
  rw [System.ahead] at none
  have within : n ≤ before.length := by omega
  rw [System.Through, offset, file, payloadEnd, ← split, List.take_append_of_le_length within,
    List.length_append]
  have front : (before.take n).flatten <+: before.flatten :=
    ⟨(before.drop n).flatten, by rw [← List.flatten_append, List.take_append_drop]⟩
  exact Nat.add_le_add_left front.length_le _

theorem popLoop_suffix (opts : Options) (queue batch : List Bytes) (batchBytes : Nat) :
    (popLoop opts queue batch batchBytes).2 <:+ queue := by
  induction queue generalizing batch batchBytes with
  | nil => exact List.suffix_refl _
  | cons front queue ih =>
      rw [popLoop]
      split
      · exact (ih _ _).trans (List.suffix_cons front queue)
      · exact List.suffix_refl _

/-- Within positive limits, a round takes something from a queue that holds something. -/
theorem length_popLoop_lt {queue : List Bytes} (some_ : queue ≠ [])
    (entries : 0 < opts.maxBatchEntries) (bytes : 0 < opts.maxBatchBytes) :
    (popLoop opts queue [] 0).2.length < queue.length := by
  cases queue with
  | nil => exact (some_ rfl).elim
  | cons front queue =>
      rw [popLoop, if_pos ⟨entries, bytes⟩]
      exact Nat.lt_succ_of_le (popLoop_suffix opts queue _ _).length_le

/-- Nothing comes in ahead of a payload. -/
theorem ahead_step_le {s t : System} {a : Act} {n : Nat} (queued : s.aof.queue <:+ s.accepted)
    (taken : step opts s a = some t) : t.ahead n ≤ s.ahead n := by
  have size := queued.length_le
  have shrunk := (queue_popBatch_suffix opts s.aof).length_le
  unfold System.ahead
  cases step_cases taken with
  | accept =>
      simp only [List.length_append, List.length_singleton]
      omega
  | refuse => exact Nat.le_refl _
  | stopAgain => exact Nat.le_refl _
  | stop => exact Nat.le_refl _
  | join => exact Nat.le_refl _
  | writer done =>
      cases done with
      | pop => exact Nat.sub_le_sub_left (Nat.sub_le_sub_left shrunk _) _
      | wake => exact Nat.sub_le_sub_left (Nat.sub_le_sub_left shrunk _) _
      | _ => exact Nat.le_refl _

/-- A round begins where a payload is published, or leaves less ahead of it. -/
theorem ahead_step {s t : System} {n : Nat} (h : Current opts init s)
    (entries : 0 < opts.maxBatchEntries) (bytes : 0 < opts.maxBatchBytes)
    (among : n ≤ s.accepted.length) (taken : step opts s (.writer .lock) = some t) :
    s.Through init n ∨ t.ahead n < s.ahead n := by
  obtain ⟨aof, done, rfl⟩ := step_writer taken
  by_cases none : s.ahead n = 0
  · cases done with
    | wait place => exact Or.inl (h.through place none)
    | pop place => exact Or.inl (h.through place none)
  · have size := h.published.queued.length_le
    have some_ : s.aof.queue ≠ [] := by
      intro empty
      rw [System.ahead, empty, List.length_nil] at none
      omega
    cases done with
    | wait _ _ empty => exact (some_ empty).elim
    | pop place =>
        have less := length_popLoop_lt some_ entries bytes
        refine Or.inr ?_
        unfold System.ahead at none ⊢
        change n - (s.accepted.length - (popLoop opts s.aof.queue [] 0).2.length) < _
        omega

theorem accepted_step {s t : System} {a : Act} (taken : step opts s a = some t) :
    s.accepted <+: t.accepted := by
  cases step_cases taken with
  | accept => exact List.prefix_append _ _
  | _ => exact List.prefix_refl _

/-- What is published stays published. -/
theorem System.Through.step {s t : System} {a : Act} {n : Nat} (through : s.Through init n)
    (h : Current opts init s) (among : n ≤ s.accepted.length)
    (taken : Aof.step opts s a = some t) : t.Through init n := by
  obtain ⟨more, split⟩ := accepted_step taken
  have offset := writtenOffset_step h.published.inside taken
  rw [System.Through, ← split, payloadEnd_append among]
  exact Nat.le_trans through offset

/-- A payload is published behind more rounds than there are payloads ahead of it. -/
theorem through_of_rounds (entries : 0 < opts.maxBatchEntries) (bytes : 0 < opts.maxBatchBytes)
    {n : Nat} {acts : List Act} {s t : System} (h : Current opts init s)
    (among : n ≤ s.accepted.length) (reached : run (step opts) s acts = some t)
    (noError : ∀ a ∈ acts, a ≠ .writer .writevError)
    (enough : s.Through init n ∨ s.ahead n < rounds acts) : t.Through init n := by
  induction acts generalizing s with
  | nil =>
      cases reached
      exact enough.resolve_right (Nat.not_lt_zero _)
  | cons a acts ih =>
      obtain ⟨u, taken, rest⟩ := run_cons_eq_some.mp reached
      have next := h.step (noError a List.mem_cons_self) taken
      have later := Nat.le_trans among (accepted_step taken).length_le
      refine ih next later rest (fun b member => noError b (List.mem_cons_of_mem _ member)) ?_
      rcases enough with through | enough
      · exact Or.inl (through.step h among taken)
      · have kept := ahead_step_le (n := n) h.published.queued taken
        by_cases round : a = .writer .lock
        · subst round
          rw [rounds, List.count_cons_self] at enough
          rcases ahead_step h entries bytes among taken with through | less
          · exact Or.inl (through.step h among taken)
          · exact Or.inr (by rw [rounds]; omega)
        · rw [rounds, List.count_cons_of_ne round] at enough
          exact Or.inr (Nat.lt_of_le_of_lt kept enough)

/-- **Bounded waiting.** Whatever producers append meanwhile, all that was accepted is in the file
and published when the writer has gone round as often as there were entries in the queue and begins
the next round. -/
theorem published_within (entries : 0 < opts.maxBatchEntries) (bytes : 0 < opts.maxBatchBytes)
    {before after : List Act} {s t : System}
    (reached : run (step opts) (System.start init) before = some s)
    (later : run (step opts) s after = some t)
    (noError : ∀ a ∈ before ++ after, a ≠ .writer .writevError)
    (enough : s.aof.queue.length < rounds after) :
    init ++ s.accepted.flatten <+: t.aof.file.take t.aof.writtenOffset := by
  have h : Current opts init s := along_induction
    (fun _ _ _ keeps h taken => Current.step h keeps taken) reached
    (along_of_forall_mem fun a member => noError a (List.mem_append_left _ member))
    (Current.start opts init)
  have last : Whole opts init t := (h.toWhole.run later
    fun a member => noError a (List.mem_append_right _ member)).1
  have queued := h.published.queued.length_le
  have ahead : s.ahead s.accepted.length = s.aof.queue.length := by
    unfold System.ahead
    omega
  have through : t.Through init s.accepted.length :=
    through_of_rounds entries bytes h (Nat.le_refl _) later
      (fun a member => noError a (List.mem_append_right _ member))
      (Or.inr (by rw [ahead]; exact enough))
  obtain ⟨more, split⟩ : s.accepted <+: t.accepted :=
    run_induction (I := fun u => s.accepted <+: u.accepted)
      (fun u a v h taken => h.trans (accepted_step taken)) later (List.prefix_refl _)
  rw [System.Through, payloadEnd, ← split, List.take_left, ← List.length_append] at through
  have sound : t.aof.file <+: init ++ t.accepted.flatten := last.noHole.sound
  have front : init ++ s.accepted.flatten <+: init ++ t.accepted.flatten := by
    rw [List.prefix_append_right_inj, ← split, List.flatten_append]
    exact List.prefix_append _ _
  refine List.prefix_of_prefix_length_le front ((List.take_prefix _ _).trans sound) ?_
  rw [List.length_take]
  exact Nat.le_min.mpr ⟨through, Nat.le_trans through last.published.inside⟩

/-- One entry a round: a payload behind another one, and a third one that comes in meanwhile. -/
theorem published_within_oneEntry :
    ∃ s t : System, s.aof.queue = [[1], [2]] ∧ t.aof.file = [0, 1, 2] ∧
      [0] ++ s.accepted.flatten <+: t.aof.file.take t.aof.writtenOffset := by
  let opts : Options := ⟨4, 1, 100⟩
  let round : List Act := [.writer .lock, .writer .emptyTest, .writer (.writev 1),
    .writer .storeOffset, .writer .flagTest]
  let s : System := ⟨⟨[0], [[1], [2]], false, 1, .top⟩, .notCalled, [[1], [2]], []⟩
  let t : System := ⟨⟨[0, 1, 2], [], false, 3, .popped [[3]]⟩, .notCalled, [[1], [2], [3]], []⟩
  have reached : run (step opts) (System.start [0]) [.appendRawAsync [1], .appendRawAsync [2]] =
      some s := by decide
  have later : run (step opts) s ([.appendRawAsync [3]] ++ round ++ round ++ [.writer .lock]) =
      some t := by decide
  exact ⟨s, t, rfl, rfl, published_within (by decide) (by decide) reached later (by decide)
    (by decide)⟩

end Blp.Aof

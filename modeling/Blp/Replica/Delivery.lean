import Blp.Replica.Mirror

/-!
# Which commands reach the replica

A listener run starts where `written_offset_` stands and stops where the file ends, so a command
that is written behind the end of one run and published before the start of the next is read by
none.

* `reads_step`: no step changes whether some run reads a byte below the published offset.
* `sent_all_iff`: when all has settled, every accepted command was sent exactly if each move of
  `written_offset_` was watched by a run.
-/

namespace Blp.Replica

open CString Framing Posix Runs Slots Blp.Aof Blp.Core

variable {opts : Options} {init : Bytes}

/-- A write or a send fails. -/
def MasterAct.fails : MasterAct → Bool
  | .writer .writevError => true
  | .sendError _ => true
  | _ => false

/-- All that was accepted is in the file, the offset is the size of the file, and every listener run
has finished. -/
structure Master.Settled (init : Bytes) (s : Master) : Prop where
  written : s.sys.aof.file = init ++ s.sys.accepted.flatten
  published : s.sys.aof.writtenOffset = s.sys.aof.file.length
  finished : ∀ l ∈ s.listeners, ∃ r, l = .finished r

/-- The run goes on reading, or has read that far. -/
def Listener.Reaches (size : Nat) : Listener → Prop
  | .notified => False
  | .reading _ => True
  | .finished r => size ≤ r.pos

instance (size : Nat) : DecidablePred (Listener.Reaches size)
  | .notified => inferInstanceAs (Decidable False)
  | .reading _ => inferInstanceAs (Decidable True)
  | .finished r => inferInstanceAs (Decidable (size ≤ r.pos))

/-- When `written_offset_` moves on to the end of the file, some listener run is reading or has read
to there. -/
def Watched (s : Master) (act : MasterAct) : Prop :=
  act = .writer .storeOffset → s.sys.aof.writtenOffset < s.sys.aof.file.length →
    ∃ l ∈ s.listeners, l.Reaches s.sys.aof.file.length

instance (s : Master) (act : MasterAct) : Decidable (Watched s act) :=
  inferInstanceAs (Decidable (_ → _ → _))

/-! ## Bytes that are read -/

/-- The run reads the byte at a place, or has read it. -/
def Listener.Reads (place : Nat) : Listener → Prop
  | .notified => False
  | .reading r => r.offset ≤ place
  | .finished r => r.offset ≤ place ∧ place < r.pos

def Master.Reads (s : Master) (place : Nat) : Prop := ∃ l ∈ s.listeners, l.Reads place

/-- A byte below the published offset neither gains nor loses a run that reads it. -/
theorem reads_step {s t : Master} {act : MasterAct} (h : Mirror init s)
    (taken : masterStep opts s act = some t) {place : Nat}
    (below : place < s.sys.aof.writtenOffset) : t.Reads place ↔ s.Reads place := by
  have inside := h.logged.published.inside
  cases masterStep_cases taken with
  | accept =>
      constructor
      · intro read
        rcases read with ⟨l, member, reads⟩
        rcases List.mem_append.mp member with before | new
        · exact ⟨l, before, reads⟩
        · rw [List.mem_singleton.mp new] at reads
          exact reads.elim
      · intro read
        rcases read with ⟨l, member, reads⟩
        exact ⟨l, List.mem_append_left _ member, reads⟩
  | refuse => exact Iff.rfl
  | halt => exact Iff.rfl
  | writer => exact Iff.rfl
  | load found =>
      refine exists_mem_set_iff found ⟨fun reads => ?_, False.elim⟩
      exact absurd below (Nat.not_lt_of_le reads)
  | read found => exact exists_mem_set_iff found Iff.rfl
  | @leave i r found idle ended =>
      have quiet := (h.follows _ (List.mem_of_getElem? found) r rfl).quiet
      have read : s.sys.aof.file.length ≤ r.pos := by
        refine ended.resolve_left fun raised => ?_
        rw [quiet] at raised
        cases raised
      refine exists_mem_set_iff found ⟨And.left, fun reads => ⟨reads, ?_⟩⟩
      exact Nat.lt_of_lt_of_le below (Nat.le_trans inside read)
  | send found => exact exists_mem_set_iff found Iff.rfl
  | sendError found => exact exists_mem_set_iff found Iff.rfl

/-- A store publishes the end of the file. -/
theorem writtenOffset_store {s t : Master}
    (taken : masterStep opts s (.writer .storeOffset) = some t) :
    t.sys.aof.writtenOffset = s.sys.aof.file.length ∧ t.listeners = s.listeners := by
  rw [masterStep, Option.ite_none_right_eq_some, Option.map_eq_some_iff] at taken
  obtain ⟨-, sys, moved, rfl⟩ := taken
  obtain ⟨aof, done, rfl⟩ := step_writer moved
  cases done with
  | storeWritten => exact ⟨rfl, rfl⟩
  | storeBroken => exact ⟨rfl, rfl⟩

/-- No other step moves the offset. -/
theorem writtenOffset_other {s t : Master} {act : MasterAct} (other : act ≠ .writer .storeOffset)
    (taken : masterStep opts s act = some t) :
    t.sys.aof.writtenOffset = s.sys.aof.writtenOffset := by
  cases masterStep_cases taken with
  | accept _ _ _ _ still => exact still.2
  | halt call moved => exact (file_halt call moved).2.2
  | writer _ moved =>
      obtain ⟨aof, done, rfl⟩ := step_writer moved
      cases done with
      | storeWritten => exact (other rfl).elim
      | storeBroken => exact (other rfl).elim
      | _ => rfl
  | _ => rfl

/-- Every byte below the published offset is read. -/
def Covered (init : Bytes) (s : Master) : Prop :=
  ∀ place, init.length ≤ place → place < s.sys.aof.writtenOffset → s.Reads place

theorem Covered.step {s t : Master} {act : MasterAct} (covered : Covered init s)
    (h : Mirror init s) (watched : Watched s act) (taken : masterStep opts s act = some t) :
    Covered init t := by
  intro place ge below
  by_cases before : place < s.sys.aof.writtenOffset
  · exact (reads_step h taken before).mpr (covered place ge before)
  · by_cases store : act = .writer .storeOffset
    · subst store
      rcases writtenOffset_store taken with ⟨offset, listeners⟩
      rw [offset] at below
      obtain ⟨l, member, reaches⟩ := watched rfl (by omega)
      refine ⟨l, by rw [listeners]; exact member, ?_⟩
      cases l with
      | notified => exact reaches.elim
      | reading r =>
          have behind := (h.follows _ member r rfl).behind
          exact Nat.le_trans behind (Nat.le_of_not_lt before)
      | finished r =>
          have behind := (h.follows _ member r rfl).behind
          exact ⟨Nat.le_trans behind (Nat.le_of_not_lt before), Nat.lt_of_lt_of_le below reaches⟩
    · rw [writtenOffset_other store taken] at below
      exact absurd below before

/-! ## Commands that are sent -/

theorem frameStart_lt_succ (init : Bytes) {cmds : List Command} {i : Nat}
    (inside : i < cmds.length) : frameStart init cmds i < frameStart init cmds (i + 1) :=
  frameStart_lt (Nat.lt_succ_self i) inside

/-- The last byte of a command. -/
def lastByte (init : Bytes) (cmds : List Command) (i : Nat) : Nat :=
  frameStart init cmds (i + 1) - 1

theorem frameStart_le_lastByte (init : Bytes) {cmds : List Command} {i : Nat}
    (inside : i < cmds.length) : frameStart init cmds i ≤ lastByte init cmds i := by
  have := frameStart_lt_succ init inside
  unfold lastByte
  omega

/-- All that a run has gone past was sent. -/
def Gave (init : Bytes) (s : Master) (r : Reader) : Prop :=
  ∀ i < s.commands.length, r.offset ≤ frameStart init s.commands i →
    frameStart init s.commands i < r.next → s.Sent init i

/-- The master where nothing fails. -/
structure Delivering (opts : Options) (init : Bytes) (s : Master) : Prop where
  mirror : Mirror init s
  unfailed : Unfailed opts s.sys
  gave : ∀ l ∈ s.listeners, ∀ r, l.reader = some r → Gave init s r

theorem Delivering.start (opts : Options) (init : Bytes) :
    Delivering opts init (Master.start init) :=
  ⟨Mirror.start init, Unfailed.start opts init, nofun⟩

theorem Delivering.progress {s : Master} (h : Delivering opts init s) {l : Listener}
    (member : l ∈ s.listeners) {r : Reader} (reader : l.reader = some r) :
    ∃ j k m, Progress init s.commands s.sys.aof.file.length r j k m :=
  (h.mirror.follows l member r reader).place.resolve_right fun stuck =>
    h.unfailed.not_cut stuck.cut

theorem Delivering.ended {s : Master} (h : Delivering opts init s) :
    ∃ j ≤ s.commands.length, s.sys.aof.writtenOffset = frameStart init s.commands j :=
  h.mirror.logged.ended.resolve_right fun torn => h.unfailed.not_cut torn.1

theorem Gave.grow {s t : Master} {r : Reader} (gave : Gave init s r) {j k m : Nat}
    (progress : Progress init s.commands s.sys.aof.file.length r j k m) (g : Grows s t) :
    Gave init t r := by
  intro i inside ge lt
  obtain ⟨more, commands⟩ := g.commands
  rw [← commands] at ge lt
  have before : i < s.commands.length := by
    have within := Nat.le_trans progress.next progress.last
    rw [progress.place, ← frameStart_append within init more] at lt
    exact Nat.lt_of_lt_of_le (lt_of_frameStart_lt lt) within
  rw [frameStart_append (Nat.le_of_lt before)] at ge lt
  exact g.isSent (gave i before ge lt)

theorem Delivering.step {s t : Master} {act : MasterAct} (h : Delivering opts init s)
    (fine : act.fails = false) (taken : masterStep opts s act = some t) :
    Delivering opts init t := by
  have done := masterStep_cases taken
  have g := grows_step h.mirror.logged done
  have unfailed : Unfailed opts t.sys := by
    rcases sys_step done with same | ⟨a, moved, same⟩
    · rw [same]
      exact h.unfailed
    · refine h.unfailed.step (fun error => ?_) moved
      rw [same _ error] at fine
      cases fine
  refine ⟨h.mirror.step (fun _ => Or.inl h.unfailed.kept) taken, unfailed, ?_⟩
  -- the other runs
  have old : ∀ l ∈ s.listeners, ∀ r, l.reader = some r → Gave init t r := by
    intro l member r reader
    obtain ⟨j, k, m, progress⟩ := h.progress member reader
    exact (h.gave l member r reader).grow progress g
  have set : ∀ {i : Nat} {new : Listener}, t.listeners = s.listeners.set i new →
      (∀ r, new.reader = some r → Gave init t r) →
      ∀ l ∈ t.listeners, ∀ r, l.reader = some r → Gave init t r := by
    intro i new listeners gave
    rw [listeners]
    exact forall_mem_set old gave
  cases done with
  | accept =>
      intro l member r reader
      rcases List.mem_append.mp member with before | new
      · exact old l before r reader
      · rw [List.mem_singleton.mp new] at reader
        cases reader
  | refuse => exact old
  | halt => exact old
  | writer => exact old
  | load found =>
      refine set rfl ?_
      intro r same i inside ge lt
      cases same
      exact absurd ge (Nat.not_le_of_lt lt)
  | @read i n r found idle _ some_ within =>
      have member := List.mem_of_getElem? found
      obtain ⟨j, k, m, m', progress, le, next⟩ :=
        (h.mirror.follows _ member r rfl).read h.mirror.logged some_ within
      refine set rfl ?_
      intro r' same i inside ge lt
      cases same
      refine old _ member r rfl i inside ge ?_
      rw [progress.place, progress.eq_of_idle idle, ← next.place]
      exact lt
  | @leave i r found =>
      refine set rfl ?_
      intro r' same
      cases same
      exact old _ (List.mem_of_getElem? found) r rfl
  | @send i r place parts parsed found held =>
      have member := List.mem_of_getElem? found
      obtain ⟨j, k, m, cmd, progress, -, start, there, rfl⟩ :=
        (h.mirror.follows _ member r rfl).head held
      refine set rfl ?_
      intro r' same i inside ge before
      cases same
      rw [(progress.send held).place] at before
      rcases Nat.lt_or_eq_of_le (Nat.le_of_lt_succ (lt_of_frameStart_lt before)) with past | rfl
      · refine old _ member r rfl i inside ge ?_
        rw [progress.place]
        exact frameStart_lt past inside
      · refine ⟨(place, entity r.offset cmd), List.mem_append_right _ ?_, ?_⟩
        · rw [listenerCommand_parts]
          exact List.mem_singleton_self _
        · exact ⟨cmd, r.offset, there, start, listenerCommand_parts r.offset cmd⟩
  | sendError => cases fine

theorem delivering_of_run {acts : List MasterAct} {t : Master}
    (reached : run (masterStep opts) (Master.start init) acts = some t)
    (noFail : ∀ a ∈ acts, a.fails = false) : Delivering opts init t :=
  along_induction (fun _ _ _ keeps h taken => h.step keeps taken) reached
    (along_of_forall_mem noFail) (Delivering.start opts init)

theorem covered_of_run {acts : List MasterAct} {t : Master}
    (reached : run (masterStep opts) (Master.start init) acts = some t)
    (noFail : ∀ a ∈ acts, a.fails = false)
    (watched : Along (masterStep opts) Watched (Master.start init) acts) : Covered init t := by
  have all := along_induction (I := fun s => Delivering opts init s ∧ Covered init s)
    (fun s a t keeps h taken => ⟨h.1.step keeps.1 taken, h.2.step h.1.mirror keeps.2 taken⟩)
    reached ((along_of_forall_mem noFail).and watched) ⟨Delivering.start opts init, ?_⟩
  · exact all.2
  · intro place ge below
    exact absurd below (Nat.not_lt_of_le ge)

/-- A command is sent if its last byte was read by a run that has finished. -/
theorem Delivering.sent_of_reads {s : Master} (h : Delivering opts init s) {i : Nat}
    (inside : i < s.commands.length) (finished : ∀ l ∈ s.listeners, ∃ r, l = .finished r)
    (reads : s.Reads (lastByte init s.commands i)) : s.Sent init i := by
  obtain ⟨l, member, reads⟩ := reads
  obtain ⟨r, rfl⟩ := finished l member
  obtain ⟨j, k, m, progress⟩ := h.progress member rfl
  rcases reads with ⟨start, stop⟩
  have positive := frameStart_lt_succ init inside
  rw [lastByte] at start stop
  have first : j < i + 1 := by
    have before : frameStart init s.commands j < frameStart init s.commands (i + 1) := by
      rw [← progress.offset]
      omega
    exact lt_of_frameStart_lt before
  have logged := h.mirror.logged
  have last : i < m := progress.lt_of_end_le logged.parsable logged.short inside (by omega)
  refine h.gave _ member r rfl i inside ?_ ?_
  · rw [progress.offset]
    exact frameStart_mono init s.commands (Nat.le_of_lt_succ first)
  · rw [progress.place, progress.eq_of_idle (h.mirror.idle r member)]
    exact frameStart_lt last inside

/-- And only if some run has read it. -/
theorem Delivering.reads_of_sent {s : Master} (h : Delivering opts init s) {i : Nat}
    (sent : s.Sent init i) : s.Reads (lastByte init s.commands i) := by
  obtain ⟨message, member, cmd, seq, found, place, -⟩ := sent
  obtain ⟨l, there, r, reader, ge, lt⟩ := h.mirror.parsed message member
  obtain ⟨j, k, m, progress⟩ := h.progress there reader
  have inside := (List.getElem?_eq_some_iff.mp found).1
  have last := frameStart_le_lastByte init inside
  rw [place] at ge lt
  rw [progress.base] at lt
  have after := frameStart_mono init s.commands (Nat.succ_le_of_lt (lt_of_frameStart_lt lt))
  have positive := frameStart_lt_succ init inside
  have pos := progress.pos
  refine ⟨l, there, ?_⟩
  rw [Nat.succ_eq_add_one] at after
  cases l with
  | notified => cases reader
  | reading r' =>
      cases reader
      exact Nat.le_trans ge last
  | finished r' =>
      cases reader
      refine ⟨Nat.le_trans ge last, ?_⟩
      rw [lastByte]
      omega

/-- A published command that no run reads. -/
structure Missed (init : Bytes) (s : Master) (i : Nat) : Prop where
  inside : i < s.commands.length
  below : frameStart init s.commands (i + 1) ≤ s.sys.aof.writtenOffset
  unread : ¬ s.Reads (lastByte init s.commands i)

theorem Missed.step {s t : Master} {act : MasterAct} {i : Nat} (missed : Missed init s i)
    (h : Mirror init s) (taken : masterStep opts s act = some t) : Missed init t i := by
  have g := grows_step h.logged (masterStep_cases taken)
  obtain ⟨more, commands⟩ := g.commands
  have next := frameStart_append (Nat.succ_le_of_lt missed.inside) init more
  have positive := frameStart_lt_succ init missed.inside
  have below := missed.below
  rw [commands, Nat.succ_eq_add_one] at next
  refine ⟨Nat.lt_of_lt_of_le missed.inside g.commands.length_le, ?_, ?_⟩
  · rw [next]
    exact Nat.le_trans missed.below g.offset
  · rw [lastByte, next, reads_step h taken]
    · exact missed.unread
    · omega

/-- A store that is not watched misses the last command of the file. -/
theorem Delivering.missed {s t : Master} {act : MasterAct} (h : Delivering opts init s)
    (taken : masterStep opts s act = some t) (next : Delivering opts init t)
    (unwatched : ¬ Watched s act) : ∃ i, Missed init t i := by
  simp only [Watched, Classical.not_imp] at unwatched
  rcases unwatched with ⟨rfl, moves, none⟩
  rcases writtenOffset_store taken with ⟨offset, listeners⟩
  obtain ⟨j, within, ended⟩ := next.ended
  have start : init.length ≤ s.sys.aof.writtenOffset := by
    obtain ⟨j', -, ended'⟩ := h.ended
    rw [ended']
    exact Nat.le_add_right _ _
  have positive : 0 < j := by
    by_contra zero
    have first : frameStart init t.commands 0 = init.length := rfl
    rw [Nat.eq_zero_of_not_pos zero, first] at ended
    omega
  obtain ⟨i, rfl⟩ : ∃ i, j = i + 1 := ⟨j - 1, by omega⟩
  refine ⟨i, within, by rw [ended], ?_⟩
  intro read
  rcases read with ⟨l, member, reads⟩
  rw [listeners] at member
  refine none ⟨l, member, ?_⟩
  cases l with
  | notified => exact reads
  | reading r => trivial
  | finished r =>
      have last := reads.2
      rw [lastByte, ← ended, offset] at last
      change _ ≤ r.pos
      omega

/-- **No lost update**, in the runs in which every move of the offset is watched. -/
theorem sent_all_iff {opts : Options} {init : Bytes} {acts : List MasterAct} {t : Master}
    (reached : run (masterStep opts) (Master.start init) acts = some t)
    (noFail : ∀ a ∈ acts, a.fails = false) (settled : t.Settled init) :
    (∀ i < t.commands.length, t.Sent init i) ↔
      Along (masterStep opts) Watched (Master.start init) acts := by
  constructor
  · intro all
    by_contra broken
    obtain ⟨before, a, after, s, rfl, first, -, unwatched⟩ := not_along broken
    rw [run_append, first, Option.bind_some, run_cons_eq_some] at reached
    obtain ⟨u, taken, rest⟩ := reached
    have h := delivering_of_run first fun b member => noFail b (List.mem_append_left _ member)
    have next := h.step (noFail a (by simp)) taken
    obtain ⟨i, missed⟩ := h.missed taken next unwatched
    -- from there on the command stays missed
    have last := along_induction (I := fun s => Delivering opts init s ∧ Missed init s i)
      (fun s b t keeps h taken => ⟨h.1.step keeps taken, h.2.step h.1.mirror taken⟩) rest
      (along_of_forall_mem fun b member => noFail b (by simp [member])) ⟨next, missed⟩
    exact last.2.unread (last.1.reads_of_sent (all i last.2.inside))
  · intro watched i inside
    have h := delivering_of_run reached noFail
    have covered := covered_of_run reached noFail watched
    have whole : frameStart init t.commands (i + 1) ≤ t.sys.aof.writtenOffset := by
      have size : frameStart init t.commands t.commands.length = t.sys.aof.file.length := by
        rw [settled.written, h.mirror.logged.accepted, frameStart, payloadEnd,
          List.take_of_length_le (by rw [frames, List.length_map]), List.length_append]
      rw [settled.published, ← size]
      exact frameStart_mono init t.commands inside
    have positive := frameStart_lt_succ init inside
    refine h.sent_of_reads inside settled.finished (covered _ ?_ ?_)
    · exact Nat.le_trans (Nat.le_add_right _ _) (frameStart_le_lastByte init inside)
    · rw [lastByte]
      omega

/-- `SET a b`. -/
def setAToB : Command := .set [97] [98]

/-- The listener run finds the command in the file before its end is published. -/
def watchedUpdate : List MasterAct :=
  [.appendAsync setAToB, .writer .lock, .writer .emptyTest, .writer (.writev 27), .load 0,
    .read 0 27, .send 0, .leave 0, .writer .storeOffset]

/-- The end of a run in which the listener run of the one append has read `pos` bytes. -/
def oneAppend (pos : Nat) (sent : List (Nat × DataEntity)) : Master :=
  ⟨⟨⟨serializeToRESP setAToB.parts, [], false, 27, .stored []⟩, .notCalled,
    [serializeToRESP setAToB.parts], []⟩, [setAToB], [.finished ⟨0, pos, [], [], false⟩], sent⟩

theorem settled_oneAppend (pos : Nat) (sent : List (Nat × DataEntity)) :
    (oneAppend pos sent).Settled [] where
  written := by simp [oneAppend]
  published := (by decide : 27 = (serializeToRESP setAToB.parts).length)
  finished := fun l member => ⟨_, List.mem_singleton.mp member⟩

theorem sent_watchedUpdate : (oneAppend 27 [(0, entity 0 setAToB)]).Sent [] 0 := by
  have reached : run (masterStep Options.default) (Master.start []) watchedUpdate =
      some (oneAppend 27 [(0, entity 0 setAToB)]) := by decide
  exact (sent_all_iff reached (by decide) (settled_oneAppend _ _)).mpr (by decide) 0 (by decide)

/-- The listener run finds an empty file before the writer writes the command. -/
def lostUpdate : List MasterAct :=
  [.appendAsync setAToB, .load 0, .leave 0, .writer .lock, .writer .emptyTest,
    .writer (.writev 27), .writer .storeOffset]

/-- The command is in the file, its listener run has finished, and nothing was sent. -/
theorem update_lost :
    (∀ a ∈ lostUpdate, a.fails = false) ∧
      ∃ t, run (masterStep Options.default) (Master.start []) lostUpdate = some t ∧
        t.Settled [] ∧ ¬ ∀ i < t.commands.length, t.Sent [] i := by
  refine ⟨by decide, oneAppend 0 [], by decide, settled_oneAppend _ _, fun all => ?_⟩
  obtain ⟨message, member, -⟩ := all 0 (by decide)
  cases member

end Blp.Replica

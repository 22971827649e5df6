import Blp.Aof.Resp
import Blp.Lib.Posix
import Mathlib.Data.List.Flatten

/-!
# Recovery from the append-only file

`recoverFromAOF` reads the file chunk by chunk, hands every frame it can parse to `exec_fn`, and
cuts off what is left over. The loop is `readChunk` folded over the results of `read`; the system
calls around it answer as `Calls` says, and `posixCalls` is a system that keeps to POSIX.

* `recoverLoop_torn`: on any byte prefix of a log, however it is read, the loop replays exactly the
  commands whose frames lie wholly inside it.
* `recovery_ignores_cut`: on any bytes whatever, it does not matter how the file is read.
* `recoverFromAOF_usable_iff`: the file is left usable exactly when no frame was torn. The
  descriptor is opened `O_RDONLY`, so the `ftruncate` that should drop a torn tail always fails.
* `readCommandsFromOffset_agrees`: reading from the end of a frame on yields what a recovery replays
  behind that frame.
-/

namespace Blp.Aof

open CString Framing Posix

/-- The bytes of a log: the frames of its commands one behind the other. -/
def logOf (cmds : List (List Bytes)) : Bytes := cmds.flatMap serializeToRESP

/-- A log that fits in a file, of commands whose number of parts fits in an `int`. -/
structure Loggable (cmds : List (List Bytes)) : Prop where
  count : ∀ c ∈ cmds, c.length < 2 ^ 31
  short : (logOf cmds).length < offMax

/-! ## The read loop -/

/-- The variables of the read loop: the commands handed to `exec_fn`, `last_good_offset`,
`stream_buf`, and an exception of the parser that left the loop. -/
structure ReadLoop where
  executed : List (List Bytes)
  lastGoodOffset : Nat
  streamBuf : Bytes
  raised : Option Fault
  deriving DecidableEq

def ReadLoop.start : ReadLoop := ⟨[], 0, [], none⟩

/-- One round of the outer loop on the bytes that `read` returned: parse frames until
`tryParseRESPArray` returns false, then erase what was parsed. -/
def readChunk (s : ReadLoop) (chunk : Bytes) : ReadLoop :=
  match s.raised with
  | some _ => s
  | none =>
      let streamBuf := s.streamBuf ++ chunk
      let r := drain tryParseRESPArray streamBuf
      ⟨s.executed ++ r.frames.map Prod.fst, s.lastGoodOffset + r.consumed,
        streamBuf.drop r.consumed, r.raised⟩

def recoverLoop (chunks : List Bytes) : ReadLoop := chunks.foldl readChunk ReadLoop.start

/-- The loop variables of a framed stream. -/
def ReadLoop.ofStream (s : Stream UInt8 (List Bytes) Fault) : ReadLoop :=
  ⟨s.frames.map Prod.fst, (s.frames.map Prod.snd).sum, s.buf, s.raised⟩

theorem readChunk_ofStream (s : Stream UInt8 (List Bytes) Fault) (chunk : Bytes) :
    readChunk (ReadLoop.ofStream s) chunk =
      ReadLoop.ofStream (s.feed tryParseRESPArray chunk) := by
  rcases s with ⟨frames, buf, raised⟩
  cases raised with
  | some e => rfl
  | none => simp [readChunk, Stream.feed, ReadLoop.ofStream, Drained.consumed]

/-- The loop is the feed of the framing library. -/
theorem recoverLoop_eq (chunks : List Bytes) :
    recoverLoop chunks =
      ReadLoop.ofStream (Stream.feedAll tryParseRESPArray Stream.start chunks) := by
  have step : ∀ s, chunks.foldl readChunk (ReadLoop.ofStream s) =
      ReadLoop.ofStream (Stream.feedAll tryParseRESPArray s chunks) := by
    induction chunks with
    | nil => exact fun _ => rfl
    | cons chunk chunks ih =>
        intro s
        rw [List.foldl_cons, readChunk_ofStream, ih, Stream.feedAll, Stream.feedAll,
          List.foldl_cons]
  exact step Stream.start

/-! ## Replay of a torn log -/

/-- How many commands of a log lie wholly inside its first `n` bytes. -/
def wholeCommands (cmds : List (List Bytes)) (n : Nat) : Nat := wholeOf serializeToRESP cmds n

theorem lt_wholeCommands_iff {cmds : List (List Bytes)} {n i : Nat} :
    i < wholeCommands cmds n ↔ i < cmds.length ∧ (logOf (cmds.take (i + 1))).length ≤ n := by
  unfold wholeCommands wholeOf logOf
  rw [lt_wholeFrames_iff, List.length_map, List.length_flatMap, ← List.map_take]

theorem wholeCommands_le_length (cmds : List (List Bytes)) (n : Nat) :
    wholeCommands cmds n ≤ cmds.length := by
  have most := wholeFrames_le_length (cmds.map fun c => (serializeToRESP c).length) n
  rw [List.length_map] at most
  exact most

theorem length_logOf_take_wholeCommands_le (cmds : List (List Bytes)) (n : Nat) :
    (logOf (cmds.take (wholeCommands cmds n))).length ≤ n := by
  have fits := sum_take_wholeFrames_le (cmds.map fun c => (serializeToRESP c).length) n
  rw [← List.map_take] at fits
  unfold logOf
  rw [List.length_flatMap]
  exact fits

/-- Commands whose number of parts fits in an `int` and whose frames fit in a string. -/
structure Parsable (cmds : List (List Bytes)) : Prop where
  count : ∀ c ∈ cmds, c.length < 2 ^ 31
  each : ∀ c ∈ cmds, (serializeToRESP c).length < readable

theorem Loggable.parsable {cmds : List (List Bytes)} (ok : Loggable cmds) : Parsable cmds where
  count := ok.count
  each := by
    intro c member
    refine Nat.lt_of_le_of_lt ?_ ok.short
    rcases List.append_of_mem member with ⟨before, after, rfl⟩
    simp only [logOf, List.flatMap_append, List.flatMap_cons, List.length_append]
    omega

theorem Parsable.parse {cmds : List (List Bytes)} (ok : Parsable cmds) :
    ∀ c ∈ cmds, tryParseRESPArray (serializeToRESP c) = .ok (c, (serializeToRESP c).length) :=
  fun c member => tryParseRESPArray_serializeToRESP (ok.count c member) (ok.each c member)

/-- The parse loop on a byte prefix of a log. -/
theorem drain_log {cmds : List (List Bytes)} (ok : Parsable cmds) {p : Bytes}
    (short : p.length < readable) (pre : p <+: logOf cmds) :
    drain tryParseRESPArray p =
      ⟨sized serializeToRESP (cmds.take (wholeCommands cmds p.length)), none⟩ :=
  drain_torn tryParseRESPArray_stable ok.parse ok.each short pre

theorem sized_fst (cmds : List (List Bytes)) :
    (sized serializeToRESP cmds).map Prod.fst = cmds := by
  simp [sized, Function.comp_def]

theorem sized_snd_sum (cmds : List (List Bytes)) :
    ((sized serializeToRESP cmds).map Prod.snd).sum = (logOf cmds).length := by
  simp [sized, logOf, List.length_flatMap, Function.comp_def]

/-- The loop ends where one parse loop over the whole file would end. -/
theorem recoverLoop_drain {file : Bytes} (short : file.length < readable) {chunks : List Bytes}
    (cut : chunks.flatten = file) :
    (recoverLoop chunks).executed = (drain tryParseRESPArray file).frames.map Prod.fst ∧
      (recoverLoop chunks).lastGoodOffset = (drain tryParseRESPArray file).consumed ∧
      (recoverLoop chunks).raised = (drain tryParseRESPArray file).raised ∧
      ((recoverLoop chunks).raised = none →
        (recoverLoop chunks).streamBuf = file.drop (drain tryParseRESPArray file).consumed) := by
  subst cut
  have stands := Stream.feedAll_holds tryParseRESPArray_stable short
  rw [recoverLoop_eq, ReadLoop.ofStream]
  refine ⟨?_, ?_, stands.raised, stands.buf⟩
  · rw [stands.frames]
  · rw [stands.frames, Drained.consumed]

/-- The loop on a byte prefix of a log, by the number of whole commands. -/
theorem recoverLoop_log {cmds : List (List Bytes)} (ok : Loggable cmds) {p : Bytes}
    (pre : p <+: logOf cmds) {chunks : List Bytes} (cut : chunks.flatten = p) :
    recoverLoop chunks =
      ⟨cmds.take (wholeCommands cmds p.length),
        (logOf (cmds.take (wholeCommands cmds p.length))).length,
        p.drop (logOf (cmds.take (wholeCommands cmds p.length))).length, none⟩ := by
  have short : p.length < readable := Nat.lt_of_le_of_lt pre.length_le ok.short
  obtain ⟨executed, offset, raised, rest⟩ := recoverLoop_drain short cut
  rw [drain_log ok.parsable short pre] at executed offset raised rest
  rw [sized_fst] at executed
  rw [Drained.consumed, sized_snd_sum] at offset rest
  have parts : recoverLoop chunks = ⟨(recoverLoop chunks).executed,
      (recoverLoop chunks).lastGoodOffset, (recoverLoop chunks).streamBuf,
      (recoverLoop chunks).raised⟩ := rfl
  rw [parts, executed, offset, rest raised, raised]

/-- **Torn-log replay.** On any byte prefix of a log, cut into chunks in any way, the loop hands to
`exec_fn` exactly the commands whose frames end inside the prefix, in order, and keeps the bytes
behind them. -/
theorem recoverLoop_torn {cmds : List (List Bytes)} (ok : Loggable cmds) {p : Bytes}
    (pre : p <+: logOf cmds) {chunks : List Bytes} (reads : ReadsOf p chunks) :
    ∃ k ≤ cmds.length,
      (∀ i < cmds.length, i < k ↔ (logOf (cmds.take (i + 1))).length ≤ p.length) ∧
      recoverLoop chunks =
        ⟨cmds.take k, (logOf (cmds.take k)).length, p.drop (logOf (cmds.take k)).length, none⟩ := by
  refine ⟨wholeCommands cmds p.length, wholeCommands_le_length cmds p.length, fun i inside => ?_,
    recoverLoop_log ok pre reads.joined⟩
  rw [lt_wholeCommands_iff, and_iff_right inside]

/-- `SET a b`. -/
def setAB : List Bytes := [[83, 69, 84], [97], [98]]

/-- `DEL a`. -/
def delA : List Bytes := [[68, 69, 76], [97]]

theorem loggable_setAB_delA : Loggable [setAB, delA] := ⟨by decide, by decide⟩

/-- The log of `SET a b` and `DEL a` with the second frame torn after seven bytes. -/
def tornAB : Bytes := (logOf [setAB, delA]).take 34

/-- Read in two pieces, the first of which ends inside a length line. -/
theorem recoverLoop_torn_setAB_delA :
    ∃ k ≤ [setAB, delA].length,
      (∀ i < [setAB, delA].length,
        i < k ↔ (logOf ([setAB, delA].take (i + 1))).length ≤ tornAB.length) ∧
      recoverLoop [tornAB.take 6, tornAB.drop 6] =
        ⟨[setAB, delA].take k, (logOf ([setAB, delA].take k)).length,
          tornAB.drop (logOf ([setAB, delA].take k)).length, none⟩ :=
  recoverLoop_torn loggable_setAB_delA (List.take_prefix _ _) ⟨by decide, by decide⟩

example : recoverLoop [tornAB.take 6, tornAB.drop 6] =
    ⟨[setAB], 27, [42, 50, 13, 10, 36, 51, 13], none⟩ := by decide

/-! ## The whole function -/

/-- What the operating system answers to the calls of one of the read functions: `open` by its
access mode, `fstat` with the file size, `lseek` to an offset with the position, `read` from a
position on with non-empty pieces and then end-of-file or an error, `ftruncate` with the file it
leaves, `lseek` to the end with the offset. -/
structure Calls where
  openFile : Access → Except Errno Unit
  fstat : Option Nat
  seekSet : Nat → Option Nat
  reads : Nat → List Bytes
  readFails : Bool
  ftruncate : Access → Nat → Bytes → Except Errno Bytes
  seekEnd : Bytes → Option Nat

/-- How a recovery ends: its return value or the exception that escapes, the commands handed to
`exec_fn`, the file it leaves, the offset it stores in `written_offset_`, if it gets there, and
whether the descriptor is still open. -/
structure Recovered where
  ret : Except Fault Bool
  executed : List (List Bytes)
  file : Bytes
  writtenOffset : Option Nat
  leaked : Bool

/-- `Aof::recoverFromAOF`. -/
def recoverFromAOF (sys : Calls) (file : Bytes) (truncateIncompleteTail : Bool) : Recovered :=
  -- `O_RDONLY | O_CLOEXEC`: `rfd` is used for the `ftruncate` below as well
  let rfd := Access.readOnly
  match sys.openFile rfd with
  | .error .enoent => ⟨.ok true, [], file, none, false⟩
  | .error _ => ⟨.ok false, [], file, none, false⟩
  | .ok () =>
      match sys.fstat with
      | none => ⟨.ok false, [], file, none, false⟩
      | some filesize =>
          if filesize = 0 then ⟨.ok true, [], file, none, false⟩
          else
            let s := recoverLoop (sys.reads 0)
            match s.raised with
            | some e => ⟨.error e, s.executed, file, none, true⟩
            | none =>
                if sys.readFails then ⟨.ok false, s.executed, file, none, false⟩
                else if s.streamBuf ≠ [] ∧ truncateIncompleteTail then
                  match sys.ftruncate rfd s.lastGoodOffset file with
                  | .error _ => ⟨.ok false, s.executed, file, none, false⟩
                  | .ok file => ⟨.ok true, s.executed, file, sys.seekEnd file, false⟩
                else ⟨.ok true, s.executed, file, sys.seekEnd file, false⟩

/-- A system that keeps to POSIX: `open` fails only when there is no file, the calls of `read`
return the file piece by piece from the position on, `ftruncate` needs a descriptor opened for
writing. -/
def posixCalls (file : Option Bytes) (chunks : List Bytes) : Calls where
  openFile _ := if file.isSome then .ok () else .error .enoent
  fstat := file.map List.length
  seekSet := Posix.lseek
  reads := readsFrom chunks
  readFails := false
  ftruncate := Posix.ftruncate
  seekEnd file := some file.length

/-- **Replay does not depend on how the file is read.** Whatever bytes the file holds, the loop ends
the same for any two ways to cut it into pieces, and so does the whole function; a parser that
raises does so behind the same commands. -/
theorem recovery_ignores_cut {file : Bytes} (short : file.length < readable)
    {chunks chunks' : List Bytes} (reads : ReadsOf file chunks) (reads' : ReadsOf file chunks') :
    (recoverLoop chunks).executed = (recoverLoop chunks').executed ∧
      (recoverLoop chunks).lastGoodOffset = (recoverLoop chunks').lastGoodOffset ∧
      (recoverLoop chunks).raised = (recoverLoop chunks').raised ∧
      ((recoverLoop chunks).raised = none →
        (recoverLoop chunks).streamBuf = (recoverLoop chunks').streamBuf) ∧
      ∀ (sys : Calls) (truncate : Bool),
        recoverFromAOF { sys with reads := readsFrom chunks } file truncate =
          recoverFromAOF { sys with reads := readsFrom chunks' } file truncate := by
  obtain ⟨executed, offset, raised, rest⟩ := recoverLoop_drain short reads.joined
  obtain ⟨executed', offset', raised', rest'⟩ := recoverLoop_drain short reads'.joined
  have sameExecuted := executed.trans executed'.symm
  have sameOffset := offset.trans offset'.symm
  have sameRaised := raised.trans raised'.symm
  have sameRest : (recoverLoop chunks).raised = none →
      (recoverLoop chunks).streamBuf = (recoverLoop chunks').streamBuf := fun quiet =>
    (rest quiet).trans (rest' (sameRaised.symm.trans quiet)).symm
  refine ⟨sameExecuted, sameOffset, sameRaised, sameRest, fun sys truncate => ?_⟩
  simp only [recoverFromAOF, readsFrom_zero]
  rw [← sameExecuted, ← sameOffset, ← sameRaised]
  cases quiet : (recoverLoop chunks).raised with
  | some e => rfl
  | none => rw [sameRest quiet]

/-- A frame, a negative count behind it, which makes the parser raise, and one more frame. -/
def raisingFile : Bytes := serializeToRESP delA ++ [42, 45, 49, 13, 10] ++ serializeToRESP setAB

/-- Read at once, and in three pieces that cut a length line and the count. -/
theorem recovery_ignores_cut_raising :
    (recoverLoop [raisingFile]).executed =
        (recoverLoop [raisingFile.take 6, (raisingFile.drop 6).take 16,
          raisingFile.drop 22]).executed ∧
      (recoverLoop [raisingFile]).raised = some .lengthError := by
  have pieces : ReadsOf raisingFile [raisingFile.take 6, (raisingFile.drop 6).take 16,
      raisingFile.drop 22] := ⟨by decide, by decide⟩
  have whole : ReadsOf raisingFile [raisingFile] := ⟨by decide, by decide⟩
  exact ⟨(recovery_ignores_cut (by decide) whole pieces).1, by decide⟩

theorem serializeToRESP_ne_nil (c : List Bytes) : serializeToRESP c ≠ [] := by
  simp [serializeToRESP, headerLine]

theorem logOf_append (as bs : List (List Bytes)) : logOf (as ++ bs) = logOf as ++ logOf bs :=
  List.flatMap_append

theorem logOf_take_isPrefix (cmds : List (List Bytes)) (k : Nat) :
    logOf (cmds.take k) <+: logOf cmds := by
  refine ⟨logOf (cmds.drop k), ?_⟩
  rw [← logOf_append, List.take_append_drop]

theorem wholeCommands_zero (cmds : List (List Bytes)) : wholeCommands cmds 0 = 0 := by
  cases cmds with
  | nil => rfl
  | cons c cmds =>
      have positive := List.length_pos_iff.mpr (serializeToRESP_ne_nil c)
      simp only [wholeCommands, wholeOf, List.map_cons, wholeFrames]
      rw [if_neg (by omega)]

/-- Recovery of a file that is a byte prefix of a log: the whole commands are replayed, the file
stays as it is, and the return value tells whether nothing was left over. -/
theorem recoverFromAOF_log {cmds : List (List Bytes)} (ok : Loggable cmds) {p : Bytes}
    (pre : p <+: logOf cmds) {chunks : List Bytes} (reads : ReadsOf p chunks) :
    (recoverFromAOF (posixCalls (some p) chunks) p true).executed =
        cmds.take (wholeCommands cmds p.length) ∧
      (recoverFromAOF (posixCalls (some p) chunks) p true).file = p ∧
      ((recoverFromAOF (posixCalls (some p) chunks) p true).ret = .ok true ↔
        p.drop (logOf (cmds.take (wholeCommands cmds p.length))).length = []) := by
  have loop := recoverLoop_log ok pre reads.joined
  generalize whole : cmds.take (wholeCommands cmds p.length) = done at loop
  by_cases empty : p = []
  · subst empty
    rw [List.length_nil, wholeCommands_zero, List.take_zero] at whole
    subst whole
    simp [recoverFromAOF, posixCalls]
  · have size : p.length ≠ 0 := fun zero => empty (List.eq_nil_of_length_eq_zero zero)
    by_cases left : p.drop (logOf done).length = []
    · simp [recoverFromAOF, posixCalls, loop, size, left]
    · simp [recoverFromAOF, posixCalls, loop, size, left, Posix.ftruncate]

/-- Recovery returns true and leaves the file as the whole frames of its prefix, and a second
recovery, with the frames of `more` appended, replays the whole commands and then `more`. -/
def Usable (cmds more : List (List Bytes)) (p : Bytes) (chunks : List Bytes) : Prop :=
  let first := recoverFromAOF (posixCalls (some p) chunks) p true
  let whole := cmds.take (wholeCommands cmds p.length)
  first.ret = .ok true ∧ first.file = logOf whole ∧
    ∀ again, ReadsOf (first.file ++ logOf more) again →
      (recoverFromAOF (posixCalls (some (first.file ++ logOf more)) again)
        (first.file ++ logOf more) true).executed = whole ++ more

theorem Loggable.of_sublist {as bs : List (List Bytes)} (ok : Loggable bs)
    (sub : as.Sublist bs) : Loggable as :=
  ⟨fun c member => ok.count c (sub.subset member),
    Nat.lt_of_le_of_lt (sub.flatMap serializeToRESP).length_le ok.short⟩

theorem wholeCommands_logOf (cmds : List (List Bytes)) :
    wholeCommands cmds (logOf cmds).length = cmds.length := by
  refine Nat.le_antisymm (wholeCommands_le_length cmds _) (Nat.le_of_not_lt fun short => ?_)
  exact (Nat.lt_irrefl _) (lt_wholeCommands_iff.mpr
    ⟨short, (logOf_take_isPrefix cmds _).length_le⟩)

/-- **Logs compare as their commands do**: one is a part of the other exactly if its commands are
the first of the other's. -/
theorem logs_compare {cmds others : List (List Bytes)} (ok : Loggable cmds)
    (ok' : Loggable others) :
    logOf cmds <+: logOf others ↔ cmds <+: others := by
  constructor
  · intro pre
    have here := drain_log ok.parsable ok.short (List.prefix_refl _)
    have there := drain_log ok'.parsable ok.short pre
    rw [wholeCommands_logOf, List.take_length] at here
    have same := congrArg (fun d => d.frames.map Prod.fst) (here.symm.trans there)
    rw [sized_fst, sized_fst] at same
    rw [same]
    exact List.take_prefix _ _
  · intro first
    obtain ⟨more, rfl⟩ := first
    rw [logOf_append]
    exact List.prefix_append _ _

theorem logs_compare_setAB : logOf [setAB] <+: logOf [setAB, delA] ↔ [setAB] <+: [setAB, delA] :=
  logs_compare ⟨by decide, by decide⟩ loggable_setAB_delA

/-- Recovery of a file with the frames of `more` behind those of `done`. -/
theorem recoverFromAOF_again {done more : List (List Bytes)} (ok : Loggable (done ++ more))
    {chunks : List Bytes} (reads : ReadsOf (logOf done ++ logOf more) chunks) :
    (recoverFromAOF (posixCalls (some (logOf done ++ logOf more)) chunks)
      (logOf done ++ logOf more) true).executed = done ++ more := by
  rw [← logOf_append] at reads ⊢
  rw [(recoverFromAOF_log ok (List.prefix_refl _) reads).1, wholeCommands_logOf, List.take_length]

/-- No command of `2 ^ 31` parts or more is ever replayed. -/
theorem recoverLoop_count (chunks : List Bytes) :
    ∀ c ∈ (recoverLoop chunks).executed, c.length < 2 ^ 31 := by
  induction chunks using List.reverseRecOn with
  | nil => exact fun c member => nomatch member
  | append_singleton chunks chunk ih =>
      intro c member
      rw [recoverLoop, List.foldl_concat, ← recoverLoop, readChunk] at member
      split at member
      · exact ih c member
      · rcases List.mem_append.mp member with old | new
        · exact ih c old
        · obtain ⟨⟨parts, n⟩, drained, rfl⟩ := List.mem_map.mp new
          obtain ⟨buf, _, read⟩ := dec_of_mem_drain drained
          exact tryParseRESPArray_count read

theorem recoverFromAOF_count (sys : Calls) (file : Bytes) (truncate : Bool) :
    ∀ c ∈ (recoverFromAOF sys file truncate).executed, c.length < 2 ^ 31 := by
  intro c member
  refine recoverLoop_count (sys.reads 0) c ?_
  unfold recoverFromAOF at member
  grind

/-- The descriptor cannot truncate, so no recovery changes the file. -/
theorem recoverFromAOF_file (file : Bytes) (chunks : List Bytes) (truncate : Bool) :
    (recoverFromAOF (posixCalls (some file) chunks) file truncate).file = file := by
  simp only [recoverFromAOF, posixCalls, Posix.ftruncate, Option.isSome_some, Option.map_some,
    if_true, readsFrom_zero]
  grind

/-- Some way to read a file: in one piece. -/
theorem exists_reads (file : Bytes) : ∃ chunks, ReadsOf file chunks := by
  by_cases empty : file = []
  · exact ⟨[], by simp [empty], fun c member => nomatch member⟩
  · exact ⟨[file], by simp, by simpa using empty⟩

/-- At a frame boundary the whole commands are the commands before it. -/
theorem take_wholeCommands_of_boundary (cmds : List (List Bytes)) (j : Nat) :
    cmds.take (wholeCommands cmds (logOf (cmds.take j)).length) = cmds.take j := by
  have counted : min j cmds.length ≤ wholeCommands cmds (logOf (cmds.take j)).length := by
    cases upto : min j cmds.length with
    | zero => exact Nat.zero_le _
    | succ i =>
        refine lt_wholeCommands_iff.mpr ⟨by omega, ?_⟩
        have sub : cmds.take (i + 1) <+: cmds.take j := List.take_prefix_take_left (by omega)
        exact (sub.sublist.flatMap serializeToRESP).length_le
  have fits := length_logOf_take_wholeCommands_le cmds (logOf (cmds.take j)).length
  generalize wholeCommands cmds (logOf (cmds.take j)).length = k at counted fits
  obtain ⟨rest, split⟩ : cmds.take j <+: cmds.take k := by
    rw [List.take_eq_take_min]
    exact List.take_prefix_take_left counted
  rw [← split, logOf_append, List.length_append] at fits
  have none : logOf rest = [] := List.eq_nil_of_length_eq_zero (by omega)
  cases rest with
  | nil => rw [← split, List.append_nil]
  | cons c rest =>
      rw [logOf, List.flatMap_cons, List.append_eq_nil_iff] at none
      exact absurd none.1 (serializeToRESP_ne_nil c)

/-- **When the log stays usable**: exactly when the crash tore no frame and no command involved
has so many parts that its frame cannot be read back. -/
theorem recoverFromAOF_usable_iff {cmds more : List (List Bytes)}
    (short : (logOf (cmds ++ more)).length < offMax) {p : Bytes} (pre : p <+: logOf cmds)
    {chunks : List Bytes} (reads : ReadsOf p chunks) :
    Usable cmds more p chunks ↔
      ∃ j, p = logOf (cmds.take j) ∧ ∀ c ∈ cmds.take j ++ more, c.length < 2 ^ 31 := by
  constructor
  · intro usable
    rcases usable with ⟨-, whole, second⟩
    obtain ⟨again, readsAgain⟩ := exists_reads
      ((recoverFromAOF (posixCalls (some p) chunks) p true).file ++ logOf more)
    rw [recoverFromAOF_file] at whole
    refine ⟨_, whole, ?_⟩
    rw [← second again readsAgain]
    exact recoverFromAOF_count _ _ _
  · intro boundary
    rcases boundary with ⟨j, rfl, count⟩
    have sub : (cmds.take j ++ more).Sublist (cmds ++ more) :=
      (List.take_sublist j cmds).append_right more
    have ok : Loggable (cmds.take j ++ more) :=
      ⟨count, Nat.lt_of_le_of_lt (sub.flatMap serializeToRESP).length_le short⟩
    have first := recoverFromAOF_log (ok.of_sublist (List.sublist_append_left _ _))
      (List.prefix_refl _) reads
    rw [wholeCommands_logOf, List.take_length, List.drop_length] at first
    unfold Usable
    dsimp only
    rw [take_wholeCommands_of_boundary, first.2.1]
    exact ⟨first.2.2.mpr rfl, rfl, fun again readsAgain => recoverFromAOF_again ok readsAgain⟩

/-- A crash right behind the first frame. -/
theorem usable_at_boundary : Usable [setAB, delA] [delA] (logOf [setAB]) [logOf [setAB]] :=
  (recoverFromAOF_usable_iff (by decide) (logOf_take_isPrefix [setAB, delA] 1)
    ⟨by decide, by decide⟩).mpr ⟨1, rfl, by decide⟩

/-- A crash inside the second frame: recovery returns false and leaves the tail in the file. -/
theorem not_usable_tornAB :
    tornAB <+: logOf [setAB, delA] ∧ ReadsOf tornAB [tornAB] ∧
      ¬ Usable [setAB, delA] [setAB] tornAB [tornAB] := by
  refine ⟨List.take_prefix _ _, ⟨by decide, by decide⟩, fun usable => ?_⟩
  exact absurd usable.1 (by decide)

-- The frame appended behind the tail is swallowed by it.
example : (recoverFromAOF (posixCalls (some (tornAB ++ logOf [setAB])) [tornAB ++ logOf [setAB]])
    (tornAB ++ logOf [setAB]) true).executed = [setAB] := by decide

/-! ## Reading from an offset -/

/-- `Aof::readCommandsFromOffset`: the return value or the exception that escapes, and the commands
handed to `exec_fn`. Its loop is the one of the recovery, from the position that `lseek` gives. -/
def readCommandsFromOffset (sys : Calls) (offset : Nat) : Except Fault Bool × List (List Bytes) :=
  match sys.openFile .readOnly with
  | .error _ => (.ok false, [])
  | .ok () =>
      match sys.seekSet offset with
      | none => (.ok false, [])
      | some pos =>
          let s := recoverLoop (sys.reads pos)
          match s.raised with
          | some e => (.error e, s.executed)
          | none => (.ok (!sys.readFails), s.executed)

/-- The file can be opened, the descriptor set to any place in it, and what is read from there is
the rest of the file, in whatever pieces. -/
structure Calls.Serves (sys : Calls) (file : Bytes) : Prop where
  opens : sys.openFile .readOnly = .ok ()
  seeks : ∀ n ≤ file.length, sys.seekSet n = some n
  reads : ∀ pos, ReadsOf (file.drop pos) (sys.reads pos)
  fine : sys.readFails = false

theorem posixCalls_serves {file : Bytes} (short : file.length ≤ offMax) {chunks : List Bytes}
    (reads : ReadsOf file chunks) : (posixCalls (some file) chunks).Serves file where
  opens := rfl
  seeks := fun _ inside => if_pos (Nat.le_trans inside short)
  reads := reads.from
  fine := rfl

theorem Calls.Serves.read {sys : Calls} {file : Bytes} (serves : sys.Serves file) {offset : Nat}
    (inside : offset ≤ file.length) :
    readCommandsFromOffset sys offset =
      match (recoverLoop (sys.reads offset)).raised with
      | some e => (.error e, (recoverLoop (sys.reads offset)).executed)
      | none => (.ok true, (recoverLoop (sys.reads offset)).executed) := by
  simp only [readCommandsFromOffset, serves.opens, serves.seeks offset inside, serves.fine,
    Bool.not_false]

/-- From the boundary of a frame on, the commands behind it are read. -/
theorem readCommandsFromOffset_log {cmds : List (List Bytes)} (ok : Loggable cmds) (j : Nat)
    {sys : Calls} (serves : sys.Serves (logOf cmds)) :
    readCommandsFromOffset sys (logOf (cmds.take j)).length = (.ok true, cmds.drop j) := by
  have behind : (logOf cmds).drop (logOf (cmds.take j)).length = logOf (cmds.drop j) := by
    conv_lhs => rw [← List.take_append_drop j cmds, logOf_append, List.take_append_drop]
    exact List.drop_left
  have reads := serves.reads (logOf (cmds.take j)).length
  rw [behind] at reads
  have loop := recoverLoop_log (ok.of_sublist (List.drop_sublist j cmds)) (List.prefix_refl _)
    reads.joined
  rw [wholeCommands_logOf, List.take_length] at loop
  rw [serves.read (logOf_take_isPrefix cmds j).length_le, loop]

/-- Where the first `j` commands that a recovery replays end in the file: `last_good_offset` behind
the `j`-th of them. -/
def frameEnd (file : Bytes) (j : Nat) : Nat := (drain tryParseRESPArray file).frameEnd j

/-- Behind the last command replayed, `last_good_offset` is the end of its frame. -/
theorem lastGoodOffset_eq_frameEnd {file : Bytes} (short : file.length < readable)
    {chunks : List Bytes} (reads : ReadsOf file chunks) :
    (recoverLoop chunks).lastGoodOffset = frameEnd file (recoverLoop chunks).executed.length := by
  obtain ⟨executed, offset, -, -⟩ := recoverLoop_drain short reads.joined
  rw [executed, offset, frameEnd, Drained.frameEnd, List.length_map, List.take_length,
    Drained.consumed]

/-- The commands of a recovery are those of one parse loop over the whole file. -/
theorem recoverFromAOF_executed {file : Bytes} (short : file.length < readable)
    {chunks : List Bytes} (reads : ReadsOf file chunks) (truncate : Bool) :
    (recoverFromAOF (posixCalls (some file) chunks) file truncate).executed =
      (drain tryParseRESPArray file).frames.map Prod.fst := by
  obtain ⟨executed, -, -, -⟩ := recoverLoop_drain short reads.joined
  rw [← executed]
  by_cases empty : file = []
  · subst empty
    rw [reads.eq_nil]
    rfl
  · have size : file.length ≠ 0 := fun zero => empty (List.eq_nil_of_length_eq_zero zero)
    simp only [recoverFromAOF, posixCalls, Posix.ftruncate, Option.isSome_some, Option.map_some,
      if_true, size, if_false, readsFrom_zero]
    grind

theorem frameEnd_le {file : Bytes} (short : file.length < readable) (j : Nat) :
    frameEnd file j ≤ file.length := by
  refine Nat.le_trans ?_ (consumed_drain_le tryParseRESPArray_stable short)
  unfold frameEnd Drained.frameEnd Drained.consumed
  exact ((List.take_sublist j _).map Prod.snd).sum_le_sum fun _ _ => Nat.zero_le _

/-- **Reading from a frame boundary agrees with replay.** From the end of the first `j` frames on,
the commands read are those of a recovery behind the first `j`, whatever bytes the file holds and
however both functions read it. -/
theorem readCommandsFromOffset_agrees {file : Bytes} (short : file.length < readable)
    {chunks : List Bytes} (reads : ReadsOf file chunks) {sys : Calls} (serves : sys.Serves file)
    (j : Nat) (truncate : Bool) :
    (readCommandsFromOffset sys (frameEnd file j)).2 =
        (recoverFromAOF (posixCalls (some file) chunks) file truncate).executed.drop j ∧
      ((recoverLoop chunks).raised = none →
        (readCommandsFromOffset sys (frameEnd file j)).1 = .ok true) := by
  have shorter : (file.drop (frameEnd file j)).length < readable := by
    rw [List.length_drop]
    omega
  obtain ⟨executed, -, raised, -⟩ :=
    recoverLoop_drain shorter (serves.reads (frameEnd file j)).joined
  obtain ⟨-, -, before, -⟩ := recoverLoop_drain short reads.joined
  have behind := drain_frameEnd tryParseRESPArray_stable short j
  rw [← frameEnd] at behind
  rw [behind] at executed raised
  rw [recoverFromAOF_executed short reads truncate, ← List.map_drop, ← executed,
    serves.read (frameEnd_le short j)]
  constructor
  · cases (recoverLoop (sys.reads (frameEnd file j))).raised with
    | none => rfl
    | some e => rfl
  · intro quiet
    rw [raised, ← before, quiet]

/-- Two whole frames and bytes that are no frame, read from behind the first one. -/
theorem readCommandsFromOffset_agrees_setAB :
    (readCommandsFromOffset (posixCalls (some (logOf [setAB, delA] ++ [88, 89]))
        [(logOf [setAB, delA]).take 30, (logOf [setAB, delA]).drop 30 ++ [88, 89]]) 27).2 =
      (recoverFromAOF (posixCalls (some (logOf [setAB, delA] ++ [88, 89]))
        [(logOf [setAB, delA]).take 6, (logOf [setAB, delA]).drop 6 ++ [88, 89]])
        (logOf [setAB, delA] ++ [88, 89]) true).executed.drop 1 :=
  (readCommandsFromOffset_agrees (by decide) ⟨by decide, by decide⟩
    (posixCalls_serves (by decide) ⟨by decide, by decide⟩) 1 true).1

end Blp.Aof

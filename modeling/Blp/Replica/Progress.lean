import Blp.Replica.Listener

/-!
# Where a listener run is in the log

* `Progress`: a run has loaded the place of one frame, has sent the frames up to a second and
  parsed them up to a third, and its buffer is what it has read behind that.
* `Progress.read`, `Progress.send`, `Progress.grow`: the steps of the run, and of the others.
-/

namespace Blp.Replica

open CString Framing Posix Runs Blp.Aof Blp.Core

/-! ## Places of frames -/

/-- The payloads that commands make. -/
def frames (cmds : List Command) : List Bytes := cmds.map fun cmd => serializeToRESP cmd.parts

theorem logOf_parts (cmds : List Command) :
    logOf (cmds.map Command.parts) = (frames cmds).flatten := by
  simp [logOf, frames, List.flatMap_def, Function.comp_def]

/-- The place in the file where the frame of command `j` starts, and that of `j - 1` ends. -/
def frameStart (init : Bytes) (cmds : List Command) (j : Nat) : Nat :=
  payloadEnd init (frames cmds) j

theorem frameStart_append {cmds : List Command} {j : Nat} (within : j ≤ cmds.length)
    (init : Bytes) (more : List Command) :
    frameStart init (cmds ++ more) j = frameStart init cmds j := by
  unfold frameStart frames
  rw [List.map_append]
  exact payloadEnd_append (by rw [List.length_map]; exact within) init _

/-- From one place to a later one. -/
theorem frameStart_eq (init : Bytes) (cmds : List Command) {j m : Nat} (le : j ≤ m) :
    frameStart init cmds m =
      frameStart init cmds j + (frames ((cmds.take m).drop j)).flatten.length := by
  have split : (frames cmds).take m = (frames cmds).take j ++ frames ((cmds.take m).drop j) := by
    have whole : (cmds.take m).take j ++ (cmds.take m).drop j = cmds.take m :=
      List.take_append_drop j _
    rw [List.take_take, Nat.min_eq_left le] at whole
    unfold frames
    rw [← List.map_take, ← List.map_take, ← whole, List.map_append, whole]
  rw [frameStart, payloadEnd, split, List.flatten_append, List.length_append, frameStart,
    payloadEnd, Nat.add_assoc]

theorem frameStart_mono (init : Bytes) (cmds : List Command) {j m : Nat} (le : j ≤ m) :
    frameStart init cmds j ≤ frameStart init cmds m := by
  rw [frameStart_eq init cmds le]
  exact Nat.le_add_right _ _

theorem frameStart_succ (init : Bytes) {cmds : List Command} {i : Nat} {cmd : Command}
    (found : cmds[i]? = some cmd) :
    frameStart init cmds (i + 1) =
      frameStart init cmds i + (serializeToRESP cmd.parts).length := by
  obtain ⟨inside, there⟩ := List.getElem?_eq_some_iff.mp found
  have one : (cmds.take (i + 1)).drop i = [cmd] := by
    rw [List.drop_take, Nat.add_sub_cancel_left, List.drop_eq_getElem_cons inside, there]
    rfl
  rw [frameStart_eq init cmds (Nat.le_succ i), one]
  simp [frames]

theorem frameStart_lt {init : Bytes} {cmds : List Command} {i m : Nat} (lt : i < m)
    (within : i < cmds.length) : frameStart init cmds i < frameStart init cmds m := by
  have positive := List.length_pos_iff.mpr (serializeToRESP_ne_nil (cmds[i]).parts)
  have next := frameStart_succ init (List.getElem?_eq_getElem within)
  have after := frameStart_mono init cmds (Nat.succ_le_of_lt lt)
  rw [Nat.succ_eq_add_one] at after
  omega

/-- Places order frames. -/
theorem lt_of_frameStart_lt {init : Bytes} {cmds : List Command} {i m : Nat}
    (lt : frameStart init cmds i < frameStart init cmds m) : i < m := by
  by_contra le
  exact absurd (frameStart_mono init cmds (Nat.le_of_not_lt le)) (Nat.not_le_of_lt lt)

/-! ## Frames with their places -/

/-- The frames of the commands from `k` to `m`, with their places. -/
def entries (init : Bytes) (cmds : List Command) (k m : Nat) : List (Nat × List Bytes) :=
  located (frameStart init cmds k)
    (sized serializeToRESP (((cmds.take m).drop k).map Command.parts))

theorem entries_self (init : Bytes) (cmds : List Command) (m : Nat) :
    entries init cmds m m = [] := by
  rw [entries, List.drop_eq_nil_of_le (List.length_take_le m cmds)]
  rfl

/-- The first of some entries. -/
theorem entries_cons {init : Bytes} {cmds : List Command} {k m : Nat} {cmd : Command} (lt : k < m)
    (found : cmds[k]? = some cmd) :
    entries init cmds k m =
      (frameStart init cmds k, cmd.parts) :: entries init cmds (k + 1) m := by
  obtain ⟨inside, there⟩ := List.getElem?_eq_some_iff.mp found
  have head : (cmds.take m).drop k = cmd :: (cmds.take m).drop (k + 1) := by
    have within : k < (cmds.take m).length := by rw [List.length_take]; omega
    rw [List.drop_eq_getElem_cons within, List.getElem_take, there]
  rw [entries, head, entries, frameStart_succ init found]
  rfl

theorem entries_append {cmds : List Command} {k m : Nat} (next : k ≤ m) (last : m ≤ cmds.length)
    (init : Bytes) (more : List Command) :
    entries init (cmds ++ more) k m = entries init cmds k m := by
  rw [entries, frameStart_append (Nat.le_trans next last), List.take_append_of_le_length last,
    entries]

/-! ## The progress of a run -/

/-- The place of the command that a run is to send next, or to look for. -/
def Reader.next (r : Reader) : Nat :=
  match r.parsed with
  | (place, _) :: _ => place
  | [] => r.base

/-- A run that loaded the place of frame `j`, has the frames from `k` to `m` parsed and not yet
sent, and holds the beginning of what follows, in which there is no whole frame. -/
structure Progress (init : Bytes) (cmds : List Command) (size : Nat) (r : Reader)
    (j k m : Nat) : Prop where
  first : j ≤ k
  next : k ≤ m
  last : m ≤ cmds.length
  offset : r.offset = frameStart init cmds j
  pos : r.pos = frameStart init cmds m + r.streamBuf.length
  inside : r.pos ≤ size
  buf : r.streamBuf <+: (frames (cmds.drop m)).flatten
  drained : drain tryParseRESPArray r.streamBuf = ⟨[], none⟩
  parsed : r.parsed = entries init cmds k m
  quiet : r.raised = false

namespace Progress

variable {init : Bytes} {cmds : List Command} {size : Nat} {r : Reader} {j k m : Nat}

theorem base (h : Progress init cmds size r j k m) : r.base = frameStart init cmds m := by
  rw [Reader.base, h.pos]
  exact Nat.add_sub_cancel _ _

/-- More commands and a longer file change nothing. -/
theorem grow (h : Progress init cmds size r j k m) (more : List Command) {larger : Nat}
    (le : size ≤ larger) : Progress init (cmds ++ more) larger r j k m where
  first := h.first
  next := h.next
  last := by rw [List.length_append]; exact Nat.le_trans h.last (Nat.le_add_right _ _)
  offset := by
    rw [frameStart_append (Nat.le_trans h.first (Nat.le_trans h.next h.last))]
    exact h.offset
  pos := by
    rw [frameStart_append h.last]
    exact h.pos
  inside := Nat.le_trans h.inside le
  buf := by
    rw [List.drop_append_of_le_length h.last, frames, List.map_append, List.flatten_append]
    exact h.buf.trans (List.prefix_append _ _)
  drained := h.drained
  parsed := by
    rw [entries_append h.next h.last]
    exact h.parsed
  quiet := h.quiet

theorem load (le : j ≤ cmds.length) (inside : frameStart init cmds j ≤ size) :
    Progress init cmds size ⟨frameStart init cmds j, frameStart init cmds j, [], [], false⟩ j j j
    where
  first := Nat.le_refl _
  next := Nat.le_refl _
  last := le
  offset := rfl
  pos := rfl
  inside := inside
  buf := List.nil_prefix
  drained := (by decide : drain tryParseRESPArray [] = ⟨[], none⟩)
  parsed := (entries_self init cmds j).symm
  quiet := rfl

/-- A run with nothing parsed has sent all it has parsed. -/
theorem eq_of_idle (h : Progress init cmds size r j k m) (idle : r.parsed = []) : k = m := by
  by_contra other
  have lt : k < m := Nat.lt_of_le_of_ne h.next other
  have held := h.parsed
  rw [idle, entries_cons lt (List.getElem?_eq_getElem (Nat.lt_of_lt_of_le lt h.last))] at held
  cases held

/-- The command that a run is to send next. -/
theorem head (h : Progress init cmds size r j k m) {place : Nat} {parts : List Bytes}
    {parsed : List (Nat × List Bytes)} (held : r.parsed = (place, parts) :: parsed) :
    k < m ∧ place = frameStart init cmds k ∧ (cmds[k]?).map Command.parts = some parts ∧
      parsed = entries init cmds (k + 1) m := by
  have lt : k < m := by
    by_contra ge
    have same : k = m := Nat.le_antisymm h.next (Nat.le_of_not_lt ge)
    have none := h.parsed
    rw [same, entries_self, held] at none
    cases none
  obtain ⟨cmd, found⟩ : ∃ cmd, cmds[k]? = some cmd :=
    ⟨_, List.getElem?_eq_getElem (Nat.lt_of_lt_of_le lt h.last)⟩
  have same := h.parsed
  rw [held, entries_cons lt found] at same
  cases same
  exact ⟨lt, rfl, by rw [found]; rfl, rfl⟩

theorem place (h : Progress init cmds size r j k m) : r.next = frameStart init cmds k := by
  unfold Reader.next
  split
  · rename_i held
    exact (h.head held).2.1
  · rename_i idle
    rw [h.base, h.eq_of_idle idle]

theorem send (h : Progress init cmds size r j k m) {place : Nat} {parts : List Bytes}
    {parsed : List (Nat × List Bytes)} (held : r.parsed = (place, parts) :: parsed) :
    Progress init cmds size { r with parsed } j (k + 1) m := by
  rcases h.head held with ⟨lt, -, -, rest⟩
  exact ⟨Nat.le_succ_of_le h.first, lt, h.last, h.offset, h.pos, h.inside, h.buf, h.drained, rest,
    h.quiet⟩

/-- What is read next follows in the log. -/
theorem filled_prefix (h : Progress init cmds size r j k m) {file : Bytes}
    (written : file <+: init ++ (frames cmds).flatten) (n : Nat) :
    r.filled file n <+: (frames (cmds.drop m)).flatten := by
  obtain ⟨rest, split⟩ := h.buf
  have log : init ++ (frames cmds).flatten =
      (init ++ ((frames cmds).take m).flatten ++ r.streamBuf) ++ rest := by
    have whole : frames cmds = (frames cmds).take m ++ frames (cmds.drop m) := by
      rw [frames, frames, List.map_drop]
      exact (List.take_append_drop m _).symm
    conv_lhs => rw [whole]
    rw [List.flatten_append, ← split]
    simp only [List.append_assoc]
  have place : r.pos = (init ++ ((frames cmds).take m).flatten ++ r.streamBuf).length := by
    rw [h.pos, frameStart, payloadEnd, List.length_append, List.length_append]
  have behind : (file.drop r.pos).take n <+: rest := by
    have dropped := written.drop r.pos
    rw [log, place, List.drop_left] at dropped
    rw [place]
    exact (List.take_prefix _ _).trans dropped
  rw [Reader.filled, ← split]
  exact (List.prefix_append_right_inj _).mpr behind

theorem length_filled (h : Progress init cmds size r j k m) {file : Bytes} {n : Nat}
    (within : r.pos + n ≤ file.length) :
    frameStart init cmds m + (r.filled file n).length = r.pos + n := by
  rw [Reader.filled, List.length_append, List.length_take, List.length_drop, h.pos]
  rw [h.pos] at within
  omega

/-- A read parses the frames up to some `m'`. -/
theorem read (h : Progress init cmds size r j k m) {file : Bytes} {n : Nat}
    (written : file <+: init ++ (frames cmds).flatten)
    (parsable : Parsable (cmds.map Command.parts)) (short : file.length < init.length + offMax)
    (within : r.pos + n ≤ file.length) :
    ∃ m', m ≤ m' ∧ Progress init cmds file.length (r.read file n) j m m' := by
  have pre := h.filled_prefix written n
  have len := h.length_filled within
  have shortBuf : (r.filled file n).length < readable := by
    have start : init.length ≤ frameStart init cmds m := Nat.le_add_right _ _
    have limit : offMax = readable := rfl
    omega
  have ok : Parsable ((cmds.drop m).map Command.parts) := by
    rw [List.map_drop]
    exact ⟨fun c member => parsable.count c (List.mem_of_mem_drop member),
      fun c member => parsable.each c (List.mem_of_mem_drop member)⟩
  rw [← logOf_parts] at pre
  have drained := drain_log ok shortBuf pre
  have covered := length_logOf_take_wholeCommands_le ((cmds.drop m).map Command.parts)
    (r.filled file n).length
  have most := wholeCommands_le_length ((cmds.drop m).map Command.parts) (r.filled file n).length
  generalize wholeCommands ((cmds.drop m).map Command.parts) (r.filled file n).length = count
    at drained covered most
  rw [List.length_map, List.length_drop] at most
  -- the frames parsed are those from `m` to `m + count`
  have parsed : ((cmds.drop m).map Command.parts).take count =
      ((cmds.take (m + count)).drop m).map Command.parts := by
    rw [← List.map_take, List.drop_take, Nat.add_sub_cancel_left]
  rw [parsed] at drained covered
  have consumed : (drain tryParseRESPArray (r.filled file n)).consumed =
      (frames ((cmds.take (m + count)).drop m)).flatten.length := by
    rw [drained, Drained.consumed, sized_snd_sum, logOf_parts]
  have place := frameStart_eq init cmds (Nat.le_add_right m count)
  rw [← consumed] at place
  rw [logOf_parts, ← consumed] at covered
  refine ⟨m + count, Nat.le_add_right _ _, ?_⟩
  exact {
    first := Nat.le_trans h.first h.next
    next := Nat.le_add_right _ _
    last := by have := h.last; omega
    offset := h.offset
    pos := by
      change r.pos + n = _ + ((r.filled file n).drop _).length
      rw [List.length_drop]
      omega
    inside := within
    buf := by
      have split : (frames (cmds.drop m)).flatten =
          (frames ((cmds.take (m + count)).drop m)).flatten ++
            (frames (cmds.drop (m + count))).flatten := by
        rw [← List.flatten_append, frames, frames, frames, ← List.map_append, List.drop_take,
          Nat.add_sub_cancel_left, ← List.drop_drop, List.take_append_drop]
      rw [logOf_parts, split] at pre
      have behind := pre.drop (drain tryParseRESPArray (r.filled file n)).consumed
      rw [consumed, List.drop_left] at behind
      change (r.filled file n).drop _ <+: _
      rw [consumed]
      exact behind
    drained := by
      have rest := dec_rest_eq_error tryParseRESPArray_stable shortBuf
      have quiet : (drain tryParseRESPArray (r.filled file n)).raised = none := by rw [drained]
      rw [quiet] at rest
      refine drain_of_error tryParseRESPArray_stable ?_ rest
      change ((r.filled file n).drop _).length < readable
      rw [List.length_drop]
      omega
    parsed := by
      change located r.base (drain tryParseRESPArray (r.filled file n)).frames = _
      rw [drained, h.base, entries]
    quiet := by
      change (drain tryParseRESPArray (r.filled file n)).raised.isSome = false
      rw [drained]
      rfl }

/-- The frames that end inside what a run has read are parsed. -/
theorem lt_of_end_le (h : Progress init cmds size r j k m)
    (parsable : Parsable (cmds.map Command.parts)) (short : size < init.length + offMax) {i : Nat}
    (within : i < cmds.length) (ended : frameStart init cmds (i + 1) ≤ r.pos) : i < m := by
  by_contra ge
  have start : init.length ≤ frameStart init cmds m := Nat.le_add_right _ _
  have limit : offMax = readable := rfl
  have shortBuf : r.streamBuf.length < readable := by
    have := h.inside
    have := h.pos
    omega
  have inside : m < cmds.length := by omega
  have ok : Parsable ((cmds.drop m).map Command.parts) := by
    rw [List.map_drop]
    exact ⟨fun c member => parsable.count c (List.mem_of_mem_drop member),
      fun c member => parsable.each c (List.mem_of_mem_drop member)⟩
  have pre := h.buf
  rw [← logOf_parts] at pre
  have drained := drain_log ok shortBuf pre
  rw [h.drained] at drained
  -- the first frame behind `m` would have been found
  have found : 0 < wholeCommands ((cmds.drop m).map Command.parts) r.streamBuf.length := by
    refine lt_wholeCommands_iff.mpr ⟨by rw [List.length_map, List.length_drop]; omega, ?_⟩
    have one : ((cmds.drop m).map Command.parts).take (0 + 1) = [cmds[m].parts] := by
      rw [List.drop_eq_getElem_cons inside]
      rfl
    have next := frameStart_succ init (List.getElem?_eq_getElem inside)
    have after := frameStart_mono init cmds (show m + 1 ≤ i + 1 by omega)
    have size : (logOf [cmds[m].parts]).length = (serializeToRESP cmds[m].parts).length := by
      simp [logOf]
    rw [one, size]
    have := h.pos
    omega
  have none := congrArg (fun d => d.frames.length) drained
  simp only [List.length_nil, sized, List.length_map, List.length_take, List.length_drop] at none
  omega

end Progress

end Blp.Replica

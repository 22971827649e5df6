import Blp.Replica.Protocol

/-!
# The receive loop of the master

`handle_replica` runs in a thread of its own for each replica. It receives messages until
`recvFromSocket` returns false or no heartbeat has come for more than ten seconds, and closes the
descriptor. `recvFromSocket` passes the length field of each header to `resize` unchecked, and
nothing catches what this throws.

* `handleReplica_closes_iff`: a peer can send whatever it likes, in any pieces, and the loop ends
  with the descriptor closed, unless a frame that the loop comes to has a length field above
  `2 ^ 63 - 1`.
-/

namespace Blp.Replica

open CString BigEndian Posix

/-! ## The loop -/

/-- What `steady_clock::now()` returns, in nanoseconds: before the loop, in round `i` on a
heartbeat, and at the end of round `i`. -/
structure Clock where
  start : Nat
  beat : Nat → Nat
  now : Nat → Nat

/-- `last_heartbeat_time` once round `i` has received a message. -/
def Clock.last (clock : Clock) (i : Nat) (type : MessageType) (last : Nat) : Nat :=
  if type = heartbeat then clock.beat i else last

/-- The heartbeat timeout at the end of round `i`. -/
def Clock.TimedOut (clock : Clock) (i last : Nat) : Prop := (clock.now i - last) / 10 ^ 9 > 10

instance (clock : Clock) (i last : Nat) : Decidable (clock.TimedOut i last) :=
  inferInstanceAs (Decidable (_ > _))

/-- How `handle_replica` ends. -/
inductive Departure
  /-- It has left the loop and closed the descriptor. -/
  | closed
  /-- An exception has left the function of the thread, which ends the process. -/
  | terminated
  deriving DecidableEq

/-- The loop of `handle_replica` from round `i` on; `none` when it is not at its end after so many
rounds. Messages of other types than `HEARTBEAT` are only printed. -/
def handleReplica (clock : Clock) : Nat → Nat → Nat → Socket → Option Departure
  | 0, _, _, _ => none
  | rounds + 1, i, last, socket =>
      match Message.recvFromSocket {} socket with
      | none => some .terminated
      | some (false, _, _) => some .closed
      | some (true, header, socket) =>
          let last := clock.last i header.type last
          if clock.TimedOut i last then some .closed
          else handleReplica clock rounds (i + 1) last socket

/-! ## Frames of any content -/

/-- The type byte at the head of a stream. -/
def typeField (w : Bytes) : MessageType := UInt8.ofNat (value (w.take 1))

/-- The length field at the head of a stream. -/
def lengthField (w : Bytes) : Nat := value ((w.drop 4).take 8)

/-- A header and as many bytes behind it as it says. -/
def IsFrame (f : Bytes) : Prop := 12 ≤ f.length ∧ f.length = 12 + lengthField f

/-- No heartbeat is missed in the rounds that receive these frames. -/
def InTime (clock : Clock) : Nat → Nat → List Bytes → Prop
  | _, _, [] => True
  | i, last, f :: frames =>
      ¬ clock.TimedOut i (clock.last i (typeField f) last) ∧
        InTime clock (i + 1) (clock.last i (typeField f) last) frames

/-- Behind frames that come in without a timeout the stream goes on with a header whose length
field is above `2 ^ 63 - 1`. -/
def Oversized (clock : Clock) (i last : Nat) (w : Bytes) : Prop :=
  ∃ (frames : List Bytes) (rest : Bytes), w = frames.flatten ++ rest ∧
    (∀ f ∈ frames, IsFrame f) ∧ InTime clock i last frames ∧
    12 ≤ rest.length ∧ vectorMax < lengthField rest

theorem lengthField_append {f : Bytes} (enough : 12 ≤ f.length) (rest : Bytes) :
    lengthField (f ++ rest) = lengthField f := by
  rw [lengthField, lengthField, List.drop_append_of_le_length (by omega),
    List.take_append_of_le_length (by rw [List.length_drop]; omega)]

theorem typeField_append {f : Bytes} (enough : 12 ≤ f.length) (rest : Bytes) :
    typeField (f ++ rest) = typeField f := by
  rw [typeField, typeField, List.take_append_of_le_length (by omega)]

/-- The frame at the head of a stream is where its length field says. -/
theorem IsFrame.head {f : Bytes} (frame : IsFrame f) (rest : Bytes) :
    lengthField (f ++ rest) = lengthField f ∧ typeField (f ++ rest) = typeField f ∧
      (f ++ rest).drop (12 + lengthField f) = rest := by
  refine ⟨lengthField_append frame.1 rest, typeField_append frame.1 rest, ?_⟩
  rw [← frame.2, List.drop_left]

theorem isFrame_take {w : Bytes} (whole : 12 + lengthField w ≤ w.length) :
    IsFrame (w.take (12 + lengthField w)) := by
  have size : (w.take (12 + lengthField w)).length = 12 + lengthField w := by
    rw [List.length_take]
    omega
  have enough : 12 ≤ (w.take (12 + lengthField w)).length := by omega
  refine ⟨enough, ?_⟩
  rw [size, ← lengthField_append enough (w.drop (12 + lengthField w)), List.take_append_drop]

section Oversized

variable {clock : Clock} {i last : Nat} {w : Bytes}

theorem oversized_of_header (enough : 12 ≤ w.length) (beyond : vectorMax < lengthField w) :
    Oversized clock i last w :=
  ⟨[], w, rfl, fun _ member => absurd member List.not_mem_nil, True.intro, enough, beyond⟩

/-- A stream that breaks off in a frame is not at an oversized one. -/
theorem not_oversized_of_torn
    (torn : w.length < 12 ∨ lengthField w ≤ vectorMax ∧ w.length < 12 + lengthField w) :
    ¬ Oversized clock i last w := by
  intro oversized
  obtain ⟨frames, rest, split, each, -, enough, beyond⟩ := oversized
  cases frames with
  | nil =>
      obtain rfl : w = rest := split
      omega
  | cons f frames =>
      have frame := each f List.mem_cons_self
      rw [List.flatten_cons, List.append_assoc] at split
      obtain ⟨len, -, -⟩ := frame.head (frames.flatten ++ rest)
      have longer : f.length ≤ w.length := by
        rw [split, List.length_append]
        omega
      rw [← split] at len
      have size := frame.2
      omega

/-- Behind a whole frame. -/
theorem oversized_iff_of_whole (fits : lengthField w ≤ vectorMax)
    (whole : 12 + lengthField w ≤ w.length) :
    Oversized clock i last w ↔ ¬ clock.TimedOut i (clock.last i (typeField w) last) ∧
      Oversized clock (i + 1) (clock.last i (typeField w) last) (w.drop (12 + lengthField w)) := by
  constructor
  · intro oversized
    obtain ⟨frames, rest, split, each, inTime, enough, beyond⟩ := oversized
    cases frames with
    | nil =>
        cases split
        exact absurd beyond (Nat.not_lt.mpr fits)
    | cons f frames =>
        rw [List.flatten_cons, List.append_assoc] at split
        obtain ⟨len, type, behind⟩ := (each f List.mem_cons_self).head (frames.flatten ++ rest)
        rw [← split] at len type behind
        rw [len, type]
        refine ⟨inTime.1, frames, rest, behind, fun g member => ?_, inTime.2, enough, beyond⟩
        exact each g (List.mem_cons_of_mem _ member)
  · intro further
    obtain ⟨prompt, frames, rest, split, each, inTime, enough, beyond⟩ := further
    have frame := isFrame_take whole
    have front := List.take_append_drop (12 + lengthField w) w
    have type : typeField (w.take (12 + lengthField w)) = typeField w := by
      conv_rhs => rw [← front]
      exact (typeField_append frame.1 _).symm
    refine ⟨w.take (12 + lengthField w) :: frames, rest, ?_, fun g member => ?_, ?_, enough, beyond⟩
    · rw [List.flatten_cons, List.append_assoc, ← split, front]
    · rcases List.mem_cons.mp member with rfl | later
      · exact frame
      · exact each g later
    · rw [InTime, type]
      exact ⟨prompt, inTime⟩

end Oversized

/-! ## What `recvFromSocket` does with any stream -/

theorem recvFromSocket_oversized {w : Bytes} {socket : Socket} (reads : ReadsOf w socket)
    (enough : 12 ≤ w.length) (beyond : vectorMax < lengthField w) :
    Message.recvFromSocket {} socket = none := by
  obtain ⟨socket', received, -⟩ := recvFromSocket_header reads enough
  have thrown : resize (Message.ofHeader w).payload (value ((w.drop 4).take 8)) = none :=
    if_neg (Nat.not_le.mpr beyond)
  rw [received, Message.recvPayload, thrown, Option.map_none]

theorem recvFromSocket_anyFrame {w : Bytes} {socket : Socket} (reads : ReadsOf w socket)
    (fits : lengthField w ≤ vectorMax) (whole : 12 + lengthField w ≤ w.length) :
    ∃ (header : Message) (socket' : Socket),
      Message.recvFromSocket {} socket = some (true, header, socket') ∧
      header.type = typeField w ∧ ReadsOf (w.drop (12 + lengthField w)) socket' := by
  obtain ⟨socket, received, reads⟩ := recvFromSocket_header reads (by omega)
  obtain ⟨socket', all, reads⟩ := recvAll_of_le reads
    (show lengthField w ≤ (w.drop 12).length by rw [List.length_drop]; omega)
  rw [List.drop_drop] at reads
  rw [← lengthField, recvPayload_eq fits rfl, all] at received
  exact ⟨_, socket', received, rfl, reads⟩

theorem recvFromSocket_breaks {w : Bytes} {socket : Socket} (reads : ReadsOf w socket)
    (torn : w.length < 12 ∨ lengthField w ≤ vectorMax ∧ w.length < 12 + lengthField w) :
    ∃ header, Message.recvFromSocket {} socket = some (false, header, []) := by
  by_cases short : w.length < 12
  · obtain ⟨header, received, -⟩ := recvFromSocket_short reads short
    exact ⟨header, received⟩
  · obtain ⟨fits, torn⟩ := torn.resolve_left short
    obtain ⟨socket', received, reads⟩ := recvFromSocket_header reads (Nat.le_of_not_lt short)
    have left : (w.drop 12).length < lengthField w := by
      rw [List.length_drop]
      omega
    rw [← lengthField, recvPayload_eq fits rfl, recvAll_of_lt reads left] at received
    exact ⟨_, received⟩

/-- **One call, whatever the stream holds**: a length field that is refused, a whole frame, or a
frame that breaks off. -/
theorem recvFromSocket_cases {w : Bytes} {socket : Socket} (reads : ReadsOf w socket) :
    (12 ≤ w.length ∧ vectorMax < lengthField w ∧ Message.recvFromSocket {} socket = none) ∨
    (lengthField w ≤ vectorMax ∧ 12 + lengthField w ≤ w.length ∧
      ∃ (header : Message) (socket' : Socket),
        Message.recvFromSocket {} socket = some (true, header, socket') ∧
        header.type = typeField w ∧ ReadsOf (w.drop (12 + lengthField w)) socket') ∨
    ((w.length < 12 ∨ lengthField w ≤ vectorMax ∧ w.length < 12 + lengthField w) ∧
      ∃ header, Message.recvFromSocket {} socket = some (false, header, [])) := by
  by_cases beyond : 12 ≤ w.length ∧ vectorMax < lengthField w
  · exact Or.inl ⟨beyond.1, beyond.2, recvFromSocket_oversized reads beyond.1 beyond.2⟩
  · by_cases whole : lengthField w ≤ vectorMax ∧ 12 + lengthField w ≤ w.length
    · exact Or.inr (Or.inl ⟨whole.1, whole.2, recvFromSocket_anyFrame reads whole.1 whole.2⟩)
    · have torn : w.length < 12 ∨ lengthField w ≤ vectorMax ∧ w.length < 12 + lengthField w := by
        omega
      exact Or.inr (Or.inr ⟨torn, recvFromSocket_breaks reads torn⟩)

/-! ## The end of the loop -/

/-- A round ends the loop or takes at least a header off the stream. -/
theorem handleReplica_ends (clock : Clock) {rounds i last : Nat} {w : Bytes} {socket : Socket}
    (reads : ReadsOf w socket) (enough : w.length < rounds) :
    Oversized clock i last w ∧ handleReplica clock rounds i last socket = some .terminated ∨
      ¬ Oversized clock i last w ∧ handleReplica clock rounds i last socket = some .closed := by
  induction rounds generalizing i last w socket with
  | zero => exact absurd enough (Nat.not_lt_zero _)
  | succ rounds ih =>
      rw [handleReplica]
      rcases recvFromSocket_cases reads with
        ⟨header, beyond, thrown⟩ | ⟨fits, whole, header, socket, received, type, reads⟩ |
          ⟨torn, header, received⟩
      · rw [thrown]
        exact Or.inl ⟨oversized_of_header header beyond, rfl⟩
      · rw [received, oversized_iff_of_whole fits whole, ← type]
        dsimp only
        by_cases late : clock.TimedOut i (clock.last i header.type last)
        · rw [if_pos late]
          exact Or.inr ⟨fun further => further.1 late, rfl⟩
        · rw [if_neg late, and_iff_right late]
          exact ih reads (by rw [List.length_drop]; omega)
      · rw [received]
        exact Or.inr ⟨not_oversized_of_torn torn, rfl⟩

/-- **When no stream brings the master down.** Whatever a peer sends before it closes the
connection, the loop comes to its end within as many rounds as there are bytes and one; it ends
with the descriptor closed exactly if it does not come to a header with a length field above
`2 ^ 63 - 1`. -/
theorem handleReplica_closes_iff (clock : Clock) {w : Bytes} {socket : Socket}
    (reads : ReadsOf w socket) {rounds : Nat} (enough : w.length < rounds) :
    handleReplica clock rounds 0 clock.start socket = some .closed ↔
      ¬ Oversized clock 0 clock.start w := by
  rcases handleReplica_ends clock reads enough with ⟨oversized, ended⟩ | ⟨fine, ended⟩
  · rw [ended]
    exact iff_of_false (fun same => by cases same) (not_not_intro oversized)
  · exact iff_of_true ended fine

/-- A round every tenth of a second. -/
def tenths : Clock := ⟨0, fun i => i * 10 ^ 8, fun i => i * 10 ^ 8⟩

/-- A heartbeat and five bytes of the next message, cut in the first header. -/
theorem handleReplica_closes_heartbeat :
    handleReplica tenths 20 0 0 [[3, 0, 151], [152, 0, 0, 0, 0, 0, 0, 0, 0, 3, 0], [151, 152, 0]] =
        some .closed ↔
      ¬ Oversized tenths 0 0 (Message.heartbeat.frame ++ [3, 0, 151, 152, 0]) := by
  have reads : ReadsOf (Message.heartbeat.frame ++ [3, 0, 151, 152, 0])
      [[3, 0, 151], [152, 0, 0, 0, 0, 0, 0, 0, 0, 3, 0], [151, 152, 0]] := ⟨by decide, by decide⟩
  exact handleReplica_closes_iff tenths reads (by decide)

/-- A header of twelve bytes with the length `2 ^ 63`. -/
def hugeHeader : Bytes := [4, 0, 151, 152, 128, 0, 0, 0, 0, 0, 0, 0]

/-- One header is enough to end the process. -/
theorem hugeHeader_terminates :
    ReadsOf hugeHeader [hugeHeader] ∧ ∀ clock : Clock,
      handleReplica clock 13 0 clock.start [hugeHeader] = some .terminated := by
  have reads : ReadsOf hugeHeader [hugeHeader] := ⟨by decide, by decide⟩
  refine ⟨reads, fun clock => ?_⟩
  rw [handleReplica, recvFromSocket_oversized reads (by decide) (by decide)]

end Blp.Replica

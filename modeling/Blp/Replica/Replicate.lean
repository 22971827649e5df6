import Blp.Replica.Protocol

/-!
# The receive loop of the replica

`startReplica` takes one message after the other off the socket and does not look at what
`recvFromSocket` returns, so a message that breaks off is worked on as far as it came.

* `startReplica_whole`: of messages that came in whole, each has its operation done, in order.
* `op_torn`: a message that breaks off has an operation done as soon as its command has come in,
  with zeros for what is missing of the key and of the value.
* `nothing_partial_iff`: only complete messages take effect exactly if the connection does not
  break between the command of a message and its end.
-/

namespace Blp.Replica

open CString BigEndian Framing Posix Blp.Core

/-- What the loop does with a message: the call of `db->put` or `db->remove`, if there is one. The
result of `toDataEntity` is not looked at; messages of other types are only printed. -/
def Message.op (header : Message) : Option Command :=
  if header.type = incrSync then
    let entry := (header.toDataEntity DataEntity.empty).2
    if entry.cmd = [] then none
    else if entry.cmd = delWord then some (.del entry.key)
    else if entry.cmd = setWord then some (.set entry.key entry.value)
    else none
  else none

/-- The inner loop of `ReplicationClient::startReplica`, for a number of rounds: the calls of the
store. An exception leaves the connection. -/
def startReplica : Nat → Socket → List Command
  | 0, _ => []
  | rounds + 1, socket =>
      match Message.recvFromSocket {} socket with
      | none => []
      | some (_, header, socket) => header.op.toList ++ startReplica rounds socket

/-! ## Messages that came in whole -/

theorem op_congr {m header : Message} (type : header.type = m.type)
    (payload : header.payload = m.payload) : header.op = m.op := by
  rw [Message.op, Message.op, Message.toDataEntity, Message.toDataEntity, type, payload]

theorem startReplica_nil (rounds : Nat) : startReplica rounds [] = [] := by
  induction rounds with
  | zero => rfl
  | succ rounds ih =>
      rw [startReplica, recvFromSocket_nil]
      exact ih

theorem startReplica_whole {msgs : List Message} (built : ∀ m ∈ msgs, m.Built) {rest : Bytes}
    {socket : Socket} (reads : ReadsOf (msgs.flatMap Message.frame ++ rest) socket)
    (rounds : Nat) :
    ∃ socket', startReplica (msgs.length + rounds) socket =
        msgs.filterMap Message.op ++ startReplica rounds socket' ∧ ReadsOf rest socket' := by
  rw [List.filterMap_eq_flatMap_toList]
  refine loop_whole (fun received => ?_) (fun type payload => ?_) built reads rounds
  · rw [startReplica, received]
  · rw [op_congr type payload]

/-! ## Which messages have an operation -/

/-- A string behind its length. -/
def lengthed (s : Bytes) : Bytes := bytes 4 s.length ++ s

/-- Exactly a string behind its length is read as that string. -/
theorem readString_eq_some_iff {data s rest : Bytes} :
    readString data = some (s, rest) ↔ s.length < 2 ^ 32 ∧ data = lengthed s ++ rest := by
  constructor
  · intro found
    simp only [readString] at found
    split at found
    · cases found
    · split at found
      · cases found
      · cases found
        rename_i enough within
        have four : (data.take 4).length = 4 := by
          rw [List.length_take]
          omega
        have size : ((data.drop 4).take (value (data.take 4))).length = value (data.take 4) := by
          rw [List.length_take]
          omega
        have bound := value_lt (data.take 4)
        rw [four] at bound
        rw [lengthed, size, ← eq_bytes_of_value four rfl]
        exact ⟨bound, by rw [List.append_assoc, List.take_append_drop, List.take_append_drop]⟩
  · intro split
    obtain ⟨short, rfl⟩ := split
    rw [lengthed, List.append_assoc, readString_append short]

theorem readString_iff {s data : Bytes} (short : s.length < 2 ^ 32) :
    (readString data).map Prod.fst = some s ↔ lengthed s <+: data := by
  constructor
  · intro read
    obtain ⟨⟨_, rest⟩, found, rfl⟩ := Option.map_eq_some_iff.mp read
    exact ⟨rest, (readString_eq_some_iff.mp found).2.symm⟩
  · intro front
    obtain ⟨rest, rfl⟩ := front
    rw [readString_eq_some_iff.mpr ⟨short, rfl⟩]
    rfl

/-- The command of what was deserialised is the first string behind the sequence number. -/
theorem cmd_deserialize (data : Bytes) :
    (DataEntity.empty.deserialize data).2.cmd =
      ((readString (data.drop 8)).map Prod.fst).getD [] := by
  rw [DataEntity.deserialize]
  split
  · rename_i short
    rw [List.drop_of_length_le (by omega)]
    rfl
  · split
    · rename_i none
      rw [none]
      rfl
    · rename_i cmd rest found
      rw [found]
      dsimp only
      split
      · rfl
      · split <;> rfl

theorem cmd_deserialize_iff {word : Bytes} (short : word.length < 2 ^ 32) (some_ : word ≠ [])
    (data : Bytes) :
    (DataEntity.empty.deserialize data).2.cmd = word ↔ lengthed word <+: data.drop 8 := by
  rw [cmd_deserialize, ← readString_iff short]
  cases (readString (data.drop 8)).map Prod.fst with
  | none => exact ⟨fun none => absurd none.symm some_, fun none => nomatch none⟩
  | some cmd => exact Option.some_inj.symm

/-- An `INCR_SYNC` message that names `SET` or `DEL`. -/
def Message.Commands (m : Message) : Prop :=
  m.type = incrSync ∧
    (lengthed setWord <+: m.payload.drop 8 ∨ lengthed delWord <+: m.payload.drop 8)

instance : DecidablePred Message.Commands :=
  fun m => inferInstanceAs (Decidable (m.type = incrSync ∧
    (lengthed setWord <+: m.payload.drop 8 ∨ lengthed delWord <+: m.payload.drop 8)))

theorem op_eq_none_iff (m : Message) : m.op = none ↔ ¬ m.Commands := by
  have set := cmd_deserialize_iff (by decide) (by decide : setWord ≠ []) m.payload
  have del := cmd_deserialize_iff (by decide) (by decide : delWord ≠ []) m.payload
  rw [Message.Commands, ← set, ← del, Message.op, Message.toDataEntity]
  generalize (DataEntity.empty.deserialize m.payload).2 = entry
  dsimp only
  by_cases type : m.type = incrSync
  · rw [if_pos type]
    by_cases isDel : entry.cmd = delWord
    · simp [isDel, type, delWord]
    · by_cases isSet : entry.cmd = setWord
      · simp [isSet, type, setWord, delWord]
      · simp [isDel, isSet]
  · simp [type]

/-- What is left of a payload of which `q` bytes came in. -/
def torn (payload : Bytes) (q : Nat) : Bytes :=
  payload.take q ++ List.replicate (payload.length - q) 0

/-- A text that does not end with a zero byte is at the front of the torn payload if all of it came
in. -/
theorem isPrefix_torn_iff {last : UInt8} (some_ : last ≠ 0) {payload : Bytes} {q : Nat}
    (within : q ≤ payload.length) (head : Bytes) (skip : Nat) :
    head ++ [last] <+: (torn payload q).drop skip ↔
      head ++ [last] <+: payload.drop skip ∧ skip + head.length + 1 ≤ q := by
  have cut : (payload.take q).length = q := by
    rw [List.length_take]
    omega
  by_cases all : skip + head.length + 1 ≤ q
  · have same : ((torn payload q).drop skip).take (head ++ [last]).length =
        (payload.drop skip).take (head ++ [last]).length := by
      rw [List.take_drop, List.take_drop, torn, List.length_append, List.length_singleton,
        List.take_append_of_le_length (by omega), List.take_take, Nat.min_eq_left (by omega)]
    rw [List.prefix_iff_eq_take, List.prefix_iff_eq_take, same, and_iff_left all]
  · refine ⟨fun front => absurd ?_ some_, fun whole => absurd whole.2 all⟩
    -- the last byte of the text would stand among the zeros
    obtain ⟨rest, split⟩ := front
    have here : (torn payload q)[skip + head.length]? = some last := by
      rw [← List.getElem?_drop, ← split, List.append_assoc, List.getElem?_append_right le_rfl,
        Nat.sub_self]
      rfl
    rw [torn, List.getElem?_append_right (by omega), List.getElem?_replicate] at here
    split at here
    · exact (Option.some_inj.mp here).symm
    · cases here

/-- **Half a message.** It has an operation done exactly if it is one that has and 27 of its bytes
came in: 12 of the header, 8 of the sequence number, 7 of the command and its length. -/
theorem op_torn {m header : Message} {n : Nat} (proper : n < m.frame.length)
    (held : n < 12 ∧ header.payload = [] ∨
      12 ≤ n ∧ header.type = m.type ∧ header.payload = torn m.payload (n - 12)) :
    header.op = none ↔ ¬ (m.Commands ∧ 27 ≤ n) := by
  rw [op_eq_none_iff, not_iff_not]
  rcases held with ⟨short, blank⟩ | ⟨behind, type, payload⟩
  · rw [Message.Commands, blank]
    refine ⟨fun named => absurd named.2 (by decide), fun late => ?_⟩
    omega
  · rw [length_frame] at proper
    have within : n - 12 ≤ m.payload.length := by omega
    have set := isPrefix_torn_iff (by decide : (84 : UInt8) ≠ 0) within [0, 0, 0, 3, 83, 69] 8
    have del := isPrefix_torn_iff (by decide : (76 : UInt8) ≠ 0) within [0, 0, 0, 3, 68, 69] 8
    have enough : 8 + 6 + 1 ≤ n - 12 ↔ 27 ≤ n := by omega
    change lengthed setWord <+: _ ↔ lengthed setWord <+: _ ∧ 8 + 6 + 1 ≤ n - 12 at set
    change lengthed delWord <+: _ ↔ lengthed delWord <+: _ ∧ 8 + 6 + 1 ≤ n - 12 at del
    rw [Message.Commands, Message.Commands, payload, type, set, del, enough, ← or_and_right,
      and_assoc]

/-! ## A connection that breaks -/

/-- The messages that the first `n` bytes of the stream hold whole. -/
def received (msgs : List Message) (n : Nat) : List Message :=
  msgs.take (wholeOf Message.frame msgs n)

/-- The stream ends behind `n` bytes, inside of a message, and the command of this message has come
in. -/
def BreaksBehindCommand (msgs : List Message) (n : Nat) : Prop :=
  ∃ m ∈ msgs[wholeOf Message.frame msgs n]?,
    m.Commands ∧ ((received msgs n).flatMap Message.frame).length + 27 ≤ n

instance (msgs : List Message) (n : Nat) : Decidable (BreaksBehindCommand msgs n) :=
  inferInstanceAs (Decidable (∃ m ∈ msgs[wholeOf Message.frame msgs n]?,
    m.Commands ∧ ((received msgs n).flatMap Message.frame).length + 27 ≤ n))

/-- **When a broken connection applies nothing partial**: exactly when it does not break between the
command of a message and the end of it. -/
theorem nothing_partial_iff {msgs : List Message} (built : ∀ m ∈ msgs, m.Built) {w : Bytes}
    (cut : w <+: msgs.flatMap Message.frame) {socket : Socket} (reads : ReadsOf w socket)
    {rounds : Nat} (enough : (received msgs w.length).length < rounds) :
    startReplica rounds socket = (received msgs w.length).filterMap Message.op ↔
      ¬ BreaksBehindCommand msgs w.length := by
  obtain ⟨left, split, last, next⟩ := prefix_split cut
  have parts : w = (received msgs w.length).flatMap Message.frame ++ left := split
  have total : w.length =
      ((received msgs w.length).flatMap Message.frame).length + left.length := by
    conv_lhs => rw [parts]
    exact List.length_append
  have whole : ∀ m ∈ received msgs w.length, m.Built :=
    fun m member => built m (List.mem_of_mem_take member)
  obtain ⟨r, rfl⟩ := Nat.exists_eq_add_of_lt enough
  rw [parts] at reads
  obtain ⟨socket', ops, reads⟩ := startReplica_whole whole reads (r + 1)
  rw [Nat.add_assoc, ops, List.append_right_eq_self]
  unfold BreaksBehindCommand
  cases here : msgs[wholeOf Message.frame msgs w.length]? with
  | none =>
      cases last here
      cases reads.eq_nil
      simp [startReplica_nil]
  | some m =>
      obtain ⟨inside, proper⟩ := next m here
      obtain ⟨header, read, held⟩ :=
        recvFromSocket_torn (built m (List.mem_of_getElem? here)) reads inside proper
      have step : startReplica (r + 1) socket' = header.op.toList := by
        rw [startReplica, read]
        dsimp only
        rw [startReplica_nil, List.append_nil]
      have late : ((received msgs w.length).flatMap Message.frame).length + 27 ≤ w.length ↔
          27 ≤ left.length := by omega
      rw [step, Option.toList_eq_nil_iff, op_torn proper held, late, not_iff_not]
      simp

/-- `SET k ab`, as the listener sends it. -/
def setKAb : Message := .fromDataEntity incrSync ⟨0, [107], [97, 98], setWord⟩

/-- A whole `SET`, an acknowledgement, and the message that breaks off. -/
def setTwice : List Message := [setKAb, .ack, setKAb]

theorem built_setTwice : ∀ m ∈ setTwice, m.Built := by
  have built : setKAb.Built := .entity _ _ (by decide)
  exact List.forall_mem_cons.mpr ⟨built, List.forall_mem_cons.mpr
    ⟨.ack, List.forall_mem_singleton.mpr built⟩⟩

/-- What comes in before the connection breaks inside the header of the third message. -/
def brokenHeader : Socket :=
  [(setTwice.flatMap Message.frame).take 20, ((setTwice.flatMap Message.frame).drop 20).take 22,
    ((setTwice.flatMap Message.frame).drop 42).take 11]

theorem nothing_partial_header : startReplica 4 brokenHeader = [.set [107] [97, 98]] := by
  have reads : ReadsOf ((setTwice.flatMap Message.frame).take 53) brokenHeader :=
    ⟨by decide, by decide⟩
  have enough :
      (received setTwice ((setTwice.flatMap Message.frame).take 53).length).length < 4 := by decide
  have nothing :=
    (nothing_partial_iff built_setTwice (List.take_prefix _ _) reads enough).mpr (by decide)
  exact nothing.trans (by decide)

/-- The connection breaks in front of the last byte of the value: the key is put all the same, with
a zero byte in its place. -/
theorem partial_put :
    setKAb.Built ∧ setKAb.frame.take 37 <+: [setKAb].flatMap Message.frame ∧
      ReadsOf (setKAb.frame.take 37) [setKAb.frame.take 37] ∧
      received [setKAb] 37 = [] ∧
      startReplica 1 [setKAb.frame.take 37] = [.set [107] [97, 0]] := by
  refine ⟨.entity _ _ (by decide), ?_, ⟨by decide, by decide⟩, by decide, by decide⟩
  decide

end Blp.Replica

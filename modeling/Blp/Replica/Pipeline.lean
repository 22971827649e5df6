import Blp.Replica.Mirror
import Blp.Replica.Replicate

/-!
# From the log to the store of the replica

A command goes through the frame in the file, the parser, the `DataEntity` of the listener, the
`Message` around it, the pieces that `recv` returns and back.

* `pipeline_transparent`: the replica performs the commands behind the offset, each once and in
  their order.
-/

namespace Blp.Replica

open CString BigEndian Framing Posix Blp.Aof Blp.Core

/-- The callback that `startServer` registers: what it gives to `sendToSocket`, message by message.
`notifyListeners` catches an exception of the parser. -/
def listener (offsetToRead : Nat) (sys : Calls) : List Message :=
  (readCommandsFromOffset sys offsetToRead).2.filterMap fun parts =>
    (listenerCommand offsetToRead parts).map (Message.fromDataEntity incrSync)

/-- The messages `all` are the messages `msgs` and acknowledgements between them. -/
inductive WithAcks : List Message → List Message → Prop
  | nil : WithAcks [] []
  | message (m : Message) {msgs all : List Message} (rest : WithAcks msgs all) :
      WithAcks (m :: msgs) (m :: all)
  | ack {msgs all : List Message} (rest : WithAcks msgs all) :
      WithAcks msgs (Message.ack :: all)

theorem WithAcks.built {msgs all : List Message} (woven : WithAcks msgs all)
    (built : ∀ m ∈ msgs, m.Built) : ∀ m ∈ all, m.Built := by
  induction woven with
  | nil => exact built
  | message m rest ih =>
      intro m' member
      rcases List.mem_cons.mp member with rfl | later
      · exact built _ List.mem_cons_self
      · exact ih (fun m member => built m (List.mem_cons_of_mem _ member)) m' later
  | ack rest ih =>
      intro m' member
      rcases List.mem_cons.mp member with rfl | later
      · exact .ack
      · exact ih built m' later

/-- An acknowledgement has no operation. -/
theorem WithAcks.ops {msgs all : List Message} (woven : WithAcks msgs all) :
    all.filterMap Message.op = msgs.filterMap Message.op := by
  induction woven with
  | nil => rfl
  | message m rest ih => rw [List.filterMap_cons, List.filterMap_cons, ih]
  | ack rest ih => exact ih

/-- The strings of a command are short enough for the lengths of a `DataEntity`. -/
theorem short_entity {cmd : Command} (short : ∀ s ∈ cmd.parts, s.length < 2 ^ 32) (seq : Nat) :
    (entity seq cmd).Short := by
  cases cmd with
  | set key value =>
      refine ⟨?_, ?_, ?_⟩
      · exact short setWord (by simp [Command.parts])
      · exact short key (by simp [Command.parts])
      · exact short value (by simp [Command.parts])
  | del key =>
      refine ⟨?_, ?_, by simp [entity]⟩
      · exact short delWord (by simp [Command.parts])
      · exact short key (by simp [Command.parts])

theorem built_of_short {e : DataEntity} (short : e.Short) (t : MessageType) :
    (Message.fromDataEntity t e).Built := by
  refine .entity t e ?_
  have cmd := short.cmd
  have key := short.key
  have value := short.value
  simp only [DataEntity.serialize, List.length_append, length_bytes, vectorMax]
  omega

/-- A complete message does its command. -/
theorem op_entity {seq : Nat} {cmd : Command} (short : (entity seq cmd).Short) :
    (Message.fromDataEntity incrSync (entity seq cmd)).op = some cmd := by
  have back := deserialize_serialize short DataEntity.empty
  have type : (Message.fromDataEntity incrSync (entity seq cmd)).type = incrSync := rfl
  rw [Message.op, if_pos type, Message.toDataEntity, Message.fromDataEntity, back]
  cases cmd with
  | set key value => rfl
  | del key => rfl

theorem filterMap_op_entity {seq : Nat} {cmds : List Command}
    (short : ∀ cmd ∈ cmds, (entity seq cmd).Short) :
    (cmds.map fun cmd => Message.fromDataEntity incrSync (entity seq cmd)).filterMap Message.op =
      cmds := by
  induction cmds with
  | nil => rfl
  | cons cmd cmds ih =>
      rw [List.map_cons, List.filterMap_cons_some (op_entity (short cmd List.mem_cons_self)),
        ih fun cmd member => short cmd (List.mem_cons_of_mem _ member)]

/-- What the callback sends from the boundary of a frame on. -/
theorem listener_log {cmds : List Command} (size : (logOf (cmds.map Command.parts)).length < offMax)
    {j offset : Nat} (boundary : offset = (logOf ((cmds.take j).map Command.parts)).length)
    {sys : Calls} (serves : sys.Serves (logOf (cmds.map Command.parts))) :
    listener offset sys =
      (cmds.drop j).map fun cmd => .fromDataEntity incrSync (entity offset cmd) := by
  have read : readCommandsFromOffset sys offset = (.ok true, (cmds.drop j).map Command.parts) := by
    rw [boundary, List.map_take, List.map_drop]
    exact readCommandsFromOffset_log ⟨count_parts, size⟩ j serves
  rw [listener, read, List.filterMap_map, ← List.filterMap_eq_map]
  congr 1
  funext cmd
  simp only [Function.comp_apply, listenerCommand_parts, Option.map_some]

/-- **The replication pipeline is transparent.** Whatever pieces `read` and `recv` return and
wherever acknowledgements stand between the messages, the replica performs the commands of the log
behind the offset, each once and in their order. -/
theorem pipeline_transparent {cmds : List Command}
    (short : ∀ cmd ∈ cmds, ∀ s ∈ cmd.parts, s.length < 2 ^ 32)
    (size : (logOf (cmds.map Command.parts)).length < 2 ^ 62) (j : Nat) {offset : Nat}
    (boundary : offset = (logOf ((cmds.take j).map Command.parts)).length) {sys : Calls}
    (serves : sys.Serves (logOf (cmds.map Command.parts))) {all : List Message}
    (woven : WithAcks (listener offset sys) all) {socket : Socket}
    (delivered : ReadsOf (all.flatMap Message.frame) socket) {rounds : Nat}
    (enough : all.length ≤ rounds) :
    startReplica rounds socket = cmds.drop j := by
  have fits : (logOf (cmds.map Command.parts)).length < offMax :=
    Nat.lt_of_lt_of_le size (by decide)
  rw [listener_log fits boundary serves] at woven
  have each : ∀ cmd ∈ cmds.drop j, (entity offset cmd).Short :=
    fun cmd member => short_entity (short cmd (List.mem_of_mem_drop member)) offset
  have built : ∀ m ∈ all, m.Built := by
    refine woven.built fun m member => ?_
    obtain ⟨cmd, there, rfl⟩ := List.mem_map.mp member
    exact built_of_short (each cmd there) incrSync
  have ops : all.filterMap Message.op = cmds.drop j := by
    rw [woven.ops, filterMap_op_entity each]
  obtain ⟨more, rfl⟩ := Nat.exists_eq_add_of_le enough
  rw [← List.append_nil (all.flatMap Message.frame)] at delivered
  obtain ⟨socket', done, rest⟩ := startReplica_whole built delivered more
  cases rest.eq_nil
  rw [done, startReplica_nil, List.append_nil, ops]

/-- `SET a b` and `DEL a`. -/
def setABDelA : List Command := [.set [97] [98], .del [97]]

/-- Their messages from offset 20 on, with acknowledgements around them. -/
def setABDelAAcks : List Message :=
  [.ack, .fromDataEntity incrSync (entity 20 (.set [97] [98])), .ack,
    .fromDataEntity incrSync (entity 20 (.del [97]))]

/-- Their stream as it is received. -/
def setABDelAPieces : Socket :=
  [(setABDelAAcks.flatMap Message.frame).take 5,
    ((setABDelAAcks.flatMap Message.frame).drop 5).take 40,
    (setABDelAAcks.flatMap Message.frame).drop 45]

/-- The log, which has `DEL b` in front of them, is read from behind that one in two pieces, the
stream is received in three. -/
theorem pipeline_transparent_setABDelA : startReplica 4 setABDelAPieces = setABDelA := by
  let cmds := Command.del [98] :: setABDelA
  let log := logOf (cmds.map Command.parts)
  have short : ∀ cmd ∈ cmds, ∀ s ∈ cmd.parts, s.length < 2 ^ 32 := by decide
  have size : log.length < 2 ^ 62 := by decide
  have serves : (posixCalls (some log) [log.take 27, log.drop 27]).Serves log :=
    posixCalls_serves (by decide) ⟨by decide, by decide⟩
  have sent : listener 20 (posixCalls (some log) [log.take 27, log.drop 27]) =
      setABDelA.map fun cmd => .fromDataEntity incrSync (entity 20 cmd) :=
    listener_log (j := 1) (by decide) (by decide) serves
  have woven : WithAcks (setABDelA.map fun cmd => .fromDataEntity incrSync (entity 20 cmd))
      setABDelAAcks := .ack (.message _ (.ack (.message _ .nil)))
  rw [← sent] at woven
  have delivered : ReadsOf (setABDelAAcks.flatMap Message.frame) setABDelAPieces :=
    ⟨by decide, by decide⟩
  exact pipeline_transparent short size 1 (by decide) serves woven delivered (by decide)

end Blp.Replica

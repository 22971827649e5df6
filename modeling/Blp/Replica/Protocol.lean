import Blp.Core.Db
import Blp.Lib.BigEndian
import Blp.Lib.Posix
import Blp.Replica.Listener

/-!
# Messages between master and replica

A `Message` goes out in up to five calls of `send_all`: the type, one byte of the offset, the magic
number, the length of the payload, the payload. `recvFromSocket` reads them back one after the
other into a message whose fields keep what was read when the connection breaks.

* `deserialize_serialize`: a `DataEntity` with strings below `2 ^ 32` bytes comes back as it was.
* `recvFromSocket_whole`: a message comes back with its type and its payload, whatever `recv`
  returns at a time.
* `recvFromSocket_torn`: what is left of a message when the connection breaks inside it.
* `loop_whole`: a receive loop meets the messages in the order in which they were sent.
-/

namespace Blp.Replica

open CString BigEndian Posix Blp.Core

/-! ## Entities -/

/-- `DataEntity::serialize`; a length keeps its low 32 bits. -/
def DataEntity.serialize (e : DataEntity) : Bytes :=
  bytes 8 e.sequence ++ bytes 4 e.cmd.length ++ e.cmd ++ bytes 4 e.key.length ++ e.key ++
    bytes 4 e.value.length ++ e.value

/-- A length and the string behind it, at the head of what is left of the data. -/
def readString (data : Bytes) : Option (Bytes × Bytes) :=
  if data.length < 4 then none
  else
    let len := value (data.take 4)
    let data := data.drop 4
    if data.length < len then none else some (data.take len, data.drop len)

/-- `DataEntity::deserialize` into `e`: the return value and the fields behind it. -/
def DataEntity.deserialize (e : DataEntity) (data : Bytes) : Bool × DataEntity :=
  if data.length < 8 then (false, e)
  else
    let e := { e with sequence := BigEndian.value (data.take 8) }
    match readString (data.drop 8) with
    | none => (false, e)
    | some (cmd, data) =>
        let e := { e with cmd }
        match readString data with
        | none => (false, e)
        | some (key, data) =>
            let e := { e with key }
            match readString data with
            | none => (false, e)
            | some (value, _) => (true, { e with value })

/-- `DataEntity()`. -/
def DataEntity.empty : DataEntity := ⟨0, [], [], []⟩

theorem readString_append {s : Bytes} (short : s.length < 2 ^ 32) (rest : Bytes) :
    readString (bytes 4 s.length ++ (s ++ rest)) = some (s, rest) := by
  have head : (bytes 4 s.length ++ (s ++ rest)).take 4 = bytes 4 s.length :=
    List.take_left' (length_bytes 4 _)
  have tail : (bytes 4 s.length ++ (s ++ rest)).drop 4 = s ++ rest :=
    List.drop_left' (length_bytes 4 _)
  have len : value (bytes 4 s.length) = s.length := value_bytes_of_lt short
  have enough : ¬ (bytes 4 s.length ++ (s ++ rest)).length < 4 := by
    rw [List.length_append, length_bytes]
    omega
  have within : ¬ (s ++ rest).length < s.length := by
    rw [List.length_append]
    omega
  rw [readString, if_neg enough]
  dsimp only
  rw [head, tail, len, if_neg within, List.take_left, List.drop_left]

/-- Strings whose lengths fit in 32 bits. -/
structure DataEntity.Short (e : DataEntity) : Prop where
  cmd : e.cmd.length < 2 ^ 32
  key : e.key.length < 2 ^ 32
  value : e.value.length < 2 ^ 32

/-- What stands behind an entity is not looked at. -/
theorem deserialize_serialize_append {e : DataEntity} (short : e.Short) (into : DataEntity)
    (rest : Bytes) :
    into.deserialize (e.serialize ++ rest) =
      (true, { e with sequence := e.sequence % 2 ^ 64 }) := by
  have parts : e.serialize ++ rest = bytes 8 e.sequence ++ (bytes 4 e.cmd.length ++ (e.cmd ++
      (bytes 4 e.key.length ++ (e.key ++ (bytes 4 e.value.length ++ (e.value ++ rest)))))) := by
    simp only [DataEntity.serialize, List.append_assoc]
  have enough : ¬ (e.serialize ++ rest).length < 8 := by
    rw [parts, List.length_append, length_bytes]
    omega
  have head : (e.serialize ++ rest).take 8 = bytes 8 e.sequence := by
    rw [parts]
    exact List.take_left' (length_bytes 8 _)
  have tail : (e.serialize ++ rest).drop 8 = bytes 4 e.cmd.length ++ (e.cmd ++
      (bytes 4 e.key.length ++ (e.key ++ (bytes 4 e.value.length ++ (e.value ++ rest))))) := by
    rw [parts]
    exact List.drop_left' (length_bytes 8 _)
  rw [DataEntity.deserialize, if_neg enough, head, tail, value_bytes]
  simp only [readString_append short.cmd, readString_append short.key,
    readString_append short.value]
  rfl

/-- **Round trip.** -/
theorem deserialize_serialize {e : DataEntity} (short : e.Short) (into : DataEntity) :
    into.deserialize e.serialize = (true, { e with sequence := e.sequence % 2 ^ 64 }) := by
  rw [← deserialize_serialize_append short into [], List.append_nil]

/-! ## Sockets -/

/-- What successive calls of `recv` have to give. A call returns one piece, or as much of it as it
has room for; behind the last piece, and from an empty one on, it returns 0 or an error. -/
abbrev Socket := List Bytes

/-- `SocketUtils::recv_all`: the return value, the bytes received, and what is left. -/
def recvAll (length : Nat) : Socket → Bool × Bytes × Socket
  | [] => (length == 0, [], [])
  | piece :: socket =>
      if length = 0 then (true, [], piece :: socket)
      else if piece = [] then (false, [], piece :: socket)
      else if length < piece.length then (true, piece.take length, piece.drop length :: socket)
      else
        let rest := recvAll (length - piece.length) socket
        (rest.1, piece ++ rest.2.1, rest.2.2)

/-- However the bytes come in, `recv_all` takes as many as it was asked for. -/
theorem recvAll_of_le {socket : Socket} {w : Bytes} {length : Nat} (reads : ReadsOf w socket)
    (enough : length ≤ w.length) :
    ∃ socket', recvAll length socket = (true, w.take length, socket') ∧
      ReadsOf (w.drop length) socket' := by
  induction socket generalizing w length with
  | nil =>
      cases reads.joined
      cases Nat.le_zero.mp enough
      exact ⟨[], rfl, reads⟩
  | cons piece socket ih =>
      have joined := reads.joined
      rw [List.flatten_cons] at joined
      subst joined
      rw [recvAll]
      by_cases none : length = 0
      · subst none
        exact ⟨_, if_pos rfl, reads⟩
      · rw [if_neg none, if_neg (reads.nonempty piece List.mem_cons_self)]
        by_cases inside : length < piece.length
        · rw [if_pos inside, List.take_append_of_le_length inside.le,
            List.drop_append_of_le_length inside.le]
          refine ⟨_, rfl, rfl, fun c member => ?_⟩
          rcases List.mem_cons.mp member with rfl | later
          · exact fun nil => (List.drop_eq_nil_iff.mp nil).not_gt inside
          · exact reads.nonempty c (List.mem_cons_of_mem _ later)
        · rw [if_neg inside]
          have split : length = piece.length + (length - piece.length) := by omega
          rw [List.length_append] at enough
          have later : length - piece.length ≤ socket.flatten.length := by omega
          obtain ⟨socket', received, left⟩ := ih reads.tail later
          refine ⟨socket', ?_, ?_⟩
          · dsimp only
            rw [received]
            conv_rhs => rw [split]
            rw [List.take_length_add_append]
          · rw [split, List.drop_length_add_append]
            exact left

/-- When the connection breaks, `recv_all` has taken all there was. -/
theorem recvAll_of_lt {socket : Socket} {w : Bytes} {length : Nat} (reads : ReadsOf w socket)
    (short : w.length < length) : recvAll length socket = (false, w, []) := by
  induction socket generalizing w length with
  | nil =>
      cases reads.joined
      rw [recvAll, beq_eq_false_iff_ne.mpr (by omega)]
      rfl
  | cons piece socket ih =>
      have joined := reads.joined
      rw [List.flatten_cons] at joined
      subst joined
      rw [List.length_append] at short
      have later : socket.flatten.length < length - piece.length := by omega
      rw [recvAll, if_neg (by omega), if_neg (reads.nonempty piece List.mem_cons_self),
        if_neg (by omega), ih reads.tail later]

/-! ## Messages -/

/-- `MessageType`; any byte can come in as one. -/
abbrev MessageType := UInt8

def incrSync : MessageType := 2
def heartbeat : MessageType := 3
def ack : MessageType := 4

/-- `Message`, with the values of `Message{}`. -/
structure Message where
  type : MessageType := ack
  magic : Nat := 0x9798
  len : Nat := 0
  offset : Nat := 0
  payload : Bytes := []
  deriving DecidableEq

/-- `Message::fromDataEntity`. -/
def Message.fromDataEntity (t : MessageType) (e : DataEntity) : Message :=
  { type := t, offset := e.sequence, magic := 0x9798, payload := e.serialize,
    len := e.serialize.length }

/-- `Message::toDataEntity`. -/
def Message.toDataEntity (m : Message) (e : DataEntity) : Bool × DataEntity :=
  e.deserialize m.payload

/-- The message of `start_heartbeat`. -/
def Message.heartbeat : Message := { type := Replica.heartbeat }

/-- The message of `send_ack`. -/
def Message.ack : Message := { type := Replica.ack }

/-- What `Message::sendToSocket` gives to `send_all`, call by call. -/
def Message.sends (m : Message) : List Bytes :=
  [[m.type], [UInt8.ofNat m.offset], bytes 2 m.magic, bytes 8 m.len] ++
    if m.payload = [] then [] else [m.payload]

/-- The bytes of a message. -/
def Message.frame (m : Message) : Bytes := m.sends.flatten

/-- `std::vector<uint8_t>::max_size()`. -/
def vectorMax : Nat := 2 ^ 63 - 1

/-- `payload.resize(n)`; `none` is the `length_error`. -/
def resize (payload : Bytes) (n : Nat) : Option Bytes :=
  if n ≤ vectorMax then some (payload.take n ++ List.replicate (n - payload.length) 0) else none

/-- `Message::recvFromSocket` behind the header. -/
def Message.recvPayload (msg : Message) (payloadLen : Nat) (socket : Socket) :
    Option (Bool × Message × Socket) :=
  (resize msg.payload payloadLen).map fun payload =>
    if payloadLen > 0 then
      let (received, got, socket) := recvAll payloadLen socket
      (received, { msg with payload := got ++ payload.drop got.length }, socket)
    else (true, { msg with payload }, socket)

/-- `Message::recvFromSocket` into `msg`: the return value, the message, which keeps what was
received before a failure, and what is left of the socket; `none` when `resize` raises. The byte
and the two bytes of `offset` and `magic` go through `be64toh` as well. -/
def Message.recvFromSocket (msg : Message) (socket : Socket) : Option (Bool × Message × Socket) :=
  match recvAll 1 socket with
  | (false, _, socket) => some (false, msg, socket)
  | (true, typeByte, socket) =>
      let msg := { msg with type := UInt8.ofNat (value typeByte) }
      match recvAll 1 socket with
      | (false, _, socket) => some (false, msg, socket)
      | (true, offsetByte, socket) =>
          let msg := { msg with offset := swap 8 (value offsetByte) }
          match recvAll 2 socket with
          | (false, _, socket) => some (false, msg, socket)
          | (true, magicByte, socket) =>
              let msg := { msg with magic := swap 8 (value magicByte.reverse) % 2 ^ 16 }
              match recvAll 8 socket with
              | (false, _, socket) => some (false, msg, socket)
              | (true, payloadLenNet, socket) => msg.recvPayload (value payloadLenNet) socket

/-- A message that some sender builds. No vector is longer than `max_size()`. -/
inductive Message.Built : Message → Prop
  | entity (t : MessageType) (e : DataEntity) (size : e.serialize.length ≤ vectorMax) :
      Built (fromDataEntity t e)
  | heartbeat : Built heartbeat
  | ack : Built ack

/-- The length in the header is that of the payload. -/
structure Message.Sized (m : Message) : Prop where
  len : m.len = m.payload.length
  size : m.payload.length ≤ vectorMax

theorem Message.Built.sized {m : Message} (built : m.Built) : m.Sized := by
  cases built with
  | entity t e size =>
      refine ⟨?_, size⟩
      rw [fromDataEntity]
  | heartbeat => exact ⟨rfl, Nat.zero_le _⟩
  | ack => exact ⟨rfl, Nat.zero_le _⟩

/-- The twelve bytes in front of the payload. -/
def Message.header (m : Message) : Bytes :=
  m.type :: UInt8.ofNat m.offset :: (bytes 2 m.magic ++ bytes 8 m.len)

theorem length_header (m : Message) : m.header.length = 12 := by
  simp [Message.header]

theorem frame_eq (m : Message) : m.frame = m.header ++ m.payload := by
  rw [Message.frame, Message.sends, Message.header]
  by_cases none : m.payload = []
  · simp [none]
  · simp [none]

theorem length_frame (m : Message) : m.frame.length = 12 + m.payload.length := by
  rw [frame_eq, List.length_append, length_header]

/-- A connection that breaks inside the header leaves no payload. -/
theorem recvFromSocket_short {w : Bytes} {socket : Socket} (reads : ReadsOf w socket)
    (short : w.length < 12) :
    ∃ header, Message.recvFromSocket {} socket = some (false, header, []) ∧
      header.payload = [] := by
  rw [Message.recvFromSocket]
  by_cases typed : 1 ≤ w.length
  · obtain ⟨socket, received, reads⟩ := recvAll_of_le reads typed
    rw [received]
    dsimp only
    by_cases placed : 1 ≤ (w.drop 1).length
    · obtain ⟨socket, received, reads⟩ := recvAll_of_le reads placed
      rw [received]
      dsimp only
      by_cases marked : 2 ≤ ((w.drop 1).drop 1).length
      · obtain ⟨socket, received, reads⟩ := recvAll_of_le reads marked
        rw [received]
        dsimp only
        simp only [List.length_drop] at typed placed marked
        rw [recvAll_of_lt reads (by simp only [List.length_drop]; omega)]
        exact ⟨_, rfl, rfl⟩
      · rw [recvAll_of_lt reads (Nat.lt_of_not_le marked)]
        exact ⟨_, rfl, rfl⟩
    · rw [recvAll_of_lt reads (Nat.lt_of_not_le placed)]
      exact ⟨_, rfl, rfl⟩
  · rw [recvAll_of_lt reads (Nat.lt_of_not_le typed)]
    exact ⟨_, rfl, rfl⟩

/-- What `recvFromSocket` makes of twelve bytes before it comes to the payload. -/
def Message.ofHeader (w : Bytes) : Message :=
  { type := UInt8.ofNat (value (w.take 1))
    offset := swap 8 (value ((w.drop 1).take 1))
    magic := swap 8 (value ((w.drop 2).take 2).reverse) % 2 ^ 16 }

/-- Behind a header that came in whole. -/
theorem recvFromSocket_header {w : Bytes} {socket : Socket} (reads : ReadsOf w socket)
    (enough : 12 ≤ w.length) :
    ∃ socket', Message.recvFromSocket {} socket =
        (Message.ofHeader w).recvPayload (value ((w.drop 4).take 8)) socket' ∧
      ReadsOf (w.drop 12) socket' := by
  obtain ⟨s₁, typed, reads⟩ := recvAll_of_le reads (show 1 ≤ w.length by omega)
  obtain ⟨s₂, placed, reads⟩ := recvAll_of_le reads
    (show 1 ≤ (w.drop 1).length by rw [List.length_drop]; omega)
  rw [List.drop_drop] at reads
  obtain ⟨s₃, marked, reads⟩ := recvAll_of_le reads
    (show 2 ≤ (w.drop 2).length by rw [List.length_drop]; omega)
  rw [List.drop_drop] at reads
  obtain ⟨s₄, sized, reads⟩ := recvAll_of_le reads
    (show 8 ≤ (w.drop 4).length by rw [List.length_drop]; omega)
  rw [List.drop_drop] at reads
  rw [Message.recvFromSocket, typed]
  dsimp only
  rw [placed]
  dsimp only
  rw [marked]
  dsimp only
  rw [sized]
  exact ⟨s₄, rfl, reads⟩

theorem recvPayload_eq {header : Message} {n : Nat} (fits : n ≤ vectorMax)
    (blank : header.payload = []) (socket : Socket) :
    header.recvPayload n socket = some ((recvAll n socket).1,
      { header with payload := (recvAll n socket).2.1 ++
          List.replicate (n - (recvAll n socket).2.1.length) 0 }, (recvAll n socket).2.2) := by
  rw [Message.recvPayload, blank, resize, if_pos fits, Option.map_some, List.take_nil,
    List.nil_append, List.length_nil, Nat.sub_zero]
  by_cases some_ : n > 0
  · rw [if_pos some_]
    dsimp only
    rw [List.drop_replicate]
  · cases Nat.le_zero.mp (Nat.le_of_not_gt some_)
    cases socket <;> rfl

/-- The header that a message's own bytes announce. -/
theorem header_fields {m : Message} (sized : m.Sized) {w rest : Bytes}
    (there : w = m.header ++ rest) :
    UInt8.ofNat (value (w.take 1)) = m.type ∧ value ((w.drop 4).take 8) = m.payload.length ∧
      w.drop 12 = rest := by
  have fits : m.payload.length < 256 ^ 8 :=
    Nat.lt_of_le_of_lt sized.size (by decide)
  subst there
  refine ⟨?_, ?_, List.drop_left' (length_header m)⟩
  · change UInt8.ofNat (value ([] ++ [m.type])) = m.type
    rw [value_concat, value_nil, Nat.mul_zero, Nat.zero_add, UInt8.ofNat_toNat]
  · have split : (m.header ++ rest).drop 4 = bytes 8 m.len ++ rest := by
      have front : m.header ++ rest =
          (m.type :: UInt8.ofNat m.offset :: bytes 2 m.magic) ++ (bytes 8 m.len ++ rest) := by
        simp only [Message.header, List.cons_append, List.append_assoc]
      rw [front]
      exact List.drop_left' (by simp)
    rw [split, List.take_left' (length_bytes 8 _), sized.len]
    exact value_bytes_of_lt fits

/-- The header of a message comes back as `ofHeader` has it, with its payload behind it; nothing of
what stands behind the message is taken. -/
theorem recvFromSocket_frame {m : Message} (sized : m.Sized) {rest : Bytes} {socket : Socket}
    (reads : ReadsOf (m.frame ++ rest) socket) :
    ∃ socket', Message.recvFromSocket {} socket =
        some (true, { Message.ofHeader (m.frame ++ rest) with payload := m.payload }, socket') ∧
      ReadsOf rest socket' := by
  have split : m.frame ++ rest = m.header ++ (m.payload ++ rest) := by
    rw [frame_eq, List.append_assoc]
  obtain ⟨-, len, behind⟩ := header_fields sized split
  obtain ⟨socket, received, reads⟩ := recvFromSocket_header reads
    (by rw [List.length_append, length_frame]; omega)
  rw [behind] at reads
  rw [len, recvPayload_eq sized.size rfl] at received
  obtain ⟨socket', all, reads⟩ := recvAll_of_le reads
    (show m.payload.length ≤ (m.payload ++ rest).length by rw [List.length_append]; omega)
  rw [List.drop_left] at reads
  rw [all, List.take_left] at received
  dsimp only at received
  rw [Nat.sub_self, List.replicate_zero, List.append_nil] at received
  exact ⟨socket', received, reads⟩

/-- **A message comes in** with its type and its payload, and nothing of what stands behind it is
taken. -/
theorem recvFromSocket_whole {m : Message} (sized : m.Sized) {rest : Bytes} {socket : Socket}
    (reads : ReadsOf (m.frame ++ rest) socket) :
    ∃ (header : Message) (socket' : Socket),
      Message.recvFromSocket {} socket = some (true, header, socket') ∧
      header.type = m.type ∧ header.payload = m.payload ∧ ReadsOf rest socket' := by
  obtain ⟨socket', received, reads⟩ := recvFromSocket_frame sized reads
  have split : m.frame ++ rest = m.header ++ (m.payload ++ rest) := by
    rw [frame_eq, List.append_assoc]
  exact ⟨_, socket', received, (header_fields sized split).1, rfl, reads⟩

/-- **A message breaks off.** Inside the header, no payload is left; behind it, the payload has its
full length, with zeros for what did not come. -/
theorem recvFromSocket_torn {m : Message} (built : m.Built) {w : Bytes} {socket : Socket}
    (reads : ReadsOf w socket) (torn : w <+: m.frame) (proper : w.length < m.frame.length) :
    ∃ header : Message, Message.recvFromSocket {} socket = some (false, header, []) ∧
      (w.length < 12 ∧ header.payload = [] ∨
        12 ≤ w.length ∧ header.type = m.type ∧
          header.payload = m.payload.take (w.length - 12) ++
            List.replicate (m.payload.length - (w.length - 12)) 0) := by
  by_cases short : w.length < 12
  · obtain ⟨header, received, blank⟩ := recvFromSocket_short reads short
    exact ⟨header, received, Or.inl ⟨short, blank⟩⟩
  · have enough : 12 ≤ w.length := Nat.le_of_not_lt short
    have split : w = m.header ++ m.payload.take (w.length - 12) := by
      rw [frame_eq] at torn
      have cut := List.prefix_iff_eq_take.mp torn
      rw [List.take_append, List.take_of_length_le (by rw [length_header]; exact enough),
        length_header] at cut
      exact cut
    obtain ⟨type, len, behind⟩ := header_fields built.sized split
    obtain ⟨socket, received, reads⟩ := recvFromSocket_header reads enough
    rw [length_frame] at proper
    have left : (m.payload.take (w.length - 12)).length = w.length - 12 := by
      rw [List.length_take]
      omega
    rw [behind] at reads
    rw [len, recvPayload_eq built.sized.size rfl, recvAll_of_lt reads (by omega)] at received
    dsimp only at received
    rw [left] at received
    exact ⟨_, received, Or.inr ⟨enough, type, rfl⟩⟩

/-- A connection that has ended gives a message as `Message{}` left it. -/
theorem recvFromSocket_nil : Message.recvFromSocket {} [] = some (false, {}, []) := rfl

/-- **Messages come in one after the other**: a loop that does `f` with each message it receives,
where `f` looks at nothing but the type and the payload, does it with the messages that were sent,
in their order. -/
theorem loop_whole {β : Type} {loop : Nat → Socket → List β} {f : Message → List β}
    (round : ∀ {rounds : Nat} {socket socket' : Socket} {header : Message},
      Message.recvFromSocket {} socket = some (true, header, socket') →
        loop (rounds + 1) socket = f header ++ loop rounds socket')
    (looks : ∀ {m header : Message}, header.type = m.type → header.payload = m.payload →
      f header = f m)
    {msgs : List Message} (built : ∀ m ∈ msgs, m.Built) {rest : Bytes} {socket : Socket}
    (reads : ReadsOf (msgs.flatMap Message.frame ++ rest) socket) (rounds : Nat) :
    ∃ socket', loop (msgs.length + rounds) socket = msgs.flatMap f ++ loop rounds socket' ∧
      ReadsOf rest socket' := by
  induction msgs generalizing socket with
  | nil => exact ⟨socket, by simp, reads⟩
  | cons m msgs ih =>
      rw [List.flatMap_cons, List.append_assoc] at reads
      obtain ⟨header, later, received, type, payload, reads⟩ :=
        recvFromSocket_whole (built m List.mem_cons_self).sized reads
      obtain ⟨socket', others, reads⟩ :=
        ih (fun m member => built m (List.mem_cons_of_mem _ member)) reads
      refine ⟨socket', ?_, reads⟩
      rw [List.length_cons, Nat.add_right_comm, round received, looks type payload, others,
        List.flatMap_cons, List.append_assoc]

end Blp.Replica

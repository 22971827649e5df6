import Blp.Lib.Runs
import Blp.Lib.Slots
import Blp.Replica.Protocol

/-!
# Several senders on one connection

Each listener run and `send_ack` call `sendToSocket` on their own threads, and nothing keeps the
pieces that one call gives to `send_all` together.

* `stream_decodes`: as long as no call sends a piece while another is in the middle of its message,
  the stream decodes into the messages that were sent.
* `pieces_mixed`: two calls whose pieces alternate, and nothing can be decoded.
-/

namespace Blp.Replica

open CString Posix Runs Slots Blp.Core

/-- A call of `sendToSocket`: its message and what it has not yet given to `send_all`. -/
structure Call where
  message : Message
  left : List Bytes
  deriving DecidableEq

/-- The calls on a connection, in the order in which they began, and the bytes that went out. -/
structure Connection where
  calls : List Call
  wire : Bytes
  deriving DecidableEq

def Connection.start : Connection := ⟨[], []⟩

inductive SendAct
  | sendToSocket (m : Message)
  /-- Call `i` goes through its next `send_all`. -/
  | sendAll (i : Nat)
  deriving DecidableEq

def Call.next (c : Call) : Option (Bytes × Call) :=
  match c.left with
  | [] => none
  | piece :: left => some (piece, { c with left })

def sendStep (s : Connection) : SendAct → Option Connection
  | .sendToSocket m => some { s with calls := s.calls ++ [⟨m, m.sends⟩] }
  | .sendAll i =>
      (s.calls[i]?.bind Call.next).map fun r => ⟨s.calls.set i r.2, s.wire ++ r.1⟩

/-- Some of the message has gone out, and not all. -/
def Call.Amid (c : Call) : Prop := c.left ≠ [] ∧ c.left ≠ c.message.sends

def Call.finished (c : Call) : Bool := c.left.isEmpty

instance : DecidablePred Call.Amid :=
  fun c => inferInstanceAs (Decidable (c.left ≠ [] ∧ c.left ≠ c.message.sends))

/-- No call but the one that sends is in the middle of its message. -/
def Undisturbed (s : Connection) : SendAct → Prop
  | .sendToSocket _ => True
  | .sendAll i => ∀ j < s.calls.length, ∀ c ∈ s.calls[j]?, c.Amid → j = i

instance (s : Connection) : DecidablePred (Undisturbed s)
  | .sendToSocket _ => inferInstanceAs (Decidable True)
  | .sendAll i =>
      inferInstanceAs (Decidable (∀ j < s.calls.length, ∀ c ∈ s.calls[j]?, c.Amid → j = i))

/-- What a reader of the stream looks at in a message. -/
def Message.content (m : Message) : MessageType × Bytes := (m.type, m.payload)

/-- Repeated `recvFromSocket`, for at most so many rounds, as long as it returns true. -/
def recvMessages : Nat → Socket → List (MessageType × Bytes)
  | 0, _ => []
  | rounds + 1, socket =>
      match Message.recvFromSocket {} socket with
      | some (true, header, socket) => header.content :: recvMessages rounds socket
      | _ => []

/-! ## Decoding -/

/-- Messages and the front of a further one. -/
theorem recvMessages_whole {msgs : List Message} (built : ∀ m ∈ msgs, m.Built) {part : Bytes}
    (open_ : part = [] ∨ ∃ m : Message, m.Built ∧ part <+: m.frame ∧ part.length < m.frame.length)
    {socket : Socket} (reads : ReadsOf (msgs.flatMap Message.frame ++ part) socket) {rounds : Nat}
    (enough : msgs.length < rounds) :
    recvMessages rounds socket = msgs.map Message.content := by
  obtain ⟨r, rfl⟩ := Nat.exists_eq_add_of_lt enough
  have messages : ∃ socket', recvMessages (msgs.length + (r + 1)) socket =
      msgs.flatMap (fun m => [m.content]) ++ recvMessages (r + 1) socket' ∧
        ReadsOf part socket' := by
    refine loop_whole (fun received => ?_) (fun type payload => ?_) built reads (r + 1)
    · rw [recvMessages, received, List.singleton_append]
    · rw [Message.content, Message.content, type, payload]
  obtain ⟨socket', messages, reads⟩ := messages
  have ended : recvMessages (r + 1) socket' = [] := by
    rcases open_ with rfl | ⟨m, built, inside, proper⟩
    · cases reads.eq_nil
      rfl
    · obtain ⟨header, torn, -⟩ := recvFromSocket_torn built reads inside proper
      rw [recvMessages, torn]
  rw [Nat.add_assoc, messages, ended, List.append_nil, ← List.map_eq_flatMap]

/-! ## The stream -/

/-- The call is the one in the middle of its message, and `part` of it has gone out. -/
structure Connection.Open (s : Connection) (i : Nat) (c : Call) (part : Bytes) : Prop where
  here : s.calls[i]? = some c
  amid : c.Amid
  split : part ++ c.left.flatten = c.message.frame
  only : ∀ j c', s.calls[j]? = some c' → c'.Amid → j = i

/-- The stream is the messages of `done` and the front `part` of a further one. -/
structure Framed (s : Connection) (done : List Message) (part : Bytes) : Prop where
  wire : s.wire = done.flatMap Message.frame ++ part
  done : done.Perm ((s.calls.filter Call.finished).map Call.message)
  built : ∀ c ∈ s.calls, c.message.Built
  pieces : ∀ c ∈ s.calls, c.left <:+ c.message.sends
  amid : part = [] ∧ (∀ c ∈ s.calls, ¬ c.Amid) ∨ ∃ i c, s.Open i c part

theorem Framed.start : Framed Connection.start [] [] where
  wire := rfl
  done := List.Perm.refl _
  built := fun _ member => nomatch member
  pieces := fun _ member => nomatch member
  amid := Or.inl ⟨rfl, fun _ member => nomatch member⟩

theorem piece_ne_nil {m : Message} {piece : Bytes} (member : piece ∈ m.sends) : piece ≠ [] := by
  intro empty
  subst empty
  rcases List.mem_append.mp member with head | payload
  · have lengths : ∀ p ∈ [[m.type], [UInt8.ofNat m.offset], BigEndian.bytes 2 m.magic,
        BigEndian.bytes 8 m.len], 0 < p.length := by simp
    exact absurd (lengths [] head) (by decide)
  · split at payload
    · cases payload
    · rename_i some_
      exact some_ (List.mem_singleton.mp payload).symm

theorem sends_ne_nil (m : Message) : m.sends ≠ [] := by
  simp [Message.sends]

/-- A call that goes on is the only one in the middle, and has so far sent `part`. -/
theorem Framed.front {s : Connection} {done : List Message} {part : Bytes} (h : Framed s done part)
    {i : Nat} {c : Call} (here : s.calls[i]? = some c) (more : c.left ≠ [])
    (alone : ∀ j c', s.calls[j]? = some c' → c'.Amid → j = i) :
    part ++ c.left.flatten = c.message.frame := by
  rcases h.amid with ⟨none, idle⟩ | ⟨j, c', open_⟩
  · have fresh : c.left = c.message.sends := by
      by_contra begun
      exact idle c (List.mem_of_getElem? here) ⟨more, begun⟩
    rw [none, List.nil_append, fresh]
    rfl
  · cases alone j c' open_.here open_.amid
    cases here.symm.trans open_.here
    exact open_.split

theorem Framed.call {s : Connection} {done : List Message} {part : Bytes} (h : Framed s done part)
    {m : Message} (built : m.Built) :
    Framed { s with calls := s.calls ++ [⟨m, m.sends⟩] } done part where
  wire := h.wire
  done := by
    have fresh : Call.finished ⟨m, m.sends⟩ = false := by simp [Call.finished, sends_ne_nil]
    rw [List.filter_append, List.filter_cons_of_neg (by simp [fresh]), List.filter_nil,
      List.append_nil]
    exact h.done
  built := by
    intro c member
    rcases List.mem_append.mp member with old | new
    · exact h.built c old
    · cases List.mem_singleton.mp new
      exact built
  pieces := by
    intro c member
    rcases List.mem_append.mp member with old | new
    · exact h.pieces c old
    · cases List.mem_singleton.mp new
      exact List.suffix_refl _
  amid := by
    have fresh : ¬ Call.Amid ⟨m, m.sends⟩ := fun amid => amid.2 rfl
    rcases h.amid with ⟨none, idle⟩ | ⟨i, c, open_⟩
    · refine Or.inl ⟨none, fun c member => ?_⟩
      rcases List.mem_append.mp member with old | new
      · exact idle c old
      · cases List.mem_singleton.mp new
        exact fresh
    · have inside := (List.getElem?_eq_some_iff.mp open_.here).1
      refine Or.inr ⟨i, c, ?_, open_.amid, open_.split, fun j c' there amid => ?_⟩
      · rw [List.getElem?_append_left inside]
        exact open_.here
      · by_cases old : j < s.calls.length
        · rw [List.getElem?_append_left old] at there
          exact open_.only j c' there amid
        · rw [List.getElem?_append_right (Nat.le_of_not_lt old)] at there
          cases List.mem_singleton.mp (List.mem_of_getElem? there)
          exact absurd amid fresh

theorem Framed.send {s : Connection} {done : List Message} {part : Bytes} (h : Framed s done part)
    {i : Nat} {c : Call} {piece : Bytes} {left : List Bytes} (here : s.calls[i]? = some c)
    (more : c.left = piece :: left)
    (alone : ∀ j c', s.calls[j]? = some c' → c'.Amid → j = i) :
    ∃ done part, Framed ⟨s.calls.set i { c with left }, s.wire ++ piece⟩ done part := by
  have member := List.mem_of_getElem? here
  have unfinished : c.finished = false := by rw [Call.finished, more]; rfl
  have pieces : piece :: left <:+ c.message.sends := more ▸ h.pieces c member
  have front := h.front here (by rw [more]; exact List.cons_ne_nil _ _) alone
  rw [more, List.flatten_cons, ← List.append_assoc] at front
  have moved := filter_set_perm here unfinished { c with left }
  have others : ∀ j c', j ≠ i → (s.calls.set i { c with left })[j]? = some c' → ¬ c'.Amid := by
    intro j c' other there amid
    rw [List.getElem?_set_ne other.symm] at there
    exact other (alone j c' there amid)
  have built : ∀ c' ∈ s.calls.set i { c with left }, c'.message.Built :=
    forall_mem_set h.built (h.built c member)
  have suffixes : ∀ c' ∈ s.calls.set i { c with left }, c'.left <:+ c'.message.sends :=
    forall_mem_set h.pieces ((List.suffix_cons piece left).trans pieces)
  have there := getElem?_set_slot here { c with left }
  replace moved := moved.map Call.message
  rw [List.map_append] at moved
  by_cases last : left = []
  · subst last
    rw [List.flatten_nil, List.append_nil] at front
    refine ⟨done ++ [c.message], [], ?_, ?_, built, suffixes, Or.inl ⟨rfl, fun c' member => ?_⟩⟩
    · dsimp only
      rw [h.wire, List.flatMap_append, List.flatMap_singleton, ← front, List.append_nil,
        List.append_assoc]
    · exact (h.done.append_right [c.message]).trans moved.symm
    · obtain ⟨j, found⟩ := List.mem_iff_getElem?.mp member
      by_cases same : j = i
      · subst same
        cases there.symm.trans found
        exact fun amid => amid.1 rfl
      · exact others j c' same found
  · have goes : Call.finished { c with left } = false := by simp [Call.finished, last]
    have amid : Call.Amid { c with left } := by
      refine ⟨last, fun all => ?_⟩
      replace all : left = c.message.sends := all
      have shorter := pieces.length_le
      rw [← all, List.length_cons] at shorter
      omega
    refine ⟨done, part ++ piece, ?_, ?_, built, suffixes,
      Or.inr ⟨i, { c with left }, there, amid, front, fun j c' found amid => ?_⟩⟩
    · dsimp only
      rw [h.wire, List.append_assoc]
    · rw [List.filter_cons_of_neg (by simp [goes]), List.filter_nil, List.map_nil,
        List.append_nil] at moved
      exact h.done.trans moved.symm
    · by_contra other
      exact others j c' other found amid

/-- The stream stays made of whole messages and the front of one. -/
theorem Framed.step {s t : Connection} {done : List Message} {part : Bytes}
    (h : Framed s done part) {a : SendAct} (undisturbed : Undisturbed s a)
    (built : ∀ m, a = .sendToSocket m → m.Built) (taken : sendStep s a = some t) :
    ∃ done part, Framed t done part := by
  cases a with
  | sendToSocket m =>
      cases taken
      exact ⟨done, part, h.call (built m rfl)⟩
  | sendAll i =>
      obtain ⟨⟨piece, next⟩, found, rfl⟩ := Option.map_eq_some_iff.mp taken
      obtain ⟨c, here, going⟩ := Option.bind_eq_some_iff.mp found
      cases more : c.left with
      | nil =>
          rw [Call.next, more] at going
          cases going
      | cons piece left =>
          rw [Call.next, more] at going
          cases going
          refine h.send here more fun j c' there amid => ?_
          exact undisturbed j (List.getElem?_eq_some_iff.mp there).1 c' there amid

/-- What has gone out of the open message is a proper front of it. -/
theorem Framed.open_ {s : Connection} {done : List Message} {part : Bytes}
    (h : Framed s done part) :
    part = [] ∨ ∃ m : Message, m.Built ∧ part <+: m.frame ∧ part.length < m.frame.length := by
  refine h.amid.imp And.left fun opened => ?_
  obtain ⟨i, c, open_⟩ := opened
  have member := List.mem_of_getElem? open_.here
  refine ⟨c.message, h.built c member, ⟨_, open_.split⟩, ?_⟩
  have rest : 0 < c.left.flatten.length := by
    obtain ⟨piece, left, more⟩ := List.exists_cons_of_ne_nil open_.amid.1
    have piece_ : piece ∈ c.message.sends := (h.pieces c member).subset (by simp [more])
    have some_ := List.length_pos_iff.mpr (piece_ne_nil piece_)
    rw [more, List.flatten_cons, List.length_append]
    omega
  rw [← open_.split, List.length_append]
  omega

/-- **Two senders do not corrupt the stream** as long as none sends a piece while another is in the
middle of its message: at any time the stream decodes into the messages of the calls that have
finished, in some order. -/
theorem stream_decodes {acts : List SendAct} (built : ∀ m, .sendToSocket m ∈ acts → m.Built)
    {t : Connection} (reached : run sendStep Connection.start acts = some t)
    (undisturbed : Along sendStep Undisturbed Connection.start acts) {socket : Socket}
    (reads : ReadsOf t.wire socket) {rounds : Nat} (enough : t.calls.length < rounds) :
    (recvMessages rounds socket).Perm
      ((t.calls.filter Call.finished).map fun c => c.message.content) := by
  have good : ∀ a ∈ acts, ∀ m, a = .sendToSocket m → m.Built := by
    intro a member m same
    subst same
    exact built m member
  have framed : ∃ done part, Framed t done part := by
    refine along_induction (I := fun s => ∃ done part, Framed s done part)
      (fun s a t both framed taken => ?_) reached
      (undisturbed.and (along_of_forall_mem good)) ⟨[], [], Framed.start⟩
    obtain ⟨done, part, h⟩ := framed
    exact h.step both.1 both.2 taken
  obtain ⟨done, part, h⟩ := framed
  have whole : ∀ m ∈ done, m.Built := by
    intro m member
    obtain ⟨c, finished, rfl⟩ := List.mem_map.mp (h.done.subset member)
    exact h.built c (List.mem_of_mem_filter finished)
  have count : done.length < rounds := by
    have sub := List.length_filter_le Call.finished t.calls
    rw [h.done.length_eq, List.length_map]
    omega
  rw [h.wire] at reads
  have contents := h.done.map Message.content
  rw [List.map_map] at contents
  rw [recvMessages_whole whole h.open_ reads count]
  exact contents

/-- `SET a b`, as a listener sends it. -/
def setAMessage : Message := .fromDataEntity incrSync ⟨0, [97], [98], setWord⟩

/-- A listener run and `send_ack`, one behind the other. -/
def sentInTurn : List SendAct :=
  [.sendToSocket setAMessage, .sendAll 0, .sendToSocket .ack, .sendAll 0, .sendAll 0, .sendAll 0,
    .sendAll 0, .sendAll 1, .sendAll 1, .sendAll 1, .sendAll 1]

theorem built_sentInTurn : ∀ m, .sendToSocket m ∈ sentInTurn → m.Built := by
  intro m member
  simp only [sentInTurn, List.mem_cons, SendAct.sendToSocket.injEq, reduceCtorEq, List.not_mem_nil,
    or_false, false_or] at member
  rcases member with rfl | rfl
  · exact .entity _ _ (by decide)
  · exact .ack

/-- Both messages come in. -/
theorem stream_decodes_sentInTurn :
    ∃ t, run sendStep Connection.start sentInTurn = some t ∧
      (recvMessages 3 [t.wire]).Perm [setAMessage.content, Message.ack.content] := by
  have reached : run sendStep Connection.start sentInTurn =
      some ((run sendStep Connection.start sentInTurn).get (by decide)) := (Option.some_get _).symm
  refine ⟨_, reached, ?_⟩
  exact stream_decodes built_sentInTurn reached (by decide) ⟨by decide, by decide⟩ (by decide)

/-- A listener run and `send_ack`, taking turns. -/
def sentByTurns : List SendAct :=
  [.sendToSocket .ack, .sendToSocket setAMessage, .sendAll 0, .sendAll 1, .sendAll 0, .sendAll 1,
    .sendAll 0, .sendAll 1, .sendAll 0, .sendAll 1, .sendAll 1]

/-- The bytes of the two magic numbers come where a length is expected, and `resize` raises. -/
theorem pieces_mixed :
    Message.ack.Built ∧ setAMessage.Built ∧
      ∃ t, run sendStep Connection.start sentByTurns = some t ∧ (∀ c ∈ t.calls, c.finished) ∧
        ReadsOf t.wire [t.wire] ∧ ∀ rounds, recvMessages rounds [t.wire] = [] := by
  refine ⟨.ack, .entity _ _ (by decide), ?_⟩
  refine ⟨(run sendStep Connection.start sentByTurns).get (by decide), (Option.some_get _).symm,
    by decide, ⟨by decide, by decide⟩, fun rounds => ?_⟩
  cases rounds with
  | zero => rfl
  | succ rounds => rfl

end Blp.Replica

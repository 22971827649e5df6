import Blp.Replica.Replicate

/-!
# What the wire gives back

An entity is written and read with the same widths on both sides. A message is not: its offset goes
out as one byte, and `recvFromSocket` reads this byte and the magic number through the conversion
for eight.

* `deserialize_exact`: `deserialize` returns true on exactly the buffers that begin with a
  serialised entity, finds this entity, and reads nothing outside of the buffer.
* `not_comesBack`: no message with the magic number comes back as it was sent; `received_eq` says
  what does.
* `rejected_applies_nothing_iff`: a payload that `deserialize` rejects is worked on all the same if
  its command came in.
-/

namespace Blp.Replica

open CString BigEndian Posix Blp.Core

/-! ## Entities -/

/-- An entity whose sequence number and lengths fit in their fields. -/
structure DataEntity.Fits (e : DataEntity) : Prop extends e.Short where
  sequence : e.sequence < 2 ^ 64

theorem serialize_eq (e : DataEntity) :
    e.serialize =
      bytes 8 e.sequence ++ (lengthed e.cmd ++ (lengthed e.key ++ lengthed e.value)) := by
  simp only [DataEntity.serialize, lengthed, List.append_assoc]

/-- What `deserialize` has read when it returns true. -/
theorem split_of_deserialize {into e : DataEntity} {data : Bytes}
    (read : into.deserialize data = (true, e)) :
    e.Fits ∧ ∃ rest, data = bytes 8 e.sequence ++ (lengthed e.cmd ++ (lengthed e.key ++
      (lengthed e.value ++ rest))) := by
  rw [DataEntity.deserialize] at read
  split at read
  · cases read
  · rename_i enough
    have eight : (data.take 8).length = 8 := by
      rw [List.length_take]
      omega
    dsimp only at read
    split at read
    · cases read
    · rename_i cmd behindCmd cmdRead
      split at read
      · cases read
      · rename_i key behindKey keyRead
        split at read
        · cases read
        · rename_i value rest valueRead
          cases read
          obtain ⟨cmdShort, cmdSplit⟩ := readString_eq_some_iff.mp cmdRead
          obtain ⟨keyShort, keySplit⟩ := readString_eq_some_iff.mp keyRead
          obtain ⟨valueShort, valueSplit⟩ := readString_eq_some_iff.mp valueRead
          have bound := value_lt (data.take 8)
          rw [eight] at bound
          refine ⟨⟨⟨cmdShort, keyShort, valueShort⟩, bound⟩, rest, ?_⟩
          dsimp only
          rw [← eq_bytes_of_value eight rfl, ← valueSplit, ← keySplit, ← cmdSplit,
            List.take_append_drop]

theorem deserialize_eq_true_iff {into e : DataEntity} {data : Bytes} :
    into.deserialize data = (true, e) ↔ e.Fits ∧ e.serialize <+: data := by
  constructor
  · intro read
    obtain ⟨fits, rest, split⟩ := split_of_deserialize read
    refine ⟨fits, rest, ?_⟩
    rw [split, serialize_eq]
    simp only [List.append_assoc]
  · intro front
    obtain ⟨fits, rest, rfl⟩ := front
    rw [deserialize_serialize_append fits.toShort, Nat.mod_eq_of_lt fits.sequence]

/-! ## The reads of `deserialize` -/

/-- A sum of two `size_t`. -/
def sizeSum (a b : Nat) : Nat := (a + b) % 2 ^ 64

/-- `n` bytes read from `data + off` on; `none` when they are not all inside the buffer. -/
def readAt (data : Bytes) (off n : Nat) : Option Bytes :=
  if off + n ≤ data.length then some ((data.drop off).take n) else none

/-- A length and the string behind it, read at `off`: the string and where the next length stands.
The inner `none` is the `return false`. -/
def stringAt (data : Bytes) (off : Nat) : Option (Option (Nat × Bytes)) :=
  if sizeSum off 4 > data.length then some none
  else
    (readAt data off 4).bind fun lenNet =>
      let len := value lenNet
      let off := sizeSum off 4
      if sizeSum off len > data.length then some none
      else (readAt data off len).map fun s => some (sizeSum off len, s)

/-- `DataEntity::deserialize` with its running offset; `none` as soon as it reads outside of the
buffer. -/
def DataEntity.deserializeAt (e : DataEntity) (data : Bytes) : Option (Bool × DataEntity) :=
  if data.length < 8 then some (false, e)
  else
    (readAt data 0 8).bind fun seqNet =>
      let e := { e with sequence := BigEndian.value seqNet }
      (stringAt data 8).bind fun
        | none => some (false, e)
        | some (off, cmd) =>
            let e := { e with cmd }
            (stringAt data off).bind fun
              | none => some (false, e)
              | some (off, key) =>
                  let e := { e with key }
                  (stringAt data off).map fun
                    | none => (false, e)
                    | some (_, value) => (true, { e with value })

theorem readAt_eq {data : Bytes} {off n : Nat} (inside : off + n ≤ data.length) :
    readAt data off n = some ((data.drop off).take n) := if_pos inside

theorem sizeSum_eq {a b : Nat} (small : a ≤ vectorMax) (four : b < 2 ^ 32 + 4) :
    sizeSum a b = a + b := by
  have bound : vectorMax < 2 ^ 63 := by decide
  exact Nat.mod_eq_of_lt (by omega)

/-- Both forms of the reader stop at the same strings. -/
theorem stringAt_of_none {data : Bytes} {off : Nat} (size : data.length ≤ vectorMax)
    (inside : off ≤ data.length) (none : readString (data.drop off) = none) :
    stringAt data off = some Option.none := by
  have start : sizeSum off 4 = off + 4 := sizeSum_eq (inside.trans size) (by decide)
  rw [stringAt, start]
  split
  · rfl
  · rename_i enough
    have four : off + 4 ≤ data.length := Nat.le_of_not_gt enough
    have bound := value_lt ((data.drop off).take 4)
    rw [List.length_take, List.length_drop, Nat.min_eq_left (by omega)] at bound
    have next : sizeSum (off + 4) (value ((data.drop off).take 4)) =
        off + 4 + value ((data.drop off).take 4) := sizeSum_eq (four.trans size) (by omega)
    rw [readAt_eq four, Option.bind_some]
    dsimp only
    rw [next]
    apply if_pos
    rw [readString, if_neg (by rw [List.length_drop]; omega)] at none
    dsimp only at none
    split at none
    · rename_i short
      rw [List.drop_drop, List.length_drop] at short
      omega
    · cases none

theorem stringAt_of_some {data s rest : Bytes} {off : Nat} (size : data.length ≤ vectorMax)
    (inside : off ≤ data.length) (found : readString (data.drop off) = some (s, rest)) :
    ∃ next ≤ data.length, stringAt data off = some (some (next, s)) ∧ data.drop next = rest := by
  obtain ⟨short, split⟩ := readString_eq_some_iff.mp found
  have width : (lengthed s).length = 4 + s.length := by
    rw [lengthed, List.length_append, length_bytes]
  have total : data.length = off + (4 + s.length + rest.length) := by
    have := congrArg List.length split
    rw [List.length_drop, List.length_append, width] at this
    omega
  have head : (data.drop off).take 4 = bytes 4 s.length := by
    rw [split, lengthed, List.append_assoc]
    exact List.take_left' (length_bytes 4 _)
  have behind : data.drop (off + 4) = s ++ rest := by
    rw [← List.drop_drop, split, lengthed, List.append_assoc]
    exact List.drop_left' (length_bytes 4 _)
  have start : sizeSum off 4 = off + 4 := sizeSum_eq (inside.trans size) (by decide)
  have next : sizeSum (off + 4) s.length = off + 4 + s.length :=
    sizeSum_eq (by omega) (by omega)
  refine ⟨off + 4 + s.length, by omega, ?_, ?_⟩
  · rw [stringAt, start, if_neg (by omega), readAt_eq (by omega), Option.bind_some, head]
    dsimp only
    rw [value_bytes_of_lt short, next, if_neg (by omega), readAt_eq (by omega), behind,
      List.take_left, Option.map_some]
  · rw [← List.drop_drop, behind, List.drop_left]

/-- With a buffer of a size that a vector can have, no read leaves it. -/
theorem deserializeAt_eq (into : DataEntity) {data : Bytes} (size : data.length ≤ vectorMax) :
    into.deserializeAt data = some (into.deserialize data) := by
  rw [DataEntity.deserializeAt, DataEntity.deserialize]
  split
  · rfl
  · rename_i enough
    rw [readAt_eq (by omega), Option.bind_some, List.drop_zero]
    dsimp only
    cases cmdRead : readString (data.drop 8) with
    | none => rw [stringAt_of_none size (by omega) cmdRead, Option.bind_some]
    | some found =>
        obtain ⟨off, inside, read, behind⟩ := stringAt_of_some size (by omega) cmdRead
        rw [read, Option.bind_some]
        dsimp only
        cases keyRead : readString found.2 with
        | none => rw [stringAt_of_none size inside (behind ▸ keyRead), Option.bind_some]
        | some found =>
            obtain ⟨off, inside, read, behind⟩ :=
              stringAt_of_some size inside (behind ▸ keyRead)
            rw [read, Option.bind_some]
            dsimp only
            cases valueRead : readString found.2 with
            | none => rw [stringAt_of_none size inside (behind ▸ valueRead), Option.map_some]
            | some found =>
                obtain ⟨off, -, read, -⟩ := stringAt_of_some size inside (behind ▸ valueRead)
                rw [read, Option.map_some]

/-- **Decoding is exact.** Whatever the object held, `deserialize` returns true exactly if the
buffer begins with a serialised entity, which there is then only one of and which the object holds
afterwards; no read leaves the buffer. -/
theorem deserialize_exact (into : DataEntity) (data : Bytes) :
    ((into.deserialize data).1 = true ↔ ∃ e : DataEntity, e.Fits ∧ e.serialize <+: data) ∧
      (∀ e : DataEntity, e.Fits ∧ e.serialize <+: data ↔ into.deserialize data = (true, e)) ∧
      (∀ e e' : DataEntity, e.Fits ∧ e.serialize <+: data → e'.Fits ∧ e'.serialize <+: data →
        e = e') ∧
      (∀ e : DataEntity, e.Fits → into.deserialize e.serialize = (true, e)) ∧
      (data.length ≤ vectorMax → into.deserializeAt data = some (into.deserialize data)) := by
  have holds : ∀ e : DataEntity,
      e.Fits ∧ e.serialize <+: data ↔ into.deserialize data = (true, e) :=
    fun e => deserialize_eq_true_iff.symm
  refine ⟨⟨fun ok => ?_, fun found => ?_⟩, holds, fun e e' front front' => ?_, fun e fits => ?_,
    deserializeAt_eq into⟩
  · exact ⟨(into.deserialize data).2, (holds _).mpr (Prod.ext ok rfl)⟩
  · obtain ⟨e, front⟩ := found
    rw [(holds e).mp front]
  · have same := ((holds e).mp front).symm.trans ((holds e').mp front')
    exact congrArg Prod.snd same
  · exact deserialize_eq_true_iff.mpr ⟨fits, List.prefix_refl _⟩

/-- `SET k ab` at the offset 7. -/
def entityKAb : DataEntity := ⟨7, [107], [97, 98], setWord⟩

/-- With two bytes behind it, read into an object that holds something else. -/
theorem deserialize_exact_kAb :
    (⟨1, [], [0], delWord⟩ : DataEntity).deserialize (entityKAb.serialize ++ [0, 7]) =
        (true, entityKAb) ∧
      (⟨1, [], [0], delWord⟩ : DataEntity).deserializeAt (entityKAb.serialize ++ [0, 7]) =
        some (true, entityKAb) := by
  have fits : entityKAb.Fits := ⟨⟨by decide, by decide, by decide⟩, by decide⟩
  obtain ⟨-, holds, -, -, inside⟩ :=
    deserialize_exact ⟨1, [], [0], delWord⟩ (entityKAb.serialize ++ [0, 7])
  have read := (holds entityKAb).mp ⟨fits, List.prefix_append _ _⟩
  refine ⟨read, ?_⟩
  rw [inside (by decide), read]

/-! ## Messages -/

/-- A message that the protocol allows to send. -/
structure Message.WellFormed (m : Message) : Prop extends m.Sized where
  magic : m.magic = 0x9798
  offset : m.offset < 2 ^ 64

/-- Read off `socket`, the message is as it was, and nothing is left. -/
def Message.ComesBack (m : Message) (socket : Socket) : Prop :=
  Message.recvFromSocket {} socket = some (true, m, [])

/-- The two bytes stand in the high half of what `be64toh` makes of them. -/
theorem magic_ofHeader (w : Bytes) : (Message.ofHeader w).magic = 0 := by
  have bound := value_lt ((w.drop 2).take 2).reverse
  have short : ((w.drop 2).take 2).reverse.length ≤ 2 := by
    rw [List.length_reverse, List.length_take]
    omega
  have small : value ((w.drop 2).take 2).reverse < 256 ^ 2 :=
    bound.trans_le (Nat.pow_le_pow_right (by decide) short)
  change swap (2 + 6) _ % 2 ^ 16 = 0
  rw [swap_of_lt small 6]
  omega

theorem offset_ofHeader (m : Message) (rest : Bytes) :
    (Message.ofHeader (m.frame ++ rest)).offset = m.offset % 256 * 256 ^ 7 := by
  have second : ((m.frame ++ rest).drop 1).take 1 = [UInt8.ofNat m.offset] := by
    rw [frame_eq, Message.header]
    rfl
  have byte : value [UInt8.ofNat m.offset] = m.offset % 256 := by
    change value ([] ++ [UInt8.ofNat m.offset]) = _
    rw [value_concat, value_nil, UInt8.toNat_ofNat']
    omega
  have small : m.offset % 256 < 256 ^ 1 := Nat.mod_lt _ (by decide)
  have same : swap 1 (m.offset % 256) = m.offset % 256 := by
    have single : (bytes 1 (m.offset % 256)).reverse = bytes 1 (m.offset % 256) := rfl
    rw [swap, single, value_bytes_of_lt small]
  change swap (1 + 7) _ = _
  rw [second, byte, swap_of_lt small 7, same]

/-- **What comes back** of a message: the type and the payload, the low byte of the offset in its
high byte, and neither the magic number nor the length. -/
theorem received_eq {m : Message} (sized : m.Sized) {socket : Socket}
    (reads : ReadsOf m.frame socket) :
    Message.recvFromSocket {} socket =
      some (true, ⟨m.type, 0, 0, m.offset % 256 * 256 ^ 7, m.payload⟩, []) := by
  rw [← List.append_nil m.frame] at reads
  obtain ⟨socket', received, reads⟩ := recvFromSocket_frame sized reads
  have split : m.frame ++ [] = m.header ++ (m.payload ++ []) := by
    rw [frame_eq, List.append_assoc]
  have type : (Message.ofHeader (m.frame ++ [])).type = m.type := (header_fields sized split).1
  cases reads.eq_nil
  rw [received]
  dsimp only
  rw [type, magic_ofHeader, offset_ofHeader]
  rfl

/-- **No message comes back**, whatever its offset and its payload and however the bytes come in. -/
theorem not_comesBack {m : Message} (ok : m.WellFormed) {socket : Socket}
    (reads : ReadsOf m.frame socket) : ¬ m.ComesBack socket := by
  intro back
  rw [Message.ComesBack, received_eq ok.toSized reads] at back
  have magic := congrArg (fun r => r.map fun r => r.2.1.magic) back
  rw [Option.map_some, Option.map_some, ok.magic] at magic
  cases magic

/-- An `INCR_SYNC` with the offset 1 and one byte of payload. -/
def shortSync : Message := { type := incrSync, offset := 1, len := 1, payload := [7] }

theorem wellFormed_shortSync : shortSync.WellFormed := ⟨⟨rfl, by decide⟩, rfl, by decide⟩

theorem not_comesBack_shortSync : ¬ shortSync.ComesBack [shortSync.frame] :=
  not_comesBack wellFormed_shortSync ⟨by decide, by decide⟩

/-- It comes back with the offset `2 ^ 56`. -/
theorem shortSync_altered :
    shortSync.WellFormed ∧ ReadsOf shortSync.frame [shortSync.frame] ∧
      Message.recvFromSocket {} [shortSync.frame] =
        some (true, { shortSync with magic := 0, len := 0, offset := 2 ^ 56 }, []) ∧
      ¬ shortSync.ComesBack [shortSync.frame] := by
  have received : Message.recvFromSocket {} [shortSync.frame] =
      some (true, { shortSync with magic := 0, len := 0, offset := 2 ^ 56 }, []) := by decide
  refine ⟨wellFormed_shortSync, ⟨by decide, by decide⟩, received, fun back => ?_⟩
  rw [Message.ComesBack, received] at back
  exact absurd back (by decide)

/-! ## Payloads that do not decode -/

/-- A value comes in last. -/
theorem value_of_rejected {data : Bytes}
    (rejected : (DataEntity.empty.deserialize data).1 = false) :
    (DataEntity.empty.deserialize data).2.value = [] := by
  rw [DataEntity.deserialize] at rejected ⊢
  split
  · rfl
  · rename_i enough
    rw [if_neg enough] at rejected
    split
    · rfl
    · rename_i cmd behind cmdRead
      rw [cmdRead] at rejected
      dsimp only at rejected ⊢
      split
      · rfl
      · rename_i key behind keyRead
        rw [keyRead] at rejected
        dsimp only at rejected ⊢
        split
        · rfl
        · rename_i value rest valueRead
          rw [valueRead] at rejected
          cases rejected

/-- The first string of the payload, behind the sequence number, is `SET` or `DEL`. -/
def Message.NamesCommand (m : Message) : Prop :=
  lengthed setWord <+: m.payload.drop 8 ∨ lengthed delWord <+: m.payload.drop 8

/-- What is done with a rejected payload takes nothing from its value. -/
theorem op_of_rejected {m : Message} (rejected : (m.toDataEntity DataEntity.empty).1 = false)
    {cmd : Command} (done : m.op = some cmd) : ∃ key, cmd = .set key [] ∨ cmd = .del key := by
  have blank : (m.toDataEntity DataEntity.empty).2.value = [] := value_of_rejected rejected
  rw [Message.op] at done
  split at done
  · dsimp only at done
    split at done
    · cases done
    · split at done
      · cases done
        exact ⟨_, Or.inr rfl⟩
      · split at done
        · cases done
          rw [blank]
          exact ⟨_, Or.inl rfl⟩
        · cases done
  · cases done

/-- **When a rejected payload changes nothing.** An `INCR_SYNC` message whose payload `deserialize`
rejects leads to no call of `put` or `remove` exactly if its payload does not name `SET` or `DEL`;
otherwise it removes a key or puts an empty value. -/
theorem rejected_applies_nothing_iff {m : Message} (sized : m.Sized) (sync : m.type = incrSync)
    (rejected : (m.toDataEntity DataEntity.empty).1 = false) {rest : Bytes} {socket : Socket}
    (reads : ReadsOf (m.frame ++ rest) socket) (rounds : Nat) :
    ∃ (socket' : Socket) (calls : List Command), ReadsOf rest socket' ∧
      startReplica (rounds + 1) socket = calls ++ startReplica rounds socket' ∧
      (calls = [] ↔ ¬ m.NamesCommand) ∧
      ∀ cmd ∈ calls, ∃ key, cmd = .set key [] ∨ cmd = .del key := by
  obtain ⟨header, socket', received, type, payload, reads⟩ := recvFromSocket_whole sized reads
  refine ⟨socket', m.op.toList, reads, ?_, ?_, fun cmd member => ?_⟩
  · rw [startReplica, received]
    dsimp only
    rw [op_congr type payload]
  · rw [Option.toList_eq_nil_iff, op_eq_none_iff, Message.Commands, and_iff_right sync,
      Message.NamesCommand]
  · exact op_of_rejected rejected (Option.mem_toList.mp member)

/-- Three bytes where a sequence number should be. -/
def shortPayload : Message := { type := incrSync, len := 3, payload := [1, 2, 3] }

theorem rejected_applies_nothing_shortPayload :
    ∃ (socket' : Socket) (calls : List Command), ReadsOf [] socket' ∧
      startReplica 2 [shortPayload.frame] = calls ++ startReplica 1 socket' ∧
      (calls = [] ↔ ¬ shortPayload.NamesCommand) ∧
      ∀ cmd ∈ calls, ∃ key, cmd = .set key [] ∨ cmd = .del key := by
  have sized : shortPayload.Sized := ⟨rfl, by decide⟩
  have rejected : (shortPayload.toDataEntity DataEntity.empty).1 = false := by decide
  have reads : ReadsOf (shortPayload.frame ++ []) [shortPayload.frame] := ⟨by decide, by decide⟩
  exact rejected_applies_nothing_iff sized rfl rejected reads 1

/-- `SET`, and one byte of a key of two. -/
def tornSync : Message :=
  { type := incrSync, len := 20, payload := bytes 8 0 ++ lengthed setWord ++ [0, 0, 0, 2, 107] }

/-- The replica puts the empty value under the empty key. -/
theorem rejected_put :
    tornSync.Sized ∧ (tornSync.toDataEntity DataEntity.empty).1 = false ∧
      startReplica 1 [tornSync.frame] = [.set [] []] := by
  refine ⟨⟨by decide, by decide⟩, by decide, by decide⟩

end Blp.Replica

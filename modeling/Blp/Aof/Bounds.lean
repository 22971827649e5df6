import Blp.Aof.Recover
import Blp.Lib.Recorded

/-!
# The parser stays in bounds

`tryParseRESPArray` again, statement by statement, with a record of every byte it reads and of every
sum and difference of positions it forms. `recorded_traces` compares it with the parser of
`Blp.Aof.Resp`, and `parser_in_bounds` draws the conclusions for the loops around it.
-/

namespace Blp.Aof

open CString Framing Recorded

/-! ## The record -/

/-- What the parser does with positions. -/
inductive Access
  | read (i : Nat)
  | sum (a b : Nat)
  | difference (a b : Nat)
  /-- The fuel of a search loop is gone. -/
  | unfinished
  deriving DecidableEq

/-- Bytes inside the buffer, and `size_t` arithmetic that does not wrap. -/
def InBounds (len : Nat) : Access → Prop
  | .read i => i < len
  | .sum a b => a + b < 2 ^ 64
  | .difference a b => b ≤ a
  | .unfinished => False

abbrev Walk (α : Type) := Recorded Access (Option Fault) α

namespace Walk

def add (a b : Nat) : Walk Nat := do
  note (.sum a b)
  return (a + b) % 2 ^ 64

def sub (a b : Nat) : Walk Nat := do
  note (.difference a b)
  return (a + 2 ^ 64 - b) % 2 ^ 64

/-- `buf[i]`. -/
def byteAt (buf : Bytes) (i : Nat) : Walk UInt8 := do
  note (.read i)
  lift (Aof.byteAt buf i)

def readAll : List Nat → Walk Unit
  | [] => return
  | i :: rest => do
      note (.read i)
      readAll rest

/-- `std::string(buf + pos, n)`. -/
def copyAt (buf : Bytes) (pos n : Nat) : Walk Bytes := do
  readAll (List.range' pos n)
  lift (Aof.copyAt buf pos n)

/-- `need`. -/
def need (buf : Bytes) (pos n : Nat) : Walk Unit := do
  let sum ← add pos n
  lift (require (sum ≤ buf.length))

/-- The loop of `findCRLF` at index `i`. -/
def findCRLFLoop (buf : Bytes) : Nat → Nat → Walk (Option Nat)
  | 0, _ => do
      note .unfinished
      return none
  | fuel + 1, i => do
      let next ← add i 1
      if next < buf.length then
        let a ← byteAt buf i
        if a = cr then
          let b ← byteAt buf (← add i 1)
          if b = lf then
            return some i
          else
            findCRLFLoop buf fuel (← add i 1)
        else
          findCRLFLoop buf fuel (← add i 1)
      else
        return none

/-- `Aof::findCRLF`. The loop ends behind the last byte at the latest. -/
def findCRLF (buf : Bytes) (start : Nat) : Walk (Option Nat) :=
  findCRLFLoop buf (buf.length + 1) start

/-- A header line, for `*` as for `$`. -/
def parseHeader (mark : UInt8) (buf : Bytes) (pos : Nat) : Walk (Bytes × Nat) := do
  need buf pos 1
  let b ← byteAt buf pos
  lift (require (b == mark))
  let pos ← add pos 1
  match ← findCRLF buf pos with
  | none => fail none
  | some rn => do
      let n ← sub rn pos
      let text ← copyAt buf pos n
      let pos ← add rn 2
      return (text, pos)

/-- One round of the item loop. -/
def parseBulk (buf : Bytes) (pos : Nat) : Walk (Bytes × Nat) := do
  let (lenstr, pos) ← parseHeader dollar buf pos
  let slen ← lift (orFalse (stol lenstr))
  if slen < 0 then
    return ([], pos)
  else do
    let n := slen.toNat
    need buf pos (← add n 2)
    let item ← copyAt buf pos n
    let pos ← add pos n
    need buf pos 2
    let first ← byteAt buf pos
    lift (require (first == cr))
    let second ← byteAt buf (← add pos 1)
    lift (require (second == lf))
    let pos ← add pos 2
    return (item, pos)

def parseBulks (buf : Bytes) : Nat → Nat → Walk (List Bytes × Nat)
  | 0, pos => return ([], pos)
  | rounds + 1, pos => do
      let (item, pos) ← parseBulk buf pos
      let (items, pos) ← parseBulks buf rounds pos
      return (item :: items, pos)

def tryParseRESPArray (buf : Bytes) : Walk (List Bytes × Nat) := do
  let (numstr, pos) ← parseHeader star buf 0
  let num ← lift (orFalse (stoi numstr))
  lift (reserve num)
  parseBulks buf num.toNat pos

end Walk

/-! ## Single steps -/

section

variable {len : Nat} {buf : Bytes}

theorem add_traces {a b : Nat} (small : a + b < 2 ^ 64) :
    Traces (InBounds len) (Walk.add a b) (.ok (a + b)) := by
  have fits : InBounds len (.sum a b) := small
  unfold Walk.add
  refine (Traces.note fits).step ?_
  rw [Nat.mod_eq_of_lt small]
  exact Traces.pure _

theorem sub_traces {a b : Nat} (le : b ≤ a) (small : a < 2 ^ 64) :
    Traces (InBounds len) (Walk.sub a b) (.ok (a - b)) := by
  have fits : InBounds len (.difference a b) := le
  unfold Walk.sub
  refine (Traces.note fits).step ?_
  rw [show (a + 2 ^ 64 - b) % 2 ^ 64 = a - b by omega]
  exact Traces.pure _

theorem byteAt_traces {i : Nat} (inside : i < buf.length) :
    Traces (InBounds buf.length) (Walk.byteAt buf i) (byteAt buf i) := by
  have fits : InBounds buf.length (.read i) := inside
  exact (Traces.note fits).step (Traces.lift _)

theorem readAll_traces {is : List Nat} (inside : ∀ i ∈ is, i < len) :
    Traces (InBounds len) (Walk.readAll is) (.ok ()) := by
  induction is with
  | nil => exact Traces.pure _
  | cons i rest ih =>
      obtain ⟨first, later⟩ := List.forall_mem_cons.mp inside
      have fits : InBounds len (.read i) := first
      exact (Traces.note fits).step (ih later)

theorem copyAt_traces {pos n : Nat} (inside : pos + n ≤ buf.length) :
    Traces (InBounds buf.length) (Walk.copyAt buf pos n) (copyAt buf pos n) := by
  unfold Walk.copyAt
  refine (readAll_traces fun i member => ?_).step (Traces.lift _)
  have range := List.mem_range'_1.mp member
  omega

theorem need_traces {pos n : Nat} (small : pos + n < 2 ^ 64) :
    Traces (InBounds len) (Walk.need buf pos n) (require (need buf pos n)) := by
  unfold Walk.need need
  refine (add_traces small).step ?_
  rw [Nat.mod_eq_of_lt small]
  exact Traces.lift _

/-! ## The search loop -/

theorem byteAt_eq {i : Nat} (inside : i < buf.length) : byteAt buf i = .ok buf[i] := by
  unfold byteAt
  rw [List.getElem?_eq_getElem inside]

theorem byteAt_traces_getElem {i : Nat} (inside : i < buf.length) :
    Traces (InBounds buf.length) (Walk.byteAt buf i) (.ok buf[i]) := by
  rw [← byteAt_eq inside]
  exact byteAt_traces inside

theorem findCRLF_here {i : Nat} (inside : i + 1 < buf.length) :
    findCRLF buf i = if buf[i] = cr ∧ buf[i + 1] = lf then some i else findCRLF buf (i + 1) := by
  have cut : buf.drop i = buf[i] :: buf[i + 1] :: buf.drop (i + 1 + 1) := by
    rw [← List.drop_eq_getElem_cons inside, ← List.drop_eq_getElem_cons (Nat.lt_of_succ_lt inside)]
  unfold findCRLF
  rw [cut, findCRLFFrom]
  split
  · rfl
  · rw [← List.drop_eq_getElem_cons inside, Option.map_map]
    refine congrArg (fun f => Option.map f _) (funext fun j => ?_)
    simp only [Function.comp]
    omega

theorem findCRLF_end {i : Nat} (behind : buf.length ≤ i + 1) : findCRLF buf i = none := by
  have short : (buf.drop i).length ≤ 1 := by
    rw [List.length_drop]
    omega
  unfold findCRLF
  generalize buf.drop i = rest at short
  rcases rest with _ | ⟨x, _ | ⟨y, rest⟩⟩
  · rfl
  · rfl
  · simp at short

theorem findCRLFLoop_traces (short : buf.length < readable) {fuel i : Nat}
    (inside : i ≤ buf.length) (enough : buf.length < fuel + i) :
    Traces (InBounds buf.length) (Walk.findCRLFLoop buf fuel i) (.ok (findCRLF buf i)) := by
  unfold readable at short
  induction fuel generalizing i with
  | zero => omega
  | succ fuel ih =>
      have next : Traces (InBounds buf.length) (Walk.add i 1) (.ok (i + 1)) :=
        add_traces (by omega)
      rw [Walk.findCRLFLoop]
      refine next.step ?_
      by_cases more : i + 1 < buf.length
      · have onward := next.step (ih (Nat.le_of_lt more) (by omega))
        rw [if_pos more, findCRLF_here more]
        refine (byteAt_traces_getElem (Nat.lt_of_succ_lt more)).step ?_
        by_cases isCr : buf[i] = cr
        · rw [if_pos isCr]
          refine next.step ((byteAt_traces_getElem more).step ?_)
          by_cases isLf : buf[i + 1] = lf
          · rw [if_pos isLf, if_pos ⟨isCr, isLf⟩]
            exact Traces.pure _
          · rw [if_neg isLf, if_neg fun both => isLf both.2]
            exact onward
        · rw [if_neg isCr, if_neg fun both => isCr both.1]
          exact onward
      · rw [if_neg more, findCRLF_end (Nat.not_lt.mp more)]
        exact Traces.pure _

theorem findCRLF_traces (short : buf.length < readable) {start : Nat}
    (inside : start ≤ buf.length) :
    Traces (InBounds buf.length) (Walk.findCRLF buf start) (.ok (findCRLF buf start)) :=
  findCRLFLoop_traces short inside (by omega)

/-! ## The frames -/

theorem copyAt_eq {pos n : Nat} (inside : pos + n ≤ buf.length) :
    copyAt buf pos n = .ok ((buf.drop pos).take n) := if_pos inside

theorem parseHeader_traces (short : buf.length < readable) (mark : UInt8) {pos : Nat}
    (inside : pos ≤ buf.length) :
    Traces (InBounds buf.length) (Walk.parseHeader mark buf pos) (parseHeader mark buf pos) := by
  unfold Walk.parseHeader parseHeader
  have small := short
  unfold readable at small
  refine (need_traces (by omega)).bind fun _ enough => ?_
  have room := le_of_need (require_ok enough) (by omega)
  refine (byteAt_traces (by omega)).bind fun b _ => (Traces.lift _).bind fun _ _ => ?_
  refine (add_traces (by omega)).step ((findCRLF_traces short (by omega)).step ?_)
  cases found : findCRLF buf (pos + 1) with
  | none => exact Traces.fail _
  | some rn =>
      have bound := findCRLF_bound found
      have text : Traces (InBounds buf.length) (Walk.copyAt buf (pos + 1) (rn - (pos + 1)))
          (.ok ((buf.drop (pos + 1)).take (rn - (pos + 1)))) := by
        rw [← copyAt_eq (by omega)]
        exact copyAt_traces (by omega)
      exact (sub_traces bound.1 (by omega)).step
        (text.step ((add_traces (by omega)).step (Traces.pure _)))

theorem parseBulk_traces (short : buf.length < readable) {pos : Nat} (inside : pos ≤ buf.length) :
    Traces (InBounds buf.length) (Walk.parseBulk buf pos) (parseBulk buf pos) := by
  unfold Walk.parseBulk parseBulk
  refine (parseHeader_traces short dollar inside).bind fun line header => ?_
  obtain ⟨lenstr, body⟩ := line
  have bound := parseHeader_bound header
  refine (Traces.lift _).bind fun slen length => ?_
  have small := stol_lt (orFalse_ok length)
  unfold readable at short
  dsimp only
  split
  · exact Traces.pure _
  · refine (add_traces (by omega)).step ((need_traces (by omega)).bind fun _ enough => ?_)
    have room := le_of_need (require_ok enough) (by omega)
    have end_ : (body + slen.toNat) % 2 ^ 64 = body + slen.toNat := Nat.mod_eq_of_lt (by omega)
    rw [end_]
    refine (copyAt_traces (by omega)).bind fun item _ => ?_
    refine (add_traces (by omega)).step ((need_traces (by omega)).bind fun _ _ => ?_)
    refine (byteAt_traces (by omega)).bind fun first _ => ?_
    -- the second byte is not read where the first one is wrong
    cases isCr : first == cr with
    | false =>
        rw [byteAt_eq (show body + slen.toNat + 1 < buf.length by omega)]
        exact (Traces.lift (.error none)).stop
    | true =>
        refine (Traces.lift (.ok ())).step ((add_traces (by omega)).step ?_)
        refine (byteAt_traces (by omega)).bind fun second _ => ?_
        rw [Bool.true_and]
        exact (Traces.lift _).bind fun _ _ => (add_traces (by omega)).step (Traces.pure _)

theorem parseBulks_traces (short : buf.length < readable) (rounds : Nat) {pos : Nat}
    (inside : pos ≤ buf.length) :
    Traces (InBounds buf.length) (Walk.parseBulks buf rounds pos) (parseBulks buf rounds pos) := by
  induction rounds generalizing pos with
  | zero => exact Traces.pure _
  | succ rounds ih =>
      refine (parseBulk_traces short inside).bind fun head first => ?_
      obtain ⟨item, middle⟩ := head
      have bound := parseBulk_bound short first
      exact (ih bound.2).bind fun _ _ => Traces.pure _

/-- **The recorded parser** answers as the parser does and never leaves the bounds. -/
theorem recorded_traces (short : buf.length < readable) :
    Traces (InBounds buf.length) (Walk.tryParseRESPArray buf) (tryParseRESPArray buf) := by
  unfold Walk.tryParseRESPArray tryParseRESPArray
  refine (parseHeader_traces short star (Nat.zero_le _)).bind fun line header => ?_
  obtain ⟨numstr, pos⟩ := line
  have bound := parseHeader_bound header
  exact (Traces.lift _).bind fun _ _ => (Traces.lift _).bind fun _ _ =>
    parseBulks_traces short _ bound.2

/-! ## Progress -/

/-- A frame has at least its mark, a digit and the line end. -/
theorem consumed_bounds (short : buf.length < readable) {parts : List Bytes} {consumed : Nat}
    (read : tryParseRESPArray buf = .ok (parts, consumed)) :
    4 ≤ consumed ∧ consumed ≤ buf.length := by
  obtain ⟨⟨numstr, pos⟩, header, read⟩ := ok_of_bind read
  obtain ⟨num, converted, read⟩ := ok_of_bind read
  obtain ⟨_, _, read⟩ := ok_of_bind read
  have span := parseHeader_span header
  have some_ : numstr ≠ [] := by
    rintro rfl
    cases orFalse_ok converted
  have digit := List.length_pos_of_ne_nil some_
  have bound := parseBulks_bound short span.2 read
  omega

/-- The rounds of the parse loop that succeed on a buffer, and the bytes they take. -/
theorem drain_bounds (short : buf.length < readable) :
    (drain tryParseRESPArray buf).frames.length ≤ buf.length / 4 ∧
      (drain tryParseRESPArray buf).consumed ≤ buf.length := by
  have taken := consumed_drain_le tryParseRESPArray_stable short
  have count : (drain tryParseRESPArray buf).frames.length * 4 ≤
      (drain tryParseRESPArray buf).consumed := by
    refine count_drain_le ?_
    intro c parts consumed shorter read
    exact (consumed_bounds (Nat.lt_of_le_of_lt shorter short) read).1
  omega

/-- **The log parser stays in bounds and makes progress.** On a buffer below `2 ^ 62` bytes it reads
inside the buffer only and no sum or difference of positions wraps; what it consumes is at least
four bytes and at most the buffer. One round of either read loop executes at most a command for
every four bytes of the buffer; the frames it parsed are together no longer than the buffer, and it
erases them and adds their length to `last_good_offset`. -/
theorem parser_in_bounds (buf : Bytes) (short : buf.length < 2 ^ 62) :
    (Walk.tryParseRESPArray buf).answer = tryParseRESPArray buf ∧
      (∀ access ∈ (Walk.tryParseRESPArray buf).record, InBounds buf.length access) ∧
      (∀ parts consumed, tryParseRESPArray buf = .ok (parts, consumed) →
        4 ≤ consumed ∧ consumed ≤ buf.length) ∧
      (drain tryParseRESPArray buf).frames.length ≤ buf.length / 4 ∧
      (drain tryParseRESPArray buf).consumed ≤ buf.length ∧
      ∀ (s : ReadLoop) (chunk : Bytes), s.raised = none → s.streamBuf ++ chunk = buf →
        (readChunk s chunk).executed =
            s.executed ++ (drain tryParseRESPArray buf).frames.map Prod.fst ∧
          (readChunk s chunk).lastGoodOffset =
            s.lastGoodOffset + (drain tryParseRESPArray buf).consumed ∧
          (readChunk s chunk).streamBuf = buf.drop (drain tryParseRESPArray buf).consumed ∧
          (readChunk s chunk).streamBuf.length + (drain tryParseRESPArray buf).consumed =
            buf.length := by
  have small : buf.length < readable := by
    unfold readable
    omega
  have traces := recorded_traces small
  have bounds := drain_bounds small
  refine ⟨traces.answer, traces.record, fun parts consumed => consumed_bounds small, bounds.1,
    bounds.2, ?_⟩
  intro s chunk quiet whole
  have round : readChunk s chunk =
      ⟨s.executed ++ (drain tryParseRESPArray buf).frames.map Prod.fst,
        s.lastGoodOffset + (drain tryParseRESPArray buf).consumed,
        buf.drop (drain tryParseRESPArray buf).consumed, (drain tryParseRESPArray buf).raised⟩ := by
    simp only [readChunk, quiet, whole]
  rw [round]
  refine ⟨rfl, rfl, rfl, ?_⟩
  rw [List.length_drop]
  exact Nat.sub_add_cancel bounds.2

end

/-- An array of one item that declares `2 ^ 63 - 1` bytes. -/
def longestLength : Bytes :=
  headerLine star [49] ++ headerLine dollar
    [57, 50, 50, 51, 51, 55, 50, 48, 51, 54, 56, 53, 52, 55, 55, 53, 56, 48, 55]

/-- The read loop behind 40 bytes, with the first five of `DEL a` in its buffer. -/
def fiveBytesKept : ReadLoop := ⟨[setAB], 40, (serializeToRESP delA).take 5, none⟩

/-- The rest of `DEL a` comes with an item that will not fit: one command is executed, its bytes are
erased, and the parser stays in the rest. -/
theorem parser_in_bounds_longestLength :
    (∀ access ∈ (Walk.tryParseRESPArray (serializeToRESP delA ++ longestLength)).record,
        InBounds (serializeToRESP delA ++ longestLength).length access) ∧
      (∀ access ∈ (Walk.tryParseRESPArray longestLength).record,
        InBounds longestLength.length access) ∧
      (readChunk fiveBytesKept ((serializeToRESP delA).drop 5 ++ longestLength)).executed =
        [setAB, delA] ∧
      (readChunk fiveBytesKept ((serializeToRESP delA).drop 5 ++ longestLength)).lastGoodOffset =
        40 + (serializeToRESP delA).length ∧
      (readChunk fiveBytesKept ((serializeToRESP delA).drop 5 ++ longestLength)).streamBuf =
        longestLength := by
  have drained : drain tryParseRESPArray (serializeToRESP delA ++ longestLength) =
      ⟨[(delA, (serializeToRESP delA).length)], none⟩ := by decide
  obtain ⟨-, inBuffer, -, -, -, round⟩ :=
    parser_in_bounds (serializeToRESP delA ++ longestLength) (by decide)
  obtain ⟨executed, offset, left, -⟩ :=
    round fiveBytesKept ((serializeToRESP delA).drop 5 ++ longestLength) rfl (by decide)
  rw [drained] at executed offset left
  exact ⟨inBuffer, (parser_in_bounds longestLength (by decide)).2.1, executed, offset, left⟩

end Blp.Aof

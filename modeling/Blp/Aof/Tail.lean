import Blp.Aof.Grammar
import Blp.Aof.Recover

/-!
# What is behind the whole frames of a log

The read loops hand on the whole frames at the head of the file and keep what stands behind them.
`tryParseRESPArray` answers false there for a frame that breaks off and for bytes that are no frame
at all, and raises for a negative count.

* `recovery_reports_iff`: the exception of `vector::reserve` escapes from both read functions,
  exactly when such a count stands behind the whole frames.
* `tail_incomplete_iff`: what `recoverFromAOF` drops as an incomplete tail is one, with no whole
  frame in it, exactly when a frame breaks off there (`Torn`) and none is found behind.
-/

namespace Blp.Aof

open CString Framing Posix

/-! ## Where the parser raises -/

theorem require_quiet (test : Bool) : Quiet (require test) := by
  intro e
  cases test <;> nofun

theorem orFalse_quiet {α : Type} (x : Except ConvError α) : Quiet (orFalse x) := by
  intro e
  cases x <;> nofun

theorem byteAt_quiet {buf : Bytes} {pos : Nat} (inside : pos < buf.length) :
    Quiet (byteAt buf pos) := by
  intro e
  unfold byteAt
  rw [List.getElem?_eq_getElem inside]
  nofun

theorem copyAt_quiet {buf : Bytes} {pos n : Nat} (inside : pos + n ≤ buf.length) :
    Quiet (copyAt buf pos n) := by
  intro e
  unfold copyAt
  rw [if_pos inside]
  nofun

theorem parseHeader_quiet (mark : UInt8) {buf : Bytes} {pos : Nat} (short : pos + 1 < 2 ^ 64) :
    Quiet (parseHeader mark buf pos) := by
  unfold parseHeader
  apply (require_quiet _).bind
  intro _ enough
  have inside := le_of_need (require_ok enough) short
  apply (byteAt_quiet (by omega)).bind
  intro _ _
  apply (require_quiet _).bind
  intro _ _
  cases findCRLF buf (pos + 1) <;> nofun

theorem parseBulk_quiet {buf : Bytes} (short : buf.length < readable) {pos : Nat}
    (inside : pos ≤ buf.length) : Quiet (parseBulk buf pos) := by
  unfold readable at short
  unfold parseBulk
  apply (parseHeader_quiet dollar (by omega)).bind
  intro line header
  have bound := parseHeader_bound header
  apply (orFalse_quiet _).bind
  intro slen length
  have small := stol_lt (orFalse_ok length)
  dsimp only
  split
  · nofun
  · apply (require_quiet _).bind
    intro _ enough
    have room := le_of_need (require_ok enough) (by omega)
    apply (copyAt_quiet (by omega)).bind
    intro _ _
    rw [Nat.mod_eq_of_lt (by omega)]
    apply (require_quiet _).bind
    intro _ _
    apply (byteAt_quiet (by omega)).bind
    intro _ _
    apply (byteAt_quiet (by omega)).bind
    intro _ _
    apply (require_quiet _).bind
    nofun

theorem parseBulks_quiet {buf : Bytes} (short : buf.length < readable) {rounds pos : Nat}
    (inside : pos ≤ buf.length) : Quiet (parseBulks buf rounds pos) := by
  induction rounds generalizing pos with
  | zero => nofun
  | succ rounds ih =>
      apply (parseBulk_quiet short inside).bind
      intro line first
      apply (ih (parseBulk_bound short first).2).bind
      nofun

/-- The buffer begins with the header line of an array whose count is negative. -/
def NegativeCount (buf : Bytes) : Prop :=
  ∃ text rest num, buf = headerLine star text ++ rest ∧ OneLine text ∧ stoi text = .ok num ∧ num < 0

/-- A negative `int` is a `size_t` beyond `max_size()`. -/
theorem reserve_negative {num : Int} (low : -2 ^ 31 ≤ num) (negative : num < 0) :
    reserve num = .error (some .lengthError) := by
  unfold reserve vectorMaxSize
  rw [if_neg (by omega)]

/-- **The parser raises** on a negative count, and on nothing else. -/
theorem tryParseRESPArray_raises_iff {buf : Bytes} (short : buf.length < readable) {e : Fault} :
    tryParseRESPArray buf = .error (some e) ↔ e = .lengthError ∧ NegativeCount buf := by
  constructor
  · intro raised
    unfold tryParseRESPArray at raised
    cases header : parseHeader star buf 0 with
    | error o =>
        rw [header] at raised
        cases raised
        exact (parseHeader_quiet star (by decide) e header).elim
    | ok line =>
        obtain ⟨text, body⟩ := line
        have bound := parseHeader_bound header
        rw [header] at raised
        cases converted : stoi text with
        | error c =>
            simp only [bind, Except.bind, orFalse, converted] at raised
            cases raised
        | ok num =>
            have range := (stoi_eq_ok_iff.mp converted).2
            simp only [bind, Except.bind, orFalse, converted] at raised
            by_cases negative : num < 0
            · rw [reserve_negative range.1 negative] at raised
              cases raised
              obtain ⟨oneLine, -, rest, at_⟩ := parseHeader_ok header
              exact ⟨rfl, text, rest, num, at_, oneLine, converted, negative⟩
            · obtain ⟨n, rfl⟩ := Int.eq_ofNat_of_zero_le (Int.not_lt.mp negative)
              rw [reserve_natCast (by omega)] at raised
              exact (parseBulks_quiet short bound.2 e raised).elim
  · intro negative
    obtain ⟨rfl, text, rest, num, rfl, oneLine, converted, negative⟩ := negative
    have range := (stoi_eq_ok_iff.mp converted).2
    unfold readable at short
    have at_ : (headerLine star text ++ rest).drop 0 = headerLine star text ++ rest := rfl
    have header := parseHeader_line (by omega) at_ oneLine
    unfold tryParseRESPArray
    rw [header]
    simp only [bind, Except.bind, orFalse, converted, reserve_negative range.1 negative]

/-- The bytes of a frame that the parser reads. -/
def WholeFrame (bytes : Bytes) : Prop := ∃ f : Frame, f.Read ∧ f.bytes = bytes

theorem wholeFrame_serializeToRESP {parts : List Bytes} (count : parts.length < 2 ^ 31)
    (each : ∀ p ∈ parts, p.length < 2 ^ 63) : WholeFrame (serializeToRESP parts) :=
  ⟨Frame.ofParts parts, Frame.read_ofParts count each, Frame.bytes_ofParts parts⟩

theorem wholeFrames : Frames tryParseRESPArray readable WholeFrame where
  taken := by
    intro b parts n short found
    unfold readable at short
    obtain ⟨f, read, -, head⟩ := (tryParseRESPArray_eq_ok_iff (by omega)).mp found
    exact ⟨f, read, (bytes_eq_take_iff.mpr head).1⟩
  found := by
    intro bytes rest frame short
    obtain ⟨f, read, rfl⟩ := frame
    unfold readable at short
    exact ⟨f.parts, tryParseRESPArray_frame read (by omega)⟩

/-- Draining a file raises exactly when a negative count stands behind its whole frames. -/
theorem drain_raises_iff {file : Bytes} (short : file.length < readable) :
    (drain tryParseRESPArray file).raised ≠ none ↔ Behind WholeFrame NegativeCount file := by
  have stuck : ∀ rest : Bytes, rest.length < readable → NegativeCount rest →
      ∃ e, tryParseRESPArray rest = .error e := fun rest shorter negative =>
    ⟨_, (tryParseRESPArray_raises_iff shorter).mpr ⟨rfl, negative⟩⟩
  rw [behind_iff tryParseRESPArray_stable wholeFrames stuck short]
  have left := dec_rest_eq_error tryParseRESPArray_stable short
  have shorter : (file.drop (drain tryParseRESPArray file).consumed).length < readable := by
    rw [List.length_drop]
    omega
  constructor
  · intro raised
    obtain ⟨e, same⟩ := Option.ne_none_iff_exists'.mp raised
    rw [same] at left
    exact ((tryParseRESPArray_raises_iff shorter).mp left).2
  · intro negative quiet
    rw [quiet, (tryParseRESPArray_raises_iff shorter).mpr ⟨rfl, negative⟩] at left
    cases left

/-! ## How the read functions end -/

/-- How a call of `readCommandsFromOffset` ends: its return value or the exception that escapes, the
commands handed to `exec_fn`, and whether the descriptor is still open. -/
structure ReadBack where
  ret : Except Fault Bool
  executed : List (List Bytes)
  leaked : Bool

/-- `Aof::readCommandsFromOffset` with its descriptor: a `close` stands before every return. -/
def readBack (sys : Calls) (offset : Nat) : ReadBack :=
  match sys.openFile .readOnly with
  | .error _ => ⟨.ok false, [], false⟩
  | .ok () =>
      match sys.seekSet offset with
      | none => ⟨.ok false, [], false⟩
      | some pos =>
          let s := recoverLoop (sys.reads pos)
          match s.raised with
          | some e => ⟨.error e, s.executed, true⟩
          | none => ⟨.ok (!sys.readFails), s.executed, false⟩

theorem readBack_eq (sys : Calls) (offset : Nat) :
    ((readBack sys offset).ret, (readBack sys offset).executed) =
      readCommandsFromOffset sys offset := by
  unfold readBack readCommandsFromOffset
  cases sys.openFile .readOnly with
  | error e => rfl
  | ok _ =>
      cases sys.seekSet offset with
      | none => rfl
      | some pos =>
          dsimp only
          cases (recoverLoop (sys.reads pos)).raised <;> rfl

/-- The call returned true or false and closed the descriptor it opened. -/
def Reported (ret : Except Fault Bool) (leaked : Bool) : Prop := (∃ b, ret = .ok b) ∧ leaked = false

/-- `recoverFromAOF` gets to its read loop. -/
def Calls.Reads (sys : Calls) : Prop :=
  sys.openFile .readOnly = .ok () ∧ ∃ size, sys.fstat = some size ∧ size ≠ 0

theorem recoverFromAOF_reported_iff (sys : Calls) (file : Bytes) (truncate : Bool) :
    Reported (recoverFromAOF sys file truncate).ret (recoverFromAOF sys file truncate).leaked ↔
      ¬ (sys.Reads ∧ (recoverLoop (sys.reads 0)).raised ≠ none) := by
  unfold recoverFromAOF Calls.Reads Reported
  grind

theorem readBack_reported_iff (sys : Calls) (offset : Nat) :
    Reported (readBack sys offset).ret (readBack sys offset).leaked ↔
      ¬ (sys.openFile .readOnly = .ok () ∧
          ∃ pos, sys.seekSet offset = some pos ∧ (recoverLoop (sys.reads pos)).raised ≠ none) := by
  unfold readBack Reported
  grind

/-- **When recovery reports by its return value**: unless the bytes read hold, behind whole frames,
a count that `stoi` converts to a negative number. -/
theorem recovery_reports_iff {sys : Calls}
    (short : ∀ pos, (sys.reads pos).flatten.length < readable) (file : Bytes) (truncate : Bool)
    (offset : Nat) :
    (Reported (recoverFromAOF sys file truncate).ret (recoverFromAOF sys file truncate).leaked ↔
        ¬ (sys.Reads ∧ Behind WholeFrame NegativeCount (sys.reads 0).flatten)) ∧
      (Reported (readBack sys offset).ret (readBack sys offset).leaked ↔
        ¬ (sys.openFile .readOnly = .ok () ∧ ∃ pos, sys.seekSet offset = some pos ∧
            Behind WholeFrame NegativeCount (sys.reads pos).flatten)) := by
  have raises : ∀ pos, (recoverLoop (sys.reads pos)).raised ≠ none ↔
      Behind WholeFrame NegativeCount (sys.reads pos).flatten := by
    intro pos
    obtain ⟨-, -, raised, -⟩ := recoverLoop_drain (short pos) rfl
    rw [raised, drain_raises_iff (short pos)]
  rw [recoverFromAOF_reported_iff, readBack_reported_iff]
  simp only [raises, true_and]

/-- A frame, a negative count behind it, and one more frame. -/
theorem behind_raisingFile : Behind WholeFrame NegativeCount raisingFile := by
  refine ⟨[serializeToRESP delA], headerLine star [45, 49] ++ serializeToRESP setAB, ?_, rfl,
    [45, 49], _, -1, rfl, by decide, by decide, by decide⟩
  exact List.forall_mem_singleton.mpr (wholeFrame_serializeToRESP (by decide) (by decide))

/-- Both functions let the exception out, and leave a descriptor open: recovery from the start of
the file, the other one from behind its first frame. -/
theorem recovery_reports_raising :
    ¬ Reported (recoverFromAOF (posixCalls (some raisingFile) [raisingFile]) raisingFile true).ret
        (recoverFromAOF (posixCalls (some raisingFile) [raisingFile]) raisingFile true).leaked ∧
      ¬ Reported (readBack (posixCalls (some raisingFile) [raisingFile]) 20).ret
        (readBack (posixCalls (some raisingFile) [raisingFile]) 20).leaked := by
  have whole : ReadsOf raisingFile [raisingFile] := ⟨by decide, by decide⟩
  have short : ∀ pos,
      ((posixCalls (some raisingFile) [raisingFile]).reads pos).flatten.length < readable := by
    intro pos
    rw [((posixCalls_serves (by decide) whole).reads pos).joined, List.length_drop]
    exact Nat.lt_of_le_of_lt (Nat.sub_le _ _) (by decide)
  obtain ⟨recovery, reading⟩ := recovery_reports_iff short raisingFile true 20
  constructor
  · intro reported
    exact recovery.mp reported ⟨⟨rfl, _, rfl, by decide⟩, behind_raisingFile⟩
  · intro reported
    refine reading.mp reported ⟨rfl, 20, by decide, [], _, nofun, rfl, ?_⟩
    exact ⟨[45, 49], serializeToRESP setAB, -1, by decide, by decide, by decide, by decide⟩

/-- The file `*-1\r\n`. -/
def negativeFile : Bytes := headerLine star [45, 49]

theorem not_reported_negativeFile :
    (recoverFromAOF (posixCalls (some negativeFile) [negativeFile]) negativeFile true).ret =
        .error .lengthError ∧
      (recoverFromAOF (posixCalls (some negativeFile) [negativeFile]) negativeFile true).leaked =
        true ∧
      (readBack (posixCalls (some negativeFile) [negativeFile]) 0).ret = .error .lengthError ∧
      (readBack (posixCalls (some negativeFile) [negativeFile]) 0).leaked = true :=
  ⟨rfl, rfl, rfl, rfl⟩

/-! ## Frames that break off -/

/-- An item that breaks off: before it, in the line of its length, or in its bytes. -/
inductive TornItem : Bytes → Prop
  | nothing : TornItem []
  | length {text : Bytes} (line : OneLine text)
      (open_ : Begun text ∨ ∃ slen, stol text = .ok slen) : TornItem (dollar :: text)
  | data {text data : Bytes} {n : Nat} (line : OneLine text) (length : stol text = .ok (n : Int))
      (missing : data.drop n = [] ∨ data.drop n = [cr]) :
      TornItem (headerLine dollar text ++ data)

/-- A frame that breaks off: in the line of its count, or among its items. -/
inductive Torn : Bytes → Prop
  | count {text : Bytes} (line : OneLine text)
      (open_ : Begun text ∨ ∃ num, stoi text = .ok num ∧ 0 ≤ num) : Torn (star :: text)
  | items {text torn : Bytes} {items : List Item} {num : Nat} (line : OneLine text)
      (count : stoi text = .ok (num : Int)) (read : ∀ i ∈ items, i.Read)
      (fewer : items.length < num) (broken : TornItem torn) :
      Torn (headerLine star text ++ (items.flatMap Item.bytes ++ torn))

theorem OneLine.of_prefix {text front : Bytes} (line : OneLine text) (pre : front <+: text) :
    OneLine front := fun crlf => line (crlf.trans pre.isInfix)

theorem OneLine.concat {text : Bytes} (line : OneLine text) {b : UInt8} (other : b ≠ lf) :
    OneLine (text ++ [b]) := by
  intro crlf
  rcases List.infix_concat_iff.mp crlf with last | inside
  · rcases List.suffix_concat_iff.mp last with none | ⟨t, same, -⟩
    · cases none
    · have ends := congrArg List.getLast? same
      rw [List.getLast?_concat] at ends
      exact other (Option.some_inj.mp ends).symm
  · exact line inside

/-- A header line that breaks off: nothing of it, or its mark and text that could still grow into
what stands there. -/
theorem torn_headerLine {mark : UInt8} {text rest : Bytes} (line : OneLine text)
    (pre : rest <+: headerLine mark text) (proper : rest.length < (headerLine mark text).length) :
    rest = [] ∨ ∃ front, rest = mark :: front ∧ OneLine front ∧
      (front <+: text ∨ front = text ++ [cr]) := by
  cases rest with
  | nil => exact Or.inl rfl
  | cons b front =>
      obtain ⟨rfl, tail⟩ := List.cons_prefix_cons.mp pre
      rw [length_headerLine, List.length_cons] at proper
      refine Or.inr ⟨front, rfl, ?_⟩
      rcases prefix_append_cases tail with inside | ⟨more, rfl, behind⟩
      · exact ⟨line.of_prefix inside, Or.inl inside⟩
      · rw [List.length_append] at proper
        cases more with
        | nil => exact ⟨line.of_prefix (by simp), Or.inl (by simp)⟩
        | cons c more =>
            obtain ⟨rfl, behind⟩ := List.cons_prefix_cons.mp behind
            obtain rfl : more = [] := by
              apply List.eq_nil_of_length_eq_zero
              rw [List.length_cons] at proper
              omega
            exact ⟨line.concat (by decide), Or.inr rfl⟩

/-- What an item begins with and does not end with. -/
theorem Item.Read.torn {i : Item} (read : i.Read) {torn : Bytes} (pre : torn <+: i.bytes)
    (proper : torn.length < i.bytes.length) : TornItem torn := by
  have header : ∀ {text : Bytes} {slen : Int}, OneLine text → stol text = .ok slen →
      torn <+: headerLine dollar text → torn.length < (headerLine dollar text).length →
      TornItem torn := by
    intro text slen line length pre proper
    rcases torn_headerLine line pre proper with rfl | ⟨front, rfl, oneLine, grows⟩
    · exact .nothing
    · apply TornItem.length oneLine
      rcases grows with pre | rfl
      · exact (stol_front pre length).imp id fun shorter => ⟨shorter.choose, shorter.choose_spec.1⟩
      · exact Or.inr ⟨slen, stol_concat length rfl⟩
  cases read with
  | null line length => exact header line length pre proper
  | @bulk text data line length =>
      rw [Item.bytes] at pre proper
      by_cases early : torn.length < (headerLine dollar text).length
      · have front := List.prefix_of_prefix_length_le pre (List.prefix_append _ _)
          (Nat.le_of_lt early)
        exact header line length front early
      · rcases prefix_append_cases pre with inside | ⟨rest, rfl, behind⟩
        · obtain rfl := inside.eq_of_length_le (Nat.le_of_not_lt early)
          rw [← List.append_nil (headerLine dollar text)]
          exact .data line length (Or.inl List.drop_nil)
        · apply TornItem.data line length
          rw [List.length_append, List.length_append, List.length_append] at proper
          rcases prefix_append_cases behind with inside | ⟨more, rfl, close⟩
          · exact Or.inl (List.drop_eq_nil_of_le inside.length_le)
          · rw [List.drop_left]
            rw [List.length_append] at proper
            cases more with
            | nil => exact Or.inl rfl
            | cons c more =>
                obtain ⟨rfl, -⟩ := List.cons_prefix_cons.mp close
                obtain rfl : more = [] := by
                  apply List.eq_nil_of_length_eq_zero
                  simp only [List.length_cons, List.length_nil] at proper
                  omega
                exact Or.inr rfl

/-- What a frame begins with and does not end with, unless it is nothing. -/
theorem Frame.Read.torn {f : Frame} (read : f.Read) {rest : Bytes} (some_ : rest ≠ [])
    (pre : rest <+: f.bytes) (proper : rest.length < f.bytes.length) : Torn rest := by
  rw [Frame.bytes] at pre proper
  by_cases early : rest.length < (headerLine star f.text).length
  · have front := List.prefix_of_prefix_length_le pre (List.prefix_append _ _) (Nat.le_of_lt early)
    rcases torn_headerLine read.line front early with rfl | ⟨text, rfl, oneLine, grows⟩
    · exact (some_ rfl).elim
    · apply Torn.count oneLine
      rcases grows with pre | rfl
      · exact stoi_front pre read.count (Int.natCast_nonneg _)
      · exact Or.inr ⟨_, stoi_concat read.count rfl, Int.natCast_nonneg _⟩
  · obtain ⟨behind, rfl⟩ : headerLine star f.text <+: rest :=
      List.prefix_of_prefix_length_le (List.prefix_append _ _) pre (Nat.le_of_not_lt early)
    have items := (List.prefix_append_right_inj _).mp pre
    obtain ⟨torn, split, last, next⟩ := prefix_split items
    cases whole : f.items[wholeOf Item.bytes f.items behind.length]? with
    | none =>
        have all := List.getElem?_eq_none_iff.mp whole
        rw [last whole, List.append_nil, List.take_of_length_le all] at split
        rw [split] at proper
        exact (Nat.lt_irrefl _ proper).elim
    | some i =>
        obtain ⟨inside, broken⟩ := next i (Option.mem_def.mpr whole)
        have there := (List.getElem?_eq_some_iff.mp whole).1
        rw [split]
        refine Torn.items read.line read.count
          (fun j member => read.items j (List.mem_of_mem_take member)) ?_
          ((read.items i (List.mem_of_getElem? whole)).torn inside broken)
        rw [List.length_take]
        omega

/-! ## Completing a torn frame -/

/-- `$-1\r\n`. -/
def nullItem : Item := .null [45, 49]

theorem nullItem_read : nullItem.Read := Item.read_null

theorem nullItems_read (n : Nat) : ∀ i ∈ List.replicate n nullItem, i.Read := by
  intro i member
  rw [(List.mem_replicate.mp member).2]
  exact nullItem_read

theorem length_nullItems (n : Nat) :
    ((List.replicate n nullItem).flatMap Item.bytes).length = 5 * n := by
  induction n with
  | zero => rfl
  | succ n ih =>
      rw [List.replicate_succ, List.flatMap_cons, List.length_append, ih]
      change 5 + 5 * n = _
      omega

theorem TornItem.complete {torn : Bytes} (broken : TornItem torn) :
    ∃ i : Item, i.Read ∧ ∃ more, more ≠ [] ∧ i.bytes = torn ++ more ∧
      more.length ≤ 2 ^ 63 + 4 := by
  cases broken with
  | nothing => exact ⟨nullItem, nullItem_read, nullItem.bytes, by decide, rfl, by decide⟩
  | @length text line open_ =>
      rcases open_ with begun | ⟨slen, length⟩
      · refine ⟨.bulk (text ++ [48]) [], .bulk (line.concat (by decide)) begun.stol_zero,
          [48, cr, lf, cr, lf], by decide, ?_, by decide⟩
        simp [Item.bytes, headerLine]
      · by_cases negative : slen < 0
        · exact ⟨.null text, .null line length negative, [cr, lf], by decide,
            by simp [Item.bytes, headerLine], by decide⟩
        · obtain ⟨n, rfl⟩ := Int.eq_ofNat_of_zero_le (Int.not_lt.mp negative)
          have small := stol_lt length
          refine ⟨.bulk text (List.replicate n 0), .bulk line ?_,
            [cr, lf] ++ (List.replicate n 0 ++ [cr, lf]), by simp, ?_, ?_⟩
          · rw [List.length_replicate]
            exact length
          · simp [Item.bytes, headerLine]
          · simp only [List.length_append, List.length_replicate, List.length_cons,
              List.length_nil]
            omega
  | @data text data n line length missing =>
      have small := stol_lt length
      rcases missing with short | one
      · have size : data.length ≤ n := List.drop_eq_nil_iff.mp short
        refine ⟨.bulk text (data ++ List.replicate (n - data.length) 0), .bulk line ?_,
          List.replicate (n - data.length) 0 ++ [cr, lf], by simp, ?_, ?_⟩
        · rw [List.length_append, List.length_replicate, Nat.add_sub_cancel' size]
          exact length
        · simp [Item.bytes]
        · simp only [List.length_append, List.length_replicate, List.length_cons, List.length_nil]
          omega
      · have size : n ≤ data.length := by
          have lengths := congrArg List.length one
          rw [List.length_drop] at lengths
          simp only [List.length_cons, List.length_nil] at lengths
          omega
        refine ⟨.bulk text (data.take n), .bulk line ?_, [lf], by decide, ?_, by decide⟩
        · rw [List.length_take_of_le size]
          exact length
        · conv_rhs => rw [← List.take_append_drop n data, one]
          simp [Item.bytes]

theorem Torn.complete {rest : Bytes} (torn : Torn rest) :
    ∃ f : Frame, f.Read ∧ ∃ more, more ≠ [] ∧ f.bytes = rest ++ more ∧
      more.length < 2 ^ 63 + 2 ^ 34 := by
  cases torn with
  | @count text line open_ =>
      rcases open_ with begun | ⟨num, count, nonneg⟩
      · refine ⟨⟨text ++ [48], []⟩, ⟨line.concat (by decide), begun.stoi_zero, nofun⟩,
          [48, cr, lf], by decide, ?_, by decide⟩
        simp [Frame.bytes, headerLine]
      · obtain ⟨n, rfl⟩ := Int.eq_ofNat_of_zero_le nonneg
        have small := stoi_lt count
        refine ⟨⟨text, List.replicate n nullItem⟩, ⟨line, ?_, nullItems_read n⟩,
          [cr, lf] ++ (List.replicate n nullItem).flatMap Item.bytes, by simp, ?_, ?_⟩
        · rw [List.length_replicate]
          exact count
        · simp [Frame.bytes, headerLine]
        · rw [List.length_append, length_nullItems]
          simp only [List.length_cons, List.length_nil]
          omega
  | @items text torn items num line count read fewer broken =>
      have small := stoi_lt count
      obtain ⟨i, readLast, more, some_, split, size⟩ := broken.complete
      refine ⟨⟨text, items ++ i :: List.replicate (num - items.length - 1) nullItem⟩,
        ⟨line, ?_, ?_⟩,
        more ++ (List.replicate (num - items.length - 1) nullItem).flatMap Item.bytes, ?_, ?_, ?_⟩
      · rw [count, List.length_append, List.length_cons, List.length_replicate]
        congr 1
        omega
      · intro j member
        rcases List.mem_append.mp member with before | behind
        · exact read j before
        · rcases List.mem_cons.mp behind with rfl | null
          · exact readLast
          · exact nullItems_read _ j null
      · exact fun none => some_ (List.append_eq_nil_iff.mp none).1
      · simp [Frame.bytes, split]
      · rw [List.length_append, length_nullItems]
        omega

/-- The bytes are a proper prefix of a frame that the parser accepts once it is complete. -/
def Completable (rest : Bytes) : Prop :=
  ∃ more parts, more ≠ [] ∧ (rest ++ more).length < 2 ^ 64 ∧
    tryParseRESPArray (rest ++ more) = .ok (parts, (rest ++ more).length)

theorem completable_iff_frame {rest : Bytes} :
    Completable rest ↔
      ∃ more, more ≠ [] ∧ (rest ++ more).length < 2 ^ 64 ∧
        ∃ f : Frame, f.Read ∧ f.bytes = rest ++ more := by
  constructor
  · intro completable
    obtain ⟨more, parts, some_, short, read⟩ := completable
    obtain ⟨f, read, -, size, pre⟩ := (tryParseRESPArray_eq_ok_iff short).mp read
    exact ⟨more, some_, short, f, read, pre.eq_of_length size⟩
  · intro frame
    obtain ⟨more, some_, short, f, read, same⟩ := frame
    refine ⟨more, f.parts, some_, short, (tryParseRESPArray_eq_ok_iff short).mpr ?_⟩
    exact ⟨f, read, rfl, congrArg List.length same, same ▸ List.prefix_refl _⟩

/-- Below this length, a frame that a file begins can be completed in fewer than `2 ^ 64` bytes. -/
def roomy : Nat := 2 ^ 63 - 2 ^ 34

/-- **A proper prefix of an acceptable frame is a torn frame.** -/
theorem completable_iff_torn {rest : Bytes} (some_ : rest ≠ []) (short : rest.length < roomy) :
    Completable rest ↔ Torn rest := by
  rw [completable_iff_frame]
  constructor
  · intro frame
    obtain ⟨more, left, -, f, read, same⟩ := frame
    apply read.torn some_
    · rw [same]
      exact List.prefix_append _ _
    · have positive := List.length_pos_iff.mpr left
      rw [same, List.length_append]
      omega
  · intro torn
    obtain ⟨f, read, more, left, same, size⟩ := torn.complete
    refine ⟨more, left, ?_, f, read, same⟩
    unfold roomy at short
    rw [List.length_append]
    omega

theorem Completable.of_prefix {front rest : Bytes} (completable : Completable (front ++ rest)) :
    Completable front := by
  obtain ⟨more, parts, some_, short, read⟩ := completable
  rw [List.append_assoc] at short read
  exact ⟨rest ++ more, parts, fun none => some_ (List.append_eq_nil_iff.mp none).2, short, read⟩

/-! ## The tail of a recovery -/

/-- The bytes that `recoverFromAOF` treats as an incomplete tail, if it gets to that branch. -/
def incompleteTail (sys : Calls) : Option Bytes :=
  match sys.openFile .readOnly with
  | .error _ => none
  | .ok () =>
      match sys.fstat with
      | none => none
      | some filesize =>
          if filesize = 0 then none
          else
            let s := recoverLoop (sys.reads 0)
            match s.raised with
            | some _ => none
            | none =>
                if sys.readFails then none
                else if s.streamBuf ≠ [] then some s.streamBuf
                else none

theorem incompleteTail_eq_some_iff {sys : Calls} {rest : Bytes} :
    incompleteTail sys = some rest ↔
      sys.Reads ∧ (recoverLoop (sys.reads 0)).raised = none ∧ sys.readFails = false ∧
        (recoverLoop (sys.reads 0)).streamBuf = rest ∧ rest ≠ [] := by
  unfold incompleteTail Calls.Reads
  cases sys.openFile .readOnly with
  | error e => simp
  | ok _ =>
      cases sys.fstat with
      | none => simp
      | some filesize =>
          by_cases empty : filesize = 0
          · simp [empty]
          · cases raised : (recoverLoop (sys.reads 0)).raised with
            | some e => simp [empty, raised]
            | none =>
                cases sys.readFails with
                | true => simp [raised]
                | false =>
                    by_cases left : (recoverLoop (sys.reads 0)).streamBuf = []
                    · simp [empty, raised, left, eq_comm]
                    · simp [empty, raised, left]
                      grind

/-- In that branch the tail is cut off, or left out of account. -/
theorem recoverFromAOF_of_incompleteTail {sys : Calls} {rest : Bytes}
    (reached : incompleteTail sys = some rest) (file : Bytes) (truncate : Bool) :
    rest = (recoverLoop (sys.reads 0)).streamBuf ∧
      (recoverFromAOF sys file truncate).ret =
        if truncate then
          match sys.ftruncate .readOnly (recoverLoop (sys.reads 0)).lastGoodOffset file with
          | .ok _ => .ok true
          | .error _ => .ok false
        else .ok true := by
  obtain ⟨⟨opened, filesize, size, some_⟩, raised, fails, rfl, left⟩ :=
    incompleteTail_eq_some_iff.mp reached
  refine ⟨rfl, ?_⟩
  simp only [recoverFromAOF, opened, size, some_, raised, fails, if_false, left, ne_eq,
    not_false_eq_true, true_and, Bool.false_eq_true]
  cases truncate with
  | false => rfl
  | true =>
      simp only [if_true]
      cases sys.ftruncate .readOnly (recoverLoop (sys.reads 0)).lastGoodOffset file <;> rfl

/-- What is dropped is the beginning of a frame, and no whole frame stands in it: there are no
damaged bytes with complete commands behind them. -/
structure OnlyIncomplete (rest : Bytes) : Prop where
  incomplete : Completable rest
  undamaged : ∀ damaged bytes more, rest = damaged ++ (bytes ++ more) → ¬ WholeFrame bytes

/-- The parser, set on one of the later bytes, finds a frame. -/
def FoundLater (rest : Bytes) : Prop :=
  ∃ i < rest.length, 0 < i ∧ (tryParseRESPArray (rest.drop i)).isOk = true

instance (rest : Bytes) : Decidable (FoundLater rest) :=
  inferInstanceAs (Decidable (∃ i < rest.length, _ ∧ _))

/-- Nothing is left, or a count that makes the parser raise, or a frame that breaks off and in which
no other one is found. -/
def Ends (rest : Bytes) : Prop :=
  rest = [] ∨ NegativeCount rest ∨ (Torn rest ∧ ¬ FoundLater rest)

theorem tryParseRESPArray_of_torn {rest : Bytes} (short : rest.length < readable)
    (torn : Torn rest) : ∃ e, tryParseRESPArray rest = .error e := by
  cases answer : tryParseRESPArray rest with
  | error e => exact ⟨e, rfl⟩
  | ok frame =>
      obtain ⟨parts, n⟩ := frame
      unfold readable at short
      obtain ⟨g, readWhole, -, -, pre⟩ := (tryParseRESPArray_eq_ok_iff (by omega)).mp answer
      obtain ⟨f, read, more, some_, same, -⟩ := torn.complete
      have positive := List.length_pos_iff.mpr some_
      obtain rfl := read.unique readWhole (List.prefix_refl _)
        (pre.trans (same ▸ List.prefix_append _ _))
      have longer := pre.length_le
      rw [same, List.length_append] at longer
      omega

/-- The parser finds a frame at a place of the bytes exactly when a whole one stands there. -/
theorem isOk_drop_iff {rest : Bytes} (short : rest.length < readable) (i : Nat) :
    (tryParseRESPArray (rest.drop i)).isOk = true ↔
      ∃ bytes more, rest.drop i = bytes ++ more ∧ WholeFrame bytes := by
  have shorter : (rest.drop i).length < readable := by
    rw [List.length_drop]
    omega
  constructor
  · intro found
    cases answer : tryParseRESPArray (rest.drop i) with
    | error e =>
        rw [answer] at found
        cases found
    | ok frame =>
        obtain ⟨parts, n⟩ := frame
        refine ⟨_, _, (List.take_append_drop n _).symm, wholeFrames.taken shorter answer⟩
  · intro whole
    obtain ⟨bytes, more, split, whole⟩ := whole
    rw [split] at shorter ⊢
    obtain ⟨parts, found⟩ := wholeFrames.found whole shorter
    rw [found]
    rfl

/-- Where the parser stops, a whole frame can only stand at a later byte. -/
theorem undamaged_iff {rest : Bytes} (short : rest.length < readable)
    (stops : ∃ e, tryParseRESPArray rest = .error e) :
    (∀ damaged bytes more, rest = damaged ++ (bytes ++ more) → ¬ WholeFrame bytes) ↔
      ¬ FoundLater rest := by
  constructor
  · intro undamaged found
    obtain ⟨i, -, -, found⟩ := found
    obtain ⟨bytes, more, split, whole⟩ := (isOk_drop_iff short i).mp found
    refine undamaged (rest.take i) bytes more ?_ whole
    rw [← split, List.take_append_drop]
  · intro nowhere damaged bytes more split whole
    have behind : rest.drop damaged.length = bytes ++ more := by rw [split, List.drop_left]
    have found := (isOk_drop_iff short damaged.length).mpr ⟨bytes, more, behind, whole⟩
    rcases Nat.eq_zero_or_pos damaged.length with first | later
    · obtain ⟨e, stops⟩ := stops
      rw [first, List.drop_zero, stops] at found
      cases found
    · refine nowhere ⟨damaged.length, ?_, later, found⟩
      -- a whole frame is not empty
      by_contra outside
      rw [List.drop_eq_nil_iff.mpr (Nat.not_lt.mp outside)] at found
      cases found

theorem behind_ends_iff {file : Bytes} (short : file.length < readable) :
    Behind WholeFrame Ends file ↔ Ends (file.drop (drain tryParseRESPArray file).consumed) := by
  refine behind_iff tryParseRESPArray_stable wholeFrames ?_ short
  intro rest shorter ends
  rcases ends with rfl | negative | ⟨torn, -⟩
  · exact ⟨none, tryParseRESPArray_stable.empty⟩
  · exact ⟨_, (tryParseRESPArray_raises_iff shorter).mpr ⟨rfl, negative⟩⟩
  · exact tryParseRESPArray_of_torn shorter torn

/-- Recovery comes to the branch when the drained file raises nothing and leaves something. -/
theorem incompleteTail_iff {file : Bytes} (short : file.length < readable) {chunks : List Bytes}
    (reads : ReadsOf file chunks) {rest : Bytes} :
    incompleteTail (posixCalls (some file) chunks) = some rest ↔
      (drain tryParseRESPArray file).raised = none ∧
        file.drop (drain tryParseRESPArray file).consumed = rest ∧ rest ≠ [] := by
  obtain ⟨-, -, raised, left⟩ := recoverLoop_drain short reads.joined
  have whole : (posixCalls (some file) chunks).reads 0 = chunks := readsFrom_zero chunks
  rw [incompleteTail_eq_some_iff, whole]
  constructor
  · intro reached
    obtain ⟨-, calm, -, rfl, some_⟩ := reached
    exact ⟨raised.symm.trans calm, (left calm).symm, some_⟩
  · intro reached
    obtain ⟨quiet, rfl, some_⟩ := reached
    have calm := raised.trans quiet
    have size : file.length ≠ 0 := by
      intro zero
      rw [List.eq_nil_of_length_eq_zero zero, List.drop_nil] at some_
      exact some_ rfl
    exact ⟨⟨rfl, _, rfl, size⟩, calm, rfl, left calm, some_⟩

/-- **When only an incomplete frame is dropped**: when behind the whole frames of the file a frame
breaks off, and the parser finds none at its later bytes, if the recovery gets there and anything is
left. -/
theorem tail_incomplete_iff {file : Bytes} (short : file.length < roomy) {chunks : List Bytes}
    (reads : ReadsOf file chunks) :
    (∀ rest, incompleteTail (posixCalls (some file) chunks) = some rest → OnlyIncomplete rest) ↔
      Behind WholeFrame Ends file := by
  have inFile : file.length < readable := by
    unfold roomy at short
    unfold readable
    omega
  have found := dec_rest_eq_error tryParseRESPArray_stable inFile
  have shorter : (file.drop (drain tryParseRESPArray file).consumed).length ≤ file.length := by
    rw [List.length_drop]
    exact Nat.sub_le _ _
  have undamaged := undamaged_iff (Nat.lt_of_le_of_lt shorter inFile) ⟨_, found⟩
  rw [behind_ends_iff inFile]
  constructor
  · intro only
    cases quiet : (drain tryParseRESPArray file).raised with
    | some e =>
        rw [quiet] at found
        exact Or.inr (Or.inl ((tryParseRESPArray_raises_iff (by omega)).mp found).2)
    | none =>
        by_cases empty : file.drop (drain tryParseRESPArray file).consumed = []
        · exact Or.inl empty
        · have tail := only _ ((incompleteTail_iff inFile reads).mpr ⟨quiet, rfl, empty⟩)
          have torn := (completable_iff_torn empty (by omega)).mp tail.incomplete
          exact Or.inr (Or.inr ⟨torn, undamaged.mp tail.undamaged⟩)
  · intro ends rest reached
    obtain ⟨quiet, rfl, some_⟩ := (incompleteTail_iff inFile reads).mp reached
    rcases ends with none | negative | ⟨torn, nowhere⟩
    · exact (some_ none).elim
    · rw [(tryParseRESPArray_raises_iff (by omega)).mpr ⟨rfl, negative⟩, quiet] at found
      cases found
    · exact ⟨(completable_iff_torn some_ (by omega)).mpr torn, undamaged.mpr nowhere⟩

/-- The second frame breaks off in the line of a length. -/
theorem tail_incomplete_tornAB :
    incompleteTail (posixCalls (some tornAB) [tornAB]) = some [42, 50, 13, 10, 36, 51, 13] ∧
      OnlyIncomplete [42, 50, 13, 10, 36, 51, 13] := by
  have reached : incompleteTail (posixCalls (some tornAB) [tornAB]) =
      some [42, 50, 13, 10, 36, 51, 13] := by decide
  refine ⟨reached, (tail_incomplete_iff (by decide) ⟨by decide, by decide⟩).mpr ?_ _ reached⟩
  refine ⟨[serializeToRESP setAB], [42, 50, 13, 10, 36, 51, 13], ?_, rfl,
    Or.inr (Or.inr ⟨?_, by decide⟩)⟩
  · exact List.forall_mem_singleton.mpr (wholeFrame_serializeToRESP (by decide) (by decide))
  · have open_ : TornItem [36, 51, 13] := .length (by decide) (Or.inr ⟨3, by decide⟩)
    have two : stoi [50] = .ok ((2 : Nat) : Int) := by decide
    have broken := Torn.items (by decide) two (List.forall_mem_nil Item.Read) (by decide) open_
    exact broken

/-- A stray byte between two whole frames. -/
def damagedAB : Bytes := serializeToRESP setAB ++ 88 :: serializeToRESP delA

/-- The whole frame behind the stray byte is dropped with it. -/
theorem not_incomplete_damagedAB :
    incompleteTail (posixCalls (some damagedAB) [damagedAB]) = some (88 :: serializeToRESP delA) ∧
      ¬ OnlyIncomplete (88 :: serializeToRESP delA) := by
  refine ⟨by decide, fun only => ?_⟩
  obtain ⟨more, -, -, f, -, same⟩ := completable_iff_frame.mp only.incomplete
  cases same

/-- `SET a bbbbbbbbbb` with one bit of its last length flipped, `$90` for `$10`. -/
def flippedSet : Bytes :=
  headerLine star [51] ++ (serializeBulk [83, 69, 84] ++ serializeBulk [97] ++
    headerLine dollar [57, 48] ++ List.replicate 10 98 ++ [cr, lf])

/-- A frame that breaks off may be damaged as well: the length now takes in the whole frame behind
it, which is dropped with it. -/
theorem not_undamaged_flippedSet :
    incompleteTail (posixCalls (some (flippedSet ++ serializeToRESP delA))
        [flippedSet ++ serializeToRESP delA]) = some (flippedSet ++ serializeToRESP delA) ∧
      Completable (flippedSet ++ serializeToRESP delA) ∧
      ¬ OnlyIncomplete (flippedSet ++ serializeToRESP delA) := by
  have whole : WholeFrame (serializeToRESP delA) :=
    wholeFrame_serializeToRESP (by decide) (by decide)
  refine ⟨by decide, ?_, fun only => only.undamaged flippedSet _ [] (by simp) whole⟩
  have read : (Frame.ofParts [[83, 69, 84], [97]]).Read :=
    Frame.read_ofParts (by decide) (by decide)
  have three : stoi [51] = .ok ((3 : Nat) : Int) := by decide
  have ninety : stol [57, 48] = .ok ((90 : Nat) : Int) := by decide
  have open_ : TornItem (headerLine dollar [57, 48] ++
      (List.replicate 10 98 ++ [cr, lf] ++ serializeToRESP delA)) :=
    .data (by decide) ninety (Or.inl (by decide))
  have torn := Torn.items (by decide) three read.items (by decide) open_
  exact (completable_iff_torn (by decide) (by decide)).mpr torn

end Blp.Aof

import Blp.Lib.CString
import Blp.Lib.Framing

/-!
# The frames of the append-only file

`serializeToRESP` writes a command as a RESP array of bulk strings; `tryParseRESPArray` reads one
such frame at the head of a buffer. Positions and lengths are `size_t`: the sums that the bounds
check `need` compares are taken modulo `2 ^ 64`.

* `tryParseRESPArray_serializeToRESP`: the parser undoes the encoder.
* `tryParseRESPArray_stable`: on buffers below `readable` the parser is a stable decoder in the
  sense of `Blp.Lib.Framing`, whatever bytes they hold.
-/

namespace Blp.Aof

open CString Framing

def cr : UInt8 := 13
def lf : UInt8 := 10
/-- `*`, the mark of an array header. -/
def star : UInt8 := 42
/-- `$`, the mark of a bulk string header. -/
def dollar : UInt8 := 36

/-- What can escape from the parser: the `length_error` of `vector::reserve`, and a read outside
the buffer, which the language leaves undefined. -/
inductive Fault
  | lengthError
  | outOfBounds
  deriving DecidableEq, Repr

/-- A step of the parser; `.error none` is its `return false`. -/
abbrev Parse (α : Type) := Except (Option Fault) α

/-! ## Encoder -/

def headerLine (mark : UInt8) (text : Bytes) : Bytes := mark :: (text ++ [cr, lf])

/-- One bulk string: `$<length>\r\n<bytes>\r\n`. -/
def serializeBulk (p : Bytes) : Bytes :=
  headerLine dollar (decimal p.length) ++ (p ++ [cr, lf])

/-- `Aof::serializeToRESP`. -/
def serializeToRESP (parts : List Bytes) : Bytes :=
  headerLine star (decimal parts.length) ++ parts.flatMap serializeBulk

theorem length_headerLine (mark : UInt8) (text : Bytes) :
    (headerLine mark text).length = text.length + 3 := by
  simp [headerLine]

theorem length_serializeBulk (p : Bytes) :
    (serializeBulk p).length = (headerLine dollar (decimal p.length)).length + (p.length + 2) := by
  simp [serializeBulk]

/-! ## Parser -/

/-- `if (!test) return false;` -/
def require (test : Bool) : Parse Unit := if test then .ok () else .error none

/-- `try { … } catch (...) { return false; }` around a numeric conversion. -/
def orFalse {α : Type} : Except ConvError α → Parse α
  | .ok a => .ok a
  | .error _ => .error none

/-- The bounds check of the parser, a sum of two `size_t`. -/
def need (buf : Bytes) (pos n : Nat) : Bool := (pos + n) % 2 ^ 64 ≤ buf.length

/-- `buf[pos]`. -/
def byteAt (buf : Bytes) (pos : Nat) : Parse UInt8 :=
  match buf[pos]? with
  | some b => .ok b
  | none => .error (some .outOfBounds)

/-- `std::string(buf + pos, n)`. -/
def copyAt (buf : Bytes) (pos n : Nat) : Parse Bytes :=
  if pos + n ≤ buf.length then .ok ((buf.drop pos).take n) else .error (some .outOfBounds)

/-- The search loop of `findCRLF` from its start on. -/
def findCRLFFrom : Bytes → Option Nat
  | a :: b :: rest =>
      if a = cr ∧ b = lf then some 0 else (findCRLFFrom (b :: rest)).map (· + 1)
  | _ => none

/-- `Aof::findCRLF`; `none` is `npos`. -/
def findCRLF (buf : Bytes) (start : Nat) : Option Nat :=
  (findCRLFFrom (buf.drop start)).map (start + ·)

/-- A header line: the mark, then the text up to the next `\r\n`; the result is the text and the
position behind the line. The source writes this out for `*` and for `$`. -/
def parseHeader (mark : UInt8) (buf : Bytes) (pos : Nat) : Parse (Bytes × Nat) := do
  require (need buf pos 1)
  let b ← byteAt buf pos
  require (b == mark)
  match findCRLF buf (pos + 1) with
  | none => .error none
  | some rn => .ok ((buf.drop (pos + 1)).take (rn - (pos + 1)), rn + 2)

/-- One round of the item loop. A negative length is the null bulk string, read as empty. -/
def parseBulk (buf : Bytes) (pos : Nat) : Parse (Bytes × Nat) := do
  let (lenstr, pos) ← parseHeader dollar buf pos
  let slen ← orFalse (stol lenstr)
  if slen < 0 then
    .ok ([], pos)
  else do
    let n := slen.toNat
    require (need buf pos (n + 2))
    let item ← copyAt buf pos n
    let pos := (pos + n) % 2 ^ 64
    require (need buf pos 2)
    let first ← byteAt buf pos
    let second ← byteAt buf (pos + 1)
    require (first == cr && second == lf)
    .ok (item, pos + 2)

/-- The item loop, for the rounds still to go. -/
def parseBulks (buf : Bytes) : Nat → Nat → Parse (List Bytes × Nat)
  | 0, pos => .ok ([], pos)
  | rounds + 1, pos => do
      let (item, pos) ← parseBulk buf pos
      let (items, pos) ← parseBulks buf rounds pos
      .ok (item :: items, pos)

/-- `vector<string>::max_size()`, for 32-byte strings. -/
def vectorMaxSize : Nat := (2 ^ 63 - 1) / 32

/-- `parts.reserve(num)`: the `int` is converted to `size_t`. -/
def reserve (num : Int) : Parse Unit :=
  if (num % 2 ^ 64).toNat ≤ vectorMaxSize then .ok () else .error (some .lengthError)

/-- `Aof::tryParseRESPArray`: the parts and the number of bytes consumed. -/
def tryParseRESPArray : Decoder UInt8 (List Bytes) Fault := fun buf => do
  let (numstr, pos) ← parseHeader star buf 0
  let num ← orFalse (stoi numstr)
  reserve num
  parseBulks buf num.toNat pos

/-- Below this length no sum of positions in the parser wraps: a declared length is at most
`2 ^ 63 - 1`. -/
def readable : Nat := 2 ^ 63 - 1

/-! ## Answers on a longer buffer -/

theorem require_ok {test : Bool} (passed : require test = .ok ()) : test = true := by
  unfold require at passed
  split at passed
  · assumption
  · cases passed

theorem need_append {buf : Bytes} (more : Bytes) {pos n : Nat} (enough : need buf pos n = true) :
    need (buf ++ more) pos n = true := by
  unfold need at enough ⊢
  rw [decide_eq_true_eq] at enough ⊢
  rw [List.length_append]
  omega

/-- Without a wrap the bounds check means what it says. -/
theorem le_of_need {buf : Bytes} {pos n : Nat} (enough : need buf pos n = true)
    (small : pos + n < 2 ^ 64) : pos + n ≤ buf.length := by
  unfold need at enough
  rw [decide_eq_true_eq, Nat.mod_eq_of_lt small] at enough
  exact enough

theorem need_settles (buf more : Bytes) (pos n : Nat) :
    Settles (require (need buf pos n)) (require (need (buf ++ more) pos n)) := by
  cases enough : need buf pos n with
  | false => exact Or.inl rfl
  | true => exact Or.inr (by rw [need_append more enough])

theorem byteAt_append {buf : Bytes} (more : Bytes) {pos : Nat} (inside : pos < buf.length) :
    byteAt (buf ++ more) pos = byteAt buf pos := by
  unfold byteAt
  rw [List.getElem?_append_left inside]

theorem copyAt_append {buf : Bytes} (more : Bytes) {pos n : Nat} (inside : pos + n ≤ buf.length) :
    copyAt (buf ++ more) pos n = copyAt buf pos n := by
  unfold copyAt
  rw [if_pos inside, if_pos (by rw [List.length_append]; omega),
    List.drop_append_of_le_length (by omega),
    List.take_append_of_le_length (by rw [List.length_drop]; omega)]

theorem findCRLFFrom_append {b : Bytes} (more : Bytes) {i : Nat}
    (found : findCRLFFrom b = some i) : findCRLFFrom (b ++ more) = some i := by
  induction b generalizing i with
  | nil => cases found
  | cons x b ih =>
      cases b with
      | nil => cases found
      | cons y rest =>
          rw [findCRLFFrom] at found
          rw [List.cons_append, List.cons_append, findCRLFFrom]
          split at found
          · rename_i crlf
            rw [if_pos crlf]
            exact found
          · rename_i other
            obtain ⟨j, later, rfl⟩ := Option.map_eq_some_iff.mp found
            rw [if_neg other, ← List.cons_append, ih later]
            rfl

theorem findCRLFFrom_bound {b : Bytes} {i : Nat} (found : findCRLFFrom b = some i) :
    i + 2 ≤ b.length := by
  induction b generalizing i with
  | nil => cases found
  | cons x b ih =>
      cases b with
      | nil => cases found
      | cons y rest =>
          rw [findCRLFFrom] at found
          split at found
          · cases found
            simp only [List.length_cons]
            omega
          · obtain ⟨j, later, rfl⟩ := Option.map_eq_some_iff.mp found
            have := ih later
            simp only [List.length_cons] at this ⊢
            omega

theorem findCRLF_bound {buf : Bytes} {start rn : Nat} (found : findCRLF buf start = some rn) :
    start ≤ rn ∧ rn + 2 ≤ buf.length := by
  obtain ⟨i, later, rfl⟩ := Option.map_eq_some_iff.mp found
  have := findCRLFFrom_bound later
  rw [List.length_drop] at this
  omega

theorem findCRLF_append {buf : Bytes} (more : Bytes) {start rn : Nat}
    (found : findCRLF buf start = some rn) : findCRLF (buf ++ more) start = some rn := by
  have inside := findCRLF_bound found
  obtain ⟨i, later, rfl⟩ := Option.map_eq_some_iff.mp found
  unfold findCRLF
  rw [List.drop_append_of_le_length (by omega), findCRLFFrom_append more later]
  rfl

/-- A header line that was read ends inside the buffer, behind its mark, its text and its `\r\n`. -/
theorem parseHeader_span {mark : UInt8} {buf : Bytes} {pos next : Nat} {text : Bytes}
    (read : parseHeader mark buf pos = .ok (text, next)) :
    next = pos + 3 + text.length ∧ next ≤ buf.length := by
  unfold parseHeader at read
  obtain ⟨_, _, read⟩ := ok_of_bind read
  obtain ⟨_, _, read⟩ := ok_of_bind read
  obtain ⟨_, _, read⟩ := ok_of_bind read
  split at read
  · cases read
  · rename_i rn found
    have inside := findCRLF_bound found
    cases read
    rw [List.length_take, List.length_drop]
    omega

theorem parseHeader_bound {mark : UInt8} {buf : Bytes} {pos next : Nat} {text : Bytes}
    (read : parseHeader mark buf pos = .ok (text, next)) :
    pos + 3 ≤ next ∧ next ≤ buf.length := by
  have span := parseHeader_span read
  omega

theorem parseHeader_settles (mark : UInt8) {buf : Bytes} (more : Bytes) {pos : Nat}
    (short : pos < readable) :
    Settles (parseHeader mark buf pos) (parseHeader mark (buf ++ more) pos) := by
  unfold readable at short
  unfold parseHeader
  refine Settles.bind (need_settles buf more pos 1) fun _ enough => ?_
  have inside := le_of_need (require_ok enough) (by omega)
  rw [byteAt_append more (by omega)]
  refine Settles.bind (Settles.refl _) fun _ _ => Settles.bind (Settles.refl _) fun _ _ => ?_
  cases found : findCRLF buf (pos + 1) with
  | none => exact Or.inl rfl
  | some rn =>
      have bound := findCRLF_bound found
      rw [findCRLF_append more found]
      refine Or.inr ?_
      dsimp only
      rw [List.drop_append_of_le_length (by omega),
        List.take_append_of_le_length (by rw [List.length_drop]; omega)]

theorem orFalse_ok {α : Type} {x : Except ConvError α} {a : α} (read : orFalse x = .ok a) :
    x = .ok a := by
  cases x with
  | ok b => cases read; rfl
  | error e => cases read

/-- An item that was read ends inside the buffer. -/
theorem parseBulk_bound {buf : Bytes} (short : buf.length < readable) {pos next : Nat}
    {item : Bytes} (read : parseBulk buf pos = .ok (item, next)) :
    pos < next ∧ next ≤ buf.length := by
  unfold readable at short
  unfold parseBulk at read
  obtain ⟨⟨text, body⟩, header, read⟩ := ok_of_bind read
  have bound := parseHeader_bound header
  obtain ⟨slen, length, read⟩ := ok_of_bind read
  have small := stol_lt (orFalse_ok length)
  dsimp only at read
  split at read
  · cases read
    omega
  · obtain ⟨_, enough, read⟩ := ok_of_bind read
    have inside := le_of_need (require_ok enough) (by omega)
    obtain ⟨_, _, read⟩ := ok_of_bind read
    obtain ⟨_, _, read⟩ := ok_of_bind read
    obtain ⟨_, _, read⟩ := ok_of_bind read
    obtain ⟨_, _, read⟩ := ok_of_bind read
    obtain ⟨_, _, read⟩ := ok_of_bind read
    cases read
    omega

theorem parseBulk_settles {buf : Bytes} (more : Bytes) (short : buf.length < readable) {pos : Nat}
    (inside : pos ≤ buf.length) : Settles (parseBulk buf pos) (parseBulk (buf ++ more) pos) := by
  unfold parseBulk
  refine Settles.bind (parseHeader_settles dollar more (by omega)) ?_
  intro line header
  rcases line with ⟨text, body⟩
  have bound := parseHeader_bound header
  unfold readable at short
  refine Settles.bind (Settles.refl _) fun slen length => ?_
  have small := stol_lt (orFalse_ok length)
  dsimp only
  split
  · exact Settles.refl _
  · refine Settles.bind (need_settles buf more body _) fun _ enough => ?_
    have room := le_of_need (require_ok enough) (by omega)
    rw [copyAt_append more (by omega), Nat.mod_eq_of_lt (by omega)]
    refine Settles.bind (Settles.refl _) fun _ _ => ?_
    refine Settles.bind (need_settles buf more _ 2) fun _ _ => ?_
    rw [byteAt_append more (by omega), byteAt_append more (by omega)]
    exact Settles.refl _

theorem parseBulks_bound {buf : Bytes} (short : buf.length < readable) {rounds pos next : Nat}
    {items : List Bytes} (inside : pos ≤ buf.length)
    (read : parseBulks buf rounds pos = .ok (items, next)) : pos ≤ next ∧ next ≤ buf.length := by
  induction rounds generalizing pos items next with
  | zero =>
      cases read
      exact ⟨Nat.le_refl _, inside⟩
  | succ rounds ih =>
      obtain ⟨⟨item, middle⟩, first, read⟩ := ok_of_bind read
      obtain ⟨⟨rest, last⟩, others, read⟩ := ok_of_bind read
      have head := parseBulk_bound short first
      have tail := ih head.2 others
      cases read
      omega

theorem parseBulks_settles {buf : Bytes} (more : Bytes) (short : buf.length < readable)
    {rounds pos : Nat} (inside : pos ≤ buf.length) :
    Settles (parseBulks buf rounds pos) (parseBulks (buf ++ more) rounds pos) := by
  induction rounds generalizing pos with
  | zero => exact Settles.refl _
  | succ rounds ih =>
      refine Settles.bind (parseBulk_settles more short inside) ?_
      intro bulk first
      rcases bulk with ⟨item, middle⟩
      have head := parseBulk_bound short first
      exact Settles.bind (ih head.2) fun _ _ => Settles.refl _

/-- **The parser is a stable decoder**: more bytes behind a frame, or behind bytes that make it
raise, change nothing. -/
theorem tryParseRESPArray_stable : Stable tryParseRESPArray readable where
  empty := by decide
  consumed := by
    intro buf parts n short read
    obtain ⟨⟨text, body⟩, header, read⟩ := ok_of_bind read
    have bound := parseHeader_bound header
    obtain ⟨_, _, read⟩ := ok_of_bind read
    obtain ⟨_, _, read⟩ := ok_of_bind read
    have items := parseBulks_bound short bound.2 read
    omega
  settled := by
    intro buf more short
    have shorter : buf.length < readable := by rw [List.length_append] at short; omega
    refine Settles.bind (parseHeader_settles star more (by decide)) ?_
    intro line header
    rcases line with ⟨text, body⟩
    have bound := parseHeader_bound header
    exact Settles.bind (Settles.refl _) fun _ _ => Settles.bind (Settles.refl _) fun _ _ =>
      parseBulks_settles more shorter bound.2

theorem length_of_parseBulks {buf : Bytes} {rounds pos next : Nat} {items : List Bytes}
    (read : parseBulks buf rounds pos = .ok (items, next)) : items.length = rounds := by
  induction rounds generalizing pos items next with
  | zero =>
      cases read
      rfl
  | succ rounds ih =>
      obtain ⟨⟨item, middle⟩, _, read⟩ := ok_of_bind read
      obtain ⟨⟨rest, last⟩, others, read⟩ := ok_of_bind read
      have tail := ih others
      cases read
      rw [List.length_cons, tail]

/-- The number of parts is an `int`: a longer command is never read back. -/
theorem tryParseRESPArray_count {buf : Bytes} {parts : List Bytes} {n : Nat}
    (read : tryParseRESPArray buf = .ok (parts, n)) : parts.length < 2 ^ 31 := by
  obtain ⟨⟨text, body⟩, _, read⟩ := ok_of_bind read
  obtain ⟨num, converted, read⟩ := ok_of_bind read
  obtain ⟨_, _, read⟩ := ok_of_bind read
  have bound := stoi_lt (orFalse_ok converted)
  have count := length_of_parseBulks read
  omega

/-! ## Frames -/

/-- A text without a line end: what stands between the mark of a header line and its `\r\n`. -/
def OneLine (text : Bytes) : Prop := ¬ [cr, lf] <:+: text

instance (text : Bytes) : Decidable (OneLine text) := inferInstanceAs (Decidable (¬ _))

/-- An item of an array with the text of its length: a null bulk string, or a bulk string and its
bytes. -/
inductive Item
  | null (text : Bytes)
  | bulk (text data : Bytes)
  deriving DecidableEq

def Item.bytes : Item → Bytes
  | .null text => headerLine dollar text
  | .bulk text data => headerLine dollar text ++ (data ++ [cr, lf])

/-- What the parser makes of an item. -/
def Item.part : Item → Bytes
  | .null _ => []
  | .bulk _ data => data

/-- The items the parser reads: `stol` converts the text to a negative number, or to the length of
the bytes. -/
inductive Item.Read : Item → Prop
  | null {text : Bytes} {slen : Int} (line : OneLine text) (length : stol text = .ok slen)
      (negative : slen < 0) : Item.Read (.null text)
  | bulk {text data : Bytes} (line : OneLine text)
      (length : stol text = .ok (data.length : Int)) : Item.Read (.bulk text data)

/-- The null bulk string of the protocol, `$-1\r\n`. -/
theorem Item.read_null : Item.Read (.null [45, 49]) := by
  have minusOne : stol [45, 49] = .ok (-1) := by decide
  exact .null (by decide) minusOne (by decide)

/-- An array with the text of its count. -/
structure Frame where
  text : Bytes
  items : List Item
  deriving DecidableEq

def Frame.bytes (f : Frame) : Bytes := headerLine star f.text ++ f.items.flatMap Item.bytes

def Frame.parts (f : Frame) : List Bytes := f.items.map Item.part

/-- The frames the parser reads. -/
structure Frame.Read (f : Frame) : Prop where
  line : OneLine f.text
  count : stoi f.text = .ok (f.items.length : Int)
  items : ∀ i ∈ f.items, i.Read

theorem Item.bytes_ne_nil (i : Item) : i.bytes ≠ [] := by
  cases i <;> simp [Item.bytes, headerLine]

theorem Frame.bytes_ne_nil (f : Frame) : f.bytes ≠ [] := by
  simp [Frame.bytes, headerLine]

/-! ## Reading a frame -/

theorem length_of_drop {buf xs rest : Bytes} {pos : Nat} (at_ : buf.drop pos = xs ++ rest)
    (some_ : xs ≠ []) : pos + xs.length ≤ buf.length := by
  have lengths := congrArg List.length at_
  have positive := List.length_pos_iff.mpr some_
  rw [List.length_drop, List.length_append] at lengths
  omega

theorem drop_of_drop {buf xs rest : Bytes} {pos : Nat} (at_ : buf.drop pos = xs ++ rest) :
    buf.drop (pos + xs.length) = rest := by
  rw [← List.drop_drop, at_, List.drop_left]

theorem need_of_drop {buf xs rest : Bytes} (short : buf.length < 2 ^ 64) {pos : Nat}
    (at_ : buf.drop pos = xs ++ rest) (some_ : xs ≠ []) : need buf pos xs.length = true := by
  have inside := length_of_drop at_ some_
  unfold need
  rw [decide_eq_true_eq, Nat.mod_eq_of_lt (by omega)]
  exact inside

theorem byteAt_of_drop {buf rest : Bytes} {pos : Nat} {b : UInt8} (at_ : buf.drop pos = b :: rest) :
    byteAt buf pos = .ok b := by
  have head : buf[pos]? = some b := by
    rw [← Nat.add_zero pos, ← List.getElem?_drop, at_]
    rfl
  unfold byteAt
  rw [head]

theorem copyAt_of_drop {buf xs rest : Bytes} {pos : Nat} (inside : pos + xs.length ≤ buf.length)
    (at_ : buf.drop pos = xs ++ rest) : copyAt buf pos xs.length = .ok xs := by
  unfold copyAt
  rw [if_pos inside, at_, List.take_left]

theorem OneLine.tail {b : UInt8} {text : Bytes} (line : OneLine (b :: text)) : OneLine text :=
  fun crlf => line (List.infix_cons crlf)

theorem findCRLFFrom_line {text : Bytes} (line : OneLine text) (rest : Bytes) :
    findCRLFFrom (text ++ cr :: lf :: rest) = some text.length := by
  induction text with
  | nil => rfl
  | cons b text ih =>
      have later := ih line.tail
      cases text with
      | nil =>
          rw [List.cons_append, List.nil_append, findCRLFFrom, if_neg (by simp [cr, lf])]
          rfl
      | cons c text =>
          have other : ¬ (b = cr ∧ c = lf) := by
            intro crlf
            apply line
            rw [crlf.1, crlf.2]
            exact (List.prefix_append [cr, lf] text).isInfix
          rw [List.cons_append, List.cons_append, findCRLFFrom, if_neg other, ← List.cons_append,
            later]
          rfl

/-- A header line at the position is read whole. -/
theorem parseHeader_line {mark : UInt8} {buf text rest : Bytes} (short : buf.length < 2 ^ 64)
    {pos : Nat} (at_ : buf.drop pos = headerLine mark text ++ rest) (oneLine : OneLine text) :
    parseHeader mark buf pos = .ok (text, pos + (headerLine mark text).length) := by
  have marked : buf.drop pos = [mark] ++ (text ++ cr :: lf :: rest) := by
    rw [at_]
    simp [headerLine]
  have enough : need buf pos 1 = true := need_of_drop short marked (by simp)
  have head : byteAt buf pos = .ok mark := byteAt_of_drop marked
  have line : buf.drop (pos + 1) = text ++ cr :: lf :: rest := drop_of_drop marked
  have found : findCRLF buf (pos + 1) = some (pos + 1 + text.length) := by
    unfold findCRLF
    rw [line, findCRLFFrom_line oneLine]
    rfl
  unfold parseHeader
  rw [enough, head, found]
  simp only [require, beq_self_eq_true, ↓reduceIte, bind, Except.bind]
  rw [line, Nat.add_sub_cancel_left, List.take_left, length_headerLine]
  congr 2
  omega

/-- An item at the position is read whole. -/
theorem parseBulk_item {buf rest : Bytes} (short : buf.length < 2 ^ 64) {i : Item} (read : i.Read)
    {pos : Nat} (at_ : buf.drop pos = i.bytes ++ rest) :
    parseBulk buf pos = .ok (i.part, pos + i.bytes.length) := by
  have whole := length_of_drop at_ i.bytes_ne_nil
  cases read with
  | null oneLine length negative =>
      unfold parseBulk
      rw [parseHeader_line short at_ oneLine]
      simp only [bind, Except.bind, orFalse, length, if_pos negative]
      rfl
  | @bulk text p oneLine length =>
      rw [Item.bytes, List.append_assoc] at at_
      have header := parseHeader_line short at_ oneLine
      have size : (Item.bulk text p).bytes.length =
          (headerLine dollar text).length + (p.length + 2) := by simp [Item.bytes]
      generalize headerLine dollar text = line at at_ header size
      have tailAt : buf.drop (pos + line.length) = (p ++ [cr, lf]) ++ rest := drop_of_drop at_
      have bodyAt : buf.drop (pos + line.length) = p ++ ([cr, lf] ++ rest) := by
        rw [tailAt, List.append_assoc]
      have closeAt : buf.drop (pos + line.length + p.length) = [cr, lf] ++ rest :=
        drop_of_drop bodyAt
      have lastAt : buf.drop (pos + line.length + p.length) = [cr] ++ lf :: rest := closeAt
      have enough : need buf (pos + line.length) (p.length + 2) = true := by
        simpa using need_of_drop short tailAt (by simp)
      have item := copyAt_of_drop (by omega) bodyAt
      have close : need buf (pos + line.length + p.length) 2 = true :=
        need_of_drop short closeAt (by simp)
      have first := byteAt_of_drop closeAt
      have second : byteAt buf (pos + line.length + p.length + 1) = .ok lf :=
        byteAt_of_drop (drop_of_drop lastAt)
      unfold parseBulk
      rw [header]
      simp only [bind, Except.bind, orFalse, length]
      rw [if_neg (by omega), Int.toNat_natCast, enough, Nat.mod_eq_of_lt (by omega), item]
      simp only [require, ↓reduceIte, close, first, second, beq_self_eq_true, Bool.and_self]
      rw [Item.part, size]
      congr 2
      omega

theorem parseBulks_items {buf rest : Bytes} (short : buf.length < 2 ^ 64) {items : List Item}
    (read : ∀ i ∈ items, i.Read) {pos : Nat}
    (at_ : buf.drop pos = items.flatMap Item.bytes ++ rest) :
    parseBulks buf items.length pos =
      .ok (items.map Item.part, pos + (items.flatMap Item.bytes).length) := by
  induction items generalizing pos with
  | nil => rfl
  | cons i items ih =>
      rw [List.flatMap_cons, List.append_assoc] at at_
      have first := parseBulk_item short (read i List.mem_cons_self) at_
      have others := ih (fun j member => read j (List.mem_cons_of_mem _ member)) (drop_of_drop at_)
      rw [List.length_cons, parseBulks, first]
      simp only [bind, Except.bind, others]
      rw [List.map_cons, List.flatMap_cons, List.length_append, Nat.add_assoc]

theorem reserve_natCast {n : Nat} (bound : n < 2 ^ 31) : reserve n = .ok () := by
  unfold reserve
  rw [if_pos (by unfold vectorMaxSize; omega)]

/-- A frame at the head of a buffer is read whole. -/
theorem tryParseRESPArray_frame {f : Frame} (read : f.Read) {rest : Bytes}
    (short : (f.bytes ++ rest).length < 2 ^ 64) :
    tryParseRESPArray (f.bytes ++ rest) = .ok (f.parts, f.bytes.length) := by
  have lineAt : (f.bytes ++ rest).drop 0 =
      headerLine star f.text ++ (f.items.flatMap Item.bytes ++ rest) := by
    rw [List.drop_zero, Frame.bytes, List.append_assoc]
  have header := parseHeader_line short lineAt read.line
  have items := parseBulks_items short read.items (drop_of_drop lineAt)
  have bound := stoi_lt read.count
  unfold tryParseRESPArray
  rw [header]
  simp only [bind, Except.bind, orFalse, read.count, reserve_natCast (Int.ofNat_lt.mp bound),
    Int.toNat_natCast]
  rw [items, Frame.bytes, List.length_append, Nat.zero_add]
  rfl

/-! ## Encoded frames -/

theorem decimal_oneLine (n : Nat) : OneLine (decimal n) := by
  intro crlf
  have digit : isDigit cr = true := isDigit_of_mem_decimal (crlf.subset List.mem_cons_self)
  cases digit

/-- The item of an encoded bulk string. -/
def Item.ofPart (p : Bytes) : Item := .bulk (decimal p.length) p

/-- The frame of an encoded command. -/
def Frame.ofParts (parts : List Bytes) : Frame := ⟨decimal parts.length, parts.map Item.ofPart⟩

theorem Frame.bytes_ofParts (parts : List Bytes) :
    (Frame.ofParts parts).bytes = serializeToRESP parts := by
  rw [Frame.bytes, Frame.ofParts, List.flatMap_map]
  rfl

theorem Frame.parts_ofParts (parts : List Bytes) : (Frame.ofParts parts).parts = parts := by
  simp [Frame.parts, Frame.ofParts, Item.ofPart, Item.part, Function.comp_def]

theorem Frame.read_ofParts {parts : List Bytes} (count : parts.length < 2 ^ 31)
    (each : ∀ p ∈ parts, p.length < 2 ^ 63) : (Frame.ofParts parts).Read where
  line := decimal_oneLine _
  count := by
    rw [Frame.ofParts, List.length_map]
    exact stoi_decimal count
  items := by
    intro i member
    obtain ⟨p, part, rfl⟩ := List.mem_map.mp member
    exact .bulk (decimal_oneLine _) (stol_decimal (each p part))

/-- **Round trip.** The parser reads an encoded command back and consumes exactly its frame. -/
theorem tryParseRESPArray_serializeToRESP {parts : List Bytes} (count : parts.length < 2 ^ 31)
    (short : (serializeToRESP parts).length < readable) :
    tryParseRESPArray (serializeToRESP parts) =
      .ok (parts, (serializeToRESP parts).length) := by
  have each : ∀ p ∈ parts, p.length < 2 ^ 63 := by
    intro p member
    obtain ⟨before, after, rfl⟩ := List.append_of_mem member
    simp only [serializeToRESP, List.flatMap_append, List.flatMap_cons, List.length_append,
      length_serializeBulk] at short
    unfold readable at short
    omega
  have within : ((Frame.ofParts parts).bytes ++ []).length < 2 ^ 64 := by
    rw [List.append_nil, Frame.bytes_ofParts]
    exact Nat.lt_trans short (by decide)
  have whole := tryParseRESPArray_frame (Frame.read_ofParts count each) within
  rwa [List.append_nil, Frame.bytes_ofParts, Frame.parts_ofParts] at whole

example : tryParseRESPArray (serializeToRESP [[83, 69, 84], [13, 10], []]) =
    .ok ([[83, 69, 84], [13, 10], []], 27) := by decide

end Blp.Aof

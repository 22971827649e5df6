import Blp.Aof.Resp

/-!
# The grammar of the log parser

`Frame.Grammatical` are the arrays of bulk strings as the protocol writes them, `Frame.Read` those
that `tryParseRESPArray` accepts (`tryParseRESPArray_eq_ok_iff`). The parser finds the end of a
header line by its `\r\n` and hands the text to `stoi` or `stol`, which pass over leading blanks, a
sign, and whatever stands behind the digits: the two agree where every header text is plain
(`readsGrammar_iff`).
-/

namespace Blp.Aof

open CString Framing

/-! ## What the parser accepts -/

theorem findCRLFFrom_eq_some {b : Bytes} {i : Nat} (found : findCRLFFrom b = some i) :
    ∃ text rest, b = text ++ cr :: lf :: rest ∧ OneLine text ∧ text.length = i := by
  induction b generalizing i with
  | nil => cases found
  | cons x b ih =>
      cases b with
      | nil => cases found
      | cons y b =>
          rw [findCRLFFrom] at found
          split at found
          · rename_i crlf
            cases found
            refine ⟨[], b, ?_, by decide, rfl⟩
            rw [crlf.1, crlf.2, List.nil_append]
          · rename_i other
            obtain ⟨j, later, rfl⟩ := Option.map_eq_some_iff.mp found
            obtain ⟨text, rest, split, line, rfl⟩ := ih later
            refine ⟨x :: text, rest, by rw [split, List.cons_append], ?_, rfl⟩
            intro crlf
            rcases List.infix_cons_iff.mp crlf with head | inside
            · cases text with
              | nil => exact absurd head.length_le (by simp)
              | cons c text =>
                  rw [List.cons_append, List.cons.injEq] at split
                  rcases List.cons_prefix_cons.mp head with ⟨first, second⟩
                  rcases List.cons_prefix_cons.mp second with ⟨second, -⟩
                  exact other ⟨first.symm, by rw [split.1, ← second]⟩
            · exact line inside

theorem byteAt_ok {buf : Bytes} {pos : Nat} {b : UInt8} (read : byteAt buf pos = .ok b) :
    ∃ rest, buf.drop pos = b :: rest := by
  unfold byteAt at read
  split at read
  · rename_i there
    cases read
    obtain ⟨inside, there⟩ := List.getElem?_eq_some_iff.mp there
    exact ⟨_, by rw [List.drop_eq_getElem_cons inside, there]⟩
  · cases read

/-- A header line that was read stands at the position. -/
theorem parseHeader_ok {mark : UInt8} {buf text : Bytes} {pos next : Nat}
    (read : parseHeader mark buf pos = .ok (text, next)) :
    OneLine text ∧ next = pos + (headerLine mark text).length ∧
      ∃ rest, buf.drop pos = headerLine mark text ++ rest := by
  unfold parseHeader at read
  obtain ⟨_, -, read⟩ := ok_of_bind read
  obtain ⟨b, head, read⟩ := ok_of_bind read
  obtain ⟨_, marked, read⟩ := ok_of_bind read
  obtain ⟨behind, front⟩ := byteAt_ok head
  rw [eq_of_beq (require_ok marked)] at front
  split at read
  · cases read
  · rename_i rn found
    obtain ⟨i, later, rfl⟩ := Option.map_eq_some_iff.mp found
    obtain ⟨line, rest, split, oneLine, rfl⟩ := findCRLFFrom_eq_some later
    rw [Nat.add_sub_cancel_left, split, List.take_left] at read
    cases read
    refine ⟨oneLine, ?_, rest, ?_⟩
    · rw [length_headerLine]
      omega
    · have tail : buf.drop (pos + 1) = behind :=
        drop_of_drop (show buf.drop pos = [mark] ++ behind from front)
      rw [front, ← tail, split]
      simp [headerLine]

theorem copyAt_ok {buf item : Bytes} {pos n : Nat} (read : copyAt buf pos n = .ok item) :
    pos + n ≤ buf.length ∧ item.length = n ∧ buf.drop pos = item ++ buf.drop (pos + n) := by
  unfold copyAt at read
  split at read
  · rename_i inside
    cases read
    refine ⟨inside, ?_, ?_⟩
    · rw [List.length_take, List.length_drop]
      omega
    · rw [← List.drop_drop, List.take_append_drop]
  · cases read

/-- An item that was read stands at the position. -/
theorem parseBulk_ok {buf : Bytes} (short : buf.length < 2 ^ 64) {pos next : Nat} {item : Bytes}
    (read : parseBulk buf pos = .ok (item, next)) :
    ∃ i : Item, i.Read ∧ i.part = item ∧ next = pos + i.bytes.length ∧
      ∃ rest, buf.drop pos = i.bytes ++ rest := by
  unfold parseBulk at read
  obtain ⟨⟨text, body⟩, header, read⟩ := ok_of_bind read
  obtain ⟨oneLine, rfl, rest, at_⟩ := parseHeader_ok header
  obtain ⟨slen, converted, read⟩ := ok_of_bind read
  have length := orFalse_ok converted
  dsimp only at read
  split at read
  · rename_i negative
    cases read
    exact ⟨.null text, .null oneLine length negative, rfl, rfl, rest, at_⟩
  · obtain ⟨_, _, read⟩ := ok_of_bind read
    obtain ⟨data, copied, read⟩ := ok_of_bind read
    obtain ⟨_, _, read⟩ := ok_of_bind read
    obtain ⟨first, firstAt, read⟩ := ok_of_bind read
    obtain ⟨second, secondAt, read⟩ := ok_of_bind read
    obtain ⟨_, closed, read⟩ := ok_of_bind read
    cases read
    -- `need` may have wrapped, but the bytes it let through were there
    obtain ⟨inside, size, dataAt⟩ := copyAt_ok copied
    rw [Nat.mod_eq_of_lt (by omega)] at firstAt secondAt ⊢
    obtain ⟨tail, firstAt⟩ := byteAt_ok firstAt
    obtain ⟨rest', secondAt⟩ := byteAt_ok secondAt
    have crlf := require_ok closed
    rw [Bool.and_eq_true, beq_iff_eq, beq_iff_eq] at crlf
    rw [← List.drop_drop, firstAt] at secondAt
    have behind : tail = lf :: rest' := by
      rw [← crlf.2]
      exact secondAt
    refine ⟨.bulk text item, .bulk oneLine ?_, rfl, ?_, rest', ?_⟩
    · rw [size, length]
      congr 1
      omega
    · simp only [Item.bytes, List.length_append, size, List.length_cons, List.length_nil]
      omega
    · have body : buf.drop (pos + (headerLine dollar text).length) = rest := drop_of_drop at_
      rw [at_, ← body, dataAt, firstAt, crlf.1, behind]
      simp [Item.bytes]

theorem parseBulks_ok {buf : Bytes} (short : buf.length < 2 ^ 64) {rounds pos next : Nat}
    {parts : List Bytes} (read : parseBulks buf rounds pos = .ok (parts, next)) :
    ∃ items : List Item, items.length = rounds ∧ (∀ i ∈ items, i.Read) ∧
      items.map Item.part = parts ∧ next = pos + (items.flatMap Item.bytes).length ∧
      ∃ rest, buf.drop pos = items.flatMap Item.bytes ++ rest := by
  induction rounds generalizing pos parts next with
  | zero =>
      cases read
      exact ⟨[], rfl, nofun, rfl, rfl, buf.drop pos, rfl⟩
  | succ rounds ih =>
      obtain ⟨⟨item, middle⟩, first, read⟩ := ok_of_bind read
      obtain ⟨⟨others, last⟩, later, read⟩ := ok_of_bind read
      obtain ⟨i, readFirst, rfl, rfl, rest, at_⟩ := parseBulk_ok short first
      obtain ⟨items, rfl, readOthers, rfl, rfl, rest', behind⟩ := ih later
      cases read
      refine ⟨i :: items, rfl, List.forall_mem_cons.mpr ⟨readFirst, readOthers⟩, rfl, ?_, rest', ?_⟩
      · rw [List.flatMap_cons, List.length_append, Nat.add_assoc]
      · rw [at_, ← drop_of_drop at_, behind, List.flatMap_cons, List.append_assoc]

theorem nonneg_of_reserve {num : Int} (low : -2 ^ 31 ≤ num) (room : reserve num = .ok ()) :
    0 ≤ num := by
  unfold reserve vectorMaxSize at room
  split at room
  · omega
  · cases room

/-- **What the parser accepts**: a frame with header texts that `stoi` and `stol` convert. -/
theorem tryParseRESPArray_eq_ok_iff {buf : Bytes} (short : buf.length < 2 ^ 64)
    {parts : List Bytes} {n : Nat} :
    tryParseRESPArray buf = .ok (parts, n) ↔
      ∃ f : Frame, f.Read ∧ f.parts = parts ∧ f.bytes.length = n ∧ f.bytes <+: buf := by
  constructor
  · intro read
    obtain ⟨⟨text, body⟩, header, read⟩ := ok_of_bind read
    obtain ⟨oneLine, rfl, rest, at_⟩ := parseHeader_ok header
    obtain ⟨num, converted, read⟩ := ok_of_bind read
    have count := orFalse_ok converted
    obtain ⟨_, room, read⟩ := ok_of_bind read
    have positive := nonneg_of_reserve (stoi_eq_ok_iff.mp count).2.1 room
    obtain ⟨items, size, readItems, rfl, rfl, rest', behind⟩ := parseBulks_ok short read
    refine ⟨⟨text, items⟩, ⟨oneLine, ?_, readItems⟩, rfl, ?_, rest', ?_⟩
    · rw [count, size, Int.toNat_of_nonneg positive]
    · rw [Frame.bytes, List.length_append, Nat.zero_add]
    · rw [Frame.bytes, List.append_assoc, ← behind, drop_of_drop at_, ← at_, List.drop_zero]
  · intro frame
    obtain ⟨f, read, rfl, rfl, rest, rfl⟩ := frame
    exact tryParseRESPArray_frame read short

/-! ## A buffer begins with one frame at most -/

theorem headerLine_inj {mark : UInt8} {text text' rest rest' : Bytes} (line : OneLine text)
    (line' : OneLine text')
    (same : headerLine mark text ++ rest = headerLine mark text' ++ rest') :
    text = text' ∧ rest = rest' := by
  simp only [headerLine, List.cons_append, List.append_assoc, List.nil_append,
    List.cons.injEq, true_and] at same
  have found := findCRLFFrom_line line rest
  rw [same, findCRLFFrom_line line' rest'] at found
  have halves := List.append_inj same (Option.some_inj.mp found).symm
  refine ⟨halves.1, ?_⟩
  simpa using halves.2

theorem Item.Read.line {i : Item} (read : i.Read) :
    ∃ text rest, OneLine text ∧ i.bytes = headerLine dollar text ++ rest := by
  cases read with
  | null line => exact ⟨_, [], line, (List.append_nil _).symm⟩
  | bulk line => exact ⟨_, _, line, rfl⟩

theorem Item.Read.inj {i j : Item} (left : i.Read) (right : j.Read) {rest rest' : Bytes}
    (same : i.bytes ++ rest = j.bytes ++ rest') : i = j ∧ rest = rest' := by
  cases left with
  | @null text slen line length negative =>
      cases right with
      | null line' =>
          obtain ⟨rfl, tails⟩ := headerLine_inj line line' same
          exact ⟨rfl, tails⟩
      | bulk line' length' =>
          simp only [Item.bytes, List.append_assoc] at same
          obtain ⟨rfl, -⟩ := headerLine_inj line line' same
          rw [length] at length'
          cases length'
          omega
  | @bulk text data line length =>
      cases right with
      | null line' length' negative =>
          simp only [Item.bytes, List.append_assoc] at same
          obtain ⟨rfl, -⟩ := headerLine_inj line line' same
          rw [length] at length'
          cases length'
          omega
      | @bulk _ data' line' length' =>
          simp only [Item.bytes, List.append_assoc] at same
          obtain ⟨rfl, bodies⟩ := headerLine_inj line line' same
          rw [length, Except.ok.injEq, Int.natCast_inj] at length'
          obtain ⟨rfl, tails⟩ := List.append_inj bodies length'
          exact ⟨rfl, List.append_cancel_left tails⟩

theorem items_inj {items items' : List Item} (size : items.length = items'.length)
    (left : ∀ i ∈ items, i.Read) (right : ∀ i ∈ items', i.Read) {rest rest' : Bytes}
    (same : items.flatMap Item.bytes ++ rest = items'.flatMap Item.bytes ++ rest') :
    items = items' := by
  induction items generalizing items' with
  | nil =>
      cases items' with
      | nil => rfl
      | cons j items' => cases size
  | cons i items ih =>
      cases items' with
      | nil => cases size
      | cons j items' =>
          rw [List.flatMap_cons, List.flatMap_cons, List.append_assoc, List.append_assoc] at same
          obtain ⟨rfl, tails⟩ := (left i List.mem_cons_self).inj (right j List.mem_cons_self) same
          rw [ih (Nat.succ.inj size) (fun k member => left k (List.mem_cons_of_mem _ member))
            (fun k member => right k (List.mem_cons_of_mem _ member)) tails]

theorem Frame.Read.unique {f g : Frame} (left : f.Read) (right : g.Read) {buf : Bytes}
    (before : f.bytes <+: buf) (before' : g.bytes <+: buf) : f = g := by
  obtain ⟨rest, rfl⟩ := before
  obtain ⟨rest', same⟩ := before'
  rcases f with ⟨text, items⟩
  rcases g with ⟨text', items'⟩
  rw [Frame.bytes, Frame.bytes, List.append_assoc, List.append_assoc] at same
  obtain ⟨rfl, tails⟩ := headerLine_inj right.line left.line same
  have counts := left.count.symm.trans right.count
  rw [Except.ok.injEq, Int.natCast_inj] at counts
  obtain rfl : items = items' := items_inj counts left.items right.items tails.symm
  rfl

/-! ## The grammar -/

/-- A decimal number, written with digits only. -/
structure Numeral (text : Bytes) (n : Nat) : Prop where
  some_ : text ≠ []
  digits : ∀ b ∈ text, isDigit b = true
  value : digitsValue text = n

/-- `$`, a decimal length, `\r\n`, that many bytes, `\r\n`; or `$-1\r\n`. -/
inductive Item.Grammatical : Item → Prop
  | null : Item.Grammatical (.null [45, 49])
  | bulk {text data : Bytes} (length : Numeral text data.length)
      (bound : data.length ≤ 2 ^ 63 - 1) : Item.Grammatical (.bulk text data)

/-- `*`, a decimal count, `\r\n`, and that many items. -/
structure Frame.Grammatical (f : Frame) : Prop where
  count : Numeral f.text f.items.length
  bound : f.items.length ≤ 2 ^ 31 - 1
  items : ∀ i ∈ f.items, i.Grammatical

/-- An item whose header text is a numeral, or `-1` for the null bulk string. -/
def Item.Plain : Item → Prop
  | .null text => text = [45, 49]
  | .bulk text _ => ∀ b ∈ text, isDigit b = true

/-- A frame whose header texts are numerals, or `-1` for a null bulk string. -/
structure Frame.Plain (f : Frame) : Prop where
  count : ∀ b ∈ f.text, isDigit b = true
  items : ∀ i ∈ f.items, i.Plain

theorem oneLine_of_digits {text : Bytes} (digits : ∀ b ∈ text, isDigit b = true) :
    OneLine text := by
  intro crlf
  have digit : isDigit cr = true := digits cr (crlf.subset List.mem_cons_self)
  cases digit

theorem numeral_iff {text : Bytes} {n : Nat} :
    Numeral text n ∧ n < 2 ^ 63 ↔
      stol text = .ok (n : Int) ∧ ∀ b ∈ text, isDigit b = true := by
  constructor
  · intro number
    obtain ⟨⟨some_, digits, rfl⟩, bound⟩ := number
    exact ⟨(stol_digits_iff digits).mpr ⟨some_, bound, rfl⟩, digits⟩
  · intro read
    obtain ⟨some_, bound, value⟩ := (stol_digits_iff read.2).mp read.1
    have same := Int.ofNat_inj.mp value
    exact ⟨⟨some_, read.2, same.symm⟩, same ▸ bound⟩

theorem Item.grammatical_iff (i : Item) : i.Grammatical ↔ i.Read ∧ i.Plain := by
  constructor
  · intro grammatical
    cases grammatical with
    | null => exact ⟨read_null, rfl⟩
    | bulk length bound =>
        have read := numeral_iff.mp ⟨length, by omega⟩
        exact ⟨.bulk (oneLine_of_digits read.2) read.1, read.2⟩
  · intro accepted
    obtain ⟨read, plain⟩ := accepted
    cases read with
    | @null text =>
        obtain rfl : text = [45, 49] := plain
        exact .null
    | bulk _ length =>
        obtain ⟨number, bound⟩ := numeral_iff.mpr ⟨length, plain⟩
        exact .bulk number (by omega)

/-- **The grammar is what is accepted with plain header texts.** -/
theorem Frame.grammatical_iff (f : Frame) : f.Grammatical ↔ f.Read ∧ f.Plain := by
  have items : (∀ i ∈ f.items, i.Grammatical) ↔
      (∀ i ∈ f.items, i.Read) ∧ ∀ i ∈ f.items, i.Plain := by
    simp only [Item.grammatical_iff]
    exact ⟨fun all => ⟨fun i member => (all i member).1, fun i member => (all i member).2⟩,
      fun all i member => ⟨all.1 i member, all.2 i member⟩⟩
  constructor
  · intro grammatical
    have read := numeral_iff.mp ⟨grammatical.count, by have := grammatical.bound; omega⟩
    have each := items.mp grammatical.items
    have bound := grammatical.bound
    exact ⟨⟨oneLine_of_digits read.2, stoi_eq_ok_iff.mpr ⟨read.1, by omega, by omega⟩, each.1⟩,
      read.2, each.2⟩
  · intro accepted
    obtain ⟨read, plain⟩ := accepted
    obtain ⟨count, -, bound⟩ := stoi_eq_ok_iff.mp read.count
    obtain ⟨number, -⟩ := numeral_iff.mpr ⟨count, plain.count⟩
    exact ⟨number, by omega, items.mpr ⟨read.items, plain.items⟩⟩

/-! ## Where the parser accepts exactly the grammar -/

/-- On this buffer the parser returns true exactly for the arrays of the grammar. -/
def ReadsGrammar (buf : Bytes) : Prop :=
  ∀ parts n, tryParseRESPArray buf = .ok (parts, n) ↔
    ∃ f : Frame, f.Grammatical ∧ f.parts = parts ∧ f.bytes = buf.take n ∧ n ≤ buf.length

/-- A frame without a null bulk string and without a leading zero in any number. -/
structure Frame.Canonical (f : Frame) : Prop where
  count : NoLeadingZero f.text
  items : ∀ i ∈ f.items, ∃ text data, i = .bulk text data ∧ NoLeadingZero text

theorem bytes_eq_take_iff {bytes buf : Bytes} {n : Nat} :
    bytes = buf.take n ∧ n ≤ buf.length ↔ bytes.length = n ∧ bytes <+: buf := by
  constructor
  · intro head
    obtain ⟨rfl, inside⟩ := head
    exact ⟨List.length_take_of_le inside, List.take_prefix _ _⟩
  · intro head
    obtain ⟨rfl, rest, rfl⟩ := head
    exact ⟨List.take_left.symm, by rw [List.length_append]; exact Nat.le_add_right _ _⟩

theorem ReadsGrammar.plain {buf : Bytes} (exact_ : ReadsGrammar buf)
    (short : buf.length < 2 ^ 64) {f : Frame} (read : f.Read) (before : f.bytes <+: buf) :
    f.Plain := by
  have accepted := (tryParseRESPArray_eq_ok_iff short).mpr ⟨f, read, rfl, rfl, before⟩
  obtain ⟨g, grammatical, -, head⟩ := (exact_ _ _).mp accepted
  have strict := (Frame.grammatical_iff g).mp grammatical
  rw [read.unique strict.1 before (bytes_eq_take_iff.mp head).2]
  exact strict.2

theorem Numeral.decimal {text : Bytes} {n : Nat} (number : Numeral text n)
    (noZero : NoLeadingZero text) : CString.decimal n = text := by
  rw [← number.value]
  exact decimal_digitsValue number.some_ number.digits noZero

/-- Without null items and leading zeros a frame of the grammar is an encoded command. -/
theorem Frame.Grammatical.bytes_eq {f : Frame} (grammatical : f.Grammatical)
    (canonical : f.Canonical) : f.bytes = serializeToRESP f.parts := by
  have items : f.items.map Item.bytes = f.items.map fun i => serializeBulk i.part := by
    apply List.map_congr_left
    intro i member
    obtain ⟨text, data, rfl, noZero⟩ := canonical.items i member
    cases grammatical.items _ member with
    | bulk length bound =>
        rw [Item.part, serializeBulk, length.decimal noZero]
        rfl
  rw [Frame.bytes, serializeToRESP, Frame.parts, List.length_map,
    grammatical.count.decimal canonical.count, List.flatMap_map, List.flatMap_def,
    List.flatMap_def, items]

/-- **When the parser accepts exactly its grammar**: unless the buffer begins with a frame one of
whose header texts is converted though it is not a plain number. -/
theorem readsGrammar_iff {buf : Bytes} (short : buf.length < 2 ^ 64) :
    (ReadsGrammar buf ↔ ∀ f : Frame, f.Read → f.bytes <+: buf → f.Plain) ∧
      ∀ f : Frame, f.Grammatical → f.Canonical → f.bytes = serializeToRESP f.parts := by
  refine ⟨⟨fun exact_ f read before => exact_.plain short read before, ?_⟩,
    fun f grammatical canonical => grammatical.bytes_eq canonical⟩
  intro plain parts n
  rw [tryParseRESPArray_eq_ok_iff short]
  constructor
  · intro accepted
    obtain ⟨f, read, same, head⟩ := accepted
    exact ⟨f, (Frame.grammatical_iff f).mpr ⟨read, plain f read head.2⟩, same,
      bytes_eq_take_iff.mpr head⟩
  · intro listed
    obtain ⟨f, grammatical, same, head⟩ := listed
    exact ⟨f, ((Frame.grammatical_iff f).mp grammatical).1, same, bytes_eq_take_iff.mp head⟩

/-- A buffer that begins with an encoded command. -/
theorem readsGrammar_encoded : ReadsGrammar (serializeToRESP [[97], []] ++ [42]) := by
  have encoded : (Frame.ofParts [[97], []]).Read := Frame.read_ofParts (by decide) (by decide)
  have before : (Frame.ofParts [[97], []]).bytes <+: serializeToRESP [[97], []] ++ [42] := by
    rw [Frame.bytes_ofParts]
    exact List.prefix_append _ _
  apply (readsGrammar_iff (by decide)).1.mpr
  intro f read head
  rw [read.unique encoded head before]
  exact ⟨fun b digit => isDigit_of_mem_decimal digit, fun i member => by
    simp only [Frame.ofParts, List.map_cons, List.map_nil, List.mem_cons, List.not_mem_nil,
      or_false] at member
    rcases member with rfl | rfl <;> exact fun b digit => isDigit_of_mem_decimal digit⟩

/-- `*1x`, `\r\n`, and one bulk string. -/
def lenient : Frame := ⟨[49, 120], [.bulk [49] [97]]⟩

/-- The count `1x` is read as `1`. -/
theorem not_readsGrammar_lenient :
    tryParseRESPArray lenient.bytes = .ok ([[97]], 12) ∧ ¬ ReadsGrammar lenient.bytes := by
  refine ⟨by decide, fun exact_ => ?_⟩
  have read : lenient.Read := by
    refine ⟨by decide, by decide, ?_⟩
    intro i member
    obtain rfl := List.mem_singleton.mp member
    exact .bulk (by decide) (by decide)
  have plain := exact_.plain (by decide) read (List.prefix_refl _)
  exact absurd (plain.count 120 (by decide)) (by decide)

end Blp.Aof

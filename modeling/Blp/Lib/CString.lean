import Mathlib.Data.List.TakeWhile
import Mathlib.Data.UInt

/-!
# Byte strings and the decimal conversions of the C++ library

A `std::string` is the list of its bytes. `decimal` is `std::to_string` on an unsigned value;
`stoi`, `stol` and `stoull` are the conversions of `<string>` in base ten, which take the longest
numeral after leading white space and an optional sign and ignore whatever follows it.

* `scan_decimal_append`: a rendered number followed by anything that is not a digit is read back as
  that number.
* `decimal_digitsValue`: the number that a text of digits without a leading zero denotes is rendered
  as that text.
* `scan_front`: what a text that is scanned begins with is scanned as well, as a number no larger,
  or holds no digit yet.
-/

namespace CString

/-- The bytes of a `std::string`. -/
abbrev Bytes := List UInt8

/-- `isspace` in the "C" locale: the blank and `\t \n \v \f \r`. -/
def isSpace (c : UInt8) : Bool := c == 32 || (9 ≤ c && c ≤ 13)

def isDigit (c : UInt8) : Bool := 48 ≤ c && c ≤ 57

def digitByte (c : Char) : UInt8 := c.toNat.toUInt8

/-- `std::to_string` of an unsigned integer. -/
def decimal (n : Nat) : Bytes := (Nat.toDigits 10 n).map digitByte

/-- The number a run of decimal digits denotes. -/
def digitsValue (ds : Bytes) : Nat := ds.foldl (fun v d => 10 * v + (d.toNat - 48)) 0

/-- What `strtol` and `strtoull` read in base ten: white space, an optional sign, then digits.
The result is the sign and the magnitude, or nothing when there is no digit. -/
def scan (s : Bytes) : Option (Bool × Nat) :=
  let s := s.dropWhile isSpace
  let signed : Bool × Bytes := match s with
    | 45 :: t => (true, t)
    | 43 :: t => (false, t)
    | t => (false, t)
  let ds := signed.2.takeWhile isDigit
  if ds = [] then none else some (signed.1, digitsValue ds)

/-- The two exceptions the conversions of `<string>` raise. -/
inductive ConvError
  | invalidArgument
  | outOfRange
  deriving DecidableEq, Repr

def signedValue : Bool × Nat → Int
  | (true, magnitude) => -magnitude
  | (false, magnitude) => magnitude

/-- `std::stol` (64-bit `long`). -/
def stol (s : Bytes) : Except ConvError Int :=
  match scan s with
  | none => .error .invalidArgument
  | some r =>
      if -2 ^ 63 ≤ signedValue r ∧ signedValue r < 2 ^ 63 then .ok (signedValue r)
      else .error .outOfRange

/-- `std::stoll`, which reads as `std::stol` does. -/
def stoll (s : Bytes) : Except ConvError Int := stol s

/-- `std::stoi` (32-bit `int`): `strtol`, then the range check of `int`. -/
def stoi (s : Bytes) : Except ConvError Int := do
  let v ← stol s
  if -2 ^ 31 ≤ v ∧ v < 2 ^ 31 then .ok v else .error .outOfRange

/-- `std::stoull`: a minus sign negates the magnitude modulo `2 ^ 64`. -/
def stoull (s : Bytes) : Except ConvError UInt64 :=
  match scan s with
  | none => .error .invalidArgument
  | some (negative, magnitude) =>
      if magnitude < 2 ^ 64 then
        .ok (if negative then -UInt64.ofNat magnitude else UInt64.ofNat magnitude)
      else .error .outOfRange

/-! ## Rendering -/

theorem bounds_of_isDigit {c : Char} (digit : c.isDigit) : 48 ≤ c.toNat ∧ c.toNat ≤ 57 := by
  simp only [Char.isDigit, ge_iff_le, Bool.and_eq_true, decide_eq_true_eq,
    UInt32.le_iff_toNat_le] at digit
  exact digit

theorem toNat_digitByte {c : Char} (digit : c.isDigit) : (digitByte c).toNat = c.toNat := by
  have bounds := bounds_of_isDigit digit
  change (UInt8.ofNat c.toNat).toNat = c.toNat
  rw [UInt8.toNat_ofNat']
  omega

theorem isDigit_digitByte {c : Char} (digit : c.isDigit) : isDigit (digitByte c) = true := by
  have bounds := bounds_of_isDigit digit
  simp only [isDigit, Bool.and_eq_true, decide_eq_true_eq, UInt8.le_iff_toNat_le,
    toNat_digitByte digit]
  exact bounds

theorem isDigit_of_mem_decimal {n : Nat} {b : UInt8} (member : b ∈ decimal n) :
    isDigit b = true := by
  obtain ⟨c, digit, rfl⟩ := List.mem_map.mp member
  exact isDigit_digitByte (Nat.isDigit_of_mem_toDigits (by decide) (by decide) digit)

theorem decimal_ne_nil (n : Nat) : decimal n ≠ [] := by
  simp [decimal]

theorem digitsValue_map_digitByte {cs : List Char} (digits : ∀ c ∈ cs, c.isDigit) (init : Nat) :
    (cs.map digitByte).foldl (fun v d => 10 * v + (d.toNat - 48)) init =
      Nat.ofDigitChars 10 cs init := by
  induction cs generalizing init with
  | nil => rfl
  | cons c cs ih =>
      rw [List.map_cons, List.foldl_cons, Nat.ofDigitChars_cons,
        toNat_digitByte (digits c List.mem_cons_self)]
      exact ih (fun d member => digits d (List.mem_cons_of_mem _ member)) _

theorem digitsValue_decimal (n : Nat) : digitsValue (decimal n) = n := by
  rw [digitsValue, decimal, digitsValue_map_digitByte
    (fun c member => Nat.isDigit_of_mem_toDigits (by decide) (by decide) member)]
  exact Nat.ofDigitChars_ten_toDigits

/-! ## Reading back -/

theorem not_isSpace_of_isDigit {b : UInt8} (digit : isDigit b = true) : isSpace b = false := by
  simp only [isDigit, isSpace, Bool.and_eq_true, decide_eq_true_eq, UInt8.le_iff_toNat_le,
    UInt8.reduceToNat, Bool.or_eq_false_iff, beq_eq_false_iff_ne, ne_eq, Bool.and_eq_false_iff,
    decide_eq_false_iff_not, ← UInt8.toNat_inj] at digit ⊢
  omega

/-- A text that starts with a digit is scanned from that digit on, without a sign. -/
theorem scan_of_isDigit {d : UInt8} {t : Bytes} (digit : isDigit d = true) :
    scan (d :: t) = some (false, digitsValue ((d :: t).takeWhile isDigit)) := by
  have plus : d ≠ 43 := by rintro rfl; cases digit
  have minus : d ≠ 45 := by rintro rfl; cases digit
  simp only [scan, List.dropWhile_cons, not_isSpace_of_isDigit digit, Bool.false_eq_true,
    ↓reduceIte]
  split <;> rename_i heq
  · cases heq; exact (minus rfl).elim
  · cases heq; exact (plus rfl).elim
  · rw [if_neg]
    simp [digit]

/-- **Round trip.** A rendered number is read back, up to whatever follows its last digit. -/
theorem scan_decimal_append (n : Nat) {rest : Bytes} (stop : ∀ b ∈ rest.head?, isDigit b = false) :
    scan (decimal n ++ rest) = some (false, n) := by
  have taken : (decimal n ++ rest).takeWhile isDigit = decimal n := by
    rw [List.takeWhile_append_of_pos fun b => isDigit_of_mem_decimal]
    cases rest with
    | nil => simp
    | cons b rest => simp [stop b rfl]
  cases render : decimal n with
  | nil => exact (decimal_ne_nil n render).elim
  | cons d t =>
      have digit : isDigit d = true := isDigit_of_mem_decimal (render ▸ List.mem_cons_self)
      rw [render] at taken
      rw [List.cons_append, scan_of_isDigit digit, ← List.cons_append, taken, ← render,
        digitsValue_decimal]

theorem stol_decimal {n : Nat} (bound : n < 2 ^ 63) : stol (decimal n) = .ok (n : Int) := by
  have read : scan (decimal n ++ []) = some (false, n) := scan_decimal_append n (by simp)
  rw [List.append_nil] at read
  unfold stol
  rw [read]
  exact if_pos ⟨by simp only [signedValue]; omega, by simp only [signedValue]; omega⟩

/-- `stol` takes what is scanned, if it fits. -/
theorem stol_eq_ok_iff {s : Bytes} {v : Int} :
    stol s = .ok v ↔ (∃ r, scan s = some r ∧ signedValue r = v) ∧ -2 ^ 63 ≤ v ∧ v < 2 ^ 63 := by
  unfold stol
  cases read : scan s with
  | none => simp
  | some r =>
      by_cases range : -2 ^ 63 ≤ signedValue r ∧ signedValue r < 2 ^ 63
      · simp only [if_pos range, Except.ok.injEq, Option.some.injEq, exists_eq_left']
        exact ⟨fun equal => ⟨equal, equal ▸ range⟩, And.left⟩
      · simp only [if_neg range, Option.some.injEq, exists_eq_left', reduceCtorEq, false_iff]
        rintro ⟨rfl, inside⟩
        exact range inside

theorem stol_lt {s : Bytes} {v : Int} (read : stol s = .ok v) : v < 2 ^ 63 :=
  (stol_eq_ok_iff.mp read).2.2

theorem stoi_eq_ok_iff {s : Bytes} {v : Int} :
    stoi s = .ok v ↔ stol s = .ok v ∧ -2 ^ 31 ≤ v ∧ v < 2 ^ 31 := by
  cases wide : stol s with
  | error e => simp [stoi, wide, bind, Except.bind]
  | ok w =>
      simp only [stoi, wide, bind, Except.bind, Except.ok.injEq]
      constructor
      · intro read
        split at read
        · rename_i range
          cases read
          exact ⟨rfl, range⟩
        · cases read
      · intro range
        obtain ⟨rfl, range⟩ := range
        rw [if_pos range]

theorem stoi_decimal {n : Nat} (bound : n < 2 ^ 31) : stoi (decimal n) = .ok (n : Int) := by
  simp only [stoi, stol_decimal (show n < 2 ^ 63 by omega), bind, Except.bind]
  rw [if_pos ⟨by omega, by omega⟩]

theorem stoi_lt {s : Bytes} {v : Int} (read : stoi s = .ok v) : v < 2 ^ 31 :=
  (stoi_eq_ok_iff.mp read).2.2

theorem stoull_decimal_append {n : Nat} (bound : n < 2 ^ 64) {rest : Bytes}
    (stop : ∀ b ∈ rest.head?, isDigit b = false) :
    stoull (decimal n ++ rest) = .ok (UInt64.ofNat n) := by
  simp only [stoull, scan_decimal_append n stop, Bool.false_eq_true, ↓reduceIte, bound]

/-! ## Texts of digits -/

/-- A text of digits is read as the number it denotes. -/
theorem scan_digits {text : Bytes} (some_ : text ≠ []) (digits : ∀ b ∈ text, isDigit b = true) :
    scan text = some (false, digitsValue text) := by
  cases text with
  | nil => exact (some_ rfl).elim
  | cons d text =>
      rw [scan_of_isDigit (digits d List.mem_cons_self), List.takeWhile_eq_self_iff.mpr digits]

theorem stol_digits {text : Bytes} (some_ : text ≠ []) (digits : ∀ b ∈ text, isDigit b = true) :
    stol text =
      if digitsValue text < 2 ^ 63 then .ok (digitsValue text) else .error .outOfRange := by
  unfold stol
  rw [scan_digits some_ digits]
  by_cases bound : digitsValue text < 2 ^ 63
  · rw [if_pos bound]
    exact if_pos ⟨by simp only [signedValue]; omega, by simp only [signedValue]; omega⟩
  · rw [if_neg bound]
    exact if_neg fun range => bound (by simp only [signedValue] at range; omega)

theorem stol_digits_iff {text : Bytes} (digits : ∀ b ∈ text, isDigit b = true) {v : Int} :
    stol text = .ok v ↔ text ≠ [] ∧ digitsValue text < 2 ^ 63 ∧ v = digitsValue text := by
  by_cases none : text = []
  · subst none
    simp [stol, scan]
  · rw [stol_digits none digits]
    split
    · rename_i bound
      rw [Except.ok.injEq]
      exact ⟨fun same => ⟨none, bound, same.symm⟩, fun read => read.2.2.symm⟩
    · rename_i beyond
      exact ⟨fun read => (by cases read), fun read => (beyond read.2.1).elim⟩

theorem digitsValue_concat (text : Bytes) (d : UInt8) :
    digitsValue (text ++ [d]) = 10 * digitsValue text + (d.toNat - 48) := by
  rw [digitsValue, List.foldl_concat, ← digitsValue]

/-- No zero stands in front of another digit. -/
def NoLeadingZero (text : Bytes) : Prop := text.head? = some 48 → text = [48]

instance (text : Bytes) : Decidable (NoLeadingZero text) := inferInstanceAs (Decidable (_ → _))

theorem NoLeadingZero.of_concat {text : Bytes} {d : UInt8} (noZero : NoLeadingZero (text ++ [d]))
    (some_ : text ≠ []) : text.head? ≠ some 48 := by
  cases text with
  | nil => exact (some_ rfl).elim
  | cons c text =>
      intro zero
      have same := noZero zero
      simp at same

theorem digitsValue_pos {text : Bytes} (digits : ∀ b ∈ text, isDigit b = true) (some_ : text ≠ [])
    (noZero : text.head? ≠ some 48) : 0 < digitsValue text := by
  induction text using List.reverseRecOn with
  | nil => exact (some_ rfl).elim
  | append_singleton text d ih =>
      rw [digitsValue_concat]
      by_cases single : text = []
      · subst single
        have digit := digits d (by simp)
        simp only [isDigit, Bool.and_eq_true, decide_eq_true_eq, UInt8.le_iff_toNat_le,
          UInt8.reduceToNat] at digit
        have other : d.toNat ≠ 48 := fun same => noZero (by
          rw [List.nil_append, List.head?_cons, Option.some_inj]
          exact UInt8.toNat_inj.mp same)
        omega
      · have before := ih (fun b member => digits b (List.mem_append_left _ member)) single (by
          rwa [List.head?_append_of_ne_nil _ single] at noZero)
        omega

theorem decimal_digit : ∀ n < 10, decimal n = [UInt8.ofNat (n + 48)] := by decide

/-- **Rendering undoes reading**, on texts of digits without a leading zero. -/
theorem decimal_digitsValue {text : Bytes} (some_ : text ≠ [])
    (digits : ∀ b ∈ text, isDigit b = true) (noZero : NoLeadingZero text) :
    decimal (digitsValue text) = text := by
  induction text using List.reverseRecOn with
  | nil => exact (some_ rfl).elim
  | append_singleton text d ih =>
      have digit := digits d (by simp)
      simp only [isDigit, Bool.and_eq_true, decide_eq_true_eq, UInt8.le_iff_toNat_le,
        UInt8.reduceToNat] at digit
      have last : decimal (d.toNat - 48) = [d] := by
        rw [decimal_digit (d.toNat - 48) (by omega), Nat.sub_add_cancel digit.1, UInt8.ofNat_toNat]
      rw [digitsValue_concat]
      by_cases single : text = []
      · subst single
        rw [List.nil_append, ← last]
        simp [digitsValue]
      · have head := noZero.of_concat single
        have front := ih single (fun b member => digits b (List.mem_append_left _ member))
          fun zero => (head zero).elim
        have positive := digitsValue_pos
          (fun b member => digits b (List.mem_append_left _ member)) single head
        rw [decimal, ← Nat.toDigits_append_toDigits (by omega) positive (by omega),
          List.map_append, ← decimal, ← decimal, front, last]

/-! ## The beginning of a numeral -/

inductive IsSign : Bytes → Bool → Prop
  | none : IsSign [] false
  | plus : IsSign [43] false
  | minus : IsSign [45] true

/-- Only white space and at most a sign: a numeral may begin so. -/
def Begun (text : Bytes) : Prop :=
  ∃ blanks sign negative, text = blanks ++ sign ∧ (∀ b ∈ blanks, isSpace b = true) ∧
    IsSign sign negative

/-- A text that is scanned splits into white space, a sign, digits and what follows them. -/
theorem scan_split {s : Bytes} {r : Bool × Nat} (read : scan s = some r) :
    ∃ blanks sign ds tail, s = blanks ++ (sign ++ (ds ++ tail)) ∧
      (∀ b ∈ blanks, isSpace b = true) ∧ IsSign sign r.1 ∧ ds ≠ [] ∧
      (∀ d ∈ ds, isDigit d = true) ∧ (∀ b ∈ tail.head?, isDigit b = false) ∧
      r.2 = digitsValue ds := by
  have digits : ∀ {negative : Bool} {t : Bytes},
      (if t.takeWhile isDigit = [] then none
        else some (negative, digitsValue (t.takeWhile isDigit))) = some r →
      r.1 = negative ∧ ∃ ds tail, t = ds ++ tail ∧ ds ≠ [] ∧ (∀ d ∈ ds, isDigit d = true) ∧
        (∀ b ∈ tail.head?, isDigit b = false) ∧ r.2 = digitsValue ds := by
    intro negative t found
    split at found
    · cases found
    · rename_i some_
      cases found
      refine ⟨rfl, _, _, List.takeWhile_append_dropWhile.symm, some_,
        fun d member => List.mem_takeWhile_imp member, ?_, rfl⟩
      intro b first
      have stop := List.head?_dropWhile_not isDigit t
      rw [Option.mem_def.mp first] at stop
      exact stop
  have blanks : ∀ b ∈ s.takeWhile isSpace, isSpace b = true :=
    fun b member => List.mem_takeWhile_imp member
  have split : s = s.takeWhile isSpace ++ s.dropWhile isSpace :=
    List.takeWhile_append_dropWhile.symm
  unfold scan at read
  generalize s.takeWhile isSpace = front at blanks split
  generalize s.dropWhile isSpace = t at read split
  dsimp only at read
  split at read
  · obtain ⟨negative, ds, tail, rfl, rest⟩ := digits read
    exact ⟨front, [45], ds, tail, split, blanks, negative ▸ .minus, rest⟩
  · obtain ⟨positive, ds, tail, rfl, rest⟩ := digits read
    exact ⟨front, [43], ds, tail, split, blanks, positive ▸ .plus, rest⟩
  · obtain ⟨positive, ds, tail, rfl, rest⟩ := digits read
    exact ⟨front, [], ds, tail, split, blanks, positive ▸ .none, rest⟩

theorem scan_blanks {blanks : Bytes} (space : ∀ b ∈ blanks, isSpace b = true) (t : Bytes) :
    scan (blanks ++ t) = scan t := by
  unfold scan
  rw [List.dropWhile_append_of_pos space]

/-- White space, a sign and digits are scanned, whatever follows them. -/
theorem scan_join {blanks sign ds tail : Bytes} {negative : Bool}
    (space : ∀ b ∈ blanks, isSpace b = true) (signed : IsSign sign negative) (some_ : ds ≠ [])
    (digits : ∀ d ∈ ds, isDigit d = true) (stop : ∀ b ∈ tail.head?, isDigit b = false) :
    scan (blanks ++ (sign ++ (ds ++ tail))) = some (negative, digitsValue ds) := by
  have taken : (ds ++ tail).takeWhile isDigit = ds := by
    rw [List.takeWhile_append_of_pos digits]
    cases tail with
    | nil => simp
    | cons b tail => simp [stop b rfl]
  rw [scan_blanks space]
  cases signed with
  | none =>
      obtain ⟨d, ds, rfl⟩ := List.exists_cons_of_ne_nil some_
      rw [List.nil_append, List.cons_append, scan_of_isDigit (digits d List.mem_cons_self),
        ← List.cons_append, taken]
  | plus =>
      have blank : isSpace 43 = false := rfl
      simp only [scan, List.cons_append, List.nil_append, List.dropWhile_cons, blank,
        Bool.false_eq_true, if_false, taken, if_neg some_]
  | minus =>
      have blank : isSpace 45 = false := rfl
      simp only [scan, List.cons_append, List.nil_append, List.dropWhile_cons, blank,
        Bool.false_eq_true, if_false, taken, if_neg some_]

theorem scan_end {blanks sign ds : Bytes} {negative : Bool}
    (space : ∀ b ∈ blanks, isSpace b = true) (signed : IsSign sign negative) (some_ : ds ≠ [])
    (digits : ∀ d ∈ ds, isDigit d = true) :
    scan (blanks ++ (sign ++ ds)) = some (negative, digitsValue ds) := by
  have stop : ∀ b ∈ ([] : Bytes).head?, isDigit b = false := nofun
  have joined := scan_join space signed some_ digits stop
  rwa [List.append_nil] at joined

/-- A digit more makes a numeral of it. -/
theorem Begun.scan_zero {text : Bytes} (begun : Begun text) :
    ∃ negative, scan (text ++ [48]) = some (negative, 0) := by
  obtain ⟨blanks, sign, negative, rfl, space, signed⟩ := begun
  refine ⟨negative, ?_⟩
  rw [List.append_assoc]
  exact scan_end space signed (List.cons_ne_nil _ _) (List.forall_mem_singleton.mpr rfl)

theorem Begun.stol_zero {text : Bytes} (begun : Begun text) : stol (text ++ [48]) = .ok 0 := by
  obtain ⟨negative, zero⟩ := begun.scan_zero
  unfold stol
  rw [zero]
  cases negative <;> rfl

theorem Begun.stoi_zero {text : Bytes} (begun : Begun text) : stoi (text ++ [48]) = .ok 0 :=
  stoi_eq_ok_iff.mpr ⟨begun.stol_zero, by decide, by decide⟩

/-- What is behind the numeral does not matter. -/
theorem scan_concat {text : Bytes} {r : Bool × Nat} (read : scan text = some r) {c : UInt8}
    (stop : isDigit c = false) : scan (text ++ [c]) = some r := by
  obtain ⟨blanks, sign, ds, tail, rfl, space, signed, some_, digits, behind, value⟩ :=
    scan_split read
  have after : ∀ b ∈ (tail ++ [c]).head?, isDigit b = false := by
    cases tail with
    | nil =>
        intro b first
        cases first
        exact stop
    | cons d tail => exact behind
  have joined := scan_join space signed some_ digits after
  rw [← value] at joined
  simpa using joined

theorem digitsValue_le_append (ds es : Bytes) : digitsValue ds ≤ digitsValue (ds ++ es) := by
  induction es using List.reverseRecOn with
  | nil => rw [List.append_nil]
  | append_singleton es e ih =>
      rw [← List.append_assoc, digitsValue_concat]
      omega

theorem prefix_append_cases {α : Type*} {l as bs : List α} (pre : l <+: as ++ bs) :
    l <+: as ∨ ∃ rest, l = as ++ rest ∧ rest <+: bs := by
  rcases List.prefix_or_prefix_of_prefix pre (List.prefix_append as bs) with inside | whole
  · exact Or.inl inside
  · obtain ⟨rest, rfl⟩ := whole
    exact Or.inr ⟨rest, rfl, (List.prefix_append_right_inj as).mp pre⟩

theorem IsSign.of_prefix {sign front : Bytes} {negative : Bool} (signed : IsSign sign negative)
    (pre : front <+: sign) : ∃ negative, IsSign front negative := by
  have short : sign.length ≤ 1 := by cases signed <;> decide
  cases front with
  | nil => exact ⟨false, .none⟩
  | cons c front =>
      have same : c :: front = sign := by
        apply pre.eq_of_length_le
        rw [List.length_cons]
        omega
      exact ⟨negative, same ▸ signed⟩

/-- **The beginning of a text that is scanned**: it holds no digit yet, or it is scanned as a number
that is no larger. -/
theorem scan_front {text text' : Bytes} (pre : text <+: text') {r : Bool × Nat}
    (read : scan text' = some r) : Begun text ∨ ∃ m ≤ r.2, scan text = some (r.1, m) := by
  obtain ⟨blanks, sign, ds, tail, rfl, space, signed, some_, digits, behind, value⟩ :=
    scan_split read
  rcases prefix_append_cases pre with inside | ⟨behindBlanks, rfl, inner⟩
  · refine Or.inl ⟨text, [], false, (List.append_nil _).symm, ?_, .none⟩
    exact fun b member => space b (inside.subset member)
  rcases prefix_append_cases inner with inside | ⟨front, rfl, inner'⟩
  · obtain ⟨negative, signed⟩ := signed.of_prefix inside
    exact Or.inl ⟨blanks, behindBlanks, negative, rfl, space, signed⟩
  rcases prefix_append_cases inner' with inside | ⟨rest, rfl, inside⟩
  · by_cases none : front = []
    · subst none
      refine Or.inl ⟨blanks, sign, r.1, ?_, space, signed⟩
      rw [List.append_nil]
    · have joined := scan_end space signed none fun d member => digits d (inside.subset member)
      obtain ⟨more, rfl⟩ := inside
      exact Or.inr ⟨_, value ▸ digitsValue_le_append front more, joined⟩
  · have after : ∀ b ∈ rest.head?, isDigit b = false := by
      intro b first
      obtain ⟨more, rfl⟩ := inside
      exact behind b (by rw [List.head?_append, Option.mem_def.mp first]; rfl)
    exact Or.inr ⟨_, Nat.le_refl _, value ▸ scan_join space signed some_ digits after⟩

theorem stol_front {text text' : Bytes} (pre : text <+: text') {v' : Int}
    (read : stol text' = .ok v') :
    Begun text ∨ ∃ v, stol text = .ok v ∧ (0 ≤ v ∧ v ≤ v' ∨ v' ≤ v ∧ v ≤ 0) := by
  obtain ⟨⟨⟨negative, magnitude⟩, scanned, rfl⟩, range⟩ := stol_eq_ok_iff.mp read
  refine (scan_front pre scanned).imp id ?_
  rintro ⟨m, le, front⟩
  change scan text = some (negative, m) at front
  have between : 0 ≤ signedValue (negative, m) ∧
        signedValue (negative, m) ≤ signedValue (negative, magnitude) ∨
      signedValue (negative, magnitude) ≤ signedValue (negative, m) ∧
        signedValue (negative, m) ≤ 0 := by
    cases negative <;> simp only [signedValue] at le ⊢ <;> omega
  exact ⟨_, stol_eq_ok_iff.mpr ⟨⟨_, front, rfl⟩, by omega⟩, between⟩

theorem stoi_front {text text' : Bytes} (pre : text <+: text') {v' : Int}
    (read : stoi text' = .ok v') (nonneg : 0 ≤ v') :
    Begun text ∨ ∃ v, stoi text = .ok v ∧ 0 ≤ v := by
  obtain ⟨wide, low, high⟩ := stoi_eq_ok_iff.mp read
  refine (stol_front pre wide).imp id ?_
  intro shorter
  obtain ⟨v, front, between⟩ := shorter
  exact ⟨v, stoi_eq_ok_iff.mpr ⟨front, by omega, by omega⟩, by omega⟩

theorem stol_concat {text : Bytes} {v : Int} (read : stol text = .ok v) {c : UInt8}
    (stop : isDigit c = false) : stol (text ++ [c]) = .ok v := by
  obtain ⟨⟨r, scanned, value⟩, range⟩ := stol_eq_ok_iff.mp read
  exact stol_eq_ok_iff.mpr ⟨⟨r, scan_concat scanned stop, value⟩, range⟩

theorem stoi_concat {text : Bytes} {v : Int} (read : stoi text = .ok v) {c : UInt8}
    (stop : isDigit c = false) : stoi (text ++ [c]) = .ok v := by
  obtain ⟨wide, range⟩ := stoi_eq_ok_iff.mp read
  exact stoi_eq_ok_iff.mpr ⟨stol_concat wide stop, range⟩

example : stoull [45, 49] = .ok (-1) := by decide

example : stoi [32, 43, 52, 50, 120] = .ok 42 := by decide

end CString

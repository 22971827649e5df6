import Blp.Lib.DecimalOrder
import Mathlib.Tactic.NormNum

/-!
# The sequence counter and its texts

`src/src/common/sequence_number.h` and `.cpp`. The counter is a 64-bit word that `fetch_add` moves
on; `next_as_string` hands its value out as a text and `seq_to_uint64_t` reads such a text.

The reader is exact (`seqToUint64_exact`). The texts are another matter: `next_as_string` renders
the value in 20 digits and then returns what `std::to_string` makes of it, so that the texts sort as
the numbers do only where `nextAsString_lt_iff` says.
-/

namespace Blp.Common

open CString

/-! ## The counter -/

structure SequenceNumber where
  sequence : UInt64 := 0
  deriving DecidableEq, Repr

namespace SequenceNumber

def current (s : SequenceNumber) : UInt64 := s.sequence

/-- `fetch_add(1)`: the value before, while the word wraps around. -/
def next (s : SequenceNumber) : UInt64 × SequenceNumber := (s.sequence, ⟨s.sequence + 1⟩)

/-- The stream is filled and dropped: what is returned is `std::to_string(value)`. -/
def nextAsString (s : SequenceNumber) : Bytes × SequenceNumber :=
  let (value, after) := s.next
  let _oss := zeroFilled 20 value.toNat
  (decimal value.toNat, after)

theorem nextAsString_fst (s : SequenceNumber) :
    s.nextAsString.1 = decimal s.current.toNat := rfl

end SequenceNumber

/-! ## Reading a text -/

/-- `std::invalid_argument`, with its `what()`. -/
structure InvalidArgument where
  what : String
  deriving DecidableEq, Repr

/-- `iss >> value`: `num_get` takes what `strtoull` takes, and the fail bit is set where that has no
digit or does not fit. -/
def extract (str : Bytes) : Option UInt64 :=
  match stoull str with
  | .error _ => none
  | .ok value => some value

def requireDigit (c : UInt8) : Except InvalidArgument Unit :=
  if isDigit c then .ok () else .error ⟨"Input string contains non-digit characters"⟩

def seqToUint64 (str : Bytes) : Except InvalidArgument UInt64 := do
  if 20 < str.length then
    throw ⟨"Input string exceeds 20 digits"⟩
  forM str requireDigit
  match extract str with
  | none => throw ⟨"Conversion failed"⟩
  | some value => return value

/-- One to twenty decimal digits that denote a 64-bit number. -/
structure IsSequence (s : Bytes) : Prop where
  some_ : s ≠ []
  short : s.length ≤ 20
  digits : ∀ d ∈ s, isDigit d = true
  fits : digitsValue s < 2 ^ 64

theorem forM_requireDigit (str : Bytes) :
    forM str requireDigit =
      if str.all isDigit then .ok ()
      else .error ⟨"Input string contains non-digit characters"⟩ := by
  induction str with
  | nil => rfl
  | cons c str ih =>
      rw [List.forM_cons, ih, List.all_cons]
      unfold requireDigit
      cases isDigit c <;> rfl

theorem extract_digits {str : Bytes} (some_ : str ≠ []) (digits : ∀ d ∈ str, isDigit d = true) :
    extract str =
      if digitsValue str < 2 ^ 64 then some (UInt64.ofNat (digitsValue str)) else none := by
  unfold extract stoull
  rw [scan_digits some_ digits]
  by_cases fits : digitsValue str < 2 ^ 64
  · simp only [if_pos fits]
    rfl
  · simp only [if_neg fits]

/-- How a text is answered. -/
inductive Reading (str : Bytes) : Except InvalidArgument UInt64 → Prop
  | long (more : 20 < str.length) : Reading str (.error ⟨"Input string exceeds 20 digits"⟩)
  | other {c : UInt8} (member : c ∈ str) (noDigit : isDigit c = false) :
      Reading str (.error ⟨"Input string contains non-digit characters"⟩)
  | unfit (why : str = [] ∨ 2 ^ 64 ≤ digitsValue str) : Reading str (.error ⟨"Conversion failed"⟩)
  | read (whole : IsSequence str) : Reading str (.ok (UInt64.ofNat (digitsValue str)))

theorem seqToUint64_reading (str : Bytes) : Reading str (seqToUint64 str) := by
  by_cases long : 20 < str.length
  · have refused : seqToUint64 str = .error ⟨"Input string exceeds 20 digits"⟩ := by
      simp only [seqToUint64, if_pos long]
      rfl
    rw [refused]
    exact .long long
  have loop : seqToUint64 str = (forM str requireDigit >>= fun _ =>
      match extract str with
      | none => throw ⟨"Conversion failed"⟩
      | some value => return value) := by
    simp only [seqToUint64, if_neg long]
  rw [loop, forM_requireDigit]
  by_cases all : str.all isDigit = true
  · have digits := List.all_eq_true.mp all
    rw [if_pos all]
    by_cases none : str = []
    · subst none
      exact .unfit (Or.inl rfl)
    · rw [extract_digits none digits]
      by_cases fits : digitsValue str < 2 ^ 64
      · rw [if_pos fits]
        exact .read ⟨none, Nat.not_lt.mp long, digits, fits⟩
      · rw [if_neg fits]
        exact .unfit (Or.inr (Nat.not_lt.mp fits))
  · rw [if_neg all]
    obtain ⟨c, member, noDigit⟩ := List.all_eq_false.mp (Bool.eq_false_iff.mpr all)
    exact .other member (Bool.eq_false_iff.mpr noDigit)

theorem Reading.not_isSequence {str : Bytes} {e : InvalidArgument}
    (refused : Reading str (.error e)) : ¬ IsSequence str := by
  intro whole
  cases refused with
  | long more => exact Nat.not_lt.mpr whole.short more
  | other member noDigit =>
      rw [whole.digits _ member] at noDigit
      cases noDigit
  | unfit why => exact why.elim whole.some_ fun large => Nat.not_lt.mpr large whole.fits

theorem Reading.value {str : Bytes} {v : UInt64} (answered : Reading str (.ok v)) :
    IsSequence str ∧ v.toNat = digitsValue str := by
  cases answered with
  | read whole => exact ⟨whole, UInt64.toNat_ofNat_of_lt' whole.fits⟩

theorem seqToUint64_eq_ok_iff {str : Bytes} {v : UInt64} :
    seqToUint64 str = .ok v ↔ IsSequence str ∧ v.toNat = digitsValue str := by
  have reading := seqToUint64_reading str
  cases answer : seqToUint64 str with
  | error e =>
      rw [answer] at reading
      exact iff_of_false nofun fun whole => reading.not_isSequence whole.1
  | ok w =>
      rw [answer] at reading
      obtain ⟨whole, value⟩ := reading.value
      rw [Except.ok.injEq, ← UInt64.toNat_inj, value, eq_comm]
      exact (and_iff_right whole).symm

theorem seqToUint64_refused_iff {str : Bytes} :
    (∃ e, seqToUint64 str = .error e) ↔ ¬ IsSequence str := by
  have reading := seqToUint64_reading str
  cases answer : seqToUint64 str with
  | error e =>
      rw [answer] at reading
      exact iff_of_true ⟨e, rfl⟩ reading.not_isSequence
  | ok w =>
      rw [answer] at reading
      exact iff_of_false nofun fun refused => refused reading.value.1

/-! ## Between the two -/

theorem toNat_lt_ten_pow (v : UInt64) : v.toNat < 10 ^ 20 :=
  Nat.lt_trans v.toNat_lt (by decide)

/-- Whatever the width, a rendered 64-bit number is a sequence text. -/
theorem isSequence_zeroFilled {width : Nat} (narrow : width ≤ 20) (v : UInt64) :
    IsSequence (zeroFilled width v.toNat) := by
  have bound := toNat_lt_ten_pow v
  have short : (decimal v.toNat).length ≤ 20 := by
    rw [length_decimal]
    exact Nat.log_lt_of_lt_pow' (by omega) bound
  refine ⟨?_, ?_, digits_zeroFilled _ _, ?_⟩
  · exact List.append_ne_nil_of_right_ne_nil _ (decimal_ne_nil _)
  · rw [zeroFilled, List.length_append, List.length_replicate]
    omega
  · rw [digitsValue_zeroFilled]
    exact v.toNat_lt

theorem zeroFilled_zero (n : Nat) : zeroFilled 0 n = decimal n := by
  rw [zeroFilled, Nat.zero_sub, List.replicate_zero, List.nil_append]

theorem seqToUint64_zeroFilled {width : Nat} (narrow : width ≤ 20) (v : UInt64) :
    seqToUint64 (zeroFilled width v.toNat) = .ok v := by
  rw [seqToUint64_eq_ok_iff, digitsValue_zeroFilled]
  exact ⟨isSequence_zeroFilled narrow v, rfl⟩

/-- **Reading is exact.** Answered are the texts of one to twenty digits whose number fits 64 bits,
each with its number, and every other text is refused; a counter's text gives its value back, and so
does the value filled up with zeros to any width up to 20. -/
theorem seqToUint64_exact :
    (∀ (str : Bytes) (v : UInt64),
      seqToUint64 str = .ok v ↔ IsSequence str ∧ v.toNat = digitsValue str) ∧
    (∀ str : Bytes, (∃ e, seqToUint64 str = .error e) ↔ ¬ IsSequence str) ∧
    (∀ s : SequenceNumber, seqToUint64 s.nextAsString.1 = .ok s.current) ∧
    ∀ (v : UInt64) (width : Nat), width ≤ 20 →
      seqToUint64 (zeroFilled width v.toNat) = seqToUint64 (decimal v.toNat) := by
  have plain : ∀ v : UInt64, seqToUint64 (decimal v.toNat) = .ok v := by
    intro v
    rw [← zeroFilled_zero]
    exact seqToUint64_zeroFilled (Nat.zero_le _) v
  refine ⟨fun str v => seqToUint64_eq_ok_iff, fun str => seqToUint64_refused_iff,
    fun s => plain s.current, ?_⟩
  intro v width narrow
  rw [plain, seqToUint64_zeroFilled narrow]

/-- 18446744073709551615 is read, one more is not. -/
theorem seqToUint64_edge :
    seqToUint64 (decimal 18446744073709551615) = .ok 18446744073709551615 ∧
      ∃ e, seqToUint64 (decimal 18446744073709551616) = .error e := by
  have value : digitsValue (decimal 18446744073709551616) = 18446744073709551616 :=
    digitsValue_decimal _
  refine ⟨seqToUint64_exact.2.2.1 ⟨18446744073709551615⟩, ?_⟩
  refine (seqToUint64_exact.2.1 _).mpr fun whole => ?_
  have fits := whole.fits
  rw [value] at fits
  exact Nat.lt_irrefl _ fits

/-! ## The order of the texts -/

/-- The texts that were rendered in 20 digits would sort as the numbers do. -/
theorem padded_lt_iff (a b : UInt64) : zeroFilled 20 a.toNat < zeroFilled 20 b.toNat ↔ a < b :=
  (zeroFilled_lt_iff (toNat_lt_ten_pow a) (toNat_lt_ten_pow b) (by decide)).trans
    UInt64.lt_iff_toNat_lt.symm

/-- **The order of the texts.** Those of two counters in order are in order exactly if the smaller
counter is at most the number that the first digits of the larger one make, as many of them as it
has itself. -/
theorem nextAsString_lt_iff {early late : SequenceNumber} (less : early.current < late.current) :
    early.nextAsString.1 < late.nextAsString.1 ↔
      early.current.toNat ≤ late.current.toNat /
        10 ^ (Nat.log 10 late.current.toNat - Nat.log 10 early.current.toNat) := by
  rw [SequenceNumber.nextAsString_fst, SequenceNumber.nextAsString_fst]
  exact decimal_lt_decimal_iff (UInt64.lt_iff_toNat_lt.mp less)

/-- 19 comes before 200, since 20 is at least 19. -/
theorem nextAsString_19_lt_200 :
    (SequenceNumber.nextAsString ⟨19⟩).1 < (SequenceNumber.nextAsString ⟨200⟩).1 := by
  have less : SequenceNumber.current ⟨19⟩ < SequenceNumber.current ⟨200⟩ := by decide
  have digits : Nat.log 10 19 = 1 :=
    Nat.log_eq_of_pow_le_of_lt_pow (by norm_num) (by norm_num)
  have digits' : Nat.log 10 200 = 2 :=
    Nat.log_eq_of_pow_le_of_lt_pow (by norm_num) (by norm_num)
  refine (nextAsString_lt_iff less).mpr ?_
  change 19 ≤ 200 / 10 ^ (Nat.log 10 200 - Nat.log 10 19)
  rw [digits, digits']
  norm_num

/-- 10 comes before 9. -/
theorem nextAsString_9_10 :
    ¬ ∀ early late : SequenceNumber, early.current < late.current →
      early.nextAsString.1 < late.nextAsString.1 := by
  intro sorted
  exact absurd (sorted ⟨9⟩ ⟨10⟩ (by decide)) (by decide)

end Blp.Common

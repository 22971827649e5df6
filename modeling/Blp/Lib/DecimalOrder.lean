import Blp.Lib.CString
import Mathlib.Data.Nat.Log
import Mathlib.Tactic.Ring

/-!
# How texts of digits sort

Byte strings are compared byte by byte, as `std::string` does. Two texts of digits of one length
sort as the numbers they denote. A shorter text is compared with as many digits of the longer one as
it has itself: `decimal_lt_decimal_iff` says what that means for two rendered numbers, and
`zeroFilled_lt_iff` that numbers filled up with zeros sort as their texts do.
-/

namespace CString

/-! ## Values of texts in two parts -/

theorem digitsValue_append (ds es : Bytes) :
    digitsValue (ds ++ es) = digitsValue ds * 10 ^ es.length + digitsValue es := by
  induction es using List.reverseRecOn with
  | nil => rw [List.append_nil, List.length_nil, pow_zero, mul_one]; rfl
  | append_singleton es e ih =>
      rw [← List.append_assoc, digitsValue_concat, digitsValue_concat, ih, List.length_append,
        List.length_singleton, pow_succ]
      ring

theorem digitsValue_cons (d : UInt8) (ds : Bytes) :
    digitsValue (d :: ds) = (d.toNat - 48) * 10 ^ ds.length + digitsValue ds := by
  have single : digitsValue [d] = d.toNat - 48 := by
    rw [← List.nil_append [d], digitsValue_concat]
    exact Nat.zero_add _
  rw [← single, ← digitsValue_append]
  rfl

theorem toNat_bounds_of_isDigit {d : UInt8} (digit : isDigit d = true) :
    48 ≤ d.toNat ∧ d.toNat ≤ 57 := by
  simpa only [isDigit, Bool.and_eq_true, decide_eq_true_eq, UInt8.le_iff_toNat_le,
    UInt8.reduceToNat] using digit

theorem digitsValue_lt_pow {ds : Bytes} (digits : ∀ d ∈ ds, isDigit d = true) :
    digitsValue ds < 10 ^ ds.length := by
  induction ds with
  | nil => exact Nat.one_pos
  | cons d ds ih =>
      have digit := toNat_bounds_of_isDigit (digits d List.mem_cons_self)
      have rest := ih fun e member => digits e (List.mem_cons_of_mem _ member)
      have first : (d.toNat - 48) * 10 ^ ds.length ≤ 9 * 10 ^ ds.length :=
        Nat.mul_le_mul_right _ (by omega)
      rw [digitsValue_cons, List.length_cons, pow_succ]
      omega

theorem digitsValue_replicate_append (k : Nat) (ds : Bytes) :
    digitsValue (List.replicate k 48 ++ ds) = digitsValue ds := by
  induction k with
  | zero => rfl
  | succ k ih =>
      rw [List.replicate_succ, List.cons_append, digitsValue_cons, ih]
      exact (congrArg (· + digitsValue ds) (Nat.zero_mul _)).trans (Nat.zero_add _)

/-! ## Texts of one length -/

/-- The digit in front decides, unless the two are the same. -/
theorem mul_add_lt_iff {p c d v w : Nat} (below : v < p) (below' : w < p) :
    c * p + v < d * p + w ↔ c < d ∨ c = d ∧ v < w := by
  have step : ∀ {i j : Nat}, i < j → i * p + p ≤ j * p := by
    intro i j less
    rw [← Nat.succ_mul]
    exact Nat.mul_le_mul_right p less
  constructor
  · intro less
    rcases Nat.lt_trichotomy c d with before | rfl | behind
    · exact Or.inl before
    · exact Or.inr ⟨rfl, Nat.lt_of_add_lt_add_left less⟩
    · have := step behind
      omega
  · rintro (before | ⟨rfl, less⟩)
    · have := step before
      omega
    · exact Nat.add_lt_add_left less _

theorem lt_iff_digitsValue_lt {ds es : Bytes} (same : ds.length = es.length)
    (digits : ∀ d ∈ ds, isDigit d = true) (digits' : ∀ e ∈ es, isDigit e = true) :
    ds < es ↔ digitsValue ds < digitsValue es := by
  induction ds generalizing es with
  | nil =>
      obtain rfl := List.length_eq_zero_iff.mp same.symm
      exact ⟨fun less => (List.not_lt_nil _ less).elim, fun less => (Nat.lt_irrefl _ less).elim⟩
  | cons d ds ih =>
      obtain _ | ⟨e, es⟩ := es
      · cases same
      have length := Nat.succ.inj same
      obtain ⟨digit, rest⟩ := List.forall_mem_cons.mp digits
      obtain ⟨digit', rest'⟩ := List.forall_mem_cons.mp digits'
      have bounds := toNat_bounds_of_isDigit digit
      have bounds' := toNat_bounds_of_isDigit digit'
      have below := digitsValue_lt_pow rest
      have below' := digitsValue_lt_pow rest'
      rw [length] at below
      rw [List.cons_lt_cons_iff, ih length rest rest', digitsValue_cons, digitsValue_cons, length,
        mul_add_lt_iff below below', UInt8.lt_iff_toNat_lt, ← UInt8.toNat_inj]
      -- both digits are at least '0', so the subtraction keeps their order
      omega

/-- Among texts of digits of one length the number determines the text. -/
theorem eq_of_digitsValue_eq {ds es : Bytes} (same : ds.length = es.length)
    (digits : ∀ d ∈ ds, isDigit d = true) (digits' : ∀ e ∈ es, isDigit e = true)
    (equal : digitsValue ds = digitsValue es) : ds = es := by
  have notLess : ¬ ds < es := by
    rw [lt_iff_digitsValue_lt same digits digits', equal]
    exact Nat.lt_irrefl _
  have notMore : ¬ es < ds := by
    rw [lt_iff_digitsValue_lt same.symm digits' digits, equal]
    exact Nat.lt_irrefl _
  exact List.le_antisymm (List.not_lt.mp notMore) (List.not_lt.mp notLess)

/-! ## A shorter text -/

/-- A text shorter than another is compared with the beginning of the other. -/
theorem lt_append_iff {ds front back : Bytes} (same : ds.length = front.length) (more : back ≠ []) :
    ds < front ++ back ↔ ds < front ∨ ds = front := by
  induction ds generalizing front with
  | nil =>
      obtain rfl := List.length_eq_zero_iff.mp same.symm
      obtain ⟨b, back, rfl⟩ := List.exists_cons_of_ne_nil more
      exact ⟨fun _ => Or.inr rfl, fun _ => List.nil_lt_cons b back⟩
  | cons d ds ih =>
      obtain _ | ⟨e, front⟩ := front
      · cases same
      rw [List.cons_append, List.cons_lt_cons_iff, List.cons_lt_cons_iff, ih (Nat.succ.inj same),
        List.cons.injEq]
      tauto

theorem lt_append_iff_digitsValue_le {ds front back : Bytes} (same : ds.length = front.length)
    (more : back ≠ []) (digits : ∀ d ∈ ds, isDigit d = true)
    (digits' : ∀ e ∈ front, isDigit e = true) :
    ds < front ++ back ↔ digitsValue ds ≤ digitsValue front := by
  rw [lt_append_iff same more, lt_iff_digitsValue_lt same digits digits', Nat.le_iff_lt_or_eq]
  exact or_congr_right ⟨congrArg digitsValue, eq_of_digitsValue_eq same digits digits'⟩

/-! ## Rendered numbers -/

theorem length_decimal (n : Nat) : (decimal n).length = Nat.log 10 n + 1 := by
  have atMost : ∀ {k : Nat}, 0 < k → ((decimal n).length ≤ k ↔ n < 10 ^ k) := by
    intro k some_
    rw [decimal, List.length_map]
    exact Nat.length_toDigits_le_iff (by omega) some_
  have enough : (decimal n).length ≤ Nat.log 10 n + 1 :=
    (atMost (Nat.succ_pos _)).mpr (Nat.lt_pow_succ_log_self (by omega) n)
  by_cases short : Nat.log 10 n = 0
  · have positive := List.length_pos_of_ne_nil (decimal_ne_nil n)
    omega
  · have nonzero : n ≠ 0 := fun zero => short (zero ▸ Nat.log_zero_right 10)
    have needed : ¬ (decimal n).length ≤ Nat.log 10 n := fun fits =>
      Nat.not_lt.mpr (Nat.pow_log_le_self 10 nonzero) ((atMost (Nat.pos_of_ne_zero short)).mp fits)
    omega

theorem digits_decimal (n : Nat) : ∀ d ∈ decimal n, isDigit d = true :=
  fun _ member => isDigit_of_mem_decimal member

/-- **Rendered numbers in order.** The smaller of two numbers is rendered as the smaller text
exactly if it is at most what the first digits of the larger one make, as many of them as it has
itself. -/
theorem decimal_lt_decimal_iff {a b : Nat} (less : a < b) :
    decimal a < decimal b ↔ a ≤ b / 10 ^ (Nat.log 10 b - Nat.log 10 a) := by
  have short : Nat.log 10 a ≤ Nat.log 10 b := Nat.log_mono_right (Nat.le_of_lt less)
  obtain ⟨front, back, cut, same⟩ : ∃ front back, decimal b = front ++ back ∧
      (decimal a).length = front.length := by
    refine ⟨_, _, (List.take_append_drop (decimal a).length (decimal b)).symm, ?_⟩
    rw [List.length_take, length_decimal, length_decimal]
    omega
  have digits := digits_decimal b
  rw [cut, List.forall_mem_append] at digits
  have width : back.length = Nat.log 10 b - Nat.log 10 a := by
    have total := congrArg List.length cut
    rw [List.length_append, ← same, length_decimal, length_decimal] at total
    omega
  have value : b = digitsValue front * 10 ^ back.length + digitsValue back := by
    rw [← digitsValue_append, ← cut, digitsValue_decimal]
  have quotient : b / 10 ^ back.length = digitsValue front := by
    rw [value, Nat.mul_comm, Nat.mul_add_div (Nat.pow_pos (by omega)),
      Nat.div_eq_of_lt (digitsValue_lt_pow digits.2), Nat.add_zero]
  rw [← width, quotient, cut]
  by_cases whole : back = []
  · subst whole
    rw [List.length_nil, pow_zero, Nat.mul_one] at value
    rw [List.append_nil, lt_iff_digitsValue_lt same (digits_decimal a) digits.1,
      digitsValue_decimal]
    have none : digitsValue [] = 0 := rfl
    omega
  · rw [lt_append_iff_digitsValue_le same whole (digits_decimal a) digits.1, digitsValue_decimal]

/-! ## Filled up with zeros -/

/-- A number rendered with `setw(width)` and `setfill('0')`. -/
def zeroFilled (width n : Nat) : Bytes :=
  List.replicate (width - (decimal n).length) 48 ++ decimal n

theorem digits_zeroFilled (width n : Nat) : ∀ d ∈ zeroFilled width n, isDigit d = true := by
  refine List.forall_mem_append.mpr ⟨fun d member => ?_, digits_decimal n⟩
  rw [List.eq_of_mem_replicate member]
  rfl

theorem digitsValue_zeroFilled (width n : Nat) : digitsValue (zeroFilled width n) = n := by
  rw [zeroFilled, digitsValue_replicate_append, digitsValue_decimal]

theorem length_zeroFilled {width n : Nat} (fits : n < 10 ^ width) (some_ : 0 < width) :
    (zeroFilled width n).length = width := by
  have enough : (decimal n).length ≤ width := by
    rw [length_decimal]
    exact Nat.log_lt_of_lt_pow' (Nat.ne_of_gt some_) fits
  rw [zeroFilled, List.length_append, List.length_replicate]
  omega

/-- **Filled up with zeros, numbers sort as texts.** -/
theorem zeroFilled_lt_iff {width a b : Nat} (fits : a < 10 ^ width) (fits' : b < 10 ^ width)
    (some_ : 0 < width) : zeroFilled width a < zeroFilled width b ↔ a < b := by
  have same : (zeroFilled width a).length = (zeroFilled width b).length := by
    rw [length_zeroFilled fits some_, length_zeroFilled fits' some_]
  rw [lt_iff_digitsValue_lt same (digits_zeroFilled _ _) (digits_zeroFilled _ _),
    digitsValue_zeroFilled, digitsValue_zeroFilled]

end CString

import Blp.Lib.Numeral

/-!
# Configuration fields

`Register::Field` of `src/src/common/config.h`: a typed place that a text is stored to, once by the
constructor with the default and later by `set_value`.

A field of an integer type is stored through `stoi` or `stoll`, which read the numeral at the front
of the text, and `int16_t` through a cast besides. `setValue_exact_iff` says for which texts the
field holds what the text denotes or stays as it is.
-/

namespace Blp.Config

open CString

/-- The types of the `DEFINE_` macros; the code compares their names. -/
inductive FieldType
  | string
  | bool
  | int16
  | int32
  | int64
  | double
  deriving DecidableEq, Repr

/-- What the storage of a field holds. `δ` stands for `double`. -/
abbrev FieldType.Value (δ : Type) : FieldType → Type
  | .string => Bytes
  | .bool => Bool
  | .int16 => Int16
  | .int32 => Int32
  | .int64 => Int64
  | .double => δ

/-- `Register::Field`, with what `storage` points at. -/
structure Field (δ : Type) where
  type : FieldType
  storage : type.Value δ

section

variable {δ : Type} (stod : Bytes → Except ConvError δ)

/-- The value that a text is stored as, type by type. -/
def FieldType.parse : (t : FieldType) → Bytes → Except ConvError (t.Value δ)
  | .string, text => .ok text
  -- "true" or "1"
  | .bool, text => .ok (text == [116, 114, 117, 101] || text == [49])
  | .int16, text => (stoi text).map Int16.ofInt
  | .int32, text => (stoi text).map Int32.ofInt
  | .int64, text => (stoll text).map Int64.ofInt
  | .double, text => stod text

/-- An exception of the conversion leaves before anything is stored. -/
def Field.store (f : Field δ) (text : Bytes) : Except ConvError Unit × Field δ :=
  match f.type.parse stod text with
  | .error e => (.error e, f)
  | .ok value => (.ok (), ⟨f.type, value⟩)

theorem Field.store_ok {f : Field δ} {text : Bytes} {value : f.type.Value δ}
    (parsed : f.type.parse stod text = .ok value) :
    f.store stod text = (.ok (), ⟨f.type, value⟩) := by
  unfold Field.store
  rw [parsed]

theorem Field.store_error {f : Field δ} {text : Bytes} {e : ConvError}
    (refused : f.type.parse stod text = .error e) : f.store stod text = (.error e, f) := by
  unfold Field.store
  rw [refused]

/-- The constructor, on the storage as it finds it; `fdefval` is the text up to its terminator. -/
def Field.construct (ftype : FieldType) (fstorage : ftype.Value δ) (fdefval : Bytes) :
    Except ConvError Unit × Field δ :=
  Field.store stod ⟨ftype, fstorage⟩ fdefval

def Field.setValue (f : Field δ) (strValue : Bytes) : Except ConvError Unit × Field δ :=
  f.store stod strValue

/-! ## Integer fields -/

/-- The number that a field of an integer type holds. -/
def Field.int? : Field δ → Option Int
  | ⟨.int16, value⟩ => some (Int16.toInt value)
  | ⟨.int32, value⟩ => some (Int32.toInt value)
  | ⟨.int64, value⟩ => some (Int64.toInt value)
  | _ => none

def FieldType.IsInteger (t : FieldType) : Prop := t = .int16 ∨ t = .int32 ∨ t = .int64

/-- What a field of the type can hold. -/
def FieldType.Holds : FieldType → Int → Prop
  | .int16, z => -2 ^ 15 ≤ z ∧ z < 2 ^ 15
  | .int32, z => -2 ^ 31 ≤ z ∧ z < 2 ^ 31
  | .int64, z => -2 ^ 63 ≤ z ∧ z < 2 ^ 63
  | _, _ => False

/-- What the conversion for the type takes: an `int`, also for `int16_t`, or a `long long`. -/
def FieldType.Converts : FieldType → Int → Prop
  | .int16, z => -2 ^ 31 ≤ z ∧ z < 2 ^ 31
  | .int32, z => -2 ^ 31 ≤ z ∧ z < 2 ^ 31
  | .int64, z => -2 ^ 63 ≤ z ∧ z < 2 ^ 63
  | _, _ => False

/-- What becomes of a converted number: `static_cast<int16_t>` keeps the low 16 bits. -/
def FieldType.cast : FieldType → Int → Int
  | .int16, z => z.bmod (2 ^ 16)
  | _, z => z

theorem FieldType.cast_eq_iff {t : FieldType} (integer : t.IsInteger) {z : Int}
    (converts : t.Converts z) : t.cast z = z ↔ t.Holds z := by
  rcases integer with rfl | rfl | rfl
  · simp only [FieldType.cast, FieldType.Holds, Int.bmod]
    split <;> omega
  · exact iff_of_true rfl converts
  · exact iff_of_true rfl converts

/-- A type is stored by a conversion and a cast, of which the first is exact. -/
theorem parse_of_conversion {t : FieldType} {text : Bytes}
    {conversion : Bytes → Except ConvError Int} {narrow : Int → t.Value δ}
    (parsed : t.parse stod text = (conversion text).map narrow)
    (exact : ∀ z, conversion text = .ok z ↔ LeadingNumeral text z ∧ t.Converts z)
    (held : ∀ z, t.Converts z → Field.int? ⟨t, narrow z⟩ = some (t.cast z)) :
    (∃ z value, LeadingNumeral text z ∧ t.Converts z ∧ t.parse stod text = .ok value ∧
      Field.int? ⟨t, value⟩ = some (t.cast z)) ∨
    ((∀ z, LeadingNumeral text z → ¬ t.Converts z) ∧ ∃ e, t.parse stod text = .error e) := by
  rw [parsed]
  cases answer : conversion text with
  | ok z =>
      obtain ⟨leading, converts⟩ := (exact z).mp answer
      exact Or.inl ⟨z, narrow z, leading, converts, rfl, held z converts⟩
  | error e =>
      refine Or.inr ⟨fun z leading converts => ?_, e, rfl⟩
      have read := (exact z).mpr ⟨leading, converts⟩
      rw [answer] at read
      cases read

/-- An integer field holds the numeral at the front of the text, cast to its type, or the text is
refused. -/
theorem parse_integer {t : FieldType} (integer : t.IsInteger) (text : Bytes) :
    (∃ z value, LeadingNumeral text z ∧ t.Converts z ∧ t.parse stod text = .ok value ∧
      Field.int? ⟨t, value⟩ = some (t.cast z)) ∨
    ((∀ z, LeadingNumeral text z → ¬ t.Converts z) ∧ ∃ e, t.parse stod text = .error e) := by
  rcases integer with rfl | rfl | rfl
  · exact parse_of_conversion stod rfl (fun _ => stoi_iff)
      fun _ _ => congrArg some Int16.toInt_ofInt
  · exact parse_of_conversion stod rfl (fun _ => stoi_iff)
      fun _ range => congrArg some (Int32.toInt_ofInt_of_le range.1 range.2)
  · exact parse_of_conversion stod rfl (fun _ => stoll_iff)
      fun _ range => congrArg some (Int64.toInt_ofInt_of_le range.1 range.2)

/-- Stored is the integer that the whole text denotes, or the text is refused and the field stays as
it was. -/
def ExactOrRefused (text : Bytes) (f : Field δ) (run : Except ConvError Unit × Field δ) : Prop :=
  (run.1 = .ok () ∧ run.2.type = f.type ∧ ∃ z, Denotes text z ∧ run.2.int? = some z) ∨
  ((∃ e, run.1 = .error e) ∧ run.2 = f)

/-- A numeral at the front of the text that the conversion takes is the whole text, and its number
fits the type. -/
def FieldType.Suits (t : FieldType) (text : Bytes) : Prop :=
  ∀ z, LeadingNumeral text z → t.Converts z → Denotes text z ∧ t.Holds z

theorem store_exact_iff (f : Field δ) (integer : f.type.IsInteger) (text : Bytes) :
    ExactOrRefused text f (f.store stod text) ↔ f.type.Suits text := by
  rcases parse_integer stod integer text with
    ⟨z, value, leading, converts, read, held⟩ | ⟨none, e, refused⟩
  · rw [Field.store_ok stod read]
    constructor
    · rintro (⟨_, _, z', numeral, same⟩ | ⟨⟨e, refused⟩, _⟩)
      · rw [held, Option.some.injEq] at same
        obtain rfl := leading.unique numeral.leading
        intro w leading' converts'
        obtain rfl := leading.unique leading'
        exact ⟨numeral, (FieldType.cast_eq_iff integer converts).mp same⟩
      · cases refused
    · intro suits
      obtain ⟨numeral, holds⟩ := suits z leading converts
      rw [(FieldType.cast_eq_iff integer converts).mpr holds] at held
      exact Or.inl ⟨rfl, rfl, z, numeral, held⟩
  · rw [Field.store_error stod refused]
    refine iff_of_true (Or.inr ⟨⟨e, rfl⟩, rfl⟩) fun z leading converts => ?_
    exact (none z leading converts).elim

/-- **When a number is stored exactly.** `set_value` and the constructor store what the whole text
denotes, or refuse it and leave the field alone, exactly for the texts that suit the type. -/
theorem setValue_exact_iff (f : Field δ) (integer : f.type.IsInteger) (text : Bytes) :
    (ExactOrRefused text f (f.setValue stod text) ↔ f.type.Suits text) ∧
      (ExactOrRefused text f (Field.construct stod f.type f.storage text) ↔ f.type.Suits text) :=
  ⟨store_exact_iff stod f integer text, store_exact_iff stod f integer text⟩

end

/-- None of the registered fields is a `double`. -/
def noDouble : Bytes → Except ConvError Unit := fun _ => .error .invalidArgument

/-- The default of `port`, "6479", is stored exactly. -/
theorem port_exact :
    ExactOrRefused [54, 52, 55, 57] (⟨.int16, (0 : Int16)⟩ : Field Unit)
      (Field.construct noDouble .int16 (0 : Int16) [54, 52, 55, 57]) := by
  refine (setValue_exact_iff _ (⟨.int16, (0 : Int16)⟩ : Field Unit) (Or.inl rfl) _).2.mpr ?_
  intro z leading _
  have whole : Denotes [54, 52, 55, 57] 6479 := by
    exact ⟨[], [54, 52, 55, 57], false, rfl, .none, List.cons_ne_nil _ _,
      List.all_eq_true.mp rfl, rfl⟩
  obtain rfl := leading.unique whole.leading
  exact ⟨whole, by simp only [FieldType.Holds]; omega⟩

/-- "65535" is stored to an `int16_t` as -1. -/
theorem int16_wraps :
    ¬ ∀ (f : Field Unit) (text : Bytes), f.type.IsInteger →
      ExactOrRefused text f (f.setValue noDouble text) := by
  intro all
  have whole : Denotes [54, 53, 53, 51, 53] 65535 := by
    exact ⟨[], [54, 53, 53, 51, 53], false, rfl, .none, List.cons_ne_nil _ _,
      List.all_eq_true.mp rfl, rfl⟩
  rcases all ⟨.int16, (0 : Int16)⟩ [54, 53, 53, 51, 53] (Or.inl rfl) with
    ⟨_, _, z, numeral, held⟩ | ⟨⟨e, refused⟩, _⟩
  · obtain rfl := numeral.leading.unique whole.leading
    exact absurd held (by decide)
  · cases refused

end Blp.Config

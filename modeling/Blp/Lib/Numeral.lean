import Blp.Lib.CString

/-!
# What the decimal conversions accept

`Denotes text z` says that a whole text denotes an integer: a sign or none, and digits.
`LeadingNumeral text z` is all that the conversions of `<string>` ask for: behind white space the
text starts with a numeral, and whatever follows it is left out. `stol_iff` and `stoi_iff` are
exact.
-/

namespace CString

/-- The text is a sign or none, and digits, and denotes `z`. -/
def Denotes (text : Bytes) (z : Int) : Prop :=
  ∃ sign ds negative, text = sign ++ ds ∧ IsSign sign negative ∧ ds ≠ [] ∧
    (∀ d ∈ ds, isDigit d = true) ∧ z = signedValue (negative, digitsValue ds)

/-- Behind white space the text starts with a numeral, the longest there, that denotes `z`. -/
def LeadingNumeral (text : Bytes) (z : Int) : Prop :=
  ∃ blanks numeral tail, text = blanks ++ (numeral ++ tail) ∧ (∀ b ∈ blanks, isSpace b = true) ∧
    Denotes numeral z ∧ ∀ b ∈ tail.head?, isDigit b = false

theorem leadingNumeral_iff {text : Bytes} {z : Int} :
    LeadingNumeral text z ↔ ∃ r, scan text = some r ∧ signedValue r = z := by
  constructor
  · rintro ⟨blanks, numeral, tail, rfl, space, whole, stop⟩
    obtain ⟨sign, ds, negative, rfl, signed, some_, digits, rfl⟩ := whole
    refine ⟨(negative, digitsValue ds), ?_, rfl⟩
    rw [List.append_assoc]
    exact scan_join space signed some_ digits stop
  · rintro ⟨⟨negative, magnitude⟩, read, rfl⟩
    obtain ⟨blanks, sign, ds, tail, rfl, space, signed, some_, digits, stop, value⟩ :=
      scan_split read
    have numeral : Denotes (sign ++ ds) (signedValue (negative, magnitude)) :=
      ⟨sign, ds, negative, rfl, signed, some_, digits, congrArg (signedValue ⟨negative, ·⟩) value⟩
    exact ⟨blanks, sign ++ ds, tail, by rw [List.append_assoc], space, numeral, stop⟩

theorem Denotes.leading {text : Bytes} {z : Int} (numeral : Denotes text z) :
    LeadingNumeral text z :=
  ⟨[], text, [], (List.append_nil text).symm, nofun, numeral, nofun⟩

theorem LeadingNumeral.unique {text : Bytes} {z z' : Int} (first : LeadingNumeral text z)
    (second : LeadingNumeral text z') : z = z' := by
  obtain ⟨r, read, rfl⟩ := leadingNumeral_iff.mp first
  obtain ⟨r', read', rfl⟩ := leadingNumeral_iff.mp second
  rw [read] at read'
  exact congrArg signedValue (Option.some.inj read')

theorem stol_iff {text : Bytes} {z : Int} :
    stol text = .ok z ↔ LeadingNumeral text z ∧ -2 ^ 63 ≤ z ∧ z < 2 ^ 63 := by
  rw [leadingNumeral_iff, stol_eq_ok_iff]

theorem stoll_iff {text : Bytes} {z : Int} :
    stoll text = .ok z ↔ LeadingNumeral text z ∧ -2 ^ 63 ≤ z ∧ z < 2 ^ 63 :=
  stol_iff

theorem stoi_iff {text : Bytes} {z : Int} :
    stoi text = .ok z ↔ LeadingNumeral text z ∧ -2 ^ 31 ≤ z ∧ z < 2 ^ 31 := by
  rw [stoi_eq_ok_iff, stol_iff, and_assoc]
  refine and_congr_right fun _ => ⟨And.right, fun range => ⟨?_, range⟩⟩
  omega

end CString

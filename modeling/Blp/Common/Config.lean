import Blp.Common.Field
import Mathlib.Data.List.DropRight
import Mathlib.Logic.Function.Basic

/-!
# Configuration files

`config::init` of `src/src/common/config.cpp`: a file is read line by line, and each line that
assigns to a registered field is stored there. `Entry` and `render` say what such a file is made of,
and `init_render` what it means: the last assignment to a name counts.
-/

namespace Blp.Config

open CString

/-! ## Lines -/

/-- `std::getline` on what is left of the stream: the line up to the next `'\n'`, which is taken off
as well, or all that is left. It fails where nothing is left. -/
def getline (stream : Bytes) : Option (Bytes × Bytes) :=
  if stream = [] then none
  else some (stream.takeWhile (· != 10), (stream.dropWhile (· != 10)).drop 1)

/-- The lines that a loop of `std::getline` sees. -/
def getlines : Bytes → List Bytes
  | [] => []
  | c :: stream =>
      if c = 10 then [] :: getlines stream
      else match getlines stream with
        | [] => [[c]]
        | line :: lines => (c :: line) :: lines

theorem getlines_line {line : Bytes} (single : 10 ∉ line) (stream : Bytes) :
    getlines (line ++ 10 :: stream) = line :: getlines stream := by
  induction line with
  | nil => rfl
  | cons c line ih =>
      obtain ⟨first, rest⟩ := not_or.mp (List.mem_cons.not.mp single)
      rw [List.cons_append, getlines, if_neg (Ne.symm first), ih rest]

/-- The last line needs no `'\n'`, unless it is empty. -/
theorem getlines_last {line : Bytes} (single : 10 ∉ line) :
    getlines line = if line = [] then [] else [line] := by
  induction line with
  | nil => rfl
  | cons c line ih =>
      obtain ⟨first, rest⟩ := not_or.mp (List.mem_cons.not.mp single)
      rw [getlines, if_neg (Ne.symm first), ih rest]
      cases line <;> rfl

theorem not_mem_takeWhile_line (stream : Bytes) : 10 ∉ stream.takeWhile (· != 10) := by
  intro member
  have other := List.mem_takeWhile_imp member
  simp at other

/-- `getlines` is that loop. -/
theorem getlines_eq (stream : Bytes) :
    getlines stream =
      match getline stream with
      | none => []
      | some (line, rest) => line :: getlines rest := by
  have single := not_mem_takeWhile_line stream
  have cut : stream = stream.takeWhile (· != 10) ++ stream.dropWhile (· != 10) :=
    List.takeWhile_append_dropWhile.symm
  unfold getline
  by_cases none : stream = []
  · subst none
    rfl
  rw [if_neg none]
  cases behind : stream.dropWhile (· != 10) with
  | nil =>
      rw [behind, List.append_nil] at cut
      rw [← cut] at single ⊢
      rw [getlines_last single, if_neg none]
      rfl
  | cons c rest =>
      have newline : c = 10 := by
        have stop := List.head?_dropWhile_not (· != 10) stream
        rw [behind] at stop
        simpa using stop
      subst newline
      rw [behind] at cut
      have split := congrArg getlines cut
      rw [getlines_line single] at split
      exact split

/-! ## Trimming -/

/-- What `" \t"` holds. -/
def isBlank (c : UInt8) : Bool := c == 32 || c == 9

/-- `substr` from the first byte that is not blank to the last one, or nothing. -/
def trim (str : Bytes) : Bytes := (str.dropWhile isBlank).rdropWhile isBlank

/-- A text without blanks around it. -/
structure Unpadded (text : Bytes) : Prop where
  front : ∀ b ∈ text.head?, isBlank b = false
  back : ∀ b ∈ text.getLast?, isBlank b = false

theorem notMem_blanks {c : UInt8} (mark : isBlank c = false) {pad : Bytes}
    (blank : ∀ b ∈ pad, isBlank b = true) : c ∉ pad := by
  intro member
  rw [blank c member] at mark
  cases mark

theorem dropWhile_pad {pad text : Bytes} (blank : ∀ b ∈ pad, isBlank b = true)
    (front : ∀ b ∈ text.head?, isBlank b = false) : (pad ++ text).dropWhile isBlank = text := by
  rw [List.dropWhile_append_of_pos blank]
  cases text with
  | nil => rfl
  | cons b text => rw [List.dropWhile_cons_of_neg (by rw [front b rfl]; exact Bool.false_ne_true)]

theorem rdropWhile_pad {pad text : Bytes} (blank : ∀ b ∈ pad, isBlank b = true)
    (back : ∀ b ∈ text.getLast?, isBlank b = false) :
    (text ++ pad).rdropWhile isBlank = text := by
  rw [List.rdropWhile, List.reverse_append, dropWhile_pad, List.reverse_reverse]
  · exact fun b member => blank b (List.mem_reverse.mp member)
  · rwa [List.head?_reverse]

/-- **Trimming takes the padding off**, and nothing of the text. -/
theorem trim_pad {before text after : Bytes} (blank : ∀ b ∈ before, isBlank b = true)
    (blank' : ∀ b ∈ after, isBlank b = true) (unpadded : Unpadded text) :
    trim (before ++ (text ++ after)) = text := by
  unfold trim
  cases text with
  | nil =>
      have all : ∀ b ∈ before ++ ([] ++ after), isBlank b = true :=
        List.forall_mem_append.mpr ⟨blank, blank'⟩
      rw [List.dropWhile_eq_nil_iff.mpr all]
      rfl
  | cons b text =>
      have front : ∀ c ∈ (b :: text ++ after).head?, isBlank c = false := unpadded.front
      rw [dropWhile_pad blank front]
      exact rdropWhile_pad blank' unpadded.back

/-! ## The fields -/

section

variable {δ : Type} (stod : Bytes → Except ConvError δ)

/-- `_s_field_map`: the registered fields by name, none where there is no map yet. -/
abbrev FieldMap (δ : Type) := Bytes → Option (Field δ)

/-- The constructor of `Register`: `insert` keeps a field that has the name already. -/
def register (ftype : FieldType) (fname : Bytes) (fstorage : ftype.Value δ) (fdefval : Bytes)
    (fieldMap : FieldMap δ) : Except ConvError Unit × FieldMap δ :=
  match Field.construct stod ftype fstorage fdefval with
  | (.error e, _) => (.error e, fieldMap)
  | (.ok (), field) =>
      (.ok (), match fieldMap fname with
        | some _ => fieldMap
        | none => Function.update fieldMap fname (some field))

/-- What leaves `init` as an exception. -/
inductive InitError
  | runtimeError (what : String)
  | conversion (e : ConvError)
  deriving DecidableEq, Repr

/-- The body of the loop. -/
def readLine (line : Bytes) (fieldMap : FieldMap δ) : Except ConvError Unit × FieldMap δ :=
  -- '#' or ';'
  if line = [] ∨ line.head? = some 35 ∨ line.head? = some 59 then (.ok (), fieldMap)
  else match line.idxOf? 61 with
    | none => (.ok (), fieldMap)
    | some pos =>
        let key := trim (line.take pos)
        let value := trim (line.drop (pos + 1))
        match fieldMap key with
        | none => (.ok (), fieldMap)
        | some field =>
            let run := field.setValue stod value
            (run.1, Function.update fieldMap key (some run.2))

/-- The loop, which an exception of a conversion ends. -/
def readLines : List Bytes → FieldMap δ → Except ConvError Unit × FieldMap δ
  | [], fieldMap => (.ok (), fieldMap)
  | line :: lines, fieldMap =>
      match readLine stod line fieldMap with
      | (.error e, fieldMap) => (.error e, fieldMap)
      | (.ok (), fieldMap) => readLines lines fieldMap

/-- `config::init` on the content of the file, or on `none` if it cannot be opened. -/
def init (filename : String) (file : Option Bytes) (fieldMap : FieldMap δ) :
    Except InitError Bool × FieldMap δ :=
  match file with
  | none => (.error (.runtimeError ("Unable to open config file: " ++ filename)), fieldMap)
  | some content =>
      match readLines stod (getlines content) fieldMap with
      | (.error e, fieldMap) => (.error (.conversion e), fieldMap)
      | (.ok (), fieldMap) => (.ok true, fieldMap)

/-! ## What a file is made of -/

/-- A line of the file: an assignment with blanks around its two sides, or a line that is none. -/
inductive Entry
  | pair (key value : Bytes) (indent beforeEq afterEq trail : Bytes)
  | other (text : Bytes)

def Entry.text : Entry → Bytes
  | .pair key value indent beforeEq afterEq trail =>
      indent ++ (key ++ beforeEq) ++ 61 :: (afterEq ++ (value ++ trail))
  | .other text => text

/-- Keys hold no `'='` and do not look like a comment, values may hold anything that stays on the
line, and the other lines are empty, comments or without `'='`. -/
inductive Entry.WellFormed : Entry → Prop
  | pair {key value indent beforeEq afterEq trail : Bytes}
      (keyUnpadded : Unpadded key) (noEq : 61 ∉ key) (keyLine : 10 ∉ key)
      (noComment : key.head? ≠ some 35 ∧ key.head? ≠ some 59)
      (valueUnpadded : Unpadded value) (valueLine : 10 ∉ value)
      (blanks : ∀ b ∈ indent ++ (beforeEq ++ (afterEq ++ trail)), isBlank b = true) :
      Entry.WellFormed (.pair key value indent beforeEq afterEq trail)
  | other {text : Bytes} (line : 10 ∉ text)
      (none : text = [] ∨ text.head? = some 35 ∨ text.head? = some 59 ∨ 61 ∉ text) :
      Entry.WellFormed (.other text)

/-- The lines one after another, the last one with or without its `'\n'`. -/
def render (final : Bool) : List Entry → Bytes
  | [] => []
  | [entry] => if final then entry.text ++ [10] else entry.text
  | entry :: entries => entry.text ++ 10 :: render final entries

def Entry.assigned : Entry → Option (Bytes × Bytes)
  | .pair key value _ _ _ _ => some (key, value)
  | .other _ => none

/-- The pairs of a file, in order. -/
def pairs (entries : List Entry) : List (Bytes × Bytes) := entries.filterMap Entry.assigned

/-- The value of the last pair with the name. -/
def lastValue (entries : List Entry) (name : Bytes) : Option Bytes :=
  (pairs entries).reverse.lookup name

/-! ## One line -/

theorem Entry.WellFormed.line {entry : Entry} (formed : entry.WellFormed) : 10 ∉ entry.text := by
  cases formed with
  | pair keyUnpadded noEq keyLine noComment valueUnpadded valueLine blanks =>
      have mark : isBlank 10 = false := rfl
      simp only [List.forall_mem_append] at blanks
      obtain ⟨indent, beforeEq, afterEq, trail⟩ := blanks
      simp only [Entry.text, List.mem_append, List.mem_cons, not_or]
      exact ⟨⟨notMem_blanks mark indent, keyLine, notMem_blanks mark beforeEq⟩, by decide,
        notMem_blanks mark afterEq, valueLine, notMem_blanks mark trail⟩
  | other line => exact line

theorem readLine_other {text : Bytes} (formed : (Entry.other text).WellFormed)
    (fieldMap : FieldMap δ) :
    readLine stod (Entry.other text).text fieldMap = (.ok (), fieldMap) := by
  cases formed with
  | other _ none =>
      unfold readLine
      split
      · rfl
      · rename_i line
        simp only [not_or] at line
        have absent : 61 ∉ (Entry.other text).text := by
          unfold Entry.text at line ⊢
          tauto
        rw [List.idxOf?_eq_none_iff.mpr absent]

/-- The text before the first `'='`, and the text behind it. -/
theorem idxOf?_split {before behind : Bytes} (first : 61 ∉ before) :
    (before ++ 61 :: behind).idxOf? 61 = some before.length := by
  rw [List.idxOf?_eq_some_iff]
  refine ⟨by simp, by simp, ?_⟩
  intro j less
  rw [List.getElem_append_left less]
  exact fun same => first (by simpa using same ▸ List.getElem_mem less)

/-- No padding hides a comment, and none makes one. -/
theorem head?_pair_ne {key indent beforeEq behind : Bytes} {c : UInt8}
    (blanks : ∀ b ∈ indent, isBlank b = true) (blanks' : ∀ b ∈ beforeEq, isBlank b = true)
    (mark : isBlank c = false) (other : c ≠ 61) (noComment : key.head? ≠ some c) :
    (indent ++ (key ++ beforeEq) ++ 61 :: behind).head? ≠ some c := by
  have noBlank : ∀ {b : UInt8} {pad : Bytes}, (∀ d ∈ b :: pad, isBlank d = true) → b ≠ c := by
    rintro b pad blank rfl
    exact notMem_blanks mark blank List.mem_cons_self
  cases indent with
  | cons b indent => exact fun first => noBlank blanks (Option.some.inj first)
  | nil =>
      cases key with
      | cons b key => exact noComment
      | nil =>
          cases beforeEq with
          | cons b beforeEq => exact fun first => noBlank blanks' (Option.some.inj first)
          | nil => exact fun first => other (Option.some.inj first).symm

theorem readLine_pair {key value indent beforeEq afterEq trail : Bytes}
    (formed : (Entry.pair key value indent beforeEq afterEq trail).WellFormed)
    (fieldMap : FieldMap δ) :
    readLine stod (Entry.pair key value indent beforeEq afterEq trail).text fieldMap =
      match fieldMap key with
      | none => (.ok (), fieldMap)
      | some field =>
          ((field.setValue stod value).1,
            Function.update fieldMap key (some (field.setValue stod value).2)) := by
  cases formed with
  | pair keyUnpadded noEq keyLine noComment valueUnpadded valueLine blanks =>
      simp only [List.forall_mem_append] at blanks
      obtain ⟨indentBlank, beforeBlank, afterBlank, trailBlank⟩ := blanks
      have mark : isBlank 61 = false := rfl
      have first : 61 ∉ indent ++ (key ++ beforeEq) := by
        simp only [List.mem_append, not_or]
        exact ⟨notMem_blanks mark indentBlank, noEq, notMem_blanks mark beforeBlank⟩
      have assignment : ¬ ((Entry.pair key value indent beforeEq afterEq trail).text = [] ∨
          (Entry.pair key value indent beforeEq afterEq trail).text.head? = some 35 ∨
          (Entry.pair key value indent beforeEq afterEq trail).text.head? = some 59) := by
        rintro (empty | hash | semicolon)
        · simp [Entry.text] at empty
        · exact head?_pair_ne indentBlank beforeBlank rfl (by decide) noComment.1 hash
        · exact head?_pair_ne indentBlank beforeBlank rfl (by decide) noComment.2 semicolon
      have before : trim (indent ++ (key ++ beforeEq)) = key :=
        trim_pad indentBlank beforeBlank keyUnpadded
      have behind : trim (afterEq ++ (value ++ trail)) = value :=
        trim_pad afterBlank trailBlank valueUnpadded
      unfold readLine
      rw [if_neg assignment]
      have taken : (indent ++ (key ++ beforeEq) ++ 61 :: (afterEq ++ (value ++ trail))).take
          (indent ++ (key ++ beforeEq)).length = indent ++ (key ++ beforeEq) := List.take_left
      have dropped : (indent ++ (key ++ beforeEq) ++ 61 :: (afterEq ++ (value ++ trail))).drop
          ((indent ++ (key ++ beforeEq)).length + 1) = afterEq ++ (value ++ trail) := by
        rw [← List.drop_drop, List.drop_left]
        rfl
      simp only [Entry.text, idxOf?_split first, taken, dropped, before, behind]

/-! ## The whole file -/

/-- What is read of a rendered file are its lines; an empty one at the end does nothing. -/
theorem readLines_render {entries : List Entry} (formed : ∀ entry ∈ entries, entry.WellFormed)
    (final : Bool) (fieldMap : FieldMap δ) :
    readLines stod (getlines (render final entries)) fieldMap =
      readLines stod (entries.map Entry.text) fieldMap := by
  induction entries generalizing fieldMap with
  | nil => rfl
  | cons entry entries ih =>
      obtain ⟨first, rest⟩ := List.forall_mem_cons.mp formed
      cases entries with
      | nil =>
          cases final with
          | true =>
              rw [render, if_pos rfl, getlines_line first.line]
              rfl
          | false =>
              rw [render, if_neg Bool.false_ne_true, getlines_last first.line]
              split
              · rename_i empty
                rw [List.map_singleton, empty]
                rfl
              · rfl
      | cons next entries =>
          rw [render, getlines_line first.line, List.map_cons, readLines, readLines]
          · split
            · rfl
            · exact ih rest _
          · exact List.cons_ne_nil _ _

/-- A field after the last value assigned to it. -/
def Field.assigned (f : Field δ) : Option Bytes → Field δ
  | none => f
  | some value => (f.setValue stod value).2

/-- What a file means: each registered field has the last value assigned to its name. -/
def meaning (entries : List Entry) (fieldMap : FieldMap δ) : FieldMap δ :=
  fun name => (fieldMap name).map fun f => f.assigned stod (lastValue entries name)

theorem pairs_cons (entry : Entry) (entries : List Entry) :
    pairs (entry :: entries) = pairs [entry] ++ pairs entries := by
  unfold pairs
  rw [← List.filterMap_append, List.singleton_append]

theorem lastValue_cons (entry : Entry) (entries : List Entry) (name : Bytes) :
    lastValue (entry :: entries) name =
      (lastValue entries name).or (lastValue [entry] name) := by
  unfold lastValue
  rw [pairs_cons, List.reverse_append, List.lookup_append]

theorem lastValue_pair (key value indent beforeEq afterEq trail name : Bytes) :
    lastValue [.pair key value indent beforeEq afterEq trail] name =
      if name = key then some value else none := by
  by_cases same : name = key
  · rw [if_pos same]
    simp [lastValue, pairs, Entry.assigned, same]
  · rw [if_neg same]
    simp [lastValue, pairs, Entry.assigned, same]

theorem mem_pairs_of_lastValue {entries : List Entry} {name value : Bytes}
    (last : lastValue entries name = some value) : (name, value) ∈ pairs entries := by
  obtain ⟨front, back, split, _⟩ := List.lookup_eq_some_iff.mp last
  rw [← List.mem_reverse, split]
  exact List.mem_append_right _ List.mem_cons_self

/-- Where no registered name is assigned to, nothing changes. -/
theorem meaning_eq_self {entries : List Entry} {fieldMap : FieldMap δ}
    (unnamed : ∀ name f, fieldMap name = some f → lastValue entries name = none) :
    meaning stod entries fieldMap = fieldMap := by
  funext name
  unfold meaning
  cases registered : fieldMap name with
  | none => rfl
  | some f =>
      rw [unnamed name f registered]
      rfl

theorem meaning_pair {key : Bytes} {fieldMap : FieldMap δ} {f : Field δ}
    (registered : fieldMap key = some f) (value indent beforeEq afterEq trail : Bytes) :
    meaning stod [.pair key value indent beforeEq afterEq trail] fieldMap =
      Function.update fieldMap key (some (f.setValue stod value).2) := by
  funext name
  unfold meaning
  rw [lastValue_pair]
  by_cases same : name = key
  · rw [same, registered, if_pos rfl, Function.update_self]
    rfl
  · rw [if_neg same, Function.update_of_ne same]
    cases fieldMap name <;> rfl

/-- The conversions take every text that is assigned to a registered field. -/
def Accepted (entries : List Entry) (fieldMap : FieldMap δ) : Prop :=
  ∀ p ∈ pairs entries, ∀ f, fieldMap p.1 = some f →
    f.type.IsInteger ∨ f.type = .double → ∃ value, f.type.parse stod p.2 = .ok value

theorem accepted_cons {entry : Entry} {entries : List Entry} {fieldMap : FieldMap δ} :
    Accepted stod (entry :: entries) fieldMap ↔
      Accepted stod [entry] fieldMap ∧ Accepted stod entries fieldMap := by
  unfold Accepted
  rw [pairs_cons, List.forall_mem_append]

/-- Texts and truth values are stored from any text. -/
theorem setValue_accepted {f : Field δ} {text : Bytes}
    (numeric : f.type.IsInteger ∨ f.type = .double → ∃ value, f.type.parse stod text = .ok value) :
    ∃ value, ∀ storage, (⟨f.type, storage⟩ : Field δ).setValue stod text =
      (.ok (), ⟨f.type, value⟩) := by
  have parsed : ∃ value, f.type.parse stod text = .ok value := by
    obtain ⟨t, storage⟩ := f
    cases t with
    | string => exact ⟨text, rfl⟩
    | bool => exact ⟨_, rfl⟩
    | int16 => exact numeric (Or.inl (Or.inl rfl))
    | int32 => exact numeric (Or.inl (Or.inr (Or.inl rfl)))
    | int64 => exact numeric (Or.inl (Or.inr (Or.inr rfl)))
    | double => exact numeric (Or.inr rfl)
  obtain ⟨value, parsed⟩ := parsed
  exact ⟨value, fun storage => Field.store_ok stod parsed⟩

@[simp] theorem Field.assigned_type (f : Field δ) (value : Option Bytes) :
    (f.assigned stod value).type = f.type := by
  cases value with
  | none => rfl
  | some value =>
      simp only [Field.assigned, Field.setValue, Field.store]
      split <;> rfl

/-- What a field held before does not matter. -/
theorem Field.assigned_eq {f g : Field δ} (same : g.type = f.type) {text : Bytes}
    (numeric : f.type.IsInteger ∨ f.type = .double → ∃ value, f.type.parse stod text = .ok value) :
    g.assigned stod (some text) = f.assigned stod (some text) := by
  obtain ⟨value, stored⟩ := setValue_accepted stod numeric
  obtain ⟨t, storage⟩ := f
  obtain ⟨t', storage'⟩ := g
  obtain rfl := same
  simp only [Field.assigned, stored]

/-- The values assigned later are accepted as well: no field changes its type. -/
theorem Accepted.meaning {entries before : List Entry} {fieldMap : FieldMap δ}
    (accepted : Accepted stod entries fieldMap) :
    Accepted stod entries (meaning stod before fieldMap) := by
  intro p member g found
  obtain ⟨f, registered, rfl⟩ := Option.map_eq_some_iff.mp found
  rw [Field.assigned_type]
  exact accepted p member f registered

theorem meaning_cons (entry : Entry) {entries : List Entry} {fieldMap : FieldMap δ}
    (accepted : Accepted stod entries fieldMap) :
    meaning stod entries (meaning stod [entry] fieldMap) =
      meaning stod (entry :: entries) fieldMap := by
  funext name
  simp only [meaning, Option.map_map, lastValue_cons entry entries name]
  cases registered : fieldMap name with
  | none => rfl
  | some f =>
      simp only [Option.map_some, Function.comp, Option.some.injEq]
      cases last : lastValue entries name with
      | none => rfl
      | some value =>
          exact Field.assigned_eq stod (Field.assigned_type stod _ _)
            (accepted _ (mem_pairs_of_lastValue last) f registered)

/-- A line does what its entry says. -/
theorem readLine_entry {entry : Entry} (formed : entry.WellFormed) {fieldMap : FieldMap δ}
    (accepted : Accepted stod [entry] fieldMap) :
    readLine stod entry.text fieldMap = (.ok (), meaning stod [entry] fieldMap) := by
  cases entry with
  | other text =>
      rw [readLine_other stod formed, meaning_eq_self stod fun _ _ _ => rfl]
  | pair key value indent beforeEq afterEq trail =>
      rw [readLine_pair stod formed]
      cases registered : fieldMap key with
      | none =>
          have unnamed : ∀ name f, fieldMap name = some f →
              lastValue [.pair key value indent beforeEq afterEq trail] name = none := by
            intro name f found
            rw [lastValue_pair, if_neg]
            rintro rfl
            rw [registered] at found
            cases found
          rw [meaning_eq_self stod unnamed]
      | some f =>
          obtain ⟨stored, run⟩ := setValue_accepted stod
            (accepted (key, value) List.mem_cons_self f registered)
          have done : (f.setValue stod value).1 = .ok () := congrArg Prod.fst (run f.storage)
          rw [meaning_pair stod registered]
          exact Prod.ext done rfl

theorem readLines_eq {entries : List Entry} (formed : ∀ entry ∈ entries, entry.WellFormed)
    {fieldMap : FieldMap δ} (accepted : Accepted stod entries fieldMap) :
    readLines stod (entries.map Entry.text) fieldMap =
      (.ok (), meaning stod entries fieldMap) := by
  induction entries generalizing fieldMap with
  | nil =>
      rw [meaning_eq_self stod fun _ _ _ => rfl]
      rfl
  | cons entry entries ih =>
      obtain ⟨first, rest⟩ := List.forall_mem_cons.mp formed
      obtain ⟨here, later⟩ := (accepted_cons stod).mp accepted
      simp only [List.map_cons, readLines, readLine_entry stod first here,
        ih rest (later.meaning stod), meaning_cons stod entry later]

/-- The line is an assignment to a registered field. -/
def Entry.counts (fieldMap : FieldMap δ) (entry : Entry) : Bool :=
  entry.assigned.any fun p => (fieldMap p.1).isSome

theorem lastValue_filter {entries : List Entry} {fieldMap : FieldMap δ} {name : Bytes} {f : Field δ}
    (registered : fieldMap name = some f) :
    lastValue (entries.filter (Entry.counts fieldMap)) name = lastValue entries name := by
  induction entries with
  | nil => rfl
  | cons entry entries ih =>
      rw [lastValue_cons, List.filter_cons]
      split
      · rw [lastValue_cons, ih]
      · rename_i other
        have unnamed : lastValue [entry] name = none := by
          cases entry with
          | other text => rfl
          | pair key value indent beforeEq afterEq trail =>
              rw [lastValue_pair, if_neg]
              rintro rfl
              exact other (by simp [Entry.counts, Entry.assigned, registered])
        rw [ih, unnamed, Option.or_none]

theorem init_render_eq (filename : String) {entries : List Entry}
    (formed : ∀ entry ∈ entries, entry.WellFormed) {fieldMap : FieldMap δ}
    (accepted : Accepted stod entries fieldMap) (final : Bool) :
    init stod filename (some (render final entries)) fieldMap =
      (.ok true, meaning stod entries fieldMap) := by
  simp only [init, readLines_render stod formed, readLines_eq stod formed accepted]

/-- **A configuration text means its assignments.** Whatever the layout, `init` succeeds, every
registered string has the last value assigned to its name or keeps its own, as every field does, no
field is added, and only the lines that assign to a registered field count. -/
theorem init_render (filename : String) {entries : List Entry}
    (formed : ∀ entry ∈ entries, entry.WellFormed) {fieldMap : FieldMap δ}
    (accepted : Accepted stod entries fieldMap) (final : Bool) :
    ∃ after, init stod filename (some (render final entries)) fieldMap = (.ok true, after) ∧
      (∀ name old, fieldMap name = some ⟨.string, old⟩ →
        after name = some ⟨.string, (lastValue entries name).getD old⟩) ∧
      (∀ name, fieldMap name = none → after name = none) ∧
      (∀ name f, fieldMap name = some f →
        after name = some (f.assigned stod (lastValue entries name))) ∧
      init stod filename (some (render final (entries.filter (Entry.counts fieldMap)))) fieldMap =
        (.ok true, after) := by
  refine ⟨_, init_render_eq stod filename formed accepted final, ?_, ?_, ?_, ?_⟩
  · intro name old registered
    simp only [meaning, registered, Option.map_some]
    cases lastValue entries name <;> rfl
  · intro name free
    simp only [meaning, free, Option.map_none]
  · intro name f registered
    simp only [meaning, registered, Option.map_some]
  · have formed' : ∀ entry ∈ entries.filter (Entry.counts fieldMap), entry.WellFormed :=
      fun entry member => formed entry (List.mem_of_mem_filter member)
    have accepted' : Accepted stod (entries.filter (Entry.counts fieldMap)) fieldMap := by
      intro p member
      exact accepted p ((List.filter_sublist.filterMap _).subset member)
    have same : meaning stod (entries.filter (Entry.counts fieldMap)) fieldMap =
        meaning stod entries fieldMap := by
      funext name
      unfold meaning
      cases registered : fieldMap name with
      | none => rfl
      | some f => rw [lastValue_filter registered]
    rw [init_render_eq stod filename formed' accepted' final, same]

end

/-! ## The fields of the program -/

def port : Bytes := [112, 111, 114, 116]

/-- "replica_port" -/
def replicaPort : Bytes := [114, 101, 112, 108, 105, 99, 97, 95, 112, 111, 114, 116]

/-- "replicate_host" -/
def replicateHost : Bytes := [114, 101, 112, 108, 105, 99, 97, 116, 101, 95, 104, 111, 115, 116]

def model : Bytes := [109, 111, 100, 101, 108]

section

variable {δ : Type} (stod : Bytes → Except ConvError δ)

/-- The registrations of `config.cpp`: "6479", "6480", "127.0.0.1" and "master". -/
def registrations : List (FieldMap δ → Except ConvError Unit × FieldMap δ) :=
  [register stod .int16 port (0 : Int16) [54, 52, 55, 57],
    register stod .int16 replicaPort (0 : Int16) [54, 52, 56, 48],
    register stod .string replicateHost ([] : Bytes) [49, 50, 55, 46, 48, 46, 48, 46, 49],
    register stod .string model ([] : Bytes) [109, 97, 115, 116, 101, 114]]

/-- The map that the static initialisation of `config.cpp` leaves. -/
def startup : FieldMap δ :=
  (registrations stod).foldl (fun fieldMap register => (register fieldMap).2) fun _ => none

/-- Every default is taken by the conversion for its field. -/
theorem registrations_ok : ∀ register ∈ registrations stod, ∀ fieldMap : FieldMap δ,
    (register fieldMap).1 = .ok () := by
  simp only [registrations, List.forall_mem_cons, List.not_mem_nil, false_implies, implies_true,
    and_true]
  exact ⟨fun _ => rfl, fun _ => rfl, fun _ => rfl, fun _ => rfl⟩

/-- A new name gets the field that the constructor leaves. -/
theorem register_new {ftype : FieldType} {fname fdefval : Bytes} {fstorage : ftype.Value δ}
    {field : Field δ} {fieldMap : FieldMap δ} (free : fieldMap fname = none)
    (built : Field.construct stod ftype fstorage fdefval = (.ok (), field)) :
    register stod ftype fname fstorage fdefval fieldMap =
      (.ok (), Function.update fieldMap fname (some field)) := by
  simp only [register, built, free]

theorem startup_eq :
    startup stod =
      Function.update (Function.update (Function.update (Function.update (fun _ => none)
        port (some ⟨.int16, (6479 : Int16)⟩))
        replicaPort (some ⟨.int16, (6480 : Int16)⟩))
        replicateHost (some ⟨.string, [49, 50, 55, 46, 48, 46, 48, 46, 49]⟩))
        model (some ⟨.string, [109, 97, 115, 116, 101, 114]⟩) := by
  have portStored : Field.construct stod .int16 (0 : Int16) [54, 52, 55, 57] =
      (.ok (), ⟨.int16, (6479 : Int16)⟩) := rfl
  have replicaPortStored : Field.construct stod .int16 (0 : Int16) [54, 52, 56, 48] =
      (.ok (), ⟨.int16, (6480 : Int16)⟩) := rfl
  have textStored : ∀ text, Field.construct stod .string ([] : Bytes) text =
      (.ok (), ⟨.string, text⟩) := fun _ => rfl
  simp only [startup, registrations, List.foldl_cons, List.foldl_nil]
  rw [register_new stod _ portStored, register_new stod _ replicaPortStored,
    register_new stod _ (textStored _), register_new stod _ (textStored _)]
  all_goals rfl

theorem unpadded_of_ends {b c : UInt8} {text : Bytes} (front : isBlank b = false)
    (back : isBlank c = false) : Unpadded (b :: (text ++ [c])) := by
  refine ⟨?_, ?_⟩
  · rintro _ ⟨⟩
    exact front
  · rw [← List.cons_append, List.getLast?_concat]
    rintro _ ⟨⟩
    exact back

/-- " model =\ta=b" behind a comment sets the model to "a=b". -/
theorem init_startup_model :
    ∃ after, init noDouble "blp.conf"
        (some (render true [.other [35, 61], .pair model [97, 61, 98] [32] [32] [9] []]))
        (startup noDouble) = (.ok true, after) ∧
      after model = some ⟨.string, [97, 61, 98]⟩ := by
  have formed : ∀ entry ∈ [Entry.other [35, 61], .pair model [97, 61, 98] [32] [32] [9] []],
      entry.WellFormed := by
    refine List.forall_mem_cons.mpr ⟨.other (by decide) (Or.inr (Or.inl rfl)),
      List.forall_mem_singleton.mpr ?_⟩
    have key : Unpadded (109 :: ([111, 100, 101] ++ [108])) := unpadded_of_ends rfl rfl
    have value : Unpadded (97 :: ([61] ++ [98])) := unpadded_of_ends rfl rfl
    exact .pair key (by decide) (by decide) (by decide) value (by decide)
      (List.all_eq_true.mp rfl)
  have stored : startup noDouble model =
      some ⟨.string, [109, 97, 115, 116, 101, 114]⟩ := by
    rw [startup_eq, Function.update_self]
  have accepted : Accepted noDouble
      [.other [35, 61], .pair model [97, 61, 98] [32] [32] [9] []] (startup noDouble) := by
    refine List.forall_mem_singleton.mpr ?_
    rintro f registered numeric
    rw [stored] at registered
    cases registered
    rcases numeric with (same | same | same) | same <;> cases same
  obtain ⟨after, run, strings, _⟩ := init_render _ "blp.conf" formed accepted true
  exact ⟨after, run, strings model _ stored⟩

end

end Blp.Config

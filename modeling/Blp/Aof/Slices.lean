import Blp.Aof.Writer

/-!
# The end of the slice loop

The writer writes a batch in slices of at most 64 iovecs and goes on until `idx` has passed all of
them. It moves on by the bytes that `writev` returns, so an empty iovec is passed only behind bytes
of the same call: a slice without a byte in it is written again and again.

* `sliceLoop_ends_iff`: the loop ends exactly if no slice of the batch can be without a byte.
* `run_slices`: the rounds of the loop are the steps of the writer.
-/

namespace Blp.Aof

open CString Runs

/-- One round of the slice loop on the iovecs from `idx` on: `some n` is a `writev` that returns
`n`, `none` one that fails with `EINTR`. -/
def sliceRound (iovs : List Bytes) : Option Nat → List Bytes
  | none => iovs
  | some n => advance iovs n

/-- The iovecs from `idx` on behind `k` rounds. -/
def slices (results : Nat → Option Nat) (batch : List Bytes) : Nat → List Bytes
  | 0 => batch
  | k + 1 => sliceRound (slices results batch k) (results k)

/-- `idx` behind `k` rounds. -/
def idx (results : Nat → Option Nat) (batch : List Bytes) (k : Nat) : Nat :=
  batch.length - (slices results batch k).length

/-- The bytes that the next `writev` is asked for. -/
def asked (iovs : List Bytes) : Nat := (iovs.take iovMaxSlice).flatten.length

/-- What `writev` may do: `EINTR` finitely often, and otherwise write at most the bytes it is asked
for, and at least one of them if there are any. -/
structure Fair (results : Nat → Option Nat) (batch : List Bytes) : Prop where
  most : ∀ k n, results k = some n → n ≤ asked (slices results batch k)
  least : ∀ k n, results k = some n → 0 < asked (slices results batch k) → 0 < n
  calm : ∃ last, ∀ k ≥ last, results k ≠ none

/-- The loop `while (idx < iovs.size())` ends. -/
def SliceLoopEnds (results : Nat → Option Nat) (batch : List Bytes) : Prop :=
  ∃ k, idx results batch k = batch.length

/-- Every slice of the batch has a byte in it: there is no empty payload at its end, and there are
no 64 empty payloads in a row. -/
def NoEmptySlice (batch : List Bytes) : Prop :=
  ∀ k < batch.length, ∃ s ∈ (batch.drop k).take iovMaxSlice, s ≠ []

instance (batch : List Bytes) : Decidable (NoEmptySlice batch) :=
  inferInstanceAs (Decidable (∀ k < batch.length, ∃ s ∈ (batch.drop k).take iovMaxSlice, s ≠ []))

/-! ## Advancing -/

theorem length_advance_le (iovs : List Bytes) (n : Nat) :
    (advance iovs n).length ≤ iovs.length := by
  induction iovs generalizing n with
  | nil => exact Nat.le_refl _
  | cons iov iovs ih =>
      rw [advance]
      split
      · split
        · exact Nat.le_succ_of_le (ih _)
        · exact Nat.le_refl _
      · exact Nat.le_refl _

theorem length_slices_le (results : Nat → Option Nat) (batch : List Bytes) (k : Nat) :
    (slices results batch k).length ≤ batch.length := by
  induction k with
  | zero => exact Nat.le_refl _
  | succ k ih =>
      rw [slices]
      cases results k with
      | none => exact ih
      | some n => exact Nat.le_trans (length_advance_le _ n) ih

theorem idx_eq_iff {results : Nat → Option Nat} {batch : List Bytes} (some_ : batch ≠ [])
    (k : Nat) : idx results batch k = batch.length ↔ slices results batch k = [] := by
  have positive := List.length_pos_iff.mpr some_
  have le := length_slices_le results batch k
  rw [idx, ← List.length_eq_zero_iff]
  omega

/-- Advancing by the bytes in front of some iovecs leaves these as they are. -/
theorem advance_append {front back : List Bytes} {n : Nat} (within : n ≤ front.flatten.length) :
    ∃ rest, advance (front ++ back) n = rest ++ back := by
  induction front generalizing n with
  | nil =>
      obtain rfl := Nat.le_zero.mp within
      refine ⟨[], ?_⟩
      cases back <;> rfl
  | cons iov front ih =>
      rw [List.flatten_cons, List.length_append] at within
      rw [List.cons_append, advance]
      split
      · split
        · exact ih (by omega)
        · exact ⟨iov.drop n :: front, rfl⟩
      · exact ⟨iov :: front, rfl⟩

theorem NoEmptySlice.tail {iov : Bytes} {iovs : List Bytes} (spaced : NoEmptySlice (iov :: iovs)) :
    NoEmptySlice iovs := fun k inside => spaced (k + 1) (Nat.succ_lt_succ inside)

/-- An iovec of which a part is written has a byte left. -/
theorem NoEmptySlice.advance {iovs : List Bytes} (spaced : NoEmptySlice iovs) (n : Nat) :
    NoEmptySlice (Aof.advance iovs n) := by
  induction iovs generalizing n with
  | nil => exact spaced
  | cons iov iovs ih =>
      rw [Aof.advance]
      split
      · split
        · exact ih spaced.tail _
        · rename_i inside
          intro k
          cases k with
          | zero =>
              intro _
              refine ⟨iov.drop n, List.mem_cons_self, fun none => inside ?_⟩
              exact List.drop_eq_nil_iff.mp none
          | succ k => exact fun later => spaced.tail k (Nat.lt_of_succ_lt_succ later)
      · exact spaced

/-! ## When the loop ends -/

theorem NoEmptySlice.slices {results : Nat → Option Nat} {batch : List Bytes}
    (spaced : NoEmptySlice batch) (k : Nat) : NoEmptySlice (Aof.slices results batch k) := by
  induction k with
  | zero => exact spaced
  | succ k ih =>
      rw [Aof.slices]
      cases results k with
      | none => exact ih
      | some n => exact ih.advance n

theorem asked_pos {iovs : List Bytes} (spaced : NoEmptySlice iovs) (some_ : iovs ≠ []) :
    0 < asked iovs := by
  obtain ⟨s, member, byte⟩ := spaced 0 (List.length_pos_iff.mpr some_)
  apply List.length_pos_iff.mpr
  exact fun none => byte (List.flatten_eq_nil_iff.mp none s member)

theorem asked_le (iovs : List Bytes) : asked iovs ≤ iovs.flatten.length := by
  conv_rhs => rw [← List.take_append_drop iovMaxSlice iovs, List.flatten_append,
    List.length_append]
  exact Nat.le_add_right _ _

/-- Where every slice has a byte in it, a round without `EINTR` leaves fewer bytes. -/
theorem slices_shrink {results : Nat → Option Nat} {batch : List Bytes} (fair : Fair results batch)
    (spaced : NoEmptySlice batch) {k : Nat} (calm : results k ≠ none)
    (more : slices results batch k ≠ []) :
    (slices results batch (k + 1)).flatten.length < (slices results batch k).flatten.length := by
  obtain ⟨n, wrote⟩ := Option.ne_none_iff_exists'.mp calm
  have positive := asked_pos (spaced.slices k) more
  have least := fair.least k n wrote positive
  have bytes := asked_le (slices results batch k)
  rw [slices, wrote, sliceRound, flatten_advance, List.length_drop]
  omega

theorem exists_slices_eq_nil {results : Nat → Option Nat} {batch : List Bytes}
    (fair : Fair results batch) (spaced : NoEmptySlice batch) :
    ∃ k, slices results batch k = [] := by
  obtain ⟨last, calm⟩ := fair.calm
  -- behind the last `EINTR`, by the number of bytes left
  have ends : ∀ m k, last ≤ k → (slices results batch k).flatten.length ≤ m →
      ∃ k, slices results batch k = [] := by
    intro m
    induction m with
    | zero =>
        intro k _ none
        refine ⟨k, by_contra fun more => ?_⟩
        have positive := asked_pos (spaced.slices k) more
        have bytes := asked_le (slices results batch k)
        omega
    | succ m ih =>
        intro k later size
        by_cases done : slices results batch k = []
        · exact ⟨k, done⟩
        · have fewer := slices_shrink fair spaced (calm k later) done
          exact ih (k + 1) (Nat.le_succ_of_le later) (by omega)
  exact ends _ last (Nat.le_refl _) (Nat.le_refl _)

/-- A slice without a byte is never passed. -/
theorem suffix_slices {results : Nat → Option Nat} {batch : List Bytes} (fair : Fair results batch)
    {stuck : Nat} (empty : ∀ s ∈ (batch.drop stuck).take iovMaxSlice, s = []) (k : Nat) :
    batch.drop stuck <:+ slices results batch k := by
  induction k with
  | zero => exact List.drop_suffix _ _
  | succ k ih =>
      rw [slices]
      cases wrote : results k with
      | none => exact ih
      | some n =>
          obtain ⟨front, split⟩ := ih
          have most := fair.most k n wrote
          have window : asked (front ++ batch.drop stuck) ≤ front.flatten.length := by
            have none : ((batch.drop stuck).take (iovMaxSlice - front.length)).flatten = [] := by
              apply List.flatten_eq_nil_iff.mpr
              intro s member
              exact empty s ((List.take_prefix_take_left (Nat.sub_le _ _)).subset member)
            rw [asked, List.take_append, List.flatten_append, none, List.append_nil]
            exact asked_le front
          rw [← split] at most ⊢
          obtain ⟨rest, moved⟩ : ∃ rest, advance (front ++ batch.drop stuck) n =
              rest ++ batch.drop stuck := advance_append (Nat.le_trans most window)
          exact ⟨rest, moved.symm⟩

theorem not_sliceLoopEnds {results : Nat → Option Nat} {batch : List Bytes}
    (fair : Fair results batch) {stuck : Nat} (inside : stuck < batch.length)
    (empty : ∀ s ∈ (batch.drop stuck).take iovMaxSlice, s = []) :
    ¬ SliceLoopEnds results batch := by
  intro ends
  obtain ⟨k, last⟩ := ends
  have some_ : batch ≠ [] := List.ne_nil_of_length_pos (Nat.zero_lt_of_lt inside)
  have kept := (suffix_slices fair empty k).length_le
  rw [(idx_eq_iff some_ k).mp last, List.length_drop, List.length_nil] at kept
  omega

/-- **When the slice loop ends**: exactly if every slice of the batch has a byte in it. -/
theorem sliceLoop_ends_iff {results : Nat → Option Nat} {batch : List Bytes} (some_ : batch ≠ [])
    (fair : Fair results batch) : SliceLoopEnds results batch ↔ NoEmptySlice batch := by
  constructor
  · intro ends stuck inside
    by_contra none
    refine not_sliceLoopEnds fair inside (fun s member => ?_) ends
    by_contra byte
    exact none ⟨s, member, byte⟩
  · intro spaced
    obtain ⟨k, done⟩ := exists_slices_eq_nil fair spaced
    exact ⟨k, (idx_eq_iff some_ k).mpr done⟩

/-- Two short writes behind an `EINTR`; the first stops in front of the empty payload. -/
def shortResults : Nat → Option Nat
  | 0 => none
  | 1 => some 1
  | 2 => some 1
  | _ => some 0

theorem slices_shortResults (k : Nat) : slices shortResults [[97], [], [98]] (k + 3) = [] := by
  induction k with
  | zero => rfl
  | succ k ih => rw [slices, ih]; rfl

theorem sliceLoop_ends_shortResults :
    Fair shortResults [[97], [], [98]] ∧ SliceLoopEnds shortResults [[97], [], [98]] := by
  have fair : Fair shortResults [[97], [], [98]] := by
    refine ⟨?_, ?_, 1, ?_⟩
    · intro k n wrote
      match k with
      | 0 => cases wrote
      | 1 => cases wrote; decide
      | 2 => cases wrote; decide
      | k + 3 => cases wrote; exact Nat.zero_le _
    · intro k n wrote some_
      match k with
      | 0 => cases wrote
      | 1 => cases wrote; decide
      | 2 => cases wrote; decide
      | k + 3 =>
          rw [slices_shortResults] at some_
          exact absurd some_ (by decide)
    · intro k later
      match k with
      | 1 => nofun
      | 2 => nofun
      | k + 3 => nofun
  exact ⟨fair, (sliceLoop_ends_iff (by decide) fair).mpr (by decide)⟩

/-- One byte is written, and then none. -/
def oneByte : Nat → Option Nat
  | 0 => some 1
  | _ => some 0

theorem slices_oneByte (k : Nat) : slices oneByte [[97], []] (k + 1) = [[]] := by
  induction k with
  | zero => rfl
  | succ k ih => rw [slices, ih]; rfl

/-- An empty payload at the end of a batch: the writer calls `writev` for nothing for ever. -/
theorem not_sliceLoopEnds_oneByte :
    Fair oneByte [[97], []] ∧ ¬ SliceLoopEnds oneByte [[97], []] := by
  have fair : Fair oneByte [[97], []] := by
    refine ⟨?_, ?_, 0, ?_⟩
    · intro k n wrote
      match k with
      | 0 => cases wrote; decide
      | k + 1 => cases wrote; exact Nat.zero_le _
    · intro k n wrote some_
      match k with
      | 0 => cases wrote; decide
      | k + 1 =>
          rw [slices_oneByte] at some_
          exact absurd some_ (by decide)
    · intro k _
      match k with
      | 0 => nofun
      | k + 1 => nofun
  exact ⟨fair, not_sliceLoopEnds fair (show 1 < [[97], []].length by decide) (by decide)⟩

/-! ## The rounds as steps of the writer -/

/-- The step of the writer with this result of `writev`. -/
def sliceAct : Option Nat → WriterAct
  | none => .interrupted
  | some n => .writev n

theorem writerStep_sliceAct {opts : Options} {s : AofState} {iovs : List Bytes} {r : Option Nat}
    (place : s.writer = .writing iovs) (some_ : iovs ≠ [])
    (most : ∀ n, r = some n → n ≤ asked iovs) :
    ∃ t, writerStep opts s (sliceAct r) = some t ∧ t.writer = .writing (sliceRound iovs r) := by
  obtain ⟨iov, iovs, rfl⟩ := List.exists_cons_of_ne_nil some_
  cases r with
  | none => exact ⟨s, by simp [sliceAct, writerStep, place], place⟩
  | some n =>
      have within : n ≤ asked (iov :: iovs) := most n rfl
      unfold asked at within
      simp only [sliceAct, writerStep, place, if_pos within]
      exact ⟨_, rfl, rfl⟩

/-- The rounds of the slice loop are a run of the writer on the batch. -/
theorem run_slices {opts : Options} {s : AofState} {batch : List Bytes}
    (place : s.writer = .writing batch) {results : Nat → Option Nat} (fair : Fair results batch)
    {k : Nat} (going : ∀ i < k, slices results batch i ≠ []) :
    ∃ t, run (writerStep opts) s ((List.range k).map fun i => sliceAct (results i)) = some t ∧
      t.writer = .writing (slices results batch k) := by
  induction k with
  | zero => exact ⟨s, rfl, place⟩
  | succ k ih =>
      obtain ⟨t, reached, there⟩ := ih fun i before => going i (Nat.lt_succ_of_lt before)
      obtain ⟨u, taken, next⟩ :=
        writerStep_sliceAct there (going k (Nat.lt_succ_self k)) (fair.most k)
      refine ⟨u, ?_, next⟩
      rw [List.range_succ, List.map_append, run_append, reached, Option.bind_some,
        List.map_singleton, run_cons, taken]
      rfl

end Blp.Aof

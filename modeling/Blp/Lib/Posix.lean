import Blp.Lib.CString

/-!
# Files as POSIX has them

A regular file is the list of its bytes. Only what a program can tell through the calls modelled
here is kept: what a descriptor was opened for, which `ftruncate` needs, the size limit of an
`off_t`, and what is left behind a crash.
-/

namespace Posix

open CString

/-- What the flags of `open` allow on the descriptor. -/
inductive Access
  | readOnly
  | appendOnly
  deriving DecidableEq, Repr

inductive Errno
  | enoent
  | einval
  | other
  deriving DecidableEq, Repr

/-- `ftruncate`: a descriptor that is not open for writing is refused with `EINVAL`; a shorter
length cuts the file, a longer one pads it with zero bytes. -/
def ftruncate (fd : Access) (n : Nat) (file : Bytes) : Except Errno Bytes :=
  match fd with
  | .readOnly => .error .einval
  | .appendOnly => .ok (file.take n ++ List.replicate (n - file.length) 0)

/-- No file reaches the largest `off_t`. -/
def offMax : Nat := 2 ^ 63 - 1

/-- A file cut into the non-empty pieces that successive calls of `read` return. -/
structure ReadsOf (file : Bytes) (chunks : List Bytes) : Prop where
  joined : chunks.flatten = file
  nonempty : ∀ c ∈ chunks, c ≠ []

theorem ReadsOf.tail {file chunk : Bytes} {chunks : List Bytes}
    (reads : ReadsOf file (chunk :: chunks)) : ReadsOf chunks.flatten chunks :=
  ⟨rfl, fun c member => reads.nonempty c (List.mem_cons_of_mem _ member)⟩

theorem ReadsOf.eq_nil {chunks : List Bytes} (reads : ReadsOf [] chunks) : chunks = [] := by
  refine List.eq_nil_iff_forall_not_mem.mpr fun c member => reads.nonempty c member ?_
  exact List.flatten_eq_nil_iff.mp reads.joined c member

/-- `lseek` to a place from the start of the file, also behind its end: an offset beyond the largest
`off_t` is cast to a negative one. -/
def lseek (n : Nat) : Option Nat := if n ≤ offMax then some n else none

/-- What is read from a position on of a file that is read in these pieces from its start. -/
def readsFrom : List Bytes → Nat → List Bytes
  | [], _ => []
  | chunk :: chunks, n =>
      if n = 0 then chunk :: chunks
      else if n < chunk.length then chunk.drop n :: chunks
      else readsFrom chunks (n - chunk.length)

@[simp] theorem readsFrom_zero (chunks : List Bytes) : readsFrom chunks 0 = chunks := by
  cases chunks <;> rfl

theorem ReadsOf.from {file : Bytes} {chunks : List Bytes} (reads : ReadsOf file chunks) (n : Nat) :
    ReadsOf (file.drop n) (readsFrom chunks n) := by
  induction chunks generalizing file n with
  | nil =>
      cases reads.joined
      exact ⟨(List.drop_nil).symm, reads.nonempty⟩
  | cons chunk chunks ih =>
      have joined : file = chunk ++ chunks.flatten := reads.joined.symm
      rw [joined, readsFrom]
      split
      · rename_i start
        rw [start, ← joined]
        exact reads
      · split
        · rename_i inside
          refine ⟨(List.drop_append_of_le_length (Nat.le_of_lt inside)).symm, ?_⟩
          refine List.forall_mem_cons.mpr ⟨fun none => ?_, reads.tail.nonempty⟩
          exact absurd (List.drop_eq_nil_iff.mp none) (Nat.not_le_of_lt inside)
        · rename_i behind
          rw [List.drop_append, List.drop_eq_nil_of_le (Nat.not_lt.mp behind), List.nil_append]
          exact ih reads.tail _

/-- What a crash can leave of a file of which the first `synced` bytes are on the disk for good. -/
structure Survives (file : Bytes) (synced : Nat) (left : Bytes) : Prop where
  front : left <+: file
  kept : synced ≤ left.length

theorem Survives.holds {file left front : Bytes} {synced : Nat}
    (survives : Survives file synced left) (before : front <+: file)
    (there : front.length ≤ synced) : front <+: left :=
  List.prefix_of_prefix_length_le before survives.front (Nat.le_trans there survives.kept)

end Posix

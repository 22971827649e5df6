import Blp.Lib.CString
import Mathlib.Data.List.Induction
import Mathlib.Tactic.Ring

/-!
# Numbers in network byte order

`bytes w n` are the last `w` bytes of a number, the most significant first, as `htonl` and its like
lay them out; `value` reads such bytes back.

* `value_bytes_of_lt`, `bytes_value`: the two round trips.
* `swap_of_lt`: a number that fits in fewer bytes is swapped into the high ones.
-/

namespace BigEndian

open CString

/-- The `w` low bytes of `n`, the most significant first. -/
def bytes : Nat → Nat → Bytes
  | 0, _ => []
  | w + 1, n => bytes w (n / 256) ++ [UInt8.ofNat n]

/-- The number with these bytes. -/
def value (bs : Bytes) : Nat := bs.foldl (fun v b => 256 * v + b.toNat) 0

/-- The number whose `w` bytes stand the other way round. -/
def swap (w n : Nat) : Nat := value (bytes w n).reverse

@[simp] theorem length_bytes (w n : Nat) : (bytes w n).length = w := by
  induction w generalizing n with
  | zero => rfl
  | succ w ih => rw [bytes, List.length_append, ih, List.length_singleton]

@[simp] theorem value_nil : value [] = 0 := rfl

theorem value_concat (bs : Bytes) (b : UInt8) : value (bs ++ [b]) = 256 * value bs + b.toNat := by
  rw [value, List.foldl_append, List.foldl_cons, List.foldl_nil, ← value]

theorem value_bytes (w n : Nat) : value (bytes w n) = n % 256 ^ w := by
  induction w generalizing n with
  | zero => rw [bytes, value_nil, Nat.pow_zero, Nat.mod_one]
  | succ w ih =>
      have low : (UInt8.ofNat n).toNat = n % 256 := UInt8.toNat_ofNat'
      rw [bytes, value_concat, ih, low, Nat.pow_succ', Nat.mod_mul, Nat.add_comm]

theorem value_bytes_of_lt {w n : Nat} (fits : n < 256 ^ w) : value (bytes w n) = n := by
  rw [value_bytes, Nat.mod_eq_of_lt fits]

theorem bytes_value (bs : Bytes) : bytes bs.length (value bs) = bs := by
  induction bs using List.reverseRecOn with
  | nil => rfl
  | append_singleton bs b ih =>
      have bound : b.toNat < 256 := b.toNat_lt
      have high : (256 * value bs + b.toNat) / 256 = value bs := by omega
      have low : UInt8.ofNat (256 * value bs + b.toNat) = b := by
        rw [← UInt8.toNat_inj, UInt8.toNat_ofNat']
        omega
      rw [List.length_append, List.length_singleton, value_concat, bytes, high, ih, low]

theorem value_lt (bs : Bytes) : value bs < 256 ^ bs.length := by
  rw [← bytes_value bs, value_bytes, length_bytes]
  exact Nat.mod_lt _ (Nat.pow_pos (by decide))

theorem value_append (as bs : Bytes) :
    value (as ++ bs) = value as * 256 ^ bs.length + value bs := by
  induction bs using List.reverseRecOn with
  | nil => simp
  | append_singleton bs b ih =>
      rw [← List.append_assoc, value_concat, ih, value_concat, List.length_append,
        List.length_singleton, Nat.pow_succ]
      ring

theorem value_replicate_zero (w : Nat) : value (List.replicate w 0) = 0 := by
  induction w with
  | zero => rfl
  | succ w ih => rw [List.replicate_succ', value_concat, ih]; rfl

/-- A text of bytes is the number's own. -/
theorem eq_bytes_of_value {bs : Bytes} {w n : Nat} (width : bs.length = w) (same : value bs = n) :
    bs = bytes w n := by
  rw [← width, ← same, bytes_value]

/-- A number that fits in the low bytes comes to stand in the high ones. -/
theorem swap_of_lt {w n : Nat} (fits : n < 256 ^ w) (more : Nat) :
    swap (w + more) n = swap w n * 256 ^ more := by
  have padded : bytes (w + more) n = List.replicate more 0 ++ bytes w n := by
    refine (eq_bytes_of_value ?_ ?_).symm
    · rw [List.length_append, List.length_replicate, length_bytes, Nat.add_comm]
    · rw [value_append, value_replicate_zero, Nat.zero_mul, Nat.zero_add, value_bytes_of_lt fits]
  rw [swap, padded, List.reverse_append, List.reverse_replicate, value_append,
    List.length_replicate, value_replicate_zero, Nat.add_zero, swap]

end BigEndian

import Blp.Lib.Simulation
import Mathlib.Data.Nat.ModEq

/-!
# The ring buffer

`RingBuffer` keeps its elements in a vector of fixed length, from `head_` on and around its end.
Reading or writing outside of the vector is undefined, so `push` and `pop` are partial. What it is
for is a queue that drops its front when it is full (`boundedQueue`); `ringBuffer_refines` says that
no sequence of calls can tell the two apart.
-/

namespace Blp.Common

open Simulation

variable {α : Type*}

/-- The members of `RingBuffer<T>`. -/
structure RingBuffer (α : Type*) where
  buffer : List α
  capacity : Nat
  head : Nat
  tail : Nat
  size : Nat
  deriving DecidableEq

/-- The constructor: `buffer_(capacity)` holds default values. -/
def RingBuffer.new [Inhabited α] (capacity : Nat) : RingBuffer α :=
  ⟨List.replicate capacity default, capacity, 0, 0, 0⟩

/-- `RingBuffer<T>::push`. -/
def RingBuffer.push (b : RingBuffer α) (item : α) : Option (RingBuffer α) :=
  if b.tail < b.buffer.length then
    let buffer := b.buffer.set b.tail item
    let tail := (b.tail + 1) % b.capacity
    if b.size < b.capacity then some { b with buffer, tail, size := b.size + 1 }
    else some { b with buffer, tail, head := (b.head + 1) % b.capacity }
  else none

/-- `RingBuffer<T>::pop`. -/
def RingBuffer.pop (b : RingBuffer α) : Option (Option α × RingBuffer α) :=
  if b.size = 0 then some (none, b)
  else b.buffer[b.head]?.map fun item =>
    (some item, { b with head := (b.head + 1) % b.capacity, size := b.size - 1 })

/-- `RingBuffer<T>::empty`. -/
def RingBuffer.empty (b : RingBuffer α) : Bool := b.size == 0

/-! ## Calls -/

inductive Call (α : Type*)
  | push (item : α)
  | pop
  | size
  | empty
  deriving DecidableEq

inductive Answer (α : Type*)
  | pushed
  | popped (item : Option α)
  | size (n : Nat)
  | empty (isEmpty : Bool)
  deriving DecidableEq

/-- A call of a member function. -/
def RingBuffer.call (b : RingBuffer α) : Call α → Option (Answer α × RingBuffer α)
  | .push item => (b.push item).map fun b => (.pushed, b)
  | .pop => b.pop.map fun r => (.popped r.1, r.2)
  | .size => some (.size b.size, b)
  | .empty => some (.empty b.empty, b)

/-- A queue of at most `capacity` elements that makes room by dropping its front. -/
def boundedQueue (capacity : Nat) (queue : List α) : Call α → Answer α × List α
  | .push item => (.pushed, (if queue.length = capacity then queue.tail else queue) ++ [item])
  | .pop => (.popped queue.head?, queue.tail)
  | .size => (.size queue.length, queue)
  | .empty => (.empty queue.isEmpty, queue)

/-! ## The queue in the buffer -/

/-- The buffer holds the queue, from `head_` on and around the end of the vector. -/
structure Represents (capacity : Nat) (b : RingBuffer α) (queue : List α) : Prop where
  fixed : b.capacity = capacity
  length : b.buffer.length = capacity
  size : b.size = queue.length
  fits : b.size ≤ capacity
  head : b.head < capacity
  tail : b.tail = (b.head + b.size) % capacity
  cells : ∀ i < queue.length, b.buffer[(b.head + i) % capacity]? = queue[i]?

/-- Less than one turn apart, two places are the same only if their distances are. -/
theorem turn_inj {capacity i j : Nat} (head : Nat) (hi : i < capacity) (hj : j < capacity)
    (same : (head + i) % capacity = (head + j) % capacity) : i = j := by
  have congruent : i ≡ j [MOD capacity] := Nat.ModEq.add_left_cancel' head same
  rw [Nat.ModEq, Nat.mod_eq_of_lt hi, Nat.mod_eq_of_lt hj] at congruent
  exact congruent

theorem Represents.new [Inhabited α] {capacity : Nat} (positive : 0 < capacity) :
    Represents capacity (RingBuffer.new capacity : RingBuffer α) [] where
  fixed := rfl
  length := List.length_replicate
  size := rfl
  fits := Nat.zero_le _
  head := positive
  tail := (Nat.zero_mod _).symm
  cells := fun _ none => (Nat.not_lt_zero _ none).elim

variable {capacity : Nat} {b : RingBuffer α} {queue : List α}

theorem Represents.tail_lt (h : Represents capacity b queue) : b.tail < capacity := by
  rw [h.tail]
  exact Nat.mod_lt _ (Nat.zero_lt_of_lt h.head)

/-- With room left, the new element goes behind the last one. -/
theorem Represents.push_room (h : Represents capacity b queue) (room : b.size < capacity)
    (item : α) : Represents capacity
      { b with buffer := b.buffer.set b.tail item, tail := (b.tail + 1) % capacity,
               size := b.size + 1 } (queue ++ [item]) where
  fixed := h.fixed
  length := by rw [List.length_set, h.length]
  size := by rw [List.length_append, List.length_singleton, h.size]
  fits := room
  head := h.head
  tail := by
    dsimp only
    rw [h.tail, Nat.mod_add_mod, Nat.add_assoc]
  cells := by
    intro i inside
    rw [List.length_append, List.length_singleton, ← h.size] at inside
    dsimp only
    rcases Nat.lt_succ_iff_lt_or_eq.mp inside with old | rfl
    · have other : b.tail ≠ (b.head + i) % capacity := by
        rw [h.tail]
        intro same
        have := turn_inj b.head room (old.trans room) same
        omega
      rw [h.size] at old
      rw [List.getElem?_set_ne other, h.cells i old, List.getElem?_append_left old]
    · rw [← h.tail, List.getElem?_set_self (by rw [h.length]; exact h.tail_lt), h.size,
        List.getElem?_concat_length]

/-- On a full buffer both ends move: the new element takes the cell of the front. -/
theorem Represents.push_full (h : Represents capacity b queue) (full : b.size = capacity)
    (item : α) : Represents capacity
      { b with buffer := b.buffer.set b.tail item, tail := (b.tail + 1) % capacity,
               head := (b.head + 1) % capacity } (queue.tail ++ [item]) where
  fixed := h.fixed
  length := by rw [List.length_set, h.length]
  size := by
    have positive := Nat.zero_lt_of_lt h.head
    have size := h.size
    rw [List.length_append, List.length_singleton, List.length_tail]
    dsimp only
    omega
  fits := h.fits
  head := Nat.mod_lt _ (Nat.zero_lt_of_lt h.head)
  tail := by
    dsimp only
    rw [h.tail, Nat.mod_add_mod, Nat.mod_add_mod, Nat.add_right_comm]
  cells := by
    have positive := Nat.zero_lt_of_lt h.head
    have size := h.size
    intro i inside
    rw [List.length_append, List.length_singleton, List.length_tail] at inside
    dsimp only
    rw [Nat.mod_add_mod, Nat.add_assoc, Nat.add_comm 1 i]
    rcases Nat.lt_succ_iff_lt_or_eq.mp inside with old | rfl
    · have other : b.tail ≠ (b.head + (i + 1)) % capacity := by
        rw [h.tail, full, Nat.add_mod_right]
        intro same
        have := turn_inj (j := i + 1) b.head positive (by omega) same
        omega
      rw [List.getElem?_set_ne other, h.cells (i + 1) (by omega),
        List.getElem?_append_left (by rw [List.length_tail]; exact old), List.getElem?_tail]
    · have last : (b.head + (queue.length - 1 + 1)) % capacity = b.tail := by
        rw [h.tail, Nat.sub_add_cancel (by omega), h.size]
      rw [last, List.getElem?_set_self (by rw [h.length]; exact h.tail_lt), ← List.length_tail,
        List.getElem?_concat_length]

/-- The front is in the cell of `head_`. -/
theorem Represents.pop {x : α} (h : Represents capacity b (x :: queue)) :
    b.buffer[b.head]? = some x ∧
      Represents capacity { b with head := (b.head + 1) % capacity, size := b.size - 1 } queue := by
  have size := h.size
  have fits := h.fits
  rw [List.length_cons] at size
  constructor
  · have front := h.cells 0 (by simp)
    rw [Nat.add_zero, Nat.mod_eq_of_lt h.head] at front
    exact front
  · refine ⟨h.fixed, h.length, ?_, ?_, Nat.mod_lt _ (Nat.zero_lt_of_lt h.head), ?_, ?_⟩
    · dsimp only
      omega
    · dsimp only
      omega
    · dsimp only
      rw [h.tail, Nat.mod_add_mod, Nat.add_assoc, Nat.add_sub_cancel' (by omega)]
    · intro i inside
      dsimp only
      rw [Nat.mod_add_mod, Nat.add_assoc, Nat.add_comm 1 i,
        h.cells (i + 1) (Nat.succ_lt_succ inside), List.getElem?_cons_succ]

/-! ## Refinement -/

theorem ringBuffer_implements (capacity : Nat) :
    Implements (Represents (α := α) capacity) RingBuffer.call (boundedQueue capacity) := by
  intro b queue call h
  obtain rfl := h.fixed
  cases call with
  | push item =>
      have inside : b.tail < b.buffer.length := by
        rw [h.length]
        exact h.tail_lt
      rw [RingBuffer.call, RingBuffer.push, if_pos inside, boundedQueue, ← h.size]
      by_cases room : b.size < b.capacity
      · rw [if_pos room, if_neg (Nat.ne_of_lt room)]
        exact ⟨_, rfl, h.push_room room item⟩
      · have full : b.size = b.capacity := Nat.le_antisymm h.fits (Nat.le_of_not_lt room)
        rw [if_neg room, if_pos full]
        exact ⟨_, rfl, h.push_full full item⟩
  | pop =>
      rw [RingBuffer.call, RingBuffer.pop, boundedQueue]
      cases queue with
      | nil =>
          have none : b.size = 0 := h.size
          rw [if_pos none]
          exact ⟨b, rfl, h⟩
      | cons x queue =>
          have some_ : b.size ≠ 0 := by
            rw [h.size]
            exact Nat.succ_ne_zero _
          obtain ⟨front, rest⟩ := h.pop
          rw [if_neg some_, front]
          exact ⟨_, rfl, rest⟩
  | size =>
      refine ⟨b, ?_, h⟩
      rw [RingBuffer.call, boundedQueue, h.size]
  | empty =>
      refine ⟨b, ?_, h⟩
      rw [RingBuffer.call, boundedQueue, RingBuffer.empty, h.size]
      cases queue with
      | nil => rfl
      | cons x queue => rfl

/-- **Refinement**: on a new buffer every sequence of calls is answered as the bounded queue
answers it, and leaves the indices in their places. -/
theorem ringBuffer_refines [Inhabited α] {capacity : Nat} (positive : 0 < capacity)
    (calls : List (Call α)) :
    ∃ b, replies RingBuffer.call (RingBuffer.new capacity) calls =
        some ((follow (boundedQueue capacity) [] calls).1, b) ∧
      b.capacity = capacity ∧ b.size ≤ b.capacity ∧ b.head < b.capacity ∧
      b.tail < b.capacity ∧ b.tail = (b.head + b.size) % b.capacity := by
  obtain ⟨b, answered, h⟩ :=
    (ringBuffer_implements capacity).replies (Represents.new (α := α) positive) calls
  refine ⟨b, answered, h.fixed, ?_⟩
  rw [h.fixed]
  exact ⟨h.fits, h.head, h.tail_lt, h.tail⟩

/-- Three pushes on a buffer for two elements. -/
def overfull : List (Call Nat) := [.push 1, .push 2, .push 3, .size, .pop, .pop, .pop, .empty]

theorem ringBuffer_refines_overfull :
    ∃ b, replies RingBuffer.call (RingBuffer.new 2) overfull =
        some ([.pushed, .pushed, .pushed, .size 2, .popped (some 2), .popped (some 3),
          .popped none, .empty true], b) ∧ b.tail = (b.head + b.size) % b.capacity := by
  obtain ⟨b, answered, -, -, -, -, tail⟩ := ringBuffer_refines Nat.two_pos overfull
  exact ⟨b, answered, tail⟩

end Blp.Common

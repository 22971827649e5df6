import Mathlib.Data.List.Basic
import Mathlib.Data.List.Induction
import Mathlib.Data.List.TakeDrop
import Mathlib.Algebra.BigOperators.Group.List.Basic
import Mathlib.Algebra.Order.BigOperators.Group.List
import Mathlib.Algebra.Order.Group.Nat
import Mathlib.Algebra.Ring.Nat

/-!
# Decoding a stream of frames from chunks

A `Decoder` looks for one frame at the head of a buffer. `drain` takes frames off a buffer until
the decoder finds none or raises, and `Stream.feed` is the read loop around it: append a chunk,
drain, keep the rest.

A `Stable` decoder answers the same on every longer buffer unless it found no frame. For such a
decoder, under a bound on the buffers:

* `drain_append`: draining a buffer and then what follows is draining both at once;
* `drain_frameEnd`: draining from the end of a frame on yields the frames behind it;
* `feedAll_holds`: a stream ends in the same place however it is cut into chunks;
* `drain_torn`: on a prefix of an encoded list it yields exactly the frames that lie wholly
  inside that prefix (`lt_wholeFrames_iff`);
* `behind_iff`: what a drain leaves over is what stands behind the whole frames.
-/

namespace Framing

universe u

variable {β α ε : Type*}

/-- A decoder of one frame at the head of a buffer: the frame and the number of symbols it takes;
`.error none` when it finds no frame there, `.error (some e)` when it raises `e`. -/
abbrev Decoder (β α ε : Type*) := List β → Except (Option ε) (α × Nat)

/-- `y` is the answer on a longer buffer, `x` the answer on a shorter one: unless `x` is "no frame
there", they are the same. -/
def Settles {γ : Type u} (x y : Except (Option ε) γ) : Prop := x = .error none ∨ y = x

theorem Settles.refl {γ : Type u} (x : Except (Option ε) γ) : Settles x x := Or.inr rfl

/-- Answers settle step by step. -/
theorem Settles.bind {γ δ : Type u} {x y : Except (Option ε) γ}
    {f g : γ → Except (Option ε) δ} (head : Settles x y)
    (tail : ∀ a, x = .ok a → Settles (f a) (g a)) : Settles (x >>= f) (y >>= g) := by
  rcases head with none | same
  · subst none
    exact Or.inl rfl
  · rw [same]
    cases x with
    | error e => exact Settles.refl _
    | ok a => exact tail a rfl

/-- A computation that answers went through its first step. -/
theorem ok_of_bind {γ δ : Type u} {x : Except (Option ε) γ} {f : γ → Except (Option ε) δ} {d : δ}
    (answer : x >>= f = .ok d) : ∃ c, x = .ok c ∧ f c = .ok d := by
  cases x with
  | error e => cases answer
  | ok c => exact ⟨c, rfl, answer⟩

/-- The computation does not raise. -/
def Quiet {γ : Type u} (x : Except (Option ε) γ) : Prop := ∀ e, x ≠ .error (some e)

theorem Quiet.bind {γ δ : Type u} {x : Except (Option ε) γ} {f : γ → Except (Option ε) δ}
    (head : Quiet x) (tail : ∀ c, x = .ok c → Quiet (f c)) : Quiet (x >>= f) := by
  cases x with
  | error o =>
      intro e raised
      cases raised
      exact head e rfl
  | ok c => exact tail c rfl

/-- What a drain yields: the frames with their sizes, and the exception that ended it, if any. -/
structure Drained (α ε : Type*) where
  frames : List (α × Nat)
  raised : Option ε
  deriving DecidableEq

namespace Drained

def consumed (r : Drained α ε) : Nat := (r.frames.map Prod.snd).sum

/-- Where the first `j` frames end. -/
def frameEnd (r : Drained α ε) (j : Nat) : Nat := ((r.frames.take j).map Prod.snd).sum

def prepend (fs : List (α × Nat)) (r : Drained α ε) : Drained α ε :=
  { r with frames := fs ++ r.frames }

@[simp] theorem frames_prepend (fs : List (α × Nat)) (r : Drained α ε) :
    (r.prepend fs).frames = fs ++ r.frames := rfl

@[simp] theorem raised_prepend (fs : List (α × Nat)) (r : Drained α ε) :
    (r.prepend fs).raised = r.raised := rfl

@[simp] theorem consumed_prepend (fs : List (α × Nat)) (r : Drained α ε) :
    (r.prepend fs).consumed = (fs.map Prod.snd).sum + r.consumed := by
  simp [consumed]

end Drained

/-- The decode loop, with fuel for its number of rounds. -/
def drainWithin (dec : Decoder β α ε) : Nat → List β → Drained α ε
  | 0, _ => ⟨[], none⟩
  | fuel + 1, buf =>
      match dec buf with
      | .ok (a, n) => (drainWithin dec fuel (buf.drop n)).prepend [(a, n)]
      | .error e => ⟨[], e⟩

/-- Take frames off a buffer until the decoder finds none or raises. A round takes at least one
symbol, so the length of the buffer is fuel enough (`drain_eq`). -/
def drain (dec : Decoder β α ε) (buf : List β) : Drained α ε := drainWithin dec (buf.length + 1) buf

/-- Every drained frame was read off some buffer, no longer than the drained one. -/
theorem dec_of_mem_drain {dec : Decoder β α ε} {b : List β} {frame : α × Nat}
    (member : frame ∈ (drain dec b).frames) : ∃ c, c.length ≤ b.length ∧ dec c = .ok frame := by
  unfold drain at member
  generalize b.length + 1 = fuel at member
  induction fuel generalizing b with
  | zero => cases member
  | succ fuel ih =>
      rw [drainWithin] at member
      split at member
      · rename_i found
        rw [Drained.frames_prepend, List.singleton_append] at member
        rcases List.mem_cons.mp member with rfl | later
        · exact ⟨b, Nat.le_refl _, found⟩
        · obtain ⟨c, shorter, read⟩ := ih later
          rw [List.length_drop] at shorter
          exact ⟨c, by omega, read⟩
      · cases member

/-- A drain takes no more frames than fit. -/
theorem count_drain_le {dec : Decoder β α ε} {k : Nat} {b : List β}
    (large : ∀ {c : List β} {a : α} {n : Nat}, c.length ≤ b.length → dec c = .ok (a, n) → k ≤ n) :
    (drain dec b).frames.length * k ≤ (drain dec b).consumed := by
  have each : ∀ n ∈ (drain dec b).frames.map Prod.snd, k ≤ n := by
    intro n member
    obtain ⟨⟨a, _⟩, drained, rfl⟩ := List.mem_map.mp member
    obtain ⟨c, shorter, read⟩ := dec_of_mem_drain drained
    exact large shorter read
  have total := List.card_nsmul_le_sum _ k each
  rw [List.length_map] at total
  exact total

/-- The decoder finds nothing in an empty buffer, takes at least one and at most all symbols, and
answers the same on a longer buffer unless it found no frame. -/
structure Stable (dec : Decoder β α ε) (bound : Nat) : Prop where
  empty : dec [] = .error none
  consumed : ∀ {b : List β} {a : α} {n : Nat}, b.length < bound → dec b = .ok (a, n) →
    0 < n ∧ n ≤ b.length
  settled : ∀ {b c : List β}, (b ++ c).length < bound → Settles (dec b) (dec (b ++ c))

section Drain

variable {dec : Decoder β α ε} {bound : Nat} (stable : Stable dec bound)
include stable

theorem Stable.ok_append {b c : List β} (hbc : (b ++ c).length < bound) {frame : α × Nat}
    (found : dec b = .ok frame) : dec (b ++ c) = .ok frame := by
  rcases stable.settled hbc with none | same
  · rw [found] at none
    cases none
  · rw [same, found]

theorem drainWithin_eq_of_lt {b : List β} (hb : b.length < bound) {fuel fuel' : Nat}
    (enough : b.length < fuel) (enough' : b.length < fuel') :
    drainWithin dec fuel b = drainWithin dec fuel' b := by
  induction fuel generalizing b fuel' with
  | zero => omega
  | succ fuel ih =>
      obtain ⟨fuel', rfl⟩ : ∃ k, fuel' = k + 1 := ⟨fuel' - 1, by omega⟩
      simp only [drainWithin]
      split
      · rename_i a n found
        have size := stable.consumed hb found
        have shorter : (b.drop n).length < b.length := by rw [List.length_drop]; omega
        rw [ih (b := b.drop n) (by omega) (by omega) (show (b.drop n).length < fuel' by omega)]
      · rfl

/-- One round of the drain, without fuel. -/
theorem drain_eq {b : List β} (hb : b.length < bound) :
    drain dec b = match dec b with
      | .ok (a, n) => (drain dec (b.drop n)).prepend [(a, n)]
      | .error e => ⟨[], e⟩ := by
  rw [drain, drainWithin]
  split
  · rename_i a n found
    have size := stable.consumed hb found
    have shorter : (b.drop n).length < b.length := by rw [List.length_drop]; omega
    rw [drain, drainWithin_eq_of_lt stable (b := b.drop n) (by omega) (by omega)]
    omega
  · rfl

theorem drain_of_ok {b : List β} (hb : b.length < bound) {a : α} {n : Nat}
    (found : dec b = .ok (a, n)) : drain dec b = (drain dec (b.drop n)).prepend [(a, n)] := by
  rw [drain_eq stable hb, found]

theorem drain_of_error {b : List β} (hb : b.length < bound) {e : Option ε}
    (found : dec b = .error e) : drain dec b = ⟨[], e⟩ := by
  rw [drain_eq stable hb, found]

theorem drain_nil (positive : 0 < bound) : drain dec [] = ⟨[], none⟩ :=
  drain_of_error stable (b := []) positive stable.empty

/-- Induction over a buffer, frame by frame. -/
theorem drain_induction {motive : (b : List β) → b.length < bound → Prop}
    (ended : ∀ (b : List β) (e : Option ε) (hb : b.length < bound), dec b = .error e → motive b hb)
    (frame : ∀ (b : List β) (a : α) (n : Nat) (hb : b.length < bound), dec b = .ok (a, n) →
      n ≤ b.length → ∀ shorter, motive (b.drop n) shorter → motive b hb)
    (b : List β) (hb : b.length < bound) : motive b hb := by
  induction len : b.length using Nat.strongRecOn generalizing b with
  | _ k ih =>
    subst len
    cases found : dec b with
    | error e => exact ended b e hb found
    | ok taken =>
        obtain ⟨a, n⟩ := taken
        have size := stable.consumed hb found
        have less : (b.drop n).length < b.length := by rw [List.length_drop]; omega
        have shorter : (b.drop n).length < bound := less.trans hb
        exact frame b a n hb found size.2 shorter (ih (b.drop n).length less _ shorter rfl)

theorem consumed_drain_le {b : List β} (hb : b.length < bound) :
    (drain dec b).consumed ≤ b.length := by
  induction b, hb using drain_induction stable with
  | ended b e hb found =>
      rw [drain_of_error stable hb found]
      exact Nat.zero_le _
  | frame b a n hb found size _ rest =>
      rw [List.length_drop] at rest
      rw [drain_of_ok stable hb found, Drained.consumed_prepend]
      simp only [List.map_cons, List.map_nil, List.sum_cons, List.sum_nil]
      omega

/-- What is left after a drain holds no further frame. -/
theorem dec_rest_eq_error {b : List β} (hb : b.length < bound) :
    dec (b.drop (drain dec b).consumed) = .error (drain dec b).raised := by
  induction b, hb using drain_induction stable with
  | ended b e hb found =>
      rw [drain_of_error stable hb found]
      simpa [Drained.consumed] using found
  | frame b a n hb found _ _ rest =>
      rw [drain_of_ok stable hb found, Drained.consumed_prepend, Drained.raised_prepend]
      simpa [List.drop_drop] using rest

/-- **From the end of a frame on**, a drain yields the frames behind it: nothing depends on what
stands before. -/
theorem drain_frameEnd {b : List β} (hb : b.length < bound) (j : Nat) :
    drain dec (b.drop ((drain dec b).frameEnd j)) =
      ⟨(drain dec b).frames.drop j, (drain dec b).raised⟩ := by
  induction j generalizing b with
  | zero => simp [Drained.frameEnd]
  | succ j ih =>
      cases found : dec b with
      | error e =>
          rw [drain_of_error stable hb found]
          simp [Drained.frameEnd, drain_of_error stable hb found]
      | ok frame =>
          obtain ⟨a, n⟩ := frame
          have shorter : (b.drop n).length < bound := by rw [List.length_drop]; omega
          have rest := ih shorter
          rw [drain_of_ok stable hb found]
          simp only [Drained.frameEnd, Drained.frames_prepend, Drained.raised_prepend,
            List.singleton_append, List.take_succ_cons, List.map_cons, List.sum_cons,
            List.drop_succ_cons] at rest ⊢
          rw [← List.drop_drop]
          exact rest

/-- A frame at the head of a buffer stays there when the buffer grows behind it. -/
theorem Stable.frame_append {b c : List β} (hbc : (b ++ c).length < bound) {a : α} {n : Nat}
    (found : dec b = .ok (a, n)) (size : n ≤ b.length) :
    dec (b ++ c) = .ok (a, n) ∧ (b ++ c).drop n = b.drop n ++ c ∧
      (b.drop n ++ c).length < bound := by
  refine ⟨stable.ok_append hbc found, List.drop_append_of_le_length size, ?_⟩
  rw [List.length_append, List.length_drop]
  rw [List.length_append] at hbc
  omega

/-- Draining a buffer that did not raise and then its rest with more behind it is draining the
longer buffer. -/
theorem drain_append {b c : List β} (hbc : (b ++ c).length < bound)
    (quiet : (drain dec b).raised = none) :
    drain dec (b ++ c) =
      (drain dec (b.drop (drain dec b).consumed ++ c)).prepend (drain dec b).frames := by
  have hb : b.length < bound := by rw [List.length_append] at hbc; omega
  induction b, hb using drain_induction stable with
  | ended b e hb found =>
      rw [drain_of_error stable hb found]
      simp [Drained.consumed, Drained.prepend]
  | frame b a n hb found size _ ih =>
      obtain ⟨longer, split, hrest⟩ := stable.frame_append hbc found size
      rw [drain_of_ok stable hb found, Drained.raised_prepend] at quiet
      rw [drain_of_ok stable hbc longer, split, ih hrest quiet,
        drain_of_ok stable hb found, Drained.consumed_prepend]
      simp [Drained.prepend, List.drop_drop]

/-- A buffer whose drain raises drains the same with anything behind it. -/
theorem drain_append_of_raised {b c : List β} (hbc : (b ++ c).length < bound) {e : ε}
    (raised : (drain dec b).raised = some e) : drain dec (b ++ c) = drain dec b := by
  have hb : b.length < bound := by rw [List.length_append] at hbc; omega
  induction b, hb using drain_induction stable with
  | ended b o hb found =>
      rw [drain_of_error stable hb found] at raised ⊢
      cases raised
      rcases stable.settled hbc with none | same
      · rw [found] at none; cases none
      · exact drain_of_error stable hbc (same.trans found)
  | frame b a n hb found size _ ih =>
      obtain ⟨longer, split, hrest⟩ := stable.frame_append hbc found size
      rw [drain_of_ok stable hb found, Drained.raised_prepend] at raised
      rw [drain_of_ok stable hbc longer, drain_of_ok stable hb found, split,
        ih hrest raised]

end Drain

/-! ## What stands behind the frames -/

/-- `Whole` are the frames of a decoder: what it takes off a buffer, and what it takes off wherever
it stands first. -/
structure Frames (dec : Decoder β α ε) (bound : Nat) (Whole : List β → Prop) : Prop where
  taken : ∀ {b : List β} {a : α} {n : Nat}, b.length < bound → dec b = .ok (a, n) →
    Whole (b.take n)
  found : ∀ {f rest : List β}, Whole f → (f ++ rest).length < bound →
    ∃ a, dec (f ++ rest) = .ok (a, f.length)

/-- Behind some whole frames at the head of the buffer, `P` holds. -/
def Behind (Whole P : List β → Prop) (b : List β) : Prop :=
  ∃ (frames : List (List β)) (rest : List β), (∀ f ∈ frames, Whole f) ∧
    b = frames.flatten ++ rest ∧ P rest

section Behind

variable {dec : Decoder β α ε} {bound : Nat} (stable : Stable dec bound)
  {Whole P : List β → Prop} (whole : Frames dec bound Whole)
include stable whole

/-- A drain splits the buffer into whole frames and what is left. -/
theorem exists_frames {b : List β} (hb : b.length < bound) :
    ∃ frames : List (List β), (∀ f ∈ frames, Whole f) ∧
      b = frames.flatten ++ b.drop (drain dec b).consumed := by
  induction b, hb using drain_induction stable with
  | ended b e hb found =>
      rw [drain_of_error stable hb found]
      exact ⟨[], nofun, by simp [Drained.consumed]⟩
  | frame b a n hb found _ _ rest =>
      obtain ⟨frames, each, split⟩ := rest
      refine ⟨b.take n :: frames, List.forall_mem_cons.mpr ⟨whole.taken hb found, each⟩, ?_⟩
      rw [drain_of_ok stable hb found, Drained.consumed_prepend, List.flatten_cons,
        List.append_assoc]
      simp only [List.map_cons, List.map_nil, List.sum_cons, List.sum_nil, Nat.add_zero]
      rw [← List.drop_drop, ← split, List.take_append_drop]

/-- **What is left is what stands behind the whole frames**, if no frame begins there. -/
theorem behind_iff (stuck : ∀ rest : List β, rest.length < bound → P rest →
    ∃ e, dec rest = .error e) {b : List β} (hb : b.length < bound) :
    Behind Whole P b ↔ P (b.drop (drain dec b).consumed) := by
  constructor
  · intro behind
    obtain ⟨frames, rest, each, rfl, holds⟩ := behind
    induction frames with
    | nil =>
        rw [List.flatten_nil, List.nil_append] at hb ⊢
        obtain ⟨e, found⟩ := stuck rest hb holds
        rw [drain_of_error stable hb found]
        exact holds
    | cons f frames ih =>
        rw [List.flatten_cons, List.append_assoc] at hb ⊢
        obtain ⟨a, found⟩ := whole.found (each f List.mem_cons_self) hb
        have shorter : (frames.flatten ++ rest).length < bound := by
          rw [List.length_append] at hb
          omega
        have later := ih (fun g member => each g (List.mem_cons_of_mem _ member)) shorter
        rw [drain_of_ok stable hb found, Drained.consumed_prepend, List.drop_left]
        simp only [List.map_cons, List.map_nil, List.sum_cons, List.sum_nil, Nat.add_zero]
        rw [← List.drop_drop, List.drop_left]
        exact later
  · intro holds
    obtain ⟨frames, each, split⟩ := exists_frames stable whole hb
    exact ⟨frames, _, each, split, holds⟩

end Behind

/-! ## Feeding chunks -/

/-- The state of a read loop: the frames handed on so far, the symbols kept back, and the exception
that ended it, if any. -/
structure Stream (β α ε : Type*) where
  frames : List (α × Nat)
  buf : List β
  raised : Option ε
  deriving DecidableEq

namespace Stream

def start : Stream β α ε := ⟨[], [], none⟩

/-- Append a chunk, drain, keep the rest. After an exception nothing more is read. -/
def feed (dec : Decoder β α ε) (s : Stream β α ε) (chunk : List β) : Stream β α ε :=
  match s.raised with
  | some _ => s
  | none =>
      let buf := s.buf ++ chunk
      let r := drain dec buf
      ⟨s.frames ++ r.frames, buf.drop r.consumed, r.raised⟩

def feedAll (dec : Decoder β α ε) (s : Stream β α ε) (chunks : List (List β)) : Stream β α ε :=
  chunks.foldl (feed dec) s

/-- The stream stands where a drain of the symbols `b` read at once would stand. -/
structure Holds (dec : Decoder β α ε) (s : Stream β α ε) (b : List β) : Prop where
  frames : s.frames = (drain dec b).frames
  raised : s.raised = (drain dec b).raised
  buf : s.raised = none → s.buf = b.drop (drain dec b).consumed

variable {dec : Decoder β α ε} {bound : Nat} (stable : Stable dec bound)
include stable

theorem Holds.feed {s : Stream β α ε} {b c : List β} (h : Holds dec s b)
    (hbc : (b ++ c).length < bound) : Holds dec (s.feed dec c) (b ++ c) := by
  unfold Stream.feed
  split
  · rename_i e raised
    have same := drain_append_of_raised stable hbc (h.raised.symm.trans raised)
    exact ⟨by rw [h.frames, same], by rw [h.raised, same],
      fun none => by rw [none] at raised; cases raised⟩
  · rename_i quiet
    have joined := drain_append stable hbc (h.raised.symm.trans quiet)
    have kept := h.buf quiet
    refine ⟨?_, ?_, fun _ => ?_⟩
    · rw [joined, Drained.frames_prepend, h.frames, kept]
    · rw [joined, Drained.raised_prepend, kept]
    · have inside := consumed_drain_le stable
        (b := b) (by rw [List.length_append] at hbc; omega)
      rw [joined, Drained.consumed_prepend, kept, ← List.drop_drop, ← Drained.consumed,
        List.drop_append_of_le_length inside]

/-- **Chunking does not matter.** Feeding chunks one after another ends where a drain of their
concatenation ends. -/
theorem feedAll_holds {chunks : List (List β)} (short : chunks.flatten.length < bound) :
    Holds dec (feedAll dec start chunks) chunks.flatten := by
  induction chunks using List.reverseRecOn with
  | nil =>
      have nothing := drain_nil stable (Nat.zero_lt_of_lt short)
      exact ⟨by rw [List.flatten_nil, nothing]; rfl, by rw [List.flatten_nil, nothing]; rfl,
        fun _ => by simp [feedAll, start]⟩
  | append_singleton chunks chunk ih =>
      have joined : (chunks ++ [chunk]).flatten = chunks.flatten ++ chunk := by simp
      rw [joined] at short ⊢
      rw [feedAll, List.foldl_append, List.foldl_cons, List.foldl_nil]
      exact Holds.feed stable (ih (by rw [List.length_append] at short; omega)) short

end Stream

/-! ## Prefixes of an encoded list -/

/-- How many of the frames with these sizes lie wholly inside the first `n` symbols. -/
def wholeFrames : List Nat → Nat → Nat
  | [], _ => 0
  | size :: sizes, n => if size ≤ n then wholeFrames sizes (n - size) + 1 else 0

/-- A frame is counted exactly when its end lies inside. -/
theorem lt_wholeFrames_iff {sizes : List Nat} {n i : Nat} :
    i < wholeFrames sizes n ↔ i < sizes.length ∧ (sizes.take (i + 1)).sum ≤ n := by
  induction sizes generalizing n i with
  | nil => simp [wholeFrames]
  | cons size sizes ih =>
      rw [wholeFrames, List.take_succ_cons, List.sum_cons, List.length_cons]
      split
      · rename_i fits
        cases i with
        | zero => simpa using fits
        | succ i =>
            have step := ih (n := n - size) (i := i)
            omega
      · omega

theorem wholeFrames_le_length (sizes : List Nat) (n : Nat) :
    wholeFrames sizes n ≤ sizes.length := by
  by_contra more
  have := (lt_wholeFrames_iff (i := sizes.length) (n := n)).mp (Nat.lt_of_not_le more)
  omega

/-- The counted frames fit in. -/
theorem sum_take_wholeFrames_le (sizes : List Nat) (n : Nat) :
    (sizes.take (wholeFrames sizes n)).sum ≤ n := by
  cases count : wholeFrames sizes n with
  | zero => simp
  | succ i => exact ((lt_wholeFrames_iff (i := i)).mp (by omega)).2

section Encoded

variable {dec : Decoder β α ε} {bound : Nat} (stable : Stable dec bound) {enc : α → List β}

/-- The frames of an encoded list, with their sizes. -/
def sized (enc : α → List β) (as : List α) : List (α × Nat) := as.map fun a => (a, (enc a).length)

/-- The number of frames of an encoded list that lie wholly inside its first `n` symbols. -/
def wholeOf (enc : α → List β) (as : List α) (n : Nat) : Nat :=
  wholeFrames (as.map fun a => (enc a).length) n

/-- A prefix of an encoded list is whole frames and a proper prefix of the frame behind them. -/
theorem prefix_split {as : List α} {p : List β} (pre : p <+: as.flatMap enc) :
    ∃ torn, p = (as.take (wholeOf enc as p.length)).flatMap enc ++ torn ∧
      (as[wholeOf enc as p.length]? = none → torn = []) ∧
      ∀ a ∈ as[wholeOf enc as p.length]?, torn <+: enc a ∧ torn.length < (enc a).length := by
  induction as generalizing p with
  | nil => exact ⟨p, rfl, fun _ => List.prefix_nil.mp pre, fun a member => nomatch member⟩
  | cons a as ih =>
      rw [List.flatMap_cons] at pre
      by_cases fits : (enc a).length ≤ p.length
      · obtain ⟨rest, rfl⟩ : enc a <+: p :=
          List.prefix_of_prefix_length_le (List.prefix_append _ _) pre fits
        obtain ⟨torn, split, last, next⟩ := ih ((List.prefix_append_right_inj _).mp pre)
        have count : wholeOf enc (a :: as) (enc a ++ rest).length =
            wholeOf enc as rest.length + 1 := by
          rw [wholeOf, List.map_cons, wholeFrames, if_pos fits, List.length_append,
            Nat.add_sub_cancel_left]
          rfl
        rw [count, List.take_succ_cons, List.flatMap_cons, List.getElem?_cons_succ]
        refine ⟨torn, ?_, last, next⟩
        rw [List.append_assoc, ← split]
      · have count : wholeOf enc (a :: as) p.length = 0 := by
          rw [wholeOf, List.map_cons, wholeFrames, if_neg fits]
        rw [count]
        refine ⟨p, rfl, fun none => ?_, fun b first => ?_⟩
        · cases none
        · cases first
          have inside := List.prefix_of_prefix_length_le pre (List.prefix_append _ _) (by omega)
          exact ⟨inside, by omega⟩

include stable

/-- A proper prefix of an encoded frame holds no frame. -/
theorem dec_torn {a : α} (whole : dec (enc a) = .ok (a, (enc a).length))
    (short : (enc a).length < bound) {p : List β} (pre : p <+: enc a)
    (proper : p.length < (enc a).length) : dec p = .error none := by
  obtain ⟨q, split⟩ := pre
  rcases stable.settled (b := p) (c := q) (by rw [split]; exact short) with none | same
  · exact none
  · rw [split, whole] at same
    have := (stable.consumed (by omega) same.symm).2
    omega

/-- **Torn logs.** On a prefix of an encoded list, a drain yields exactly the frames that lie
wholly inside it, and does not raise. -/
theorem drain_torn {as : List α} (whole : ∀ a ∈ as, dec (enc a) = .ok (a, (enc a).length))
    (each : ∀ a ∈ as, (enc a).length < bound) {p : List β} (short : p.length < bound)
    (pre : p <+: as.flatMap enc) :
    drain dec p = ⟨sized enc (as.take (wholeOf enc as p.length)), none⟩ := by
  induction as generalizing p with
  | nil =>
      rw [List.flatMap_nil, List.prefix_nil] at pre
      subst pre
      exact drain_nil stable (Nat.zero_lt_of_lt short)
  | cons a as ih =>
      rw [List.flatMap_cons] at pre
      have wholeHead := whole a List.mem_cons_self
      by_cases fits : (enc a).length ≤ p.length
      · obtain ⟨rest, rfl⟩ : enc a <+: p :=
          List.prefix_of_prefix_length_le (List.prefix_append _ _) pre fits
        have preRest : rest <+: as.flatMap enc := (List.prefix_append_right_inj _).mp pre
        have shortRest : rest.length < bound := by rw [List.length_append] at short; omega
        rw [drain_of_ok stable short (stable.ok_append short wholeHead), List.drop_left,
          ih (fun b member => whole b (List.mem_cons_of_mem _ member))
            (fun b member => each b (List.mem_cons_of_mem _ member)) shortRest preRest]
        simp [wholeOf, wholeFrames, sized, Drained.prepend]
      · have torn : p <+: enc a :=
          List.prefix_of_prefix_length_le pre (List.prefix_append _ _) (by omega)
        rw [drain_of_error stable short
          (dec_torn stable wholeHead (each a List.mem_cons_self) torn (by omega))]
        simp [wholeOf, wholeFrames, fits, sized]

end Encoded

end Framing

import Mathlib.Data.List.Basic

/-!
# A pipe of symbols

Symbols are pushed in at one end and moved out at the other, any number at a time; some may be
lost on the way. What a buffered writer is for is to be such a pipe.

* `Intact.apply`: as long as nothing is lost, what was delivered and what is pending are together
  what was sent.
* `Sound.apply`: what was delivered stays a beginning of what was sent as long as nothing moves
  behind a loss.
-/

namespace Pipes

variable {β : Type*}

/-- What was put in, what came out, what is on the way, and what was lost there. -/
structure Pipe (β : Type*) where
  sent : List β
  delivered : List β
  pending : List β
  lost : List β

/-- Put symbols in, take the first `n` out, or lose the first `n`. -/
inductive Op (β : Type*)
  | push (xs : List β)
  | move (n : Nat)
  | lose (n : Nat)

namespace Pipe

def apply (p : Pipe β) : Op β → Pipe β
  | .push xs => { p with sent := p.sent ++ xs, pending := p.pending ++ xs }
  | .move n =>
      { p with delivered := p.delivered ++ p.pending.take n, pending := p.pending.drop n }
  | .lose n => { p with pending := p.pending.drop n, lost := p.lost ++ p.pending.take n }

@[simp] theorem apply_push_nil (p : Pipe β) : p.apply (.push []) = p := by
  simp [apply]

/-- Unless something was lost, what was delivered, then what is pending, is what was sent. -/
def Intact (p : Pipe β) : Prop := p.lost = [] → p.delivered ++ p.pending = p.sent

/-- What was delivered is a beginning of what was sent. -/
def Sound (p : Pipe β) : Prop := p.delivered <+: p.sent

theorem Intact.sound {p : Pipe β} (intact : p.Intact) (kept : p.lost = []) : p.Sound :=
  ⟨p.pending, intact kept⟩

/-- In a pipe that lost nothing, all was delivered exactly when nothing is pending. -/
theorem Intact.delivered_eq_iff {p : Pipe β} (intact : p.Intact) (kept : p.lost = []) :
    p.delivered = p.sent ↔ p.pending = [] := by
  rw [← intact kept]
  exact List.self_eq_append_right

/-- **Nothing vanishes, nothing is invented.** -/
theorem Intact.apply {p : Pipe β} (intact : p.Intact) (op : Op β) : (p.apply op).Intact := by
  intro kept
  cases op with
  | push xs =>
      change p.delivered ++ (p.pending ++ xs) = p.sent ++ xs
      rw [← List.append_assoc, intact kept]
  | move n =>
      change p.delivered ++ p.pending.take n ++ p.pending.drop n = p.sent
      rw [List.append_assoc, List.take_append_drop, intact kept]
  | lose n =>
      rcases List.append_eq_nil_iff.mp kept with ⟨before, now⟩
      have rest : p.pending.drop n = p.pending := by
        conv_rhs => rw [← List.take_append_drop n p.pending, now, List.nil_append]
      change p.delivered ++ p.pending.drop n = p.sent
      rw [rest, intact before]

/-- **No hole**: what was delivered stays sound if nothing moves behind a loss. -/
theorem Sound.apply {p : Pipe β} (sound : p.Sound) (intact : p.Intact) {op : Op β}
    (still : ∀ n, op = .move n → p.lost = [] ∨ p.pending = []) : (p.apply op).Sound := by
  cases op with
  | push xs => exact List.IsPrefix.trans sound (List.prefix_append _ _)
  | move n =>
      rcases still n rfl with kept | empty
      · exact (intact.apply (.move n)).sound kept
      · change p.delivered ++ p.pending.take n <+: p.sent
        rw [empty, List.take_nil, List.append_nil]
        exact sound
  | lose n => exact sound

end Pipe

end Pipes

import Blp.Replica.Protocol

/-!
# The heartbeats of a replica

`start_heartbeat` runs in a thread of its own for each connection to the master. Every five seconds
it sends a `HEARTBEAT`, and it leaves the loop, with the text "Failed to send heartbeat,
disconnecting...", when `sendToSocket` returns *true*.

* `sends_sendEach`: what the calls of `send` make of a message.
* `attempted_iff`: a heartbeat is attempted exactly if all before it have failed.
* `lasting_iff`: when the heartbeats last as long as the connection.
-/

namespace Blp.Replica

/-! ## The code -/

/-- What the calls of `send` return, one after the other; the calls from the first `none` on have
not returned. -/
abbrev Outcomes := Nat → Option Int

/-- `SocketUtils::send_all` of so many bytes, of which `sent` have been sent, from call `i` on: the
return value and the number of the next call; `none` when a call does not return. -/
def sendAll (σ : Outcomes) (length sent i : Nat) : Option (Bool × Nat) :=
  if sent < length then
    match σ i with
    | none => none
    | some n => if n ≤ 0 then some (false, i + 1) else sendAll σ length (sent + n.toNat) (i + 1)
  else some (true, i)
termination_by length - sent

/-- Calls of `send_all` with these lengths, until one returns false. -/
def sendEach (σ : Outcomes) : List Nat → Nat → Option (Bool × Nat)
  | [], i => some (true, i)
  | length :: lengths, i =>
      match sendAll σ length 0 i with
      | none => none
      | some (false, i) => some (false, i)
      | some (true, i) => sendEach σ lengths i

/-- `Message::sendToSocket`. -/
def Message.sendToSocket (m : Message) (σ : Outcomes) (i : Nat) : Option (Bool × Nat) :=
  sendEach σ (m.sends.map List.length) i

/-- The head of the loop of `start_heartbeat`: the number of the next call of `send`, and the
seconds slept so far. -/
structure Turn where
  call : Nat
  slept : Nat

/-- `start_heartbeat` in front of heartbeat `n`, counted from 0; `none` if it does not come to
it. -/
def startHeartbeat (σ : Outcomes) : Nat → Option Turn
  | 0 => some ⟨0, 0⟩
  | n + 1 =>
      (startHeartbeat σ n).bind fun turn =>
        match Message.heartbeat.sendToSocket σ turn.call with
        | none => none
        -- "Failed to send heartbeat, disconnecting..."
        | some (true, _) => none
        | some (false, call) => some ⟨call, turn.slept + 5⟩

/-- What `sendToSocket` returns for heartbeat `n`, if that is attempted and comes to an end. -/
def returned (σ : Outcomes) (n : Nat) : Option Bool :=
  (startHeartbeat σ n).bind fun turn =>
    (Message.heartbeat.sendToSocket σ turn.call).map Prod.fst

/-! ## Heartbeats that last -/

def Attempted (σ : Outcomes) (n : Nat) : Prop := (startHeartbeat σ n).isSome

def SentInFull (σ : Outcomes) (n : Nat) : Prop := returned σ n = some true

def Fails (σ : Outcomes) (n : Nat) : Prop := returned σ n = some false

/-- The loop is left behind heartbeat `n`. -/
def Leaves (σ : Outcomes) (n : Nat) : Prop := (returned σ n).isSome ∧ ¬ Attempted σ (n + 1)

/-- Every call of `send` takes some bytes. -/
def Healthy (σ : Outcomes) : Prop := ∀ i, ∃ n : Int, 0 < n ∧ σ i = some n

/-- The seconds after which `handle_replica` gives a replica up. -/
def heartbeatLimit : Nat := 10

/-- The heartbeats last as long as the connection. -/
structure Lasting (σ : Outcomes) : Prop where
  attempted : ∀ n, Attempted σ n ↔ ∀ j < n, SentInFull σ j
  ends : ∀ n, Fails σ n → Leaves σ n
  healthy : Healthy σ → ∀ n, SentInFull σ n ∧ ∃ turn ∈ startHeartbeat σ n,
    ∃ next ∈ startHeartbeat σ (n + 1), next.slept = turn.slept + 5 ∧
      ¬ next.slept - turn.slept > heartbeatLimit

/-! ## Sending -/

/-- What the calls of `send` from `i` on make of pieces of these lengths. -/
inductive Sends (σ : Outcomes) : List Nat → Nat → Option (Bool × Nat) → Prop
  | done (i : Nat) : Sends σ [] i (some (true, i))
  | blocked {length : Nat} {lengths : List Nat} {i : Nat} :
    σ i = none → Sends σ (length :: lengths) i none
  | refused {length : Nat} {lengths : List Nat} {i : Nat} {n : Int} :
    σ i = some n → n ≤ 0 → Sends σ (length :: lengths) i (some (false, i + 1))
  | part {length : Nat} {lengths : List Nat} {i : Nat} {n : Int} {out : Option (Bool × Nat)} :
    σ i = some n → 0 < n → n < length → Sends σ ((length - n.toNat) :: lengths) (i + 1) out →
    Sends σ (length :: lengths) i out
  | rest {length : Nat} {lengths : List Nat} {i : Nat} {n : Int} {out : Option (Bool × Nat)} :
    σ i = some n → 0 < n → length ≤ n → Sends σ lengths (i + 1) out →
    Sends σ (length :: lengths) i out

theorem sendAll_add (σ : Outcomes) (k length sent i : Nat) :
    sendAll σ (length + k) (sent + k) i = sendAll σ length sent i := by
  induction sent, i using sendAll.induct σ length with
  | case1 sent i open_ blocked =>
      rw [sendAll, sendAll, if_pos (by omega), if_pos open_, blocked]
  | case2 sent i open_ n taken refused =>
      rw [sendAll, sendAll, if_pos (by omega), if_pos open_, taken]
      dsimp only
      rw [if_pos refused, if_pos refused]
  | case3 sent i open_ n taken positive ih =>
      rw [sendAll, sendAll.eq_1 σ length, if_pos (by omega), if_pos open_, taken]
      dsimp only
      rw [if_neg positive, if_neg positive, ← ih, Nat.add_right_comm]
  | case4 sent i closed =>
      rw [sendAll, sendAll, if_neg (by omega), if_neg closed]

/-- One call of `send`. -/
theorem sendEach_cons (σ : Outcomes) {length : Nat} (some_ : 0 < length) (lengths : List Nat)
    (i : Nat) :
    sendEach σ (length :: lengths) i =
      match σ i with
      | none => none
      | some n =>
          if n ≤ 0 then some (false, i + 1)
          else if n < length then sendEach σ ((length - n.toNat) :: lengths) (i + 1)
          else sendEach σ lengths (i + 1) := by
  rw [sendEach, sendAll, if_pos some_]
  cases σ i with
  | none => rfl
  | some n =>
      dsimp only
      by_cases refused : n ≤ 0
      · rw [if_pos refused, if_pos refused]
      · rw [if_neg refused, if_neg refused]
        by_cases part : n < length
        · have left := sendAll_add σ n.toNat (length - n.toNat) 0 (i + 1)
          rw [Nat.sub_add_cancel (by omega)] at left
          rw [if_pos part, left, sendEach]
        · rw [if_neg part, sendAll, if_neg (by omega)]

theorem sends_sendEach (σ : Outcomes) {lengths : List Nat} (some_ : ∀ length ∈ lengths, 0 < length)
    (i : Nat) : Sends σ lengths i (sendEach σ lengths i) := by
  -- a call takes at least one byte of what is left
  induction left : lengths.sum using Nat.strong_induction_on generalizing lengths i with
  | _ total ih =>
      cases lengths with
      | nil => exact .done i
      | cons length lengths =>
          have positive := some_ length List.mem_cons_self
          have later : ∀ length ∈ lengths, 0 < length :=
            fun length member => some_ length (List.mem_cons_of_mem _ member)
          rw [List.sum_cons] at left
          rw [sendEach_cons σ positive]
          cases here : σ i with
          | none => exact .blocked here
          | some n =>
              dsimp only
              by_cases refused : n ≤ 0
              · rw [if_pos refused]
                exact .refused here refused
              · rw [if_neg refused]
                by_cases part : n < length
                · rw [if_pos part]
                  have rest : ∀ size ∈ (length - n.toNat) :: lengths, 0 < size := by
                    rw [List.forall_mem_cons]
                    exact ⟨by omega, later⟩
                  refine .part here (by omega) part (ih _ ?_ rest (i + 1) rfl)
                  rw [List.sum_cons]
                  omega
                · rw [if_neg part]
                  exact .rest here (by omega) (by omega) (ih _ (by omega) later (i + 1) rfl)

/-- The outcomes from call `i` on begin with these. -/
def Begins (σ : Outcomes) (i : Nat) (ns : List Int) : Prop := ∀ j < ns.length, σ (i + j) = ns[j]?

/-- The outcomes from call `i` on are these, and the call behind them does not return. -/
def EndsAfter (σ : Outcomes) (i : Nat) (ns : List Int) : Prop :=
  Begins σ i ns ∧ σ (i + ns.length) = none

theorem begins_nil (σ : Outcomes) (i : Nat) : Begins σ i [] :=
  fun j before => absurd before (Nat.not_lt_zero j)

theorem begins_cons {σ : Outcomes} {i : Nat} {n : Int} {ns : List Int} :
    Begins σ i (n :: ns) ↔ σ i = some n ∧ Begins σ (i + 1) ns := by
  constructor
  · intro begins
    refine ⟨begins 0 (Nat.succ_pos _), fun j before => ?_⟩
    have there := begins (j + 1) (Nat.succ_lt_succ before)
    rwa [List.getElem?_cons_succ, ← Nat.add_assoc, Nat.add_right_comm] at there
  · intro begins j before
    cases j with
    | zero => exact begins.1
    | succ j =>
        rw [List.getElem?_cons_succ, ← begins.2 j (Nat.lt_of_succ_lt_succ before),
          ← Nat.add_assoc, Nat.add_right_comm]

theorem endsAfter_cons {σ : Outcomes} {i : Nat} {n : Int} {ns : List Int} :
    EndsAfter σ i (n :: ns) ↔ σ i = some n ∧ EndsAfter σ (i + 1) ns := by
  rw [EndsAfter, EndsAfter, begins_cons, and_assoc, List.length_cons, ← Nat.add_assoc,
    Nat.add_right_comm]

/-- A call that has returned stands at the head. -/
theorem EndsAfter.of_some {σ : Outcomes} {i : Nat} {n : Int} {ns : List Int}
    (ends : EndsAfter σ i ns) (taken : σ i = some n) :
    ∃ rest, ns = n :: rest ∧ EndsAfter σ (i + 1) rest := by
  cases ns with
  | nil => cases taken.symm.trans ends.2
  | cons m rest =>
      obtain ⟨first, later⟩ := endsAfter_cons.mp ends
      cases taken.symm.trans first
      exact ⟨rest, rfl, later⟩

/-- These outcomes take bytes, each of them some, but not all of the pieces of these lengths. -/
def Unsettled : List Nat → List Int → Prop
  | [], _ => False
  | _ :: _, [] => True
  | length :: lengths, n :: ns =>
      0 < n ∧
        (n < length ∧ Unsettled ((length - n.toNat) :: lengths) ns ∨
          length ≤ n ∧ Unsettled lengths ns)

theorem not_unsettled_nil (ns : List Int) : ¬ Unsettled [] ns := by
  rw [Unsettled]
  exact id

/-- The sending of pieces comes to no end exactly if the outcomes end before. -/
theorem Sends.eq_none_iff {σ : Outcomes} {lengths : List Nat} {i : Nat}
    {out : Option (Bool × Nat)} (sends : Sends σ lengths i out) :
    out = none ↔ ∃ ns, EndsAfter σ i ns ∧ Unsettled lengths ns := by
  induction sends with
  | done i => exact ⟨nofun, fun ⟨ns, _, unsettled⟩ => absurd unsettled (not_unsettled_nil ns)⟩
  | @blocked length lengths i blocked =>
      exact ⟨fun _ => ⟨[], ⟨begins_nil σ i, blocked⟩, True.intro⟩, fun _ => rfl⟩
  | @refused length lengths i n taken refused =>
      refine ⟨nofun, fun ⟨ns, ends, unsettled⟩ => ?_⟩
      obtain ⟨rest, rfl, -⟩ := ends.of_some taken
      exact absurd refused (Int.not_le.mpr unsettled.1)
  | @part length lengths i n out taken positive part _ ih =>
      rw [ih]
      constructor
      · intro ⟨ns, ends, unsettled⟩
        exact ⟨n :: ns, endsAfter_cons.mpr ⟨taken, ends⟩, positive, Or.inl ⟨part, unsettled⟩⟩
      · intro ⟨ns, ends, unsettled⟩
        obtain ⟨rest, rfl, later⟩ := ends.of_some taken
        rcases unsettled.2 with ⟨-, unsettled⟩ | ⟨whole, -⟩
        · exact ⟨rest, later, unsettled⟩
        · exact absurd part (Int.not_lt.mpr whole)
  | @rest length lengths i n out taken positive whole _ ih =>
      rw [ih]
      constructor
      · intro ⟨ns, ends, unsettled⟩
        exact ⟨n :: ns, endsAfter_cons.mpr ⟨taken, ends⟩, positive, Or.inr ⟨whole, unsettled⟩⟩
      · intro ⟨ns, ends, unsettled⟩
        obtain ⟨rest, rfl, later⟩ := ends.of_some taken
        rcases unsettled.2 with ⟨part, -⟩ | ⟨-, unsettled⟩
        · exact absurd part (Int.not_lt.mpr whole)
        · exact ⟨rest, later, unsettled⟩

/-- On a healthy link the pieces are sent. -/
theorem Sends.healthy {σ : Outcomes} (healthy : Healthy σ) {lengths : List Nat} {i : Nat}
    {out : Option (Bool × Nat)} (sends : Sends σ lengths i out) : ∃ i', out = some (true, i') := by
  induction sends with
  | done i => exact ⟨i, rfl⟩
  | @blocked length lengths i blocked =>
      obtain ⟨n, -, taken⟩ := healthy i
      cases blocked.symm.trans taken
  | @refused length lengths i n taken refused =>
      obtain ⟨m, positive, same⟩ := healthy i
      cases taken.symm.trans same
      exact absurd refused (Int.not_le.mpr positive)
  | part _ _ _ _ ih => exact ih
  | rest _ _ _ _ ih => exact ih

/-- Where `true` comes back, every call took some bytes, together at least as many as there are. -/
theorem Sends.sent {σ : Outcomes} {lengths : List Nat} {i i' : Nat}
    (sends : Sends σ lengths i (some (true, i'))) :
    ∃ ns, Begins σ i ns ∧ i' = i + ns.length ∧ (∀ n ∈ ns, 0 < n) ∧ lengths.sum ≤ ns.sum := by
  generalize told : some (true, i') = out at sends
  induction sends with
  | done i =>
      cases told
      exact ⟨[], begins_nil σ _, rfl, fun n member => absurd member List.not_mem_nil, Int.le_refl 0⟩
  | blocked _ => cases told
  | refused _ _ => cases told
  | @part length lengths i n out taken positive part _ ih =>
      obtain ⟨ns, begins, rfl, all, enough⟩ := ih told
      refine ⟨n :: ns, begins_cons.mpr ⟨taken, begins⟩, ?_, ?_, ?_⟩
      · rw [List.length_cons, Nat.add_right_comm, Nat.add_assoc]
      · exact List.forall_mem_cons.mpr ⟨positive, all⟩
      · rw [List.sum_cons] at enough ⊢
        rw [List.sum_cons]
        omega
  | @rest length lengths i n out taken positive whole _ ih =>
      obtain ⟨ns, begins, rfl, all, enough⟩ := ih told
      refine ⟨n :: ns, begins_cons.mpr ⟨taken, begins⟩, ?_, ?_, ?_⟩
      · rw [List.length_cons, Nat.add_right_comm, Nat.add_assoc]
      · exact List.forall_mem_cons.mpr ⟨positive, all⟩
      · rw [List.sum_cons, List.sum_cons]
        omega

/-! ## The loop -/

theorem sends_heartbeat (σ : Outcomes) (i : Nat) :
    Sends σ [1, 1, 2, 8] i (Message.heartbeat.sendToSocket σ i) :=
  sends_sendEach σ (by decide) i

theorem attempted_zero (σ : Outcomes) : Attempted σ 0 := rfl

/-- A heartbeat that was sent in full: the calls of `send` took its twelve bytes. -/
theorem SentInFull.takes {σ : Outcomes} {n : Nat} (full : SentInFull σ n) :
    ∃ turn ∈ startHeartbeat σ n, ∃ ns, Begins σ turn.call ns ∧ (∀ k ∈ ns, 0 < k) ∧ 12 ≤ ns.sum := by
  obtain ⟨turn, here, told⟩ := Option.bind_eq_some_iff.mp full
  obtain ⟨⟨_, i'⟩, sent, rfl⟩ := Option.map_eq_some_iff.mp told
  have sends := sends_heartbeat σ turn.call
  rw [sent] at sends
  obtain ⟨ns, begins, -, all, enough⟩ := sends.sent
  exact ⟨turn, here, ns, begins, all, enough⟩

/-- The next heartbeat is attempted exactly if this one has failed. -/
theorem attempted_succ (σ : Outcomes) (n : Nat) : Attempted σ (n + 1) ↔ Fails σ n := by
  rw [Attempted, Fails, returned, startHeartbeat]
  cases startHeartbeat σ n with
  | none => exact ⟨nofun, nofun⟩
  | some turn =>
      rw [Option.bind_some, Option.bind_some]
      rcases Message.heartbeat.sendToSocket σ turn.call with _ | ⟨_ | _, call⟩
      · exact ⟨nofun, nofun⟩
      · exact ⟨fun _ => rfl, fun _ => rfl⟩
      · exact ⟨nofun, nofun⟩

theorem attempted_of_fails {σ : Outcomes} {n : Nat} (fails : Fails σ n) : Attempted σ n := by
  rw [Attempted]
  cases here : startHeartbeat σ n with
  | none => rw [Fails, returned, here] at fails; cases fails
  | some turn => rfl

/-- **The rule of the loop**: a heartbeat is attempted exactly if all before it have failed. -/
theorem attempted_iff (σ : Outcomes) (n : Nat) : Attempted σ n ↔ ∀ j < n, Fails σ j := by
  induction n with
  | zero => exact iff_of_true (attempted_zero σ) fun j before => absurd before (Nat.not_lt_zero j)
  | succ n ih =>
      rw [attempted_succ]
      constructor
      · intro fails j before
        rcases Nat.lt_succ_iff_lt_or_eq.mp before with earlier | rfl
        · exact ih.mp (attempted_of_fails fails) j earlier
        · exact fails
      · exact fun each => each n (Nat.lt_succ_self n)

/-- Where the first heartbeat has not failed there is no other. -/
theorem only_first {σ : Outcomes} (first : ¬ Fails σ 0) (n : Nat) : Attempted σ n ↔ n = 0 := by
  constructor
  · intro attempted
    by_contra later
    exact first ((attempted_iff σ n).mp attempted 0 (Nat.pos_of_ne_zero later))
  · rintro rfl
    exact attempted_zero σ

theorem returned_zero (σ : Outcomes) :
    returned σ 0 = (Message.heartbeat.sendToSocket σ 0).map Prod.fst := rfl

/-- On a healthy link one heartbeat goes out. -/
theorem healthy_once {σ : Outcomes} (healthy : Healthy σ) :
    SentInFull σ 0 ∧ ∀ n, Attempted σ n ↔ n = 0 := by
  obtain ⟨i, sent⟩ := (sends_heartbeat σ 0).healthy healthy
  have first : SentInFull σ 0 := by
    rw [SentInFull, returned_zero, sent]
    rfl
  exact ⟨first, only_first fun fails => nomatch first.symm.trans fails⟩

/-- **When the heartbeats last as long as the connection**: exactly if the outcomes end before the
first heartbeat is sent or refused. -/
theorem lasting_iff (σ : Outcomes) :
    Lasting σ ↔ ∃ ns, EndsAfter σ 0 ns ∧ Unsettled [1, 1, 2, 8] ns := by
  rw [← (sends_heartbeat σ 0).eq_none_iff]
  constructor
  · intro lasting
    cases sent : Message.heartbeat.sendToSocket σ 0 with
    | none => rfl
    | some result =>
        obtain ⟨whole, i⟩ := result
        have first : returned σ 0 = some whole := by
          rw [returned_zero, sent]
          rfl
        have second := lasting.attempted 1
        rw [attempted_succ, Fails, first] at second
        -- the second heartbeat is attempted exactly in the other case
        cases whole with
        | true =>
            refine nomatch second.mpr fun j before => ?_
            cases Nat.lt_one_iff.mp before
            exact first
        | false => cases first.symm.trans (second.mp rfl 0 Nat.one_pos)
  · intro blocked
    have nothing : returned σ 0 = none := by
      rw [returned_zero, blocked]
      rfl
    have only := only_first fun fails => nomatch nothing.symm.trans fails
    refine ⟨fun n => ⟨fun attempted j before => ?_, fun each => ?_⟩, fun n fails => ?_,
      fun healthy => ?_⟩
    · cases (only n).mp attempted
      exact absurd before (Nat.not_lt_zero j)
    · cases n with
      | zero => exact attempted_zero σ
      | succ n => cases nothing.symm.trans (each 0 (Nat.succ_pos n))
    · cases (only n).mp (attempted_of_fails fails)
      cases nothing.symm.trans fails
    · cases nothing.symm.trans (healthy_once healthy).1

/-- Every `send` takes all it is given: the four fields of a header in turn. -/
def eager : Outcomes := fun i =>
  match i % 4 with
  | 0 => some 1
  | 1 => some 1
  | 2 => some 2
  | _ => some 8

theorem healthy_eager : Healthy eager := by
  intro i
  unfold eager
  split
  · exact ⟨1, by decide, rfl⟩
  · exact ⟨1, by decide, rfl⟩
  · exact ⟨2, by decide, rfl⟩
  · exact ⟨8, by decide, rfl⟩

/-- The link is healthy, and no second heartbeat goes out. -/
theorem eager_once : Healthy eager ∧ ¬ Attempted eager 1 ∧ ¬ Lasting eager := by
  have once : ¬ Attempted eager 1 :=
    fun attempted => Nat.one_ne_zero (((healthy_once healthy_eager).2 1).mp attempted)
  refine ⟨healthy_eager, once, fun lasting => ?_⟩
  refine once ((lasting.attempted 1).mpr fun j before => ?_)
  cases Nat.lt_one_iff.mp before
  exact (healthy_once healthy_eager).1

end Blp.Replica

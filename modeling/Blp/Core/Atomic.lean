import Blp.Core.Linear
import Mathlib.Data.List.Permutation

/-!
# `expire` among `put` and `remove`

`expire` reads an entry, looks at the clock, appends and then writes the entry back with its
deadline.

* `expire_atomic`: in the runs in which every write of an `expire` finds the entry that the call
  has read, the calls have the results and leave the store of some sequential order, in which a call
  that returned before another one started comes first.
* `removed_key_back`: a `remove` between read and write suffices for the opposite.
-/

namespace Blp.Core

open CString Runs Slots

/-! ## What is called and when it is atomic -/

/-- Only `put`, `remove` and `expire` are called and the cleaner rests. -/
def Move.Client : Move → Prop
  | .call (.get _) => False
  | .call _ => True
  | .turn _ _ => True
  | _ => False

instance (move : Move) : Decidable move.Client :=
  match move with
  | .call (.get _) => isFalse id
  | .call (.put _ _) => isTrue True.intro
  | .call (.remove _) => isTrue True.intro
  | .call (.expire _ _) => isTrue True.intro
  | .turn _ _ => isTrue True.intro
  | .snapshot => isFalse id
  | .check _ _ => isFalse id
  | .clean _ => isFalse id

/-- When an `expire` writes, the store still holds the entry that it has read. -/
def StillThere (s : World) : Move → Prop
  | .turn i (.write true) =>
      match s.calls[i]? with
      | some (.expire key _, .appended (some (entry, _))) =>
          s.store.db.lookup key = some entry.raw
      | _ => True
  | _ => True

instance (s : World) (move : Move) : Decidable (StillThere s move) := by
  unfold StillThere
  split
  · split <;> infer_instance
  · infer_instance

/-- None of the calls is a `get`, and the cleaner has found nothing. -/
structure Clients (s : World) : Prop where
  calls : ∀ call ∈ s.calls, ∀ key, call.1 ≠ .get key
  idle : s.removing = none

theorem Clients.start (db : LevelDB) : Clients (World.start db) := ⟨nofun, rfl⟩

theorem Clients.step {s t : World} {move : Move} (h : Clients s) (client : move.Client)
    (taken : worldStep s move = some t) : Clients t := by
  cases move with
  | call request =>
      cases taken
      refine ⟨fun call member key get => ?_, h.idle⟩
      rcases List.mem_append.mp member with old | new
      · exact h.calls call old key get
      · cases List.mem_singleton.mp new
        obtain rfl : request = .get key := get
        exact client
  | turn i turn =>
      obtain ⟨request, phase, next, there, -, rfl⟩ := worldStep_turn taken
      have other : ∀ key, request ≠ .get key := h.calls _ (List.mem_of_getElem? there)
      exact ⟨forall_mem_set h.calls other, h.idle⟩
  | snapshot => exact client.elim
  | check key now => exact client.elim
  | clean written => exact client.elim

/-- Among such calls only an `expire` has decided on anything from what it read. -/
theorem Clients.finds_iff {s : World} {move : Move} (h : Clients s) (client : move.Client) :
    FindsRead s move ↔ StillThere s move := by
  cases move with
  | turn i turn =>
      cases turn with
      | write written =>
          cases written with
          | false => exact Iff.rfl
          | true =>
              simp only [FindsRead, StillThere]
              cases there : s.calls[i]? with
              | none => exact iff_of_true nofun trivial
              | some call =>
                  obtain ⟨request, phase⟩ := call
                  simp only [Option.mem_some_iff, forall_eq']
                  cases request with
                  | get key => exact (h.calls _ (List.mem_of_getElem? there) key rfl).elim
                  | expire key ts =>
                      cases phase with
                      | appended seen => cases seen <;> exact Iff.rfl
                      | _ => exact Iff.rfl
                  | _ => exact Iff.rfl
      | _ => exact Iff.rfl
  | clean written => exact client.elim
  | _ => exact Iff.rfl

/-- **`expire` is atomic** in the runs in which its writes find what it has read: the calls have the
results of some sequential order that keeps to their order in time. -/
theorem expire_atomic {db : LevelDB} {moves : List Move} {t : World}
    (reached : run worldStep (World.start db) moves = some t)
    (clients : ∀ move ∈ moves, move.Client)
    (still : Along worldStep StillThere (World.start db) moves) :
    ∃ order, Linearization db moves t order := by
  refine linearization_of_run reached ?_
  refine (along_congr_of_mem (I := Clients) ?_ ?_ clients (Clients.start db)).mpr still
  · exact fun s move client h => h.finds_iff client
  · exact fun s move t client _ h taken => h.step client taken

/-- `put` on another key comes between read and write of `expire`, and `remove` behind both. -/
def expireBesidePut : List Move :=
  [.call (.expire [107] 10), .call (.put [108] [119]), .turn 0 .read,
    .turn 1 (.append ⟨true, true⟩), .turn 0 (.clock 5), .turn 1 (.write true),
    .turn 0 (.append ⟨true, true⟩), .turn 0 (.write true), .call (.remove [107]),
    .turn 2 (.append ⟨true, true⟩), .turn 2 (.write true)]

theorem atomic_expireBesidePut :
    ∃ order, Linearization kept expireBesidePut
      ((run worldStep (World.start kept) expireBesidePut).get (by decide)) order :=
  expire_atomic (Option.some_get _).symm (by decide) (by decide)

/-- `remove` on the key comes between read and write of `expire`. -/
def removeInside : List Move :=
  [.call (.expire [107] 10), .turn 0 .read, .turn 0 (.clock 5), .call (.remove [107]),
    .turn 1 (.append ⟨true, true⟩), .turn 1 (.write true), .turn 0 (.append ⟨true, true⟩),
    .turn 0 (.write true)]

/-- An order without removals by the cleaner is one of calls. -/
theorem eq_map_call {order : List Slot} (none : removals order = []) :
    order = (indices order).map .call := by
  induction order with
  | nil => rfl
  | cons slot rest ih =>
      cases slot with
      | call i => exact congrArg (Slot.call i :: ·) (ih none)
      | cleaned key due => cases none

/-- Both calls have returned true and the key is back. -/
theorem removed_key_back :
    ∃ t, run worldStep (World.start kept) removeInside = some t ∧
      ¬ ∃ order, Linearization kept removeInside t order := by
  refine ⟨(run worldStep (World.start kept) removeInside).get (by decide),
    (Option.some_get _).symm, ?_⟩
  intro linearizable
  obtain ⟨order, unique, returned, cleaned, results, final, -, -⟩ := linearizable
  have calls : ((run worldStep (World.start kept) removeInside).get (by decide)).calls =
      [(.expire [107] 10, .returned 5 true true), (.remove [107], .returned 0 true true)] := by
    decide
  have both : (indices order).Perm [0, 1] := by
    refine (List.perm_ext_iff_of_nodup unique (by decide)).mpr fun i => ?_
    rw [returned, calls]
    match i with
    | 0 => simp [Record.of]
    | 1 => simp [Record.of]
    | i + 2 => simp
  rw [eq_map_call (cleaned.trans (by decide))] at results final
  -- `expire` last finds nothing to write; `remove` last leaves nothing.
  rcases List.perm_pair.mp both with same | same
  · rw [same] at final
    exact absurd (congrArg (AList.lookup [107]) final) (by decide)
  · rw [same] at results
    exact absurd results (by decide)

end Blp.Core

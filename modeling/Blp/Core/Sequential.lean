import Blp.Core.Calls

/-!
# Sequential orders

What the calls of a run and the removals of the cleaner would do one after the other.

* `Legal`: an order of them, with the reads that are still under way at the places where they read,
  in which every call has the result it had and finds what it has read.
* `Legal.replace`: the next step of a read that is under way is taken at its place.
* `Legal.performAll_eq`, `Legal.sees_at`: without such reads the order is an execution of one call
  after the other.
-/

namespace Blp.Core

open CString Runs Slots

/-! ## One call after the other -/

/-- A call that has returned: the time it has seen, the status of its LevelDB write and its
result. -/
structure Record where
  request : Request
  now : UInt64
  written : Bool
  ok : Bool
  deriving DecidableEq

def Record.of : Request × Phase → Option Record
  | (request, .returned now written ok) => some ⟨request, now, written, ok⟩
  | _ => none

theorem of_not_returned {request : Request} {phase : Phase}
    (goesOn : ∀ now written ok, phase ≠ .returned now written ok) :
    Record.of (request, phase) = none := by
  cases phase with
  | returned now written ok => exact (goesOn now written ok rfl).elim
  | _ => rfl

/-- The same call on a store of its own, at the same time and with the same answer of LevelDB. -/
def Record.perform (r : Record) (s : Store) : Bool × Store :=
  match r.request with
  | .put key value => s.put key value ⟨true, true⟩ r.written
  | .remove key => s.remove key ⟨true, true⟩ r.written
  | .expire key ts => s.expire key ts r.now ⟨true, true⟩ r.written
  | .get key => ((s.get key [] r.now r.written).1, (s.get key [] r.now r.written).2.2)

/-- One call after the other: their results and the store at the end. -/
def performAll : List Record → Store → List Bool × Store
  | [], s => ([], s)
  | r :: rs, s =>
      ((r.perform s).1 :: (performAll rs (r.perform s).2).1, (performAll rs (r.perform s).2).2)

/-- A call that writes does what the operation does on the store it finds. -/
theorem perform_writes {request : Request} {seen : Option (Found × UInt64)} {cmd : Command}
    {written : Bool} (command : request.command seen = some cmd) {S store : Store}
    (same : S.db = store.db)
    (still : written = true → ∀ key ts entry now, request = .expire key ts →
      seen = some (entry, now) → store.db.lookup key = some entry.raw) :
    (Record.perform ⟨request, seen.elim 0 Prod.snd, written, written⟩ S).1 = written ∧
      (Record.perform ⟨request, seen.elim 0 Prod.snd, written, written⟩ S).2.db =
        (if written then store.write cmd else store).db := by
  cases request with
  | put key value =>
      cases seen <;> cases command
      cases written <;> simp [Record.perform, Store.put, Store.write, same]
  | remove key =>
      cases seen <;> cases command
      cases written <;> simp [Record.perform, Store.remove, Store.write, same]
  | expire key ts =>
      cases seen with
      | none => cases command
      | some seen =>
          obtain ⟨entry, now⟩ := seen
          cases command
          cases written with
          | true =>
              have found := still rfl key ts entry now rfl rfl
              rw [← same] at found
              simp [Record.perform, expire_of_some found entry.stored, Store.put, Store.write,
                same]
          | false =>
              simp only [Record.perform, Store.expire]
              split <;> simp [Store.put, same]
  | get key => cases seen <;> cases command

/-! ## What takes effect -/

/-- What takes effect on the store: a call by its number, or a removal by the cleaner. -/
inductive Slot
  | call (i : Nat)
  | cleaned (key : Bytes) (due : Due)
  deriving DecidableEq

def Slot.index : Slot → Option Nat
  | .call i => some i
  | .cleaned _ _ => none

def Slot.removal : Slot → Option (Bytes × Due)
  | .call _ => none
  | .cleaned key due => some (key, due)

/-- The numbers of the calls, in their order. -/
def indices (order : List Slot) : List Nat := order.filterMap Slot.index

/-- What the cleaner has removed, in its order. -/
def removals (order : List Slot) : List (Bytes × Due) := order.filterMap Slot.removal

/-- What a `get` reads from LevelDB: the number of the call, the key and the entry. -/
def readBy (s : World) : Move → Option (Nat × Bytes × Bytes)
  | .turn i .read =>
      match s.calls[i]? with
      | some (.get key, _) => some (i, key, s.store.raw key [])
      | _ => none
  | _ => none

/-- What a step of the cleaner removes from LevelDB. -/
def removed (s : World) : Move → Option (Bytes × Due)
  | .clean true => s.removing
  | _ => none

@[simp] theorem indices_append (order later : List Slot) :
    indices (order ++ later) = indices order ++ indices later := List.filterMap_append

@[simp] theorem removals_append (order later : List Slot) :
    removals (order ++ later) = removals order ++ removals later := List.filterMap_append

/-- The order without a call. -/
def without (order : List Slot) (k : Nat) : List Slot := order.filter (· ≠ .call k)

theorem indices_filter {p : Slot → Bool} {q : Nat → Bool} (same : ∀ i, p (.call i) = q i)
    (order : List Slot) : indices (order.filter p) = (indices order).filter q := by
  rw [indices, indices, List.filterMap_filter, List.filter_filterMap]
  congr 1
  funext slot
  cases slot with
  | call i => cases kept : q i <;> simp [Slot.index, same, kept, Option.filter_some]
  | cleaned key due => simp [Slot.index]

theorem removals_filter {p : Slot → Bool} (kept : ∀ key due, p (.cleaned key due) = true)
    (order : List Slot) : removals (order.filter p) = removals order := by
  rw [removals, removals, List.filterMap_filter]
  congr 1
  funext slot
  cases slot with
  | call i => exact ite_self _
  | cleaned key due => exact if_pos (kept key due)

theorem indices_without (order : List Slot) (k : Nat) :
    indices (without order k) = (indices order).filter (· ≠ k) :=
  indices_filter (fun i => by simp) order

theorem removals_without (order : List Slot) (k : Nat) :
    removals (without order k) = removals order :=
  removals_filter (fun _ _ => by simp) order

/-- A call that has returned. A removal by the cleaner is a `get` that nobody called. -/
def Slot.record (calls : List (Request × Phase)) : Slot → Option Record
  | .call i => calls[i]?.bind Record.of
  | .cleaned key due => some ⟨.get key, due.now, true, false⟩

/-- What a `get` that has not returned has read. -/
def Phase.has : Phase → Option Bytes
  | .read raw => some raw
  | .removing due => some due.raw
  | _ => none

/-- The call has returned or is a `get` that waits. -/
def Effective (call : Request × Phase) : Prop :=
  (∃ r, Record.of call = some r) ∨ ∃ key raw, call.1 = .get key ∧ call.2.has = some raw

/-- The store shows what the call has read, or nothing. -/
def Slot.Sees (reads : List (Nat × Bytes × Bytes)) (S : Store) : Slot → Prop
  | .call i => ∀ key raw, (i, key, raw) ∈ reads → ∀ entry ∈ S.db.lookup key, entry = raw
  | .cleaned _ _ => True

/-- One after the other from the first store to the last: each that has returned with the result it
had, and each where the store shows no other entry than the one it has read. -/
inductive Legal (calls : List (Request × Phase)) (reads : List (Nat × Bytes × Bytes)) :
    Store → List Slot → Store → Prop
  | nil {S : Store} : Legal calls reads S [] S
  | done {S T : Store} {slot : Slot} {rest : List Slot} {r : Record}
      (found : slot.record calls = some r) (ok : (r.perform S).1 = r.ok) (sees : slot.Sees reads S)
      (next : Legal calls reads (r.perform S).2 rest T) : Legal calls reads S (slot :: rest) T
  | waits {S T : Store} {i : Nat} {rest : List Slot} {key raw : Bytes} {phase : Phase}
      (found : calls[i]? = some (.get key, phase)) (has : phase.has = some raw)
      (here : S.raw key [] = raw) (sees : (Slot.call i).Sees reads S)
      (next : Legal calls reads S rest T) : Legal calls reads S (.call i :: rest) T

theorem of_has {request : Request} {phase : Phase} {raw : Bytes} (has : phase.has = some raw) :
    Record.of (request, phase) = none := by
  cases phase <;> first | rfl | cases has

namespace Legal

variable {calls calls' : List (Request × Phase)} {reads reads' : List (Nat × Bytes × Bytes)}
  {S T : Store} {order : List Slot}

theorem congr (h : Legal calls reads S order T)
    (same : ∀ i ∈ indices order, calls'[i]? = calls[i]?)
    (less : ∀ i ∈ indices order, ∀ key raw, (i, key, raw) ∈ reads' → (i, key, raw) ∈ reads) :
    Legal calls' reads' S order T := by
  induction h with
  | nil => exact .nil
  | @done S T slot rest r found ok sees next ih =>
      cases slot with
      | call i =>
          refine .done (r := r) ?_ ok ?_ (ih
            (fun i member => same i (List.mem_cons_of_mem _ member))
            fun i member => less i (List.mem_cons_of_mem _ member))
          · rw [← found, Slot.record, Slot.record, same i List.mem_cons_self]
          · exact fun key raw read => sees key raw (less i List.mem_cons_self key raw read)
      | cleaned key due => exact .done found ok trivial (ih same less)
  | @waits S T i rest key raw phase found has here sees next ih =>
      refine .waits ?_ has here ?_ (ih (fun i member => same i (List.mem_cons_of_mem _ member))
        fun i member => less i (List.mem_cons_of_mem _ member))
      · rw [same _ List.mem_cons_self, found]
      · exact fun key raw read => sees key raw (less i List.mem_cons_self key raw read)

/-- What has just taken effect comes last. -/
theorem concat (h : Legal calls reads S order T) {slot : Slot} {r : Record}
    (found : slot.record calls = some r) (ok : (r.perform T).1 = r.ok) (sees : slot.Sees reads T) :
    Legal calls reads S (order ++ [slot]) (r.perform T).2 := by
  induction h with
  | nil => exact .done found ok sees .nil
  | done found' ok' sees' _ ih => exact .done found' ok' sees' (ih ok sees)
  | waits found' has here sees' _ ih => exact .waits found' has here sees' (ih ok sees)

theorem concat_waits (h : Legal calls reads S order T) {i : Nat} {key raw : Bytes} {phase : Phase}
    (found : calls[i]? = some (.get key, phase)) (has : phase.has = some raw)
    (here : T.raw key [] = raw) (sees : (Slot.call i).Sees reads T) :
    Legal calls reads S (order ++ [.call i]) T := by
  induction h with
  | nil => exact .waits found has here sees .nil
  | done found' ok' sees' _ ih => exact .done found' ok' sees' (ih here sees)
  | waits found' has' here' sees' _ ih => exact .waits found' has' here' sees' (ih here sees)

theorem effective (h : Legal calls reads S order T) {i : Nat} (member : i ∈ indices order) :
    ∃ call, calls[i]? = some call ∧ Effective call := by
  induction h with
  | nil => cases member
  | @done S T slot rest r found ok sees next ih =>
      cases slot with
      | call j =>
          rcases List.mem_cons.mp member with rfl | later
          · obtain ⟨call, there, record⟩ := Option.bind_eq_some_iff.mp found
            exact ⟨call, there, Or.inl ⟨r, record⟩⟩
          · exact ih later
      | cleaned key due => exact ih member
  | @waits S T j rest key raw phase found has here sees next ih =>
      rcases List.mem_cons.mp member with rfl | later
      · exact ⟨_, found, Or.inr ⟨key, raw, rfl, has⟩⟩
      · exact ih later

theorem inside (h : Legal calls reads S order T) {i : Nat} (member : i ∈ indices order) :
    i < calls.length := by
  obtain ⟨call, there, -⟩ := h.effective member
  exact (List.getElem?_eq_some_iff.mp there).1

/-- A `get` that waits takes its next step at the place where it has read. -/
theorem replace (h : Legal calls reads S order T) (unique : (indices order).Nodup) {i : Nat}
    {key raw : Bytes} {phase phase' : Phase} (found : calls[i]? = some (.get key, phase))
    (has : phase.has = some raw)
    (goes : ∀ {S rest}, S.raw key [] = raw → (Slot.call i).Sees reads S →
      Legal (calls.set i (.get key, phase')) reads S rest T →
      Legal (calls.set i (.get key, phase')) reads S (.call i :: rest) T) :
    Legal (calls.set i (.get key, phase')) reads S order T := by
  have other : ∀ {j : Nat}, i ≠ j → (calls.set i (.get key, phase'))[j]? = calls[j]? :=
    fun ne => List.getElem?_set_ne ne
  induction h with
  | nil => exact .nil
  | @done S T slot rest r found' ok sees next ih =>
      cases slot with
      | call j =>
          obtain ⟨out, rest'⟩ := List.nodup_cons.mp unique
          have ne : i ≠ j := by
            intro same
            subst same
            rw [Slot.record, found, Option.bind_some, of_has has] at found'
            cases found'
          refine .done ?_ ok sees (ih rest' goes)
          rw [Slot.record, other ne]
          exact found'
      | cleaned key due => exact .done found' ok sees (ih unique goes)
  | @waits S T j rest key' raw' phase'' found' has' here sees next ih =>
      obtain ⟨out, rest'⟩ := List.nodup_cons.mp unique
      by_cases same : i = j
      · subst same
        rw [found] at found'
        cases found'
        rw [has] at has'
        cases has'
        refine goes here sees (next.congr (fun k member => other fun same => out ?_)
          fun _ _ _ _ => id)
        rw [same]
        exact member
      · refine .waits ?_ has' here sees (ih rest' goes)
        rw [other same]
        exact found'

/-- What has not taken effect may be left out. -/
theorem filter (h : Legal calls reads S order T) {p : Slot → Bool}
    (kept : ∀ slot r, slot.record calls = some r → p slot = true) :
    Legal calls reads S (order.filter p) T := by
  induction h with
  | nil => exact .nil
  | done found ok sees _ ih =>
      rw [List.filter_cons_of_pos (kept _ _ found)]
      exact .done found ok sees ih
  | waits found has here sees _ ih =>
      rw [List.filter_cons]
      split
      · exact .waits found has here sees ih
      · exact ih

/-- Without reads that wait the order is an execution of one call after the other. -/
theorem performAll_eq (h : Legal calls reads S order T)
    (recorded : ∀ slot ∈ order, (slot.record calls).isSome) :
    performAll (order.filterMap (Slot.record calls)) S =
      ((order.filterMap (Slot.record calls)).map Record.ok, T) := by
  induction h with
  | nil => rfl
  | done found ok _ _ ih =>
      rw [List.filterMap_cons_some found, performAll, List.map_cons, ok,
        ih fun slot member => recorded slot (List.mem_cons_of_mem _ member)]
  | waits found has _ _ _ _ =>
      have none := recorded _ List.mem_cons_self
      rw [Slot.record, found, Option.bind_some, of_has has] at none
      cases none

/-- Each call finds at its place what it has read. -/
theorem sees_at (h : Legal calls reads S order T)
    (recorded : ∀ slot ∈ order, (slot.record calls).isSome) {front back : List Slot} {slot : Slot}
    (place : order = front ++ slot :: back) :
    slot.Sees reads (performAll (front.filterMap (Slot.record calls)) S).2 := by
  induction h generalizing front with
  | nil => exact (List.append_ne_nil_of_right_ne_nil _ (List.cons_ne_nil _ _) place.symm).elim
  | done found ok sees _ ih =>
      cases front with
      | nil =>
          cases place
          exact sees
      | cons first front =>
          obtain ⟨rfl, rest⟩ := List.cons.inj place
          rw [List.filterMap_cons_some found, performAll]
          exact ih (fun slot member => recorded slot (List.mem_cons_of_mem _ member)) rest
  | waits found has _ _ _ _ =>
      have none := recorded _ List.mem_cons_self
      rw [Slot.record, found, Option.bind_some, of_has has] at none
      cases none

/-- A call that has not returned may take any step, and read, once it is out of the order. -/
theorem leave (h : Legal calls reads S order T) {k : Nat}
    (pending : calls[k]?.bind Record.of = none) (next : Request × Phase)
    (less : ∀ i key raw, i ≠ k → (i, key, raw) ∈ reads' → (i, key, raw) ∈ reads) :
    Legal (calls.set k next) reads' S (without order k) T := by
  have kept : ∀ slot r, slot.record calls = some r → decide (slot ≠ Slot.call k) = true := by
    intro slot r found
    refine decide_eq_true fun same => ?_
    subst same
    rw [Slot.record, pending] at found
    cases found
  have other : ∀ i ∈ indices (without order k), i ≠ k := by
    intro i member
    rw [indices_without] at member
    simpa using (List.mem_filter.mp member).2
  exact (h.filter kept).congr (fun i member => List.getElem?_set_ne (other i member).symm)
    fun i member key raw => less i key raw (other i member)

end Legal

end Blp.Core

import Blp.Core.Reference

/-!
# Keys are independent

Every operation reads and writes the entry of one key, and a pass of the cleaner looks at each entry
on its own.

* `exec_local`: the result of an act on a key, and what it leaves there, come from what is there.
* `keys_independent`: leaving out all that happens to other keys changes nothing for a key.
-/

namespace Blp.Core

open CString

/-- The act may touch the key. -/
def Act.touches (key : Bytes) : Act → Bool
  | .put k _ _ _ => k == key
  | .remove k _ _ => k == key
  | .get k _ _ => k == key
  | .ttl k _ => k == key
  | .expire k _ _ _ _ => k == key
  | .ttlCleaner _ _ => true

/-- Both stores have the same entry under the key. -/
def SameAt (key : Bytes) (s t : Store) : Prop := s.db.lookup key = t.db.lookup key

theorem expire_eq (s : Store) (key : Bytes) (ts now : UInt64) (append : Append)
    (written : Bool) :
    s.expire key ts now append written =
      if s.raw key [] = [] then (false, s)
      else s.put key (textOf (s.raw key []) ++ tab :: decimal (now + ts).toNat) append written :=
  rfl

theorem lookup_expire_eq (s : Store) (key : Bytes) (ts now : UInt64) (append : Append)
    (written : Bool) (other : Bytes) :
    (s.expire key ts now append written).2.db.lookup other =
      if other = key ∧ written ∧ s.raw key [] ≠ [] then
        some (storedValue (textOf (s.raw key []) ++ tab :: decimal (now + ts).toNat))
      else s.db.lookup other := by
  rw [expire_eq]
  by_cases stored : s.raw key [] = []
  · rw [if_pos stored, if_neg fun all => all.2.2 stored]
  · rw [if_neg stored, lookup_put]
    simp only [stored, ne_eq, not_false_eq_true, and_true]

/-- What is done to another key is not seen. -/
theorem exec_other {key : Bytes} {act : Act} (other : act.touches key = false) (s : Store) :
    SameAt key (s.exec act).2 s := by
  cases act with
  | put k value append written =>
      have ne : key ≠ k := fun same => by simp [Act.touches, same] at other
      exact (lookup_put ..).trans (if_neg fun both => ne both.1)
  | remove k append written =>
      have ne : key ≠ k := fun same => by simp [Act.touches, same] at other
      exact (lookup_remove ..).trans (if_neg fun both => ne both.1)
  | get k now written =>
      have ne : key ≠ k := fun same => by simp [Act.touches, same] at other
      exact (lookup_get ..).trans (if_neg ne)
  | ttl k now => rfl
  | expire k ts now append written =>
      have ne : key ≠ k := fun same => by simp [Act.touches, same] at other
      exact (lookup_expire_eq ..).trans (if_neg fun both => ne both.1)
  | ttlCleaner now written => cases other

theorem SameAt.raw {key : Bytes} {s t : Store} (same : SameAt key s t) :
    s.raw key [] = t.raw key [] := congrArg (fun entry : Option Bytes => entry.getD []) same

/-- An act on the key gives the same result and leaves the same entry on both stores. -/
theorem exec_local {key : Bytes} {act : Act} (own : act.touches key = true) {s t : Store}
    (same : SameAt key s t) :
    (s.exec act).1 = (t.exec act).1 ∧ SameAt key (s.exec act).2 (t.exec act).2 := by
  cases act with
  | put k value append written =>
      refine ⟨rfl, ?_⟩
      simp only [SameAt, Store.exec, lookup_put]
      split
      · rfl
      · exact same
  | remove k append written =>
      refine ⟨rfl, ?_⟩
      simp only [SameAt, Store.exec, lookup_remove]
      split
      · rfl
      · exact same
  | get k now written =>
      cases eq_of_beq own
      constructor
      · simp only [Store.exec, get_written_eq, same.raw]
      · simp only [SameAt, Store.exec, lookup_get, if_true]
        rw [same]
  | ttl k now =>
      cases eq_of_beq own
      refine ⟨?_, same⟩
      simp only [Store.exec, ttl_eq, same.raw]
  | expire k ts now append written =>
      cases eq_of_beq own
      constructor
      · simp only [Store.exec, expire_eq, same.raw]
        split <;> rfl
      · simp only [SameAt, Store.exec, lookup_expire_eq, same.raw]
        split
        · rfl
        · exact same
  | ttlCleaner now written =>
      refine ⟨rfl, ?_⟩
      simp only [SameAt, Store.exec, lookup_sweep]
      rw [same]

/-- The results of the acts that touch the key. -/
def resultsAt (key : Bytes) : Store → List Act → List Result
  | _, [] => []
  | s, act :: acts =>
      if act.touches key then (s.exec act).1 :: resultsAt key (s.exec act).2 acts
      else resultsAt key (s.exec act).2 acts

theorem resultsAt_eq (key : Bytes) (acts : List Act) {s t : Store} (same : SameAt key s t) :
    resultsAt key s acts = results Store.exec t (acts.filter (Act.touches key)) ∧
      SameAt key (acts.foldl (fun s act => (s.exec act).2) s)
        ((acts.filter (Act.touches key)).foldl (fun s act => (s.exec act).2) t) := by
  induction acts generalizing s t with
  | nil => exact ⟨rfl, same⟩
  | cons act acts ih =>
      cases own : act.touches key with
      | true =>
          obtain ⟨result, left⟩ := exec_local own same
          obtain ⟨rest, final⟩ := ih left
          rw [resultsAt, if_pos own, List.filter_cons_of_pos own, results, result, rest]
          exact ⟨rfl, final⟩
      | false =>
          obtain ⟨rest, final⟩ := ih ((exec_other own s).trans same)
          have out : ¬ act.touches key = true := by rw [own]; exact Bool.noConfusion
          rw [resultsAt, if_neg out, List.filter_cons_of_neg out]
          exact ⟨rest, final⟩

/-- **Keys are independent.** Whatever is done to other keys between them, with whatever answers of
the log and of LevelDB, the acts on a key and the passes of the cleaner have the results, and leave
the entry, that they have and leave without it. -/
theorem keys_independent (key : Bytes) (acts : List Act) (s : Store) :
    resultsAt key s acts = results Store.exec s (acts.filter (Act.touches key)) ∧
      (acts.foldl (fun s act => (s.exec act).2) s).db.lookup key =
        ((acts.filter (Act.touches key)).foldl (fun s act => (s.exec act).2) s).db.lookup key :=
  resultsAt_eq key acts rfl

/-- Two keys in turn. -/
example : resultsAt [107] Store.empty
    [.put [107] [118] ⟨true, true⟩ true, .put [108] [119] ⟨true, true⟩ true,
      .remove [108] ⟨true, true⟩ true, .get [107] 5 true] = [.done true, .got true [118]] := by
  decide

end Blp.Core

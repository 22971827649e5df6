import Blp.Core.Sequential

/-!
# The store is linearizable

Calls of `get`, `put`, `remove` and `expire` and passes of the cleaner take their steps in any
order. `get`, `expire` and the cleaner write what they have decided on from an entry they read
earlier.

* `linearizable_in_time`: in the runs in which every such write finds the entry that was read, and
  every such removal finds it or none, the calls have the results of some sequential order, in
  which a call that returned before another one started comes first.
-/

namespace Blp.Core

open CString Runs Slots

/-! ## When calls are not in each other's way -/

/-- What a call writes it has decided on from the entry that the store holds. A removal may find
none. -/
def Finds (store : Store) : Request × Phase → Prop
  | (.expire key _, .appended (some (entry, _))) => store.db.lookup key = some entry.raw
  | (.get key, .removing due) => ∀ raw ∈ store.db.lookup key, raw = due.raw
  | _ => True

def FindsRead (s : World) : Move → Prop
  | .turn i (.write true) => ∀ call ∈ s.calls[i]?, Finds s.store call
  | .clean true => ∀ found ∈ s.removing, ∀ raw ∈ s.store.db.lookup found.1, raw = found.2.raw
  | _ => True

instance (store : Store) : DecidablePred (Finds store) := fun call => by
  unfold Finds
  split <;> infer_instance

instance (s : World) (move : Move) : Decidable (FindsRead s move) :=
  match move with
  | .call _ => isTrue True.intro
  | .turn _ .read => isTrue True.intro
  | .turn _ (.clock _) => isTrue True.intro
  | .turn _ (.append _) => isTrue True.intro
  | .turn _ (.write false) => isTrue True.intro
  | .turn i (.write true) => inferInstanceAs (Decidable (∀ call ∈ s.calls[i]?, Finds s.store call))
  | .snapshot => isTrue True.intro
  | .check _ _ => isTrue True.intro
  | .clean false => isTrue True.intro
  | .clean true =>
      inferInstanceAs (Decidable (∀ found ∈ s.removing, ∀ raw ∈ s.store.db.lookup found.1,
        raw = found.2.raw))

/-! ## Real time -/

/-- Call `i` had returned at a moment of the run at which call `j` had not started. -/
def Precedes (db : LevelDB) (moves : List Move) (i j : Nat) : Prop :=
  ∃ before after s r, moves = before ++ after ∧ run worldStep (World.start db) before = some s ∧
    s.calls[i]?.bind Record.of = some r ∧ s.calls.length ≤ j

theorem of_eq_some {call : Request × Phase} {r : Record} (returned : Record.of call = some r) :
    ∃ now written ok, call.2 = .returned now written ok := by
  obtain ⟨request, phase⟩ := call
  cases phase with
  | returned now written ok => exact ⟨now, written, ok, rfl⟩
  | _ => cases returned

/-- A step leaves a call as it is or is one of the call. -/
theorem calls_step {s t : World} {move : Move} (taken : worldStep s move = some t) {i : Nat}
    {call : Request × Phase} (there : s.calls[i]? = some call) :
    t.calls[i]? = some call ∨
      ∃ turn phase store, move = .turn i turn ∧
        call.1.turn s.store call.2 turn = some (phase, store) ∧
        t.calls[i]? = some (call.1, phase) := by
  have inside := (List.getElem?_eq_some_iff.mp there).1
  cases move with
  | call request =>
      cases taken
      exact Or.inl ((List.getElem?_append_left inside).trans there)
  | turn k turn =>
      obtain ⟨request, phase, ⟨phase', store'⟩, there', step, rfl⟩ := worldStep_turn taken
      by_cases same : k = i
      · subst same
        rw [there'] at there
        cases there
        exact Or.inr ⟨turn, phase', store', rfl, step, List.getElem?_set_self inside⟩
      · exact Or.inl ((List.getElem?_set_ne same).trans there)
  | snapshot =>
      obtain ⟨-, ⟨⟩⟩ := Option.ite_none_right_eq_some.mp taken
      exact Or.inl there
  | check key now =>
      simp only [worldStep] at taken
      split at taken
      · obtain ⟨-, ⟨⟩⟩ := Option.ite_none_right_eq_some.mp taken
        exact Or.inl there
      · cases taken
  | clean written =>
      simp only [worldStep] at taken
      split at taken
      · cases taken
        exact Or.inl there
      · cases taken

/-- A call that has returned stays as it is. -/
theorem returned_step {s t : World} {move : Move} (taken : worldStep s move = some t) {i : Nat}
    {r : Record} (returned : s.calls[i]?.bind Record.of = some r) :
    t.calls[i]?.bind Record.of = some r := by
  obtain ⟨call, there, record⟩ := Option.bind_eq_some_iff.mp returned
  rcases calls_step taken there with same | ⟨turn, phase, store, -, step, -⟩
  · rw [same]
    exact record
  · obtain ⟨now, written, ok, phase_⟩ := of_eq_some record
    exact (not_returned step now written ok phase_).elim

theorem Precedes.returned {db : LevelDB} {moves : List Move} {i j : Nat} {t : World}
    (first : Precedes db moves i j) (reached : run worldStep (World.start db) moves = some t) :
    ∃ r, t.calls[i]?.bind Record.of = some r := by
  obtain ⟨before, after, s, r, rfl, begun, returned, -⟩ := first
  rw [run_append, begun, Option.bind_some] at reached
  exact ⟨r, run_induction (I := fun u : World => u.calls[i]?.bind Record.of = some r)
    (fun _ _ _ h taken => returned_step taken h) reached returned⟩

/-- One more step puts a call behind others only if it has not started yet. -/
theorem Precedes.of_concat {db : LevelDB} {moves : List Move} {move : Move} {i j : Nat} {t : World}
    (first : Precedes db (moves ++ [move]) i j)
    (reached : run worldStep (World.start db) (moves ++ [move]) = some t)
    (started : j < t.calls.length) : Precedes db moves i j := by
  obtain ⟨before, after, s, r, split, begun, returned, later⟩ := first
  rcases List.eq_nil_or_concat after with rfl | ⟨after, last, rfl⟩
  · rw [List.append_nil] at split
    rw [← split, reached] at begun
    cases begun
    exact absurd started (Nat.not_lt_of_le later)
  · rw [List.concat_eq_append, ← List.append_assoc] at split
    obtain ⟨rfl, -⟩ := List.append_inj' split rfl
    exact ⟨before, after, s, r, rfl, begun, returned, later⟩

/-! ## What a `get` can do -/

/-- A step of a `get`. -/
inductive Got (store : Store) (key : Bytes) : Phase → Turn → Phase → Store → Prop
  | reads : Got store key .called .read (.read (store.raw key [])) store
  | waits {raw : Bytes} {now : UInt64} (past : isExpired raw now = true) :
      Got store key (.read raw) (.clock now) (.removing ⟨raw, now, past⟩) store
  | answers {raw : Bytes} {now : UInt64} (live : (readEntry raw).expired now = false) :
      Got store key (.read raw) (.clock now) (.returned now true ((readEntry raw).read now).1) store
  | removes {due : Due} {written : Bool} :
      Got store key (.removing due) (.write written) (.returned due.now written false)
        (if written then store.write (.del key) else store)
  /-- A step of `expire`. -/
  | computes {entry : Found} {now : UInt64} :
      Got store key (.found entry) (.clock now) (.computed entry now) store

theorem get_cases {store store' : Store} {key : Bytes} {phase phase' : Phase} {turn : Turn}
    (taken : (Request.get key).turn store phase turn = some (phase', store')) :
    Got store key phase turn phase' store' := by
  cases phase with
  | called =>
      cases turn with
      | read =>
          cases taken
          exact .reads
      | _ => cases taken
  | read raw =>
      cases turn with
      | clock now =>
          rw [Request.turn] at taken
          split at taken
          · cases taken
            exact .waits _
          · rename_i live
            cases taken
            rw [isExpired_eq, Bool.not_eq_true] at live
            exact .answers live
      | _ => cases taken
  | found entry =>
      cases turn with
      | clock now =>
          cases taken
          exact .computes
      | _ => cases taken
  | removing due =>
      cases turn with
      | write written =>
          cases taken
          exact .removes
      | _ => cases taken
  | computed entry now => cases turn <;> cases taken
  | appended seen => cases turn <;> cases seen <;> cases taken
  | returned now written ok => cases turn <;> cases taken

/-- A `get` where the store shows an entry whose deadline has not passed. -/
theorem perform_live {S : Store} {key raw : Bytes} {now : UInt64} (shows : S.raw key [] = raw)
    (live : (readEntry raw).expired now = false) :
    Record.perform ⟨.get key, now, true, ((readEntry raw).read now).1⟩ S =
      (((readEntry raw).read now).1, S) := by
  simp only [Record.perform, get_written_eq, shows, live, Bool.false_eq_true, false_and, if_false]

theorem erase_of_absent {db : LevelDB} {key : Bytes} (absent : db.lookup key = none) :
    db.erase key = db :=
  AList.ext (List.kerase_of_notMem_keys (AList.lookup_eq_none.mp absent))

theorem entry_of_raw {S : Store} {key raw : Bytes} (shows : S.raw key [] = raw) :
    ∀ entry ∈ S.db.lookup key, entry = raw := by
  intro entry found
  rw [← shows, Store.raw, found, Option.getD_some]

/-- The same where it has passed, or where another one has removed the entry. -/
theorem perform_due {S : Store} {key : Bytes} {due : Due}
    (shows : ∀ entry ∈ S.db.lookup key, entry = due.raw) (written : Bool) :
    Record.perform ⟨.get key, due.now, written, false⟩ S =
      (false, if written then { S with db := S.db.erase key } else S) := by
  cases found : S.db.lookup key with
  | none =>
      have empty : S.raw key [] = [] := by rw [Store.raw, found, Option.getD_none]
      have nothing : readEntry [] = .bare [] := rfl
      rw [erase_of_absent found, ite_self]
      simp only [Record.perform, get_written_eq, empty, nothing, Entry.read, Entry.expired,
        List.isEmpty_nil, Bool.not_true, Bool.false_eq_true, false_and, if_false]
  | some entry =>
      have raw : S.raw key [] = due.raw := by
        rw [Store.raw, found, Option.getD_some, shows entry found]
      have expired := due.past
      rw [isExpired_eq] at expired
      simp only [Record.perform, get_written_eq, raw, Entry.read_of_expired expired, expired,
        true_and]

/-- What a call that is still a reader knows is what it has read. -/
def World.Knows (s : World) (i : Nat) (key raw : Bytes) : Prop :=
  ∃ phase, s.calls[i]? = some (.get key, phase) ∧ phase ≠ .called ∧
    ∀ raw', phase.has = some raw' → raw' = raw

theorem World.Knows.step {s t : World} {move : Move} {i : Nat} {key raw : Bytes}
    (h : s.Knows i key raw) (taken : worldStep s move = some t) : t.Knows i key raw := by
  obtain ⟨phase, there, begun, same⟩ := h
  rcases calls_step taken there with still | ⟨turn, phase', store, -, step, there'⟩
  · exact ⟨phase, still, begun, same⟩
  · refine ⟨phase', there', ?_⟩
    cases get_cases step with
    | reads => exact (begun rfl).elim
    | waits past => exact ⟨Phase.noConfusion, fun raw' has => same raw' has⟩
    | answers live => exact ⟨Phase.noConfusion, nofun⟩
    | removes => exact ⟨Phase.noConfusion, nofun⟩
    | computes => exact ⟨Phase.noConfusion, nofun⟩

theorem knows_read {s t : World} {move : Move} {i : Nat} {key raw : Bytes}
    (taken : worldStep s move = some t) (read : readBy s move = some (i, key, raw)) :
    t.Knows i key raw := by
  unfold readBy at read
  split at read
  · split at read
    · rename_i phase there
      cases read
      rcases calls_step taken there with same | ⟨turn, phase', store, turn', step, there'⟩
      · obtain ⟨request, phase', ⟨phase'', store'⟩, found, step, rfl⟩ := worldStep_turn taken
        rw [there] at found
        cases found
        have inside := (List.getElem?_eq_some_iff.mp there).1
        rw [List.getElem?_set_self inside] at same
        cases same
        cases get_cases step
      · cases turn'
        cases get_cases step with
        | reads => exact ⟨_, there', Phase.noConfusion, fun raw' has => (Option.some.inj has).symm⟩
    · cases read
  · cases read

/-- What has been read is kept by the reader. -/
theorem knows_of_run {db : LevelDB} {moves : List Move} {s : World}
    (reached : run worldStep (World.start db) moves = some s) :
    ∀ i key raw, (i, key, raw) ∈ seen worldStep readBy (World.start db) moves →
      s.Knows i key raw := by
  refine history_induction (P := fun _ _ => True) (I := fun moves s => ∀ i key raw,
    (i, key, raw) ∈ seen worldStep readBy (World.start db) moves → s.Knows i key raw) nofun ?_
    reached (along_of_forall_mem (Q := fun _ => True) fun _ _ => trivial)
  intro moves move s t before _ knows taken i key raw member
  rw [seen_concat before] at member
  rcases List.mem_append.mp member with old | new
  · exact (knows i key raw old).step taken
  · exact knows_read taken (Option.mem_toList.mp new)

/-! ## The order along a run -/

/-- An order of what has taken effect, and of the reads that wait, behind some moves. -/
structure Linear (db : LevelDB) (moves : List Move) (s : World) (order : List Slot) : Prop where
  legal : ∃ T, Legal s.calls (seen worldStep readBy (World.start db) moves) ⟨db, []⟩ order T ∧
    T.db = s.store.db
  unique : (indices order).Nodup
  covers : ∀ i call, s.calls[i]? = some call → Effective call → i ∈ indices order
  cleaned : removals order = seen worldStep removed (World.start db) moves
  time : ∀ i j, Precedes db moves i j → j ∈ indices order → List.Sublist [i, j] (indices order)

theorem Linear.start (db : LevelDB) : Linear db [] (World.start db) [] where
  legal := ⟨_, .nil, rfl⟩
  unique := List.nodup_nil
  covers := nofun
  cleaned := rfl
  time := nofun

section Moves

variable {db : LevelDB} {moves : List Move} {move : Move} {act : Turn} {s t : World}
  {order order' : List Slot} {k : Nat} {next : Request × Phase} {T : Store}
  {reads : List (Nat × Bytes × Bytes)}

/-- A step behind which the calls in the order are the same. -/
theorem Linear.keep (h : Linear db moves s order)
    (before : run worldStep (World.start db) moves = some s) (taken : worldStep s move = some t)
    (legal : Legal t.calls (seen worldStep readBy (World.start db) moves) ⟨db, []⟩ order' T)
    (final : T.db = t.store.db) (silent : readBy s move = none)
    (same : indices order' = indices order)
    (cleaned : removals order' = removals order ++ (removed s move).toList)
    (covers : ∀ i call, t.calls[i]? = some call → Effective call → i ∈ indices order) :
    Linear db (moves ++ [move]) t order' where
  legal := by
    rw [seen_concat before, silent, Option.toList_none, List.append_nil]
    exact ⟨T, legal, final⟩
  unique := by
    rw [same]
    exact h.unique
  covers := by
    rw [same]
    exact covers
  cleaned := by rw [cleaned, h.cleaned, seen_concat before]
  time := by
    intro i j first member
    have started := legal.inside member
    rw [same] at member ⊢
    exact h.time i j (first.of_concat (run_concat_eq_some.mpr ⟨s, before, taken⟩) started) member

/-- The same for a step of a call. -/
theorem Linear.keepTurn (h : Linear db moves s order)
    (before : run worldStep (World.start db) moves = some s)
    (taken : worldStep s (.turn k act) = some t) (calls : t.calls = s.calls.set k next)
    (legal : Legal t.calls (seen worldStep readBy (World.start db) moves) ⟨db, []⟩ order T)
    (final : T.db = t.store.db) (silent : readBy s (.turn k act) = none)
    (kept : Effective next → k ∈ indices order) :
    Linear db (moves ++ [.turn k act]) t order := by
  refine h.keep before taken legal final silent rfl (List.append_nil _).symm ?_
  intro i call there effective
  rw [calls] at there
  by_cases same : i = k
  · subst same
    rw [List.getElem?_set_self'] at there
    obtain ⟨_, -, rfl⟩ := Option.map_eq_some_iff.mp there
    exact kept effective
  · rw [List.getElem?_set_ne (Ne.symm same)] at there
    exact h.covers i call there effective

/-- A step of a call that neither is in the order nor comes into it. -/
theorem Linear.goes (h : Linear db moves s order)
    (before : run worldStep (World.start db) moves = some s)
    (taken : worldStep s (.turn k act) = some t) (calls : t.calls = s.calls.set k next)
    {call : Request × Phase} (there : s.calls[k]? = some call) (idle : ¬ Effective call)
    (idle' : ¬ Effective next) (silent : readBy s (.turn k act) = none)
    (same : t.store.db = s.store.db) : Linear db (moves ++ [.turn k act]) t order := by
  obtain ⟨T, legal, final⟩ := h.legal
  refine h.keepTurn before taken calls (T := T) ?_ (final.trans same.symm) silent
    fun effective => (idle' effective).elim
  rw [calls]
  refine legal.congr (fun i member => List.getElem?_set_ne fun same => ?_) fun _ _ _ _ => id
  subst same
  obtain ⟨call', found, effective⟩ := legal.effective member
  rw [there] at found
  cases found
  exact idle effective

/-- A step behind which one more call is in the order. -/
theorem Linear.more (h : Linear db moves s order)
    (before : run worldStep (World.start db) moves = some s)
    (taken : worldStep s (.turn k act) = some t) (calls : t.calls = s.calls.set k next)
    (pending : s.calls[k]?.bind Record.of = none)
    (legal : Legal t.calls (seen worldStep readBy (World.start db) (moves ++ [.turn k act]))
      ⟨db, []⟩ (without order k ++ [.call k]) T) (final : T.db = t.store.db) :
    Linear db (moves ++ [.turn k act]) t (without order k ++ [.call k]) := by
  have all : indices (without order k ++ [.call k]) = (indices order).filter (· ≠ k) ++ [k] := by
    rw [indices_append, indices_without]
    rfl
  have ne_of_mem : ∀ {i}, i ∈ (indices order).filter (· ≠ k) → i ≠ k := by
    intro i member
    simpa using (List.mem_filter.mp member).2
  refine ⟨⟨T, legal, final⟩, ?_, fun i call there effective => ?_, ?_, fun i j first member => ?_⟩
  · rw [all]
    refine List.nodup_append.mpr ⟨h.unique.filter _, List.nodup_singleton k, ?_⟩
    intro i left j right same
    rw [List.mem_singleton.mp right] at same
    exact ne_of_mem left same
  · rw [all]
    by_cases same : i = k
    · rw [same]
      exact List.mem_append_right _ (List.mem_singleton_self k)
    · rw [calls, List.getElem?_set_ne (Ne.symm same)] at there
      exact List.mem_append_left _
        (List.mem_filter.mpr ⟨h.covers i call there effective, by simpa using same⟩)
  · have last : removals [Slot.call k] = [] := rfl
    rw [removals_append, removals_without, last, h.cleaned, seen_concat before]
    rfl
  · have old := first.of_concat (run_concat_eq_some.mpr ⟨s, before, taken⟩) (legal.inside member)
    obtain ⟨r, there⟩ := old.returned before
    have ne : i ≠ k := by
      intro same
      rw [same, pending] at there
      cases there
    rw [all] at member ⊢
    rcases List.mem_append.mp member with front | last
    · have sub := (h.time i j old (List.mem_filter.mp front).1).filter (· ≠ k)
      rw [List.filter_cons_of_pos (by simpa using ne),
        List.filter_cons_of_pos (by simpa using ne_of_mem front), List.filter_nil] at sub
      exact sub.trans (List.sublist_append_left _ _)
    · obtain ⟨call, found, record⟩ := Option.bind_eq_some_iff.mp there
      have front : i ∈ (indices order).filter (· ≠ k) :=
        List.mem_filter.mpr ⟨h.covers i call found (Or.inl ⟨r, record⟩), by simpa using ne⟩
      rw [List.mem_singleton.mp last]
      exact (List.singleton_sublist.mpr front).append (List.Sublist.refl [k])

/-- A call that returns with what it would return on the store as it is, comes last. -/
theorem Linear.returns (h : Linear db moves s order)
    (before : run worldStep (World.start db) moves = some s)
    (taken : worldStep s (.turn k act) = some t) {request : Request} {now : UInt64}
    {written ok : Bool} (calls : t.calls = s.calls.set k (request, .returned now written ok))
    (inside : k < s.calls.length) (pending : s.calls[k]?.bind Record.of = none)
    (silent : readBy s (.turn k act) = none)
    (sees : ∀ S : Store, S.db = s.store.db →
      (Slot.call k).Sees (seen worldStep readBy (World.start db) moves) S)
    (performs : ∀ S : Store, S.db = s.store.db →
      (Record.perform ⟨request, now, written, ok⟩ S).1 = ok ∧
      (Record.perform ⟨request, now, written, ok⟩ S).2.db = t.store.db) :
    Linear db (moves ++ [.turn k act]) t (without order k ++ [.call k]) := by
  obtain ⟨T, legal, final⟩ := h.legal
  obtain ⟨result, left⟩ := performs T final
  have there : (Slot.call k).record t.calls = some ⟨request, now, written, ok⟩ := by
    rw [Slot.record, calls, List.getElem?_set_self inside]
    rfl
  have rest := legal.leave pending (request, .returned now written ok) fun _ _ _ _ => id
  rw [← calls] at rest
  refine h.more before taken calls pending ?_ left
  rw [seen_concat before, silent, Option.toList_none, List.append_nil]
  exact rest.concat there result (sees T final)

/-- A step of a `get`. -/
theorem Linear.get (h : Linear db moves s order)
    (before : run worldStep (World.start db) moves = some s)
    (taken : worldStep s (.turn k act) = some t) {key : Bytes} {phase phase' : Phase}
    {store' : Store} (there : s.calls[k]? = some (.get key, phase))
    (got : Got s.store key phase act phase' store')
    (calls : t.calls = s.calls.set k (.get key, phase')) (store : t.store = store')
    (finds : FindsRead s (.turn k act)) :
    ∃ order', Linear db (moves ++ [.turn k act]) t order' := by
  have inside := (List.getElem?_eq_some_iff.mp there).1
  have here : (s.calls.set k (.get key, phase'))[k]? = some (.get key, phase') :=
    List.getElem?_set_self inside
  have waiting : ∀ {raw}, phase.has = some raw → k ∈ indices order := fun has =>
    h.covers k _ there (Or.inr ⟨key, _, rfl, has⟩)
  have knows := knows_of_run before k
  obtain ⟨T, legal, final⟩ := h.legal
  cases got with
  | reads =>
      have pending : s.calls[k]?.bind Record.of = none := by rw [there]; rfl
      have shows : T.raw key [] = s.store.raw key [] := by rw [Store.raw, final]; rfl
      have read : readBy s (.turn k .read) = some (k, key, s.store.raw key []) := by
        simp only [readBy, there]
      have all : seen worldStep readBy (World.start db) (moves ++ [.turn k .read]) =
          seen worldStep readBy (World.start db) moves ++ [(k, key, s.store.raw key [])] := by
        rw [seen_concat before, read]
        rfl
      -- The call reads once.
      have first : ∀ key' raw, (k, key', raw) ∉ seen worldStep readBy (World.start db) moves := by
        intro key' raw member
        obtain ⟨phase, there', begun, -⟩ := knows key' raw member
        rw [there] at there'
        cases there'
        exact begun rfl
      refine ⟨_, h.more before taken calls pending ?_ (final.trans (congrArg Store.db store.symm))⟩
      rw [calls, all]
      refine (legal.leave pending (.get key, .read (s.store.raw key [])) ?_).concat_waits here rfl
        shows ?_
      · intro i key' raw ne member
        rcases List.mem_append.mp member with old | new
        · exact old
        · cases List.mem_singleton.mp new
          exact (ne rfl).elim
      · intro key' raw member
        rcases List.mem_append.mp member with old | new
        · exact (first key' raw old).elim
        · cases List.mem_singleton.mp new
          exact entry_of_raw shows
  | @waits raw now past =>
      refine ⟨order, h.keepTurn before taken calls ?_ (final.trans (congrArg Store.db store.symm))
        rfl fun _ => waiting rfl⟩
      rw [calls]
      exact legal.replace h.unique there rfl fun shows sees next => .waits here rfl shows sees next
  | @answers raw now live =>
      refine ⟨order, h.keepTurn before taken calls ?_ (final.trans (congrArg Store.db store.symm))
        rfl fun _ => waiting rfl⟩
      rw [calls]
      refine legal.replace h.unique there rfl fun {S rest} shows sees next => ?_
      have performs := perform_live shows live
      refine .done (r := ⟨.get key, now, true, ((readEntry raw).read now).1⟩) ?_ ?_ sees ?_
      · rw [Slot.record, here]
        rfl
      · rw [performs]
      · rw [performs]
        exact next
  | computes =>
      have idle : ∀ {phase}, Record.of (.get key, phase) = none → phase.has = none →
          ¬ Effective (.get key, phase) := by
        intro phase running nothing effective
        rcases effective with ⟨r, record⟩ | ⟨-, raw, -, has⟩
        · rw [running] at record
          cases record
        · rw [nothing] at has
          cases has
      exact ⟨order, h.goes before taken calls there (idle rfl rfl) (idle rfl rfl)
        rfl (congrArg Store.db store)⟩
  | @removes due written =>
      cases written with
      | false =>
          refine ⟨order, h.keepTurn before taken calls ?_
            (final.trans (congrArg Store.db store.symm)) rfl fun _ => waiting rfl⟩
          rw [calls]
          refine legal.replace h.unique there rfl fun {S rest} shows sees next => ?_
          have performs := perform_due (entry_of_raw shows) false
          refine .done (r := ⟨.get key, due.now, false, false⟩) ?_ ?_ sees ?_
          · rw [Slot.record, here]
            rfl
          · rw [performs]
          · rw [performs]
            exact next
      | true =>
          have pending : s.calls[k]?.bind Record.of = none := by rw [there]; rfl
          have still : ∀ raw ∈ s.store.db.lookup key, raw = due.raw := finds _ there
          refine ⟨_, h.returns before taken calls inside pending rfl ?_ fun S same => ?_⟩
          · intro S same key' raw member
            obtain ⟨phase, there', -, known⟩ := knows key' raw member
            rw [there] at there'
            cases there'
            rw [same, ← known due.raw rfl]
            exact still
          · rw [← same] at still
            rw [perform_due still, store, if_pos rfl, if_pos rfl, Store.write, same]
            exact ⟨rfl, rfl⟩

/-- A step of a call. -/
theorem Linear.turn (h : Linear db moves s order)
    (before : run worldStep (World.start db) moves = some s)
    (finds : FindsRead s (.turn k act)) (taken : worldStep s (.turn k act) = some t) :
    ∃ order', Linear db (moves ++ [.turn k act]) t order' := by
  obtain ⟨request, phase, ⟨phase', store'⟩, there, step, same⟩ := worldStep_turn taken
  have calls : t.calls = s.calls.set k (request, phase') := by rw [same]
  have store : t.store = store' := by rw [same]
  have inside := (List.getElem?_eq_some_iff.mp there).1
  have running : Record.of (request, phase) = none := of_not_returned (not_returned step)
  have pending : s.calls[k]?.bind Record.of = none := by rw [there]; exact running
  by_cases get : ∃ key, request = .get key
  · obtain ⟨key, rfl⟩ := get
    exact h.get before taken there (get_cases step) calls store finds
  · have other : ∀ key, request ≠ .get key := fun key same => get ⟨key, same⟩
    have silent : readBy s (.turn k act) = none := by
      cases act with
      | read =>
          rw [readBy, there]
          cases request with
          | get key => exact (other key rfl).elim
          | _ => rfl
      | _ => rfl
    have sees : ∀ S : Store, S.db = s.store.db →
        (Slot.call k).Sees (seen worldStep readBy (World.start db) moves) S := by
      intro S _ key raw member
      obtain ⟨phase, there', -⟩ := knows_of_run before k key raw member
      rw [there] at there'
      cases there'
      exact (other key rfl).elim
    cases turn_cases step with
    | goes same goesOn =>
        have idle : ∀ {phase}, Record.of (request, phase) = none →
            ¬ Effective (request, phase) := by
          intro phase none effective
          rcases effective with ⟨r, record⟩ | ⟨key, raw, get, -⟩
          · rw [none] at record
            cases record
          · exact other key get
        refine ⟨order, h.goes before taken calls there (idle running)
          (idle (of_not_returned goesOn)) silent ?_⟩
        rw [store, same]
    | @absent key ts expire none =>
        subst expire
        refine ⟨_, h.returns before taken calls inside pending silent sees fun S same => ?_⟩
        rw [Store.raw, ← same] at none
        simp only [Record.perform, Store.expire, if_pos none, store]
        exact ⟨trivial, same⟩
    | answers get => exact (other _ get).elim
    | @writes seen cmd written appended command =>
        refine ⟨_, h.returns before taken calls inside pending silent sees fun S same => ?_⟩
        rw [store]
        refine perform_writes command same ?_
        intro success key ts entry now expire read
        subst success expire read appended
        exact finds _ there
    | removes get removing => exact (other _ get).elim

theorem Linear.step (h : Linear db moves s order)
    (before : run worldStep (World.start db) moves = some s) (finds : FindsRead s move)
    (taken : worldStep s move = some t) : ∃ order', Linear db (moves ++ [move]) t order' := by
  obtain ⟨T, legal, final⟩ := h.legal
  -- A step of the cleaner that does not remove.
  have rest : t.calls = s.calls → t.store.db = s.store.db → readBy s move = none →
      removed s move = none → ∃ order', Linear db (moves ++ [move]) t order' := by
    intro calls store silent none
    refine ⟨order, h.keep before taken (T := T) ?_ (final.trans store.symm) silent rfl ?_ ?_⟩
    · rw [calls]
      exact legal
    · rw [none]
      exact (List.append_nil _).symm
    · rw [calls]
      exact h.covers
  cases move with
  | call request =>
      have taken' := taken
      cases taken
      refine ⟨order, h.keep before taken' (T := T) ?_ final rfl rfl (List.append_nil _).symm ?_⟩
      · exact legal.congr (fun i member => List.getElem?_append_left (legal.inside member))
          fun _ _ _ _ => id
      · intro i call there effective
        rcases Nat.lt_or_ge i s.calls.length with old | new
        · rw [List.getElem?_append_left old] at there
          exact h.covers i call there effective
        · rw [List.getElem?_append_right new] at there
          have fresh := List.mem_singleton.mp (List.mem_of_getElem? there)
          subst fresh
          rcases effective with ⟨r, record⟩ | ⟨key, raw, -, has⟩
          · cases record
          · cases has
  | turn k act => exact h.turn before finds taken
  | snapshot =>
      obtain ⟨-, ⟨⟩⟩ := Option.ite_none_right_eq_some.mp taken
      exact rest rfl rfl rfl rfl
  | check key now =>
      have taken' := taken
      simp only [worldStep] at taken'
      split at taken'
      · obtain ⟨-, ⟨⟩⟩ := Option.ite_none_right_eq_some.mp taken'
        exact rest rfl rfl rfl rfl
      · cases taken'
  | clean written =>
      have taken' := taken
      simp only [worldStep] at taken'
      split at taken'
      · rename_i key due found
        cases taken'
        cases written with
        | false => exact rest rfl rfl rfl rfl
        | true =>
            have still : ∀ raw ∈ s.store.db.lookup key, raw = due.raw := finds (key, due) found
            rw [← final] at still
            have performs := perform_due still true
            have last : Legal s.calls (seen worldStep readBy (World.start db) moves) ⟨db, []⟩
                (order ++ [.cleaned key due])
                (Record.perform ⟨.get key, due.now, true, false⟩ T).2 :=
              legal.concat rfl (congrArg Prod.fst performs) trivial
            rw [performs] at last
            refine ⟨order ++ [.cleaned key due], h.keep before taken last
              (congrArg (AList.erase key) final) rfl ?_ ?_ h.covers⟩
            · rw [indices_append]
              exact List.append_nil _
            · rw [removals_append, removed, found]
              rfl
      · cases taken'

end Moves

/-! ## Linearizability -/

/-- A sequential order of the calls that have returned and of the removals by the cleaner: each
call once, the removals as the cleaner has made them. The calls have the results that they have in
this order, and a `get` finds the entry that it has read or none; the order ends with the store as
it is, and a call comes behind those that had returned when it started. -/
structure Linearization (db : LevelDB) (moves : List Move) (t : World) (order : List Slot) :
    Prop where
  unique : (indices order).Nodup
  returned : ∀ i, i ∈ indices order ↔ ∃ r, t.calls[i]?.bind Record.of = some r
  cleaned : removals order = seen worldStep removed (World.start db) moves
  results : (performAll (order.filterMap (Slot.record t.calls)) ⟨db, []⟩).1 =
    (order.filterMap (Slot.record t.calls)).map Record.ok
  store : (performAll (order.filterMap (Slot.record t.calls)) ⟨db, []⟩).2.db = t.store.db
  sees : ∀ front slot back, order = front ++ slot :: back →
    slot.Sees (seen worldStep readBy (World.start db) moves)
      (performAll (front.filterMap (Slot.record t.calls)) ⟨db, []⟩).2
  time : ∀ i j, Precedes db moves i j → j ∈ indices order → List.Sublist [i, j] (indices order)

/-- The reads that wait are left out. -/
theorem Linear.linearization {db : LevelDB} {moves : List Move} {t : World} {order : List Slot}
    (h : Linear db moves t order) (reached : run worldStep (World.start db) moves = some t) :
    Linearization db moves t (order.filter fun slot => (slot.record t.calls).isSome) := by
  have kept : indices (order.filter fun slot => (slot.record t.calls).isSome) =
      (indices order).filter fun i => (t.calls[i]?.bind Record.of).isSome :=
    indices_filter (fun _ => rfl) order
  have covers : ∀ i r, t.calls[i]?.bind Record.of = some r → i ∈ indices order := by
    intro i r there
    obtain ⟨call, found, record⟩ := Option.bind_eq_some_iff.mp there
    exact h.covers i call found (Or.inl ⟨r, record⟩)
  obtain ⟨T, legal, final⟩ := h.legal
  have legal := legal.filter (p := fun slot => (slot.record t.calls).isSome)
    fun slot r found => by rw [found]; rfl
  have recorded : ∀ slot ∈ order.filter fun slot => (slot.record t.calls).isSome,
      (slot.record t.calls).isSome := fun slot member => (List.mem_filter.mp member).2
  have sequential := legal.performAll_eq recorded
  refine ⟨?_, fun i => ?_, ?_, ?_, ?_, fun front slot back => legal.sees_at recorded,
    fun i j first member => ?_⟩
  · rw [kept]
    exact h.unique.filter _
  · rw [kept, List.mem_filter, Option.isSome_iff_exists]
    exact ⟨And.right, fun returned => ⟨returned.elim (covers i), returned⟩⟩
  · rw [removals_filter fun _ _ => rfl]
    exact h.cleaned
  · rw [sequential]
  · rw [sequential]
    exact final
  · obtain ⟨r, there⟩ := first.returned reached
    rw [kept] at member ⊢
    obtain ⟨inside, returned⟩ := List.mem_filter.mp member
    have sub := (h.time i j first inside).filter fun i => (t.calls[i]?.bind Record.of).isSome
    have both : [i, j].filter (fun i => (t.calls[i]?.bind Record.of).isSome) = [i, j] := by
      rw [List.filter_eq_self]
      intro k among
      rcases List.mem_pair.mp among with rfl | rfl
      · rw [there]
        rfl
      · exact returned
    rw [both] at sub
    exact sub

theorem linearization_of_run {db : LevelDB} {moves : List Move} {t : World}
    (reached : run worldStep (World.start db) moves = some t)
    (finds : Along worldStep FindsRead (World.start db) moves) :
    ∃ order, Linearization db moves t order := by
  have linear : ∃ order, Linear db moves t order :=
    history_induction (I := fun moves s => ∃ order, Linear db moves s order)
      ⟨[], Linear.start db⟩
      (fun _ _ _ _ before finds h taken => h.elim fun _ h => h.step before finds taken)
      reached finds
  exact linear.elim fun order h => ⟨_, h.linearization reached⟩

/-- **The store is linearizable** in the runs in which what is written was decided on from the
entry that the store holds. -/
theorem linearizable_in_time {db : LevelDB} {moves : List Move} {t : World}
    (reached : run worldStep (World.start db) moves = some t)
    (finds : Along worldStep FindsRead (World.start db) moves) :
    ∃ order, Linearization db moves t order :=
  linearization_of_run reached finds

/-- `k` with the value `v`. -/
def kept : LevelDB := AList.insert [107] (storedValue [118]) ∅

/-- A `get` that returns what it read before a `put`, an `expire` behind both and the cleaner. -/
def overlapping : List Move :=
  [.call (.get [107]), .turn 0 .read, .call (.put [107] [119]), .turn 1 (.append ⟨true, true⟩),
    .turn 1 (.write true), .turn 0 (.clock 5), .call (.expire [107] 10), .turn 2 .read,
    .turn 2 (.clock 5), .turn 2 (.append ⟨true, true⟩), .turn 2 (.write true), .snapshot,
    .check [107] 15, .clean true]

theorem linearizable_overlapping :
    ∃ order, Linearization kept overlapping
      ((run worldStep (World.start kept) overlapping).get (by decide)) order :=
  linearizable_in_time (Option.some_get _).symm (by decide)

end Blp.Core

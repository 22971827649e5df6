import Blp.Replica.Mirror
import Mathlib.Data.List.Forall2

/-!
# In which order commands reach the replica

`notifyListeners` runs the listener on the thread of each producer, and `listener_call_mu_` is never
taken: two runs may read the same bytes, or send the one in front of the other.

* `Ordered.step`: a run that sends only when the others are past its command, and begins behind all
  that was parsed, keeps the order.
* `sent_in_order`: then no command is sent twice or behind a later one.
-/

namespace Blp.Replica

open CString Framing Posix Runs Slots Blp.Aof Blp.Core

variable {opts : Options} {init : Bytes}

/-- The messages carry accepted commands, each at most once, in the order of their appends. -/
def Master.InOrder (init : Bytes) (s : Master) : Prop :=
  ∃ order : List Nat, order.Pairwise (· < ·) ∧ List.Forall₂ (s.Carries init) order s.sent

/-! ## Runs in turn -/

/-- The run has parsed nothing behind the place. -/
def Listener.Within (place : Nat) : Listener → Prop
  | .notified => True
  | .reading r => r.base ≤ place
  | .finished r => r.base ≤ place

instance (place : Nat) : DecidablePred (Listener.Within place)
  | .notified => inferInstanceAs (Decidable True)
  | .reading r => inferInstanceAs (Decidable (r.base ≤ place))
  | .finished r => inferInstanceAs (Decidable (r.base ≤ place))

/-- The run, if it is still reading, is past the place. -/
def Listener.Past (place : Nat) : Listener → Prop
  | .reading r => place < r.next
  | _ => True

instance (place : Nat) : DecidablePred (Listener.Past place)
  | .notified => inferInstanceAs (Decidable True)
  | .reading r => inferInstanceAs (Decidable (place < r.next))
  | .finished _ => inferInstanceAs (Decidable True)

/-- The place of the command that the run is to send. -/
def Listener.head : Listener → Option Nat
  | .reading r => r.parsed.head?.map Prod.fst
  | _ => none

/-- A run that loads the offset has all that was parsed behind it, a run that sends has all others
that are reading in front of it, and the writer does not go on behind a batch that was cut short. -/
def InTurn (s : Master) : MasterAct → Prop
  | .load _ => ∀ l ∈ s.listeners, l.Within s.sys.aof.writtenOffset
  | .send i =>
      ∀ place ∈ s.listeners[i]?.bind Listener.head, ∀ l ∈ s.listeners.eraseIdx i, l.Past place
  | .writer .drainTest => s.sys.dropped = [] ∨ s.sys.aof.queue.flatten = []
  | _ => True

instance (s : Master) (act : MasterAct) : Decidable (InTurn s act) := by
  unfold InTurn
  split <;> infer_instance

theorem InTurn.dry {s : Master} {act : MasterAct} (turn : InTurn s act) : Dry s act := by
  intro same
  subst same
  exact turn

/-- What was sent is in order, and the runs that are reading are past it. -/
structure Ordered (s : Master) : Prop where
  sorted : (s.sent.map Prod.fst).Pairwise (· < ·)
  past : ∀ message ∈ s.sent, ∀ l ∈ s.listeners, l.Past message.1

theorem Ordered.start (init : Bytes) : Ordered (Master.start init) := ⟨List.Pairwise.nil, nofun⟩

/-- A step of the run `i` that sends nothing. -/
theorem Ordered.set {s : Master} (h : Ordered s) {i : Nat} {new : Listener}
    (past : ∀ message ∈ s.sent, new.Past message.1) :
    Ordered { s with listeners := s.listeners.set i new } := by
  refine ⟨h.sorted, fun message member => ?_⟩
  exact forall_mem_set (h.past message member) (past message member)

theorem Ordered.step {s t : Master} {act : MasterAct} (h : Ordered s) (mirror : Mirror init s)
    (turn : InTurn s act) (taken : masterStep opts s act = some t) : Ordered t := by
  cases masterStep_cases taken with
  | accept =>
      refine ⟨h.sorted, fun message member l there => ?_⟩
      rcases List.mem_append.mp there with before | new
      · exact h.past message member l before
      · rw [List.mem_singleton.mp new]
        trivial
  | refuse => exact h
  | halt => exact ⟨h.sorted, h.past⟩
  | writer => exact ⟨h.sorted, h.past⟩
  | load =>
      refine h.set fun message member => ?_
      obtain ⟨l, there, r, reader, -, lt⟩ := mirror.parsed message member
      have within := turn l there
      cases l with
      | notified => cases reader
      | reading r' =>
          cases reader
          exact Nat.lt_of_lt_of_le lt within
      | finished r' =>
          cases reader
          exact Nat.lt_of_lt_of_le lt within
  | @read i n r found idle _ some_ within =>
      have member := List.mem_of_getElem? found
      obtain ⟨j, k, m, m', progress, -, next⟩ :=
        (mirror.follows _ member r rfl).read mirror.logged some_ within
      refine h.set fun message sent => ?_
      have past : message.1 < r.next := h.past message sent _ member
      rw [progress.place, progress.eq_of_idle idle, ← next.place] at past
      exact past
  | leave => exact h.set fun _ _ => True.intro
  | @send i r place parts parsed found held =>
      have member := List.mem_of_getElem? found
      obtain ⟨j, k, m, cmd, progress, lt, start, there, rfl⟩ :=
        (mirror.follows _ member r rfl).head held
      have head : place ∈ s.listeners[i]?.bind Listener.head := by
        rw [found, Option.bind_some, Listener.head, held]
        rfl
      -- the run itself goes on behind the place
      have self : frameStart init s.commands k < Reader.next { r with parsed } := by
        rw [(progress.send held).place]
        exact frameStart_lt (Nat.lt_succ_self k) (List.getElem?_eq_some_iff.mp there).1
      have before : ∀ message ∈ s.sent, message.1 < frameStart init s.commands k := by
        intro message sent
        rw [← progress.place]
        exact h.past message sent _ member
      rw [listenerCommand_parts]
      refine ⟨?_, fun message sent l there => ?_⟩
      · change ((s.sent ++ [(place, entity r.offset cmd)]).map Prod.fst).Pairwise (· < ·)
        rw [List.map_append, List.pairwise_append]
        refine ⟨h.sorted, List.pairwise_singleton _ _, fun p old q new => ?_⟩
        obtain ⟨message, sent, rfl⟩ := List.mem_map.mp old
        rw [List.mem_singleton.mp new]
        change message.1 < place
        rw [start]
        exact before message sent
      · rcases List.mem_append.mp sent with old | new
        · rcases List.mem_or_eq_of_mem_set there with other | rfl
          · exact h.past message old l other
          · exact Nat.lt_trans (before message old) self
        · rw [List.mem_singleton.mp new]
          rcases mem_set_cases there with rfl | other
          · change place < _
            rw [start]
            exact self
          · exact turn place head l other
  | @sendError i r place parts parsed found held =>
      have member := List.mem_of_getElem? found
      obtain ⟨j, k, m, -, progress, -⟩ := (mirror.follows _ member r rfl).head held
      refine h.set fun message sent => ?_
      have past : message.1 < r.next := h.past message sent _ member
      change message.1 < Reader.next _
      rw [(progress.send held).place]
      rw [progress.place] at past
      exact Nat.lt_of_lt_of_le past (frameStart_mono init s.commands (Nat.le_succ k))

/-! ## The order of the appends -/

theorem exists_order {s : Master} {sent : List (Nat × DataEntity)}
    (carried : ∀ message ∈ sent, ∃ i, s.Carries init i message) :
    ∃ order : List Nat, List.Forall₂ (s.Carries init) order sent := by
  induction sent with
  | nil => exact ⟨[], List.Forall₂.nil⟩
  | cons message sent ih =>
      obtain ⟨i, carries⟩ := carried message List.mem_cons_self
      obtain ⟨order, all⟩ := ih fun m member => carried m (List.mem_cons_of_mem _ member)
      exact ⟨i :: order, List.Forall₂.cons carries all⟩

theorem places_of_order {s : Master} {order : List Nat} {sent : List (Nat × DataEntity)}
    (all : List.Forall₂ (s.Carries init) order sent) :
    sent.map Prod.fst = order.map (frameStart init s.commands) := by
  induction all with
  | nil => rfl
  | cons carries _ ih =>
      obtain ⟨cmd, seq, -, place, -⟩ := carries
      rw [List.map_cons, List.map_cons, place, ih]

/-- Messages with increasing places carry commands in order. -/
theorem Ordered.inOrder {s : Master} (h : Ordered s) (mirror : Mirror init s) :
    s.InOrder init := by
  obtain ⟨order, all⟩ := exists_order mirror.carried
  have sorted := h.sorted
  rw [places_of_order all, List.pairwise_map] at sorted
  exact ⟨order, sorted.imp lt_of_frameStart_lt, all⟩

/-- **At most once and in order**, in the runs in which the listener runs take turns. -/
theorem sent_in_order {opts : Options} {init : Bytes} {acts : List MasterAct} {t : Master}
    (reached : run (masterStep opts) (Master.start init) acts = some t)
    (turns : Along (masterStep opts) InTurn (Master.start init) acts) : t.InOrder init := by
  have all := along_induction (I := fun s => Mirror init s ∧ Ordered s)
    (fun s a t turn h taken => ⟨h.1.step turn.dry taken, h.2.step h.1 turn taken⟩) reached turns
    ⟨Mirror.start init, Ordered.start init⟩
  exact all.2.inOrder all.1

/-- `SET a b` and `DEL a`, appended and written before any listener run loads the offset. -/
def bothWritten : List MasterAct :=
  [.appendAsync (.set [97] [98]), .appendAsync (.del [97]), .writer .lock, .writer .emptyTest,
    .writer (.writev 47)]

/-- The second run loads the offset behind the store. -/
def inTurn : List MasterAct :=
  bothWritten ++ [.load 0, .read 0 47, .send 0, .send 0, .leave 0, .writer .storeOffset, .load 1,
    .leave 1]

theorem sent_in_order_inTurn : ∃ t, run (masterStep Options.default) (Master.start []) inTurn =
    some t ∧ t.sent.length = 2 ∧ t.InOrder [] := by
  let t := (run (masterStep Options.default) (Master.start []) inTurn).get (by decide)
  have reached : run (masterStep Options.default) (Master.start []) inTurn = some t :=
    (Option.some_get _).symm
  exact ⟨t, reached, by decide, sent_in_order reached (by decide)⟩

/-- Both runs load the offset in front of the store, and read both commands. -/
def atOnce : List MasterAct :=
  bothWritten ++ [.load 0, .load 1, .read 0 47, .read 1 47, .send 0, .send 0, .send 1]

/-- `SET a b` is sent a second time, behind `DEL a`. -/
theorem sent_twice :
    (∀ a ∈ atOnce, a ≠ .writer .writevError ∧ ∀ i, a ≠ .sendError i) ∧
      ∃ t, run (masterStep Options.default) (Master.start []) atOnce = some t ∧
        t.sent.map Prod.snd = [⟨0, [97], [98], setWord⟩, ⟨0, [97], [], delWord⟩,
          ⟨0, [97], [98], setWord⟩] ∧ ¬ t.InOrder [] := by
  let t := (run (masterStep Options.default) (Master.start []) atOnce).get (by decide)
  have reached : run (masterStep Options.default) (Master.start []) atOnce = some t :=
    (Option.some_get _).symm
  refine ⟨by simp [atOnce, bothWritten], t, reached, by decide, ?_⟩
  intro inOrder
  rcases inOrder with ⟨order, sorted, all⟩
  have places : t.sent.map Prod.fst = [0, 27, 0] := by decide
  rw [places_of_order all] at places
  have increasing : (order.map (frameStart [] t.commands)).Pairwise (· ≤ ·) :=
    List.pairwise_map.mpr (sorted.imp fun lt => frameStart_mono [] t.commands (Nat.le_of_lt lt))
  rw [places] at increasing
  exact absurd increasing (by decide)

end Blp.Replica

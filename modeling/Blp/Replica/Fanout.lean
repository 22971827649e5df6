import Blp.Replica.Converge

/-!
# Several replicas

Every replica has a listener of its own. An accepted append copies the list of listeners and calls
one after the other on the producer's thread; more may be registered meanwhile.

Each listener is taken to send on the connection it was registered for. The lambda of `startServer`
captures `client_fd`, a variable of the accept loop, by reference, so this is an assumption: what a
listener sends on behind the round of the loop that registered it is not defined by the language.

* `replica_view`: what one of the replicas sees of a run is a run of the master that has it alone.
* `late_replica`: a replica gets nothing that was published before its listener was registered.
-/

namespace Blp.Replica

open CString Framing Posix Runs Slots Blp.Aof Blp.Core

variable {opts : Options} {init : Bytes}

/-- A call of `notifyListeners`: the length of its copy of `listeners_`, once that is made, the
calls that have ended, and the call of the next listener. -/
structure Notify where
  copied : Option Nat
  ended : List Listener
  current : Listener
  deriving DecidableEq

def Notify.start : Notify := ⟨none, [], .notified⟩

/-- The writer's system, the accepted commands, the number of registered listeners, the calls of
`notifyListeners` and what was sent, each message with the number of its listener. -/
structure Fanout where
  sys : System
  commands : List Command
  registered : Nat
  notifies : List Notify
  sent : List (Nat × Nat × DataEntity)
  deriving DecidableEq

def Fanout.start (init : Bytes) : Fanout := ⟨System.start init, [], 0, [], []⟩

inductive FanAct
  /-- `registerListener`. -/
  | register
  /-- Notification `i` copies the list. -/
  | copy (i : Nat)
  /-- What the master with one replica does; a step of listener run `i` is one of the call that
  notification `i` is in. -/
  | master (act : MasterAct)
  deriving DecidableEq

/-- A step of the listener that the notification is calling. -/
def Notify.call (next : Listener → Option Listener) (n : Notify) : Option Notify :=
  (next n.current).map fun l => { n with current := l }

/-- The call of the next listener of the copy, if there is one. -/
def Notify.load (writtenOffset : Nat) (n : Notify) : Option Notify :=
  if ∃ length ∈ n.copied, n.ended.length < length then n.call (Listener.load writtenOffset)
  else none

/-- The end of a call. -/
def Notify.leave (file : Bytes) (n : Notify) : Option Notify :=
  (Listener.leave file n.current).map fun l => ⟨n.copied, n.ended ++ [l], .notified⟩

def Notify.copy (registered : Nat) (n : Notify) : Option Notify :=
  if n.copied = none then some { n with copied := some registered } else none

/-- Replace notification `i` by the result of its step. -/
def Fanout.listen (s : Fanout) (i : Nat) (next : Notify → Option Notify) : Option Fanout :=
  (s.notifies[i]?.bind next).map fun n => { s with notifies := s.notifies.set i n }

/-- Behind an append that returned `accepted`. -/
def Fanout.notify (s : Fanout) (cmd : Command) (sys : System) (accepted : Bool) : Fanout :=
  if accepted then
    { s with sys, commands := s.commands ++ [cmd], notifies := s.notifies ++ [Notify.start] }
  else { s with sys }

/-- A call of `exec_fn` in notification `i`, with the messages that go out. -/
def Fanout.exec (s : Fanout) (i : Nat) (out : Bool) : Option Fanout :=
  s.notifies[i]?.bind fun n => (Listener.send n.current).map fun r =>
    { s with
      notifies := s.notifies.set i { n with current := r.2 }
      sent := if out then s.sent ++ r.1.map (n.ended.length, ·) else s.sent }

def fanStep (opts : Options) (s : Fanout) : FanAct → Option Fanout
  | .register => some { s with registered := s.registered + 1 }
  | .copy i => s.listen i (Notify.copy s.registered)
  | .master (.appendAsync cmd) =>
      let resp := serializeToRESP cmd.parts
      if resp.length ≤ stringMax then
        let r := s.sys.aof.appendRawAsync opts resp
        some (s.notify cmd (s.sys.record resp r) r.1)
      else none
  | .master (.appendBlocking cmd) =>
      let resp := serializeToRESP cmd.parts
      if resp.length ≤ stringMax then
        (s.sys.aof.appendRawBlocking opts resp).map fun r => s.notify cmd (s.sys.record resp r) r.1
      else none
  | .master .stop => (step opts s.sys .stop).map fun sys => { s with sys }
  | .master .join => (step opts s.sys .join).map fun sys => { s with sys }
  | .master (.writer act) =>
      if fits s.sys.aof.file act then
        (step opts s.sys (.writer act)).map fun sys => { s with sys }
      else none
  | .master (.load i) => s.listen i (Notify.load s.sys.aof.writtenOffset)
  | .master (.read i n) => s.listen i (Notify.call (Listener.read s.sys.aof.file n))
  | .master (.leave i) => s.listen i (Notify.leave s.sys.aof.file)
  | .master (.send i) => s.exec i true
  | .master (.sendError i) => s.exec i false

/-! ## What one replica sees -/

/-- The call of listener `r` in a notification. -/
def Notify.view (r : Nat) (n : Notify) : Listener :=
  if n.ended.length = r then n.current else n.ended.getD r .notified

/-- The master as replica `r` sees it. -/
def Fanout.view (r : Nat) (s : Fanout) : Master :=
  ⟨s.sys, s.commands, s.notifies.map (Notify.view r),
    (s.sent.filter fun m => m.1 = r).map Prod.snd⟩

/-- The listener run that takes the step, if one does. -/
def MasterAct.listenerRun : MasterAct → Option Nat
  | .load i => some i
  | .read i _ => some i
  | .leave i => some i
  | .send i => some i
  | .sendError i => some i
  | _ => none

/-- The step that replica `r` sees: none if it is one of another replica. -/
def Fanout.sees (r : Nat) (s : Fanout) : FanAct → Option MasterAct
  | .register => none
  | .copy _ => none
  | .master act =>
      match act.listenerRun with
      | none => some act
      | some i => if s.notifies[i]?.map (fun n => n.ended.length) = some r then some act else none

variable {s t : Fanout} {n : Notify} {r : Nat}

@[simp] theorem view_start (r : Nat) : Notify.view r Notify.start = .notified := ite_self _

theorem view_current (n : Notify) : n.view n.ended.length = n.current := if_pos rfl

/-- The calls of the other listeners stand still. -/
theorem view_call (other : n.ended.length ≠ r) (l : Listener) :
    Notify.view r { n with current := l } = n.view r := by
  rw [Notify.view, Notify.view, if_neg other, if_neg other]

theorem view_leave (n : Notify) (l : Listener) :
    Notify.view r ⟨n.copied, n.ended ++ [l], .notified⟩ =
      if n.ended.length = r then l else n.view r := by
  rw [Notify.view, Notify.view]
  dsimp only
  rw [List.length_append, List.length_singleton, List.getD_eq_getElem?_getD,
    List.getD_eq_getElem?_getD]
  by_cases here : n.ended.length = r
  · subst here
    simp
  · rw [if_neg here, if_neg here]
    rcases Nat.lt_or_gt_of_ne here with lt | gt
    · rw [List.getElem?_eq_none (Nat.le_of_lt lt), Option.getD_none]
      split
      · rfl
      · rename_i beyond
        rw [List.getElem?_eq_none (by rw [List.length_append, List.length_singleton]; omega),
          Option.getD_none]
    · rw [List.getElem?_append_left gt, if_neg (by omega)]

/-- The messages for replica `r`. -/
def sentTo (r : Nat) (sent : List (Nat × Nat × DataEntity)) : List (Nat × DataEntity) :=
  (sent.filter fun m => m.1 = r).map Prod.snd

theorem sentTo_append (r n : Nat) (sent : List (Nat × Nat × DataEntity))
    (more : List (Nat × DataEntity)) :
    sentTo r (sent ++ more.map (n, ·)) = sentTo r sent ++ if n = r then more else [] := by
  rw [sentTo, sentTo, List.filter_append, List.map_append]
  congr 1
  split <;> simp_all [List.filter_map, Function.comp_def]

/-- A step of notification `i` that replica `r` does not see. -/
theorem view_set {i : Nat} (found : s.notifies[i]? = some n) {n' : Notify}
    (same : n'.view r = n.view r) {sent : List (Nat × Nat × DataEntity)}
    (quiet : sentTo r sent = sentTo r s.sent) :
    Fanout.view r { s with notifies := s.notifies.set i n', sent } = s.view r := by
  have listeners : (s.notifies.set i n').map (Notify.view r) = s.notifies.map (Notify.view r) := by
    rw [split_set found, List.map_append, List.map_cons, same, ← List.map_cons, ← List.map_append,
      ← split_slot found]
  change Master.mk _ _ ((s.notifies.set i n').map (Notify.view r)) (sentTo r sent) = _
  rw [listeners, quiet]
  rfl

theorem fanListen_eq_some {i : Nat} {next : Notify → Option Notify}
    (taken : s.listen i next = some t) :
    ∃ n n', s.notifies[i]? = some n ∧ next n = some n' ∧
      t = { s with notifies := s.notifies.set i n' } := by
  obtain ⟨n', found, rfl⟩ := Option.map_eq_some_iff.mp taken
  obtain ⟨n, there, next⟩ := Option.bind_eq_some_iff.mp found
  exact ⟨n, n', there, next, rfl⟩

theorem fanExec_eq {i : Nat} {out : Bool} (taken : s.exec i out = some t) :
    ∃ n next, s.notifies[i]? = some n ∧ n.current.send = some next ∧
      t = { s with notifies := s.notifies.set i { n with current := next.2 },
                   sent := if out then s.sent ++ next.1.map (n.ended.length, ·) else s.sent } := by
  obtain ⟨n, there, sent⟩ := Option.bind_eq_some_iff.mp taken
  obtain ⟨next, sends, rfl⟩ := Option.map_eq_some_iff.mp sent
  exact ⟨n, next, there, sends, rfl⟩

/-- A step of a listener run is one of the replica whose listener is called. -/
theorem view_listen {i : Nat} {act : MasterAct} (own : act.listenerRun = some i)
    {next : Notify → Option Notify} {next' : Listener → Option Listener}
    (step : masterStep opts (s.view r) act = (s.view r).listen i next')
    (here : ∀ n n', next n = some n' → next' n.current = some (n'.view n.ended.length))
    (other : ∀ n n', next n = some n' → n.ended.length ≠ r → n'.view r = n.view r)
    (taken : s.listen i next = some t) :
    run (masterStep opts) (s.view r) (s.sees r (.master act)).toList = some (t.view r) := by
  obtain ⟨n, n', found, moved, rfl⟩ := fanListen_eq_some taken
  rw [Fanout.sees, own]
  dsimp only
  rw [found, Option.map_some]
  by_cases mine : n.ended.length = r
  · subst mine
    have there : (s.view n.ended.length).listeners[i]? = some n.current := by
      rw [← view_current n]
      exact (List.getElem?_map ..).trans (by rw [found]; rfl)
    rw [if_pos rfl, Option.toList_some, run_singleton, step, Master.listen, there,
      Option.bind_some, here n n' moved]
    exact congrArg some (by rw [Fanout.view, Fanout.view, List.map_set])
  · rw [if_neg (fun same => mine (Option.some.inj same)), Option.toList_none, run_nil]
    exact congrArg some (view_set found (other n n' moved mine) rfl).symm

theorem view_exec {i : Nat} {act : MasterAct} (own : act.listenerRun = some i) {out : Bool}
    (step : ∀ m : Master, masterStep opts m act = (m.listeners[i]?.bind Listener.send).map fun e =>
      { m with listeners := m.listeners.set i e.2,
               sent := if out then m.sent ++ e.1 else m.sent })
    (taken : s.exec i out = some t) :
    run (masterStep opts) (s.view r) (s.sees r (.master act)).toList = some (t.view r) := by
  obtain ⟨n, next, found, sends, rfl⟩ := fanExec_eq taken
  rw [Fanout.sees, own]
  dsimp only
  rw [found, Option.map_some]
  by_cases mine : n.ended.length = r
  · subst mine
    have there : (s.view n.ended.length).listeners[i]? = some n.current := by
      rw [← view_current n]
      exact (List.getElem?_map ..).trans (by rw [found]; rfl)
    rw [if_pos rfl, Option.toList_some, run_singleton, step, there, Option.bind_some, sends]
    refine congrArg some ?_
    have run : Notify.view n.ended.length { n with current := next.2 } = next.2 :=
      view_current { n with current := next.2 }
    have messages : sentTo n.ended.length
        (if out then s.sent ++ next.1.map (n.ended.length, ·) else s.sent) =
          if out then sentTo n.ended.length s.sent ++ next.1 else sentTo n.ended.length s.sent := by
      cases out with
      | false => rfl
      | true => exact (sentTo_append ..).trans (by rw [if_pos rfl]; rfl)
    change Master.mk _ _ _ _ = Master.mk _ _ (List.map _ _) (sentTo _ _)
    rw [List.map_set, run, messages]
    rfl
  · rw [if_neg (fun same => mine (Option.some.inj same)), Option.toList_none, run_nil]
    refine congrArg some (view_set found (view_call mine next.2) ?_).symm
    cases out with
    | false => rfl
    | true => exact (sentTo_append ..).trans (by rw [if_neg mine, List.append_nil])

/-- What an append does to what the replica sees. -/
theorem view_notify (cmd : Command) (sys : System) (accepted : Bool) :
    (s.view r).notify cmd sys accepted = (s.notify cmd sys accepted).view r := by
  cases accepted with
  | false => rfl
  | true =>
      rw [Master.notify, Fanout.notify, if_pos rfl, if_pos rfl, Fanout.view, Fanout.view,
        List.map_append, List.map_singleton, view_start]

/-- **Every step is one of the replica, or none.** -/
theorem view_step {act : FanAct} (taken : fanStep opts s act = some t) :
    run (masterStep opts) (s.view r) (s.sees r act).toList = some (t.view r) := by
  cases act with
  | register =>
      cases taken
      rfl
  | copy i =>
      obtain ⟨n, n', found, moved, rfl⟩ := fanListen_eq_some taken
      obtain ⟨-, ⟨⟩⟩ := Option.ite_none_right_eq_some.mp moved
      refine congrArg some (Eq.symm (view_set found ?_ rfl))
      rfl
  | master act =>
      cases act with
      | appendAsync cmd =>
          obtain ⟨size, ⟨⟩⟩ := Option.ite_none_right_eq_some.mp taken
          rw [← view_notify]
          exact (run_singleton _ _).trans (if_pos size)
      | appendBlocking cmd =>
          obtain ⟨size, woken⟩ := Option.ite_none_right_eq_some.mp taken
          obtain ⟨e, appended, rfl⟩ := Option.map_eq_some_iff.mp woken
          rw [← view_notify]
          refine (run_singleton _ _).trans ((if_pos size).trans ?_)
          change (s.sys.aof.appendRawBlocking opts _).map _ = _
          rw [appended]
          rfl
      | stop =>
          obtain ⟨sys, done, rfl⟩ := Option.map_eq_some_iff.mp taken
          refine (run_singleton _ _).trans ?_
          change (step opts s.sys .stop).map _ = _
          rw [done]
          rfl
      | join =>
          obtain ⟨sys, done, rfl⟩ := Option.map_eq_some_iff.mp taken
          refine (run_singleton _ _).trans ?_
          change (step opts s.sys .join).map _ = _
          rw [done]
          rfl
      | writer act =>
          obtain ⟨fit, done⟩ := Option.ite_none_right_eq_some.mp taken
          obtain ⟨sys, moved, rfl⟩ := Option.map_eq_some_iff.mp done
          refine (run_singleton _ _).trans ((if_pos fit).trans ?_)
          change (step opts s.sys (.writer act)).map _ = _
          rw [moved]
          rfl
      | load i =>
          refine view_listen rfl rfl (fun n n' moved => ?_) (fun n n' moved other => ?_)
            taken
          · obtain ⟨-, called⟩ := Option.ite_none_right_eq_some.mp moved
            obtain ⟨l, loaded, rfl⟩ := Option.map_eq_some_iff.mp called
            exact loaded.trans (congrArg some (view_current { n with current := l }).symm)
          · obtain ⟨-, called⟩ := Option.ite_none_right_eq_some.mp moved
            obtain ⟨l, -, rfl⟩ := Option.map_eq_some_iff.mp called
            exact view_call other l
      | read i k =>
          refine view_listen rfl rfl (fun n n' moved => ?_) (fun n n' moved other => ?_)
            taken
          · obtain ⟨l, read, rfl⟩ := Option.map_eq_some_iff.mp moved
            exact read.trans (congrArg some (view_current { n with current := l }).symm)
          · obtain ⟨l, -, rfl⟩ := Option.map_eq_some_iff.mp moved
            exact view_call other l
      | leave i =>
          refine view_listen rfl rfl (fun n n' moved => ?_) (fun n n' moved other => ?_)
            taken
          · obtain ⟨l, left, rfl⟩ := Option.map_eq_some_iff.mp moved
            rw [view_leave, if_pos rfl]
            exact left
          · obtain ⟨l, -, rfl⟩ := Option.map_eq_some_iff.mp moved
            rw [view_leave, if_neg other]
      | send i => exact view_exec rfl (fun _ => rfl) taken
      | sendError i => exact view_exec rfl (fun _ => rfl) taken

theorem writtenOffset_inside {s t : System} {a : Aof.Act}
    (inside : s.aof.writtenOffset ≤ s.aof.file.length) (taken : step opts s a = some t) :
    t.aof.writtenOffset ≤ t.aof.file.length := by
  have grown := (file_step taken).length_le
  cases step_cases taken with
  | writer done =>
      cases done with
      | storeWritten => exact Nat.le_refl _
      | storeBroken => exact Nat.le_refl _
      | _ => exact Nat.le_trans inside grown
  | _ => exact Nat.le_trans inside grown

theorem inside_masterStep {s t : Master} {act : MasterAct}
    (inside : s.sys.aof.writtenOffset ≤ s.sys.aof.file.length)
    (taken : masterStep opts s act = some t) :
    t.sys.aof.writtenOffset ≤ t.sys.aof.file.length := by
  rcases sys_step (masterStep_cases taken) with same | ⟨a, moved, -⟩
  · rw [same]
    exact inside
  · exact writtenOffset_inside inside moved

/-- Nothing in front of the place is in the buffer of the run or among its parsed commands. -/
structure Reader.From (w : Nat) (r : Reader) : Prop where
  base : w + r.streamBuf.length ≤ r.pos
  parsed : ∀ frame ∈ r.parsed, w ≤ frame.1

/-- The offset has come to the place, and all runs and messages are behind it. -/
structure Master.From (w : Nat) (s : Master) : Prop where
  published : w ≤ s.sys.aof.writtenOffset
  inside : s.sys.aof.writtenOffset ≤ s.sys.aof.file.length
  readers : ∀ l ∈ s.listeners, ∀ r, l.reader = some r → r.From w
  sent : ∀ message ∈ s.sent, w ≤ message.1

theorem le_of_located {base : Nat} {frames : List (List Bytes × Nat)} :
    ∀ frame ∈ located base frames, base ≤ frame.1 := by
  induction frames generalizing base with
  | nil => exact nofun
  | cons frame frames ih =>
      intro other member
      rcases List.mem_cons.mp member with rfl | later
      · exact Nat.le_refl _
      · exact Nat.le_trans (Nat.le_add_right _ _) (ih other later)

theorem Reader.From.read {w : Nat} {r : Reader} (h : r.From w) (file : Bytes) {n : Nat}
    (within : r.pos + n ≤ file.length) : (r.read file n).From w := by
  have base := h.base
  refine ⟨?_, fun frame member => ?_⟩
  · have size : (r.filled file n).length = r.streamBuf.length + n := by
      rw [Reader.filled, List.length_append, List.length_take, List.length_drop]
      omega
    change w + ((r.filled file n).drop _).length ≤ r.pos + n
    rw [List.length_drop, size]
    omega
  · have behind := le_of_located frame member
    rw [Reader.base] at behind
    omega

theorem Master.From.set {w : Nat} {s : Master} (h : s.From w) {i : Nat} {l : Listener}
    (new : ∀ r, l.reader = some r → r.From w) :
    ∀ l' ∈ s.listeners.set i l, ∀ r, l'.reader = some r → r.From w := forall_mem_set h.readers new

theorem Master.From.step {w : Nat} {s t : Master} {act : MasterAct} (h : s.From w)
    (taken : masterStep opts s act = some t) : t.From w := by
  have published : w ≤ t.sys.aof.writtenOffset := by
    rcases sys_step (masterStep_cases taken) with same | ⟨a, moved, -⟩
    · rw [same]
      exact h.published
    · exact Nat.le_trans h.published (writtenOffset_step h.inside moved)
  have inside := inside_masterStep h.inside taken
  have same : ∀ {i : Nat} {r : Reader}, s.listeners[i]? = some (.reading r) → r.From w :=
    fun found => h.readers _ (List.mem_of_getElem? found) _ rfl
  cases masterStep_cases taken with
  | accept =>
      refine ⟨published, inside, fun l member => ?_, h.sent⟩
      rcases List.mem_append.mp member with old | new
      · exact h.readers l old
      · rw [List.mem_singleton.mp new]
        exact nofun
  | refuse => exact h
  | halt => exact ⟨published, inside, h.readers, h.sent⟩
  | writer => exact ⟨published, inside, h.readers, h.sent⟩
  | load =>
      refine ⟨published, inside, h.set fun r reader => ?_, h.sent⟩
      cases reader
      exact ⟨h.published, nofun⟩
  | read found _ _ _ within =>
      refine ⟨published, inside, h.set fun r reader => ?_, h.sent⟩
      cases reader
      exact (same found).read _ within
  | leave found =>
      refine ⟨published, inside, h.set fun r reader => ?_, h.sent⟩
      cases reader
      exact same found
  | @send i r place parts parsed found held =>
      have before := same found
      refine ⟨published, inside, h.set fun r reader => ?_, fun message member => ?_⟩
      · cases reader
        exact ⟨before.base, fun frame later =>
          before.parsed frame (by rw [held]; exact List.mem_cons_of_mem _ later)⟩
      · rcases List.mem_append.mp member with old | new
        · exact h.sent message old
        · obtain ⟨e, -, rfl⟩ := Option.map_eq_some_iff.mp (Option.mem_toList.mp new)
          exact before.parsed (place, parts) (by rw [held]; exact List.mem_cons_self)
  | @sendError i r place parts parsed found held =>
      refine ⟨published, inside, h.set fun r reader => ?_, h.sent⟩
      cases reader
      exact ⟨(same found).base, fun frame later =>
        (same found).parsed frame (by rw [held]; exact List.mem_cons_of_mem _ later)⟩

/-- A notification calls listeners that are registered. -/
structure Notify.Within (registered : Nat) (n : Notify) : Prop where
  copied : ∀ length ∈ n.copied, length ≤ registered
  ended : n.ended.length ≤ registered
  current : n.current ≠ .notified → n.ended.length < registered

structure Fanout.Within (s : Fanout) : Prop where
  notifies : ∀ n ∈ s.notifies, n.Within s.registered
  sent : ∀ m ∈ s.sent, m.1 < s.registered

theorem Fanout.Within.start (init : Bytes) : (Fanout.start init).Within := ⟨nofun, nofun⟩

theorem Notify.Within.call {registered : Nat} {n n' : Notify} (h : n.Within registered)
    {next : Listener → Option Listener} (moved : n.call next = some n')
    (other : next .notified = none) : n'.Within registered := by
  obtain ⟨l, called, rfl⟩ := Option.map_eq_some_iff.mp moved
  refine ⟨h.copied, h.ended, fun _ => h.current fun same => ?_⟩
  rw [same, other] at called
  cases called

theorem Fanout.Within.set {s : Fanout} (h : s.Within) {i : Nat} {n : Notify}
    (new : n.Within s.registered) : ∀ n' ∈ s.notifies.set i n, n'.Within s.registered :=
  forall_mem_set h.notifies new

theorem Fanout.Within.append {s : Fanout} (h : s.Within) (cmd : Command) (sys : System)
    (accepted : Bool) : (s.notify cmd sys accepted).Within := by
  cases accepted with
  | false => exact ⟨h.notifies, h.sent⟩
  | true =>
      refine ⟨fun n member => ?_, h.sent⟩
      rcases List.mem_append.mp member with old | new
      · exact h.notifies n old
      · rw [List.mem_singleton.mp new]
        exact ⟨nofun, Nat.zero_le _, fun other => (other rfl).elim⟩

theorem Fanout.Within.exec {s t : Fanout} (h : s.Within) {i : Nat} {out : Bool}
    (taken : s.exec i out = some t) : t.Within := by
  obtain ⟨n, next, found, sends, rfl⟩ := fanExec_eq taken
  have within := h.notifies n (List.mem_of_getElem? found)
  have here : n.ended.length < s.registered := by
    refine within.current fun same => ?_
    rw [same] at sends
    cases sends
  refine ⟨h.set ⟨within.copied, within.ended, fun _ => here⟩, ?_⟩
  cases out with
  | false => exact h.sent
  | true =>
      intro m member
      rcases List.mem_append.mp member with old | new
      · exact h.sent m old
      · obtain ⟨message, -, rfl⟩ := List.mem_map.mp new
        exact here

theorem Fanout.Within.step {s t : Fanout} {act : FanAct} (h : s.Within)
    (taken : fanStep opts s act = some t) : t.Within := by
  cases act with
  | register =>
      cases taken
      refine ⟨fun n member => ?_, fun m member => Nat.lt_succ_of_lt (h.sent m member)⟩
      have within := h.notifies n member
      exact ⟨fun length made => Nat.le_succ_of_le (within.copied length made),
        Nat.le_succ_of_le within.ended, fun other => Nat.lt_succ_of_lt (within.current other)⟩
  | copy i =>
      obtain ⟨n, n', found, moved, rfl⟩ := fanListen_eq_some taken
      obtain ⟨-, ⟨⟩⟩ := Option.ite_none_right_eq_some.mp moved
      have within := h.notifies n (List.mem_of_getElem? found)
      refine ⟨h.set ⟨fun length made => ?_, within.ended, within.current⟩, h.sent⟩
      cases made
      exact Nat.le_refl _
  | master act =>
      cases act with
      | appendAsync cmd =>
          obtain ⟨-, ⟨⟩⟩ := Option.ite_none_right_eq_some.mp taken
          exact h.append ..
      | appendBlocking cmd =>
          obtain ⟨-, woken⟩ := Option.ite_none_right_eq_some.mp taken
          obtain ⟨e, -, rfl⟩ := Option.map_eq_some_iff.mp woken
          exact h.append ..
      | stop =>
          obtain ⟨sys, -, rfl⟩ := Option.map_eq_some_iff.mp taken
          exact ⟨h.notifies, h.sent⟩
      | join =>
          obtain ⟨sys, -, rfl⟩ := Option.map_eq_some_iff.mp taken
          exact ⟨h.notifies, h.sent⟩
      | writer act =>
          obtain ⟨-, done⟩ := Option.ite_none_right_eq_some.mp taken
          obtain ⟨sys, -, rfl⟩ := Option.map_eq_some_iff.mp done
          exact ⟨h.notifies, h.sent⟩
      | load i =>
          obtain ⟨n, n', found, moved, rfl⟩ := fanListen_eq_some taken
          obtain ⟨⟨length, made, more⟩, called⟩ := Option.ite_none_right_eq_some.mp moved
          obtain ⟨l, -, rfl⟩ := Option.map_eq_some_iff.mp called
          have within := h.notifies n (List.mem_of_getElem? found)
          exact ⟨h.set ⟨within.copied, within.ended,
            fun _ => Nat.lt_of_lt_of_le more (within.copied length made)⟩, h.sent⟩
      | read i k =>
          obtain ⟨n, n', found, moved, rfl⟩ := fanListen_eq_some taken
          exact ⟨h.set ((h.notifies n (List.mem_of_getElem? found)).call moved rfl), h.sent⟩
      | leave i =>
          obtain ⟨n, n', found, moved, rfl⟩ := fanListen_eq_some taken
          obtain ⟨l, left, rfl⟩ := Option.map_eq_some_iff.mp moved
          have within := h.notifies n (List.mem_of_getElem? found)
          have here : n.ended.length < s.registered := by
            refine within.current fun same => ?_
            rw [same] at left
            cases left
          refine ⟨h.set ⟨within.copied, ?_, fun other => (other rfl).elim⟩, h.sent⟩
          rw [List.length_append, List.length_singleton]
          exact here
      | send i => exact h.exec taken
      | sendError i => exact h.exec taken

end Blp.Replica

import Blp.Lib.Slots
import Blp.Replica.Progress

/-!
# The master with its listener runs

* `Logged`: the file and the offset of the writer's system in terms of the accepted commands.
* `Mirror`: every listener run is at some frames of the file (`Progress`) or where the file has
  ended, and every message carries an accepted command.
* `Mirror.step`: no step upsets this unless the writer goes on behind a torn frame.
-/

namespace Blp.Replica

open CString Framing Posix Runs Slots Blp.Aof Blp.Core

variable {opts : Options} {init : Bytes}

/-! ## The log -/

/-- The writer's system in terms of the accepted commands. -/
structure Logged (init : Bytes) (s : Master) : Prop where
  noHole : NoHole init s.sys
  published : Published init s.sys
  accepted : s.sys.accepted = frames s.commands
  each : ∀ cmd ∈ s.commands, (serializeToRESP cmd.parts).length ≤ stringMax
  short : s.sys.aof.file.length < init.length + offMax

theorem Logged.start (init : Bytes) : Logged init (Master.start init) where
  noHole := NoHole.start init
  published := Published.start init
  accepted := rfl
  each := nofun
  short := Nat.lt_add_of_pos_right (by decide)

theorem Logged.written {s : Master} (h : Logged init s) :
    s.sys.aof.file <+: init ++ (frames s.commands).flatten := by
  rw [← h.accepted]
  exact h.noHole.sound

theorem Logged.parsable {s : Master} (h : Logged init s) :
    Parsable (s.commands.map Command.parts) where
  count := count_parts
  each := by
    intro c member
    obtain ⟨cmd, there, rfl⟩ := List.mem_map.mp member
    exact Nat.lt_of_le_of_lt (h.each cmd there) (by decide)

/-- The published offset is the end of a command, unless the file has ended behind a torn one. -/
theorem Logged.ended {s : Master} (h : Logged init s) :
    (∃ j ≤ s.commands.length, s.sys.aof.writtenOffset = frameStart init s.commands j) ∨
      Cut s.sys ∧ s.sys.aof.writtenOffset = s.sys.aof.file.length := by
  refine h.published.ended.imp ?_ id
  intro boundary
  rcases boundary with ⟨j, within, ended⟩
  rw [h.accepted] at within ended
  exact ⟨j, by rw [frames, List.length_map] at within; exact within, ended⟩

/-- The writer does not go on behind a batch that was cut short (`DrainsDry`). -/
def Dry (s : Master) (act : MasterAct) : Prop :=
  act = .writer .drainTest → s.sys.dropped = [] ∨ s.sys.aof.queue.flatten = []

/-- A step of the master is one of the writer's system, or leaves it alone. -/
theorem sys_step {s t : Master} {act : MasterAct} (done : MasterStep opts s act t) :
    t.sys = s.sys ∨
      ∃ a, step opts s.sys a = some t.sys ∧ ∀ w, a = .writer w → act = .writer w := by
  cases done with
  | accept call _ taken =>
      refine Or.inr ⟨_, taken, fun w same => ?_⟩
      rcases call with rfl | rfl <;> cases same
  | halt call taken =>
      refine Or.inr ⟨_, taken, fun w same => ?_⟩
      rcases call with rfl | rfl <;> cases same
  | writer _ taken =>
      refine Or.inr ⟨_, taken, fun w same => ?_⟩
      cases same
      rfl
  | _ => exact Or.inl rfl

theorem file_halt {s t : System} {a : Aof.Act} (call : a = .stop ∨ a = .join)
    (taken : step opts s a = some t) : t.accepted = s.accepted ∧ t.aof.file = s.aof.file ∧
      t.aof.writtenOffset = s.aof.writtenOffset := by
  cases step_cases taken with
  | accept other => rcases call with rfl | rfl <;> rcases other with other | other <;> cases other
  | writer => rcases call with call | call <;> cases call
  | _ => exact ⟨rfl, rfl, rfl⟩

/-- A `writev` that succeeds stays below the limit. -/
theorem short_writer {s t : System} {act : WriterAct} (fit : fits s.aof.file act = true)
    (short : s.aof.file.length < init.length + offMax)
    (taken : step opts s (.writer act) = some t) :
    t.accepted = s.accepted ∧ t.aof.file.length < init.length + offMax := by
  obtain ⟨aof, done, rfl⟩ := step_writer taken
  refine ⟨rfl, ?_⟩
  cases done with
  | @writev iovs n place some_ asked =>
      have limit : s.aof.file.length + n < offMax := of_decide_eq_true fit
      change (s.aof.file ++ _).length < _
      rw [List.length_append, List.length_take]
      omega
  | _ => exact short

theorem Logged.step {s t : Master} {act : MasterAct} (h : Logged init s) (dry : Dry s act)
    (done : MasterStep opts s act t) : Logged init t := by
  have sys : NoHole init t.sys ∧ Published init t.sys := by
    rcases sys_step done with same | ⟨a, taken, same⟩
    · rw [same]
      exact ⟨h.noHole, h.published⟩
    · have drains : DrainsDry s.sys a := fun drain => dry (same _ drain)
      exact ⟨h.noHole.step drains taken, h.published.step h.noHole taken⟩
  cases done with
  | @accept _ a cmd next call size taken recorded still =>
      refine ⟨sys.1, sys.2, ?_, ?_, ?_⟩
      · change next.accepted = frames (s.commands ++ [cmd])
        rw [recorded, h.accepted, frames, frames, List.map_append]
        rfl
      · intro c member
        rcases List.mem_append.mp member with old | new
        · exact h.each c old
        · rw [List.mem_singleton.mp new]
          exact size
      · change next.aof.file.length < _
        rw [still.1]
        exact h.short
  | @halt _ a next call taken =>
      rcases file_halt call taken with ⟨accepted, file, -⟩
      refine ⟨sys.1, sys.2, accepted.trans h.accepted, h.each, ?_⟩
      change next.aof.file.length < _
      rw [file]
      exact h.short
  | writer fit taken =>
      rcases short_writer fit h.short taken with ⟨accepted, short⟩
      exact ⟨sys.1, sys.2, accepted.trans h.accepted, h.each, short⟩
  | _ => exact ⟨sys.1, sys.2, h.accepted, h.each, h.short⟩

/-! ## What only grows -/

/-- What a later state has more of. -/
structure Grows (s t : Master) : Prop where
  commands : s.commands <+: t.commands
  file : s.sys.aof.file.length ≤ t.sys.aof.file.length
  offset : s.sys.aof.writtenOffset ≤ t.sys.aof.writtenOffset
  cut : Cut s.sys → Cut t.sys ∧ t.sys.aof.file = s.sys.aof.file
  sent : s.sent <+: t.sent

theorem grows_step {s t : Master} {act : MasterAct} (h : Logged init s)
    (done : MasterStep opts s act t) : Grows s t := by
  have sys : s.sys.aof.file.length ≤ t.sys.aof.file.length ∧
      s.sys.aof.writtenOffset ≤ t.sys.aof.writtenOffset ∧
      (Cut s.sys → Cut t.sys ∧ t.sys.aof.file = s.sys.aof.file) := by
    rcases sys_step done with same | ⟨a, taken, -⟩
    · rw [same]
      exact ⟨Nat.le_refl _, Nat.le_refl _, fun cut => ⟨cut, rfl⟩⟩
    · exact ⟨(file_step taken).length_le, writtenOffset_step h.published.inside taken,
        fun cut => cut.step h.noHole taken⟩
  rcases sys with ⟨file, offset, cut⟩
  cases done with
  | accept => exact ⟨List.prefix_append _ _, file, offset, cut, List.prefix_refl _⟩
  | send => exact ⟨List.prefix_refl _, file, offset, cut, List.prefix_append _ _⟩
  | _ => exact ⟨List.prefix_refl _, file, offset, cut, List.prefix_refl _⟩

/-- The message is one for command `i`. -/
def Master.Carries (init : Bytes) (s : Master) (i : Nat) (message : Nat × DataEntity) : Prop :=
  ∃ cmd seq, s.commands[i]? = some cmd ∧ message.1 = frameStart init s.commands i ∧
    listenerCommand seq cmd.parts = some message.2

/-- Command `i` was sent to the replica. -/
def Master.Sent (init : Bytes) (s : Master) (i : Nat) : Prop :=
  ∃ message ∈ s.sent, s.Carries init i message

/-- What is sent for a command that the store logs. -/
def entity (seq : Nat) : Command → DataEntity
  | .set key value => ⟨seq, key, value, setWord⟩
  | .del key => ⟨seq, key, [], delWord⟩

theorem listenerCommand_parts (seq : Nat) (cmd : Command) :
    listenerCommand seq cmd.parts = some (entity seq cmd) := by
  cases cmd with
  | set key value => rfl
  | del key => rfl

theorem Grows.carries {s t : Master} (g : Grows s t) {i : Nat} {message : Nat × DataEntity}
    (h : s.Carries init i message) : t.Carries init i message := by
  obtain ⟨cmd, seq, found, place, made⟩ := h
  obtain ⟨more, commands⟩ := g.commands
  have inside := (List.getElem?_eq_some_iff.mp found).1
  refine ⟨cmd, seq, ?_, ?_, made⟩
  · rw [← commands, List.getElem?_append_left inside]
    exact found
  · rw [← commands, frameStart_append (Nat.le_of_lt inside)]
    exact place

theorem Grows.isSent {s t : Master} (g : Grows s t) {i : Nat} (h : s.Sent init i) :
    t.Sent init i := by
  obtain ⟨message, member, carries⟩ := h
  exact ⟨message, g.sent.subset member, g.carries carries⟩

/-- A run that began where the file has ended, behind a torn frame. -/
structure Stuck (s : Master) (r : Reader) : Prop where
  cut : Cut s.sys
  pos : r.pos = s.sys.aof.file.length
  buf : r.streamBuf = []
  parsed : r.parsed = []
  quiet : r.raised = false

/-- A run that is at some frames of the file, or where the file has ended. -/
structure Follows (init : Bytes) (s : Master) (r : Reader) : Prop where
  behind : r.offset ≤ s.sys.aof.writtenOffset
  place : (∃ j k m, Progress init s.commands s.sys.aof.file.length r j k m) ∨ Stuck s r

theorem Follows.quiet {s : Master} {r : Reader} (h : Follows init s r) : r.raised = false := by
  rcases h.place with ⟨j, k, m, progress⟩ | stuck
  · exact progress.quiet
  · exact stuck.quiet

theorem Follows.grow {s t : Master} {r : Reader} (h : Follows init s r) (g : Grows s t) :
    Follows init t r := by
  refine ⟨Nat.le_trans h.behind g.offset, h.place.imp ?_ ?_⟩
  · intro moving
    rcases moving with ⟨j, k, m, progress⟩
    obtain ⟨more, commands⟩ := g.commands
    refine ⟨j, k, m, ?_⟩
    rw [← commands]
    exact progress.grow more g.file
  · intro stuck
    rcases g.cut stuck.cut with ⟨cut, file⟩
    exact ⟨cut, by rw [file]; exact stuck.pos, stuck.buf, stuck.parsed, stuck.quiet⟩

theorem Follows.load {s : Master} (h : Logged init s) :
    Follows init s ⟨s.sys.aof.writtenOffset, s.sys.aof.writtenOffset, [], [], false⟩ := by
  refine ⟨Nat.le_refl _, h.ended.imp ?_ ?_⟩
  · intro boundary
    rcases boundary with ⟨j, within, ended⟩
    have inside := h.published.inside
    refine ⟨j, j, j, ?_⟩
    rw [ended] at inside ⊢
    exact Progress.load within inside
  · intro torn
    rcases torn with ⟨cut, last⟩
    exact ⟨cut, last, rfl, rfl, rfl⟩

/-- A run that has parsed a command is at some frames, and that command is the next. -/
theorem Follows.head {s : Master} {r : Reader} (h : Follows init s r) {place : Nat}
    {parts : List Bytes} {parsed : List (Nat × List Bytes)}
    (held : r.parsed = (place, parts) :: parsed) :
    ∃ j k m cmd, Progress init s.commands s.sys.aof.file.length r j k m ∧ k < m ∧
      place = frameStart init s.commands k ∧ s.commands[k]? = some cmd ∧ cmd.parts = parts := by
  rcases h.place with ⟨j, k, m, progress⟩ | stuck
  · rcases progress.head held with ⟨lt, start, here, -⟩
    obtain ⟨cmd, there, same⟩ := Option.map_eq_some_iff.mp here
    exact ⟨j, k, m, cmd, progress, lt, start, there, same⟩
  · rw [stuck.parsed] at held
    cases held

/-- A read goes on to some frames. -/
theorem Follows.read {s : Master} {r : Reader} (h : Follows init s r) (logged : Logged init s)
    {n : Nat} (some_ : 0 < n) (within : r.pos + n ≤ s.sys.aof.file.length) :
    ∃ j k m m', Progress init s.commands s.sys.aof.file.length r j k m ∧ m ≤ m' ∧
      Progress init s.commands s.sys.aof.file.length (r.read s.sys.aof.file n) j m m' := by
  rcases h.place with ⟨j, k, m, progress⟩ | stuck
  · obtain ⟨m', le, next⟩ := progress.read logged.written logged.parsable logged.short within
    exact ⟨j, k, m, m', progress, le, next⟩
  · have := stuck.pos
    omega

/-! ## The listener runs -/

/-- The variables of a run that has loaded the offset. -/
def Listener.reader : Listener → Option Reader
  | .notified => none
  | .reading r => some r
  | .finished r => some r

/-- The run has parsed the frame at a place. -/
def Listener.Parsed (l : Listener) (place : Nat) : Prop :=
  ∃ r, l.reader = some r ∧ r.offset ≤ place ∧ place < r.base

/-- What a run has parsed it has also parsed later. -/
theorem Listener.Parsed.mono {l : Listener} {r r' : Reader} {place : Nat}
    (h : (Listener.reading r).Parsed place) (reader : l.reader = some r')
    (offset : r'.offset = r.offset) (base : r.base ≤ r'.base) : l.Parsed place := by
  obtain ⟨r₀, same, ge, lt⟩ := h
  cases same
  exact ⟨r', reader, by rw [offset]; exact ge, Nat.lt_of_lt_of_le lt base⟩

structure Mirror (init : Bytes) (s : Master) : Prop where
  logged : Logged init s
  follows : ∀ l ∈ s.listeners, ∀ r, l.reader = some r → Follows init s r
  idle : ∀ r, .finished r ∈ s.listeners → r.parsed = []
  carried : ∀ message ∈ s.sent, ∃ i, s.Carries init i message
  parsed : ∀ message ∈ s.sent, ∃ l ∈ s.listeners, l.Parsed message.1

theorem Mirror.start (init : Bytes) : Mirror init (Master.start init) :=
  ⟨Logged.start init, nofun, nofun, nofun, nofun⟩

/-- A step of the run `i`. -/
theorem Mirror.set {s t : Master} {i : Nat} {old l : Listener} (h : Mirror init s)
    (more : List (Nat × DataEntity)) (found : s.listeners[i]? = some old)
    (logged : Logged init t) (g : Grows s t) (listeners : t.listeners = s.listeners.set i l)
    (sent : t.sent = s.sent ++ more)
    (follows : ∀ r, l.reader = some r → Follows init t r)
    (idle : ∀ r, l = .finished r → r.parsed = [])
    (keeps : ∀ place, old.Parsed place → l.Parsed place)
    (carried : ∀ message ∈ more, ∃ i, t.Carries init i message)
    (parsed : ∀ message ∈ more, l.Parsed message.1) : Mirror init t := by
  have new : l ∈ t.listeners := by
    rw [listeners]
    exact List.mem_of_getElem? (getElem?_set_slot found l)
  refine ⟨logged, fun l' member r there => ?_, fun r member => ?_, fun message member => ?_,
    fun message member => ?_⟩
  · rw [listeners] at member
    rcases List.mem_or_eq_of_mem_set member with before | rfl
    · exact (h.follows l' before r there).grow g
    · exact follows r there
  · rw [listeners] at member
    rcases List.mem_or_eq_of_mem_set member with before | same
    · exact h.idle r before
    · exact idle r same.symm
  · rw [sent] at member
    rcases List.mem_append.mp member with before | now
    · obtain ⟨n, carries⟩ := h.carried message before
      exact ⟨n, g.carries carries⟩
    · exact carried message now
  · rw [sent] at member
    rcases List.mem_append.mp member with before | now
    · obtain ⟨l', there, has⟩ := h.parsed message before
      rcases mem_set_of_mem there found l with rfl | still
      · exact ⟨l, new, keeps _ has⟩
      · exact ⟨l', by rw [listeners]; exact still, has⟩
    · exact ⟨l, new, parsed message now⟩

/-- A step outside of the runs, one of which may begin. -/
theorem Mirror.grow {s t : Master} (h : Mirror init s) (more : List Listener)
    (logged : Logged init t) (g : Grows s t) (listeners : t.listeners = s.listeners ++ more)
    (fresh : ∀ l ∈ more, l = .notified) (sent : t.sent = s.sent) : Mirror init t := by
  refine ⟨logged, fun l member r there => ?_, fun r member => ?_, fun message member => ?_,
    fun message member => ?_⟩
  · rw [listeners] at member
    rcases List.mem_append.mp member with before | new
    · exact (h.follows l before r there).grow g
    · rw [fresh l new] at there
      cases there
  · rw [listeners] at member
    rcases List.mem_append.mp member with before | new
    · exact h.idle r before
    · cases fresh _ new
  · rw [sent] at member
    obtain ⟨n, carries⟩ := h.carried message member
    exact ⟨n, g.carries carries⟩
  · rw [sent] at member
    obtain ⟨l, there, has⟩ := h.parsed message member
    exact ⟨l, by rw [listeners]; exact List.mem_append_left _ there, has⟩

theorem Mirror.step {s t : Master} {act : MasterAct} (h : Mirror init s) (dry : Dry s act)
    (taken : masterStep opts s act = some t) : Mirror init t := by
  have done := masterStep_cases taken
  have logged := h.logged.step dry done
  have g := grows_step h.logged done
  cases done with
  | accept => exact h.grow _ logged g rfl (fun _ => List.mem_singleton.mp) rfl
  | refuse => exact h
  | halt => exact h.grow [] logged g (List.append_nil _).symm nofun rfl
  | writer => exact h.grow [] logged g (List.append_nil _).symm nofun rfl
  | load found =>
      refine h.set [] found logged g rfl (List.append_nil _).symm ?_ nofun ?_ nofun nofun
      · intro r same
        cases same
        exact (Follows.load h.logged).grow g
      · intro place none
        obtain ⟨r, there, -⟩ := none
        cases there
  | @read i n r found idle _ some_ within =>
      have follows := h.follows _ (List.mem_of_getElem? found) r rfl
      obtain ⟨j, k, m, m', progress, le, next⟩ := follows.read h.logged some_ within
      refine h.set [] found logged g rfl (List.append_nil _).symm ?_ nofun ?_ nofun nofun
      · intro r' same
        cases same
        exact ⟨follows.behind, Or.inl ⟨j, m, m', next⟩⟩
      · intro place before
        refine before.mono rfl rfl ?_
        rw [progress.base, next.base]
        exact frameStart_mono init s.commands le
  | @leave i r found idle =>
      have follows := h.follows _ (List.mem_of_getElem? found) r rfl
      refine h.set [] found logged g rfl (List.append_nil _).symm ?_ ?_ ?_ nofun nofun
      · intro r' same
        cases same
        exact follows.grow g
      · intro r' same
        cases same
        exact idle
      · intro place before
        exact before.mono rfl rfl (Nat.le_refl _)
  | @send i r place parts parsed found held =>
      have follows := h.follows _ (List.mem_of_getElem? found) r rfl
      obtain ⟨j, k, m, cmd, progress, lt, start, there, rfl⟩ := follows.head held
      refine h.set _ found logged g rfl rfl ?_ nofun ?_ ?_ ?_
      · intro r' same
        cases same
        exact ⟨follows.behind, Or.inl ⟨j, k + 1, m, progress.send held⟩⟩
      · intro place before
        exact before.mono rfl rfl (Nat.le_refl _)
      · intro message member
        rw [listenerCommand_parts] at member
        rw [List.mem_singleton.mp member]
        exact ⟨k, cmd, r.offset, there, start, listenerCommand_parts r.offset cmd⟩
      · intro message member
        rw [listenerCommand_parts] at member
        rw [List.mem_singleton.mp member]
        change Listener.Parsed _ place
        rw [start]
        refine ⟨_, rfl, ?_, ?_⟩
        · change r.offset ≤ _
          rw [progress.offset]
          exact frameStart_mono init s.commands progress.first
        · rw [(progress.send held).base]
          exact frameStart_lt lt (List.getElem?_eq_some_iff.mp there).1
  | @sendError i r place parts parsed found held =>
      have follows := h.follows _ (List.mem_of_getElem? found) r rfl
      obtain ⟨j, k, m, -, progress, -⟩ := follows.head held
      refine h.set [] found logged g rfl (List.append_nil _).symm ?_ nofun ?_ nofun nofun
      · intro r' same
        cases same
        exact ⟨follows.behind, Or.inl ⟨j, k + 1, m, progress.send held⟩⟩
      · intro place before
        exact before.mono rfl rfl (Nat.le_refl _)

end Blp.Replica

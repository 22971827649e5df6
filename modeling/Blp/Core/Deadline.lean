import Blp.Core.Readers

/-!
# The deadline of an `expire`

The handler takes the seconds as an `int64_t` and passes them on as a `uint64_t`. `expire` adds them
to the clock modulo `2 ^ 64` and prints the sum; `get` and `ttl` convert it back, compare it with
`2 ^ 64 - 1` and with the clock, and `ttl` returns what is left as an `int64_t`.

* `expires_on_time_iff`: the key lives for exactly the seconds given unless they reach back behind
  the time 0.
* `negative_forever`: then the sum wraps around, and the key stays.
-/

namespace Blp.Core

open CString

/-! ## What should hold -/

/-- Nothing is done to the key up to the time `t`, except that it may be read and that the cleaner
may pass. -/
def Act.LeavesKey (key : Bytes) (t : UInt64) : Act → Prop
  | .put other _ _ _ => other ≠ key
  | .remove other _ _ => other ≠ key
  | .get other now _ => other = key → now ≤ t
  | .ttl _ _ => True
  | .expire other _ _ _ _ => other ≠ key
  | .ttlCleaner now _ => now key ≤ t

/-- `get` returns the value and `ttl` the positive number of seconds left. -/
structure Store.Alive (s : Store) (key value : Bytes) (t : UInt64) (left : Int) : Prop where
  get : ∀ written, (s.get key [] t written).1 = true ∧ (s.get key [] t written).2.1 = value
  ttl : (s.ttl key t).toInt = left
  positive : 0 < left

/-- `get` fails and `ttl` is -2. -/
structure Store.Gone (s : Store) (key : Bytes) (t : UInt64) : Prop where
  get : ∀ written, (s.get key [] t written).1 = false
  ttl : s.ttl key t = -2

/-- Behind an `expire` at the time `now`: no positive number of seconds, and the key is gone from
then on; otherwise it is alive until they have passed, and gone from then on. -/
def ExpiresOnTime (s : Store) (key value : Bytes) (now : UInt64) (seconds : Int64) : Prop :=
  ∀ (acts : List Act) (t : UInt64), now ≤ t → (∀ act ∈ acts, act.LeavesKey key t) →
    (seconds.toInt ≤ 0 → (acts.foldl Store.after s).Gone key t) ∧
    (0 < seconds.toInt →
      ((t.toNat : Int) < now.toNat + seconds.toInt →
        (acts.foldl Store.after s).Alive key value t (now.toNat + seconds.toInt - t.toNat)) ∧
      (now.toNat + seconds.toInt ≤ t.toNat → (acts.foldl Store.after s).Gone key t))

/-! ## The sum -/

theorem toInt_eq (seconds : Int64) :
    seconds.toInt = if seconds.toUInt64.toNat < 2 ^ 63 then (seconds.toUInt64.toNat : Int)
      else seconds.toUInt64.toNat - 2 ^ 64 := toInt_toInt64 seconds.toUInt64

/-- The deadline is the time that was meant, or `2 ^ 64` more when that is negative. -/
theorem deadline_eq {now : UInt64} (clock : now.toNat < 2 ^ 62) (seconds : Int64) :
    ((now + seconds.toUInt64).toNat : Int) =
      if 0 ≤ now.toNat + seconds.toInt then now.toNat + seconds.toInt
      else now.toNat + seconds.toInt + 2 ^ 64 := by
  have bound := seconds.toUInt64.toNat_lt
  rw [toInt_eq, UInt64.toNat_add]
  split <;> split <;> omega

/-! ## The entry behind it -/

/-- What `get` returns is what `expire` keeps. -/
theorem textOf_of_read {raw value : Bytes} {now : UInt64}
    (read : (readEntry raw).read now = (true, value)) : textOf raw = value := by
  unfold textOf
  rcases readEntry_cases raw with
    ⟨found, entry⟩ | ⟨tabPos, found, ⟨e, -, entry⟩ | ⟨t, -, entry⟩⟩
  · rw [entry] at read
    rw [found]
    exact congrArg Prod.snd read
  · rw [entry] at read
    cases read
  · rw [entry] at read
    rw [found]
    split at read
    · exact congrArg Prod.snd read
    · rw [Entry.read] at read
      split at read
      · cases read
      · exact congrArg Prod.snd read

/-- An entry that nobody touches: still there, or removed past its deadline. -/
def Lingers (raw : Bytes) (t : UInt64) (here : Option Bytes) : Prop :=
  here = some raw ∨ here = none ∧ (readEntry raw).expired t = true

section Lingers

variable {s : Store} {key raw : Bytes} {t : UInt64}

theorem Lingers.filter {here : Option Bytes} (h : Lingers raw t here) {now : UInt64}
    (earlier : now ≤ t) (written : Bool) :
    Lingers raw t (here.filter fun raw => !((readEntry raw).expired now && written)) := by
  rcases filter_expired_cases here now written with kept | ⟨removed, passed⟩
  · rw [kept]
    exact h
  · rw [removed]
    rcases h with rfl | ⟨-, gone⟩
    · exact Or.inr ⟨rfl, Entry.expired_mono (passed raw rfl) earlier⟩
    · exact Or.inr ⟨rfl, gone⟩

theorem Lingers.after (h : Lingers raw t (s.db.lookup key)) {act : Act}
    (leaves : act.LeavesKey key t) : Lingers raw t ((s.after act).db.lookup key) := by
  cases act with
  | put other value append written =>
      rw [Store.after, Store.exec, lookup_put, if_neg fun same => leaves same.1.symm]
      exact h
  | remove other append written =>
      rw [Store.after, Store.exec, lookup_remove, if_neg fun same => leaves same.1.symm]
      exact h
  | get other now written =>
      rw [Store.after, Store.exec, lookup_get]
      split
      · rename_i same
        subst same
        exact h.filter (leaves rfl) written
      · exact h
  | ttl other now => exact h
  | expire other ts now append written =>
      unfold Store.after Store.exec Store.expire
      dsimp only
      split
      · exact h
      · rw [lookup_put, if_neg fun same => leaves same.1.symm]
        exact h
  | ttlCleaner now written =>
      rw [Store.after, Store.exec, lookup_sweep]
      exact h.filter leaves (written key)

theorem Lingers.foldl (h : Lingers raw t (s.db.lookup key)) {acts : List Act}
    (leave : ∀ act ∈ acts, act.LeavesKey key t) :
    Lingers raw t ((acts.foldl Store.after s).db.lookup key) := by
  induction acts generalizing s with
  | nil => exact h
  | cons act acts ih =>
      exact ih (h.after (leave act List.mem_cons_self)) fun act member =>
        leave act (List.mem_cons_of_mem _ member)

/-- The readers cannot tell whether an entry past its deadline has been removed. -/
theorem Lingers.read (h : Lingers raw t (s.db.lookup key)) :
    (readEntry (s.raw key [])).read t = (readEntry raw).read t ∧
      (readEntry (s.raw key [])).ttl t = (readEntry raw).ttl t := by
  rw [Store.raw]
  rcases h with here | ⟨removed, passed⟩
  · rw [here, Option.getD_some]
    exact ⟨rfl, rfl⟩
  · rw [removed, Entry.read_of_expired passed, Entry.ttl_of_expired passed]
    exact ⟨rfl, rfl⟩

theorem Lingers.gone (h : Lingers raw t (s.db.lookup key))
    (passed : (readEntry raw).expired t = true) : s.Gone key t where
  get := fun written => by rw [get_written_eq, h.read.1, Entry.read_of_expired passed]
  ttl := by rw [ttl_eq, h.read.2, Entry.ttl_of_expired passed]

theorem Lingers.alive (h : Lingers raw t (s.db.lookup key)) {value : Bytes} {deadline : UInt64}
    (entry : readEntry raw = .timed value deadline) (ahead : t < deadline)
    (near : deadline.toNat < t.toNat + 2 ^ 63) :
    s.Alive key value t (deadline.toNat - t.toNat) where
  get := fun written => by
    have read : (Entry.timed value deadline).read t = (true, value) :=
      if_neg (UInt64.not_le.mpr ahead)
    rw [get_written_eq, h.read.1, entry, read]
    exact ⟨rfl, rfl⟩
  ttl := by
    have ttl : (Entry.timed value deadline).ttl t = (deadline - t).toInt64 :=
      if_neg (UInt64.not_le.mpr ahead)
    have left := UInt64.toNat_sub_of_le _ _ (UInt64.le_of_lt ahead)
    have later := UInt64.lt_iff_toNat_lt.mp ahead
    rw [ttl_eq, h.read.2, entry, ttl, toInt_toInt64, left, if_pos (by omega)]
    omega
  positive := by
    have later := UInt64.lt_iff_toNat_lt.mp ahead
    omega

end Lingers

/-! ## Every number of seconds -/

/-- What an `expire` that returns true on a live value leaves under its key. -/
theorem lookup_expire {s s' : Store} {key value : Bytes} {now : UInt64}
    (live : s.get key [] now true = (true, value, s)) {ts : UInt64} {append : Append}
    {written : Bool} (answered : s.expire key ts now append written = (true, s')) :
    s'.db.lookup key = some (timedValue value (now + ts)) := by
  rw [get_eq, Store.raw] at live
  cases found : s.db.lookup key with
  | none =>
      rw [found] at live
      cases congrArg Prod.fst live
  | some raw =>
      rw [found, Option.getD_some] at live
      have ok := congrArg Prod.fst live
      have text := congrArg (fun r => r.2.1) live
      have read : (readEntry raw).read now = (true, value) := Prod.ext ok text
      have nonempty : raw ≠ [] := by
        intro empty
        subst empty
        cases congrArg Prod.fst read
      rw [expire_of_some found nonempty, textOf_of_read read] at answered
      have taken : written = true := congrArg Prod.fst answered
      have same := lookup_put s key (value ++ tab :: decimal (now + ts).toNat) append written key
      rw [answered, if_pos ⟨rfl, taken⟩] at same
      exact same

/-- Seconds that reach back behind the time 0 leave a key that is read as before. -/
theorem get_of_wrapped {s : Store} {key value : Bytes} {now : UInt64}
    (clock : now.toNat < 2 ^ 62) (clean : tab ∉ value) {seconds : Int64}
    (found : s.db.lookup key = some (timedValue value (now + seconds.toUInt64)))
    (wrapped : now.toNat + seconds.toInt < 0) : (s.get key [] now true).1 = true := by
  have entry := readEntry_timedValue clean (now + seconds.toUInt64)
  have sum := deadline_eq clock seconds
  have least : -2 ^ 63 ≤ seconds.toInt := seconds.le_toInt
  rw [if_neg (by omega)] at sum
  rw [get_eq, Store.raw, found, Option.getD_some, entry]
  split
  · rfl
  · have ahead : ¬ now + seconds.toUInt64 ≤ now := by
      rw [UInt64.le_iff_toNat_le]
      omega
    rw [Entry.read, if_neg ahead]

/-- **The arithmetic of `expire`**: a live value stays for exactly the seconds given if they do not
reach back behind the time 0, and only then. -/
theorem expires_on_time_iff {s s' : Store} {key value : Bytes} {now : UInt64}
    (clock : now.toNat < 2 ^ 62) (live : s.get key [] now true = (true, value, s))
    (clean : tab ∉ value) {seconds : Int64} {append : Append} {written : Bool}
    (answered : s.expire key seconds.toUInt64 now append written = (true, s')) :
    ExpiresOnTime s' key value now seconds ↔ 0 ≤ now.toNat + seconds.toInt := by
  have found := lookup_expire live answered
  constructor
  · intro onTime
    by_contra wrapped
    have gone := (onTime [] now (UInt64.le_refl now) nofun).1 (by omega)
    have stays := get_of_wrapped clock clean found (by omega)
    rw [List.foldl_nil] at gone
    rw [gone.get true] at stays
    cases stays
  · intro meant
    have entry := readEntry_timedValue clean (now + seconds.toUInt64)
    have sum := deadline_eq clock seconds
    have most : seconds.toInt < 2 ^ 63 := seconds.toInt_lt
    rw [if_pos meant] at sum
    generalize now + seconds.toUInt64 = deadline at found entry sum
    have never : deadline ≠ noExpiry := by
      intro same
      have number : deadline.toNat = 2 ^ 64 - 1 := UInt64.toNat_inj.mpr same
      omega
    rw [if_neg never] at entry
    intro acts t later leave
    rw [UInt64.le_iff_toNat_le] at later
    have lingers := Lingers.foldl (Or.inl found) leave
    have gone : deadline.toNat ≤ t.toNat → (acts.foldl Store.after s').Gone key t := by
      intro passed
      apply lingers.gone
      rw [entry]
      exact decide_eq_true (UInt64.le_iff_toNat_le.mpr passed)
    refine ⟨fun past => gone (by omega), fun some_ => ⟨fun ahead => ?_, fun passed => ?_⟩⟩
    · rw [← sum] at ahead ⊢
      exact lingers.alive entry (UInt64.lt_iff_toNat_lt.mpr (by omega)) (by omega)
    · exact gone (by omega)

/-- The key `k` with the value `v`. -/
def holdsV : Store := (Store.empty.put [107] [118] ⟨true, true⟩ true).2

theorem live_holdsV (now : UInt64) :
    holdsV.get [107] [] now true = (true, [118], holdsV) := rfl

/-- Ten seconds at the time 5. -/
theorem expires_on_time_ten :
    ExpiresOnTime (holdsV.expire [107] (10 : Int64).toUInt64 5 ⟨true, true⟩ true).2 [107] [118] 5 10
      ↔ 0 ≤ (5 : Int) + 10 :=
  expires_on_time_iff (by decide) (live_holdsV 5) (by decide) rfl

/-- At the time 1755000000, in August 2025, a client asks for 2000000000 seconds less. -/
def farBack : Bool × Store :=
  holdsV.expire [107] (-2000000000 : Int64).toUInt64 1755000000 ⟨true, true⟩ true

/-- The `expire` returns true, and the key is still read. -/
theorem negative_forever :
    holdsV.get [107] [] 1755000000 true = (true, [118], holdsV) ∧ farBack.1 = true ∧
      ¬ ExpiresOnTime farBack.2 [107] [118] 1755000000 (-2000000000) := by
  refine ⟨live_holdsV _, rfl, fun onTime => ?_⟩
  have answered : holdsV.expire [107] (-2000000000 : Int64).toUInt64 1755000000 ⟨true, true⟩ true =
      (true, farBack.2) := rfl
  have found := lookup_expire (live_holdsV _) answered
  have clock : (1755000000 : UInt64).toNat < 2 ^ 62 := by decide
  have stays := get_of_wrapped clock (by decide) found (by decide)
  have gone := (onTime [] 1755000000 (UInt64.le_refl _) nofun).1 (by decide)
  rw [List.foldl_nil] at gone
  rw [gone.get true] at stays
  cases stays

end Blp.Core

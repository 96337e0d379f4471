import HamixOS.Kernel.EventFd

namespace HamixOS.Kernel

open Lib Option List Nat

/-!
# Timer descriptors (`syscall/special.rs`)

A timerfd after the call that armed it.  The timer advances lazily: `updateTimer` catches up with
the clock when a read, a poll or `timerfd_gettime` looks at the object, each under the lock.  The
clock counts ticks, and every sum and product is of `u64` and wraps, as in a release build.

`first` and `every` are the expiry and the interval that were asked for, without wrapping;
`returned` counts the expirations that reads returned.  The code does not look at these three.
-/

namespace TimerFd

open EventFd (u64)

def tickHz : Nat := 1000

/-- `task::ms_to_ticks`. -/
def msToTicks (ms : Nat) : Nat := max ((ms * tickHz % u64 + 999) / 1000) 1

/-- A `struct timespec` as a caller passes it: seconds and nanoseconds. -/
abbrev Timespec := Int × Int

/-- The time in milliseconds, rounded up. -/
def millis (t : Timespec) : Nat := t.1.toNat * 1000 + (t.2.toNat + 999999) / 1000000

/-- `timespec_ms`; `none` is `EINVAL`. -/
def timespecMs (t : Timespec) : Option Nat :=
  if t.1 < 0 ∨ ¬ (0 ≤ t.2 ∧ t.2 < 1000000000) then none
  else some (min (min (t.1.toNat * 1000) (u64 - 1) + (t.2.toNat + 999999) / 1000000) (u64 - 1))

structure Timer where
  now : Nat
  next : Nat
  interval : Nat
  expirations : Nat
  first : Nat
  every : Nat
  returned : Nat
  deriving DecidableEq

/-- The time to wait for: an absolute time is taken from the clock `nowMs`. -/
def untilMs (absolute : Bool) (nowMs value : Nat) : Nat := max (if absolute then value - nowMs else value) 1

/-- The time in ticks, rounded up, without wrapping. -/
def ticksOf (ms : Nat) : Nat := max ((ms * tickHz + 999) / 1000) 1

/-- The interval in ticks; `0` for a timer that expires once. -/
def everyTicks (interval : Timespec) : Nat := if millis interval = 0 then 0 else ticksOf (millis interval)

/-- `sys_timerfd_settime` at tick `now`; `nowMs` is the clock an absolute time is set against. -/
def settime (now nowMs : Nat) (absolute : Bool) (interval value : Timespec) : Option Timer :=
  match timespecMs interval, timespecMs value with
  | some intervalMs, some valueMs =>
    some {
      now := now
      next := if valueMs = 0 then 0 else (now + msToTicks (untilMs absolute nowMs valueMs)) % u64
      interval := if intervalMs = 0 then 0 else msToTicks intervalMs
      expirations := 0
      first := now + ticksOf (untilMs absolute nowMs (millis value))
      every := everyTicks interval
      returned := 0 }
  | _, _ => none

namespace Timer

variable (t : Timer)

/-- `update_timer`. -/
def updateTimer : Timer :=
  if t.next ≠ 0 ∧ t.next ≤ t.now then
    if t.interval ≠ 0 then
      let missed := (t.now - t.next) / t.interval + 1
      { t with
        expirations := (t.expirations + missed) % u64
        next := (t.next + missed * t.interval % u64) % u64 }
    else { t with expirations := (t.expirations + 1) % u64, next := 0 }
  else t

/-- The ticks that `current_setting` shows: the interval and what remains. -/
def currentSetting : Nat × Nat :=
  let t := t.updateTimer
  (t.interval, if t.next = 0 then 0 else max (t.next - t.now) 1)

/-- `put` of `current_setting`: seconds and nanoseconds. -/
def put (ticks : Nat) : Nat × Nat :=
  let ms := ticks * 1000 % u64 / tickHz
  (ms / 1000, ms % 1000 * 1000000)

/-- The section of `read` that takes the expirations. -/
def read : Timer :=
  let t := t.updateTimer
  { t with expirations := 0, returned := t.returned + t.expirations }

end Timer

/-- The clock goes on, or some thread looks at the timer: `readable`, `timerfd_gettime`, or the
    taking section of a `read`. -/
inductive Act where
  | clock (ticks : Nat)
  | readable
  | gettime
  | read
  deriving DecidableEq

def step (t : Timer) : Act → Option Timer
  | .clock k => some { t with now := t.now + k }
  | .readable => some t.updateTimer
  | .gettime => some t.updateTimer
  | .read => some t.read

/-- The expirations up to now, by the schedule that was asked for. -/
def Timer.due (t : Timer) : Nat :=
  if t.now < t.first then 0 else if t.every = 0 then 1 else (t.now - t.first) / t.every + 1

/-- What has been returned and what the next look finds stored are the expirations due, and the
    times that are shown do not overflow. -/
structure Kept (t : Timer) : Prop where
  count : t.returned + t.updateTimer.expirations = t.due
  interval : t.currentSetting.1 * 1000 < u64
  remaining : t.currentSetting.2 * 1000 < u64

/-- The arguments of a call that arms the timer and whose times fit in 64 bits as ticks. -/
structure Fits (now nowMs : Nat) (absolute : Bool) (iv v : Timespec) : Prop where
  value : millis v < u64
  wait : untilMs absolute nowMs (millis v) * tickHz < u64
  interval : millis iv * tickHz < u64
  first : now + ticksOf (untilMs absolute nowMs (millis v)) < u64
  every : now + everyTicks iv < u64

/-- The states in which a timer has just been armed. -/
def Armed (t : Timer) : Prop :=
  ∃ now nowMs absolute interval value,
    settime now nowMs absolute interval value = some t ∧ millis value ≠ 0 ∧
      Fits now nowMs absolute interval value

/-- The clock leaves room for another interval. -/
def Room (t : Timer) : Act → Prop
  | .clock k => t.now + k + t.every < u64
  | _ => True

/-- The timer keeps to its schedule: what has been returned or stored are the expirations before
    `next`, and `next` is at most an interval ahead of the clock once the first one has passed. -/
structure Inv (t : Timer) : Prop where
  interval : t.interval = t.every
  start : 0 < t.first
  room : t.now + t.every < u64
  first : t.first < u64
  spent : t.next = 0 → t.every = 0 ∧ t.first ≤ t.now ∧ t.returned + t.expirations = 1
  armed : t.next ≠ 0 → t.next = t.first + (t.returned + t.expirations) * t.every
  ahead : t.next ≠ 0 → 0 < t.returned + t.expirations → 0 < t.every ∧ t.next ≤ t.now + t.every
  wait : (t.first - t.now) * 1000 < u64
  period : t.every * 1000 < u64

section Steps

variable {t : Timer}

theorem updateTimer_later (h : t.now < t.next) : t.updateTimer = t := by
  unfold Timer.updateTimer
  rw [if_neg (by omega)]

theorem updateTimer_spent (h : t.next = 0) : t.updateTimer = t := by
  unfold Timer.updateTimer
  rw [if_neg (by omega)]

section

variable (h : Inv t)

include h

/-- A periodic timer that is due moves `next` past the clock, by whole intervals. -/
theorem Inv.catchUp (hn : t.next ≠ 0) (hle : t.next ≤ t.now) (he : 0 < t.every) :
    t.updateTimer = { t with
      expirations := t.expirations + ((t.now - t.next) / t.every + 1)
      next := t.next + ((t.now - t.next) / t.every + 1) * t.every } ∧
    t.now < t.next + ((t.now - t.next) / t.every + 1) * t.every ∧
    t.next + ((t.now - t.next) / t.every + 1) * t.every ≤ t.now + t.every := by
  have hdiv := div_add_mod' (t.now - t.next) t.every
  have hmod := mod_lt (t.now - t.next) he
  have hroom := h.room
  have harmed := h.armed hn
  have hmul : ((t.now - t.next) / t.every + 1) * t.every = (t.now - t.next) / t.every * t.every + t.every :=
    succ_mul _ _
  have hcount : t.returned + t.expirations + ((t.now - t.next) / t.every + 1) < u64 := by
    have hbefore : t.returned + t.expirations ≤ (t.returned + t.expirations) * t.every :=
      Nat.le_mul_of_pos_right _ he
    have hmissed : (t.now - t.next) / t.every ≤ (t.now - t.next) / t.every * t.every :=
      Nat.le_mul_of_pos_right _ he
    omega
  refine ⟨?_, by omega, by omega⟩
  unfold Timer.updateTimer
  rw [if_pos ⟨hn, hle⟩, if_pos (by rw [h.interval]; omega)]
  dsimp only
  rw [h.interval, mod_eq_of_lt (by omega : t.expirations + ((t.now - t.next) / t.every + 1) < u64),
    mod_eq_of_lt (by omega : ((t.now - t.next) / t.every + 1) * t.every < u64),
    mod_eq_of_lt (by omega : t.next + ((t.now - t.next) / t.every + 1) * t.every < u64)]

/-- A timer without an interval that is due expires once. -/
theorem Inv.fire (hn : t.next ≠ 0) (hle : t.next ≤ t.now) (he : t.every = 0) :
    t.updateTimer = { t with expirations := t.expirations + 1, next := 0 } ∧
      t.returned + t.expirations = 0 ∧ t.next = t.first := by
  have hzero : t.returned + t.expirations = 0 := by
    by_contra hne
    have := (h.ahead hn (pos_of_ne_zero hne)).1
    omega
  have hnext := h.armed hn
  rw [hzero, zero_mul] at hnext
  refine ⟨?_, hzero, hnext⟩
  unfold Timer.updateTimer
  rw [if_pos ⟨hn, hle⟩, if_neg (by rw [h.interval]; omega)]
  have hexp : t.expirations = 0 := by omega
  rw [hexp]
  rfl

theorem Inv.updateTimer : Inv t.updateTimer ∧
    (t.updateTimer.next = 0 ∨ t.now < t.updateTimer.next) ∧ t.updateTimer.now = t.now ∧
    t.updateTimer.first = t.first ∧ t.updateTimer.every = t.every ∧ t.updateTimer.returned = t.returned := by
  by_cases hn : t.next = 0
  · rw [updateTimer_spent hn]
    exact ⟨h, .inl hn, rfl, rfl, rfl, rfl⟩
  by_cases hlt : t.now < t.next
  · rw [updateTimer_later hlt]
    exact ⟨h, .inr hlt, rfl, rfl, rfl, rfl⟩
  have hle : t.next ≤ t.now := Nat.le_of_not_lt hlt
  rcases Nat.eq_zero_or_pos t.every with he | he
  · obtain ⟨heq, hzero, hfirst⟩ := h.fire hn hle he
    rw [heq]
    exact ⟨⟨h.interval, h.start, h.room, h.first, fun _ => ⟨he, hfirst ▸ hle, by dsimp only; omega⟩,
      fun hne => absurd rfl hne, fun hne => absurd rfl hne, h.wait, h.period⟩, .inl rfl, rfl, rfl, rfl, rfl⟩
  · obtain ⟨heq, hpast, hahead⟩ := h.catchUp hn hle he
    rw [heq]
    refine ⟨⟨h.interval, h.start, h.room, h.first, fun hz => ?_, fun _ => ?_, fun _ _ => ⟨he, hahead⟩,
      h.wait, h.period⟩, .inr hpast, rfl, rfl, rfl, rfl⟩
    · dsimp only at hz
      omega
    · dsimp only
      rw [h.armed hn]
      ring

theorem Inv.read : Inv t.read := by
  obtain ⟨h', -, -⟩ := h.updateTimer
  have hsum : t.read.returned + t.read.expirations = t.updateTimer.returned + t.updateTimer.expirations :=
    add_zero _
  exact ⟨h'.interval, h'.start, h'.room, h'.first, fun hz => hsum ▸ h'.spent hz, fun hz => hsum ▸ h'.armed hz,
    fun hz hk => h'.ahead hz (hsum ▸ hk), h'.wait, h'.period⟩

theorem Inv.clock {k : Nat} (hroom : t.now + k + t.every < u64) : Inv { t with now := t.now + k } where
  interval := h.interval
  start := h.start
  room := hroom
  first := h.first
  spent hz := ⟨(h.spent hz).1, le_add_right_of_le (h.spent hz).2.1, (h.spent hz).2.2⟩
  armed := h.armed
  ahead hz hk := by
    obtain ⟨he, hle⟩ := h.ahead hz hk
    refine ⟨he, ?_⟩
    dsimp only at hle ⊢
    omega
  wait := lt_of_le_of_lt (mul_le_mul_right 1000 (by dsimp only; omega)) h.wait
  period := h.period

theorem Inv.step {t' : Timer} {a : Act} (hok : Room t a) (hs : step t a = some t') : Inv t' := by
  cases a with
  | clock k =>
    obtain rfl := some.inj hs
    exact h.clock hok
  | readable =>
    obtain rfl := some.inj hs
    exact h.updateTimer.1
  | gettime =>
    obtain rfl := some.inj hs
    exact h.updateTimer.1
  | read =>
    obtain rfl := some.inj hs
    exact h.read

/-- The number of the expirations by `now`, read off the next one. -/
theorem Inv.total (hnext : t.next = 0 ∨ t.now < t.next) : t.returned + t.expirations = t.due := by
  unfold Timer.due
  rcases hnext with hz | hlt
  · obtain ⟨he, hle, hone⟩ := h.spent hz
    rw [if_neg (by omega), if_pos he, hone]
  · have hn : t.next ≠ 0 := by omega
    have harmed := h.armed hn
    rcases Nat.eq_zero_or_pos (t.returned + t.expirations) with hk | hk
    · rw [hk, zero_mul] at harmed
      rw [hk, if_pos (by omega)]
    · obtain ⟨he, hle⟩ := h.ahead hn hk
      obtain ⟨k, hk'⟩ := exists_eq_add_one_of_ne_zero (ne_of_gt hk)
      rw [hk', add_mul, one_mul] at harmed
      rw [hk', if_neg (by omega), if_neg (by omega)]
      have hdiv : (t.now - t.first) / t.every = k := by
        rw [Nat.div_eq_iff he]
        constructor
        · omega
        · omega
      rw [hdiv]

theorem Inv.kept : Kept t := by
  obtain ⟨h', hnext, hnow, hfirst, hevery, hret⟩ := h.updateTimer
  have htotal := h'.total (hnow.symm ▸ hnext)
  have hint : t.updateTimer.interval = t.every := h'.interval.trans hevery
  refine ⟨?_, ?_, ?_⟩
  · rw [← hret, htotal]
    unfold Timer.due
    rw [hnow, hfirst, hevery]
  · show t.updateTimer.interval * 1000 < u64
    rw [hint]
    exact h.period
  · show (if t.updateTimer.next = 0 then 0 else max (t.updateTimer.next - t.updateTimer.now) 1) * 1000 < u64
    have hone : 1 * 1000 < u64 := by decide
    split_ifs with hz
    · exact Nat.pos_of_ne_zero (by decide)
    · have hle : t.updateTimer.next - t.updateTimer.now ≤ t.first - t.now ∨
          t.updateTimer.next - t.updateTimer.now ≤ t.every := by
        rw [hnow]
        rcases Nat.eq_zero_or_pos (t.updateTimer.returned + t.updateTimer.expirations) with hk | hk
        · have harmed := h'.armed hz
          rw [hk, zero_mul, hfirst] at harmed
          omega
        · have hahead := (h'.ahead hz hk).2
          rw [hnow, hevery] at hahead
          omega
      rcases le_total (t.updateTimer.next - t.updateTimer.now) 1 with hr | hr
      · rw [max_eq_right hr]
        exact hone
      · rw [max_eq_left hr]
        rcases hle with hle | hle
        · exact lt_of_le_of_lt (mul_le_mul_right 1000 hle) h.wait
        · exact lt_of_le_of_lt (mul_le_mul_right 1000 hle) h.period

end

end Steps

/-- A tick is a millisecond. -/
theorem ticksOf_eq {ms : Nat} (h : 0 < ms) : ticksOf ms = ms := by
  unfold ticksOf tickHz
  omega

theorem msToTicks_eq {ms : Nat} (h : ms * tickHz < u64) : msToTicks ms = ticksOf ms := by
  unfold msToTicks ticksOf
  rw [mod_eq_of_lt h]

/-- Times below `2^64` milliseconds are not saturated. -/
theorem timespecMs_eq {ts : Timespec} {ms : Nat} (h : timespecMs ts = some ms) (hfit : millis ts < u64) :
    ms = millis ts := by
  unfold timespecMs at h
  split_ifs at h
  obtain rfl := some.inj h
  unfold millis at hfit ⊢
  omega

theorem inv_armed {t : Timer} (h : Armed t) : Inv t := by
  obtain ⟨now, nowMs, absolute, iv, v, hset, hv0, hfit⟩ := h
  have hiv : millis iv < u64 := lt_of_le_of_lt (Nat.le_mul_of_pos_right _ (by decide)) hfit.interval
  have hwaitpos : 0 < untilMs absolute nowMs (millis v) := lt_of_lt_of_le one_pos (le_max_right _ _)
  cases hi : timespecMs iv with
  | none => simp [settime, hi] at hset
  | some i =>
    cases hv : timespecMs v with
    | none => simp [settime, hi, hv] at hset
    | some m =>
      obtain rfl := timespecMs_eq hi hiv
      obtain rfl := timespecMs_eq hv hfit.value
      have ht : t = ⟨now, now + ticksOf (untilMs absolute nowMs (millis v)), everyTicks iv, 0,
          now + ticksOf (untilMs absolute nowMs (millis v)), everyTicks iv, 0⟩ := by
        simp only [settime, hi, hv, some.injEq] at hset
        rw [← hset, if_neg hv0, msToTicks_eq hfit.wait, msToTicks_eq hfit.interval, mod_eq_of_lt hfit.first]
        rfl
      rw [ht]
      have hticks := ticksOf_eq hwaitpos
      refine ⟨rfl, by dsimp only; omega, hfit.every, hfit.first, fun hz => ?_, fun _ => ?_, fun _ hk => ?_, ?_, ?_⟩
      · dsimp only at hz
        omega
      · dsimp only
        omega
      · exact absurd hk (lt_irrefl 0)
      · show (now + ticksOf (untilMs absolute nowMs (millis v)) - now) * 1000 < u64
        rw [Nat.add_sub_cancel_left, hticks]
        exact hfit.wait
      · show everyTicks iv * 1000 < u64
        unfold everyTicks
        split_ifs with h0
        · exact Nat.pos_of_ne_zero (by decide)
        · rw [ticksOf_eq (pos_of_ne_zero h0)]
          exact hfit.interval

/-- A timer whose times fit keeps to its schedule in every state that is reached. -/
theorem kept_of_reach {t : Timer} (h : Reach Armed step Room t) : Kept t :=
  (h.invariant (I := Inv) (fun _ => inv_armed) (fun _ _ _ hi hok hs => hi.step hok hs)).kept

/-- Neither descriptor loses or invents a count: an event as long as no reader is overtaken
    between looking and taking, a timer as long as its times fit in 64 bits. -/
theorem special_counts_kept {e : EventFd.Event} {t : Timer}
    (he : Reach EventFd.Fresh EventFd.step EventFd.Undrained e) (ht : Reach Armed step Room t) :
    EventFd.Kept e ∧ Kept t :=
  ⟨EventFd.kept_of_reach he, kept_of_reach ht⟩

/-- A second and then every ten milliseconds, looked at twice and read after one and a half. -/
def halfway : List Act := [.clock 1000, .readable, .clock 505, .gettime, .read]

theorem special_counts_kept_runs :
    ∃ e t₀ t, runLabels EventFd.step (EventFd.create 3 true) EventFd.alone = some e ∧
      settime 5 0 false (0, 10000000) (1, 0) = some t₀ ∧ runLabels step t₀ halfway = some t ∧ EventFd.Kept e ∧ Kept t := by
  refine ⟨_, _, _, rfl, rfl, rfl, special_counts_kept
    (Reach.admitted (Reach.start ⟨3, true, rfl⟩) EventFd.alone ?_ rfl) (Reach.admitted (Reach.start ?_) halfway ?_ rfl)⟩
  · refine ⟨trivial, ?_⟩
    rintro e ⟨⟩
    refine ⟨trivial, ?_⟩
    rintro e ⟨⟩
    exact ⟨.inl (by decide), fun _ _ => trivial⟩
  · exact ⟨5, 0, false, (0, 10000000), (1, 0), rfl, by decide, by decide, by decide, by decide, by decide, by decide⟩
  · refine ⟨by unfold Room; decide, ?_⟩
    rintro t ⟨⟩
    refine ⟨trivial, ?_⟩
    rintro t ⟨⟩
    refine ⟨by unfold Room; decide, ?_⟩
    rintro t ⟨⟩
    exact ⟨trivial, fun _ _ => ⟨trivial, fun _ _ => trivial⟩⟩

/-- The second of two readers finds the counter drained: a semaphore's goes below zero, and the
    other kind's answers `EAGAIN` to a blocking call.  A first expiry far enough ahead comes within
    the second. -/
theorem overtaken_invents :
    (∃ e, runLabels EventFd.step (EventFd.create 1 true) EventFd.overtaken = some e ∧
      e.counter = u64 - 1 ∧ ¬ EventFd.Kept e) ∧
    (∃ e, runLabels EventFd.step (EventFd.create 1 false) EventFd.overtaken = some e ∧
      (false, eagain) ∈ e.returned ∧ ¬ EventFd.Kept e) ∧
    ∃ t₀ t, settime 5 0 false (0, 0) (18446744073710, 0) = some t₀ ∧ runLabels step t₀ [.clock 1000] = some t ∧
      t.due = 0 ∧ t.updateTimer.expirations = 1 ∧ ¬ Kept t := by
  refine ⟨⟨_, rfl, rfl, fun h => ?_⟩, ⟨_, rfl, ?_, fun h => ?_⟩, _, _, rfl, rfl, by decide, by decide, fun h => ?_⟩
  · exact absurd h.bound (by decide)
  · exact List.mem_append_right _ (List.mem_singleton_self _)
  · exact absurd (h.blocking (false, eagain) (List.mem_append_right _ (List.mem_singleton_self _)) rfl) (by decide)
  · exact absurd h.count (by decide)

end TimerFd

end HamixOS.Kernel

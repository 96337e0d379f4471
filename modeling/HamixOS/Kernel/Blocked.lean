import HamixOS.Kernel.Queues

namespace HamixOS.Kernel

open Lib List OrdSet Function Sched

/-!
# The indexes of blocked tasks

`waiting` and `timers` list exactly the blocked tasks, so that a wakeup that only looks
at the indexes misses nobody.

* `Sched.sleep` — the part of a task the indexes are about: its state, its wait bits and
  the time it is to be woken;
* `Indexed s gone` — the indexes are right, but for the timers of `gone`, which
  `rescan_blocked` has popped and whose tasks it has not yet woken;
* `SameIndex` — the steps that neither put a task to sleep nor wake one;
* `blocked_index` — the indexes are right in every state of every run;
* `timed_block_ends`, `wake_reaches` — what follows for `pick` and for the wakeups.
-/

/-- What the indexes of blocked tasks know about a task. -/
structure Sleep where
  state : State
  wait : Nat
  wakeAt : Nat
  deriving DecidableEq

/-- What a wakeup makes of it. -/
def Sleep.wake (k : Sleep) : Sleep :=
  if k.state = .zombie then k else { k with state := .runnable, wait := 0 }

theorem Sleep.wake_wake (k : Sleep) : k.wake.wake = k.wake := by
  unfold Sleep.wake
  split_ifs with h <;> simp_all

def Task.sleep (t : Task) : Sleep := ⟨t.state, t.wait, t.wakeAt⟩

namespace Sched

def sleep (s : Sched) (pid : Pid) : Option Sleep := (s.tasks pid).map Task.sleep

/-- The task is blocked, with these wait bits and this time to be woken at. -/
def Asleep (s : Sched) (pid : Pid) (wait wakeAt : Nat) : Prop :=
  s.sleep pid = some ⟨.blocked, wait, wakeAt⟩

variable {s s' : Sched} {pid : Pid} {t t' : Task} {gone : List Pid}

theorem sleep_some (ht : s.tasks pid = some t) : s.sleep pid = some t.sleep := by
  simp [sleep, ht]

variable {wait wakeAt : Nat}

theorem asleep_iff : s.Asleep pid wait wakeAt ↔
    ∃ t, s.tasks pid = some t ∧ t.state = .blocked ∧ t.wait = wait ∧ t.wakeAt = wakeAt := by
  simp [Asleep, sleep, Task.sleep]

/-! ### What the operations do to the indexes -/

/-- The same tasks sleep, and the indexes are the same. -/
structure SameIndex (s s' : Sched) : Prop where
  asleep : ∀ pid wait wakeAt, s'.Asleep pid wait wakeAt ↔ s.Asleep pid wait wakeAt
  waiting : s'.waiting = s.waiting
  timers : s'.timers = s.timers
  nextTimer : s'.nextTimer = s.nextTimer

/-- The steps that change no task's `sleep`. -/
structure SameSleep (s s' : Sched) : Prop where
  sleep : s'.sleep = s.sleep
  waiting : s'.waiting = s.waiting
  timers : s'.timers = s.timers
  nextTimer : s'.nextTimer = s.nextTimer

theorem SameSleep.refl (s : Sched) : SameSleep s s := ⟨rfl, rfl, rfl, rfl⟩

theorem SameSleep.same (h : SameSleep s s') : SameIndex s s' where
  asleep := fun p w a => by rw [Asleep, Asleep, h.sleep]
  waiting := h.waiting
  timers := h.timers
  nextTimer := h.nextTimer

theorem sleep_setTask (ht : s.tasks pid = some t) (t' : Task) (hs : t'.sleep = t.sleep) :
    SameSleep s (s.setTask pid t') where
  sleep := by
    funext p
    by_cases hp : p = pid
    · simp [Sched.sleep, hp, ht, hs]
    · simp [Sched.sleep, hp]
  waiting := rfl
  timers := rfl
  nextTimer := rfl

/-- A task that does not sleep is replaced by one that does not, or by none. -/
theorem sameIndex_replace (pid : Pid) {o : Option Task} (ht : ∀ t, s.tasks pid = some t → t.state ≠ .blocked)
    (ho : ∀ t', o = some t' → t'.state ≠ .blocked)
    (hst : s'.tasks = update s.tasks pid o) (hw : s'.waiting = s.waiting)
    (htm : s'.timers = s.timers) (hn : s'.nextTimer = s.nextTimer) : SameIndex s s' where
  asleep := by
    intro p w a
    rw [asleep_iff, asleep_iff, hst]
    by_cases hp : p = pid
    · rw [hp, update_self]
      constructor
      · rintro ⟨t', h, hb, -⟩
        exact absurd hb (ho t' h)
      · rintro ⟨t, h, hb, -⟩
        exact absurd hb (ht t h)
    · rw [update_of_ne hp]
  waiting := hw
  timers := htm
  nextTimer := hn

theorem Requeued.sleep (h : Requeued s s') : SameSleep s s' where
  sleep := by
    have hcore : ∀ o : Option Task, o.map Task.sleep = (o.map core).map Task.sleep := by
      rintro (_ | t) <;> rfl
    funext pid
    rw [Sched.sleep, Sched.sleep, hcore, hcore (s.tasks pid), h.tasks]
  waiting := h.waiting
  timers := h.timers
  nextTimer := h.nextTimer

theorem sleep_enqueue (s : Sched) (pid : Pid) : SameSleep s (s.enqueue pid) :=
  (requeued_enqueue s pid).sleep

/-- The indexes after `unindex_blocked`; the futex sets apart. -/
theorem unindexBlocked_index (s : Sched) (pid : Pid) (wait wakeAt : Nat) (futex : Pid × Nat) :
    (s.unindexBlocked pid wait wakeAt futex).waiting = (fun bit =>
        if bit < waitKinds ∧ wait.testBit bit then remove pid (s.waiting bit)
        else s.waiting bit) ∧
      (s.unindexBlocked pid wait wakeAt futex).timers
        = (if wait &&& waitTimer ≠ 0 then remove (wakeAt, pid) s.timers else s.timers) ∧
      (s.unindexBlocked pid wait wakeAt futex).nextTimer = s.nextTimer := by
  unfold unindexBlocked
  by_cases hf : futex.2 ≠ 0
  · simp only [if_pos hf]
    exact ⟨rfl, rfl, rfl⟩
  · simp only [if_neg hf]
    exact ⟨trivial, trivial, trivial⟩

/-- `make_runnable`, in terms of the indexes. -/
theorem makeRunnable_sleep (s : Sched) (pid p : Pid) :
    (s.makeRunnable pid).sleep p = if p = pid then (s.sleep p).map Sleep.wake else s.sleep p := by
  by_cases hp : p = pid
  · rw [if_pos hp, hp]
    unfold Sched.makeRunnable
    split
    next hnone =>
      rw [(sleep_enqueue s pid).sleep]
      simp [Sched.sleep, hnone]
    next task htask =>
      have hset : ∀ s' : Sched, s'.tasks = (s.setTask pid task.awake).tasks → ¬ task.state = .zombie →
          (s'.enqueue pid).sleep pid = Option.map Sleep.wake (s.sleep pid) := by
        intro s' hs' hz
        rw [(sleep_enqueue s' pid).sleep]
        simp [Sched.sleep, hs', htask, Task.sleep, Task.awake, Sleep.wake, hz]
      split_ifs with hz hb
      · simp [Sched.sleep, htask, Task.sleep, Sleep.wake, hz]
      · exact hset _ (by simp) hz
      · exact hset _ rfl hz
  · rw [if_neg hp, Sched.sleep, makeRunnable_tasks_of_ne s hp]
    rfl

theorem makeRunnable_index (s : Sched) (pid : Pid) :
    (s.makeRunnable pid).waiting = (match s.sleep pid with
      | some ⟨.blocked, wait, _⟩ => fun b =>
        if b < waitKinds ∧ wait.testBit b then remove pid (s.waiting b) else s.waiting b
      | _ => s.waiting) ∧
      (s.makeRunnable pid).timers = (match s.sleep pid with
        | some ⟨.blocked, wait, wakeAt⟩ =>
          if wait &&& waitTimer ≠ 0 then remove (wakeAt, pid) s.timers else s.timers
        | _ => s.timers) ∧
      (s.makeRunnable pid).nextTimer = s.nextTimer := by
  unfold Sched.makeRunnable
  cases htask : s.tasks pid with
  | none =>
    simp only [Sched.sleep, htask, Option.map_none]
    exact ⟨(sleep_enqueue s pid).waiting, (sleep_enqueue s pid).timers, (sleep_enqueue s pid).nextTimer⟩
  | some task =>
    simp only [Sched.sleep, htask, Option.map_some, Task.sleep]
    cases hst : task.state with
    | zombie => simp
    | runnable =>
      simp only [reduceCtorEq, if_false]
      exact ⟨(sleep_enqueue _ pid).waiting, (sleep_enqueue _ pid).timers, (sleep_enqueue _ pid).nextTimer⟩
    | blocked =>
      simp only [reduceCtorEq, if_false, if_true]
      rw [(sleep_enqueue _ pid).waiting, (sleep_enqueue _ pid).timers, (sleep_enqueue _ pid).nextTimer]
      exact unindexBlocked_index _ _ _ _ _

theorem makeRunnable_asleep (s : Sched) (pid p : Pid) (wait wakeAt : Nat) :
    (s.makeRunnable pid).Asleep p wait wakeAt ↔ p ≠ pid ∧ s.Asleep p wait wakeAt := by
  rw [Asleep, makeRunnable_sleep]
  by_cases hp : p = pid
  · rw [if_pos hp]
    simp only [hp, ne_eq, not_true_eq_false, false_and, iff_false]
    intro h
    obtain ⟨k, -, hk⟩ := Option.map_eq_some_iff.mp h
    unfold Sleep.wake at hk
    split_ifs at hk with hz
    · rw [hk] at hz
      cases hz
    · cases hk
  · rw [if_neg hp]
    simp [Asleep, hp]

theorem Asleep.eq {wait wakeAt wait' wakeAt' : Nat} (h : s.Asleep pid wait wakeAt)
    (h' : s.Asleep pid wait' wakeAt') : wait' = wait ∧ wakeAt' = wakeAt := by
  have heq := h.symm.trans h'
  simp only [Option.some.injEq, Sleep.mk.injEq, true_and] at heq
  exact ⟨heq.1.symm, heq.2.symm⟩

/-! ### The invariant -/

instance : Std.Total timerLe where
  total := fun a b => by
    rcases Nat.lt_trichotomy a.1 b.1 with h | h | h
    · exact .inl (.inl h)
    · rcases Nat.le_total a.2 b.2 with h' | h'
      · exact .inl (.inr ⟨h, h'⟩)
      · exact .inr (.inr ⟨h.symm, h'⟩)
    · exact .inr (.inl h)

instance : IsTrans (Nat × Pid) timerLe where
  trans := fun a b c hab hbc => by
    rcases hab with h | ⟨h, hle⟩ <;> rcases hbc with h' | ⟨h', hle'⟩
    · exact .inl (Nat.lt_trans h h')
    · exact .inl (h' ▸ h)
    · exact .inl (h ▸ h')
    · exact .inr ⟨h.trans h', Nat.le_trans hle hle'⟩

/-- The indexes list the blocked tasks, but for the timers of `gone`. -/
structure Indexed (s : Sched) (gone : Pid → Prop) : Prop where
  waiting : ∀ {b pid}, b < waitKinds →
    (pid ∈ s.waiting b ↔ ∃ wait wakeAt, s.Asleep pid wait wakeAt ∧ wait.testBit b)
  timers : ∀ {wakeAt pid}, (wakeAt, pid) ∈ s.timers ↔
    ¬ gone pid ∧ ∃ wait, s.Asleep pid wait wakeAt ∧ wait &&& waitTimer ≠ 0
  sorted : s.timers.Pairwise timerLe

/-- `NEXT_TIMER` is no later than any timer. -/
def TimerSet (s : Sched) : Prop := ∀ e ∈ s.timers, s.nextTimer ≤ e.1

/-- The indexes and `NEXT_TIMER` are right. -/
structure Listed (s : Sched) : Prop where
  index : Indexed s (fun _ => False)
  timer : TimerSet s

theorem Indexed.congr {gone : Pid → Prop} (h : Indexed s gone)
    (hs : ∀ pid wait wakeAt, s'.Asleep pid wait wakeAt ↔ s.Asleep pid wait wakeAt)
    (hw : s'.waiting = s.waiting) (ht : s'.timers = s.timers) : Indexed s' gone where
  waiting := fun hb => by simp only [hw, hs, h.waiting hb]
  timers := by
    intro wakeAt pid
    simp only [ht, hs, h.timers]
  sorted := ht ▸ h.sorted

theorem Indexed.regone {gone gone' : Pid → Prop} (h : Indexed s gone)
    (hg : ∀ pid, gone' pid ↔ gone pid) : Indexed s gone' where
  waiting := h.waiting
  timers := by
    intro wakeAt pid
    rw [hg, h.timers]
  sorted := h.sorted

theorem TimerSet.congr (h : TimerSet s) (ht : s'.timers = s.timers)
    (hn : s'.nextTimer = s.nextTimer) : TimerSet s' := by
  unfold TimerSet
  rw [ht, hn]
  exact h

theorem Listed.congr (h : Listed s) (hs : SameIndex s s') : Listed s' :=
  ⟨h.index.congr hs.asleep hs.waiting hs.timers, h.timer.congr hs.timers hs.nextTimer⟩

/-- A wakeup takes the task out of the indexes. -/
theorem Indexed.makeRunnable {gone : Pid → Prop} (h : Indexed s gone) (pid : Pid) :
    Indexed (s.makeRunnable pid) (fun p => gone p ∧ p ≠ pid) := by
  have hwaiting : ∀ {b p}, b < waitKinds →
      (p ∈ (s.makeRunnable pid).waiting b ↔ p ∈ s.waiting b ∧ p ≠ pid) := by
    intro b p hb
    rw [(makeRunnable_index s pid).1]
    split
    next wait wakeAt hsleep =>
      dsimp only
      split_ifs with hbit
      · exact mem_remove ..
      · refine ⟨fun hp => ⟨hp, ?_⟩, fun hp => hp.1⟩
        rintro rfl
        obtain ⟨w, a, hasleep, hw⟩ := (h.waiting hb).mp hp
        rw [(Asleep.eq hsleep hasleep).1] at hw
        exact hbit ⟨hb, hw⟩
    next hno =>
      refine ⟨fun hp => ⟨hp, ?_⟩, fun hp => hp.1⟩
      rintro rfl
      obtain ⟨w, a, hasleep, -⟩ := (h.waiting hb).mp hp
      exact hno w a hasleep
  have htimers : ∀ {a p}, (a, p) ∈ (s.makeRunnable pid).timers ↔ (a, p) ∈ s.timers ∧ p ≠ pid := by
    intro a p
    rw [(makeRunnable_index s pid).2.1]
    split
    next wait wakeAt hsleep =>
      split_ifs with hbit
      · rw [mem_remove]
        refine and_congr_right fun hp => not_congr ⟨fun heq => (Prod.mk.inj heq).2, ?_⟩
        rintro rfl
        obtain ⟨-, w, hasleep, -⟩ := h.timers.mp hp
        rw [(Asleep.eq hsleep hasleep).2]
      · refine ⟨fun hp => ⟨hp, ?_⟩, fun hp => hp.1⟩
        rintro rfl
        obtain ⟨-, w, hasleep, hw⟩ := h.timers.mp hp
        rw [(Asleep.eq hsleep hasleep).1] at hw
        exact hbit hw
    next hno =>
      refine ⟨fun hp => ⟨hp, ?_⟩, fun hp => hp.1⟩
      rintro rfl
      obtain ⟨-, w, hasleep, -⟩ := h.timers.mp hp
      exact hno w a hasleep
  refine ⟨?_, ?_, ?_⟩
  · intro b p hb
    rw [hwaiting hb, h.waiting hb]
    simp only [makeRunnable_asleep]
    constructor
    · rintro ⟨⟨w, a, hasleep, hw⟩, hp⟩
      exact ⟨w, a, ⟨hp, hasleep⟩, hw⟩
    · rintro ⟨w, a, ⟨hp, hasleep⟩, hw⟩
      exact ⟨⟨w, a, hasleep, hw⟩, hp⟩
  · intro a p
    rw [htimers, h.timers]
    simp only [makeRunnable_asleep]
    constructor
    · rintro ⟨⟨hg, w, hasleep, hw⟩, hp⟩
      exact ⟨fun hgp => hg hgp.1, w, ⟨hp, hasleep⟩, hw⟩
    · rintro ⟨hg, w, ⟨hp, hasleep⟩, hw⟩
      exact ⟨⟨fun hgp => hg ⟨hgp, hp⟩, w, hasleep, hw⟩, hp⟩
  · rw [(makeRunnable_index s pid).2.1]
    split
    · split_ifs
      · exact sorted_remove _ h.sorted
      · exact h.sorted
    · exact h.sorted

theorem makeRunnable_timers_subset (s : Sched) (pid : Pid) :
    ∀ e ∈ (s.makeRunnable pid).timers, e ∈ s.timers := by
  intro e he
  rw [(makeRunnable_index s pid).2.1] at he
  split at he
  · split_ifs at he
    · exact ((mem_remove ..).mp he).1
    · exact he
  · exact he

theorem Listed.makeRunnable (h : Listed s) (pid : Pid) : Listed (s.makeRunnable pid) where
  index := (h.index.makeRunnable pid).regone (by simp)
  timer := by
    intro e he
    rw [(makeRunnable_index s pid).2.2]
    exact h.timer e (makeRunnable_timers_subset s pid e he)

/-- The wakeups of a whole list. -/
theorem Indexed.makeRunnables {gone : Pid → Prop} (h : Indexed s gone) (l : List Pid) :
    Indexed (l.foldl Sched.makeRunnable s) (fun p => gone p ∧ p ∉ l) := by
  induction l generalizing s gone with
  | nil => exact h.regone (by simp)
  | cons pid l ih =>
    refine (ih (h.makeRunnable pid)).regone (fun p => ?_)
    simp only [mem_cons, not_or, and_assoc]

theorem makeRunnables_sleep (l : List Pid) (s : Sched) (p : Pid) :
    (l.foldl makeRunnable s).sleep p = if p ∈ l then (s.sleep p).map Sleep.wake else s.sleep p := by
  induction l generalizing s with
  | nil => simp
  | cons pid l ih =>
    rw [foldl_cons, ih, makeRunnable_sleep]
    by_cases hp : p = pid
    · simp only [hp, if_true, mem_cons, true_or]
      split_ifs
      · rw [Option.map_map]
        congr 1
        exact funext Sleep.wake_wake
      · rfl
    · simp [hp]

theorem Listed.makeRunnables (h : Listed s) (l : List Pid) :
    Listed (l.foldl Sched.makeRunnable s) := by
  induction l generalizing s with
  | nil => exact h
  | cons pid l ih => exact ih (h.makeRunnable pid)

/-! ### `rescan_blocked` and `block` -/

theorem mem_timedOut {expired : List (Nat × Pid)}
    (hmem : (wakeAt, pid) ∈ expired) (h : s.Asleep pid wait wakeAt) (hw : wait &&& waitTimer ≠ 0) :
    pid ∈ s.timedOut expired := by
  obtain ⟨t, ht, hb, rfl, rfl⟩ := asleep_iff.mp h
  refine mem_filterMap.mpr ⟨_, hmem, ?_⟩
  simp [ht, hb, hw]

/-- `rescan_blocked` pops the timers that are due, wakes at least their tasks, and reads
    `NEXT_TIMER` off the first timer left. -/
theorem rescanBlocked_eq (s : Sched) (now seq : Nat) :
    ∃ (s₁ : Sched) (woken : List Pid),
    s₁.tasks = s.tasks ∧ s₁.waiting = s.waiting ∧ s₁.timers = s.timers.dropWhile (fun e => e.1 ≤ now) ∧
      (∀ p ∈ s.timedOut (s.timers.takeWhile (fun e => e.1 ≤ now)), p ∈ woken) ∧
      s.rescanBlocked now seq = { woken.foldl makeRunnable s₁ with
        nextTimer := ((woken.foldl makeRunnable s₁).timers.head?.map (·.1)).getD noTimer } := by
  unfold rescanBlocked
  dsimp only
  split_ifs
  · refine ⟨{ s with
      timers := s.timers.dropWhile (fun e => e.1 ≤ now)
      scannedInput := seq },
      s.timedOut (s.timers.takeWhile (fun e => e.1 ≤ now)) ++ s.sawInput seq, rfl, rfl, rfl, ?_, rfl⟩
    exact fun p hp => mem_append_left _ hp
  · exact ⟨{ s with timers := s.timers.dropWhile (fun e => e.1 ≤ now) },
      s.timedOut (s.timers.takeWhile (fun e => e.1 ≤ now)), rfl, rfl, rfl, fun p hp => hp, rfl⟩

/-- The order of the timers: whatever is due stands in front of whatever is not. -/
theorem timerLe_due (now : Nat) (a b : Nat × Pid) (h : timerLe a b)
    (hb : decide (b.1 ≤ now) = true) : decide (a.1 ≤ now) = true := by
  have hle : a.1 ≤ b.1 := by
    rcases h with h | h
    · exact le_of_lt h
    · exact le_of_eq h.1
  simp only [decide_eq_true_eq] at hb ⊢
  exact le_trans hle hb

/-- The timers popped are those of the tasks that are due. -/
theorem Indexed.popTimers (h : Indexed s (fun _ => False)) (now : Nat)
    (ht : s'.tasks = s.tasks) (hw : s'.waiting = s.waiting)
    (htm : s'.timers = s.timers.dropWhile (fun e => e.1 ≤ now)) :
    Indexed s' (fun p => ∃ wait wakeAt, s.Asleep p wait wakeAt ∧ wait &&& waitTimer ≠ 0 ∧
      wakeAt ≤ now) := by
  have hasleep : ∀ p w a, s'.Asleep p w a ↔ s.Asleep p w a := by
    intro p w a
    rw [Asleep, Asleep, Sched.sleep, Sched.sleep, ht]
  refine ⟨?_, ?_, ?_⟩
  · intro b p hb
    simp only [hw, hasleep, h.waiting hb]
  · intro a p
    rw [htm, mem_dropWhile (timerLe_due now) h.sorted, h.timers]
    simp only [hasleep, not_false_eq_true, true_and, decide_eq_false_iff_not, not_le]
    constructor
    · rintro ⟨⟨w, hs, hwt⟩, hlt⟩
      refine ⟨?_, w, hs, hwt⟩
      rintro ⟨w', a', hs', -, hle⟩
      rw [(hs.eq hs').2] at hle
      exact absurd hle (not_le.mpr hlt)
    · rintro ⟨hno, w, hs, hwt⟩
      exact ⟨⟨w, hs, hwt⟩, not_le.mp fun hle => hno ⟨w, a, hs, hwt, hle⟩⟩
  · rw [htm]
    exact h.sorted.sublist (dropWhile_sublist _)

/-- The first timer is the earliest. -/
theorem head_le_timers {l : List (Nat × Pid)} (h : l.Pairwise timerLe) (e : Nat × Pid) (he : e ∈ l)
    (n : Nat) : (l.head?.map (·.1)).getD n ≤ e.1 := by
  cases l with
  | nil => cases he
  | cons x l =>
    rcases mem_cons.mp he with rfl | he
    · exact le_refl _
    · rcases (pairwise_cons.mp h).1 e he with hlt | heq
      · exact le_of_lt hlt
      · exact le_of_eq heq.1

/-- `rescan_blocked` keeps the indexes right, and after it nobody sleeps past its time. -/
theorem Listed.rescanBlocked (h : Listed s) (now seq : Nat) :
    Listed (s.rescanBlocked now seq) ∧
      ∀ {pid wait wakeAt}, s.Asleep pid wait wakeAt → wait &&& waitTimer ≠ 0 → wakeAt ≤ now →
        (s.rescanBlocked now seq).sleep pid = some ⟨.runnable, 0, wakeAt⟩ := by
  obtain ⟨s₁, woken, ht, hw, htm, hwoken, heq⟩ := rescanBlocked_eq s now seq
  have hdue : ∀ {pid wait wakeAt}, s.Asleep pid wait wakeAt → wait &&& waitTimer ≠ 0 →
      wakeAt ≤ now → pid ∈ woken := by
    intro pid wait wakeAt hs hwt hle
    refine hwoken pid (mem_timedOut ?_ hs hwt)
    rw [mem_takeWhile (timerLe_due now) h.index.sorted, h.index.timers]
    exact ⟨⟨not_false, wait, hs, hwt⟩, by simpa using hle⟩
  have hindex : Indexed (woken.foldl Sched.makeRunnable s₁) (fun _ => False) := by
    refine ((h.index.popTimers now ht hw htm).makeRunnables woken).regone ?_
    simp only [false_iff, not_and, not_not]
    rintro p ⟨wait, wakeAt, hs, hwt, hle⟩
    exact hdue hs hwt hle
  rw [heq]
  refine ⟨⟨hindex.congr (fun _ _ _ => .rfl) rfl rfl, ?_⟩, ?_⟩
  · intro e he
    exact head_le_timers hindex.sorted e he noTimer
  · intro pid wait wakeAt hs hwt hle
    have hsleep := makeRunnables_sleep woken s₁ pid
    rw [if_pos (hdue hs hwt hle)] at hsleep
    refine Eq.trans hsleep ?_
    rw [Sched.sleep, ht]
    rw [show (s.tasks pid).map Task.sleep = some ⟨.blocked, wait, wakeAt⟩ from hs]
    rfl

/-- A task goes to sleep and is put into the indexes. -/
theorem Indexed.index (h : Indexed s (fun _ => False))
    (hasleep : ∀ p w a, s'.Asleep p w a ↔ (p = pid ∧ w = wait ∧ a = wakeAt) ∨ s.Asleep p w a)
    (hw : s'.waiting = (s.indexBlocked pid wait wakeAt).waiting)
    (htm : s'.timers = (s.indexBlocked pid wait wakeAt).timers) :
    Indexed s' (fun _ => False) := by
  unfold indexBlocked at hw htm
  refine ⟨?_, ?_, ?_⟩
  · intro b p hb
    have hmem : p ∈ s'.waiting b ↔ (p = pid ∧ wait.testBit b) ∨ p ∈ s.waiting b := by
      rw [hw]
      dsimp only
      by_cases hbit : wait.testBit b
      · rw [if_pos ⟨hb, hbit⟩, mem_insert]
        simp [hbit]
      · rw [if_neg fun hc => hbit hc.2]
        simp [hbit]
    rw [hmem, h.waiting hb]
    simp only [hasleep]
    constructor
    · rintro (⟨hp, hbit⟩ | ⟨w, a, hs, hbit⟩)
      · exact ⟨wait, wakeAt, .inl ⟨hp, rfl, rfl⟩, hbit⟩
      · exact ⟨w, a, .inr hs, hbit⟩
    · rintro ⟨w, a, ⟨hp, rfl, rfl⟩ | hs, hbit⟩
      · exact .inl ⟨hp, hbit⟩
      · exact .inr ⟨w, a, hs, hbit⟩
  · intro a p
    have hmem : (a, p) ∈ s'.timers ↔
        (p = pid ∧ a = wakeAt ∧ wait &&& waitTimer ≠ 0) ∨ (a, p) ∈ s.timers := by
      rw [htm]
      by_cases hbit : wait &&& waitTimer ≠ 0
      · rw [if_pos hbit, mem_insert, Prod.mk.injEq]
        simp only [ne_eq, hbit, not_false_eq_true, and_true]
        rw [and_comm]
      · rw [if_neg hbit]
        simp only [hbit, and_false, false_or]
    rw [hmem, h.timers]
    simp only [hasleep, not_false_eq_true, true_and]
    constructor
    · rintro (⟨hp, ha, hbit⟩ | ⟨w, hs, hbit⟩)
      · exact ⟨wait, .inl ⟨hp, rfl, ha⟩, hbit⟩
      · exact ⟨w, .inr hs, hbit⟩
    · rintro ⟨w, ⟨hp, rfl, ha⟩ | hs, hbit⟩
      · exact .inl ⟨hp, ha, hbit⟩
      · exact .inr ⟨w, hs, hbit⟩
  · rw [htm]
    split_ifs
    · exact sorted_insert _ h.sorted
    · exact h.sorted

/-- `block` indexes the task it puts to sleep. -/
theorem Listed.block (h : Listed s) (ht : s.tasks pid = some t) (hb : t.state ≠ .blocked)
    (flags : Nat) (timeout : Option Nat) (seq ticks inputSeq : Nat) :
    Listed (s.block pid flags timeout seq ticks inputSeq) := by
  have hawake : ∀ w a, ¬ s.Asleep pid w a := by
    intro w a hs
    obtain ⟨u, hu, hub, -⟩ := asleep_iff.mp hs
    rw [ht] at hu
    cases hu
    exact hb hub
  rcases block_cases ht flags timeout seq ticks inputSeq with heq | ⟨wait, wakeAt, n, hn, hnw, heq⟩
  · rw [heq]
    exact h.congr (sleep_setTask ht { t with wakePending := false } rfl).same
  rw [heq]
  refine ⟨h.index.index ?_ rfl rfl, ?_⟩
  · intro p w a
    by_cases hp : p = pid
    · rw [hp, or_iff_left (hawake w a)]
      simp [Asleep, Sched.sleep, Task.sleep, eq_comm]
    · simp [Asleep, Sched.sleep, hp]
  · intro e he
    unfold indexBlocked at he
    dsimp only at he
    split_ifs at he with hbit
    · rcases (mem_insert ..).mp he with rfl | he
      · exact hnw hbit
      · exact le_trans hn (h.timer e he)
    · exact le_trans hn (h.timer e he)

/-! ### The other steps -/

/-- A write to fields the indexes do not depend on. -/
theorem Listed.setTask (h : Listed s) (ht : s.tasks pid = some t) (t' : Task) (hs : t'.sleep = t.sleep) :
    Listed (s.setTask pid t') :=
  h.congr (sleep_setTask ht t' hs).same

theorem Listed.setWaiters (h : Listed s) (key : Pid × Nat) (l : List Pid) :
    Listed (s.setWaiters key l) :=
  h.congr (SameSleep.same ⟨rfl, rfl, rfl, rfl⟩)

theorem Listed.interrupt (h : Listed s) (tid : Pid) : Listed (s.interrupt tid) := by
  unfold Sched.interrupt
  split
  next task htask =>
    split_ifs
    · refine Listed.makeRunnable ?_ tid
      exact h.setTask htask _ rfl
    · exact h
  next => exact h

theorem Listed.wakeOne (h : Listed s) (key : Pid × Nat) (tid : Pid) :
    Listed (wakeOne key s tid) := by
  unfold Sched.wakeOne
  have hw := h.setWaiters key (remove tid (s.futexWaiters key))
  dsimp only
  split
  next task htask =>
    have hset := hw.setTask htask { task with futex := 0, wakePending := true } rfl
    split_ifs
    · exact hset.makeRunnable tid
    · exact hset
  next => exact hw

theorem Listed.requeueOne {acc : Sched × Nat} (h : Listed acc.1) (leader : Pid)
    (source target : Nat) (tid : Pid) :
    Listed (requeueOne leader source target acc tid).1 := by
  unfold Sched.requeueOne
  dsimp only
  have hw := h.setWaiters (leader, source)
    (remove tid (acc.1.futexWaiters (leader, source)))
  split
  next task htask =>
    split_ifs
    · refine Listed.setWaiters ?_ _ _
      exact hw.setTask htask _ rfl
    · exact hw
  next => exact hw

theorem Listed.requeueFutex (h : Listed s) (leader : Pid) (source target count : Nat) :
    Listed (s.requeueFutex leader source target count).1 := by
  unfold Sched.requeueFutex
  split_ifs
  · exact h
  · exact foldlRecOn _ _ (motive := fun acc : Sched × Nat => Listed acc.1) h
      (fun acc hacc tid _ => hacc.requeueOne leader source target tid)

theorem Listed.setCurrentFutex (h : Listed s) (tid : Pid) (addr : Nat) :
    Listed (s.setCurrentFutex tid addr) := by
  unfold Sched.setCurrentFutex
  split
  next => exact h
  next task htask =>
    have hset := h.setTask htask { task with futex := addr } rfl
    dsimp only
    split_ifs
    · exact (hset.setWaiters _ _).setWaiters _ _
    · exact hset.setWaiters _ _
    · exact hset.setWaiters _ _
    · exact hset

theorem Listed.markKilled (h : Listed s) (code : Int) (tid : Pid) :
    Listed (s.markKilled code tid) := by
  unfold Sched.markKilled
  split
  next task htask => exact h.setTask htask _ rfl
  next => exact h

/-- `pick` keeps the indexes right and wakes whoever is due. -/
theorem Listed.pick (h : Listed s) (boostedAt : Nat) (pinned : Pid → Option Nat) (cpu : Nat)
    (l : Loads) : Listed (s.pick boostedAt pinned cpu l).1 := by
  refine Listed.congr ?_ (requeued_pick s boostedAt pinned cpu l).sleep.same
  unfold beforeBoost
  split_ifs
  · exact (h.rescanBlocked ..).1
  · exact h

theorem Listed.pick_due (h : Listed s) (hs : s.Asleep pid wait wakeAt)
    (hw : wait &&& waitTimer ≠ 0) (boostedAt : Nat) (pinned : Pid → Option Nat) (cpu : Nat)
    {l : Loads} (hdue : wakeAt ≤ l.ticks) (hload : l.ticks ≤ l.rescanTicks) :
    (s.pick boostedAt pinned cpu l).1.sleep pid = some ⟨.runnable, 0, wakeAt⟩ := by
  have htimer : (wakeAt, pid) ∈ s.timers := h.index.timers.mpr ⟨not_false, wait, hs, hw⟩
  have hnext : l.ticks ≥ s.nextTimer := le_trans (h.timer _ htimer) hdue
  rw [(requeued_pick s boostedAt pinned cpu l).sleep.sleep, beforeBoost, if_pos (.inl hnext)]
  exact (h.rescanBlocked ..).2 hs hw (le_trans hdue hload)

theorem sleep_dispatch (s : Sched) (next : Pid) (cpu : Nat) : SameSleep s (s.dispatch next cpu) := by
  unfold dispatch
  split
  next t ht =>
    split_ifs
    · exact sleep_setTask ht _ rfl
    · exact .refl s
  next => exact .refl s

/-! ### Wakeups -/

theorem mem_waiters {flag : Nat} :
    pid ∈ s.waiters flag ↔ ∃ b < waitKinds, flag.testBit b ∧ pid ∈ s.waiting b := by
  have hinner : ∀ (q l : List Pid), pid ∈ q.foldl (fun l p => OrdSet.insert (· ≤ ·) p l) l ↔
      pid ∈ q ∨ pid ∈ l := by
    intro q
    induction q with
    | nil => simp
    | cons p q ih =>
      intro l
      rw [foldl_cons, ih, mem_insert, mem_cons]
      tauto
  have houter : ∀ (bs : List Nat) (l : List Pid), pid ∈ bs.foldl (fun l b =>
      (s.waiting b).foldl (fun l p => OrdSet.insert (· ≤ ·) p l) l) l ↔
        (∃ b ∈ bs, pid ∈ s.waiting b) ∨ pid ∈ l := by
    intro bs
    induction bs with
    | nil => simp
    | cons b bs ih =>
      intro l
      rw [foldl_cons, ih, hinner]
      simp only [mem_cons, exists_eq_or_imp]
      rw [or_left_comm, or_assoc]
  rw [waiters, houter]
  simp [and_assoc]

/-- Every wait bit a sleeper shares with `flag` brings it into `waiters flag`, and past the
    test the wakeups make. -/
theorem Listed.mem_waiters (h : Listed s) (ht : s.tasks pid = some t) (hb : t.state = .blocked)
    {flag b : Nat} (hk : b < waitKinds) (hw : t.wait.testBit b) (hf : flag.testBit b) :
    pid ∈ s.waiters flag ∧ s.waitsFor flag pid := by
  have hmem : pid ∈ s.waiting b := (h.index.waiting hk).mpr
    ⟨t.wait, t.wakeAt, asleep_iff.mpr ⟨t, ht, hb, rfl, rfl⟩, hw⟩
  refine ⟨Sched.mem_waiters.mpr ⟨b, hk, hf, hmem⟩, ?_⟩
  have hne : t.wait &&& flag ≠ 0 := by
    intro h0
    have hbit := Nat.testBit_and t.wait flag b
    rw [h0, hw, hf] at hbit
    simp at hbit
  simp [waitsFor, ht, hb, hne]

/-- Whoever is on the list and is not dead is runnable after it. -/
theorem makeRunnables_runnable {l : List Pid} (hl : pid ∈ l) (ht : s.tasks pid = some t)
    (hb : t.state = .blocked) :
    ∃ t', (l.foldl makeRunnable s).tasks pid = some t' ∧ t'.state = .runnable := by
  have hsleep := makeRunnables_sleep l s pid
  rw [if_pos hl, sleep_some ht] at hsleep
  obtain ⟨t', ht', heq⟩ := Option.map_eq_some_iff.mp hsleep
  refine ⟨t', ht', ?_⟩
  have hstate := congrArg Sleep.state heq
  simpa [Task.sleep, Sleep.wake, hb] using hstate

end Sched

/-! ### Runs -/

namespace Smp

open Sched

variable {m m' : Smp}

theorem listed_adjusted (h : Listed m.sched) (cpu : Nat) (d : Advance) :
    Listed (m.adjusted cpu d) := by
  unfold Smp.adjusted
  split_ifs
  · exact h
  split
  next t ht => exact h.setTask ht _ rfl
  next => exact h

/-- `schedule` takes over what `pick` leaves. -/
theorem schedule_sleep (m : Smp) (cpu : Nat) (d : Advance) :
    SameSleep ((m.adjusted cpu d).pick m.boostedAt m.pinned cpu (m.loads d)).1
      (m.schedule cpu d).sched := by
  unfold Smp.schedule
  rcases (m.adjusted cpu d).pick m.boostedAt m.pinned cpu (m.loads d) with ⟨s, boostedAt, next⟩
  dsimp only
  split_ifs
  · exact .refl s
  · exact .refl s
  · exact sleep_dispatch s next cpu

theorem listed_schedule (h : Listed m.sched) (cpu : Nat) (d : Advance) :
    Listed (m.schedule cpu d).sched :=
  ((listed_adjusted h cpu d).pick ..).congr (schedule_sleep m cpu d).same

theorem removeTask_index {pid : Pid} {t : Task} (ht : m.sched.tasks pid = some t)
    (hb : t.state ≠ .blocked) : SameIndex m.sched (m.removeTask pid).sched := by
  rw [(removeTask_some ht).1]
  refine sameIndex_replace pid (o := none) ?_ ?_ rfl rfl rfl rfl
  · rintro u hu
    rw [ht] at hu
    cases hu
    exact hb
  · rintro _ ⟨⟩

theorem listed_finishSwitch (h : Listed m.sched) (cpu : Nat) : Listed (m.finishSwitch cpu).sched := by
  unfold Smp.finishSwitch
  dsimp only
  split_ifs with h0
  · exact h
  split
  next t ht =>
    have hset := h.setTask ht { t with onCpu := none } rfl
    split_ifs with hon hz hr
    · have hself : (m.sched.setTask (m.previous cpu) { t with onCpu := none }).tasks
          (m.previous cpu) = some { t with onCpu := none } := by simp
      refine hset.congr (removeTask_index
        (m := { m with
          sched := m.sched.setTask (m.previous cpu) { t with onCpu := none }
          previous := update m.previous cpu 0 }) hself ?_)
      simp [hz.1]
    · exact hset.congr (sleep_enqueue _ _).same
    · exact hset
    · exact h
  next => exact h

theorem listed_insertTask (h : Listed m.sched) (task : Task) (hnew : m.sched.tasks task.pid = none)
    (hs : task.state = .runnable) (parent : Pid) (kernelThread : Bool) (pinned : Option Nat) :
    Listed (m.insertTask task parent kernelThread pinned).sched := by
  have hin : Listed (m.sched.setTask task.pid task) := by
    refine h.congr (sameIndex_replace task.pid ?_ ?_ rfl rfl rfl rfl)
    · intro t ht
      rw [hnew] at ht
      cases ht
    · rintro _ ⟨⟩
      rw [hs]
      decide
  exact hin.congr (sleep_enqueue (m.sched.setTask task.pid task) task.pid).same

theorem listed_exit (h : Listed m.sched) {pid : Pid} {t : Task} (ht : m.sched.tasks pid = some t)
    (hs : t.state = .runnable) : Listed (m.exit pid).sched := by
  have hsched : (m.exit pid).sched = m.sched.setTask pid { t with state := .zombie, queued := false } := by
    simp [Smp.exit, ht]
  rw [hsched]
  refine h.congr (sameIndex_replace pid ?_ ?_ rfl rfl rfl rfl)
  · intro u hu
    rw [ht] at hu
    cases hu
    rw [hs]
    decide
  · rintro _ ⟨⟩
    simp

/-- Every step keeps the indexes right. -/
theorem listed_step (h : Listed m.sched) {e : Event} (he : m.step e = some m') : Listed m'.sched := by
  cases e with
  | insert pid leader parent sigMask kernelThread pinned =>
    simp only [Smp.step] at he
    split_ifs at he with hpid
    cases he
    exact listed_insertTask h (Task.fresh pid leader sigMask) hpid rfl ..
  | schedule cpu d =>
    simp only [Smp.step] at he
    split_ifs at he
    cases he
    exact listed_schedule h cpu d
  | finishSwitch cpu =>
    cases he
    exact listed_finishSwitch h cpu
  | block cpu flags timeout seq =>
    obtain ⟨t, hrun, rfl⟩ := Option.map_eq_some_iff.mp he
    obtain ⟨-, -, ht, hs⟩ := running_some hrun
    exact h.block ht (by rw [hs]; decide) ..
  | makeRunnable pid =>
    cases he
    exact h.makeRunnable pid
  | wake pid flag =>
    cases he
    exact h.makeRunnables _
  | wakeTask tid flag =>
    cases he
    show Listed (m.sched.wakeTask tid flag)
    unfold Sched.wakeTask
    split_ifs
    · exact h.makeRunnable tid
    · exact h
  | wakeAll flag =>
    cases he
    exact h.makeRunnables _
  | interrupt tid =>
    cases he
    exact h.interrupt tid
  | wakeFutex leader addr count =>
    cases he
    exact foldlRecOn _ _ h (fun s hs tid _ => hs.wakeOne (leader, addr) tid)
  | requeueFutex leader source target count =>
    cases he
    exact h.requeueFutex ..
  | setCurrentFutex cpu addr =>
    obtain ⟨t, -, rfl⟩ := Option.map_eq_some_iff.mp he
    exact h.setCurrentFutex ..
  | kill pid code =>
    cases he
    unfold Smp.kill
    split
    next t ht =>
      split_ifs
      · exact h
      · exact foldlRecOn _ _ h
          (fun s hs tid _ => (hs.markKilled code tid).makeRunnable tid)
    next => exact h
  | stopOthers pid =>
    cases he
    exact foldlRecOn _ _ h (fun s hs tid _ => hs.markKilled 0 tid)
  | disown pid =>
    cases he
    exact h
  | detach pid =>
    cases he
    exact h
  | exit cpu =>
    obtain ⟨t, hrun, rfl⟩ := Option.map_eq_some_iff.mp he
    obtain ⟨-, -, ht, hs⟩ := running_some hrun
    exact listed_exit h ht hs
  | reap pid =>
    simp only [Smp.step] at he
    split at he
    next t ht =>
      split_ifs at he with hz
      cases he
      exact h.congr (removeTask_index ht (by rw [hz.1]; decide))
    next => cases he
  | signals tid mask pending =>
    simp only [Smp.step] at he
    split at he
    next t ht =>
      cases he
      exact h.setTask ht _ rfl
    next => cases he
  | tick n =>
    cases he
    exact h
  | notifyInput =>
    cases he
    exact h

theorem Boot.listed (h : Boot m) : Listed m.sched := by
  obtain ⟨ht, -, htm, hw, -⟩ := h
  have hno : ∀ p w a, ¬ m.sched.Asleep p w a := by
    intro p w a hs
    rw [Asleep, Sched.sleep, ht] at hs
    by_cases hp : p = 0 <;> simp [hp, Task.sleep, Task.fresh] at hs
  refine ⟨⟨?_, ?_, ?_⟩, ?_⟩
  · intro b p _
    simp [hw, hno]
  · intro a p
    simp [htm, hno]
  · rw [htm]
    exact List.Pairwise.nil
  · intro e he
    simp [htm] at he

theorem Reachable.listed (h : Reachable m) : Listed m.sched :=
  Reach.invariant (fun _ => Boot.listed) (fun _ _ _ hi _ he => listed_step hi he) h

/-- The task is runnable. -/
def Runs (m : Smp) (pid : Pid) : Prop := ∃ t, m.sched.tasks pid = some t ∧ t.state = .runnable

/-- A schedule at or after the time a task is to be woken makes it runnable. -/
theorem due_runs (h : Listed m.sched) {pid : Pid} {t : Task} (ht : m.sched.tasks pid = some t)
    (hb : t.state = .blocked) (hw : t.wait &&& waitTimer ≠ 0) {cpu : Nat} {d : Advance}
    (hdue : t.wakeAt ≤ (m.loads d).ticks) : (m.schedule cpu d).Runs pid := by
  have hadj : (m.adjusted cpu d).Asleep pid t.wait t.wakeAt := by
    have hsame : SameSleep m.sched (m.adjusted cpu d) := by
      unfold Smp.adjusted
      split_ifs
      · exact .refl _
      split
      next u hu => exact sleep_setTask hu _ rfl
      next => exact .refl _
    exact (hsame.same.asleep ..).mpr (asleep_iff.mpr ⟨t, ht, hb, rfl, rfl⟩)
  have hload : (m.loads d).ticks ≤ (m.loads d).rescanTicks := Nat.le_add_right _ _
  have hpick := (listed_adjusted h cpu d).pick_due hadj hw m.boostedAt m.pinned cpu hdue hload
  rw [← (schedule_sleep m cpu d).sleep] at hpick
  obtain ⟨u, hu, heq⟩ := Option.map_eq_some_iff.mp hpick
  exact ⟨u, hu, congrArg Sleep.state heq⟩

end Smp

end HamixOS.Kernel

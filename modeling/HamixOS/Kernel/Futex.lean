import HamixOS.Kernel.Sched
import HamixOS.Lib.Machine
import Mathlib.Data.List.TakeWhile

namespace HamixOS.Kernel

open Lib Function Option List OrdSet

/-!
# Futexes: `futex_block`, `wake_futex`, `requeue_futex`

`futex_block` (`kernel/src/syscall/base.rs`) registers the thread in
`futex_waiters[(leader, addr)]` once and then sleeps in slices of at most `TICK_HZ`
ticks; `make_runnable` takes a thread out of that set on *every* wakeup.

* `Sched.setCurrentFutex`, `Sched.wakeFutex`, `Sched.requeueFutex` — the three operations
  on the futex sets (`kernel/src/task/mod.rs`);
* `Pc`, `System`, `System.step` — any number of threads, each at some point of
  `futex_block` or outside it, with the clock, timer expiries, signals and the other
  blocking calls as further steps;
* `NoLostWakeup` — a thread that waits is registered, so a wake of all waiters reaches
  it, and whoever is registered is alive and waits on that word;
* `noLostWakeup_of_calm` — this holds in every state of a run in which no slice of an
  unfinished wait runs out; `slice_loses_wakeup` — one slice that runs out breaks it.
-/

namespace Sched

/-- `set_current_futex(addr)` for the current thread `tid`. -/
def setCurrentFutex (s : Sched) (tid : Pid) (addr : Nat) : Sched :=
  match s.tasks tid with
  | none => s
  | some task =>
    let key := (task.leader, task.futex)
    let s := s.setTask tid { task with futex := addr }
    let s := if key.2 ≠ 0 then s.setWaiters key (OrdSet.remove tid (s.futexWaiters key)) else s
    if addr ≠ 0 then
      s.setWaiters (task.leader, addr)
        (OrdSet.insert (· ≤ ·) tid (s.futexWaiters (task.leader, addr)))
    else s

/-- The body of `wake_futex`'s loop for one target. -/
def wakeOne (key : Pid × Nat) (s : Sched) (tid : Pid) : Sched :=
  let s := s.setWaiters key (OrdSet.remove tid (s.futexWaiters key))
  match s.tasks tid with
  | some task =>
    let s := s.setTask tid { task with futex := 0, wakePending := true }
    if task.state = .blocked then s.makeRunnable tid else s
  | none => s

/-- `wake_futex`: the state after it and the number of threads woken. -/
def wakeFutex (s : Sched) (leader : Pid) (addr count : Nat) : Sched × Nat :=
  let targets := (s.futexWaiters (leader, addr)).take count
  (targets.foldl (wakeOne (leader, addr)) s, targets.length)

/-- The body of `requeue_futex`'s loop for one target, with the count of moved threads. -/
def requeueOne (leader : Pid) (source target : Nat) (acc : Sched × Nat) (tid : Pid) :
    Sched × Nat :=
  let (s, moved) := acc
  let s := s.setWaiters (leader, source) (OrdSet.remove tid (s.futexWaiters (leader, source)))
  match s.tasks tid with
  | some task =>
    if task.leader = leader ∧ task.futex = source ∧ task.state ≠ .zombie then
      let s := s.setTask tid { task with futex := target }
      (s.setWaiters (leader, target)
        (OrdSet.insert (· ≤ ·) tid (s.futexWaiters (leader, target))), moved + 1)
    else (s, moved)
  | none => (s, moved)

/-- `requeue_futex`: the state after it and the number of threads moved. -/
def requeueFutex (s : Sched) (leader : Pid) (source target count : Nat) : Sched × Nat :=
  if source = target ∨ count = 0 then (s, 0)
  else
    ((s.futexWaiters (leader, source)).take count).foldl (requeueOne leader source target) (s, 0)

end Sched

/-! ### Threads inside `futex_block` -/

/-- Where a thread stands in `futex_block(addr, deadline)`; `user` is anywhere else. -/
inductive Pc where
  | user
  /-- At the head of the loop, before the test `t.futex == addr`. -/
  | check (addr : Nat) (deadline : Option Nat)
  /-- Before the test of pending signals. -/
  | signal (addr : Nat) (deadline : Option Nat)
  /-- Before the clock is read and compared with the deadline. -/
  | clock (addr : Nat) (deadline : Option Nat)
  /-- Before `block` with the slice computed. -/
  | park (addr : Nat) (deadline : Option Nat) (slice : Nat)
  /-- Inside `block`. -/
  | parked (addr : Nat) (deadline : Option Nat)
  /-- About to call `set_current_futex(0)` and to return `EINTR` or `ETIMEDOUT`. -/
  | leave
  deriving DecidableEq

/-- The deadline of a wait that has not been given up; `none` outside the loop. -/
def Pc.waiting : Pc → Option (Option Nat)
  | .check _ d | .signal _ d | .clock _ d | .park _ d _ | .parked _ d => some d
  | .user | .leave => none

/-- The scheduler, the two clocks, and the threads.  `interrupted` remembers the threads
    whose sleep an interrupt ended since they entered `futex_block`. -/
structure System where
  sched : Sched
  ticks : Nat
  inputSeq : Nat
  pc : Pid → Pc
  interrupted : Pid → Bool

inductive Act where
  /-- `futex_block(addr, deadline)` is called; its callers have read the word at `addr`. -/
  | enter (tid : Pid) (addr : Nat) (deadline : Option Nat)
  /-- The thread takes its next step in `futex_block`. -/
  | run (tid : Pid)
  /-- A thread outside `futex_block` calls `block`. -/
  | sleep (tid : Pid) (flags : Nat) (timeout : Option Nat)
  | wake (leader : Pid) (addr count : Nat)
  | requeue (leader : Pid) (source target count : Nat)
  /-- Time passes. -/
  | tick (n : Nat)
  | rescan
  /-- `notify_input`. -/
  | input
  /-- A signal is queued for `tid`, which interrupts its sleep. -/
  | queue (tid : Pid) (sig : BitVec 64)
  /-- A thread outside `futex_block` takes its signals or changes its mask. -/
  | signals (tid : Pid) (mask pending : BitVec 64)
  deriving DecidableEq

/-- The test of `signal::pending` on one thread. -/
def Task.signalPending (t : Task) : Prop :=
  t.sigPending &&& ~~~(t.sigMask &&& ~~~unblockable) ≠ 0

instance (t : Task) : Decidable t.signalPending :=
  inferInstanceAs (Decidable (t.sigPending &&& ~~~(t.sigMask &&& ~~~unblockable) ≠ 0))

/-- The length of one sleep: the time left, at least 1 and at most `TICK_HZ` ticks. -/
def sliceOf (deadline : Option Nat) (now : Nat) : Nat :=
  min (max ((deadline.map (· - now)).getD tickHz) 1) tickHz

namespace System

def setPc (k : System) (tid : Pid) (pc : Pc) : System :=
  { k with pc := Function.update k.pc tid pc }

/-- The next step of a thread that is on a CPU; `check_killed` ends a killed thread. -/
def runThread (k : System) (tid : Pid) (task : Task) : Option System :=
  match k.pc tid with
  | .user => none
  | .check addr d => some (k.setPc tid (if task.futex = addr then .signal addr d else .user))
  | .signal addr d => some (k.setPc tid (if task.signalPending then .leave else .clock addr d))
  | .clock addr d =>
    if d.any (fun d => decide (d ≤ k.ticks)) then some (k.setPc tid .leave)
    else some (k.setPc tid (.park addr d (sliceOf d k.ticks)))
  | .park addr d slice =>
    some { k.setPc tid (.parked addr d) with
      sched := k.sched.block tid waitFutex (some slice) k.inputSeq k.ticks k.inputSeq }
  | .parked addr d => if task.killed.isSome then none else some (k.setPc tid (.check addr d))
  | .leave => some { k.setPc tid .user with sched := k.sched.setCurrentFutex tid 0 }

def step (k : System) : Act → Option System
  | .enter tid addr d =>
    match k.sched.tasks tid with
    | some task =>
      if task.state = .runnable ∧ k.pc tid = .user ∧ addr ≠ 0 then
        some { k.setPc tid (.check addr d) with
          sched := k.sched.setCurrentFutex tid addr
          interrupted := Function.update k.interrupted tid false }
      else none
    | none => none
  | .run tid =>
    match k.sched.tasks tid with
    | some task => if task.state = .runnable then k.runThread tid task else none
    | none => none
  | .sleep tid flags timeout =>
    match k.sched.tasks tid with
    | some task =>
      if task.state = .runnable ∧ k.pc tid = .user then
        some { k with sched := k.sched.block tid flags timeout k.inputSeq k.ticks k.inputSeq }
      else none
    | none => none
  | .wake leader addr count => some { k with sched := (k.sched.wakeFutex leader addr count).1 }
  | .requeue leader source target count =>
    some { k with sched := (k.sched.requeueFutex leader source target count).1 }
  | .tick n => some { k with ticks := k.ticks + n }
  | .rescan => some { k with sched := k.sched.rescanBlocked k.ticks k.inputSeq }
  | .input => some { k with inputSeq := k.inputSeq + 1 }
  | .queue tid sig =>
    match k.sched.tasks tid with
    | some task =>
      some { k with
        sched := (k.sched.setTask tid { task with sigPending := task.sigPending ||| sig }).interrupt
          tid
        interrupted :=
          if task.state = .blocked then Function.update k.interrupted tid true
          else k.interrupted }
    | none => none
  | .signals tid mask pending =>
    match k.sched.tasks tid with
    | some task =>
      if k.pc tid = .user then
        some { k with
          sched := k.sched.setTask tid { task with sigMask := mask, sigPending := pending } }
      else none
    | none => none

/-- Nobody waits yet, and every task is alive. -/
def Init (k : System) : Prop :=
  (∀ key, k.sched.futexWaiters key = []) ∧ (∀ tid, k.pc tid = .user) ∧
    ∀ tid t, k.sched.tasks tid = some t → t.state ≠ .zombie

/-- The deadline, if there is one, has passed. -/
def expired (k : System) (d : Option Nat) : Prop := ∃ t, d = some t ∧ t ≤ k.ticks

/-- `tid` is inside `futex_block`, waits on `addr`, and has neither been woken nor timed
    out nor been interrupted. -/
def Waits (k : System) (tid : Pid) (leader : Pid) (addr : Nat) : Prop :=
  ∃ t d, k.sched.tasks tid = some t ∧ (k.pc tid).waiting = some d ∧ t.leader = leader ∧
    t.futex = addr ∧ addr ≠ 0 ∧ ¬ k.expired d ∧ k.interrupted tid = false

/-- A wake of `count` waiters on `addr` reaches `tid`: it is no longer registered as
    waiting and it is not blocked. -/
def WokenBy (k : System) (tid leader : Pid) (addr count : Nat) : Prop :=
  ∃ t, (k.sched.wakeFutex leader addr count).1.tasks tid = some t ∧ t.futex = 0 ∧
    t.state ≠ .blocked

/-- No wakeup is lost: whoever waits is registered, so that a wake of at least as many
    threads as are registered reaches it, and whoever is registered is a live task that
    waits on that word. -/
def NoLostWakeup (k : System) : Prop :=
  (∀ tid leader addr, k.Waits tid leader addr →
    tid ∈ k.sched.futexWaiters (leader, addr) ∧
      ∀ n, (k.sched.futexWaiters (leader, addr)).length ≤ n → k.WokenBy tid leader addr n) ∧
  ∀ tid leader addr, tid ∈ k.sched.futexWaiters (leader, addr) →
    ∃ t, k.sched.tasks tid = some t ∧ t.state ≠ .zombie ∧ t.futex = addr

end System

/-! ### The registered threads -/

namespace Sched

/-- Whoever is registered is a live task of that process that waits on that word. -/
def Members (s : Sched) : Prop :=
  ∀ tid leader addr, tid ∈ s.futexWaiters (leader, addr) →
    addr ≠ 0 ∧ ∃ t, s.tasks tid = some t ∧ t.leader = leader ∧ t.futex = addr ∧
      t.state ≠ .zombie

/-- From `s` to `s'` the task `tid` neither dies nor is put to sleep, and a sleep it is
    in goes on unchanged. -/
def SleepKept (s s' : Sched) (tid : Pid) : Prop :=
  ∀ t', s'.tasks tid = some t' → ∃ t, s.tasks tid = some t ∧
    (t'.state = .blocked → t.state = .blocked ∧ t'.wait = t.wait) ∧
    (t'.state = .zombie → t.state = .zombie)

/-- From `s` to `s'` a registered task `tid` that goes on waiting stays registered. -/
def WaitKept (s s' : Sched) (tid : Pid) : Prop :=
  ∀ t', s'.tasks tid = some t' → t'.futex ≠ 0 → ∃ t, s.tasks tid = some t ∧ t.futex ≠ 0 ∧
    (tid ∈ s.futexWaiters (t.leader, t.futex) → tid ∈ s'.futexWaiters (t'.leader, t'.futex))

theorem SleepKept.refl (s : Sched) (tid : Pid) : SleepKept s s tid :=
  fun t' h => ⟨t', h, fun hb => ⟨hb, rfl⟩, id⟩

theorem WaitKept.refl (s : Sched) (tid : Pid) : WaitKept s s tid :=
  fun t' h hf => ⟨t', h, hf, id⟩

variable {tid : Pid}

theorem SleepKept.trans {s s' s'' : Sched} (h : SleepKept s s' tid)
    (h' : SleepKept s' s'' tid) : SleepKept s s'' tid := by
  intro t'' ht''
  obtain ⟨t', ht', hb', hz'⟩ := h' t'' ht''
  obtain ⟨t, ht, hb, hz⟩ := h t' ht'
  refine ⟨t, ht, fun hblocked => ?_, fun hzombie => hz (hz' hzombie)⟩
  obtain ⟨h1, h2⟩ := hb' hblocked
  obtain ⟨h3, h4⟩ := hb h1
  exact ⟨h3, h2.trans h4⟩

theorem WaitKept.trans {s s' s'' : Sched} (h : WaitKept s s' tid)
    (h' : WaitKept s' s'' tid) : WaitKept s s'' tid := by
  intro t'' ht'' hf''
  obtain ⟨t', ht', hf', hm'⟩ := h' t'' ht'' hf''
  obtain ⟨t, ht, hf, hm⟩ := h t' ht' hf'
  exact ⟨t, ht, hf, fun hin => hm' (hm hin)⟩

variable {pid : Pid} {s : Sched}

/-- A write to a live task that keeps its process and its futex word. -/
theorem Members.setTask (h : Members s) {t : Task} (t' : Task)
    (ht : s.tasks pid = some t) (hl : t'.leader = t.leader) (hf : t'.futex = t.futex)
    (hz : t'.state ≠ .zombie) : Members (s.setTask pid t') := by
  intro tid leader addr hin
  obtain ⟨ha, u, hu, hul, huf, huz⟩ := h tid leader addr hin
  by_cases htid : tid = pid
  · subst htid
    rw [ht] at hu
    cases hu
    exact ⟨ha, t', by simp, hl.trans hul, hf.trans huf, hz⟩
  · exact ⟨ha, u, by simpa [htid] using hu, hul, huf, huz⟩

/-! ### `make_runnable` and `rescan_blocked` -/

theorem Members.makeRunnable (h : Members s) (pid : Pid) :
    Members (s.makeRunnable pid) := by
  intro tid leader addr hin
  obtain ⟨ha, t, ht, hl, hf, hz⟩ :=
    h tid leader addr ((mem_makeRunnable_futexWaiters s pid tid _).1 hin)
  obtain ⟨t', ht'⟩ := makeRunnable_isSome s pid tid t ht
  obtain ⟨u, hu, hlead, hfut, hzom, -⟩ := makeRunnable_some s pid tid t' ht'
  rw [ht] at hu
  cases hu
  exact ⟨ha, t', ht', hlead.trans hl, hfut.trans hf, fun hc => hz (hzom.mp hc)⟩

theorem sleepKept_makeRunnable (s : Sched) (pid tid : Pid) :
    SleepKept s (s.makeRunnable pid) tid := by
  intro t' ht'
  obtain ⟨t, ht, -, -, hz, -, hb⟩ := makeRunnable_some s pid tid t' ht'
  refine ⟨t, ht, fun hblocked => ?_, hz.mp⟩
  have heq := hb hblocked
  constructor
  · rw [heq] at hblocked; exact hblocked
  · rw [heq]

theorem waitKept_makeRunnable (s : Sched) {pid tid : Pid} (hne : tid ≠ pid) :
    WaitKept s (s.makeRunnable pid) tid := by
  intro t' ht' hf
  obtain ⟨t, ht, hlead, hfut, -⟩ := makeRunnable_some s pid tid t' ht'
  refine ⟨t, ht, hfut ▸ hf, fun hin => ?_⟩
  rw [hlead, hfut]
  exact (mem_makeRunnable_futexWaiters s pid tid _).2 hne hin

/-- What waking the tasks `woken` keeps: the members, every sleep that is not ended,
    every futex word, and the registration of the tasks outside `woken`. -/
def WakeKept (s s' : Sched) (woken : List Pid) : Prop :=
  Members s' ∧ (∀ tid, SleepKept s s' tid) ∧
    (∀ tid t', s'.tasks tid = some t' → ∃ t, s.tasks tid = some t ∧ t'.futex = t.futex) ∧
    ∀ tid, tid ∉ woken → WaitKept s s' tid

theorem foldl_makeRunnable (woken : List Pid) (s : Sched) (h : Members s) :
    WakeKept s (woken.foldl Sched.makeRunnable s) woken := by
  induction woken generalizing s with
  | nil => exact ⟨h, SleepKept.refl s, fun _ t' ht' => ⟨t', ht', rfl⟩, fun tid _ => WaitKept.refl s tid⟩
  | cons pid rest ih =>
    obtain ⟨hm, hs, hf, hw⟩ := ih (s.makeRunnable pid) (h.makeRunnable pid)
    refine ⟨hm, fun tid => (sleepKept_makeRunnable s pid tid).trans (hs tid), ?_, ?_⟩
    · intro tid t'' ht''
      obtain ⟨t', ht', hf'⟩ := hf tid t'' ht''
      obtain ⟨t, ht, -, hf, -⟩ := makeRunnable_some s pid tid t' ht'
      exact ⟨t, ht, hf'.trans hf⟩
    · intro tid hnot
      rw [mem_cons, not_or] at hnot
      exact (waitKept_makeRunnable s hnot.1).trans (hw tid hnot.2)

/-- The tasks one `rescan_blocked` wakes. -/
def rescanned (s : Sched) (now seq : Nat) : List Pid :=
  s.timedOut (s.timers.takeWhile (fun e => e.1 ≤ now)) ++
    if seq ≠ s.scannedInput then s.sawInput seq else []

/-- A task that `rescan_blocked` wakes slept, and its time was over or it waited for
    input. -/
theorem rescanned_blocked {now seq : Nat}
    (h : tid ∈ s.rescanned now seq) :
    ∃ t, s.tasks tid = some t ∧ t.state = .blocked ∧
      (t.wakeAt ≤ now ∨ t.wait &&& waitInput ≠ 0) := by
  unfold rescanned at h
  rw [mem_append] at h
  rcases h with htime | hinput
  · unfold timedOut at htime
    rw [mem_filterMap] at htime
    obtain ⟨e, he, hsome⟩ := htime
    have hle := mem_takeWhile_imp he
    cases ht : s.tasks e.2 with
    | none => simp [ht] at hsome
    | some t =>
      simp only [ht] at hsome
      split_ifs at hsome with hc
      cases hsome
      exact ⟨t, ht, hc.1, .inl (by rw [hc.2.2]; simpa using hle)⟩
  · split_ifs at hinput with hseq
    · unfold sawInput at hinput
      rw [mem_filter] at hinput
      cases ht : s.tasks tid with
      | none => simp [ht] at hinput
      | some t =>
        simp only [ht, decide_eq_true_eq] at hinput
        exact ⟨t, rfl, hinput.2.1, .inr hinput.2.2.1⟩
    · exact absurd hinput (by simp)

/-- `rescan_blocked` wakes the tasks of `rescanned`; its other writes are to the timer
    queue and to the input mark. -/
theorem rescanBlocked_spec (s : Sched) (h : Members s) (now seq : Nat) :
    WakeKept s (s.rescanBlocked now seq) (s.rescanned now seq) := by
  unfold rescanBlocked rescanned
  by_cases hseq : seq ≠ s.scannedInput
  · simp only [if_pos hseq]
    exact foldl_makeRunnable _ { s with
      timers := s.timers.dropWhile (fun e => e.1 ≤ now), scannedInput := seq } h
  · simp only [if_neg hseq, List.append_nil]
    exact foldl_makeRunnable _ { s with timers := s.timers.dropWhile (fun e => e.1 ≤ now) } h

/-! ### `wake_futex` -/

theorem mem_unregistered (s : Sched) (key key' : Pid × Nat) (pid tid : Pid) :
    tid ∈ (s.setWaiters key (remove pid (s.futexWaiters key))).futexWaiters key' ↔
      tid ∈ s.futexWaiters key' ∧ ¬ (key' = key ∧ tid = pid) := by
  by_cases h : key' = key
  · subst h; simp
  · simp [h]

theorem mem_registered (s : Sched) (key key' : Pid × Nat) (pid tid : Pid) :
    tid ∈ (s.setWaiters key (insert (· ≤ ·) pid (s.futexWaiters key))).futexWaiters key' ↔
      tid ∈ s.futexWaiters key' ∨ (key' = key ∧ tid = pid) := by
  by_cases h : key' = key
  · subst h
    simp [or_comm]
  · simp [h]

/-- What `wake_futex` does to its target before it decides whether to wake it. -/
def cleared (s : Sched) (key : Pid × Nat) (pid : Pid) (task : Task) : Sched :=
  (s.setWaiters key (OrdSet.remove pid (s.futexWaiters key))).setTask pid
    { task with futex := 0, wakePending := true }

variable {key : Pid × Nat} {task : Task}

theorem wakeOne_of_some (h : s.tasks pid = some task) :
    s.wakeOne key pid
      = if task.state = .blocked then (s.cleared key pid task).makeRunnable pid
        else s.cleared key pid task := by
  simp [wakeOne, h, cleared]

/-- A target of `wake_futex` that is registered nowhere else is registered nowhere after
    its word was cleared. -/
theorem Members.cleared (h : Members s)
    (hkey : ∀ key', pid ∈ s.futexWaiters key' → key' = key) :
    Members (s.cleared key pid task) := by
  intro tid leader addr hin
  obtain ⟨hold, hne⟩ := (mem_unregistered s key (leader, addr) pid tid).mp hin
  have htid : tid ≠ pid := by
    rintro rfl
    exact hne ⟨hkey _ hold, rfl⟩
  obtain ⟨ha, t, ht, hrest⟩ := h tid leader addr hold
  exact ⟨ha, t, by simpa [Sched.cleared, htid] using ht, hrest⟩

theorem waitKept_cleared (s : Sched) (key : Pid × Nat) (pid tid : Pid) (task : Task) :
    WaitKept s (s.cleared key pid task) tid := by
  intro t' ht' hf
  by_cases htid : tid = pid
  · subst htid
    simp only [cleared, setTask_tasks, update_self, some.injEq] at ht'
    subst ht'
    exact absurd rfl hf
  · have ht : s.tasks tid = some t' := by simpa [cleared, htid] using ht'
    refine ⟨t', ht, hf, fun hin => ?_⟩
    exact (mem_unregistered s key _ pid tid).mpr ⟨hin, fun hc => htid hc.2⟩

theorem sleepKept_cleared (h : s.tasks pid = some task) (tid : Pid) : SleepKept s (s.cleared key pid task) tid := by
  intro t' ht'
  by_cases htid : tid = pid
  · subst htid
    simp only [cleared, setTask_tasks, update_self, some.injEq] at ht'
    subst ht'
    exact ⟨task, h, fun hb => ⟨hb, rfl⟩, id⟩
  · have ht : s.tasks tid = some t' := by simpa [cleared, htid] using ht'
    exact ⟨t', ht, fun hb => ⟨hb, rfl⟩, id⟩

/-- `tid` is no longer registered as waiting and does not sleep. -/
def Woken (s : Sched) (tid : Pid) : Prop :=
  ∃ t, s.tasks tid = some t ∧ t.futex = 0 ∧ t.state ≠ .blocked

theorem Woken.makeRunnable (h : Woken s tid) (pid : Pid) :
    Woken (s.makeRunnable pid) tid := by
  obtain ⟨t, ht, hf, hb⟩ := h
  obtain ⟨t', ht'⟩ := makeRunnable_isSome s pid tid t ht
  obtain ⟨u, hu, -, hfut, -, -, hsame⟩ := makeRunnable_some s pid tid t' ht'
  rw [ht] at hu
  cases hu
  refine ⟨t', ht', hfut.trans hf, fun hc => hb ?_⟩
  have heq := hsame hc
  rw [heq] at hc
  exact hc

theorem Woken.wakeOne (h : Woken s tid) (key : Pid × Nat) (pid : Pid) :
    Woken (s.wakeOne key pid) tid := by
  obtain ⟨t, ht, hf, hb⟩ := h
  cases hpid : s.tasks pid with
  | none => simpa [Sched.wakeOne, hpid, Woken] using ⟨t, ht, hf, hb⟩
  | some task =>
    have hclear : Woken (s.cleared key pid task) tid := by
      by_cases htid : tid = pid
      · subst htid
        rw [ht] at hpid
        cases hpid
        exact ⟨{ t with futex := 0, wakePending := true }, by simp [cleared], rfl, hb⟩
      · exact ⟨t, by simpa [cleared, htid] using ht, hf, hb⟩
    rw [wakeOne_of_some hpid]
    split_ifs
    · exact hclear.makeRunnable pid
    · exact hclear

/-- The target of one iteration of `wake_futex` is woken by it. -/
theorem woken_wakeOne (h : s.tasks pid = some task) : Woken (s.wakeOne key pid) pid := by
  rw [wakeOne_of_some h]
  have hclear : (s.cleared key pid task).tasks pid
      = some { task with futex := 0, wakePending := true } := by simp [cleared]
  split_ifs with hb
  · obtain ⟨t', ht'⟩ := makeRunnable_isSome _ pid pid _ hclear
    obtain ⟨u, hu, -, hfut, -⟩ := makeRunnable_some _ pid pid t' ht'
    rw [hclear] at hu
    cases hu
    exact ⟨t', ht', hfut, makeRunnable_self _ pid t' ht'⟩
  · exact ⟨_, hclear, rfl, hb⟩

theorem wakeOne_spec (h : Members s)
    (hkey : ∀ key', pid ∈ s.futexWaiters key' → key' = key) :
    Members (s.wakeOne key pid) ∧ (∀ tid, SleepKept s (s.wakeOne key pid) tid) ∧
      (∀ tid, WaitKept s (s.wakeOne key pid) tid) ∧
      ∀ tid key', tid ∈ (s.wakeOne key pid).futexWaiters key' → tid ∈ s.futexWaiters key' := by
  cases hpid : s.tasks pid with
  | none =>
    -- a registered thread has a task, so nothing but the set can change here
    have hout : ∀ key', pid ∉ s.futexWaiters key' := by
      intro key' hin
      obtain ⟨-, t, ht, -⟩ := h pid key'.1 key'.2 hin
      rw [hpid] at ht
      cases ht
    have hmem : ∀ tid key', tid ∈ (s.wakeOne key pid).futexWaiters key' ↔
        tid ∈ s.futexWaiters key' := by
      intro tid key'
      have heq : (s.wakeOne key pid).futexWaiters
          = (s.setWaiters key (remove pid (s.futexWaiters key))).futexWaiters := by
        simp [wakeOne, hpid]
      rw [heq, mem_unregistered]
      refine ⟨fun hc => hc.1, fun hc => ⟨hc, ?_⟩⟩
      rintro ⟨rfl, rfl⟩
      exact hout _ hc
    have htasks : (s.wakeOne key pid).tasks = s.tasks := by simp [wakeOne, hpid]
    refine ⟨?_, ?_, ?_, fun tid key' => (hmem tid key').mp⟩
    · intro tid leader addr hin
      rw [htasks]
      exact h tid leader addr ((hmem _ _).mp hin)
    · intro tid t' ht'
      rw [htasks] at ht'
      exact ⟨t', ht', fun hb => ⟨hb, rfl⟩, id⟩
    · intro tid t' ht' hf
      rw [htasks] at ht'
      exact ⟨t', ht', hf, (hmem _ _).mpr⟩
  | some task =>
    have hclear : Members (s.cleared key pid task) := h.cleared hkey
    have hsub : ∀ tid key', tid ∈ (s.cleared key pid task).futexWaiters key' → tid ∈ s.futexWaiters key' :=
      fun tid key' hin => ((mem_unregistered s key key' pid tid).mp hin).1
    rw [wakeOne_of_some hpid]
    split_ifs with hb
    · refine ⟨hclear.makeRunnable pid, ?_, ?_, ?_⟩
      · intro tid
        exact (sleepKept_cleared hpid tid).trans (sleepKept_makeRunnable _ pid tid)
      · intro tid
        by_cases htid : tid = pid
        · subst htid
          intro t' ht' hf
          obtain ⟨u, hu, -, hfut, -⟩ := makeRunnable_some _ tid tid t' ht'
          simp only [cleared, setTask_tasks, update_self, some.injEq] at hu
          subst hu
          exact absurd hfut hf
        · exact (waitKept_cleared s key pid tid task).trans (waitKept_makeRunnable _ htid)
      · intro tid key' hin
        exact hsub tid key' ((mem_makeRunnable_futexWaiters _ pid tid key').1 hin)
    · exact ⟨hclear, sleepKept_cleared hpid, fun tid => waitKept_cleared s key pid tid task, hsub⟩

/-- The whole loop of `wake_futex`, over targets registered nowhere else. -/
theorem foldl_wakeOne (key : Pid × Nat) (targets : List Pid) (s : Sched) (h : Members s)
    (hkey : ∀ pid ∈ targets, ∀ key', pid ∈ s.futexWaiters key' → key' = key) :
    Members (targets.foldl (wakeOne key) s) ∧ (∀ tid, SleepKept s (targets.foldl (wakeOne key) s) tid) ∧
      (∀ tid, WaitKept s (targets.foldl (wakeOne key) s) tid) := by
  induction targets generalizing s with
  | nil => exact ⟨h, SleepKept.refl s, WaitKept.refl s⟩
  | cons pid rest ih =>
    obtain ⟨hm, hs, hw, hsub⟩ := wakeOne_spec h (hkey pid (by simp))
    obtain ⟨hm', hs', hw'⟩ := ih (s.wakeOne key pid) hm
      (fun p hp key' hin => hkey p (by simp [hp]) key' (hsub p key' hin))
    exact ⟨hm', fun tid => (hs tid).trans (hs' tid), fun tid => (hw tid).trans (hw' tid)⟩

/-- Registered threads are registered under one key only. -/
theorem Members.key_unique (h : Members s) {key key' : Pid × Nat}
    (hin : pid ∈ s.futexWaiters key) (hin' : pid ∈ s.futexWaiters key') : key' = key := by
  obtain ⟨-, t, ht, hl, hf, -⟩ := h pid key.1 key.2 hin
  obtain ⟨-, t', ht', hl', hf', -⟩ := h pid key'.1 key'.2 hin'
  rw [ht] at ht'
  cases ht'
  exact Prod.ext (hl'.symm.trans hl) (hf'.symm.trans hf)

theorem wakeFutex_spec (h : Members s) (leader : Pid) (addr count : Nat) :
    Members (s.wakeFutex leader addr count).1 ∧ (∀ tid, SleepKept s (s.wakeFutex leader addr count).1 tid) ∧
      (∀ tid, WaitKept s (s.wakeFutex leader addr count).1 tid) :=
  foldl_wakeOne (leader, addr) _ s h
    (fun _ hp _ hin => h.key_unique (mem_of_mem_take hp) hin)

variable {leader : Pid}

/-- A wake of at least as many threads as are registered wakes every one of them. -/
theorem wakeFutex_wakes (h : Members s) {addr count : Nat}
    (hin : tid ∈ s.futexWaiters (leader, addr))
    (hcount : (s.futexWaiters (leader, addr)).length ≤ count) :
    Woken (s.wakeFutex leader addr count).1 tid := by
  obtain ⟨-, t, ht, -⟩ := h tid leader addr hin
  -- along the loop the thread has its task until it is woken, and stays woken after
  have hloop : ∀ (targets : List Pid) (u : Sched),
      (Woken u tid ∨ (tid ∈ targets ∧ ∃ t, u.tasks tid = some t)) →
      Woken (targets.foldl (wakeOne (leader, addr)) u) tid := by
    intro targets
    induction targets with
    | nil =>
      rintro u (hw | ⟨hmem, -⟩)
      · exact hw
      · exact absurd hmem (by simp)
    | cons pid rest ih =>
      rintro u (hw | ⟨hmem, t, ht⟩)
      · exact ih _ (.inl (hw.wakeOne (leader, addr) pid))
      · by_cases hp : tid = pid
        · subst hp
          exact ih _ (.inl (woken_wakeOne ht))
        · refine ih _ (.inr ⟨mem_of_ne_of_mem hp hmem, ?_⟩)
          cases hpid : u.tasks pid with
          | none => exact ⟨t, by simpa [Sched.wakeOne, hpid] using ht⟩
          | some task =>
            have hc : (u.cleared (leader, addr) pid task).tasks tid = some t := by
              simpa [cleared, hp] using ht
            rw [wakeOne_of_some hpid]
            split_ifs
            · exact makeRunnable_isSome _ pid tid t hc
            · exact ⟨t, hc⟩
  apply hloop
  refine .inr ⟨?_, t, ht⟩
  rw [take_of_length_le hcount]
  exact hin

/-! ### `requeue_futex` -/

/-- What `requeue_futex` does to a target that waits on `source`. -/
def requeued (s : Sched) (leader : Pid) (source target : Nat) (pid : Pid) (task : Task) : Sched :=
  let s := (s.setWaiters (leader, source)
    (OrdSet.remove pid (s.futexWaiters (leader, source)))).setTask pid
      { task with futex := target }
  s.setWaiters (leader, target) (OrdSet.insert (· ≤ ·) pid (s.futexWaiters (leader, target)))

theorem requeued_task (s : Sched) (leader : Pid) (source target : Nat) (pid : Pid) (task : Task) :
    (s.requeued leader source target pid task).tasks
      = update s.tasks pid (some { task with futex := target }) := rfl

theorem mem_requeued (s : Sched) (leader : Pid) (source target : Nat) (pid : Pid) (task : Task)
    (tid : Pid) (key : Pid × Nat) :
    tid ∈ (s.requeued leader source target pid task).futexWaiters key ↔
      (tid ∈ s.futexWaiters key ∧ ¬ (key = (leader, source) ∧ tid = pid)) ∨
        (key = (leader, target) ∧ tid = pid) := by
  unfold requeued
  rw [mem_registered, setTask_futexWaiters, mem_unregistered]

theorem requeueOne_of_waits {source target moved : Nat}
    (h : s.tasks pid = some task)
    (hc : task.leader = leader ∧ task.futex = source ∧ task.state ≠ .zombie) :
    (requeueOne leader source target (s, moved) pid).1
      = s.requeued leader source target pid task := by
  simp only [requeueOne, setWaiters_tasks, h, if_pos hc]
  rfl

theorem requeueOne_of_not {source target moved : Nat}
    (h : ∀ task, s.tasks pid = some task →
      ¬ (task.leader = leader ∧ task.futex = source ∧ task.state ≠ .zombie)) :
    (requeueOne leader source target (s, moved) pid).1
      = s.setWaiters (leader, source) (remove pid (s.futexWaiters (leader, source))) := by
  simp only [requeueOne, setWaiters_tasks]
  cases hpid : s.tasks pid with
  | none => rfl
  | some task => simp only [if_neg (h task hpid)]

/-- The loop invariant of `requeue_futex` for one target: members stay members, sleeps
    and waits are kept, and only the set of `target` may grow. -/
def RequeueKept (s s' : Sched) (leader : Pid) (target : Nat) : Prop :=
  Members s' ∧ (∀ tid, SleepKept s s' tid) ∧ (∀ tid, WaitKept s s' tid) ∧
    ∀ tid key, tid ∈ s'.futexWaiters key → tid ∈ s.futexWaiters key ∨ key = (leader, target)

variable {source target : Nat}

theorem requeueKept_requeued (h : Members s)
    (htarget : target ≠ 0) (hsource : source ≠ 0)
    (htask : s.tasks pid = some task)
    (hc : task.leader = leader ∧ task.futex = source ∧ task.state ≠ .zombie)
    (hkey : ∀ key, pid ∈ s.futexWaiters key → key = (leader, source) ∨ key = (leader, target)) :
    RequeueKept s (s.requeued leader source target pid task) leader target := by
  obtain ⟨hl, hf, hz⟩ := hc
  have hother : ∀ tid, tid ≠ pid →
      (s.requeued leader source target pid task).tasks tid = s.tasks tid := by
    intro tid htid
    rw [requeued_task, update_of_ne htid]
  have hself : (s.requeued leader source target pid task).tasks pid
      = some { task with futex := target } := by
    rw [requeued_task, update_self]
  have hmoved : pid ∈ (s.requeued leader source target pid task).futexWaiters (leader, target) :=
    (mem_requeued _ _ _ _ _ _ _ _).mpr (.inr ⟨rfl, rfl⟩)
  refine ⟨?_, ?_, ?_, ?_⟩
  · intro tid l a hin
    by_cases htid : tid = pid
    · subst htid
      have hk : (l, a) = (leader, target) := by
        rcases (mem_requeued _ _ _ _ _ _ _ _).mp hin with ⟨hold, hne⟩ | ⟨hk, -⟩
        · rcases hkey _ hold with he | he
          · exact absurd ⟨he, rfl⟩ hne
          · exact he
        · exact hk
      cases hk
      exact ⟨htarget, _, hself, hl, rfl, hz⟩
    · rcases (mem_requeued _ _ _ _ _ _ _ _).mp hin with ⟨hold, -⟩ | ⟨-, he⟩
      · obtain ⟨ha, t, ht, hrest⟩ := h tid l a hold
        exact ⟨ha, t, (hother tid htid).trans ht, hrest⟩
      · exact absurd he htid
  · intro tid t' ht'
    by_cases htid : tid = pid
    · subst htid
      rw [hself] at ht'
      cases ht'
      exact ⟨task, htask, fun hb => ⟨hb, rfl⟩, id⟩
    · exact ⟨t', (hother tid htid).symm.trans ht', fun hb => ⟨hb, rfl⟩, id⟩
  · intro tid t' ht' hf'
    by_cases htid : tid = pid
    · subst htid
      rw [hself] at ht'
      cases ht'
      exact ⟨task, htask, hf ▸ hsource, fun _ => by simpa only [hl] using hmoved⟩
    · refine ⟨t', (hother tid htid).symm.trans ht', hf', fun hin => ?_⟩
      exact (mem_requeued _ _ _ _ _ _ _ _).mpr (.inl ⟨hin, fun hc => htid hc.2⟩)
  · intro tid key hin
    rcases (mem_requeued _ _ _ _ _ _ _ _).mp hin with ⟨hold, -⟩ | ⟨hk, -⟩
    · exact .inl hold
    · exact .inr hk

theorem requeueKept_requeueOne (h : Members s)
    (moved : Nat) (htarget : target ≠ 0) (hsource : source ≠ 0)
    (hkey : ∀ key, pid ∈ s.futexWaiters key → key = (leader, source) ∨ key = (leader, target)) :
    RequeueKept s (requeueOne leader source target (s, moved) pid).1 leader target := by
  by_cases hc : ∃ task, s.tasks pid = some task ∧ task.leader = leader ∧ task.futex = source ∧
      task.state ≠ .zombie
  · obtain ⟨task, htask, hwaits⟩ := hc
    rw [requeueOne_of_waits htask hwaits]
    exact requeueKept_requeued h htarget hsource htask hwaits hkey
  · rw [requeueOne_of_not (fun task htask hw => hc ⟨task, htask, hw⟩)]
    refine ⟨?_, fun tid t' ht' => ⟨t', ht', fun hb => ⟨hb, rfl⟩, id⟩, ?_, ?_⟩
    · intro tid l a hin
      exact h tid l a ((mem_unregistered _ _ _ _ _).mp hin).1
    · intro tid t' ht' hf
      refine ⟨t', ht', hf, fun hin => (mem_unregistered _ _ _ _ _).mpr ⟨hin, ?_⟩⟩
      rintro ⟨hk, rfl⟩
      -- a thread registered under its own word waits there, so it would have moved
      obtain ⟨-, u, hu, -, -, hz⟩ := h tid _ _ hin
      have hut : u = t' := some.inj (hu.symm.trans ht')
      subst hut
      rw [Prod.mk.injEq] at hk
      exact hc ⟨u, hu, hk.1, hk.2, hz⟩
    · intro tid key hin
      exact .inl ((mem_unregistered _ _ _ _ _).mp hin).1

theorem foldl_requeueOne (htarget : target ≠ 0)
    (hsource : source ≠ 0) (targets : List Pid) (s : Sched) (moved : Nat) (h : Members s)
    (hkey : ∀ pid ∈ targets, ∀ key, pid ∈ s.futexWaiters key →
      key = (leader, source) ∨ key = (leader, target)) :
    RequeueKept s (targets.foldl (requeueOne leader source target) (s, moved)).1 leader target := by
  induction targets generalizing s moved with
  | nil => exact ⟨h, SleepKept.refl s, WaitKept.refl s, fun _ _ hin => .inl hin⟩
  | cons pid rest ih =>
    obtain ⟨hm, hs, hw, hsub⟩ :=
      requeueKept_requeueOne h moved htarget hsource (hkey pid (by simp))
    obtain ⟨hm', hs', hw', hsub'⟩ := ih (requeueOne leader source target (s, moved) pid).1
      (requeueOne leader source target (s, moved) pid).2 hm (by
        intro p hp key hin
        rcases hsub p key hin with hold | hk
        · exact hkey p (by simp [hp]) key hold
        · exact .inr hk)
    refine ⟨hm', fun tid => (hs tid).trans (hs' tid), fun tid => (hw tid).trans (hw' tid), ?_⟩
    intro tid key hin
    rcases hsub' tid key hin with hmid | hk
    · exact hsub tid key hmid
    · exact .inr hk

theorem requeueFutex_spec (h : Members s) (leader : Pid) (source count : Nat)
    {target : Nat} (htarget : target ≠ 0) :
    RequeueKept s (s.requeueFutex leader source target count).1 leader target := by
  have hrefl : RequeueKept s s leader target :=
    ⟨h, SleepKept.refl s, WaitKept.refl s, fun _ _ hin => .inl hin⟩
  unfold requeueFutex
  split_ifs
  · exact hrefl
  · by_cases hnone : s.futexWaiters (leader, source) = []
    · rw [hnone, take_nil]
      exact hrefl
    · obtain ⟨p, hp⟩ := exists_mem_of_ne_nil _ hnone
      have hsource : source ≠ 0 := (h p leader source hp).1
      refine foldl_requeueOne htarget hsource _ s 0 h ?_
      intro pid hpid key hin
      exact .inl (h.key_unique (mem_of_mem_take hpid) hin)

/-! ### `set_current_futex` and `block` -/

theorem setCurrentFutex_tasks (h : s.tasks tid = some task)
    (addr : Nat) : (s.setCurrentFutex tid addr).tasks
      = update s.tasks tid (some { task with futex := addr }) := by
  unfold setCurrentFutex
  simp only [h]
  split_ifs <;> rfl

theorem mem_setCurrentFutex (h : s.tasks tid = some task)
    (addr : Nat) (p : Pid) (key : Pid × Nat) :
    p ∈ (s.setCurrentFutex tid addr).futexWaiters key ↔ (p ∈ s.futexWaiters key ∧
          ¬ (key = (task.leader, task.futex) ∧ task.futex ≠ 0 ∧ p = tid)) ∨
        (key = (task.leader, addr) ∧ addr ≠ 0 ∧ p = tid) := by
  unfold setCurrentFutex
  simp only [h]
  by_cases hf : task.futex = 0 <;> by_cases ha : addr = 0
  · simp [hf, ha]
  · simp only [hf, ne_eq, not_true_eq_false, if_false, ha, not_false_eq_true, if_true]
    rw [mem_registered, setTask_futexWaiters]
    simp
  · simp only [hf, ne_eq, not_true_eq_false, if_false, ha, not_false_eq_true, if_true]
    refine (mem_unregistered (s.setTask tid { task with futex := 0 }) (task.leader, task.futex)
      key tid p).trans ?_
    simp
  · simp only [hf, ne_eq, ha, not_false_eq_true, if_true]
    rw [mem_registered, mem_unregistered, setTask_futexWaiters]
    simp

theorem Members.setCurrentFutex (h : Members s)
    (htask : s.tasks tid = some task) (hz : task.state ≠ .zombie) (addr : Nat) :
    Members (s.setCurrentFutex tid addr) := by
  intro p l a hin
  rw [setCurrentFutex_tasks htask]
  rcases (mem_setCurrentFutex htask addr p (l, a)).mp hin with ⟨hold, hne⟩ | ⟨hk, ha, rfl⟩
  · obtain ⟨ha, t, ht, hl, hf, hzt⟩ := h p l a hold
    have hp : p ≠ tid := by
      rintro rfl
      rw [htask] at ht
      cases ht
      exact hne ⟨by rw [hl, hf], hf ▸ ha, rfl⟩
    exact ⟨ha, t, by rw [update_of_ne hp]; exact ht, hl, hf, hzt⟩
  · cases hk
    exact ⟨ha, _, update_self .., rfl, rfl, hz⟩

theorem block_futexWaiters (s : Sched) (pid : Pid) (flags : Nat) (timeout : Option Nat)
    (seq ticks inputSeq : Nat) :
    (s.block pid flags timeout seq ticks inputSeq).futexWaiters = s.futexWaiters := by
  unfold block
  cases s.tasks pid with
  | none => rfl
  | some task =>
    dsimp only
    cases timeout <;> (split_ifs <;> rfl)

theorem block_tasks_of_ne (s : Sched) {pid p : Pid} (hp : p ≠ pid) (flags : Nat)
    (timeout : Option Nat) (seq ticks inputSeq : Nat) :
    (s.block pid flags timeout seq ticks inputSeq).tasks p = s.tasks p := by
  unfold block
  cases s.tasks pid with
  | none => rfl
  | some task =>
    dsimp only
    split_ifs <;> simp [hp]

/-- What `block` leaves of the running task that called it: if the task sleeps, it waits
    for the given bits, and for the timer when there is a timeout. -/
theorem block_self {t : Task} (ht : s.tasks pid = some t)
    (hrun : t.state = .runnable) (flags : Nat) (timeout : Option Nat) (seq ticks inputSeq : Nat) :
    ∃ t', (s.block pid flags timeout seq ticks inputSeq).tasks pid = some t' ∧
      t'.leader = t.leader ∧ t'.futex = t.futex ∧ t'.state ≠ .zombie ∧
      (t'.state = .blocked → t'.wait = if timeout.isSome then flags ||| waitTimer else flags) := by
  unfold block
  simp only [ht]
  by_cases hstale : t.sigPending &&& ~~~t.sigMask ≠ 0 ∨
      (flags &&& waitInput ≠ 0 ∧ seq ≠ inputSeq) ∨ (flags &&& waitFutex ≠ 0 ∧ t.futex = 0) ∨
      t.killed.isSome
  · simp only [if_pos hstale]
    exact ⟨_, update_self .., rfl, rfl, by simp [hrun], by simp [hrun]⟩
  · simp only [if_neg hstale]
    cases timeout with
    | none =>
      by_cases htimer : flags &&& waitTimer ≠ 0
      · simp only [if_pos htimer]
        exact ⟨_, update_self .., rfl, rfl, by simp, by simp⟩
      · simp only [if_neg htimer]
        exact ⟨_, update_self .., rfl, rfl, by simp, by simp⟩
    | some timeout =>
      by_cases htimer : (flags ||| waitTimer) &&& waitTimer ≠ 0
      · simp only [if_pos htimer]
        exact ⟨_, update_self .., rfl, rfl, by simp, by simp⟩
      · simp only [if_neg htimer]
        exact ⟨_, update_self .., rfl, rfl, by simp, by simp⟩

end Sched

/-! ### The invariant of the system -/

namespace System

/-- A sleeping thread is outside `futex_block` or inside `block` with the bits
    `futex_block` gave it; a thread that waits is registered. -/
structure Inv (k : System) : Prop where
  members : k.sched.Members
  waits : ∀ tid leader addr, k.Waits tid leader addr → tid ∈ k.sched.futexWaiters (leader, addr)
  asleep : ∀ tid t, k.sched.tasks tid = some t → t.state = .blocked →
    k.pc tid = .user ∨ ((∃ addr d, k.pc tid = .parked addr d) ∧ t.wait = waitFutex ||| waitTimer)
  alive : ∀ tid t, k.sched.tasks tid = some t → t.state ≠ .zombie

/-- The condition on a step: a rescan of the timers finds no thread asleep that waits and
    whose slice has run out, and threads are not requeued to the word at 0. -/
def Calm (k : System) : Act → Prop
  | .rescan => ∀ tid leader addr t, k.Waits tid leader addr → k.sched.tasks tid = some t →
      t.state = .blocked → k.ticks < t.wakeAt
  | .requeue _ _ target _ => target ≠ 0
  | _ => True

variable {k : System}

theorem inv_init (h : k.Init) : k.Inv := by
  obtain ⟨hempty, huser, halive⟩ := h
  refine ⟨?_, ?_, fun tid _ _ _ => .inl (huser tid), halive⟩
  · intro tid leader addr hin
    rw [hempty] at hin
    exact absurd hin (by simp)
  · rintro tid leader addr ⟨t, d, -, hpc, -⟩
    rw [huser tid] at hpc
    exact absurd hpc (by simp [Pc.waiting])

/-- A step that only replaces the scheduler's tables keeps the invariant when it keeps
    every sleep and the registration of every thread that waits. -/
theorem Inv.of_sched (h : k.Inv) {s' : Sched} (hm : s'.Members)
    (hs : ∀ tid, k.sched.SleepKept s' tid)
    (hw : ∀ tid, (∃ leader addr, k.Waits tid leader addr) → k.sched.WaitKept s' tid)
    (hf : ∀ tid t', s'.tasks tid = some t' → t'.futex ≠ 0 → ∃ t, k.sched.tasks tid = some t ∧ t.futex ≠ 0) :
    Inv { k with sched := s' } := by
  refine ⟨hm, ?_, ?_, ?_⟩
  · rintro tid leader addr ⟨t', d, ht', hpc, rfl, rfl, hne, hexp, hint⟩
    obtain ⟨t, ht, hft⟩ := hf tid t' ht' hne
    have hwaits : k.Waits tid t.leader t.futex := ⟨t, d, ht, hpc, rfl, rfl, hft, hexp, hint⟩
    obtain ⟨u, hu, -, hin⟩ := hw tid ⟨_, _, hwaits⟩ t' ht' hne
    rw [ht] at hu
    cases hu
    exact hin (h.waits tid _ _ hwaits)
  · intro tid t' ht' hb
    obtain ⟨t, ht, hkept, -⟩ := hs tid t' ht'
    obtain ⟨hbt, hwait⟩ := hkept hb
    rw [hwait]
    exact h.asleep tid t ht hbt
  · intro tid t' ht' hz
    obtain ⟨t, ht, -, hkept⟩ := hs tid t' ht'
    exact h.alive tid t ht (hkept hz)

/-- A step of one thread keeps the invariant when it leaves the other threads alone and
    the thread itself ends up registered if it waits, and inside `block` if it sleeps. -/
theorem Inv.of_thread {k k' : System} (h : k.Inv) (tid : Pid) (hm : k'.sched.Members)
    (hticks : k'.ticks = k.ticks)
    (hother : ∀ p, p ≠ tid → k'.pc p = k.pc p ∧ k'.interrupted p = k.interrupted p ∧
      k'.sched.tasks p = k.sched.tasks p ∧
      ∀ key, p ∈ k.sched.futexWaiters key → p ∈ k'.sched.futexWaiters key)
    (hwaits : ∀ leader addr, k'.Waits tid leader addr → tid ∈ k'.sched.futexWaiters (leader, addr))
    (hasleep : ∀ t, k'.sched.tasks tid = some t → t.state = .blocked → k'.pc tid = .user ∨
        ((∃ addr d, k'.pc tid = .parked addr d) ∧ t.wait = waitFutex ||| waitTimer))
    (halive : ∀ t, k'.sched.tasks tid = some t → t.state ≠ .zombie) : k'.Inv := by
  refine ⟨hm, ?_, ?_, ?_⟩
  · intro p leader addr hp
    by_cases htid : p = tid
    · subst htid; exact hwaits leader addr hp
    · obtain ⟨hpc, hint, htask, hmem⟩ := hother p htid
      obtain ⟨t, d, ht, hd, hl, hf, hne, hexp, hi⟩ := hp
      refine hmem _ (h.waits p leader addr ⟨t, d, htask ▸ ht, hpc ▸ hd, hl, hf, hne, ?_, hint ▸ hi⟩)
      rw [expired, hticks] at hexp
      exact hexp
  · intro p t ht hb
    by_cases htid : p = tid
    · subst htid; exact hasleep t ht hb
    · obtain ⟨hpc, -, htask, -⟩ := hother p htid
      rw [hpc]
      exact h.asleep p t (htask ▸ ht) hb
  · intro p t ht
    by_cases htid : p = tid
    · subst htid; exact halive t ht
    · obtain ⟨-, -, htask, -⟩ := hother p htid
      exact h.alive p t (htask ▸ ht)

/-- A thread that is on a CPU moves on inside `futex_block` without a call. -/
theorem Inv.setPc (h : k.Inv) {tid : Pid} {t : Task}
    (ht : k.sched.tasks tid = some t) (hrun : t.state = .runnable) {pc : Pc}
    (hpc : pc.waiting = none ∨ pc.waiting = (k.pc tid).waiting) : (k.setPc tid pc).Inv := by
  have hself : (k.setPc tid pc).pc tid = pc := update_self ..
  refine h.of_thread tid h.members rfl ?_ ?_ ?_ (fun t ht => h.alive tid t ht)
  · intro p hp
    exact ⟨update_of_ne hp .., rfl, rfl, fun _ => id⟩
  · rintro leader addr ⟨u, d, hu, hd, hrest⟩
    rw [hself] at hd
    rcases hpc with hnone | hsame
    · rw [hnone] at hd
      cases hd
    · exact h.waits tid leader addr ⟨u, d, hu, hsame ▸ hd, hrest⟩
  · intro u hu hb
    have hut : u = t := some.inj (hu.symm.trans ht)
    subst hut
    rw [hrun] at hb
    cases hb

theorem Inv.rescan (h : k.Inv) (hcalm : k.Calm .rescan) :
    Inv { k with sched := k.sched.rescanBlocked k.ticks k.inputSeq } := by
  obtain ⟨hm, hs, hf, hw⟩ := Sched.rescanBlocked_spec k.sched h.members k.ticks k.inputSeq
  refine h.of_sched hm hs ?_ ?_
  · rintro tid ⟨leader, addr, hwaits⟩
    apply hw
    intro hin
    obtain ⟨t, ht, hb, hcause⟩ := Sched.rescanned_blocked hin
    rcases hcause with htime | hinput
    · exact absurd (hcalm tid leader addr t hwaits ht hb) (not_lt.mpr htime)
    · -- a thread that sleeps in `futex_block` does not wait for input
      obtain ⟨-, d, -, hd, -⟩ := hwaits
      rcases h.asleep tid t ht hb with huser | ⟨-, hwait⟩
      · rw [huser] at hd
        cases hd
      · rw [hwait] at hinput
        exact hinput (by decide)
  · intro tid t' ht' hne
    obtain ⟨t, ht, hfut⟩ := hf tid t' ht'
    exact ⟨t, ht, hfut ▸ hne⟩

/-- Time passing makes no thread wait. -/
theorem Waits.of_tick {n : Nat} {tid leader : Pid} {addr : Nat}
    (h : Waits { k with ticks := k.ticks + n } tid leader addr) : k.Waits tid leader addr := by
  obtain ⟨t, d, ht, hd, hl, hf, hne, hexp, hint⟩ := h
  refine ⟨t, d, ht, hd, hl, hf, hne, ?_, hint⟩
  rintro ⟨e, he, hle⟩
  exact hexp ⟨e, he, Nat.le_add_right_of_le hle⟩

/-- `queue`: the target's sleep ends, and with it its registration, but it now counts as
    interrupted. -/
theorem Inv.queue (h : k.Inv) {tid : Pid} {task : Task} (sig : BitVec 64)
    (htask : k.sched.tasks tid = some task) :
    Inv { k with
      sched := (k.sched.setTask tid { task with sigPending := task.sigPending ||| sig }).interrupt
        tid
      interrupted :=
        if task.state = .blocked then update k.interrupted tid true
        else k.interrupted } := by
  have hz := h.alive tid task htask
  have hm1 : (k.sched.setTask tid { task with sigPending := task.sigPending ||| sig }).Members :=
    h.members.setTask _ htask rfl rfl hz
  by_cases hb : task.state = .blocked
  · have hm2 := hm1.setTask
      { task with sigPending := task.sigPending ||| sig, wakePending := true }
      (update_self ..) rfl rfl hz
    simp only [Sched.interrupt, Sched.setTask_tasks, update_self, if_pos hb]
    refine h.of_thread tid (hm2.makeRunnable tid) rfl ?_ ?_ ?_ ?_
    · intro p hp
      refine ⟨rfl, update_of_ne hp .., ?_, ?_⟩
      · rw [Sched.makeRunnable_tasks_of_ne _ hp]
        simp [hp]
      · intro key hin
        exact (Sched.mem_makeRunnable_futexWaiters _ tid p key).2 hp hin
    · rintro leader addr ⟨t, d, -, -, -, -, -, -, hint⟩
      simp at hint
    · intro t ht hblocked
      exact absurd hblocked (Sched.makeRunnable_self _ tid t ht)
    · intro t ht hzt
      obtain ⟨u, hu, -, -, hzom, -⟩ := Sched.makeRunnable_some _ tid tid t ht
      simp only [Sched.setTask_tasks, update_self, some.injEq] at hu
      subst hu
      exact hz (hzom.mp hzt)
  · simp only [Sched.interrupt, Sched.setTask_tasks, update_self, if_neg hb]
    refine h.of_thread tid hm1 rfl ?_ ?_ ?_ ?_
    · intro p hp
      exact ⟨rfl, rfl, by simp [hp], fun _ => id⟩
    · rintro leader addr ⟨t, d, ht, hd, hl, hf, hrest⟩
      simp only [Sched.setTask_tasks, update_self, some.injEq] at ht
      subst ht
      exact h.waits tid leader addr ⟨task, d, htask, hd, hl, hf, hrest⟩
    · intro t ht hblocked
      simp only [Sched.setTask_tasks, update_self, some.injEq] at ht
      subst ht
      exact absurd hblocked hb
    · intro t ht
      simp only [Sched.setTask_tasks, update_self, some.injEq] at ht
      subst ht
      exact hz

/-- `set_current_futex` by a running thread, which then stands at `pc`. -/
theorem Inv.setCurrentFutex (h : k.Inv) {tid : Pid} {task : Task}
    (htask : k.sched.tasks tid = some task) (hrun : task.state = .runnable) (addr : Nat) (pc : Pc)
    (i : Pid → Bool)
    (hi : ∀ p, p ≠ tid → i p = k.interrupted p) :
    Inv { k.setPc tid pc with sched := k.sched.setCurrentFutex tid addr, interrupted := i } := by
  have hz := h.alive tid task htask
  have htasks := Sched.setCurrentFutex_tasks htask addr
  refine h.of_thread tid (h.members.setCurrentFutex htask hz addr) rfl ?_ ?_ ?_ ?_
  · intro p hp
    refine ⟨update_of_ne hp .., hi p hp, ?_, ?_⟩
    · rw [htasks, update_of_ne hp]
    · intro key hin
      exact (Sched.mem_setCurrentFutex htask addr p key).mpr (.inl ⟨hin, fun hc => hp hc.2.2⟩)
  · rintro leader a ⟨t, d, ht, hd, rfl, rfl, hne, -⟩
    rw [htasks, update_self] at ht
    cases ht
    exact (Sched.mem_setCurrentFutex htask addr tid _).mpr (.inr ⟨rfl, hne, rfl⟩)
  · intro t ht hb
    rw [htasks, update_self] at ht
    cases ht
    rw [hrun] at hb
    cases hb
  · intro t ht
    rw [htasks, update_self] at ht
    cases ht
    exact hz

/-- `block` by a running thread, which then stands at `pc`. -/
theorem Inv.block (h : k.Inv) {tid : Pid} {task : Task}
    (htask : k.sched.tasks tid = some task) (hrun : task.state = .runnable) (pc : Pc) (flags : Nat)
    (timeout : Option Nat) (hwait : pc.waiting = (k.pc tid).waiting)
    (hpc : pc = .user ∨ ((∃ addr d, pc = .parked addr d) ∧ flags = waitFutex ∧ timeout.isSome)) :
    Inv { k.setPc tid pc with
      sched := k.sched.block tid flags timeout k.inputSeq k.ticks k.inputSeq } := by
  have hmem := Sched.block_futexWaiters k.sched tid flags timeout k.inputSeq k.ticks k.inputSeq
  have hne := fun {p : Pid} (hp : p ≠ tid) =>
    Sched.block_tasks_of_ne k.sched hp flags timeout k.inputSeq k.ticks k.inputSeq
  obtain ⟨t', ht', hl, hf, hz, hbits⟩ :=
    Sched.block_self htask hrun flags timeout k.inputSeq k.ticks k.inputSeq
  refine h.of_thread tid ?_ rfl ?_ ?_ ?_ ?_
  · intro p leader addr hin
    rw [hmem] at hin
    obtain ⟨ha, u, hu, hul, huf, huz⟩ := h.members p leader addr hin
    by_cases hp : p = tid
    · subst hp
      rw [htask] at hu
      cases hu
      exact ⟨ha, t', ht', hl.trans hul, hf.trans huf, hz⟩
    · exact ⟨ha, u, (hne hp).trans hu, hul, huf, huz⟩
  · intro p hp
    refine ⟨update_of_ne hp .., rfl, hne hp, ?_⟩
    intro key hin
    rw [hmem]
    exact hin
  · rintro leader addr ⟨u, d, hu, hd, rfl, rfl, hrest⟩
    have huu : u = t' := some.inj (hu.symm.trans ht')
    subst huu
    have hd' : (k.pc tid).waiting = some d := by
      have hup : (update k.pc tid pc tid).waiting = some d := hd
      rwa [update_self, hwait] at hup
    rw [hmem, hl, hf]
    rw [hf] at hrest
    exact h.waits tid _ _ ⟨task, d, htask, hd', rfl, rfl, hrest⟩
  · intro u hu hb
    have huu : u = t' := some.inj (hu.symm.trans ht')
    subst huu
    have hself : update k.pc tid pc tid = pc := update_self ..
    rcases hpc with rfl | ⟨⟨addr, d, rfl⟩, rfl, hsome⟩
    · exact .inl hself
    · refine .inr ⟨⟨addr, d, hself⟩, ?_⟩
      rw [hbits hb, if_pos hsome]
  · intro u hu
    have huu : u = t' := some.inj (hu.symm.trans ht')
    subst huu
    exact hz

/-- The step of a thread inside `futex_block` keeps the invariant. -/
theorem Inv.runThread {k k' : System} (h : k.Inv) {tid : Pid} {task : Task}
    (htask : k.sched.tasks tid = some task) (hrun : task.state = .runnable)
    (hstep : k.runThread tid task = some k') : k'.Inv := by
  unfold System.runThread at hstep
  cases hpc : k.pc tid with
  | user => simp [hpc] at hstep
  | check addr d =>
    simp only [hpc, some.injEq] at hstep
    subst hstep
    split_ifs
    · exact h.setPc htask hrun (.inr (by rw [hpc]; rfl))
    · exact h.setPc htask hrun (.inl rfl)
  | signal addr d =>
    simp only [hpc, some.injEq] at hstep
    subst hstep
    split_ifs
    · exact h.setPc htask hrun (.inl rfl)
    · exact h.setPc htask hrun (.inr (by rw [hpc]; rfl))
  | clock addr d =>
    simp only [hpc] at hstep
    split_ifs at hstep <;> (rw [some.injEq] at hstep; subst hstep)
    · exact h.setPc htask hrun (.inl rfl)
    · exact h.setPc htask hrun (.inr (by rw [hpc]; rfl))
  | park addr d slice =>
    simp only [hpc, some.injEq] at hstep
    subst hstep
    exact h.block htask hrun _ _ _ (by rw [hpc]; rfl) (.inr ⟨⟨addr, d, rfl⟩, rfl, rfl⟩)
  | parked addr d =>
    simp only [hpc] at hstep
    split_ifs at hstep
    rw [some.injEq] at hstep
    subst hstep
    exact h.setPc htask hrun (.inr (by rw [hpc]; rfl))
  | leave =>
    simp only [hpc, some.injEq] at hstep
    subst hstep
    exact h.setCurrentFutex htask hrun 0 .user k.interrupted (fun _ _ => rfl)

/-- The step lemma: a calm step keeps the invariant. -/
theorem Inv.step {k k' : System} {a : Act} (h : k.Inv) (hcalm : k.Calm a)
    (hstep : k.step a = some k') : k'.Inv := by
  cases a with
  | enter tid addr d =>
    simp only [System.step] at hstep
    split at hstep
    · rename_i task htask
      split_ifs at hstep with hc
      cases hstep
      exact h.setCurrentFutex htask hc.1 addr _ _ (fun p hp => update_of_ne hp ..)
    · cases hstep
  | run tid =>
    simp only [System.step] at hstep
    split at hstep
    · rename_i task htask
      split_ifs at hstep with hrun
      exact h.runThread htask hrun hstep
    · cases hstep
  | sleep tid flags timeout =>
    simp only [System.step] at hstep
    split at hstep
    · rename_i task htask
      split_ifs at hstep with hc
      cases hstep
      have hsame : k.setPc tid .user = k := by
        unfold System.setPc
        rw [← hc.2, update_eq_self]
      have hb := h.block htask hc.1 .user flags timeout (by rw [hc.2]) (.inl rfl)
      rwa [hsame] at hb
    · cases hstep
  | wake leader addr count =>
    cases hstep
    obtain ⟨hm, hs, hw⟩ := Sched.wakeFutex_spec h.members leader addr count
    refine h.of_sched hm hs (fun tid _ => hw tid) ?_
    intro tid t' ht' hne
    obtain ⟨t, ht, hft, -⟩ := hw tid t' ht' hne
    exact ⟨t, ht, hft⟩
  | requeue leader source target count =>
    cases hstep
    obtain ⟨hm, hs, hw, -⟩ := Sched.requeueFutex_spec h.members leader source count hcalm
    refine h.of_sched hm hs (fun tid _ => hw tid) ?_
    intro tid t' ht' hne
    obtain ⟨t, ht, hft, -⟩ := hw tid t' ht' hne
    exact ⟨t, ht, hft⟩
  | tick n =>
    cases hstep
    exact ⟨h.members, fun tid leader addr hw => h.waits tid leader addr hw.of_tick, h.asleep, h.alive⟩
  | rescan =>
    cases hstep
    exact h.rescan hcalm
  | input =>
    cases hstep
    exact ⟨h.members, h.waits, h.asleep, h.alive⟩
  | queue tid sig =>
    simp only [System.step] at hstep
    split at hstep
    · rename_i task htask
      cases hstep
      exact h.queue sig htask
    · cases hstep
  | signals tid mask pending =>
    simp only [System.step] at hstep
    split at hstep
    · rename_i task htask
      split_ifs at hstep with huser
      cases hstep
      have hz := h.alive tid task htask
      refine h.of_thread tid (h.members.setTask _ htask rfl rfl hz) rfl ?_ ?_ ?_ ?_
      · intro p hp
        exact ⟨rfl, rfl, by simp [hp], fun _ => id⟩
      · rintro leader addr ⟨-, d, -, hd, -⟩
        simp only [huser] at hd
        cases hd
      · exact fun _ _ _ => .inl huser
      · intro t ht
        simp only [Sched.setTask_tasks, update_self, some.injEq] at ht
        subst ht
        exact hz
    · cases hstep

/-- The invariant says that no wakeup is lost. -/
theorem Inv.noLostWakeup (h : k.Inv) : k.NoLostWakeup := by
  refine ⟨fun tid leader addr hw => ?_, fun tid leader addr hin => ?_⟩
  · have hin := h.waits tid leader addr hw
    exact ⟨hin, fun n hn => Sched.wakeFutex_wakes h.members hin hn⟩
  · obtain ⟨-, t, ht, -, hf, hz⟩ := h.members tid leader addr hin
    exact ⟨t, ht, hz, hf⟩

/-- A thread of the process 1 that has done nothing yet. -/
def thread (pid : Pid) : Task where
  pid := pid
  leader := 1
  state := .runnable
  futex := 0
  wait := 0
  wakeAt := 0
  inputSeq := 0
  wakePending := false
  killed := none
  sigMask := 0
  sigPending := 0
  onCpu := none
  level := 0
  queued := false

/-- The threads 1 and 2 of the process 1, at the first tick. -/
def twoThreads : System where
  sched :=
    { tasks := fun p => if p = 1 ∨ p = 2 then some (thread p) else none
      ready := fun _ => []
      mask := 0
      scannedInput := 0
      timers := []
      waiting := fun _ => []
      futexWaiters := fun _ => []
      nextTimer := noTimer }
  ticks := 0
  inputSeq := 0
  pc := fun _ => .user
  interrupted := fun _ => false

theorem twoThreads_init : twoThreads.Init := by
  refine ⟨fun _ => rfl, fun _ => rfl, ?_⟩
  intro tid t ht
  simp only [twoThreads] at ht
  split_ifs at ht
  cases ht
  simp [thread]

/-- Thread 2 waits on the word at 4096 without a deadline, up to its first sleep. -/
def goToSleep : List Act := [.enter 2 4096 none, .run 2, .run 2, .run 2, .run 2]

/-- The state after the actions `as`. -/
def after (as : List Act) : System := (runLabels step twoThreads as).getD twoThreads

end System

end HamixOS.Kernel

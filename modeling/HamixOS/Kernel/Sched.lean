import HamixOS.Lib.OrdSet
import Mathlib.Data.Nat.Bitwise

namespace HamixOS.Kernel

open Lib Function OrdSet

/-!
# The scheduler's tables

The part of `kernel/src/task/mod.rs` that decides which task may run: the task table,
the ready queues, and the indexes of blocked tasks (`timers`, `waiting`,
`futexWaiters`).

* A `BTreeMap` is a function to `Option`, a `BTreeSet` a sorted list (`Lib.OrdSet`).
  The code removes a futex key whose set became empty, so an absent key and an empty
  set are the same thing here: `futexWaiters key = []`.
* `makeRunnable`, `rescanBlocked` and `block` take the values of the atomics they
  load (`ticks`, `input_seq`) as arguments.
* `makeRunnable_tasks` and `makeRunnable_futexWaiters` say what a wakeup does; every
  later proof uses these two and never unfolds `makeRunnable` again.
-/

abbrev Pid := Nat

/-- `TICK_HZ`. -/
def tickHz : Nat := 1000

def waitInput : Nat := 1
def waitMsg : Nat := 2
def waitChild : Nat := 4
def waitTimer : Nat := 8
def waitPipe : Nat := 16
def waitSignal : Nat := 32
def waitFutex : Nat := 64

/-- `WAIT_KINDS`: the number of wait bits. -/
def waitKinds : Nat := 7

/-- `u64::MAX`, the value of `NEXT_TIMER` when no timer is armed. -/
def noTimer : Nat := 2 ^ 64 - 1

/-- `UNBLOCKABLE`: the bits of `SIGKILL` and `SIGSTOP`. -/
def unblockable : BitVec 64 := (1 <<< 8) ||| (1 <<< 18)

inductive State where
  | runnable
  | blocked
  | zombie
  deriving DecidableEq, Repr

/-- The fields of a task the scheduler's blocking code reads or writes. -/
structure Task where
  pid : Pid
  leader : Pid
  state : State
  futex : Nat
  wait : Nat
  wakeAt : Nat
  inputSeq : Nat
  wakePending : Bool
  killed : Option Int
  sigMask : BitVec 64
  sigPending : BitVec 64
  onCpu : Option Nat
  level : Nat
  queued : Bool
  deriving DecidableEq

/-- What `make_runnable` writes into the task it wakes. -/
def Task.awake (t : Task) : Task :=
  { t with state := .runnable, wait := 0, wakePending := false }

structure Sched where
  tasks : Pid → Option Task
  ready : Nat → List Pid
  mask : Nat
  scannedInput : Nat
  timers : List (Nat × Pid)
  waiting : Nat → List Pid
  futexWaiters : Pid × Nat → List Pid
  nextTimer : Nat

/-- The order of `BTreeSet<(u64, Pid)>`. -/
def timerLe (a b : Nat × Pid) : Prop := a.1 < b.1 ∨ (a.1 = b.1 ∧ a.2 ≤ b.2)

instance : DecidableRel timerLe := fun a b =>
  inferInstanceAs (Decidable (a.1 < b.1 ∨ (a.1 = b.1 ∧ a.2 ≤ b.2)))

namespace Sched

def setTask (s : Sched) (pid : Pid) (t : Task) : Sched :=
  { s with tasks := Function.update s.tasks pid (some t) }

def setWaiters (s : Sched) (key : Pid × Nat) (l : List Pid) : Sched :=
  { s with futexWaiters := Function.update s.futexWaiters key l }

def enqueue (s : Sched) (pid : Pid) : Sched :=
  if pid = 0 then s
  else
    match s.tasks pid with
    | none => s
    | some task =>
      if task.queued ∨ task.onCpu.isSome ∨ task.state ≠ .runnable then s
      else
        { s.setTask pid { task with queued := true } with
          ready := Function.update s.ready task.level (s.ready task.level ++ [pid])
          mask := s.mask ||| (1 <<< task.level) }

def indexBlocked (s : Sched) (pid : Pid) (wait wakeAt : Nat) : Sched :=
  { s with
    waiting := fun bit =>
      if bit < waitKinds ∧ wait.testBit bit then OrdSet.insert (· ≤ ·) pid (s.waiting bit)
      else s.waiting bit
    timers :=
      if wait &&& waitTimer ≠ 0 then OrdSet.insert timerLe (wakeAt, pid) s.timers
      else s.timers }

def unindexBlocked (s : Sched) (pid : Pid) (wait wakeAt : Nat) (futex : Pid × Nat) : Sched :=
  let s := { s with
    waiting := fun bit =>
      if bit < waitKinds ∧ wait.testBit bit then OrdSet.remove pid (s.waiting bit)
      else s.waiting bit
    timers :=
      if wait &&& waitTimer ≠ 0 then OrdSet.remove (wakeAt, pid) s.timers
      else s.timers }
  if futex.2 ≠ 0 then s.setWaiters futex (OrdSet.remove pid (s.futexWaiters futex)) else s

def makeRunnable (s : Sched) (pid : Pid) : Sched :=
  match s.tasks pid with
  | none => s.enqueue pid
  | some task =>
    if task.state = .zombie then s
    else
      let s' := s.setTask pid task.awake
      let s' :=
        if task.state = .blocked then
          s'.unindexBlocked pid task.wait task.wakeAt (task.leader, task.futex)
        else s'
      s'.enqueue pid

/-- The tasks `rescan_blocked` wakes for the timers `expired` it popped. -/
def timedOut (s : Sched) (expired : List (Nat × Pid)) : List Pid :=
  expired.filterMap (fun e =>
    match s.tasks e.2 with
    | some task =>
      if task.state = .blocked ∧ task.wait &&& waitTimer ≠ 0 ∧ task.wakeAt = e.1 then some e.2
      else none
    | none => none)

/-- The tasks `rescan_blocked` wakes because input arrived. -/
def sawInput (s : Sched) (seq : Nat) : List Pid :=
  (s.waiting 0).filter (fun pid =>
    match s.tasks pid with
    | some task =>
      decide (task.state = .blocked ∧ task.wait &&& waitInput ≠ 0 ∧ task.inputSeq ≠ seq)
    | none => false)

def rescanBlocked (s : Sched) (now seq : Nat) : Sched :=
  let expired := s.timers.takeWhile (fun e => e.1 ≤ now)
  let s1 := { s with timers := s.timers.dropWhile (fun e => e.1 ≤ now) }
  let woken := s1.timedOut expired
  let (s2, woken) :=
    if seq ≠ s1.scannedInput then
      ({ s1 with scannedInput := seq }, woken ++ s1.sawInput seq)
    else (s1, woken)
  let s3 := woken.foldl makeRunnable s2
  { s3 with nextTimer := (s3.timers.head?.map (·.1)).getD noTimer }

/-- `block` up to its call of `schedule`, for the current task `pid`. -/
def block (s : Sched) (pid : Pid) (flags : Nat) (timeout : Option Nat) (seq : Nat)
    (ticks inputSeq : Nat) : Sched :=
  match s.tasks pid with
  | none => s
  | some task =>
    let pending := task.sigPending &&& ~~~task.sigMask ≠ 0
    let staleInput := flags &&& waitInput ≠ 0 ∧ seq ≠ inputSeq
    let staleFutex := flags &&& waitFutex ≠ 0 ∧ task.futex = 0
    if pending ∨ staleInput ∨ staleFutex ∨ task.killed.isSome then
      s.setTask pid { task with wakePending := false }
    else
      let task := { task with
        state := .blocked
        wait := flags
        inputSeq := seq
        wakePending := false }
      let task :=
        match timeout with
        | some t => { task with wait := task.wait ||| waitTimer, wakeAt := ticks + t }
        | none => task
      let s := (s.setTask pid task).indexBlocked pid task.wait task.wakeAt
      if task.wait &&& waitTimer ≠ 0 then { s with nextTimer := min s.nextTimer task.wakeAt }
      else s

def interrupt (s : Sched) (tid : Pid) : Sched :=
  match s.tasks tid with
  | some task =>
    if task.state = .blocked then (s.setTask tid { task with wakePending := true }).makeRunnable tid
    else s
  | none => s

/-! ### What a wakeup does to the task table and to the futex sets -/

@[simp] theorem setTask_tasks (s : Sched) (pid : Pid) (t : Task) :
    (s.setTask pid t).tasks = update s.tasks pid (some t) := rfl

@[simp] theorem setTask_futexWaiters (s : Sched) (pid : Pid) (t : Task) :
    (s.setTask pid t).futexWaiters = s.futexWaiters := rfl

@[simp] theorem setWaiters_tasks (s : Sched) (key : Pid × Nat) (l : List Pid) :
    (s.setWaiters key l).tasks = s.tasks := rfl

@[simp] theorem setWaiters_futexWaiters (s : Sched) (key : Pid × Nat) (l : List Pid) :
    (s.setWaiters key l).futexWaiters = update s.futexWaiters key l := rfl

@[simp] theorem enqueue_futexWaiters (s : Sched) (pid : Pid) :
    (s.enqueue pid).futexWaiters = s.futexWaiters := by
  unfold enqueue
  split_ifs
  · rfl
  · split
    · rfl
    · split_ifs <;> rfl

@[simp] theorem unindexBlocked_tasks (s : Sched) (pid : Pid) (wait wakeAt : Nat)
    (futex : Pid × Nat) : (s.unindexBlocked pid wait wakeAt futex).tasks = s.tasks := by
  unfold unindexBlocked
  split_ifs <;> rfl

@[simp] theorem indexBlocked_tasks (s : Sched) (pid : Pid) (wait wakeAt : Nat) :
    (s.indexBlocked pid wait wakeAt).tasks = s.tasks := rfl

@[simp] theorem indexBlocked_futexWaiters (s : Sched) (pid : Pid) (wait wakeAt : Nat) :
    (s.indexBlocked pid wait wakeAt).futexWaiters = s.futexWaiters := rfl

theorem unindexBlocked_futexWaiters (s : Sched) (pid : Pid) (wait wakeAt : Nat)
    (futex key : Pid × Nat) :
    (s.unindexBlocked pid wait wakeAt futex).futexWaiters key
      = if key = futex ∧ futex.2 ≠ 0 then remove pid (s.futexWaiters key)
        else s.futexWaiters key := by
  unfold unindexBlocked
  by_cases hf : futex.2 = 0
  · simp [hf]
  · by_cases hk : key = futex
    · subst hk; simp [hf]
    · simp [hf, hk]

/-- Two task-table entries that agree on everything the blocking code decides on: only
    `queued` may differ, which is all that `enqueue` writes. -/
def SameTask : Option Task → Option Task → Prop
  | some t, some t' => t' = { t with queued := t'.queued }
  | none, none => True
  | _, _ => False

theorem SameTask.refl (o : Option Task) : SameTask o o := by
  cases o <;> simp [SameTask]

theorem enqueue_tasks (s : Sched) (pid p : Pid) : SameTask (s.tasks p) ((s.enqueue pid).tasks p) := by
  unfold enqueue
  split_ifs with h0
  · exact SameTask.refl _
  · split
    · exact SameTask.refl _
    · rename_i task htask
      split_ifs with hq
      · exact SameTask.refl _
      · by_cases hp : p = pid
        · subst hp
          simp [htask, SameTask]
        · simp [hp, SameTask.refl]

theorem SameTask.some {o : Option Task} {t' : Task} (h : SameTask o (some t')) :
    ∃ t, o = some t ∧ t' = { t with queued := t'.queued } := by
  cases o with
  | none => exact absurd h (by simp [SameTask])
  | some t => exact ⟨t, rfl, h⟩

/-- The task table a wakeup of `pid` leaves, before `enqueue` marks the task as queued. -/
def awakened (s : Sched) (pid : Pid) : Pid → Option Task :=
  match s.tasks pid with
  | some t => if t.state = .zombie then s.tasks else Function.update s.tasks pid (some t.awake)
  | none => s.tasks

section

variable (s : Sched)

include s

theorem makeRunnable_tasks (pid p : Pid) :
    SameTask (s.awakened pid p) ((s.makeRunnable pid).tasks p) := by
  unfold makeRunnable awakened
  cases htask : s.tasks pid with
  | none => exact enqueue_tasks s pid p
  | some task =>
    dsimp only
    by_cases hz : task.state = .zombie
    · rw [if_pos hz, if_pos hz]
      exact SameTask.refl _
    · rw [if_neg hz, if_neg hz]
      by_cases hb : task.state = .blocked
      · rw [if_pos hb]
        simpa using enqueue_tasks ((s.setTask pid task.awake).unindexBlocked pid task.wait
          task.wakeAt (task.leader, task.futex)) pid p
      · rw [if_neg hb]
        simpa using enqueue_tasks (s.setTask pid task.awake) pid p

/-- A wakeup of a blocked task takes it out of the set of the futex it waits on, and
    touches no other futex set. -/
theorem makeRunnable_futexWaiters (pid : Pid) (key : Pid × Nat) :
    (s.makeRunnable pid).futexWaiters key
      = match s.tasks pid with
        | some t =>
          if t.state = .blocked ∧ key = (t.leader, t.futex) ∧ t.futex ≠ 0 then
            remove pid (s.futexWaiters key)
          else s.futexWaiters key
        | none => s.futexWaiters key := by
  unfold makeRunnable
  cases htask : s.tasks pid with
  | none => simp
  | some task =>
    dsimp only
    by_cases hz : task.state = .zombie
    · simp [hz]
    · rw [if_neg hz]
      by_cases hb : task.state = .blocked
      · simp [hb, unindexBlocked_futexWaiters]
      · simp [hb]

/-- A wakeup of another task leaves a task alone. -/
theorem awakened_of_ne {pid p : Pid} (h : p ≠ pid) :
    s.awakened pid p = s.tasks p := by
  unfold awakened
  cases htask : s.tasks pid with
  | none => rfl
  | some task =>
    dsimp only
    split_ifs
    · rfl
    · simp [h]

theorem enqueue_tasks_of_ne {pid p : Pid} (h : p ≠ pid) :
    (s.enqueue pid).tasks p = s.tasks p := by
  unfold enqueue
  split_ifs
  · rfl
  · split
    · rfl
    · split_ifs
      · rfl
      · simp [h]

theorem makeRunnable_tasks_of_ne {pid p : Pid} (h : p ≠ pid) :
    (s.makeRunnable pid).tasks p = s.tasks p := by
  unfold makeRunnable
  split
  · exact enqueue_tasks_of_ne s h
  · split_ifs
    · rfl
    · rw [enqueue_tasks_of_ne _ h]; simp [h]
    · rw [enqueue_tasks_of_ne _ h]; simp [h]

/-- Whoever is woken, a task keeps its process and its futex word, and a live task
    stays alive. -/
theorem makeRunnable_some (pid p : Pid) (t' : Task)
    (h : (s.makeRunnable pid).tasks p = some t') :
    ∃ t, s.tasks p = some t ∧ t'.leader = t.leader ∧ t'.futex = t.futex ∧
      (t'.state = .zombie ↔ t.state = .zombie) ∧
      (p ≠ pid → t' = { t with queued := t'.queued }) ∧
      (t'.state = .blocked → t' = { t with queued := t'.queued }) := by
  have hsame := makeRunnable_tasks s pid p
  rw [h] at hsame
  obtain ⟨u, hu, hq⟩ := hsame.some
  by_cases hp : p = pid
  · subst hp
    unfold awakened at hu
    cases htask : s.tasks p with
    | none => simp [htask] at hu
    | some task =>
      simp only [htask] at hu
      split_ifs at hu with hz
      · rw [htask] at hu
        cases hu
        refine ⟨_, rfl, ?_, ?_, ?_, fun hne => absurd rfl hne, fun _ => hq⟩ <;> rw [hq]
      · rw [update_self] at hu
        cases hu
        refine ⟨task, rfl, ?_, ?_, ?_, fun hne => absurd rfl hne, ?_⟩
        · rw [hq]; rfl
        · rw [hq]; rfl
        · rw [hq]; simp [Task.awake, hz]
        · intro hb
          rw [hq] at hb
          exact absurd hb (by simp [Task.awake])
  · rw [awakened_of_ne s hp] at hu
    refine ⟨u, hu, ?_, ?_, ?_, fun _ => hq, fun _ => hq⟩ <;> rw [hq]

/-- After its own wakeup a task is not blocked. -/
theorem makeRunnable_self (pid : Pid) (t' : Task)
    (h : (s.makeRunnable pid).tasks pid = some t') : t'.state ≠ .blocked := by
  intro hb
  have hsame := makeRunnable_tasks s pid pid
  rw [h] at hsame
  obtain ⟨u, hu, hq⟩ := hsame.some
  unfold awakened at hu
  cases htask : s.tasks pid with
  | none => simp [htask] at hu
  | some task =>
    simp only [htask] at hu
    rw [hq] at hb
    split_ifs at hu with hz
    · rw [htask] at hu
      cases hu
      exact absurd (hz.symm.trans hb) (by decide)
    · rw [update_self] at hu
      cases hu
      exact absurd hb (by simp [Task.awake])

/-- A wakeup makes no task appear or disappear. -/
theorem makeRunnable_isSome (pid p : Pid) (t : Task) (h : s.tasks p = some t) :
    ∃ t', (s.makeRunnable pid).tasks p = some t' := by
  have hsame := makeRunnable_tasks s pid p
  cases h' : (s.makeRunnable pid).tasks p with
  | some t' => exact ⟨t', rfl⟩
  | none =>
    rw [h'] at hsame
    unfold awakened at hsame
    cases htask : s.tasks pid with
    | none => simp [htask, h, SameTask] at hsame
    | some task =>
      simp only [htask] at hsame
      split_ifs at hsame with hz
      · simp [h, SameTask] at hsame
      · by_cases hp : p = pid
        · subst hp; simp [SameTask] at hsame
        · simp [hp, h, SameTask] at hsame

/-- A wakeup only ever takes the woken task out of a futex set. -/
theorem mem_makeRunnable_futexWaiters (pid p : Pid) (key : Pid × Nat) :
    (p ∈ (s.makeRunnable pid).futexWaiters key → p ∈ s.futexWaiters key) ∧
      (p ≠ pid → p ∈ s.futexWaiters key → p ∈ (s.makeRunnable pid).futexWaiters key) := by
  rw [makeRunnable_futexWaiters]
  cases s.tasks pid with
  | none => exact ⟨id, fun _ => id⟩
  | some t =>
    dsimp only
    split_ifs
    · rw [mem_remove]
      exact ⟨fun h => h.1, fun hne h => ⟨h, hne⟩⟩
    · exact ⟨id, fun _ => id⟩

end

end Sched

end HamixOS.Kernel

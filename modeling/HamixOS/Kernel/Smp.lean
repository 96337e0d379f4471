import HamixOS.Kernel.Futex

namespace HamixOS.Kernel

open Lib

/-!
# Several CPUs and one scheduler

The rest of `kernel/src/task/mod.rs`: `boost`, `pick`, `schedule`, `finish_switch`, the
wakeups, `kill`, exit and reaping, over the tables of `Kernel.Sched`.  Every function
that takes the `SCHED` lock is one step, so a run is any interleaving of these steps by
any number of CPUs.

* `Sched.boost`, `Sched.pick` — the ready queues, with the loops as the code has them;
* `Smp` — the scheduler with what each CPU runs (`current`), what it has just left
  (`previous`, until `finish_switch`), and the clock;
* `Smp.step` — one step of the machine.

The clock and the input counter may advance between two loads inside one locked
section: `Loads` has one increment for each load of `schedule`.
-/

/-- `LEVELS`. -/
def levels : Nat := 4

/-- `SLICE`. -/
def slices : List Nat := [6, 12, 24, 48]

/-- `BOOST_INTERVAL`. -/
def boostInterval : Nat := tickHz

namespace Sched

/-- `pop_front` of a queue whose tail is `rest`. -/
def pop (s : Sched) (level : Nat) (rest : List Pid) : Sched :=
  { s with ready := Function.update s.ready level rest }

/-- `push_back`, without the mask. -/
def pushBack (s : Sched) (level : Nat) (pid : Pid) : Sched :=
  { s with ready := Function.update s.ready level (s.ready level ++ [pid]) }

def setLevel (s : Sched) (pid : Pid) (level : Nat) : Sched :=
  match s.tasks pid with
  | some task => s.setTask pid { task with level }
  | none => s

/-- The `while let` loop of `boost` for one level. -/
def boostLoop (level : Nat) : Sched → List Pid → Sched
  | s, [] => s
  | s, pid :: rest => boostLoop level (((s.pop level rest).setLevel pid 0).pushBack 0 pid) rest

def boostLevel (s : Sched) (level : Nat) : Sched :=
  let s := boostLoop level s (s.ready level)
  { s with mask := s.mask.ldiff (1 <<< level) }

/-- `boost`, with the new value of `boosted_at`. -/
def boost (s : Sched) (boostedAt now : Nat) : Sched × Nat :=
  if now - boostedAt < boostInterval then (s, boostedAt)
  else
    let s := [1, 2, 3].foldl boostLevel s
    (if s.ready 0 ≠ [] then { s with mask := s.mask ||| 1 } else s, now)

/-- The `while let` loop of `pick` for one level: the tasks put off because they are pinned
    to another CPU, and the task chosen. -/
def scan (pinned : Pid → Option Nat) (cpu level : Nat) :
    Sched → List Pid → List Pid → Sched × List Pid × Option Pid
  | s, deferred, [] => (s, deferred, none)
  | s, deferred, pid :: rest =>
    let s := s.pop level rest
    match s.tasks pid with
    | none => scan pinned cpu level s deferred rest
    | some task =>
      if task.state ≠ .runnable ∨ task.onCpu.isSome then
        scan pinned cpu level (s.setTask pid { task with queued := false }) deferred rest
      else if (pinned pid).any (· ≠ cpu) then scan pinned cpu level s (deferred ++ [pid]) rest
      else (s.setTask pid { task with queued := false }, deferred, some pid)

/-- The loop of `pick` over the levels. -/
def pickLevels (pinned : Pid → Option Nat) (cpu : Nat) :
    Sched → List Pid → List Nat → Sched × List Pid × Pid
  | s, deferred, [] => (s, deferred, 0)
  | s, deferred, level :: rest =>
    if s.mask.testBit level = false then pickLevels pinned cpu s deferred rest
    else
      match scan pinned cpu level s deferred (s.ready level) with
      | (s, deferred, some pid) => (s, deferred, pid)
      | (s, deferred, none) =>
        pickLevels pinned cpu { s with mask := s.mask.ldiff (1 <<< level) } deferred rest

/-- `pick` puts a deferred task back at the front of its queue. -/
def restore (s : Sched) (pid : Pid) : Sched :=
  match s.tasks pid with
  | some task =>
    { s with
      ready := Function.update s.ready task.level (pid :: s.ready task.level)
      mask := s.mask ||| (1 <<< task.level) }
  | none => s

/-- The part of `pick` after `rescan_blocked` and `boost`. -/
def choose (s : Sched) (pinned : Pid → Option Nat) (cpu : Nat) : Sched × Pid :=
  let (s, deferred, chosen) := pickLevels pinned cpu s [] (List.range levels)
  (deferred.foldl restore s, chosen)

/-- The values `pick` loads: the clock and the input counter for its first test, again in
    `rescan_blocked`, and the clock in `boost`. -/
structure Loads where
  ticks : Nat
  seq : Nat
  rescanTicks : Nat
  rescanSeq : Nat
  boostTicks : Nat

def pick (s : Sched) (boostedAt : Nat) (pinned : Pid → Option Nat) (cpu : Nat) (l : Loads) :
    Sched × Nat × Pid :=
  let s :=
    if l.ticks ≥ s.nextTimer ∨ l.seq ≠ s.scannedInput then s.rescanBlocked l.rescanTicks l.rescanSeq
    else s
  let (s, boostedAt) := s.boost boostedAt l.boostTicks
  let (s, chosen) := s.choose pinned cpu
  (s, boostedAt, chosen)

/-! ### Wakeups -/

/-- `waiters(flag)`: the tasks in the sets of the bits of `flag`, each once. -/
def waiters (s : Sched) (flag : Nat) : List Pid :=
  ((List.range waitKinds).filter (flag.testBit ·)).foldl
    (fun l b => (s.waiting b).foldl (fun l pid => OrdSet.insert (· ≤ ·) pid l) l) []

/-- The test the wakeups make before they wake a task. -/
def waitsFor (s : Sched) (flag : Nat) (pid : Pid) : Bool :=
  (s.tasks pid).any (fun t => t.state == .blocked && t.wait &&& flag != 0)

def wake (s : Sched) (pid : Pid) (flag : Nat) : Sched :=
  ((s.waiters flag).filter (fun tid =>
    (s.tasks tid).any (fun t => t.pid == pid || t.leader == pid) && s.waitsFor flag tid)).foldl
      makeRunnable s

def wakeTask (s : Sched) (tid : Pid) (flag : Nat) : Sched :=
  if s.waitsFor flag tid then s.makeRunnable tid else s

/-- `wake_all`, without its increment of the input counter. -/
def wakeAll (s : Sched) (flag : Nat) : Sched :=
  ((s.waiters flag).filter (s.waitsFor flag)).foldl makeRunnable s

/-- The members of a process `kill` goes through. -/
def liveMembers (s : Sched) (members : List Pid) : List Pid :=
  members.filter (fun tid => (s.tasks tid).any (fun t => t.state != .zombie))

/-- A task keeps the first code it was killed with. -/
def markKilled (s : Sched) (code : Int) (tid : Pid) : Sched :=
  match s.tasks tid with
  | some task => s.setTask tid { task with killed := task.killed <|> some code }
  | none => s

/-- One round of `kill`'s loop. -/
def killOne (code : Int) (s : Sched) (member : Pid) : Sched :=
  (s.markKilled code member).makeRunnable member

/-- The first half of a round of `stop_other_threads`. -/
def stopOthers (s : Sched) (pid : Pid) (members : List Pid) : Sched :=
  (members.filter (fun tid => (s.tasks tid).any (fun t =>
    t.pid != pid && !(t.state == .zombie && t.onCpu.isNone)))).foldl (markKilled · 0 ·) s

/-- `schedule` puts the task it switches to on its CPU; the idle task stays on none. -/
def dispatch (s : Sched) (next : Pid) (cpu : Nat) : Sched :=
  match s.tasks next with
  | some t => if next ≠ 0 then s.setTask next { t with onCpu := some cpu } else s
  | none => s

end Sched

/-! ### The machine -/

structure Smp where
  sched : Sched
  boostedAt : Nat
  members : Pid → List Pid
  parent : Pid → Pid
  kernelThread : Pid → Bool
  pinned : Pid → Option Nat
  current : Nat → Pid
  previous : Nat → Pid
  sliceStart : Nat → Nat
  sliceLen : Nat → Nat
  ticks : Nat
  inputSeq : Nat

/-- A task as `new_task` makes it. -/
def Task.fresh (pid leader : Pid) (sigMask : BitVec 64) : Task where
  pid := pid
  leader := leader
  state := .runnable
  futex := 0
  wait := 0
  wakeAt := 0
  inputSeq := 0
  wakePending := false
  killed := none
  sigMask := sigMask
  sigPending := 0
  onCpu := none
  level := 0
  queued := false

/-- How far the clock and the input counter advance before each load of `schedule`. -/
structure Advance where
  used : Nat
  pick : Nat
  pickSeq : Nat
  rescan : Nat
  rescanSeq : Nat
  boost : Nat
  start : Nat

namespace Smp

variable (m : Smp)

/-- What the loads of `pick` return. -/
def loads (d : Advance) : Sched.Loads where
  ticks := m.ticks + d.used + d.pick
  seq := m.inputSeq + d.pickSeq
  rescanTicks := m.ticks + d.used + d.pick + d.rescan
  rescanSeq := m.inputSeq + d.pickSeq + d.rescanSeq
  boostTicks := m.ticks + d.used + d.pick + d.rescan + d.boost

/-- The clock after a call of `schedule`. -/
def clockAfter (d : Advance) : Nat := m.ticks + d.used + d.pick + d.rescan + d.boost + d.start

/-- The level `schedule` gives the outgoing task. -/
def nextLevel (t : Task) (used slice : Nat) : Nat :=
  if t.state = .runnable ∧ used ≥ slice then min (t.level + 1) (levels - 1)
  else if t.state = .blocked ∧ used < slice then t.level - 1
  else t.level

/-- `schedule` adjusts the level of the task it is about to leave. -/
def adjusted (cpu : Nat) (d : Advance) : Sched :=
  if m.current cpu = 0 then m.sched
  else
    match m.sched.tasks (m.current cpu) with
    | some t =>
      m.sched.setTask (m.current cpu)
        { t with level := nextLevel t (m.ticks + d.used - m.sliceStart cpu) (m.sliceLen cpu) }
    | none => m.sched

/-- `schedule` on `cpu`, up to the switch of stacks. -/
def schedule (cpu : Nat) (d : Advance) : Smp :=
  let (s, boostedAt, next) := (m.adjusted cpu d).pick m.boostedAt m.pinned cpu (m.loads d)
  let m := { m with
    sched := s
    boostedAt
    ticks := m.clockAfter d
    inputSeq := m.inputSeq + d.pickSeq + d.rescanSeq }
  if next = m.current cpu then
    if next ≠ 0 then { m with sliceStart := Function.update m.sliceStart cpu m.ticks } else m
  else
    { m with
      sched := s.dispatch next cpu
      previous := Function.update m.previous cpu (m.current cpu)
      current := Function.update m.current cpu next
      sliceStart := Function.update m.sliceStart cpu m.ticks
      sliceLen := Function.update m.sliceLen cpu (slices.getD (((s.tasks next).map (·.level)).getD 0) 0) }

/-- `remove_task`. -/
def removeTask (pid : Pid) : Smp :=
  match m.sched.tasks pid with
  | some t =>
    { m with
      sched := { m.sched with tasks := Function.update m.sched.tasks pid none }
      members := Function.update m.members t.leader (OrdSet.remove pid (m.members t.leader)) }
  | none => m

def finishSwitch (cpu : Nat) : Smp :=
  let previous := m.previous cpu
  let m := { m with previous := Function.update m.previous cpu 0 }
  if previous = 0 then m
  else
    match m.sched.tasks previous with
    | some t =>
      if t.onCpu = some cpu then
        let m := { m with sched := m.sched.setTask previous { t with onCpu := none } }
        if t.state = .zombie ∧ m.parent previous = 0 then m.removeTask previous
        else if t.state = .runnable then { m with sched := m.sched.enqueue previous }
        else m
      else m
    | none => m

/-- `insert_task`, for a task with parent, kind and CPU. -/
def insertTask (task : Task) (parent : Pid) (kernelThread : Bool) (pinned : Option Nat) : Smp :=
  { m with
    sched := ({ m.sched with
      tasks := Function.update m.sched.tasks task.pid (some task) } : Sched).enqueue task.pid
    members := Function.update m.members task.leader
      (OrdSet.insert (· ≤ ·) task.pid (m.members task.leader))
    parent := Function.update m.parent task.pid parent
    kernelThread := Function.update m.kernelThread task.pid kernelThread
    pinned := Function.update m.pinned task.pid pinned }

def kill (pid : Pid) (code : Int) : Smp :=
  match m.sched.tasks pid with
  | some t =>
    if m.kernelThread pid ∨ t.state = .zombie then m
    else
      { m with sched :=
          (m.sched.liveMembers (m.members t.leader)).foldl (Sched.killOne code) m.sched }
  | none => m

/-- `exit_current` takes the parent from the children of `pid`. -/
def disown (pid : Pid) : Smp := { m with parent := fun p => if m.parent p = pid then 0 else m.parent p }

/-- The zombie state of `exit_current`, and of `exit_thread` with its parent cleared. -/
def exit (pid : Pid) : Smp :=
  match m.sched.tasks pid with
  | some t =>
    { m with
      sched := m.sched.setTask pid { t with state := .zombie, queued := false }
      parent := if t.leader = pid then m.parent else Function.update m.parent pid 0 }
  | none => m

end Smp

/-- The steps of the machine. -/
inductive Event where
  /-- A new task with a pid of its own. -/
  | insert (pid leader parent : Pid) (sigMask : BitVec 64) (kernelThread : Bool)
      (pinned : Option Nat)
  | schedule (cpu : Nat) (d : Advance)
  | finishSwitch (cpu : Nat)
  /-- `block` by the task that runs on `cpu`, up to its call of `schedule`. -/
  | block (cpu flags : Nat) (timeout : Option Nat) (seq : Nat)
  | makeRunnable (pid : Pid)
  | wake (pid : Pid) (flag : Nat)
  | wakeTask (tid : Pid) (flag : Nat)
  | wakeAll (flag : Nat)
  | interrupt (tid : Pid)
  | wakeFutex (leader : Pid) (addr count : Nat)
  | requeueFutex (leader : Pid) (source target count : Nat)
  | setCurrentFutex (cpu addr : Nat)
  | kill (pid : Pid) (code : Int)
  | stopOthers (pid : Pid)
  | disown (pid : Pid)
  | detach (pid : Pid)
  | exit (cpu : Nat)
  | reap (pid : Pid)
  /-- The signal code changes the mask or the pending set of a task. -/
  | signals (tid : Pid) (mask pending : BitVec 64)
  | tick (n : Nat)
  | notifyInput

namespace Smp

/-- The task that runs on `cpu`: it is not idle, and the switch to it is complete. -/
def running (m : Smp) (cpu : Nat) : Option Task :=
  if m.current cpu ≠ 0 ∧ m.previous cpu = 0 then
    (m.sched.tasks (m.current cpu)).filter (fun t => t.state = .runnable)
  else none

def step (m : Smp) : Event → Option Smp
  | .insert pid leader parent sigMask kernelThread pinned =>
    if m.sched.tasks pid = none then
      some (m.insertTask (Task.fresh pid leader sigMask) parent kernelThread pinned)
    else none
  | .schedule cpu d => if m.previous cpu = 0 then some (m.schedule cpu d) else none
  | .finishSwitch cpu => some (m.finishSwitch cpu)
  | .block cpu flags timeout seq =>
    (m.running cpu).map (fun _ =>
      { m with sched := m.sched.block (m.current cpu) flags timeout seq m.ticks m.inputSeq })
  | .makeRunnable pid => some { m with sched := m.sched.makeRunnable pid }
  | .wake pid flag => some { m with sched := m.sched.wake pid flag }
  | .wakeTask tid flag => some { m with sched := m.sched.wakeTask tid flag }
  | .wakeAll flag =>
    some { m with inputSeq := m.inputSeq + 1, sched := m.sched.wakeAll flag }
  | .interrupt tid => some { m with sched := m.sched.interrupt tid }
  | .wakeFutex leader addr count =>
    some { m with sched := (m.sched.wakeFutex leader addr count).1 }
  | .requeueFutex leader source target count =>
    some { m with sched := (m.sched.requeueFutex leader source target count).1 }
  | .setCurrentFutex cpu addr =>
    (m.running cpu).map (fun _ => { m with sched := m.sched.setCurrentFutex (m.current cpu) addr })
  | .kill pid code => some (m.kill pid code)
  | .stopOthers pid => some { m with sched := m.sched.stopOthers pid (m.members pid) }
  | .disown pid => some (m.disown pid)
  | .detach pid => some { m with parent := Function.update m.parent pid 0 }
  | .exit cpu => (m.running cpu).map (fun _ => m.exit (m.current cpu))
  | .reap pid =>
    match m.sched.tasks pid with
    | some t => if t.state = .zombie ∧ t.onCpu = none then some (m.removeTask pid) else none
    | none => none
  | .signals tid mask pending =>
    match m.sched.tasks tid with
    | some t =>
      some { m with sched := m.sched.setTask tid { t with sigMask := mask, sigPending := pending } }
    | none => none
  | .tick n => some { m with ticks := m.ticks + n }
  | .notifyInput => some { m with inputSeq := m.inputSeq + 1 }

/-- `init`: the idle task, every CPU idle, nothing queued. -/
def Boot (m : Smp) : Prop :=
  m.sched.tasks = Function.update (fun _ => none) 0 (some (Task.fresh 0 0 0)) ∧
    m.sched.ready = (fun _ => []) ∧ m.sched.timers = [] ∧ m.sched.waiting = (fun _ => []) ∧
    m.sched.nextTimer = 0 ∧ m.current = (fun _ => 0) ∧ m.previous = (fun _ => 0)

/-- The machine as `init` leaves it, on CPUs that share nothing but the scheduler. -/
def boot : Smp where
  sched := {
    tasks := Function.update (fun _ => none) 0 (some (Task.fresh 0 0 0))
    ready := fun _ => []
    mask := 0
    scannedInput := 0
    timers := []
    waiting := fun _ => []
    futexWaiters := fun _ => []
    nextTimer := 0 }
  boostedAt := 0
  members := Function.update (fun _ => []) 0 [0]
  parent := fun _ => 0
  kernelThread := fun _ => false
  pinned := fun _ => none
  current := fun _ => 0
  previous := fun _ => 0
  sliceStart := fun _ => 0
  sliceLen := fun _ => 0
  ticks := 0
  inputSeq := 0

theorem boot_boot : Boot boot := ⟨rfl, rfl, rfl, rfl, rfl, rfl, rfl⟩

end Smp

end HamixOS.Kernel

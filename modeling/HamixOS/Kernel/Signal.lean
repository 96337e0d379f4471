import HamixOS.Kernel.Errno
import HamixOS.Kernel.Sched

namespace HamixOS.Kernel

open List

/-!
# Signals: `kernel/src/syscall/signal.rs`

The task table as the signal code sees it.  Every signal operation runs under the big
kernel lock, so it is a function from one table to the next.

* `Procs.tasks` is the `BTreeMap` of tasks in the order of its keys; `members` of the
  scheduler lists the tasks by their `leader`, so `groupOf` filters the table.
* `Thread` has the fields the signal code reads or writes.  Of `make_runnable` only
  the change of `state` is kept; its queues are the subject of `Kernel.Sched`.
* `me` is the calling thread (`current_tid`); the user memory a call reads or writes
  comes in as an argument.
* Every operation is an `update` of the table by a function on threads: `get_update`
  reads the result back, and no later proof looks at the list again.
-/

inductive Abi where
  | native
  | hamix
  | linux
  deriving DecidableEq, Repr

structure SigAction where
  handler : Nat
  flags : Nat
  restorer : Nat
  mask : BitVec 64
  deriving DecidableEq

/-- `SigAction::default()`. -/
def SigAction.dfl : SigAction := ⟨0, 0, 0, 0⟩

structure PosixTimer where
  id : Nat
  signo : Nat
  thread : Pid
  next : Nat
  interval : Nat
  overrun : Nat
  deriving DecidableEq

/-- The fields of a task that the signal code reads or writes. -/
structure Thread where
  pid : Pid
  leader : Pid
  kernelThread : Bool
  state : State
  abi : Abi
  uid : Nat
  ruid : Nat
  suid : Nat
  pgid : Pid
  sigActions : Nat → SigAction
  sigMask : BitVec 64
  sigPending : BitVec 64
  sigSender : Nat → Nat
  savedMask : Option (BitVec 64)
  killed : Option Int
  exitSignal : Nat
  timers : List PosixTimer

/-- `new_task_with_pid`, as far as these fields go. -/
def Thread.fresh (pid : Pid) : Thread where
  pid := pid
  leader := pid
  kernelThread := false
  state := .runnable
  abi := .native
  uid := 0
  ruid := 0
  suid := 0
  pgid := pid
  sigActions := fun _ => .dfl
  sigMask := 0
  sigPending := 0
  sigSender := fun _ => 0
  savedMask := none
  killed := none
  exitSignal := 0
  timers := []

def sigint : Nat := 2
def sigquit : Nat := 3
def sigkill : Nat := 9
def sigpipe : Nat := 13
def sigalrm : Nat := 14
def sigchld : Nat := 17
def sigcont : Nat := 18
def sigstop : Nat := 19
def sigtstp : Nat := 20
def sigttin : Nat := 21
def sigttou : Nat := 22
def sigurg : Nat := 23
def sigwinch : Nat := 28
def nsig : Nat := 64

def sigDfl : Nat := 0
def sigIgn : Nat := 1
def saNodefer : Nat := 0x40000000
def saResethand : Nat := 0x80000000

/-- `bit(sig)`; the code calls it for `1 ≤ sig ≤ 64` only. -/
def bit (sig : Nat) : BitVec 64 := 1#64 <<< (sig - 1)

def defaultIgnored (sig : Nat) : Bool :=
  [sigchld, sigcont, sigurg, sigwinch, sigstop, sigtstp, sigttin, sigttou].contains sig

/-- `x as Pid`, from an `i64` or a `u64`. -/
def asPid (x : Int) : Pid := (x % 2 ^ 32).toNat

namespace Thread

def live (t : Thread) : Bool := t.state != .zombie

/-- `t.sig_mask & bit(sig) != 0`. -/
def blocks (t : Thread) (sig : Nat) : Bool := t.sigMask &&& bit sig != 0

/-- `t.sig_pending & bit(sig) != 0`. -/
def holds (t : Thread) (sig : Nat) : Bool := t.sigPending &&& bit sig != 0

/-- `make_runnable`, as far as the task's state goes. -/
def awake (t : Thread) : Thread := if t.live then { t with state := .runnable } else t

/-- What `kill` does to one member of the process. -/
def mark (code : Int) (t : Thread) : Thread :=
  Thread.awake { t with killed := t.killed <|> some code }

/-- What `queue` does to its target, `interrupt` included. -/
def pend (sig sender : Nat) (t : Thread) : Thread :=
  let t := { t with
    sigPending := t.sigPending ||| bit sig
    sigSender := Function.update t.sigSender sig sender }
  if t.state = .blocked then t.awake else t

end Thread

structure Procs where
  tasks : List Thread
  nextPid : Pid
  /-- `PENDING_HINT`. -/
  hint : Nat

namespace Procs

variable (s : Procs)

def get (pid : Pid) : Option Thread := s.tasks.find? (fun t => t.pid = pid)

def update (f : Thread → Thread) : Procs := { s with tasks := s.tasks.map f }

/-- `with_task(pid, f)` for an `f` that writes. -/
def withTask (pid : Pid) (f : Thread → Thread) : Procs :=
  s.update (fun t => if t.pid = pid then f t else t)

/-- The key `with_current` picks for the calling thread `me`. -/
def currentKey (me : Pid) : Pid :=
  match s.get me with
  | some t => if (s.get t.leader).isSome then t.leader else me
  | none => me

/-- The task `with_current` reads. -/
def current (me : Pid) : Option Thread := s.get (s.currentKey me)

def withCurrent (me : Pid) (f : Thread → Thread) : Procs := s.withTask (s.currentKey me) f

/-- `current_pid()`. -/
def currentPid (me : Pid) : Pid :=
  if me = 0 then 0 else ((s.get me).map (·.leader)).getD me

def inGroup (leader : Pid) (t : Thread) : Bool := t.leader == leader && t.live

def groupOf (leader : Pid) : List Pid := (s.tasks.filter (inGroup leader)).map (·.pid)

/-! ### Sending -/

/-- `task::kill`. -/
def kill (pid : Pid) (code : Int) : Procs :=
  match s.get pid with
  | some t =>
    if t.kernelThread ∨ ¬ t.live then s
    else s.update (fun m => if inGroup t.leader m then m.mark code else m)
  | none => s

def terminate (pid : Pid) (sig : Nat) : Procs :=
  (s.withTask pid (fun t => { t with exitSignal := sig % 256 })).kill pid (128 + sig)

/-- The value `queue` stores as the sender: the caller's process and its `ruid`. -/
def senderOf (me : Pid) : Nat :=
  if me = 0 then 0
  else match s.current me with
    | some t => (t.leader <<< 32) ||| t.ruid
    | none => 0

def queue (me tid : Pid) (sig : Nat) : Procs :=
  { s.withTask tid (Thread.pend sig (s.senderOf me)) with hint := s.hint + 1 }

/-- The thread `send` queues a signal of `leader`'s process on. -/
def chosen (leader : Pid) (sig : Nat) : Option Pid :=
  let found := (s.groupOf leader).find? (fun m => (s.get m).any (fun t => !t.blocks sig))
  (found <|> some leader).filter (fun m => (s.get m).isSome)

def send (me pid : Pid) (sig : Nat) : Procs × Bool :=
  if sig > nsig then (s, false)
  else
    match s.get pid with
    | none => (s, false)
    | some t =>
      if t.kernelThread ∨ ¬ t.live then (s, false)
      else if sig = 0 then (s, true)
      else
        let abi := ((s.get t.leader).map (·.abi)).getD .native
        let action := ((s.get t.leader).map (·.sigActions sig)).getD .dfl
        if sig = sigkill then (s.terminate t.leader sig, true)
        else if sig = sigcont then (s, true)
        else if (abi = .native ∨ action.handler = sigDfl) ∧ defaultIgnored sig then (s, true)
        else if abi = .native then (s.terminate t.leader sig, true)
        else if action.handler = sigIgn then (s, true)
        else
          match s.chosen t.leader sig with
          | none => (s, false)
          | some target => (s.queue me target sig, true)

def sendThread (me tid : Pid) (sig : Nat) : Procs × Bool :=
  if sig > nsig then (s, false)
  else
    match s.get tid with
    | none => (s, false)
    | some t =>
      if sig = 0 then (s, true)
      else if t.leader = tid ∧ (¬ t.blocks sig ∨ sig = sigkill) then s.send me tid sig
      else
        let action := ((s.get t.leader).map (·.sigActions sig)).getD .dfl
        if action.handler = sigIgn ∨ (action.handler = sigDfl ∧ defaultIgnored sig) then (s, true)
        else if action.handler = sigDfl then (s.terminate t.leader sig, true)
        else (s.queue me tid sig, true)

/-! ### POSIX timers -/

/-- One timer of `check_posix_timers`' loop, rearmed, with the signal it fires. -/
def expire (now : Nat) (timer : PosixTimer) : PosixTimer × Option (Nat × Pid) :=
  if timer.next ≠ 0 ∧ now ≥ timer.next then
    let fired := if timer.signo ≠ 0 then some (timer.signo, timer.thread) else none
    if timer.interval ≠ 0 then
      let missed := (now - timer.next) / timer.interval
      ({ timer with
        overrun := missed % 2 ^ 32
        next := (timer.next + (missed + 1) * timer.interval) % 2 ^ 64 }, fired)
    else ({ timer with next := 0 }, fired)
  else (timer, none)

/-- One round of the second loop of `check_posix_timers`. -/
def fire (me pid : Pid) (s : Procs) (e : Nat × Pid) : Procs :=
  if e.2 ≠ 0 then (s.sendThread me e.2 e.1).1 else (s.send me pid e.1).1

def checkPosixTimers (me : Pid) (now : Nat) : Procs :=
  match s.current me with
  | none => s
  | some t =>
    let s' := s.withCurrent me (fun t => { t with timers := t.timers.map (fun x => (expire now x).1) })
    (t.timers.filterMap (fun x => (expire now x).2)).foldl (fire me t.pid) s'

/-- The `sigevent` argument of `sys_timer_create`. -/
inductive Sevp where
  | null
  | fault
  | event (signo notify tid : Nat)

/-- The signal and the target thread a `sigevent` asks for. -/
def Sevp.target : Sevp → Except Int (Nat × Pid)
  | .null => .ok (sigalrm, 0)
  | .fault => .error efault
  | .event signo notify tid =>
    if notify = 1 then .ok (0, 0)
    else if notify = 0 then .ok (signo, 0)
    else if notify = 4 then .ok (signo, tid)
    else .error einval

/-- The smallest timer number that is not in use. -/
def freeTimer (timers : List PosixTimer) : Nat :=
  ((List.range (timers.length + 1)).find? (fun i => !timers.any (fun x => x.id == i))).getD 0

/-- `outOk`: whether `copy_out` of the timer's number succeeds. -/
def sysTimerCreate (me : Pid) (clock : Nat) (sevp : Sevp) (outOk : Bool) : Procs × Int :=
  if clock > 11 then (s, einval)
  else
    match sevp.target with
    | .error e => (s, e)
    | .ok (signo, thread) =>
      if signo > nsig then (s, einval)
      else
        match s.current me with
        | none => (s, 0)
        | some t =>
          let id := freeTimer t.timers
          let s := s.withCurrent me (fun t =>
            { t with timers := t.timers ++ [⟨id, signo, thread, 0, 0, 0⟩] })
          if outOk then (s, 0)
          else
            (s.withCurrent me (fun t => { t with timers := t.timers.filter (·.id != id) }), efault)

/-- `sys_timer_settime` once its times are read and turned into ticks. -/
def sysTimerSettime (me : Pid) (id next interval : Nat) : Procs × Int :=
  match s.current me with
  | none => (s, einval)
  | some t =>
    match t.timers.findIdx? (fun x => x.id == id % 2 ^ 32) with
    | none => (s, einval)
    | some i =>
      (s.withCurrent me (fun t =>
        { t with timers := t.timers.modify i (fun x => { x with next, interval }) }), 0)

/-! ### The system calls that send -/

/-- The processes `sys_kill` addresses. -/
def killTargets (me : Pid) (pid : Int) : List Pid :=
  let leaders (p : Thread → Bool) : List Pid :=
    (s.tasks.filter (fun t => t.leader == t.pid && !t.kernelThread && t.live && p t)).map (·.pid)
  let pgid := ((s.current me).map (·.pgid)).getD 0
  let uid := ((s.current me).map (·.uid)).getD 0
  if pid > 0 then [asPid pid]
  else if pid = 0 then leaders (fun t => t.pgid == pgid)
  else if pid = -1 then leaders (fun t => t.pid != s.currentPid me && (uid == 0 || t.uid == uid))
  else leaders (fun t => t.pgid == asPid (-pid))

/-- The check `sys_kill` makes of one target. -/
def permits (uid ruid : Nat) (t : Thread) : Bool :=
  t.uid == uid || t.ruid == ruid || t.uid == ruid

/-- One round of `sys_kill`'s loop. -/
def killOne (me : Pid) (uid ruid : Nat) (acc : Procs × Bool × Bool) (sig : Nat) (target : Pid) :
    Procs × Bool × Bool :=
  let (s, delivered, denied) := acc
  let go := let (s', sent) := s.send me target sig; (s', delivered || sent, denied)
  if uid ≠ 0 then
    match s.get target with
    | some t => if permits uid ruid t then go else (s, delivered, true)
    | none => (s, delivered, denied)
  else go

def sysKill (me : Pid) (pid : Int) (sig : Nat) : Procs × Int :=
  if sig > nsig then (s, einval)
  else
    let targets := s.killTargets me pid
    if targets = [] then (s, esrch)
    else
      let uid := ((s.current me).map (·.uid)).getD 0
      let ruid := ((s.current me).map (·.ruid)).getD 0
      let (s', delivered, denied) :=
        targets.foldl (fun acc target => killOne me uid ruid acc sig target) (s, false, false)
      (s', if delivered then 0 else if denied then eperm else esrch)

def sysTgkill (me : Pid) (tgid : Int) (tid sig : Nat) : Procs × Int :=
  if sig > nsig then (s, einval)
  else
    match s.get (asPid tid) with
    | some t =>
      if tgid ≤ 0 ∨ t.leader = asPid tgid then
        let (s', sent) := s.sendThread me (asPid tid) sig
        (s', if sent then 0 else esrch)
      else (s, esrch)
    | none => (s, esrch)

/-! ### Dispositions, masks and receiving -/

/-- `sys_rt_sigaction` for the calling thread `me`, once its arguments are read. -/
def sysRtSigaction (me : Pid) (sig : Nat) (new : Option SigAction) : Procs × Int :=
  if sig = 0 ∨ sig > nsig ∨ ((sig = sigkill ∨ sig = sigstop) ∧ new.isSome) then (s, einval)
  else
    match new with
    | none => (s, 0)
    | some action =>
      let s := s.withCurrent me (fun t =>
        { t with sigActions := Function.update t.sigActions sig action })
      if action.handler = sigIgn ∨ (action.handler = sigDfl ∧ defaultIgnored sig) then
        let leader := s.currentPid me
        (s.update (fun t =>
          if inGroup leader t then { t with sigPending := t.sigPending &&& ~~~bit sig } else t), 0)
      else (s, 0)

/-- The mask `sys_rt_sigprocmask` computes. -/
def newMask (how : Nat) (old value : BitVec 64) : Option (BitVec 64) :=
  if how = 0 then some (old ||| value)
  else if how = 1 then some (old &&& ~~~value)
  else if how = 2 then some value
  else none

/-- Set the mask of the calling thread; `rt_sigprocmask` and `rt_sigreturn` end here. -/
def setMask (me : Pid) (mask : BitVec 64) : Procs :=
  s.withTask me (fun t => { t with sigMask := mask &&& ~~~unblockable })

def sysRtSigprocmask (me : Pid) (how : Nat) (set : Option (BitVec 64)) : Procs × Int :=
  match s.get me, set with
  | some t, some value =>
    match newMask how t.sigMask value with
    | some mask => (s.setMask me mask, 0)
    | none => (s, einval)
  | _, _ => (s, 0)

/-- The mask swap at the start of `sys_rt_sigsuspend`. -/
def suspendMask (me : Pid) (mask : BitVec 64) : Procs := s.setMask me mask

/-- The end of `sys_rt_sigsuspend`: the mask to go back to is kept for `deliver`. -/
def saveMask (me : Pid) (old : BitVec 64) : Procs :=
  s.withTask me (fun t => { t with savedMask := some old })

/-- `trailing_zeros`, of a set that is not empty. -/
def lowest (set : BitVec 64) : Option Nat := (List.range 64).find? (set.getLsbD ·)

/-- The signals `deliver` and `pending` find ready in a thread. -/
def ready (t : Thread) : BitVec 64 := t.sigPending &&& ~~~(t.sigMask &&& ~~~unblockable)

/-- What one round of `deliver`'s loop did. -/
inductive Outcome where
  | idle
  | ignored (sig : Nat)
  | fatal (sig : Nat)
  | handled (sig : Nat)
  deriving DecidableEq, Repr

/-- The signal a thread received in a round, if any. -/
def Outcome.received : Outcome → Option Nat
  | .idle => none
  | .ignored sig => some sig
  | .fatal sig => some sig
  | .handled sig => some sig

/-- Take `sig` out of the pending set of `me`. -/
def takePending (me : Pid) (sig : Nat) : Procs :=
  s.withTask me (fun t => { t with sigPending := t.sigPending &&& ~~~bit sig })

/-- `take_sender`. -/
def takeSender (me : Pid) (sig : Nat) : Procs :=
  s.withTask me (fun t => { t with sigSender := Function.update t.sigSender sig 0 })

/-- `deliver` takes `sig` out of the pending set, drops the saved mask and reads the action,
    which a handler with `SA_RESETHAND` loses. -/
def deliverTake (me : Pid) (sig : Nat) : Procs × SigAction :=
  let s := s.takePending me sig
  let s := s.withTask me (fun t => { t with savedMask := none })
  let s := { s with hint := s.hint - 1 }
  let action := ((s.current me).map (·.sigActions sig)).getD .dfl
  if action.flags &&& saResethand ≠ 0 ∧ action.handler > sigIgn then
    (s.withCurrent me (fun t =>
      { t with sigActions := Function.update t.sigActions sig .dfl }), action)
  else (s, action)

/-- The mask a handler runs with. -/
def handlerMask (mask : BitVec 64) (sig : Nat) (action : SigAction) : BitVec 64 :=
  let mask := mask ||| action.mask
  if action.flags &&& saNodefer = 0 then mask ||| bit sig else mask

/-- One round of the loop of `deliver`; `frameOk` is the result of `sigframe::setup`.
    The exit of the thread is a step of its own, see `Outcome.fatal`. -/
def deliverRound (me : Pid) (frameOk : Bool) : Procs × Outcome :=
  match s.get me with
  | none => (s, .idle)
  | some t =>
    match lowest (ready t) with
    | none => (s, .idle)
    | some i =>
      let sig := i + 1
      let mask := t.savedMask.getD t.sigMask
      let (s, action) := s.deliverTake me sig
      if action.handler = sigIgn then (s, .ignored sig)
      else if action.handler = sigDfl then
        if defaultIgnored sig then (s, .ignored sig)
        else
          (s.withTask (s.currentPid me) (fun t => { t with exitSignal := sig }), .fatal sig)
      else
        let s := s.takeSender me sig
        if frameOk then (s.setMask me (handlerMask mask sig action), .handled sig)
        else
          (s.withTask (s.currentPid me) (fun t => { t with exitSignal := 11 }), .fatal sig)

/-- One look of `sys_rt_sigtimedwait` at the pending set of the calling thread. -/
def sigtimedwaitPoll (me : Pid) (wanted : BitVec 64) : Procs × Option Nat :=
  match s.get me with
  | none => (s, none)
  | some t =>
    match lowest (t.sigPending &&& wanted) with
    | none => (s, none)
    | some i => ((s.takePending me (i + 1)).takeSender me (i + 1), some (i + 1))

/-! ### Processes and their credentials -/

/-- `clone_task` for a new thread of the caller's process. -/
def cloneThread (me : Pid) : Option Procs := do
  let current ← s.get me
  let leader := (s.get current.leader).getD current
  let child := { Thread.fresh s.nextPid with
    leader := current.leader
    abi := leader.abi
    uid := leader.uid
    ruid := leader.ruid
    suid := leader.suid
    pgid := leader.pgid
    sigMask := current.sigMask }
  some { s with tasks := s.tasks ++ [child], nextPid := s.nextPid + 1 }

/-- `clone_task` for a new process. -/
def fork (me : Pid) : Option Procs := do
  let current ← s.get me
  let leader := (s.get current.leader).getD current
  let child := { Thread.fresh s.nextPid with
    abi := leader.abi
    uid := leader.uid
    ruid := leader.ruid
    suid := leader.suid
    pgid := leader.pgid
    sigActions := leader.sigActions
    sigMask := current.sigMask }
  some { s with tasks := s.tasks ++ [child], nextPid := s.nextPid + 1 }

/-- `wanted(value, current)` of the `set*uid` calls. -/
def wanted (value current : Nat) : Nat :=
  if value % 2 ^ 32 = 2 ^ 32 - 1 then current else value % 2 ^ 32

/-- What `sys_setuid` makes of the task it is about. -/
def setuid (uid : Nat) (t : Thread) : Thread :=
  if t.uid = 0 then { t with uid, ruid := uid, suid := uid }
  else if uid = t.ruid ∨ uid = t.suid then { t with uid }
  else t

def setreuid (ruid euid : Nat) (t : Thread) : Thread :=
  let r := wanted ruid t.ruid
  let e := wanted euid t.uid
  if t.uid ≠ 0 ∧ (r ∉ [t.ruid, t.uid] ∨ e ∉ [t.ruid, t.uid, t.suid]) then t
  else
    let keep := ruid % 2 ^ 32 ≠ 2 ^ 32 - 1 ∨ (euid % 2 ^ 32 ≠ 2 ^ 32 - 1 ∧ e ≠ t.ruid)
    { t with suid := if keep then e else t.suid, ruid := r, uid := e }

def setresuid (ruid euid suid : Nat) (t : Thread) : Thread :=
  let r := wanted ruid t.ruid
  let e := wanted euid t.uid
  let v := wanted suid t.suid
  let allowed := [t.ruid, t.uid, t.suid]
  if t.uid ≠ 0 ∧ ¬ (r ∈ allowed ∧ e ∈ allowed ∧ v ∈ allowed) then t
  else { t with ruid := r, uid := e, suid := v }

/-- The part of `exec_image` that changes these fields of the process. -/
def execIds (setUid : Option Nat) (abi : Abi) (t : Thread) : Thread :=
  let uid := setUid.getD t.uid
  { t with
    uid
    suid := uid
    abi
    timers := []
    sigActions := fun sig => if (t.sigActions sig).handler > 1 then .dfl else t.sigActions sig }

/-- The threads `stop_other_threads` marks in one round. -/
def stopOthers (leader : Pid) : Procs :=
  s.update (fun t => if inGroup leader t ∧ t.pid ≠ leader then t.mark 0 else t)

/-- The task turns into a zombie: the end of `exit_thread` and of `exit_current`. -/
def exitTask (pid : Pid) : Procs := s.withTask pid (fun t => { t with state := .zombie })

/-- `remove_task`. -/
def removeTask (pid : Pid) : Procs := { s with tasks := s.tasks.filter (fun t => t.pid ≠ pid) }

/-! ### Reading the table back -/

variable {s}

@[simp] theorem update_tasks (f : Thread → Thread) : (s.update f).tasks = s.tasks.map f := rfl

theorem mem_of_get {pid : Pid} {t : Thread} (h : s.get pid = some t) : t ∈ s.tasks ∧ t.pid = pid :=
  ⟨mem_of_find?_eq_some h, by simpa using find?_some h⟩

/-- An update that leaves the pids alone acts on what a lookup finds. -/
theorem get_update {f : Thread → Thread} (hf : ∀ t, (f t).pid = t.pid) (pid : Pid) :
    (s.update f).get pid = (s.get pid).map f := by
  unfold get
  rw [update_tasks, find?_map]
  congr 2
  funext t
  simp [hf]

theorem get_withTask {f : Thread → Thread} (hf : ∀ t, (f t).pid = t.pid) (pid q : Pid) :
    (s.withTask pid f).get q = if q = pid then (s.get q).map f else s.get q := by
  unfold withTask
  rw [get_update (by intro t; split <;> simp [hf])]
  cases ht : s.get q with
  | none => simp
  | some t =>
    have hpid := (mem_of_get ht).2
    simp only [Option.map_some, hpid]
    split <;> rfl

theorem get_removeTask {pid q : Pid} (h : q ≠ pid) : (s.removeTask pid).get q = s.get q := by
  unfold get removeTask
  rw [find?_filter]
  congr 1
  funext t
  by_cases hq : t.pid = q
  · simp [hq, h]
  · simp [hq]

end Procs

end HamixOS.Kernel

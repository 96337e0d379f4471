import HamixOS.Lib.Text
import Mathlib.Data.List.Perm.Basic
import Mathlib.Data.List.Nodup

namespace HamixOS.Services

open Lib

/-!
# The service supervisor (`userland/services/hxsvc`)

`Supervisor` holds the units and their instances; commands, exits, the reading of log pipes and ticks of
the timer change them.  What the system answers to a start is a parameter; the text of logs and replies
is not part of the state.

* `start`, `stop`, `reap`, `restartDue`, `command` — the operations, each leaving marks of what it did;
* `Supervised` — what is asked of every state: processes, stopped services, restarts, results and log
  pipes;
* `Sound` — the calls of `start` that the supervisor can answer: there is no process that is on its way
  out, and no log pipe is still open;
* `supervised_of_sound` — in a run with such calls only, every state is supervised.
-/

inductive Restart where
  | no
  | onFailure
  | always
  deriving DecidableEq, Inhabited

inductive Start where
  | boot
  | manual
  | vt
  | demand
  deriving DecidableEq, Inhabited

structure Unit where
  name : Text
  restart : Restart
  start : Start
  provides : List Text
  linuxLayer : Bool
  console : Bool
  template : Bool
  vt : List Text
  deriving DecidableEq, Inhabited

inductive State where
  | stopped
  | running
  | exited
  | failed
  deriving DecidableEq

structure Instance where
  unit : Nat
  name : Text
  arg : Option Text
  pid : Option Int
  state : State
  wanted : Bool
  restarts : Nat
  lastExit : Option Int
  startedMs : Nat
  restartAt : Option Nat
  killAt : Option Nat
  /-- The read end of the log pipe, by the number of the start that opened it. -/
  logFd : Option Nat
  deriving DecidableEq

/-- Who calls `start`: a command, `restart_due`, or `reap` for a terminal that is free again. -/
inductive Cause where
  | command
  | timer
  | vt
  deriving DecidableEq

/-- What happened to the instance of a number. -/
inductive Mark where
  /-- A start, an activation or the layer asks for it. -/
  | asked (index : Nat)
  | stopped (index : Nat)
  | restarting (index : Nat)
  /-- `start` is called for it, as it is then; the system would let its unit run. -/
  | called (cause : Cause) (index : Nat) (before : Instance) (granted : Bool)
  /-- `start` returned `Ok`. -/
  | returned (index : Nat) (after : Instance)
  | opened (fd : Nat)
  | closed (fd : Nat)
  deriving DecidableEq

/-- What the system answers when a unit is started. -/
structure Answer where
  layerOff : Bool
  pipe : Bool
  pid : Int
  now : Nat

/-- The units, whether display managers are enabled, the instances, the number of starts so far and what happened, the
    last first. -/
structure Supervisor where
  units : List Unit
  managers : Bool
  instances : List Instance
  starts : Nat
  history : List Mark
  deriving DecidableEq

inductive StartError where
  | noService
  | layerOff
  | pipe
  | spawn (code : Int)
  deriving DecidableEq

def stopGraceMs : Nat := 5000

def restartDelayMs : Nat := 1000

def restartBurst : Nat := 5

/-- Whether the system lets a unit run. -/
def Unit.granted (u : Unit) (a : Answer) : Bool := ¬ (u.linuxLayer ∧ a.layerOff) ∧ (u.console ∨ a.pipe) ∧ 0 ≤ a.pid

namespace Supervisor

variable (answers : Nat → Answer) (s : Supervisor)

def unitOf (inst : Instance) : Unit := s.units.getD inst.unit default

def put (index : Nat) (inst : Instance) : Supervisor := { s with instances := s.instances.set index inst }

def mark (m : Mark) : Supervisor := { s with history := m :: s.history }

def find (name : Text) : Option Nat := s.instances.findIdx? fun inst => inst.name = name

def newInstance (unit : Nat) (name : Text) (arg : Option Text) : Instance where
  unit := unit
  name := name
  arg := arg
  pid := none
  state := .stopped
  wanted := false
  restarts := 0
  lastExit := none
  startedMs := 0
  restartAt := none
  killAt := none
  logFd := none

/-- The name of the unit of an instance, and what stands behind the `@`. -/
def splitName (name : Text) : Text × Option Text :=
  match Text.splitOnce '@' name with
  | some (base, arg) => if arg = [] then (name, none) else (base ++ ['@'], some arg)
  | none => (name, none)

def instanceFor (name : Text) : Option Nat × Supervisor :=
  match s.find name with
  | some i => (some i, s)
  | none =>
    let (base, arg) := splitName name
    match s.units.findIdx? fun u => u.name = base with
    | none => (none, s)
    | some unit =>
      if (s.units.getD unit default).template ≠ arg.isSome then (none, s)
      else (some s.instances.length, { s with instances := s.instances ++ [newInstance unit name arg] })

/-- The end of `start`: the process runs, or it could not be made and the pipe is closed again. -/
def launch (index : Nat) (inst : Instance) (a : Answer) (logFd : Option Nat) : Except StartError Int × Supervisor :=
  if a.pid < 0 then
    let s := match logFd with
      | some fd => s.mark (.closed fd)
      | none => s
    (.error (.spawn a.pid), s.put index { inst with state := .failed })
  else
    let inst := { inst with
      pid := some a.pid, state := .running, wanted := true, startedMs := a.now, restartAt := none, logFd := logFd }
    (.ok a.pid, (s.put index inst).mark (.returned index inst))

/-- An index that is out of range is not passed. -/
def start (cause : Cause) (index : Nat) : Except StartError Int × Supervisor :=
  match s.instances[index]? with
  | none => (.error .noService, s)
  | some inst =>
    let n := s.starts
    let unit := s.unitOf inst
    let s := s.mark (.called cause index inst (unit.granted (answers n)))
    match inst.pid with
    | some pid => (.ok pid, s.mark (.returned index inst))
    | none =>
      let s := { s with starts := n + 1 }
      if unit.linuxLayer ∧ (answers n).layerOff then (.error .layerOff, s)
      else if unit.console then s.launch index inst (answers n) none
      else if (answers n).pipe then (s.mark (.opened n)).launch index inst (answers n) (some n)
      else (.error .pipe, s)

def stop (now : Nat) (index : Nat) : Supervisor :=
  match s.instances[index]? with
  | none => s
  | some inst =>
    let inst := { inst with wanted := false, restartAt := none }
    let inst := if inst.pid.isSome then { inst with killAt := some (now + stopGraceMs) } else inst
    (s.put index inst).mark (.stopped index)

/-- `closed` says whether the other ends of the pipe are gone and all was read. -/
def drain (closed : Bool) (index : Nat) : Supervisor :=
  match s.instances[index]? with
  | none => s
  | some inst =>
    match inst.logFd with
    | none => s
    | some fd => if closed then (s.put index { inst with logFd := none }).mark (.closed fd) else s

def startNamed (cause : Cause) (name : Text) : Except StartError Int × Supervisor :=
  match s.instanceFor name with
  | (none, s) => (.error .noService, s)
  | (some index, s) => start answers (if cause = .command then s.mark (.asked index) else s) cause index

def vtClaimed (tty : Text) : Bool :=
  s.managers && s.units.zipIdx.any fun (u, index) =>
    u.vt.any (· = tty) && s.instances.any fun i => i.unit = index ∧ (i.pid.isSome ∨ i.wanted = true)

def startVt (tty : Text) : Supervisor :=
  if s.vtClaimed tty then s
  else
    let templates := s.units.filter fun u => u.start = .vt ∧ u.template
    templates.foldl (fun s u => (s.startNamed answers .vt (u.name ++ tty)).2) s

/-- The instance of a process that exited with `code`. -/
def reaped (restart : Restart) (now : Nat) (code : Int) (inst : Instance) : Instance :=
  let restarts := if now - inst.startedMs < 10000 then inst.restarts + 1 else 1
  let again := inst.wanted ∧ (restart = .always ∨ (restart = .onFailure ∧ code ≠ 0))
  let inst := { inst with
    pid := none, killAt := none, lastExit := some code, state := if code = 0 then .exited else .failed, restarts := restarts }
  if again ∧ ¬ restartBurst < restarts then { inst with restartAt := some (now + restartDelayMs * restarts) }
  else { inst with wanted := false }

/-- One round of `reap`; without a code the process runs. -/
def reapOne (now : Nat) (code : Option Int) (closed : Bool) (index : Nat) : Supervisor :=
  match s.instances[index]?.bind Instance.pid, code with
  | some _, some code =>
    let s := s.drain closed index
    match s.instances[index]? with
    | none => s
    | some inst =>
      let unit := s.unitOf inst
      let inst := reaped unit.restart now code inst
      let s := s.put index inst
      match if inst.wanted then none else unit.vt.head? with
      | none => s
      | some tty => s.startVt answers tty
  | _, _ => s

def reap (now : Nat) (codes : Nat → Option Int) (closed : Nat → Bool) : Supervisor :=
  (List.range s.instances.length).foldl (fun s i => s.reapOne answers now (codes i) (closed i) i) s

def killOne (now : Nat) (index : Nat) : Supervisor :=
  match s.instances[index]? with
  | none => s
  | some inst =>
    if (inst.killAt.map fun t => decide (t ≤ now)).getD false then s.put index { inst with killAt := none } else s

def killOverdue (now : Nat) : Supervisor := (List.range s.instances.length).foldl (fun s i => s.killOne now i) s

def restartOne (now : Nat) (index : Nat) : Supervisor :=
  match s.instances[index]? with
  | none => s
  | some inst =>
    if (inst.restartAt.map fun t => decide (t ≤ now)).getD false then
      (start answers (s.put index { inst with restartAt := none }) .timer index).2
    else s

def restartDue (now : Nat) : Supervisor :=
  let s := s.killOverdue now
  (List.range s.instances.length).foldl (fun s i => s.restartOne answers now i) s

/-- What `restart` adds to `stop`. -/
def rearm (now : Nat) (index : Nat) : Supervisor :=
  match s.instances[index]? with
  | none => s
  | some inst =>
    (s.put index { inst with restartAt := some (now + 300), wanted := true, restarts := 0 }).mark (.restarting index)

def activate (service : Text) : Supervisor :=
  match s.units.find? fun u => u.provides.any (· = service) with
  | some u => (s.startNamed answers .command u.name).2
  | none => s

def stopLinux (now : Nat) (index : Nat) : Supervisor :=
  match s.instances[index]? with
  | none => s
  | some inst => if (s.unitOf inst).linuxLayer ∧ inst.pid.isSome then s.stop now index else s

def setLayer (now : Nat) (linuxOn : Bool) : Supervisor :=
  if linuxOn then
    let boot := s.units.filter fun u => u.linuxLayer ∧ u.start = .boot ∧ ¬ u.template
    boot.foldl (fun s u => (s.startNamed answers .command u.name).2) s
  else (List.range s.instances.length).foldl (fun s i => s.stopLinux now i) s

inductive Request where
  | start (name : Text)
  | stop (name : Text)
  | restart (name : Text)
  | activate (service : Text)
  | layer (linuxOn : Bool)

/-- All but an activation is refused to a sender that is not root. -/
def command (root : Bool) (now : Nat) : Request → Supervisor
  | .activate service => s.activate answers service
  | .start name => if root then (s.startNamed answers .command name).2 else s
  | .stop name =>
    if root then
      match s.find name with
      | some i => s.stop now i
      | none => s
    else s
  | .restart name =>
    if root then
      match s.find name with
      | some i => (s.stop now i).rearm now i
      | none => (s.startNamed answers .command name).2
    else s
  | .layer linuxOn => if root then s.setLayer answers now linuxOn else s

inductive Event where
  | command (root : Bool) (now : Nat) (request : Request)
  | drain (closed : Bool) (index : Nat)
  | reap (now : Nat) (codes : Nat → Option Int) (closed : Nat → Bool)
  | tick (now : Nat)

def step : Event → Supervisor
  | .command root now request => s.command answers root now request
  | .drain closed index => s.drain closed index
  | .reap now codes closed => s.reap answers now codes closed
  | .tick now => s.restartDue answers now

def run (events : List Event) : Supervisor := events.foldl (step answers) s

end Supervisor

/-- The supervisor before it has started anything. -/
def initial (units : List Unit) (managers : Bool) : Supervisor := ⟨units, managers, [], 0, []⟩

/-! ### What happened to an instance -/

/-- It was stopped, and nobody has asked for it since. -/
def stoppedLast : List Mark → Nat → Bool
  | [], _ => false
  | .stopped j :: h, i => j = i || stoppedLast h i
  | .asked j :: h, i => j ≠ i && stoppedLast h i
  | .restarting j :: h, i => j ≠ i && stoppedLast h i
  | _ :: h, i => stoppedLast h i

/-- A restart was asked for, it was not stopped since, and `start` was not called since without a process. -/
def owed : List Mark → Nat → Bool
  | [], _ => false
  | .restarting j :: h, i => j = i || owed h i
  | .stopped j :: h, i => j ≠ i && owed h i
  | .called _ j before _ :: h, i => ¬ (j = i ∧ before.pid = none) && owed h i
  | _ :: h, i => owed h i

def Mark.openedFd : Mark → Option Nat
  | .opened fd => some fd
  | _ => none

def Mark.closedFd : Mark → Option Nat
  | .closed fd => some fd
  | _ => none

/-- A stopped instance is started by commands only. -/
def StaysStopped : List Mark → Prop
  | [] => True
  | .called cause i before _ :: h => (cause ≠ .command → before.pid = none → stoppedLast h i = false) ∧ StaysStopped h
  | _ :: h => StaysStopped h

/-- What is asked of every state. -/
structure Supervised (answers : Nat → Answer) (s : Supervisor) : Prop where
  running : ∀ inst ∈ s.instances, inst.state = .running ↔ inst.pid.isSome
  stopped : StaysStopped s.history
  /-- A restart that is owed comes once the process is gone and the time has come. -/
  restarted : ∀ i inst, s.instances[i]? = some inst → inst.pid = none → owed s.history i = true →
    ∃ t, inst.restartAt = some t ∧ ∀ now, t ≤ now → owed (s.restartDue answers now).history i = false
  wanted : ∀ i after, .returned i after ∈ s.history → after.wanted = true ∧ after.killAt = none
  /-- Every read end that was opened is that of an instance, or it was closed once. -/
  logs : (s.history.filterMap Mark.closedFd ++ s.instances.filterMap Instance.logFd).Perm (s.history.filterMap Mark.openedFd) ∧
    (s.history.filterMap Mark.openedFd).Nodup

/-- The calls of `start` that it can answer: an instance without a process has no log pipe left, a process
    is not on its way out, `restart_due` finds a process only if its exit brings another one, and `reap`
    calls for no instance that was stopped. -/
def Sound (units : List Unit) : List Mark → Prop
  | [] => True
  | .called cause i before granted :: h =>
    ((before.pid = none → granted = true → before.logFd = none) ∧
      (before.pid ≠ none → before.wanted = true ∧ before.killAt = none) ∧
      (cause = .timer → before.pid ≠ none → (units.getD before.unit default).restart = .always) ∧
      (cause = .vt → stoppedLast h i = false)) ∧ Sound units h
  | _ :: h => Sound units h

end HamixOS.Services

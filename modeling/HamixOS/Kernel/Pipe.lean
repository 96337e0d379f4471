import HamixOS.Lib.Machine
import HamixOS.Kernel.Errno

namespace HamixOS.Kernel

open Lib

namespace Pipe

/-!
# Pipes

One pipe of `task/pipe.rs` and the calls that are under way on it.  A call of `write` or
`read` goes through several sections under the lock, and anything may happen between two of
them; each section is one step here.

Four parts of the state are accounts and decide nothing: the bytes that entered the buffer
with the task that wrote them, the bytes that were read, and the calls that are over.
-/

/-- `CAPACITY`. -/
def capacity : Nat := 256 * 1024

structure Buf where
  buffer : List UInt8
  readers : Nat
  writers : Nat
  foreground : Nat
  group : Nat
  tty : Bool

def create : Buf := ⟨[], 1, 1, 0, 0, false⟩

/-- What the task table says when a write begins: whether the foreground group has members,
    and of the foreground task whether it is a Linux one and has signals enabled. -/
structure Tasks where
  groupAlive : Bool
  foreground : Option (Bool × Bool)

/-- `interrupt_policy`. -/
def interruptPolicy (pipe : Option Buf) (tasks : Tasks) (writer : Nat) : Option (Nat × Bool) :=
  match pipe with
  | none => none
  | some p =>
    if p.group ≠ 0 ∧ tasks.groupAlive then some (0, true)
    else if p.tty ∧ p.foreground ≠ 0 ∧ p.foreground ≠ writer then
      match tasks.foreground with
      | some (true, false) => none
      | some (true, true) => some (p.foreground, true)
      | _ => some (p.foreground, false)
    else none

/-- The bytes that may be interrupts. -/
def special (b : UInt8) : Bool := b = 0x03 || b = 0x1a || b = 0x1c

/-- The signal a byte stands for under a policy. -/
def signalOf (policy : Option (Nat × Bool)) (b : UInt8) : Option Nat :=
  match policy with
  | none => none
  | some (_, linux) =>
    if b = 0x03 then some 2
    else if b = 0x1c ∧ linux then some 3
    else if b = 0x1a ∧ linux then some 20
    else none

structure Interrupt where
  pid : Nat
  linux : Bool
  sig : Nat

/-- The last interrupt among the bytes. -/
def interruptOf (policy : Option (Nat × Bool)) (bytes : List UInt8) : Option Interrupt :=
  match policy, (bytes.filterMap (signalOf policy)).getLast? with
  | some (pid, linux), some sig => some ⟨pid, linux, sig⟩
  | _, _ => none

/-- The byte that is put back where an interrupt has no addressee. -/
def Interrupt.byte (i : Interrupt) : UInt8 :=
  if i.pid = 0 then if i.sig = 2 then 0x03 else if i.sig = 3 then 0x1c else 0x1a else 0x03

inductive WritePhase where
  | looping
  | signalling (interrupt : Interrupt) (taken : Nat)
  | stalled

structure WriteCall where
  data : List UInt8
  policy : Option (Nat × Bool)
  done : Nat
  phase : WritePhase
  /-- How many bytes of the call entered the buffer. -/
  entered : Nat

/-- A write that is over; one whose task was killed has no result. -/
structure Written where
  writer : Nat
  data : List UInt8
  result : Option Int
  entered : Nat

inductive ReadPhase where
  | looping
  | checking

structure ReadCall where
  size : Nat
  nonblock : Bool
  phase : ReadPhase

/-- A read that is over, and whether its end of file was one: no pipe, or an empty buffer
    and no writer. -/
structure ReadDone where
  size : Nat
  result : Int
  ended : Bool

structure State where
  pipe : Option Buf
  writes : Nat → Option WriteCall
  reads : Nat → Option ReadCall
  entered : List (Nat × UInt8)
  taken : List UInt8
  written : List Written
  readDone : List ReadDone

def State.start : State := ⟨some create, fun _ => none, fun _ => none, [], [], [], []⟩

namespace State

variable (s : State)

def ended : Bool :=
  match s.pipe with
  | none => true
  | some p => p.buffer.isEmpty && p.writers = 0

/-- `retain`. -/
def retain (reader : Bool) : State :=
  { s with pipe := s.pipe.map fun p =>
      if reader then { p with readers := p.readers + 1 } else { p with writers := p.writers + 1 } }

/-- `release`. -/
def release (reader : Bool) : State :=
  match s.pipe with
  | none => s
  | some p =>
    let p := if reader then { p with readers := p.readers - 1 } else { p with writers := p.writers - 1 }
    { s with pipe := if p.readers = 0 ∧ p.writers = 0 then none else some p }

/-- A write returns. -/
def finishWrite (tid : Nat) (c : WriteCall) (result : Option Int) : State :=
  { s with writes := Function.update s.writes tid none
           written := s.written ++ [⟨tid, c.data, result, c.entered⟩] }

/-- A read returns. -/
def finishRead (tid : Nat) (c : ReadCall) (result : Int) : State :=
  { s with reads := Function.update s.reads tid none
           readDone := s.readDone ++ [⟨c.size, result, s.ended⟩] }

def setWrite (tid : Nat) (c : WriteCall) : State := { s with writes := Function.update s.writes tid (some c) }

/-- The head of the loop of `write`. -/
def loopWrite (tid : Nat) (c : WriteCall) : State :=
  if c.done < c.data.length then s.setWrite tid { c with phase := .looping } else s.finishWrite tid c (some c.done)

def beginWrite (tid : Nat) (data : List UInt8) (tasks : Tasks) : State :=
  let policy := if data.any special then interruptPolicy s.pipe tasks tid else none
  s.loopWrite tid ⟨data, policy, 0, .looping, 0⟩

/-- The result of a write that cannot go on. -/
def partly (c : WriteCall) (e : Int) : Int := if 0 < c.done then c.done else e

/-- Bytes of the task `tid` enter the buffer. -/
def push (p : Buf) (tid : Nat) (bytes : List UInt8) : State :=
  { s with pipe := some { p with buffer := p.buffer ++ bytes }, entered := s.entered ++ bytes.map fun b => (tid, b) }

/-- The section of `write` under the lock. -/
def writeLocked (tid : Nat) (c : WriteCall) : State :=
  match s.pipe with
  | none => s.finishWrite tid c (some (partly c epipe))
  | some p =>
    if p.readers = 0 then s.finishWrite tid c (some (partly c epipe))
    else
      let bytes := (c.data.drop c.done).take (capacity - p.buffer.length)
      let pushed := bytes.filter fun b => (signalOf c.policy b).isNone
      let s := s.push p tid pushed
      let c := { c with entered := c.entered + pushed.length }
      match interruptOf c.policy bytes with
      | some i => s.setWrite tid { c with phase := .signalling i bytes.length }
      | none =>
        if bytes.length = 0 then s.setWrite tid { c with phase := .stalled }
        else s.loopWrite tid { c with done := c.done + bytes.length }

/-- What follows an interrupt: it found its addressee, or its byte is put back. -/
def afterSignal (tid : Nat) (c : WriteCall) (i : Interrupt) (taken : Nat) (handled : Bool) : State :=
  let c' := { c with done := c.done + taken }
  if handled then s.loopWrite tid c'
  else
    match s.pipe with
    | none => s.loopWrite tid c'
    | some p => (s.push p tid [i.byte]).loopWrite tid { c' with entered := c'.entered + 1 }

/-- A write that found no room wakes up, with a signal pending or not. -/
def afterStall (tid : Nat) (c : WriteCall) (pending : Bool) : State :=
  if pending then s.finishWrite tid c (some (partly c eintr)) else s.setWrite tid { c with phase := .looping }

def beginRead (tid size : Nat) (nonblock : Bool) : State :=
  let c : ReadCall := ⟨size, nonblock, .looping⟩
  if size = 0 then s.finishRead tid c 0 else { s with reads := Function.update s.reads tid (some c) }

/-- A read that has to wait, or does not want to. -/
def waitRead (tid : Nat) (c : ReadCall) : State :=
  if c.nonblock then s.finishRead tid c eagain
  else { s with reads := Function.update s.reads tid (some { c with phase := .checking }) }

/-- The section of `read` under the lock. -/
def readLocked (tid : Nat) (c : ReadCall) : State :=
  match s.pipe with
  | none => s.waitRead tid c
  | some p =>
    if p.buffer ≠ [] then
      let n := min c.size p.buffer.length
      { s with pipe := some { p with buffer := p.buffer.drop n }, taken := s.taken ++ p.buffer.take n
               reads := Function.update s.reads tid none
               readDone := s.readDone ++ [⟨c.size, n, s.ended⟩] }
    else if p.writers = 0 then s.finishRead tid c 0
    else s.waitRead tid c

/-- A blocking read that found nothing. -/
def readCheck (tid : Nat) (c : ReadCall) (pending : Bool) : State :=
  if s.pipe.isNone then s.finishRead tid c 0
  else if pending then s.finishRead tid c eintr
  else { s with reads := Function.update s.reads tid (some { c with phase := .looping }) }

end State

inductive Call where
  | retain (reader : Bool)
  | release (reader : Bool)
  | setForeground (pid : Nat)
  | setGroup (group : Nat)
  | beginWrite (tid : Nat) (data : List UInt8) (tasks : Tasks)
  | writeLocked (tid : Nat)
  | afterSignal (tid : Nat) (handled : Bool)
  | afterStall (tid : Nat) (pending : Bool)
  | killWriter (tid : Nat)
  | beginRead (tid size : Nat) (nonblock : Bool)
  | readLocked (tid : Nat)
  | readCheck (tid : Nat) (pending : Bool)
  | killReader (tid : Nat)

/-- One step.  A task makes one call at a time; the group of a pipe is set on terminals
    alone, and a task is killed only where it has blocked. -/
def step (s : State) : Call → Option State
  | .retain reader => some (s.retain reader)
  | .release reader => some (s.release reader)
  | .setForeground pid => some { s with pipe := s.pipe.map fun p => { p with foreground := pid } }
  | .setGroup group =>
    match s.pipe with
    | none => some s
    | some p => if p.tty then some { s with pipe := some { p with group := group } } else none
  | .beginWrite tid data tasks => if (s.writes tid).isNone then some (s.beginWrite tid data tasks) else none
  | .writeLocked tid => (s.writes tid).bind fun c =>
      match c.phase with
      | .looping => some (s.writeLocked tid c)
      | _ => none
  | .afterSignal tid handled => (s.writes tid).bind fun c =>
      match c.phase with
      | .signalling i taken => some (s.afterSignal tid c i taken handled)
      | _ => none
  | .afterStall tid pending => (s.writes tid).bind fun c =>
      match c.phase with
      | .stalled => some (s.afterStall tid c pending)
      | _ => none
  | .killWriter tid => (s.writes tid).bind fun c =>
      match c.phase with
      | .stalled => some (s.finishWrite tid c none)
      | _ => none
  | .beginRead tid size nonblock => if (s.reads tid).isNone then some (s.beginRead tid size nonblock) else none
  | .readLocked tid => (s.reads tid).bind fun c =>
      match c.phase with
      | .looping => some (s.readLocked tid c)
      | _ => none
  | .readCheck tid pending => (s.reads tid).bind fun c =>
      match c.phase with
      | .checking => some (s.readCheck tid c pending)
      | _ => none
  | .killReader tid => (s.reads tid).bind fun c =>
      match c.phase with
      | .checking => some { s with reads := Function.update s.reads tid none }
      | _ => none

end Pipe

end HamixOS.Kernel

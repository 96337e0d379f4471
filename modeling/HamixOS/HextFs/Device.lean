import HamixOS.Lib.Bytes
import HamixOS.Lib.Outcome

namespace HamixOS.HextFs

open Lib

/-!
# Block devices

The interface the file system works over, and one device: a disk that keeps its content, the
sequence of stores and flushes it was sent, and a schedule of the calls that fail.  The trace is
what a power loss is defined over (`HamixOS.HextFs.Crash`).
-/

/-- The errors of the file system and of its devices. -/
inductive Error
  | io
  | notHext
  | corrupt
  | noSpace
  | notFound
  | exists_
  | notDir
  | isDir
  | notEmpty
  | invalidName
  | tooLarge
deriving DecidableEq, Repr

/-- The size of a sector in bytes. -/
def sectorSize : Nat := 512

/-- A device addressed by sectors; every call may fail and may change the device. -/
class BlockDevice (D : Type) where
  /-- `len` bytes from `sector` on. -/
  read : (sector len : Nat) → EStateM Error D Bytes
  /-- Store a buffer from `sector` on. -/
  write : (sector : Nat) → Bytes → EStateM Error D Unit
  /-- Make every earlier store durable. -/
  flush : EStateM Error D Unit
  /-- The number of sectors. -/
  sectors : D → Nat

/-- One call that changes the durable content of a disk. -/
inductive Io
  | write (sector : Nat) (data : Bytes)
  | flush
deriving DecidableEq, Repr

/-- How a call of the device goes: it works, or it fails after `stored` bytes of the buffer
(of a write) have reached the disk. -/
inductive Fault
  | none
  | fail (stored : Nat)
deriving DecidableEq, Repr

/-- A disk: its bytes, the stores and flushes it has been sent, and the faults of the calls to
come (a call beyond the end of the list works). -/
structure Disk where
  data : Bytes
  trace : List Io := []
  faults : List Fault := []

namespace Disk

/-- A fresh disk of `size` zero bytes, a whole number of sectors. -/
def new (size : Nat) : Disk := { data := zeros (size / sectorSize * sectorSize) }

/-- Store a buffer and log it. -/
def store (d : Disk) (sector : Nat) (buf : Bytes) : Disk :=
  { d with data := splice d.data (sector * sectorSize) buf, trace := d.trace ++ [.write sector buf] }

/-- The fault of the next call, and the disk with that call accounted for. -/
def next (d : Disk) : Fault × Disk :=
  (d.faults.headD .none, { d with faults := d.faults.tail })

/-- Read `len` bytes from `sector` on. -/
def read (sector len : Nat) : EStateM Error Disk Bytes := fun d =>
  match d.next with
  | (.fail _, d) => .error .io d
  | (.none, d) =>
    if sector * sectorSize + len ≤ d.data.length then
      .ok (slice d.data (sector * sectorSize) len) d
    else .error .io d

/-- Store a buffer from `sector` on. -/
def write (sector : Nat) (buf : Bytes) : EStateM Error Disk Unit := fun d =>
  match d.next with
  | (.fail stored, d) =>
    if sector * sectorSize + buf.length ≤ d.data.length then
      .error .io (d.store sector (buf.take stored))
    else .error .io d
  | (.none, d) =>
    if sector * sectorSize + buf.length ≤ d.data.length then .ok () (d.store sector buf)
    else .error .io d

/-- Make the stores so far durable. -/
def flush : EStateM Error Disk Unit := fun d =>
  match d.next with
  | (.fail _, d) => .error .io d
  | (.none, d) => .ok () { d with trace := d.trace ++ [.flush] }

/-- The number of whole sectors. -/
def sectors (d : Disk) : Nat := d.data.length / sectorSize

instance : BlockDevice Disk where
  read := read
  write := write
  flush := flush
  sectors := sectors

/-- Block `b` of the disk, for blocks of `bs` bytes. -/
def block (d : Disk) (bs b : Nat) : Bytes := slice d.data (b * bs) bs

end Disk

end HamixOS.HextFs

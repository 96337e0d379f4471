import HamixOS.HextFs.Range
import HamixOS.Kernel.Media

namespace HamixOS.Kernel.Stream

open Lib HextFs

/-!
# Reading a file through the virtual file system

A file backed by a volume is in memory, or it is not: then a read loads it whole (`make_resident`), or,
if it is large, asks the volume for the range wanted (`hextfs::load_range`).

The statistics that reading leaves for other parts of the kernel are left out.
-/

/-- The error texts of a read. -/
abbrev Fault := String

structure FileBody where
  bytes : Bytes
  size : Nat
  resident : Bool
  backing : Nat
  used : Nat

/-- A body that was just loaded. -/
def FileBody.adopt (b : FileBody) (data : Bytes) : FileBody :=
  { b with size := data.length, bytes := data, resident := true }

inductive NodeKind where
  | dir
  | file (body : FileBody)
  | device (number : Nat)
  | proc (text : Bytes)

structure Node where
  kind : NodeKind
  dev : Nat

/-- A mounted hext volume; `blocks` keeps the block lists and sizes of files that are streamed. -/
structure Backend (D : Type) where
  fs : Hext D
  dev : Nat
  disk : Option (Nat × Nat × Nat)
  blocks : Std.TreeMap Nat (List Nat × Nat)

/-- The nodes, and what stands behind them. -/
structure System (D : Type) where
  node : Nat → Node
  clock : Nat
  cached : Nat
  mounts : List Media.Mount
  backends : List (Backend D)
  drives : Media.Drives
  random : Nat → Bytes

/-- `STREAM_MIN`: larger files are streamed. -/
def streamMin : Nat := 4 * 1024 * 1024

def devZero : Nat := 1

def devRandom : Nat := 3

/-- The number of block lists a volume keeps. -/
def keptLists : Nat := 16

variable {D : Type} [BlockDevice D]

/-! ### Volumes -/

/-- Work on the volume with a device number, if it is on a disk. -/
def withBackend {α : Type} (dev : Nat) (f : Backend D → Option α × Backend D) :
    List (Backend D) → Option α × List (Backend D)
  | [] => (none, [])
  | b :: backends =>
    if b.dev = dev ∧ b.disk.isSome then
      let (a, b) := f b
      (a, b :: backends)
    else
      let (a, backends) := withBackend dev f backends
      (a, b :: backends)

/-- The block list of a file and its size, kept for the next read. -/
def Backend.fileBlocks (b : Backend D) (ino : Nat) : Option (List Nat × Nat) × Backend D :=
  match b.blocks[ino]? with
  | some list => (some list, b)
  | none =>
    match Hext.fileBlocks ino b.fs with
    | .error _ fs => (none, { b with fs })
    | .ok list fs =>
      let kept := if keptLists ≤ b.blocks.size then b.blocks.erase (b.blocks.minKeyD 0) else b.blocks
      (some list, { b with fs, blocks := kept.insert ino list })

/-- Read a range of a file through its block list. -/
def loadRange (dev ino offset want : Nat) : List (Backend D) → Option Bytes × List (Backend D) :=
  withBackend dev fun b =>
    match b.fileBlocks ino with
    | (none, b) => (none, b)
    | (some (blocks, size), b) =>
      match Hext.readRange blocks size offset want b.fs with
      | .ok piece fs => (some piece, { b with fs })
      | .error _ fs => (none, { b with fs })

/-- Read a whole file. -/
def loadBacking (dev ino : Nat) : List (Backend D) → Option Bytes × List (Backend D) :=
  withBackend dev fun b =>
    match Hext.readFile ino b.fs with
    | .ok content fs => (some content, { b with fs })
    | .error _ fs => (none, { b with fs })

/-! ### Nodes -/

namespace System

variable (v : System D)

def setNode (id : Nat) (n : Node) : System D := { v with node := Function.update v.node id n }

/-- Give a body the next time stamp. -/
def stamp (id : Nat) (body : FileBody) : System D :=
  { v.setNode id { v.node id with kind := .file { body with used := v.clock + 1 } } with clock := v.clock + 1 }

/-- What stands behind a file that is not in memory. -/
def fetch (dev backing : Nat) : Option Bytes × System D :=
  if Media.owns v.mounts dev then (Media.load v.drives v.mounts dev backing, v)
  else
    let (data, backends) := loadBacking dev backing v.backends
    (data, { v with backends })

/-- Load the content of a file; one that cannot be read is taken to be empty. -/
def makeResident (id : Nat) : System D :=
  match (v.node id).kind with
  | .file body =>
    if body.resident = false ∧ body.backing ≠ 0 then
      let (found, v) := v.fetch (v.node id).dev body.backing
      let data := found.getD []
      { v with cached := v.cached + data.length }.stamp id (body.adopt data)
    else v.stamp id body
  | _ => v

/-- At most `want` bytes of `data` from `pos` on. -/
def part (data : Bytes) (pos want : Nat) : Bytes :=
  if data.length ≤ pos then [] else slice data pos (min (data.length - pos) want)

/-- Whether a read of a body asks its volume for the range alone. -/
def streamed (body : FileBody) : Bool := body.resident = false ∧ body.backing ≠ 0 ∧ streamMin < body.size

/-- Read at most `want` bytes of a node from `pos` on. -/
def readNodeAt (id pos want : Nat) : Except Fault Bytes × System D :=
  match (v.node id).kind with
  | .file body =>
    if streamed body then
      if body.size ≤ pos then (.ok [], v)
      else
        let (piece, backends) := loadRange (v.node id).dev body.backing pos (min want (body.size - pos)) v.backends
        match piece with
        | some piece => (.ok piece, { v with backends })
        | none => (.error "input/output error", { v with backends })
    else
      let v := v.makeResident id
      match (v.node id).kind with
      | .file body => (.ok (part body.bytes pos want), v)
      | _ => (.error "is a directory", v)
  | .proc text => (.ok (part text pos want), v)
  | .device number =>
    if number = devZero then (.ok (zeros want), v)
    else if number = devRandom then (.ok (v.random want), v)
    else (.ok [], v)
  | .dir => (.error "is a directory", v)

end System

end HamixOS.Kernel.Stream

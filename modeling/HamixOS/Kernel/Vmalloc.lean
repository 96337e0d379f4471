import HamixOS.Lib.Machine
import HamixOS.Lib.Ranges

namespace HamixOS.Kernel

open Lib

/-!
# The vmalloc area (`memory/vmalloc.rs`)

The bump pointer and the quarantine of holes, the epochs by which a CPU is known to have flushed its TLB, the mapping of
the area and the headers of its blocks.  `usize` arithmetic that the source does not check wraps.

The kernel's page table is the map from the addresses of pages to frames, and the contents of a frame are the header
that may lie at its start and the rest.  `kmap::unmap` invalidates the entry of the CPU it runs on; `flushed` is the
epoch in which a CPU last flushed its whole TLB, by `kmap::flush_local` or when it came up.

Frames come from an `Env`: what `frame::alloc_frame` gives for a page, and whether `kmap::map` finds its tables there.
The counters of `stats` are left out.
-/

namespace Vmalloc

def pageSize : Nat := 4096

/-- `QUARANTINE`. -/
def quarantine : Nat := 256

def minSlackPages : Nat := 16

/-- `MAGIC`. -/
def magic : Nat × Nat := (0x564D414C4C4F4321, 0xC2B2AE3D27D4EB4F)

/-- The area of an architecture and its number of CPUs. -/
structure Area where
  base : Nat
  size : Nat
  maxCpus : Nat
  base_page : base % pageSize = 0
  base_pos : 0 < base
  fits : base + size ≤ 2 ^ 42

namespace Area

def x86_64 : Area := ⟨2 * 2 ^ 39, 2 ^ 39, 16, by decide, by decide, by decide⟩

def aarch64 : Area := ⟨2 * 2 ^ 39, 2 ^ 39, 8, by decide, by decide, by decide⟩

def riscv64 : Area := ⟨192 * 2 ^ 30, 32 * 2 ^ 30, 8, by decide, by decide, by decide⟩

end Area

structure Hole where
  start : Nat
  pages : Nat
  epoch : Nat
  deriving DecidableEq, Inhabited

/-- What a frame holds: the fields of a `Header` at its start, and the rest. -/
structure Contents where
  magic : Nat × Nat
  mapped : Nat
  reserved : Nat
  rest : List UInt8
  deriving DecidableEq

structure State where
  ready : Bool
  next : Nat
  holes : List Hole
  epoch : Nat
  seen : Nat → Nat
  online : Nat → Bool
  flushed : Nat → Nat
  table : Nat → Option Nat
  memory : Nat → Contents

/-- What the frame allocator and the tables give in one call. -/
structure Env where
  grant : Nat → Option Nat
  room : Nat → Bool

/-! ### Epochs -/

variable (A : Area)

def settledEpoch (s : State) (cpu : Nat) : Nat :=
  (List.range A.maxCpus).foldl (fun settled c => if c ≠ cpu ∧ s.online c then min settled (s.seen c) else settled) s.epoch

def tick (s : State) (cpu : Nat) : State :=
  if s.seen cpu ≠ s.epoch then
    { s with flushed := Function.update s.flushed cpu s.epoch, seen := Function.update s.seen cpu s.epoch }
  else s

/-! ### Ranges of addresses -/

/-- A hole that `take` looks for. -/
def Hole.fits (h : Hole) (pages settled : Nat) : Bool := pages ≤ h.pages ∧ h.epoch ≤ settled

def take (s : State) (cpu pages : Nat) : Option (Nat × State) :=
  match s.holes.findIdx? (·.fits pages (settledEpoch A s cpu)) with
  | some i =>
    let hole := s.holes.getD i default
    let holes :=
      if hole.pages = pages then swapRemove s.holes i
      else s.holes.set i { hole with start := hole.start + pages * pageSize, pages := hole.pages - pages }
    some (hole.start, { s with holes := holes, flushed := Function.update s.flushed cpu s.epoch })
  | none =>
    -- `checked_mul`
    if 2 ^ 64 ≤ pages * pageSize then none
    else if A.size < (s.next + pages * pageSize) % 2 ^ 64 then none
    else some (A.base + s.next, { s with next := (s.next + pages * pageSize) % 2 ^ 64 })

/-- The index of the hole with the fewest pages. -/
def oldest (holes : List Hole) : Nat := holes.findIdx fun h => holes.all fun h' => h.pages ≤ h'.pages

def giveBack (s : State) (cpu start pages epoch : Nat) : State :=
  if (start + pages * pageSize) % 2 ^ 64 = A.base + s.next ∧ epoch ≤ settledEpoch A s cpu then
    { s with next := (s.next + 2 ^ 64 - pages * pageSize % 2 ^ 64) % 2 ^ 64 }
  else
    let holes := if s.holes.length = quarantine then swapRemove s.holes (oldest s.holes) else s.holes
    { s with holes := holes ++ [⟨start, pages, epoch⟩] }

def retire (s : State) (cpu start pages : Nat) : State :=
  giveBack A { s with epoch := s.epoch + 1 } cpu start pages (s.epoch + 1)

/-! ### Mappings -/

def pageAt (start page : Nat) : Nat := start + page * pageSize

/-- The loop of `map_fresh`: the page at which it stops, if it does. -/
def mapLoop (env : Env) (start : Nat) : List Nat → (Nat → Option Nat) → Option Nat × (Nat → Option Nat)
  | [], table => (none, table)
  | page :: pages, table =>
    match env.grant (pageAt start page) with
    | none => (some page, table)
    | some phys =>
      if env.room (pageAt start page) then mapLoop env start pages (Function.update table (pageAt start page) (some phys))
      else (some page, table)

def unmapRange (start first last : Nat) (table : Nat → Option Nat) : Nat → Option Nat :=
  (List.range' first (last - first)).foldl (fun table page => Function.update table (pageAt start page) none) table

def mapFresh (env : Env) (start first last : Nat) (table : Nat → Option Nat) : Bool × (Nat → Option Nat) :=
  match mapLoop env start (List.range' first (last - first)) table with
  | (none, table) => (true, table)
  | (some page, table) => (false, unmapRange start first page table)

/-- How the loop of `grow` that maps the old frames at the new place ends. -/
inductive Moved where
  | done (table : Nat → Option Nat)
  | lost (table : Nat → Option Nat)
  | full (page : Nat) (table : Nat → Option Nat)

def moveLoop (env : Env) (start target : Nat) : List Nat → (Nat → Option Nat) → Moved
  | [], table => .done table
  | page :: pages, table =>
    match table (pageAt start page) with
    | none => .lost table
    | some phys =>
      if env.room (pageAt target page) then
        moveLoop env start target pages (Function.update table (pageAt target page) (some phys))
      else .full page table

/-! ### Blocks -/

def pagesFor (bytes : Nat) : Nat := (bytes + (pageSize - 1)) / pageSize + 1

def reserveFor (pages : Nat) : Nat := max (min (pages * 2) (2 ^ 64 - 1)) (pages + minSlackPages)

def contains (addr : Nat) : Bool := A.base ≤ addr ∧ addr < A.base + A.size

/-- The header of a block with its frame. -/
def header (s : State) (pointer : Nat) : Option (Nat × Contents) :=
  if contains A pointer ∧ pointer % pageSize = 0 then
    (s.table (pointer - pageSize)).bind fun phys =>
      if (s.memory phys).magic = magic then some (phys, s.memory phys) else none
  else none

def setMemory (s : State) (phys : Nat) (contents : Contents) : State :=
  { s with memory := Function.update s.memory phys contents }

def alloc (env : Env) (s : State) (cpu bytes : Nat) : Option (Nat × Nat) × State :=
  if ¬ s.ready then (none, s) else
  let pages := pagesFor bytes
  let reserved := reserveFor pages
  match take A s cpu reserved with
  | none => (none, s)
  | some (start, s) =>
    let mapped := mapFresh env start 0 pages s.table
    let s := { s with table := mapped.2 }
    if ¬ mapped.1 then (none, giveBack A s cpu start reserved 0)
    else
      let phys := (s.table start).getD 0
      (some (start + pageSize, pages * pageSize),
        setMemory s phys { s.memory phys with magic := magic, mapped := pages, reserved := reserved })

def free (s : State) (cpu pointer : Nat) : Nat × State :=
  match header A s pointer with
  | none => (0, s)
  | some (phys, head) =>
    let start := pointer - pageSize
    let s := setMemory s phys { head with magic := (0, 0) }
    let s := { s with table := unmapRange start 0 head.mapped s.table }
    (head.mapped * pageSize, retire A s cpu start head.reserved)

/-- The part of `grow` that moves a block of `mapped` pages to a wider range. -/
def growMoved (env : Env) (s : State) (cpu start mapped reserved pages : Nat) : Option (Nat × Nat) × State :=
  let wider := reserveFor pages
  match take A s cpu wider with
  | none => (none, s)
  | some (target, s) =>
    match moveLoop env start target (List.range' 0 mapped) s.table with
    | .lost table => (none, { s with table := table })
    | .full page table => (none, giveBack A { s with table := unmapRange target 0 page table } cpu target wider 0)
    | .done table =>
      let fresh := mapFresh env target mapped pages table
      if ¬ fresh.1 then (none, giveBack A { s with table := unmapRange target 0 mapped fresh.2 } cpu target wider 0)
      else
        let s := retire A { s with table := unmapRange start 0 mapped fresh.2 } cpu start reserved
        let moved := (s.table target).getD 0
        (some (target + pageSize, (pages - mapped) * pageSize),
          setMemory s moved { s.memory moved with mapped := pages, reserved := wider })

def grow (env : Env) (s : State) (cpu pointer bytes : Nat) : Option (Nat × Nat) × State :=
  match header A s pointer with
  | none => (none, s)
  | some (phys, head) =>
    let pages := pagesFor bytes
    let start := pointer - pageSize
    if pages ≤ head.mapped then (some (pointer, 0), s)
    else if pages ≤ head.reserved then
      let fresh := mapFresh env start head.mapped pages s.table
      if ¬ fresh.1 then (none, { s with table := fresh.2 })
      else
        (some (pointer, (pages - head.mapped) * pageSize),
          setMemory { s with table := fresh.2 } phys { head with mapped := pages })
    else growMoved A env s cpu start head.mapped head.reserved pages

end Vmalloc

end HamixOS.Kernel

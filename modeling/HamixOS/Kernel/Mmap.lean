import HamixOS.Lib.Ranges

namespace HamixOS.Kernel

namespace Mmap

open Lib

/-!
# Where mappings are placed

The part of `syscall/mod.rs` and `syscall/base.rs` that finds room for a mapping, keeps the list of
free ranges and the bump pointer, and takes mappings away.  Addresses and lengths are multiples of
`PAGE_SIZE` there and are counted in pages here; only the lengths that a program passes are bytes.

The protection of pages is left out: no call here looks at it, and `protect_range` leaves a page
mapped or lazily reserved as it was.
-/

/-- The areas of an address space, in pages. -/
structure Layout where
  userBase : Nat
  mmapBase : Nat
  shmBase : Nat
  fbBase : Nat
  userEnd : Nat
  base_le : userBase ≤ mmapBase
  mmap_le : mmapBase ≤ shmBase
  shm_le : shmBase ≤ fbBase
  fb_le : fbBase ≤ userEnd

/-- What a page is mapped to, or lazily reserved for. -/
inductive Page where
  | anon
  | file (node offset : Nat)
  | segment (id index : Nat)
  deriving DecidableEq

/-- The fields of a task that placing a mapping looks at. -/
structure Vm where
  page : Nat → Option Page
  free : List (Nat × Nat)
  next : Nat
  shm : List (Nat × Nat)
  shmNext : Nat

inductive Errno where
  | einval
  | enomem
  | eexist
  deriving DecidableEq

/-- The pages of so many bytes. -/
def pages (len : Nat) : Nat := (len + 4095) / 4096

namespace Vm

variable (L : Layout) (v : Vm)

def occupied (p : Nat) : Bool := (v.page p).isSome

def anyMapped (start n : Nat) : Bool := (List.range' start n).any fun p => v.occupied p

def mapRange (start n : Nat) (what : Nat → Page) : Vm :=
  { v with page := fun p => if start ≤ p ∧ p < start + n then some (what p) else v.page p }

def unmapRange (start n : Nat) : Vm :=
  { v with page := fun p => if start ≤ p ∧ p < start + n then none else v.page p }

/-- The front of a free range is taken. -/
def carve (i : Nat) (start n used : Nat) : Vm :=
  { v with free := if n = used then v.free.eraseIdx i else v.free.set i (start + used, n - used) }

/-- `sys_mmap` of the native calls; `ok` says whether there was memory for the page tables. -/
def sysMmap (len : Nat) (ok : Bool) : Vm × Except Errno Nat :=
  if len = 0 ∨ 2 ^ 32 < len then (v, .error .einval)
  else
    let size := pages len
    match v.free.findIdx? fun r => size + 1 ≤ r.2 with
    | some i =>
      let r := v.free.getD i (0, 0)
      if ok then ((v.mapRange r.1 size fun _ => .anon).carve i r.1 r.2 (size + 1), .ok r.1)
      else (v.unmapRange r.1 size, .error .enomem)
    | none =>
      if L.shmBase ≤ v.next + size then (v, .error .enomem)
      else if ok then ({ v.mapRange v.next size fun _ => .anon with next := v.next + size + 1 }, .ok v.next)
      else (v.unmapRange v.next size, .error .enomem)

/-- `find_free`. -/
def findFree (size : Nat) : Option (Nat × Vm) :=
  match v.free.findIdx? fun r => size + 1 ≤ r.2 ∧ ¬ v.anyMapped r.1 size with
  | some i =>
    let r := v.free.getD i (0, 0)
    some (r.1, v.carve i r.1 r.2 (size + 1))
  | none =>
    let base := max v.next L.mmapBase
    if L.shmBase ≤ base + size then none else some (base, { v with next := base + size + 1 })

/-- What is left of a free range beside the range that is claimed. -/
def keptOf (start stop : Nat) (r : Nat × Nat) : List (Nat × Nat) :=
  if r.1 + r.2 ≤ start ∨ stop ≤ r.1 then [r]
  else
    (if r.1 < start then [(r.1, start - r.1)] else []) ++
      (if stop < r.1 + r.2 then [(stop, r.1 + r.2 - stop)] else [])

def claimRange (start n : Nat) : Vm :=
  let stop := start + n
  if stop ≤ L.mmapBase ∨ L.shmBase ≤ start then v
  else
    let kept := v.free.flatMap (keptOf start stop)
    let next := max v.next L.mmapBase
    let gap := if v.next < stop ∧ next < start then [(next, start - next)] else []
    { v with
      free := (kept ++ gap).filter fun r => 1 < r.2
      next := if v.next < stop then stop + 1 else v.next }

/-- `mmap_unprotected` of an anonymous private or a file mapping; `fixed` is the address of
    `MAP_FIXED` and whether it is `MAP_FIXED_NOREPLACE`. -/
def mmap (fixed : Option (Nat × Bool)) (len : Nat) (what : Nat → Page) (ok : Bool) : Vm × Except Errno Nat :=
  if len = 0 ∨ 2 ^ 36 < len then (v, .error .einval)
  else
    let size := pages len
    match fixed with
    | some (addr, noreplace) =>
      if addr < L.userBase ∨ L.shmBase < addr + size then (v, .error (if noreplace then .eexist else .enomem))
      else if noreplace ∧ v.anyMapped addr size then (v, .error .eexist)
      else
        let v := (v.unmapRange addr size).claimRange L addr size
        if ok then (v.mapRange addr size what, .ok addr) else (v.unmapRange addr size, .error .enomem)
    | none =>
      match v.findFree L size with
      | none => (v, .error .enomem)
      | some (base, v) =>
        if ok then (v.mapRange base size what, .ok base) else (v.unmapRange base size, .error .enomem)

/-- `ipc::unmap_range`: the shared segments inside the range go; answers whether there were any. -/
def ipcUnmap (start n : Nat) : Vm × Bool :=
  let inside := fun r : Nat × Nat => start ≤ r.1 ∧ r.1 + r.2 ≤ start + n
  ((v.shm.filter inside).foldl (fun w r => w.unmapRange r.1 r.2) { v with shm := v.shm.filter fun r => ¬ inside r },
    (v.shm.filter inside) ≠ [])

/-- `shm_map_at` of `count` frames of a segment; `room` says whether it has them, and `mapped` how
    many could be mapped. -/
def shmMapAt (fixed : Option Nat) (count : Nat) (what : Nat → Page) (room : Bool) (mapped : Nat) : Vm × Except Errno Nat :=
  if ¬ room then (v, .error .einval)
  else
    let base := fixed.getD v.shmNext
    if fixed.isNone ∧ L.fbBase < base + (count + 1) then (v, .error .enomem)
    else
      let v := if fixed.isSome then v.unmapRange base count else v
      let v := v.mapRange base (min mapped count) what
      if mapped < count then (v, .error .enomem)
      else
        ({ v with shmNext := if fixed.isNone then base + count + 1 else v.shmNext, shm := v.shm ++ [(base, count)] }, .ok base)

/-- A shared anonymous mapping, and a shared mapping of a segment: `mmap_unprotected` and
    `map_memfd`. -/
def mmapShared (fixed : Option (Nat × Bool)) (len : Nat) (what : Nat → Page) (room : Bool) (mapped : Nat) :
    Vm × Except Errno Nat :=
  if len = 0 ∨ 2 ^ 36 < len then (v, .error .einval)
  else
    let size := pages len
    match fixed with
    | some (addr, noreplace) =>
      if addr < L.userBase ∨ L.shmBase < addr + size then (v, .error (if noreplace then .eexist else .enomem))
      else if noreplace ∧ v.anyMapped addr size then (v, .error .eexist)
      else ((v.ipcUnmap addr size).1.claimRange L addr size).shmMapAt L (some addr) size what room mapped
    | none => v.shmMapAt L none size what room mapped

/-- The loop of `release_mmap_range`: the range grows by the free ranges that touch it, each taken
    out by `swap_remove`. -/
def absorb : Nat → Nat → Nat → List (Nat × Nat) → (Nat × Nat) × List (Nat × Nat)
  | 0, start, stop, free => ((start, stop), free)
  | fuel + 1, start, stop, free =>
    match free.findIdx? fun r => start ≤ r.1 + r.2 ∧ r.1 ≤ stop with
    | none => ((start, stop), free)
    | some i =>
      let r := free.getD i (0, 0)
      absorb fuel (min start r.1) (max stop (r.1 + r.2)) (swapRemove free i)

def releaseMmapRange (start n : Nat) : Vm :=
  let a := absorb v.free.length start (start + n + 1) v.free
  if v.next ≤ a.1.2 then { v with free := a.2, next := max a.1.1 L.mmapBase }
  else { v with free := a.2 ++ [(a.1.1, a.1.2 - a.1.1)] }

/-- `sys_munmap` of a range of whole pages. -/
def sysMunmap (addr n : Nat) : Vm × Except Errno Nat :=
  if n = 0 ∨ addr < L.userBase ∨ L.userEnd < addr + n then (v, .error .einval)
  else
    let (v, shared) := v.ipcUnmap addr n
    if L.shmBase ≤ addr ∧ shared then (v, .ok 0)
    else if addr < L.mmapBase ∨ L.shmBase < addr + n then (v, .error .einval)
    else
      let v := v.unmapRange addr n
      (if addr < v.next then v.releaseMmapRange L addr n else v, .ok 0)

end Vm

end Mmap

end HamixOS.Kernel

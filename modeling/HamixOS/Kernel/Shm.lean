import HamixOS.Lib.Assoc
import HamixOS.Lib.Machine
import HamixOS.Kernel.Errno
import HamixOS.Kernel.Pte
import HamixOS.Kernel.Sched

namespace HamixOS.Kernel

open Lib

/-!
# Shared-memory segments

The segments of `kernel/src/task/ipc.rs` and everything that holds one: the names under
`/dev/shm` (`open_shm`, `unlink_shm` in `syscall/base.rs`), the `Memfd` descriptors of
every process (`task/fdtable.rs`, `dup`, `close`, `fork`, `exec`, exit) and the entries of
its `shm` list (`mmap`, `munmap`).

* A segment leaves `segments` exactly where the code frees its frames.
* Of a descriptor only the kind matters here, so position, name and access mode of a
  `Memfd` are left out; of a segment's frames only their number.
* What the address space answers (`any_mapped`, the success of `map_shared`, whether
  frames and page tables can be allocated) is an argument of the step.
* Threads share the tables of their leader, so a process is its leader's record.  A zombie
  has empty tables and `exists` denies it, so reaping it changes nothing here.
-/

abbrev SegId := Nat

/-- `MAX_FDS`, and the limit of `install_fd`. -/
def maxFds : Nat := 256

def fSealShrink : Nat := 2

structure Segment where
  frames : Nat
  len : Nat
  refs : Nat
  owner : Pid
  seals : Nat

/-- An open file, by what its descriptor holds. -/
inductive OpenFile where
  | memfd (id : SegId)
  | console
  | other
  deriving DecidableEq

/-- The tables of a process that segments hang on. -/
structure Proc where
  fds : List (Option OpenFile)
  cloexec : Nat → Bool
  posix : Bool
  shm : List (SegId × Nat × Nat)
  shmNext : Nat
  /-- Not a zombie. -/
  alive : Bool

structure Shm where
  segments : SegId → Option Segment
  nextSegment : Nat
  names : List (String × SegId)
  procs : List (Pid × Proc)
  nextPid : Pid

namespace Shm

variable (s : Shm)

def setSegment (id : SegId) (g : Option Segment) : Shm :=
  { s with segments := Function.update s.segments id g }

def putProc (pid : Pid) (t : Proc) : Shm := { s with procs := Assoc.set s.procs pid t }

/-- `exists`. -/
def alive (pid : Pid) : Bool := (Assoc.get s.procs pid).any (·.alive)

/-! ### `ipc.rs` -/

def memfdCreate (owner : Pid) : Shm × SegId :=
  ({ s.setSegment s.nextSegment (some ⟨0, 0, 1, owner, 0⟩) with
      nextSegment := (s.nextSegment + 1) % 2 ^ 32 }, s.nextSegment)

def retain (id : SegId) : Shm :=
  match s.segments id with
  | some g => s.setSegment id (some { g with refs := g.refs + 1 })
  | none => s

/-- `drop_ref`: the frames are freed with the last reference. -/
def dropRef (id : SegId) : Shm :=
  match s.segments id with
  | some g =>
    if g.refs - 1 = 0 then s.setSegment id none
    else s.setSegment id (some { g with refs := g.refs - 1 })
  | none => s

/-- `shm_set_len`; `granted` says whether the missing frames could be allocated. -/
def shmSetLen (id : SegId) (len : Nat) (granted : Bool) : Shm × Int :=
  if len > 2 ^ 30 then (s, einval)
  else
    let wanted := (len + pageSize - 1) / pageSize
    match s.segments id with
    | none => (s, enoent)
    | some g =>
      if g.frames < wanted ∧ granted = false then (s, enomem)
      else if g.len > len ∧ g.seals &&& fSealShrink ≠ 0 then (s, eperm)
      else (s.setSegment id (some { g with frames := max g.frames wanted, len := len }), 0)

def shmAddSeals (id : SegId) (seals : Nat) : Shm × Int :=
  if seals ≠ seals &&& fSealShrink then (s, einval)
  else
    match s.segments id with
    | some g => (s.setSegment id (some { g with seals := g.seals ||| seals }), 0)
    | none => (s, enoent)

/-- The part of `shm_map_at` under the task lock: the entry for the new mapping, unless the
    area is full or a page cannot be mapped. -/
def shmEntry (t : Proc) (id : SegId) (fixed : Option Nat) (count : Nat) (mapped : Bool) :
    Option (Proc × Nat) :=
  let base := fixed.getD t.shmNext
  if fixed.isNone ∧ base + (count + 1) * pageSize > userFbBase then none
  else if mapped = false then none
  else
    some ({ t with
      shm := t.shm ++ [(id, base, count * pageSize)]
      shmNext := if fixed.isNone then base + (count + 1) * pageSize else t.shmNext }, base)

/-- `shm_map_at`. -/
def shmMapAt (pid : Pid) (id : SegId) (fixed : Option Nat) (offset len : Nat) (mapped : Bool) :
    Shm × Int :=
  let first := offset / pageSize
  let count := (len + pageSize - 1) / pageSize
  match s.segments id with
  | none => (s, einval)
  | some g =>
    if first + count > g.frames then (s, einval)
    else
      let s := s.retain id
      match (Assoc.get s.procs pid).bind (shmEntry · id fixed count mapped) with
      | some (t, base) => (s.putProc pid t, base)
      | none => (s.dropRef id, enomem)

/-- The entries `unmap_range` takes out. -/
def inRange (start len : Nat) (e : SegId × Nat × Nat) : Bool :=
  decide (start ≤ e.2.1 ∧ e.2.1 + e.2.2 ≤ start + len)

/-- `unmap_range`. -/
def unmapRange (pid : Pid) (start len : Nat) : Shm × Bool :=
  match Assoc.get s.procs pid with
  | none => (s, false)
  | some t =>
    let removed := (t.shm.filter (inRange start len)).map (·.1)
    let s := s.putProc pid { t with shm := t.shm.filter (fun e => !inRange start len e) }
    (removed.foldl dropRef s, !removed.isEmpty)

/-- The references `cleanup` drops one by one, without looking whether one was the last. -/
def lower (segments : SegId → Option Segment) (id : SegId) : SegId → Option Segment :=
  match segments id with
  | some g => Function.update segments id (some { g with refs := g.refs - 1 })
  | none => segments

/-- `cleanup`, as far as segments go. -/
def cleanup (pid : Pid) : Shm :=
  match Assoc.get s.procs pid with
  | none => s
  | some t =>
    let lowered := (t.shm.map (·.1)).foldl lower s.segments
    let s := s.putProc pid { t with shm := [] }
    { s with segments := fun id => (lowered id).filter (fun g =>
        !(g.refs == 0 && (g.owner == pid || !s.alive g.owner))) }

/-! ### Descriptors -/

/-- `OpenFile::release`. -/
def release (s : Shm) : OpenFile → Shm
  | .memfd id => s.dropRef id
  | _ => s

/-- The reference `OpenFile::duplicate` takes. -/
def duplicate (s : Shm) : OpenFile → Shm
  | .memfd id => s.retain id
  | _ => s

end Shm

/-- `FIRST_USER_FD` for a native process. -/
def Proc.firstFd (t : Proc) : Nat := if t.posix then 0 else 3

/-- The table `install_fd` looks for a slot in. -/
def Proc.grown (t : Proc) : List (Option OpenFile) :=
  if (t.fds.drop t.firstFd).all (·.isSome) ∧ t.fds.length < maxFds then
    t.fds ++ List.replicate (min (t.fds.length + 32) maxFds - t.fds.length) none
  else t.fds

/-- The slot and the table of `install_fd`, or nothing when the table is full. -/
def Proc.install (t : Proc) (file : OpenFile) : Option (Proc × Nat) :=
  match (t.grown.drop t.firstFd).findIdx? (·.isNone) with
  | some slot =>
    some ({ t with
      fds := t.grown.set (slot + t.firstFd) (some file)
      cloexec := Function.update t.cloexec (slot + t.firstFd) false }, slot + t.firstFd)
  | none => none

/-- The table `dup_from` looks for a slot in. -/
def Proc.grownFrom (t : Proc) (min : Nat) : List (Option OpenFile) :=
  if t.fds.length < maxFds ∧
      ¬ (∃ i, i < t.fds.length ∧ min ≤ i ∧ t.fds[i]? = some none ∧ 3 ≤ i) then
    t.fds ++ List.replicate (Nat.min (t.fds.length + 16) maxFds - t.fds.length) none
  else t.fds

/-- The slot and the table of `dup_from`. -/
def Proc.installFrom (t : Proc) (file : OpenFile) (min : Nat) : Option (Proc × Nat) :=
  match (List.range (t.grownFrom min).length).find? (fun i => decide (min ≤ i ∧
      (t.grownFrom min)[i]? = some none ∧ (3 ≤ i ∨ (file ≠ .console ∧ min ≤ i)))) with
  | some slot => some ({ t with fds := (t.grownFrom min).set slot (some file) }, slot)
  | none => none

/-- The table of `sys_dup2`, long enough for the slot `new`. -/
def Proc.stretched (t : Proc) (new : Nat) : List (Option OpenFile) :=
  if t.fds.length ≤ new then t.fds ++ List.replicate (new + 1 - t.fds.length) none else t.fds

/-- The open files of a process. -/
def Proc.files (t : Proc) : List OpenFile := t.fds.filterMap id

/-- `open_file_for`, without the reference it takes. -/
def Proc.openFile (t : Proc) (fd : Nat) : Option OpenFile :=
  match t.fds[fd]? with
  | some (some file) => some file
  | _ => if fd < 3 ∧ t.posix = false then some .console else none

namespace Shm

variable (s : Shm) (pid : Pid) (t : Proc)

/-- `install_fd` for process `pid`; a full table releases the file. -/
def installFd (file : OpenFile) : Shm × Int :=
  match (Assoc.get s.procs pid).bind (·.install file) with
  | some (t, slot) => (s.putProc pid t, slot)
  | none => (s.release file, emfile)

def sysClose (fd : Nat) : Shm × Int :=
  let t := { t with cloexec := Function.update t.cloexec fd false }
  match t.fds[fd]? with
  | some (some file) => ((s.putProc pid { t with fds := t.fds.set fd none }).release file, 0)
  | _ => (s.putProc pid t, ebadf)

def dupFrom (fd min : Nat) : Shm × Int :=
  if min ≥ maxFds then (s, einval)
  else
    match t.openFile fd with
    | none => (s, ebadf)
    | some file =>
      let s := s.duplicate file
      match t.installFrom file min with
      | some (t, slot) => (s.putProc pid t, slot)
      | none => (s.release file, emfile)

/-- The slot `new` of a table that reaches that far gets `file`; what was there is released. -/
def replaceFd (file : OpenFile) (new : Nat) : Shm :=
  let s := s.putProc pid { t with fds := (t.stretched new).set new (some file) }
  match (t.stretched new)[new]? with
  | some (some replaced) => s.release replaced
  | _ => s

def sysDup2 (old new : Nat) : Shm × Int :=
  if new ≥ maxFds then (s, ebadf)
  else
    match t.openFile old with
    | none => (s, ebadf)
    | some file =>
      if old = new then ((s.duplicate file).release file, new)
      else ((s.duplicate file).replaceFd pid t file new, new)

/-! ### The calls -/

/-- `sys_memfd_create`; `name` is what `user_cstr` read. -/
def sysMemfdCreate (name : Except Int String) (flags : Nat) : Shm × Int :=
  if flags ≠ flags &&& 7 then (s, einval)
  else
    match name with
    | .error e => (s, e)
    | .ok name =>
      if name.utf8ByteSize > 249 then (s, einval)
      else
        let (s, id) := s.memfdCreate pid
        s.installFd pid (.memfd id)

/-- `O_TRUNC`. -/
def truncated (id : SegId) (flags : Nat) : Shm :=
  if flags &&& 0o1000 ≠ 0 then (s.shmSetLen id 0 true).1 else s

/-- The second half of `open_shm`, once the segment is known. -/
def openSegment (id : SegId) (flags : Nat) : Shm × Int :=
  let r := ((s.truncated id flags).retain id).installFd pid (.memfd id)
  if r.2 < 0 then (r.1.dropRef id, r.2) else r

/-- `open_shm`. -/
def openShm (name : String) (flags : Nat) : Shm × Int :=
  match Assoc.get s.names name with
  | some id =>
    if flags &&& 0o100 ≠ 0 ∧ flags &&& 0o200 ≠ 0 then (s, eexist) else s.openSegment pid id flags
  | none =>
    if flags &&& 0o100 ≠ 0 then
      let c := s.memfdCreate pid
      ({ c.1 with names := (name, c.2) :: c.1.names } : Shm).openSegment pid c.2 flags
    else (s, enoent)

/-- `unlink_shm`. -/
def unlinkShm (name : String) : Shm × Option Int :=
  match Assoc.get s.names name with
  | some id => (({ s with names := Assoc.erase s.names name } : Shm).dropRef id, some 0)
  | none => (s, none)

/-- `map_memfd`; `clash` is what `any_mapped` found. -/
def mapMemfd (id : SegId) (fixed : Option Nat) (noreplace : Bool) (offset size : Nat)
    (clash mapped : Bool) : Shm × Int :=
  match fixed with
  | some addr =>
    if noreplace ∧ clash then (s, eexist)
    else (s.unmapRange pid addr size).1.shmMapAt pid id fixed offset size mapped
  | none => s.shmMapAt pid id fixed offset size mapped

/-- A shared anonymous mapping: a segment that nothing but the mapping holds in the end. -/
def mapAnonymous (fixed : Option Nat) (noreplace : Bool) (size : Nat) (clash mapped granted : Bool) :
    Shm × Int :=
  let c := s.memfdCreate pid
  let r := c.1.shmSetLen c.2 size granted
  if r.2 = 0 then
    let m := r.1.mapMemfd pid c.2 fixed noreplace 0 size clash mapped
    (m.1.dropRef c.2, m.2)
  else (r.1.dropRef c.2, r.2)

/-- `mmap_unprotected`, for the mappings that end in `map_memfd`; `anonymous` is a shared
    anonymous mapping, else `fd` is a `Memfd` mapped `MAP_SHARED`. -/
def sysMmap (anonymous : Bool) (fd : Nat) (fixed noreplace : Bool) (addr len offset : Nat)
    (clash mapped granted : Bool) : Shm × Int :=
  if len = 0 ∨ len > 2 ^ 36 ∨ offset % pageSize ≠ 0 then (s, einval)
  else
    let size := (len + pageSize - 1) / pageSize * pageSize
    let fixed := fixed || noreplace
    if fixed ∧ addr % pageSize ≠ 0 then (s, einval)
    else if fixed ∧ (addr < userBase ∨ addr + size > userShmBase) then
      (s, if noreplace then eexist else enomem)
    else
      let place := if fixed then some addr else none
      if anonymous then s.mapAnonymous pid place noreplace size clash mapped granted
      else
        match t.fds[fd]? with
        | some (some (.memfd id)) => s.mapMemfd pid id place noreplace offset size clash mapped
        | _ => (s, ebadf)

/-- `sys_munmap`. -/
def sysMunmap (addr len : Nat) : Shm × Int :=
  if addr % pageSize ≠ 0 ∨ len = 0 ∨
      ¬ (addr ≥ userBase ∧ len ≤ userEnd - userBase ∧ addr + len ≤ userEnd) then (s, einval)
  else
    let (s, shared) := s.unmapRange pid addr len
    if addr ≥ userShmBase ∧ shared then (s, 0)
    else if addr < userMmapBase ∨ addr + len > userShmBase then (s, einval)
    else (s, 0)

/-- `sys_clone` without `CLONE_THREAD`: every descriptor is duplicated, and every mapping
    retained. -/
def fork : Shm :=
  let s' := t.files.foldl duplicate s
  let s' := { s' with procs := (s.nextPid, { t with alive := true }) :: s'.procs, nextPid := s.nextPid + 1 }
  (t.shm.map (·.1)).foldl retain s'

/-- The files `exec_image` closes. -/
def doomed : List OpenFile :=
  t.fds.zipIdx.filterMap (fun e => if e.2 < 256 ∧ t.cloexec e.2 then e.1 else none)

/-- The descriptors it leaves open. -/
def spared : List (Option OpenFile) :=
  t.fds.zipIdx.map (fun e => if e.2 < 256 ∧ t.cloexec e.2 then none else e.1)

/-- `exec_image`, once the new program is loaded. -/
def exec (posix : Bool) : Shm :=
  let s := s.putProc pid { t with fds := spared t, cloexec := fun _ => false }
  let s := (doomed t).foldl release s
  let s := (s.unmapRange pid userBase (userEnd - userBase)).1
  match Assoc.get s.procs pid with
  | some t => s.putProc pid { t with posix := posix, shm := [], shmNext := userShmBase }
  | none => s

/-- `exit_current`: `cleanup`, then `close_all_files`. -/
def exit : Shm :=
  let s := s.cleanup pid
  let s := t.files.foldl release
    (s.putProc pid { t with shm := [], fds := t.fds.map (fun _ => none) })
  s.putProc pid { t with shm := [], fds := t.fds.map (fun _ => none), alive := false }

end Shm

/-- What a process may ask for. -/
inductive ShmCall where
  | memfdCreate (name : Except Int String) (flags : Nat)
  | openShm (name : String) (flags : Nat)
  | unlinkShm (name : String)
  /-- An `open` of anything else. -/
  | openOther
  | dup (fd : Nat)
  | dupFrom (fd min : Nat)
  | dup2 (old new : Nat)
  | setCloexec (fd : Nat) (on : Bool)
  | close (fd : Nat)
  | ftruncate (fd len : Nat) (granted : Bool)
  | addSeals (fd seals : Nat)
  | mmap (anonymous : Bool) (fd : Nat) (fixed noreplace : Bool) (addr len offset : Nat)
      (clash mapped granted : Bool)
  | munmap (addr len : Nat)
  | fork
  | exec (posix : Bool)
  | exit

namespace Shm

/-- The effect of a call by the process `pid` with the tables `t`. -/
def call (s : Shm) (pid : Pid) (t : Proc) : ShmCall → Shm
  | .memfdCreate name flags => (s.sysMemfdCreate pid name flags).1
  | .openShm name flags => (s.openShm pid name flags).1
  | .unlinkShm name => (s.unlinkShm name).1
  | .openOther => (s.installFd pid .other).1
  | .dup fd => (s.dupFrom pid t fd t.firstFd).1
  | .dupFrom fd min => (s.dupFrom pid t fd min).1
  | .dup2 old new => (s.sysDup2 pid t old new).1
  | .setCloexec fd on => s.putProc pid { t with cloexec := Function.update t.cloexec fd on }
  | .close fd => (s.sysClose pid t fd).1
  | .ftruncate fd len granted =>
    match t.fds[fd]? with
    | some (some (.memfd id)) => (s.shmSetLen id len granted).1
    | _ => s
  | .addSeals fd seals =>
    match t.fds[fd]? with
    | some (some (.memfd id)) => (s.shmAddSeals id seals).1
    | _ => s
  | .mmap anonymous fd fixed noreplace addr len offset clash mapped granted =>
    (s.sysMmap pid t anonymous fd fixed noreplace addr len offset clash mapped granted).1
  | .munmap addr len => (s.sysMunmap pid addr len).1
  | .fork => s.fork t
  | .exec posix => s.exec pid t posix
  | .exit => s.exit pid t

/-- Only a process that exists and has not exited makes calls. -/
def step (s : Shm) (a : Pid × ShmCall) : Option Shm :=
  ((Assoc.get s.procs a.1).filter (·.alive)).map (fun t => s.call a.1 t a.2)

end Shm

/-- The references a descriptor slot is worth. -/
def OpenFile.holds (id : SegId) : Option OpenFile → Nat
  | some (.memfd i) => if i = id then 1 else 0
  | _ => 0

/-- The `Memfd` descriptors of a process for `id`, and its entries for it. -/
def Proc.holds (id : SegId) (t : Proc) : Nat :=
  (t.fds.map (OpenFile.holds id)).sum + (t.shm.map (·.1)).count id

namespace Shm

/-- The holders of a segment: its names, the descriptors and the entries of every process. -/
def holders (s : Shm) (id : SegId) : Nat :=
  Assoc.total (fun i => if i = id then 1 else 0) s.names + Assoc.total (Proc.holds id) s.procs

/-- Before the first segment: processes with open files, none of them a `Memfd`, and
    nothing mapped. -/
def Boot (s : Shm) : Prop :=
  s.segments = (fun _ => none) ∧ s.nextSegment = 0x5100 ∧ s.names = [] ∧
    ∀ e ∈ s.procs, (∀ f ∈ e.2.fds, ∀ id, f ≠ some (.memfd id)) ∧ e.2.shm = [] ∧
      e.2.shmNext = userShmBase

end Shm

end HamixOS.Kernel

import Mathlib.Data.List.DropRight
import Mathlib.Tactic.Ring

namespace HamixOS.Kernel

namespace Vfs

/-!
# The tree of the virtual file system

The part of `fs/mod.rs` that makes, removes and moves nodes, on a `Vfs` without mounts.  A
node is an index into `nodes`; `node` and `count` are that vector.  A path is the list of its
characters.

The bytes of a file and whether they are in memory are left out: no call here looks at them.
-/

abbrev Name := List Char

abbrev Path := List Char

/-- The entries of a directory. -/
abbrev Entries := List (Name × Nat)

def Entries.get (m : Entries) (name : Name) : Option Nat := (m.find? fun e => e.1 = name).map (·.2)

def Entries.remove (m : Entries) (name : Name) : Entries := m.filter fun e => e.1 ≠ name

/-- An entry of that name is replaced. -/
def Entries.insert (m : Entries) (name : Name) (id : Nat) : Entries := (name, id) :: Entries.remove m name

inductive Kind where
  | dir (entries : Entries)
  | file
  | device (dev : Nat)
  | proc

structure Node where
  kind : Kind
  parent : Nat
  owner : Nat
  group : Nat
  mode : Nat
  ino : Nat
  dirty : Nat
  dev : Nat

def modeDirDefault : Nat := 0o755
def modeFileDefault : Nat := 0o644
def modeDeviceDefault : Nat := 0o666
def modeProcDefault : Nat := 0o444
def dirtyData : Nat := 1
def dirtyMeta : Nat := 2

/-- `VOLATILE`, the inode number of nodes that are on no disk. -/
def volatile : Nat := 2 ^ 32 - 1

/-- `DEV_BLOCK`, the number of the block device. -/
def devBlock : Nat := 5

structure Tree where
  node : Nat → Node
  count : Nat
  tracking : Bool
  removed : List (Nat × Nat × Name)

/-- `Vfs::new`. -/
def Tree.new (tracking : Bool) : Tree where
  node := fun _ => ⟨.dir [], 0, 0, 0, modeDirDefault, 0, 0, 0⟩
  count := 1
  tracking := tracking
  removed := []

namespace Tree

variable (v : Tree)

/-- The entries of a node, and none for what is not a directory. -/
def entries (id : Nat) : Entries :=
  match (v.node id).kind with
  | .dir m => m
  | _ => []

def isDir (id : Nat) : Bool :=
  match (v.node id).kind with
  | .dir _ => true
  | _ => false

def parent (id : Nat) : Nat := (v.node id).parent

def child (dir : Nat) (name : Name) : Option Nat := Entries.get (v.entries dir) name

/-! ### Paths -/

/-- The walk of `resolve` over the parts of a path. -/
def resolveFrom : Nat → List Name → Option Nat
  | cur, [] => some cur
  | cur, part :: rest =>
    if part = [] ∨ part = ['.'] then resolveFrom cur rest
    else if part = ['.', '.'] then resolveFrom (v.parent cur) rest
    else
      match v.child cur part with
      | none => none
      | some next => resolveFrom next rest

/-- Where the walk of a path begins. -/
def origin (cwd : Nat) (path : Path) : Nat := if path.head? = some '/' then 0 else cwd

def resolve (cwd : Nat) (path : Path) : Option Nat := v.resolveFrom (origin cwd path) (path.splitOn '/')

def resolveParent (cwd : Nat) (path : Path) : Option (Nat × Name) :=
  let trimmed := path.rdropWhile (· = '/')
  if trimmed = [] then none
  else
    let name := trimmed.rtakeWhile (· ≠ '/')
    let dirPart := trimmed.take (trimmed.length - name.length - 1)
    if name = [] ∨ name = ['.'] ∨ name = ['.', '.'] then none
    else if dirPart = [] then some (origin cwd trimmed, name)
    else (v.resolve cwd dirPart).map fun dir => (dir, name)

/-! ### Permissions -/

/-- `Cred::allows` for the credentials that a user id alone stands for. -/
def allows (uid : Nat) (n : Node) (want : Nat) : Bool :=
  if uid = 0 then want &&& 1 = 0 || n.mode &&& 0o111 ≠ 0
  else
    let bits := if uid = n.owner then n.mode >>> 6 &&& 7 else if n.group = 2 ^ 32 - 1 then n.mode >>> 3 &&& 7 else n.mode &&& 7
    bits &&& want = want

def canWrite (id uid : Nat) : Bool := allows uid (v.node id) 2

/-! ### Making nodes -/

def setNode (id : Nat) (n : Node) : Tree := { v with node := Function.update v.node id n }

/-- `push_node`: the node gets the id `count`. -/
def pushNode (n : Node) : Tree := { v with node := Function.update v.node v.count n, count := v.count + 1 }

def touch (id flags : Nat) : Tree :=
  if v.tracking then v.setNode id { v.node id with dirty := (v.node id).dirty ||| flags } else v

/-- The entries of a directory are replaced. -/
def setEntries (id : Nat) (m : Entries) : Tree := v.setNode id { v.node id with kind := .dir m }

def attachChild (parent : Nat) (name : Name) (id : Nat) : Tree × Except String Unit :=
  match (v.node parent).kind with
  | .dir m => (v.setEntries parent (Entries.insert m name id), .ok ())
  | _ => (v, .error "parent is not a directory")

/-- A new node with the group and the device of its parent, put there under a name. -/
def add (parent : Nat) (name : Name) (kind : Kind) (owner mode ino dirty : Nat) : Tree × Except String Nat :=
  let n : Node := ⟨kind, parent, owner, (v.node parent).group, mode, ino, dirty, (v.node parent).dev⟩
  match (v.pushNode n).attachChild parent name v.count with
  | (w, .ok ()) => (w, .ok v.count)
  | (w, .error e) => (w, .error e)

def mkdir (cwd : Nat) (path : Path) (owner : Nat) : Tree × Except String Nat :=
  match v.resolveParent cwd path with
  | none => (v, .error "bad path")
  | some (parent, name) =>
    if ¬ v.isDir parent then (v, .error "parent is not a directory")
    else if ¬ v.canWrite parent owner then (v, .error "permission denied")
    else if (v.child parent name).isSome then (v, .error "already exists")
    else v.add parent name (.dir []) owner modeDirDefault 0 dirtyMeta

/-- The loop of `mkdir_all`; `acc` is the path so far. -/
def mkdirAllFrom (owner : Nat) : Tree → Nat → Path → List Name → Tree × Except String Nat
  | v, cur, _, [] => (v, .ok cur)
  | v, cur, acc, part :: rest =>
    if part = [] then mkdirAllFrom owner v cur acc rest
    else
      let acc := acc ++ '/' :: part
      match v.resolve 0 acc with
      | some id => mkdirAllFrom owner v id acc rest
      | none =>
        match v.mkdir 0 acc owner with
        | (w, .ok id) => mkdirAllFrom owner w id acc rest
        | (w, .error e) => (w, .error e)

def mkdirAll (path : Path) (owner : Nat) : Tree × Except String Nat := mkdirAllFrom owner v 0 [] (path.splitOn '/')

def createFile (cwd : Nat) (path : Path) (owner : Nat) : Tree × Except String Nat :=
  match v.resolveParent cwd path with
  | none => (v, .error "bad path")
  | some (parent, name) =>
    if ¬ v.isDir parent then (v, .error "parent is not a directory")
    else
      match v.child parent name with
      | some existing =>
        if ¬ v.canWrite existing owner then (v, .error "permission denied")
        else
          match (v.node existing).kind with
          | .file => (v.touch existing dirtyData, .ok existing)
          | _ => (v, .error "exists and is not a file")
      | none =>
        if ¬ v.canWrite parent owner then (v, .error "permission denied")
        else v.add parent name .file owner modeFileDefault 0 (dirtyData ||| dirtyMeta)

def mknod (cwd : Nat) (path : Path) (kind : Kind) (owner mode : Nat) : Tree × Except String Nat :=
  match v.resolveParent cwd path with
  | none => (v, .error "bad path")
  | some (parent, name) => v.add parent name kind owner mode volatile 0

def mknodDevice (cwd : Nat) (path : Path) (dev : Nat) : Tree × Except String Nat :=
  v.mknod cwd path (.device dev) 0 (if dev = devBlock then 0o660 else modeDeviceDefault)

def mknodProc (cwd : Nat) (path : Path) : Tree × Except String Nat := v.mknod cwd path .proc 0 modeProcDefault

/-! ### Removing and moving -/

def recordRemoval (parent target : Nat) (name : Name) : Tree :=
  if v.tracking ∧ (v.node parent).dev = (v.node target).dev ∧ (v.node parent).ino ≠ 0 ∧
      (v.node parent).ino ≠ volatile ∧ (v.node target).ino ≠ 0 ∧ (v.node target).ino ≠ volatile then
    { v with removed := v.removed ++ [((v.node target).dev, (v.node parent).ino, name)] }
  else v

def remove (cwd : Nat) (path : Path) (uid : Nat) : Tree × Except String Unit :=
  match v.resolveParent cwd path with
  | none => (v, .error "bad path")
  | some (parent, name) =>
    match v.child parent name with
    | none => (v, .error "no such file or directory")
    | some target =>
      if ¬ v.canWrite parent uid then (v, .error "permission denied")
      else
        let v := v.recordRemoval parent target name
        (v.setEntries parent (Entries.remove (v.entries parent) name), .ok ())

/-- What `mark_fresh` does to one node. -/
def freshen (id dev : Nat) : Tree :=
  let n := v.node id
  let n := if n.ino ≠ volatile then { n with ino := 0, dirty := dirtyData ||| dirtyMeta } else n
  v.setNode id { n with dev := dev }

/-- `mark_fresh`; a tree of `depth` levels is marked whole. -/
def markFresh : Nat → Tree → Nat → Nat → Tree
  | 0, v, _, _ => v
  | depth + 1, v, id, dev =>
    (v.entries id).foldl (fun w e => markFresh depth w e.2 dev) (v.freshen id dev)

/-- The check of `rename` that a directory is not moved into itself: up to `fuel` levels from
    the destination upwards. -/
def probe (target : Nat) : Nat → Nat → Bool
  | 0, _ => false
  | fuel + 1, cur =>
    if cur = target then true
    else if cur = 0 then false
    else probe target fuel (v.parent cur)

/-- How many levels the check looks at. -/
def probeLevels : Nat := 512

/-- A rename that passed its checks. -/
structure Move where
  target : Nat
  oldParent : Nat
  oldName : Name
  newParent : Nat
  newName : Name

/-- Where a rename leads: into an existing directory under the old name, else to the new name. -/
def destination (oldName : Name) (newParent : Nat) (newName : Name) : Nat × Name :=
  match v.child newParent newName with
  | some existing => if v.isDir existing then (existing, oldName) else (newParent, newName)
  | none => (newParent, newName)

/-- The checks of `rename`, up to the first change; `none` where there is nothing to do. -/
def planRename (cwd : Nat) (source dest : Path) (uid : Nat) : Except String (Option Move) :=
  match v.resolveParent cwd source with
  | none => .error "bad path"
  | some (oldParent, oldName) =>
    match v.child oldParent oldName with
    | none => .error "no such file or directory"
    | some target =>
      match v.resolveParent cwd dest with
      | none => .error "bad path"
      | some (parent, name) =>
        let d := v.destination oldName parent name
        if ¬ v.isDir d.1 then .error "destination is not a directory"
        else if ¬ v.canWrite oldParent uid ∨ ¬ v.canWrite d.1 uid then .error "permission denied"
        else if v.probe target probeLevels d.1 then .error "cannot move a directory into itself"
        else if d.1 = oldParent ∧ d.2 = oldName then .ok none
        else
          match v.child d.1 d.2 with
          | some existing =>
            if v.isDir existing then .error "destination exists" else .ok (some ⟨target, oldParent, oldName, d.1, d.2⟩)
          | none => .ok (some ⟨target, oldParent, oldName, d.1, d.2⟩)

/-- The entry a rename replaces is recorded as removed. -/
def recordReplaced (m : Move) : Tree :=
  match v.child m.newParent m.newName with
  | some existing => v.recordRemoval m.newParent existing m.newName
  | none => v

/-- The links a rename changes. -/
def relink (m : Move) : Tree :=
  let v := (v.recordReplaced m).recordRemoval m.oldParent m.target m.oldName
  let v := v.setEntries m.oldParent (Entries.remove (v.entries m.oldParent) m.oldName)
  let v := v.setEntries m.newParent (Entries.insert (v.entries m.newParent) m.newName m.target)
  v.setNode m.target { v.node m.target with parent := m.newParent }

/-- `rename`; where the new links make a cycle, `mark_fresh` in the source does not come back. -/
def rename (cwd : Nat) (source dest : Path) (uid : Nat) : Tree × Except String Unit :=
  match v.planRename cwd source dest uid with
  | .error e => (v, .error e)
  | .ok none => (v, .ok ())
  | .ok (some m) =>
    let w := v.relink m
    (markFresh w.count w m.target (w.node m.newParent).dev, .ok ())

end Tree

end Vfs

end HamixOS.Kernel

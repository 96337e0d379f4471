import HamixOS.Kernel.VfsPath

namespace HamixOS.Kernel

open List Function Prod Nat

namespace Vfs

/-!
# Changes through a descriptor (`sys_fchmod`, `sys_fchown`)

An open file is a node, but `node_path` turns it into a path again: `path_of` climbs from the
node to the root and collects the names it finds on the way.  A level that its parent does not
list any more gives no name, and the path of what is left leads somewhere else.

* `Hits` — what a descriptor of `n` promises: a call that succeeds changes `n` alone;
* `ListedUp` — the node and the directories above it are still listed;
* `hits_iff` — the promise is kept when the path leads to `n` or nowhere, and in a tree the
  path of an open file leads to it when it is listed all the way up.
-/

/-- `Cred`; `groups` holds the first `count` of the supplementary groups. -/
structure Cred where
  uid : Nat
  gid : Nat
  groups : List Nat

namespace Cred

def isRoot (c : Cred) : Bool := c.uid = 0

def inGroup (c : Cred) (gid : Nat) : Bool := c.gid = gid ∨ gid ∈ c.groups

end Cred

/-- `Target`, what a descriptor stands for; the kinds that `node_path` refuses are one. -/
inductive Target where
  | file (node : Nat)
  | dir (path : Path)
  | bad
  | other

/-- The first name in the order of the map under which `id` is listed. -/
def Entries.nameOf (m : Entries) (id : Nat) : Option Name :=
  (m.filter fun e => Entries.get m e.1 = some id).foldl
    (fun best e => some (best.elim e.1 fun b => if e.1 < b then e.1 else b)) none

namespace Tree

variable (v : Tree)

/-- The names `path_of` collects in `guard` levels, from the top. -/
def namesUp : Nat → Nat → List Name
  | 0, _ => []
  | guard + 1, id =>
    if id = 0 then [] else namesUp guard (v.parent id) ++ (Entries.nameOf (v.entries (v.parent id)) id).toList

/-- How many levels `path_of` climbs. -/
def pathLevels : Nat := 256

def pathOf (id : Nat) : Path := render (v.namesUp pathLevels id)

def chmod (cwd : Nat) (path : Path) (uid mode : Nat) : Tree × Except String Unit :=
  match v.resolve cwd path with
  | none => (v, .error "no such file or directory")
  | some id =>
    if uid ≠ 0 ∧ (v.node id).owner ≠ uid then (v, .error "permission denied")
    else ((v.setNode id { v.node id with mode := mode &&& 0o7777 }).touch id dirtyMeta, .ok ())

def chownNode (id : Nat) (cred : Cred) (owner group : Option Nat) : Tree × Except String Unit :=
  let n := v.node id
  let own := n.owner = cred.uid
  let ownerOk := owner.elim true (· = n.owner)
  let groupOk := group.elim true cred.inGroup
  if ¬ cred.isRoot ∧ (¬ own ∨ ¬ ownerOk ∨ ¬ groupOk) then (v, .error "permission denied")
  else
    let n := { n with owner := owner.getD n.owner, group := group.getD n.group }
    -- the bits `set-user-ID` and `set-group-ID` go
    let n := if ¬ cred.isRoot ∧ (owner.isSome ∨ group.isSome) then { n with mode := n.mode &&& (2 ^ 16 - 1 - 0o6000) } else n
    ((v.setNode id n).touch id dirtyMeta, .ok ())

def chown (cwd : Nat) (path : Path) (cred : Cred) (owner group : Option Nat) : Tree × Except String Unit :=
  match v.resolve cwd path with
  | none => (v, .error "no such file or directory")
  | some id => v.chownNode id cred owner group

/-- `vfs_result`. -/
def vfsResult (r : Tree × Except String Unit) : Tree × Int :=
  match r with
  | (w, .ok ()) => (w, 0)
  | (w, .error e) => (w, fsError e)

def nodePath : Target → Except Int Path
  | .file node => .ok (v.pathOf node)
  | .dir path => .ok path
  | .bad => .error ebadf
  | .other => .error eperm

def sysFchmod (uid : Nat) (fd : Target) (mode : Nat) : Tree × Int :=
  match v.nodePath fd with
  | .ok path => vfsResult (v.chmod 0 path uid (mode &&& 0o7777))
  | .error e => (v, e)

/-- An id as `chown` takes it: the largest one stands for no change. -/
def idArg (id : Nat) : Option Nat := if id % 2 ^ 32 = 2 ^ 32 - 1 then none else some (id % 2 ^ 32)

def chownPath (path : Path) (cred : Cred) (owner group : Nat) : Tree × Int :=
  if idArg owner = none ∧ idArg group = none then (v, if (v.resolve 0 path).isSome then 0 else enoent)
  else vfsResult (v.chown 0 path cred (idArg owner) (idArg group))

def sysFchown (cred : Cred) (fd : Target) (owner group : Nat) : Tree × Int :=
  match v.nodePath fd with
  | .ok path => v.chownPath path cred owner group
  | .error e => (v, e)

/-! ### What a descriptor promises -/

/-- Mode, owner and group are the same. -/
structure SameMeta (m n : Node) : Prop where
  mode : m.mode = n.mode
  owner : m.owner = n.owner
  group : m.group = n.group

/-- A call on `fd` that succeeds changes node `n` as it says, and no other. -/
structure Hits (n : Nat) (fd : Target) : Prop where
  chmod : ∀ uid mode w, v.sysFchmod uid fd mode = (w, 0) →
    SameMeta (w.node n) { v.node n with mode := mode &&& 0o7777 } ∧ ∀ i, i ≠ n → SameMeta (w.node i) (v.node i)
  chown : ∀ cred owner group w, v.sysFchown cred fd owner group = (w, 0) →
    (w.node n).owner = (idArg owner).getD (v.node n).owner ∧ (w.node n).group = (idArg group).getD (v.node n).group ∧
      ∀ i, i ≠ n → SameMeta (w.node i) (v.node i)

/-- The path leads from the root to `n`, or to no node. -/
def Leads (path : Path) (n : Nat) : Prop := v.resolve 0 path = some n ∨ v.resolve 0 path = none

/-- The parent of `n` lists it, and so on up to the root in at most `bound` levels. -/
def ListedUp (bound n : Nat) : Prop :=
  ∃ k ≤ bound, v.parent^[k] n = 0 ∧
    ∀ j < k, ∃ name, v.child (v.parent (v.parent^[j] n)) name = some (v.parent^[j] n)

/-- Every name that leads to a node can stand in a path. -/
def Named : Prop := ∀ dir name id, v.child dir name = some id → Plain name

variable {v} {n : Nat} {path : Path} {w : Tree}

theorem SameMeta.refl (n : Node) : SameMeta n n := ⟨rfl, rfl, rfl⟩

/-- What `touch` does after a change of one node. -/
theorem setNode_touch (id : Nat) (m : Node) (i : Nat) :
    SameMeta (((v.setNode id m).touch id dirtyMeta).node i) (if i = id then m else v.node i) := by
  unfold touch setNode
  by_cases hi : i = id
  · rw [hi, if_pos rfl]
    split_ifs
    · simp only [update_self]
      exact ⟨rfl, rfl, rfl⟩
    · simp only [update_self]
      exact SameMeta.refl m
  · rw [if_neg hi]
    split_ifs
    · simp only [update_of_ne hi]
      exact SameMeta.refl _
    · simp only [update_of_ne hi]
      exact SameMeta.refl _

theorem vfsResult_zero {r : Tree × Except String Unit} (h : vfsResult r = (w, 0)) : r = (w, .ok ()) := by
  obtain ⟨x, _ | _⟩ := r
  · exact absurd (congrArg snd h) (fsError_ne_zero _)
  · exact congrArg (fun y => (y, Except.ok ())) (congrArg fst h)

/-! ### Where the change lands -/

theorem chmod_ok {uid mode : Nat} (h : v.chmod 0 path uid mode = (w, .ok ())) :
    ∃ m, v.resolve 0 path = some m ∧
      ∀ i, SameMeta (w.node i) (if i = m then { v.node m with mode := mode &&& 0o7777 } else v.node i) := by
  unfold chmod at h
  split at h
  · cases congrArg snd h
  · next m hm =>
    split_ifs at h
    · cases congrArg snd h
    · cases congrArg fst h
      exact ⟨m, hm, setNode_touch m _⟩

theorem chown_ok {cred : Cred} {owner group : Option Nat} (h : v.chown 0 path cred owner group = (w, .ok ())) :
    ∃ m n', v.resolve 0 path = some m ∧ n'.owner = owner.getD (v.node m).owner ∧
      n'.group = group.getD (v.node m).group ∧ ∀ i, SameMeta (w.node i) (if i = m then n' else v.node i) := by
  unfold chown at h
  split at h
  · cases congrArg snd h
  · next m hm =>
    unfold chownNode at h
    extract_lets n own ownerOk groupOk n₁ n₂ at h
    split_ifs at h
    · cases congrArg snd h
    · cases congrArg fst h
      refine ⟨m, n₂, hm, ?_, ?_, setNode_touch m n₂⟩
      · show (ite _ _ _ : Node).owner = _
        split_ifs
        · rfl
        · rfl
      · show (ite _ _ _ : Node).group = _
        split_ifs
        · rfl
        · rfl

/-- A path that leads to `n` or nowhere changes nothing else. -/
theorem hits_of_leads {fd : Target} (hfd : v.nodePath fd = .ok path) (h : v.Leads path n) : v.Hits n fd := by
  constructor
  · intro uid mode w hw
    unfold sysFchmod at hw
    rw [hfd] at hw
    obtain ⟨m, hm, hall⟩ := chmod_ok (vfsResult_zero hw)
    rcases h with hn | hnone
    · obtain rfl : n = m := Option.some.inj (hn.symm.trans hm)
      refine ⟨?_, fun i hi => ?_⟩
      · have hself := hall n
        rw [if_pos rfl, Nat.and_assoc, Nat.and_self] at hself
        exact hself
      · have hother := hall i
        rw [if_neg hi] at hother
        exact hother
    · rw [hnone] at hm
      cases hm
  · intro cred owner group w hw
    unfold sysFchown at hw
    rw [hfd] at hw
    replace hw : v.chownPath path cred owner group = (w, 0) := hw
    unfold chownPath at hw
    by_cases hids : idArg owner = none ∧ idArg group = none
    · rw [if_pos hids] at hw
      cases congrArg fst hw
      rw [hids.1, hids.2]
      exact ⟨rfl, rfl, fun i _ => SameMeta.refl _⟩
    · -- an id is given, so that the path is looked up
      rw [if_neg hids] at hw
      obtain ⟨m, n', hm, howner, hgroup, hall⟩ := chown_ok (vfsResult_zero hw)
      rcases h with hn | hnone
      · obtain rfl : n = m := Option.some.inj (hn.symm.trans hm)
        have hself := hall n
        rw [if_pos rfl] at hself
        refine ⟨hself.owner.trans howner, hself.group.trans hgroup, fun i hi => ?_⟩
        have hother := hall i
        rw [if_neg hi] at hother
        exact hother
      · rw [hnone] at hm
        cases hm

/-- The superuser's `fchmod` through a path that leads elsewhere changes that node. -/
theorem leads_of_hits {fd : Target} (hfd : v.nodePath fd = .ok path) (h : v.Hits n fd) : v.Leads path n := by
  unfold Leads
  cases hm : v.resolve 0 path with
  | none => exact .inr rfl
  | some m =>
    refine .inl ?_
    by_contra hne
    have hmn : m ≠ n := fun heq => hne (congrArg some heq)
    -- a mode that the node does not have yet
    let mode := if (v.node m).mode = 0 then 1 else 0
    have hmode : mode &&& 0o7777 &&& 0o7777 ≠ (v.node m).mode := by
      by_cases h0 : (v.node m).mode = 0
      · simp only [mode, if_pos h0, h0]
        decide
      · simp only [mode, if_neg h0]
        exact fun heq => h0 (heq.symm.trans (zero_and _))
    have hcall : v.sysFchmod 0 fd mode =
        ((v.setNode m { v.node m with mode := mode &&& 0o7777 &&& 0o7777 }).touch m dirtyMeta, 0) := by
      unfold sysFchmod chmod
      rw [hfd]
      dsimp only
      rw [hm]
      dsimp only
      rw [if_neg (fun hroot => hroot.1 rfl)]
      rfl
    have hsame := (h.chmod 0 mode _ hcall).2 m hmn
    have hset := setNode_touch (v := v) m { v.node m with mode := mode &&& 0o7777 &&& 0o7777 } m
    rw [if_pos rfl] at hset
    exact hmode (hset.mode.symm.trans hsame.mode)

/-! ### Where the path of a file leads -/

/-- The least name so far is one of those looked at, and there is one from the first on. -/
theorem least_name {m : Entries} {id : Nat} (es : Entries) (best : Option Name)
    (hes : ∀ e ∈ es, Entries.get m e.1 = some id) (hbest : ∀ name, best = some name → Entries.get m name = some id) :
    (∀ name, es.foldl (fun best e => some (best.elim e.1 fun b => if e.1 < b then e.1 else b)) best = some name →
      Entries.get m name = some id) ∧
    (es.foldl (fun best e => some (best.elim e.1 fun b => if e.1 < b then e.1 else b)) best = none → es = []) := by
  induction es generalizing best with
  | nil => exact ⟨hbest, fun _ => rfl⟩
  | cons e es ih =>
    have hrest := ih (some (best.elim e.1 fun b => if e.1 < b then e.1 else b))
      (fun x hx => hes x (mem_cons_of_mem _ hx)) ?_
    · refine ⟨hrest.1, fun hnone => ?_⟩
      rw [foldl_cons, hrest.2 hnone] at hnone
      cases hnone
    · rintro name hname
      have hfirst := hes e mem_cons_self
      cases best with
      | none =>
        cases hname
        exact hfirst
      | some b =>
        rw [Option.elim_some] at hname
        split_ifs at hname
        · cases hname
          exact hfirst
        · cases hname
          exact hbest _ rfl

theorem nameOf_spec (m : Entries) (id : Nat) :
    (∀ name, Entries.nameOf m id = some name → Entries.get m name = some id) ∧
      (Entries.nameOf m id = none → ∀ name, Entries.get m name ≠ some id) := by
  have hmem : ∀ e ∈ m.filter fun e => Entries.get m e.1 = some id, Entries.get m e.1 = some id :=
    fun e he => of_decide_eq_true (mem_filter.mp he).2
  obtain ⟨hsome, hnone⟩ := least_name _ none hmem fun _ h => (by cases h)
  refine ⟨hsome, fun h name hname => ?_⟩
  have hempty := hnone h
  obtain ⟨e, he, hid⟩ := Option.map_eq_some_iff.mp hname
  have hkey : e.1 = name := by simpa using find?_some he
  have hin : e ∈ m.filter fun e => Entries.get m e.1 = some id :=
    mem_filter.mpr ⟨mem_of_find?_eq_some he, decide_eq_true (hkey ▸ hname)⟩
  rw [hempty] at hin
  exact absurd hin not_mem_nil

theorem namesUp_plain (hnames : v.Named) (guard id : Nat) : ∀ name ∈ v.namesUp guard id, Plain name := by
  induction guard generalizing id with
  | zero => exact fun name hname => absurd hname not_mem_nil
  | succ guard ih =>
    intro name hname
    unfold namesUp at hname
    split_ifs at hname
    · exact absurd hname not_mem_nil
    · rcases mem_append.mp hname with hup | hlast
      · exact ih (v.parent id) name hup
      · exact hnames _ name id ((nameOf_spec _ id).1 name (Option.mem_toList.mp hlast))

theorem length_namesUp (v : Tree) (guard id : Nat) : (v.namesUp guard id).length ≤ guard := by
  induction guard generalizing id with
  | zero => exact le_refl 0
  | succ guard ih =>
    unfold namesUp
    split_ifs
    · exact zero_le _
    · have hup := ih (v.parent id)
      have hlast : (Entries.nameOf (v.entries (v.parent id)) id).toList.length ≤ 1 := by
        cases Entries.nameOf (v.entries (v.parent id)) id with
        | none => exact zero_le 1
        | some name => exact le_refl 1
      rw [length_append]
      omega

/-- A node that is listed all the way up is found again. -/
theorem resolveFrom_namesUp (hnames : v.Named) {guard : Nat} (h : v.ListedUp guard n) :
    v.resolveFrom 0 (v.namesUp guard n) = some n := by
  induction guard generalizing n with
  | zero =>
    obtain ⟨k, hk, hroot, -⟩ := h
    obtain rfl : k = 0 := le_zero.mp hk
    rw [show n = 0 from hroot]
    rfl
  | succ guard ih =>
    unfold namesUp
    split_ifs with h0
    · rw [h0]
      rfl
    · obtain ⟨k, hk, hroot, hlisted⟩ := h
      cases k with
      | zero => exact absurd hroot h0
      | succ k =>
        have hup : v.ListedUp guard (v.parent n) :=
          ⟨k, by omega, hroot, fun j hj => hlisted (j + 1) (by omega)⟩
        obtain ⟨name, hname⟩ : ∃ name, v.child (v.parent n) name = some n := hlisted 0 (by omega)
        -- the name found need not be `name`, but it leads to the same node
        cases hfound : Entries.nameOf (v.entries (v.parent n)) n with
        | none => exact absurd hname ((nameOf_spec _ n).2 hfound name)
        | some found =>
          have hchild : v.child (v.parent n) found = some n := (nameOf_spec _ n).1 found hfound
          rw [resolveFrom_append, ih hup, Option.bind_some, Option.toList_some,
            resolveFrom_plain (hnames _ found n hchild), hchild]
          rfl

/-- What a walk down by names finds is listed, level by level. -/
theorem listedUp_of_resolveFrom (hv : v.IsTree) (parts : List Name) (hparts : ∀ name ∈ parts, Plain name)
    (h : v.resolveFrom 0 parts = some n) : v.ListedUp parts.length n := by
  -- the last part is the name of the node in its parent, the parts before it lead to the parent
  induction parts using List.reverseRecOn generalizing n with
  | nil =>
    cases h
    exact ⟨0, le_refl 0, rfl, fun j hj => absurd hj (not_lt_zero j)⟩
  | append_singleton init last ih =>
    rw [resolveFrom_append] at h
    obtain ⟨dir, hdir, hlast⟩ := Option.bind_eq_some_iff.mp h
    rw [resolveFrom_plain (hparts last (mem_append_right _ (mem_singleton_self last)))] at hlast
    obtain ⟨next, hchild, hnext⟩ := Option.bind_eq_some_iff.mp hlast
    cases hnext
    have hparent : v.parent n = dir := hv.parent_lists dir last n hchild
    obtain ⟨k, hk, hroot, hlisted⟩ := ih (fun name hname => hparts name (mem_append_left _ hname)) hdir
    refine ⟨k + 1, ?_, ?_, ?_⟩
    · rw [length_append, length_singleton]
      omega
    · rw [iterate_succ_apply, hparent]
      exact hroot
    · intro j hj
      cases j with
      | zero =>
        refine ⟨last, ?_⟩
        show v.child (v.parent n) last = some n
        rw [hparent]
        exact hchild
      | succ j =>
        rw [iterate_succ_apply, hparent]
        exact hlisted j (by omega)

theorem resolve_pathOf_iff (hv : v.IsTree) (hnames : v.Named) (n : Nat) :
    v.resolve 0 (v.pathOf n) = some n ↔ v.ListedUp pathLevels n := by
  have hplain := namesUp_plain hnames pathLevels n
  unfold pathOf
  rw [resolve_render v hplain]
  refine ⟨fun h => ?_, resolveFrom_namesUp hnames⟩
  obtain ⟨k, hk, hrest⟩ := listedUp_of_resolveFrom hv _ hplain h
  exact ⟨k, le_trans hk (length_namesUp v pathLevels n), hrest⟩

/-- A descriptor keeps its promise exactly when its path leads to the node it was opened on, or
    nowhere; and in a tree the path of an open file leads to it exactly when the file and the
    directories above it are listed all the way up, in as many levels as `path_of` climbs. -/
theorem hits_iff (v : Tree) :
    (∀ n, v.Hits n (.file n) ↔ v.Leads (v.pathOf n) n) ∧ (∀ path n, v.Hits n (.dir path) ↔ v.Leads path n) ∧
      (v.IsTree → v.Named → ∀ n, v.resolve 0 (v.pathOf n) = some n ↔ v.ListedUp pathLevels n) := by
  refine ⟨fun n => ⟨leads_of_hits rfl, hits_of_leads rfl⟩, fun path n => ⟨leads_of_hits rfl, hits_of_leads rfl⟩, ?_⟩
  exact fun hv hnames n => resolve_pathOf_iff hv hnames n

/-- The root directory with one file in it. -/
def oneFile : Tree := ((new true).createFile 0 "/f".toList 0).1

theorem entries_oneFile (dir : Nat) : oneFile.entries dir = if dir = 0 then [("f".toList, 1)] else [] := by
  match dir with
  | 0 => rfl
  | 1 => rfl
  | _ + 2 => rfl

theorem oneFile_named : oneFile.Named := by
  intro dir name id hchild
  unfold child at hchild
  rw [entries_oneFile] at hchild
  split_ifs at hchild
  · obtain ⟨e, he, -⟩ := Option.map_eq_some_iff.mp hchild
    have hkey : e.1 = name := by simpa using find?_some he
    rw [← hkey, mem_singleton.mp (mem_of_find?_eq_some he)]
    exact ⟨by decide, by decide, by decide, by decide⟩
  · cases hchild

/-- The descriptor of that file changes it. -/
theorem hits_iff_oneFile : oneFile.Hits 1 (.file 1) := by
  have hv : oneFile.IsTree := ((WellLinked.of_new true).createFile Nat.zero_lt_one _ 0).isTree
  have hlisted : oneFile.ListedUp pathLevels 1 := by
    refine ⟨1, by decide, rfl, fun j hj => ?_⟩
    obtain rfl : j = 0 := by omega
    exact ⟨"f".toList, by decide⟩
  exact ((hits_iff oneFile).1 1).mpr (.inl (((hits_iff oneFile).2.2 hv oneFile_named 1).mpr hlisted))

/-- The tree after the file is removed, with a descriptor of it still open. -/
def unlinkedFile : Tree := (oneFile.remove 0 "/f".toList 0).1

/-- `fchmod` on that descriptor changes the root directory, and the file keeps its mode. -/
theorem fchmod_after_unlink :
    ¬ unlinkedFile.Hits 1 (.file 1) ∧ (unlinkedFile.sysFchmod 0 (.file 1) 0o600).2 = 0 ∧
      ((unlinkedFile.sysFchmod 0 (.file 1) 0o600).1.node 1).mode = 0o644 ∧
      ((unlinkedFile.sysFchmod 0 (.file 1) 0o600).1.node 0).mode = 0o600 := by
  have hfile : ((unlinkedFile.sysFchmod 0 (.file 1) 0o600).1.node 1).mode = 0o644 := by decide
  have hzero : (unlinkedFile.sysFchmod 0 (.file 1) 0o600).2 = 0 := by decide
  refine ⟨fun h => ?_, hzero, hfile, by decide⟩
  have hmode := (h.chmod 0 0o600 (unlinkedFile.sysFchmod 0 (.file 1) 0o600).1 (Prod.ext rfl hzero)).1.mode
  rw [hfile] at hmode
  exact absurd hmode (by decide)

end Tree

end Vfs

end HamixOS.Kernel

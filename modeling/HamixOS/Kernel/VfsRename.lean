import HamixOS.Kernel.Errno
import HamixOS.Kernel.VfsTree

namespace HamixOS.Kernel

open List Option Function

namespace Vfs

/-!
# The system call that renames

`sys_renameat` removes a file that is in the way before it calls `Vfs::rename`, which has checks of its
own.  This is the tree with the mount points and with what the file nodes hold.

* `Files` — the tree and the bodies of its nodes; `mounted` is the table of mount points, and `load`
  is what `make_resident` makes of a body;
* `resolve_of_resolveParent` — a path leads to the child that its parent has under its last name;
* `Doomed` — the file in the way goes, and what is left to check fails;
* `renameat_restores_iff` — a rename that fails leaves everything as it was unless it is doomed.
-/

structure Files (β : Type) where
  tree : Tree
  body : Nat → β

/-- `fs_error`. -/
def fsError (e : String) : Int :=
  if e = "not a regular file" then eisdir
  else if e = "no such file or directory" ∨ e = "bad path" then enoent
  else if e = "already exists" ∨ e = "destination exists" then eexist
  else if e = "parent is not a directory" ∨ e = "not a directory" ∨ e = "destination is not a directory" then enotdir
  else if e = "device or resource busy" then ebusy
  else if e = "cannot move a directory into itself" then einval
  else if e = "no space left on device" then enospc
  else eacces

theorem fsError_ne_zero (e : String) : fsError e ≠ 0 := by
  unfold fsError
  split_ifs
  all_goals decide

/-- The tree without an entry. -/
def Tree.without (v : Tree) (p : Nat) (name : Name) : Tree := v.setEntries p (Entries.remove (v.entries p) name)

/-- There is a file at the destination, and the source is another. -/
def Tree.inTheWay (v : Tree) (source dest : Path) : Bool :=
  match v.resolve 0 source, v.resolve 0 dest with
  | some src, some dst => src != dst && !v.isDir src && !v.isDir dst
  | _, _ => false

namespace Files

variable {β : Type} (mounted : Nat → Bool) (load : Nat → β → β) (s : Files β)

def remove (cwd : Nat) (path : Path) (uid : Nat) : Files β × Except String Unit :=
  match s.tree.resolveParent cwd path with
  | none => (s, .error "bad path")
  | some (parent, name) =>
    match s.tree.child parent name with
    | none => (s, .error "no such file or directory")
    | some target =>
      if ¬ s.tree.canWrite parent uid then (s, .error "permission denied")
      else if mounted target then (s, .error "device or resource busy")
      else ({ s with tree := (s.tree.recordRemoval parent target name).without parent name }, .ok ())

/-- `mark_fresh`, which stops at mount points; a tree of `depth` levels is marked whole. -/
def markFresh : Nat → Files β → Nat → Nat → Files β
  | 0, s, _, _ => s
  | depth + 1, s, id, dev =>
    (s.tree.entries id).foldl (fun w e => if mounted e.2 then w else markFresh depth w e.2 dev)
      ⟨s.tree.freshen id dev, Function.update s.body id (load id (s.body id))⟩

/-- The checks of `rename`, up to the first change; `none` where there is nothing to do. -/
def planRename (v : Tree) (cwd : Nat) (source dest : Path) (uid : Nat) : Except String (Option Tree.Move) :=
  match v.resolveParent cwd source with
  | none => .error "bad path"
  | some (oldParent, oldName) =>
    match v.child oldParent oldName with
    | none => .error "no such file or directory"
    | some target =>
      if mounted target then .error "device or resource busy"
      else
        match v.resolveParent cwd dest with
        | none => .error "bad path"
        | some (parent, name) =>
          let d := v.destination oldName parent name
          if ¬ v.isDir d.1 then .error "destination is not a directory"
          else if ¬ v.canWrite oldParent uid ∨ ¬ v.canWrite d.1 uid then .error "permission denied"
          else if v.probe target Tree.probeLevels d.1 then .error "cannot move a directory into itself"
          else if d.1 = oldParent ∧ d.2 = oldName then .ok none
          else
            match v.child d.1 d.2 with
            | some existing =>
              if v.isDir existing then .error "destination exists" else .ok (some ⟨target, oldParent, oldName, d.1, d.2⟩)
            | none => .ok (some ⟨target, oldParent, oldName, d.1, d.2⟩)

def rename (cwd : Nat) (source dest : Path) (uid : Nat) : Files β × Except String Unit :=
  match planRename mounted s.tree cwd source dest uid with
  | .error e => (s, .error e)
  | .ok none => (s, .ok ())
  | .ok (some m) =>
    let w := s.tree.relink m
    (markFresh mounted load w.count { s with tree := w } m.target (w.node m.newParent).dev, .ok ())

/-- What `sys_renameat` does with the `Vfs`; paths are taken from the root. -/
def renameat (noReplace : Bool) (source dest : Path) (uid : Nat) : Files β × Except String Unit :=
  if noReplace ∧ (s.tree.resolve 0 dest).isSome then (s, .error "already exists")
  else if s.tree.inTheWay source dest then
    match s.remove mounted 0 dest uid with
    | (s', .error e) => (s', .error e)
    | (s', .ok ()) => s'.rename mounted load 0 source dest uid
  else s.rename mounted load 0 source dest uid

/-- `sys_renameat`, once its paths are read. -/
def sysRenameat (flags : Nat) (source dest : Path) (uid : Nat) : Files β × Int :=
  if flags / 2 ≠ 0 then (s, einval)
  else
    match s.renameat mounted load (flags % 2 = 1) source dest uid with
    | (s', .ok ()) => (s', 0)
    | (s', .error e) => (s', fsError e)

end Files

/-! ### Paths -/

namespace Tree

variable {v w : Tree}

theorem resolveFrom_append (v : Tree) (cur : Nat) (a b : List Name) :
    v.resolveFrom cur (a ++ b) = (v.resolveFrom cur a).bind fun c => v.resolveFrom c b := by
  induction a generalizing cur with
  | nil => rfl
  | cons part rest ih =>
    rw [cons_append, resolveFrom, resolveFrom]
    split
    · exact ih cur
    split
    · exact ih _
    split
    · rfl
    · exact ih _

/-- Slashes at the end lead nowhere else. -/
theorem resolveFrom_slashes (v : Tree) (cur : Nat) (path : Path) {slashes : Path} (h : ∀ c ∈ slashes, c = '/') :
    v.resolveFrom cur ((path ++ slashes).splitOn '/') = v.resolveFrom cur (path.splitOn '/') := by
  induction slashes generalizing path with
  | nil => rw [append_nil]
  | cons c rest ih =>
    obtain rfl := h c mem_cons_self
    have hrest := ih (path ++ ['/']) fun d hd => h d (mem_cons_of_mem _ hd)
    rw [append_assoc, singleton_append] at hrest
    rw [hrest, splitOn_append_cons_self, resolveFrom_append, splitOn_nil]
    cases v.resolveFrom cur (path.splitOn '/') with
    | none => rfl
    | some c => rfl

variable {cwd : Nat}

theorem origin_append {a : Path} (h : a ≠ []) (b : Path) : origin cwd (a ++ b) = origin cwd a := by
  unfold origin
  rw [head?_append_of_ne_nil _ h]

/-- A path is the name at its end alone, or after a slash. -/
theorem eq_name_or (path : Path) : path = path.rtakeWhile (· ≠ '/') ∨ ∃ d, path = d ++ '/' :: path.rtakeWhile (· ≠ '/') := by
  induction path using reverseRecOn with
  | nil => exact .inl rfl
  | append_singleton l c ih =>
    by_cases hc : c = '/'
    · rw [rtakeWhile_concat_neg _ _ _ (by simpa using hc)]
      exact .inr ⟨l, by rw [hc]⟩
    · rw [rtakeWhile_concat_pos _ _ _ (by simpa using hc)]
      rcases ih with h | ⟨d, h⟩
      · exact .inl (congrArg (· ++ [c]) h)
      · exact .inr ⟨d, by
          conv_lhs => rw [h]
          rw [append_assoc, cons_append]⟩

theorem eq_trimmed_append (path : Path) : path = path.rdropWhile (· = '/') ++ path.rtakeWhile (· = '/') := by
  unfold rdropWhile rtakeWhile
  rw [← reverse_append, takeWhile_append_dropWhile, reverse_reverse]

theorem not_mem_name (path : Path) : '/' ∉ path.rtakeWhile (· ≠ '/') := fun h => by
  have := mem_rtakeWhile_imp h
  simp at this

/-- Where a path has a parent it leads to what the parent has under the last name. -/
theorem resolve_of_resolveParent {path : Path} {p : Nat} {n : Name} (h : v.resolveParent cwd path = some (p, n)) :
    v.resolve cwd path = v.child p n := by
  have hwhole : ∀ trimmed : Path, trimmed = path.rdropWhile (· = '/') → trimmed ≠ [] →
      v.resolve cwd path = v.resolveFrom (origin cwd trimmed) (trimmed.splitOn '/') := by
    rintro trimmed rfl hne
    have horigin : origin cwd path = origin cwd (path.rdropWhile (· = '/')) := by
      conv_lhs => rw [eq_trimmed_append path]
      exact origin_append hne _
    have hwalk : ∀ cur, v.resolveFrom cur ((path.rdropWhile (· = '/') ++ path.rtakeWhile (· = '/')).splitOn '/') =
        v.resolveFrom cur ((path.rdropWhile (· = '/')).splitOn '/') := fun cur =>
      resolveFrom_slashes v cur _ fun c hc => by simpa using mem_rtakeWhile_imp hc
    rw [← eq_trimmed_append] at hwalk
    unfold resolve
    rw [horigin]
    exact hwalk _
  unfold resolveParent at h
  dsimp only at h
  generalize path.rdropWhile (· = '/') = trimmed at h hwhole
  split at h
  · cases h
  next hne =>
  rw [hwhole trimmed rfl hne]
  have hslash := not_mem_name trimmed
  have hcases := eq_name_or trimmed
  generalize trimmed.rtakeWhile (· ≠ '/') = name at h hslash hcases
  split at h
  · cases h
  next hname =>
  obtain ⟨hn, hdot, hdots⟩ := not_or.mp hname |>.imp_right not_or.mp
  have hstep : ∀ cur, v.resolveFrom cur [name] = v.child cur name := fun cur => by
    rw [resolveFrom, if_neg (not_or.mpr ⟨hn, hdot⟩), if_neg hdots]
    cases v.child cur name with
    | none => rfl
    | some c => rfl
  rcases hcases with rfl | ⟨d, rfl⟩
  · rw [if_pos (by simp)] at h
    cases h
    rw [splitOn_eq_singleton hslash]
    exact hstep _
  · have hd : take ((d ++ '/' :: name).length - name.length - 1) (d ++ '/' :: name) = d := by
      rw [length_append, length_cons, show d.length + (name.length + 1) - name.length - 1 = d.length by omega]
      exact take_left
    rw [hd] at h
    rw [splitOn_append_cons_self, splitOn_eq_singleton hslash, resolveFrom_append]
    split at h
    next hnil =>
      cases h
      subst hnil
      exact hstep _
    next hfront =>
      obtain ⟨dir, hdir, hpair⟩ := map_eq_some_iff.mp h
      obtain ⟨rfl, rfl⟩ := Prod.mk.inj hpair
      unfold resolve at hdir
      rw [origin_append hfront, hdir]
      exact hstep dir

/-! ### A tree without one of its files -/

/-- A tree with fewer entries leads to fewer nodes. -/
theorem resolveFrom_fewer (hparent : w.parent = v.parent) (hchild : ∀ d n c, w.child d n = some c → v.child d n = some c)
    {cur id : Nat} {parts : List Name} (h : w.resolveFrom cur parts = some id) : v.resolveFrom cur parts = some id := by
  induction parts generalizing cur with
  | nil => exact h
  | cons part rest ih =>
    rw [resolveFrom] at h ⊢
    split at h
    next hskip => rw [if_pos hskip]; exact ih h
    next hskip =>
    rw [if_neg hskip]
    split at h
    next hup => rw [if_pos hup, ← hparent]; exact ih h
    next hup =>
    rw [if_neg hup]
    split at h
    · cases h
    next next hnext =>
      rw [hchild cur part next hnext]
      exact ih h

theorem resolveParent_fewer (hparent : w.parent = v.parent) (hchild : ∀ d n c, w.child d n = some c → v.child d n = some c)
    {path : Path} {e : Nat × Name} (h : w.resolveParent cwd path = some e) : v.resolveParent cwd path = some e := by
  unfold resolveParent at h ⊢
  dsimp only at h ⊢
  split at h
  · cases h
  next hne =>
  rw [if_neg hne]
  split at h
  · cases h
  next hname =>
  rw [if_neg hname]
  split at h
  next hd => rw [if_pos hd]; exact h
  next hd =>
    rw [if_neg hd]
    obtain ⟨dir, hdir, rfl⟩ := map_eq_some_iff.mp h
    rw [show v.resolve cwd _ = some dir from resolveFrom_fewer hparent hchild hdir]
    rfl

theorem child_without (v : Tree) (p : Nat) (name : Name) (d : Nat) (n : Name) :
    (v.without p name).child d n = if d = p ∧ n = name then none else v.child d n := by
  unfold without
  rw [child_setEntries, get_remove]
  by_cases hd : d = p
  · subst hd
    rw [if_pos rfl]
    by_cases hn : n = name
    · rw [if_pos hn, if_pos ⟨rfl, hn⟩]
    · rw [if_neg hn, if_neg fun h => hn h.2]
      rfl
  · rw [if_neg hd, if_neg fun h => hd h.1]

/-- What `rename` looks at in a tree that lacks an entry of another. -/
structure Lacks (v w : Tree) (p : Nat) (name : Name) : Prop where
  parent : w.parent = v.parent
  child : ∀ d n, w.child d n = if d = p ∧ n = name then none else v.child d n
  canWrite : ∀ id uid, w.canWrite id uid = v.canWrite id uid
  isDir : w.isDir p

theorem lacks_without (v : Tree) (p : Nat) (name : Name) : Lacks v (v.without p name) p name where
  parent := parent_setEntries ..
  child := child_without v p name
  canWrite := fun id uid => by
    unfold Tree.canWrite without setEntries setNode
    by_cases hid : id = p
    · subst hid
      simp only [update_self]
      rfl
    · simp only [update_of_ne hid]
  isDir := by
    unfold Tree.isDir without setEntries setNode
    simp only [update_self]

/-- The record of removals is no part of the tree. -/
theorem lacks_removed (v : Tree) (p target : Nat) (name : Name) :
    Lacks v ((v.recordRemoval p target name).without p name) p name := by
  have hsame : SameLinks v (v.recordRemoval p target name) := .recordRemoval p target name
  have hnode : (v.recordRemoval p target name).node = v.node := by
    unfold recordRemoval
    split
    · rfl
    · rfl
  have hlacks := lacks_without (v.recordRemoval p target name) p name
  refine ⟨hlacks.parent.trans hsame.parent, fun d n => ?_, fun id uid => ?_, hlacks.isDir⟩
  · rw [hlacks.child, hsame.child]
  · rw [hlacks.canWrite]
    unfold Tree.canWrite
    rw [hnode]

namespace Lacks

variable {p : Nat} {name : Name}

section

variable (h : Lacks v w p name)

include h

theorem child_of {d : Nat} {n : Name} {c : Nat} (hc : w.child d n = some c) : v.child d n = some c := by
  rw [h.child] at hc
  exact (ite_none_left_eq_some.mp hc).2

theorem resolveParent_of {path : Path} {e : Nat × Name}
    (he : w.resolveParent cwd path = some e) : v.resolveParent cwd path = some e :=
  resolveParent_fewer h.parent (fun _ _ _ => h.child_of) he

/-- Two trees that lack the same have the same paths. -/
theorem resolveParent_congr {x : Tree} (h' : Lacks v x p name) (cwd : Nat) (path : Path) :
    w.resolveParent cwd path = x.resolveParent cwd path := by
  have hchild : ∀ d n, w.child d n = x.child d n := fun d n => by rw [h.child, h'.child]
  have hparent : w.parent = x.parent := h.parent.trans h'.parent.symm
  refine Option.ext fun e => ⟨fun he => ?_, fun he => ?_⟩
  · exact resolveParent_fewer hparent (fun d n c hc => (hchild d n).symm.trans hc) he
  · exact resolveParent_fewer hparent.symm (fun d n c hc => (hchild d n).trans hc) he

theorem probe (target fuel cur : Nat) : w.probe target fuel cur = v.probe target fuel cur := by
  induction fuel generalizing cur with
  | zero => rfl
  | succ fuel ih => rw [Tree.probe, Tree.probe, h.parent, ih]

end

end Lacks

/-- The file at the destination goes, and the rename has no way left: the mount table, the directory
    of the source or one of the paths is against it.  A path can go through the entry of a file only
    to come back with `..`. -/
structure Stuck (mounted : Nat → Bool) (v : Tree) (source dest : Path) (uid src dst p : Nat) (name : Name) : Prop where
  found : v.resolve 0 source = some src
  target : v.resolve 0 dest = some dst
  other : src ≠ dst
  sourceFile : ¬ v.isDir src
  targetFile : ¬ v.isDir dst
  parent : v.resolveParent 0 dest = some (p, name)
  writable : v.canWrite p uid
  free : ¬ mounted dst
  stuck : (v.without p name).resolveParent 0 source = none ∨ (v.without p name).resolveParent 0 dest = none ∨
    mounted src ∨ (∃ e, v.resolveParent 0 source = some e ∧ ¬ v.canWrite e.1 uid) ∨ v.probe src probeLevels p

/-- The call removes the file in the way and fails. -/
def Doomed (mounted : Nat → Bool) (v : Tree) (flags : Nat) (source dest : Path) (uid : Nat) : Prop :=
  flags = 0 ∧ ∃ src dst p name, Stuck mounted v source dest uid src dst p name

end Tree

namespace Files

open Tree

variable {β : Type} {mounted : Nat → Bool} {load : Nat → β → β} {s : Files β}

variable {s' : Files β} {source dest : Path} {uid : Nat}

/-- A rename that fails has done nothing. -/
theorem rename_restores {cwd : Nat} {e : String}
    (h : s.rename mounted load cwd source dest uid = (s', .error e)) : s' = s := by
  unfold rename at h
  split at h
  · cases h; rfl
  · cases h
  · cases h

theorem remove_restores {cwd : Nat} {path : Path} {e : String}
    (h : s.remove mounted cwd path uid = (s', .error e)) : s' = s := by
  unfold remove at h
  split at h
  · cases h; rfl
  split at h
  · cases h; rfl
  split at h
  · cases h; rfl
  split at h
  · cases h; rfl
  · cases h

/-- A removal that succeeds. -/
theorem remove_ok {cwd : Nat} {path : Path} (h : s.remove mounted cwd path uid = (s', .ok ())) :
    ∃ p name target, s.tree.resolveParent cwd path = some (p, name) ∧ s.tree.child p name = some target ∧
      s.tree.canWrite p uid ∧ ¬ mounted target ∧
      s' = { s with tree := (s.tree.recordRemoval p target name).without p name } := by
  unfold remove at h
  split at h
  · cases h
  next p name hp =>
  split at h
  · cases h
  next target ht =>
  split at h
  · cases h
  next hw =>
  split at h
  · cases h
  next hm =>
  cases h
  exact ⟨p, name, target, hp, ht, not_not.mp hw, hm, rfl⟩

/-- What is left to check when the file in the way is gone. -/
theorem planRename_lacks (mounted : Nat → Bool) {v w : Tree} {uid src dst p : Nat} {name : Name} (hl : Lacks v w p name)
    (hsrc : v.resolve 0 source = some src) (hdest : v.resolveParent 0 dest = some (p, name)) (hdst : v.child p name = some dst)
    (hne : src ≠ dst) (hw : v.canWrite p uid) :
    (∃ e, planRename mounted w 0 source dest uid = .error e) ↔
      w.resolveParent 0 source = none ∨ w.resolveParent 0 dest = none ∨ mounted src ∨
        (∃ e, v.resolveParent 0 source = some e ∧ ¬ v.canWrite e.1 uid) ∨ v.probe src probeLevels p := by
  unfold planRename
  cases hs : w.resolveParent 0 source with
  | none => simp
  | some e =>
    obtain ⟨q, m⟩ := e
    have hvs := hl.resolveParent_of hs
    have hchild : v.child q m = some src := (resolve_of_resolveParent hvs).symm.trans hsrc
    -- the entries are two
    have hentry : ¬ (q = p ∧ m = name) := by
      rintro ⟨rfl, rfl⟩
      exact hne (some.inj (hchild.symm.trans hdst))
    have hwchild : w.child q m = some src := by rw [hl.child, if_neg hentry, hchild]
    simp only [hwchild]
    by_cases hm : mounted src
    · simp [hm]
    · rw [if_neg hm]
      cases hd : w.resolveParent 0 dest with
      | none => simp
      | some e =>
        have hvd := hl.resolveParent_of hd
        rw [hdest] at hvd
        cases hvd
        have hgone : w.child p name = none := by rw [hl.child, if_pos ⟨rfl, rfl⟩]
        have hdestination : w.destination m p name = (p, name) := by
          unfold destination
          rw [hgone]
        have hsame : ¬ (p = q ∧ name = m) := fun h => hentry ⟨h.1.symm, h.2.symm⟩
        have hold : (∃ e, v.resolveParent 0 source = some e ∧ ¬ v.canWrite e.1 uid) ↔ ¬ v.canWrite q uid := by
          rw [hvs]
          simp
        simp only [hdestination, hl.isDir, hl.canWrite, hl.probe, hgone, hw, hsame, hm, hold, not_true_eq_false, if_false,
          or_false, false_or, reduceCtorEq, Bool.false_eq_true]
        by_cases hq : v.canWrite q uid
        · by_cases hprobe : v.probe src probeLevels p
          · simp [hq, hprobe]
          · simp [hq, hprobe]
        · simp [hq]

/-- Where the file in the way is gone the tree is another. -/
theorem without_ne {v : Tree} {p target : Nat} {name : Name} {dst : Nat} (h : v.child p name = some dst) :
    (v.recordRemoval p target name).without p name ≠ v := fun he => by
  have hgone := (lacks_removed v p target name).child p name
  rw [he, if_pos ⟨rfl, rfl⟩, h] at hgone
  cases hgone

theorem inTheWay_iff {v : Tree} : v.inTheWay source dest ↔
    ∃ src dst, v.resolve 0 source = some src ∧ v.resolve 0 dest = some dst ∧ src ≠ dst ∧ ¬ v.isDir src ∧ ¬ v.isDir dst := by
  unfold inTheWay
  cases v.resolve 0 source with
  | none => simp
  | some src =>
    cases v.resolve 0 dest with
    | none => simp
    | some dst => simp [and_assoc]

/-- A failure that has changed something comes after the removal. -/
theorem stuck_of_changed {noReplace : Bool} {e : String}
    (h : s.renameat mounted load noReplace source dest uid = (s', .error e)) (hchanged : s' ≠ s) :
    noReplace = false ∧ ∃ src dst p name, Stuck mounted s.tree source dest uid src dst p name := by
  unfold renameat at h
  split at h
  · cases h
    exact absurd rfl hchanged
  next hreplace =>
  split at h
  next hway =>
    obtain ⟨src, dst, hsrc, hdst, hne, hsf, hdf⟩ := inTheWay_iff.mp hway
    have hno : noReplace = false := by
      rw [hdst] at hreplace
      simpa using hreplace
    cases hr : s.remove mounted 0 dest uid with
    | mk s₁ result =>
      rw [hr] at h
      cases result with
      | error e' =>
        cases h
        exact absurd (remove_restores hr) hchanged
      | ok u =>
        obtain ⟨p, name, target, hp, ht, hw, hm, rfl⟩ := remove_ok hr
        have htarget : target = dst := by
          rw [resolve_of_resolveParent hp, ht] at hdst
          exact some.inj hdst
        subst htarget
        have hl := lacks_removed s.tree p target name
        obtain ⟨e', he'⟩ : ∃ e', planRename mounted ((s.tree.recordRemoval p target name).without p name) 0 source dest uid
            = .error e' := by
          simp only [rename] at h
          split at h
          next e' he' => exact ⟨e', he'⟩
          next => cases h
          next => cases h
        have hstuck := (planRename_lacks mounted hl hsrc hp ht hne hw).mp ⟨e', he'⟩
        rw [hl.resolveParent_congr (lacks_without s.tree p name), hl.resolveParent_congr (lacks_without s.tree p name)] at hstuck
        exact ⟨hno, src, target, p, name, hsrc, hdst, hne, hsf, hdf, hp, hw, hm, hstuck⟩
  next => exact absurd (rename_restores h) hchanged

/-- A rename that is stuck fails with the file gone. -/
theorem changed_of_stuck (load : Nat → β → β) {uid src dst p : Nat} {name : Name}
    (h : Stuck mounted s.tree source dest uid src dst p name) :
    ∃ s' e, s.renameat mounted load false source dest uid = (s', .error e) ∧ s' ≠ s := by
  have hchild : s.tree.child p name = some dst := (resolve_of_resolveParent h.parent).symm.trans h.target
  have hremove : s.remove mounted 0 dest uid =
      ({ s with tree := (s.tree.recordRemoval p dst name).without p name }, .ok ()) := by
    unfold remove
    simp only [h.parent, hchild, h.writable, h.free, not_true_eq_false, if_false]
    rfl
  have hway : s.tree.inTheWay source dest :=
    inTheWay_iff.mpr ⟨src, dst, h.found, h.target, h.other, h.sourceFile, h.targetFile⟩
  have hl := lacks_removed s.tree p dst name
  obtain ⟨e, he⟩ := (planRename_lacks mounted hl h.found h.parent hchild h.other h.writable).mpr (by
    rw [hl.resolveParent_congr (lacks_without s.tree p name), hl.resolveParent_congr (lacks_without s.tree p name)]
    exact h.stuck)
  refine ⟨{ s with tree := (s.tree.recordRemoval p dst name).without p name }, e, ?_, fun hsame => ?_⟩
  · unfold renameat
    rw [if_neg (by simp), if_pos hway, hremove]
    unfold rename
    simp only [he]
  · exact without_ne hchild (congrArg Files.tree hsame)

/-- A rename that fails changes nothing, unless the file in the way is gone by then. -/
theorem renameat_restores_iff {β : Type} (mounted : Nat → Bool) (load : Nat → β → β) (s : Files β) (flags : Nat)
    (source dest : Path) (uid : Nat) :
    ((s.sysRenameat mounted load flags source dest uid).2 ≠ 0 → (s.sysRenameat mounted load flags source dest uid).1 = s) ↔
      ¬ Doomed mounted s.tree flags source dest uid := by
  unfold sysRenameat
  by_cases hflags : flags / 2 ≠ 0
  · rw [if_pos hflags]
    refine ⟨fun _ hdoomed => ?_, fun _ _ => rfl⟩
    exact hflags (by rw [hdoomed.1])
  rw [if_neg hflags]
  cases hr : s.renameat mounted load (decide (flags % 2 = 1)) source dest uid with
  | mk s' result =>
    constructor
    · rintro hrestores ⟨rfl, src, dst, p, name, hstuck⟩
      obtain ⟨s₁, e, hfails, hchanged⟩ := changed_of_stuck load hstuck
      obtain ⟨rfl, rfl⟩ := Prod.mk.inj (hr.symm.trans hfails)
      exact hchanged (hrestores (fsError_ne_zero e))
    · intro hno herror
      cases result with
      | ok u => exact absurd rfl herror
      | error e =>
        by_contra hchanged
        obtain ⟨hreplace, hstuck⟩ := stuck_of_changed hr hchanged
        have hzero : flags = 0 := by
          have := of_decide_eq_false hreplace
          omega
        exact hno ⟨hzero, hstuck⟩

/-- Two files in two directories of the root: one is the caller's, the other is not. -/
def twoFiles : Files Unit where
  tree :=
    { node := fun i =>
        if i = 0 then ⟨.dir [(['a'], 1), (['b'], 2)], 0, 0, 0, modeDirDefault, 1, 0, 0⟩
        else if i = 1 then ⟨.dir [(['f'], 3)], 0, 0, 0, modeDirDefault, 2, 0, 0⟩
        else if i = 2 then ⟨.dir [(['g'], 4)], 0, 1000, 1000, modeDirDefault, 3, 0, 0⟩
        else if i = 3 then ⟨.file, 1, 0, 0, modeFileDefault, 4, 0, 0⟩
        else ⟨.file, 2, 1000, 1000, modeFileDefault, 5, 0, 0⟩
      count := 5
      tracking := true
      removed := [] }
  body := fun _ => ()

/-- User 1000 renames a file out of a directory of `root`: the rename is refused, and the file in the
    way is gone. -/
theorem renameat_loses_file : ∃ (s : Files Unit) (source dest : Path) (uid : Nat),
    (s.sysRenameat (fun _ => false) (fun _ b => b) 0 source dest uid).2 = eacces ∧
      s.tree.resolve 0 dest = some 4 ∧
      (s.sysRenameat (fun _ => false) (fun _ b => b) 0 source dest uid).1.tree.resolve 0 dest = none ∧
      (s.sysRenameat (fun _ => false) (fun _ b => b) 0 source dest uid).1 ≠ s := by
  refine ⟨twoFiles, ['/', 'a', '/', 'f'], ['/', 'b', '/', 'g'], 1000, by decide, by decide, by decide, fun h => ?_⟩
  have hgone : (twoFiles.sysRenameat (fun _ => false) (fun _ b => b) 0 ['/', 'a', '/', 'f'] ['/', 'b', '/', 'g'] 1000).1.tree.child 2
      ['g'] = none := by decide
  rw [h] at hgone
  exact absurd hgone (by decide)

end Files

end Vfs

end HamixOS.Kernel

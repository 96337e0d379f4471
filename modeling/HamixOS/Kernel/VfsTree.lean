import HamixOS.Lib.Chain
import HamixOS.Lib.Machine
import HamixOS.Kernel.Vfs

namespace HamixOS.Kernel

namespace Vfs

open Lib Function Option Nat Entries

/-!
# The nodes make a tree

`WellLinked` says of all nodes, reached from the root or not, that an entry and the `parent`
field of the node it leads to agree, and that the parents of each node come to the root.

* `WellLinked.prune`, `WellLinked.grow`, `WellLinked.move` — what becomes of it when entries go,
  when a node is made and when a node is moved;
* `tree_kept` — in every run the nodes reached from the root make a tree, and a rename detaches
  nothing, as long as no rename meets the gap of its check;
* `rename_below_itself` — that check looks at `probeLevels` levels only.
-/

namespace Tree

/-- A node that the root leads to. -/
inductive Reachable (v : Tree) : Nat → Prop
  | root : Reachable v 0
  | child {dir id : Nat} {name : Name} : Reachable v dir → v.child dir name = some id → Reachable v id

/-- A directory and a node it has an entry for. -/
def Lists (v : Tree) (dir id : Nat) : Prop := ∃ name, v.child dir name = some id

/-- The nodes the root leads to make a tree, and `parent` leads back up in it. -/
structure IsTree (v : Tree) : Prop where
  listed_once : ∀ id, v.Reachable id → id ≠ 0 → ∃! e : Nat × Name, v.child e.1 e.2 = some id
  parent_lists : ∀ dir name id, v.child dir name = some id → v.parent id = dir
  root_unlisted : ∀ dir name, v.child dir name ≠ some 0
  chain : ∀ id, v.Reachable id → Ends v.parent 0 id
  acyclic : ∀ dir, ¬ Relation.TransGen v.Lists dir dir

/-- The same about every node of the vector. -/
structure WellLinked (v : Tree) : Prop where
  root_lt : 0 < v.count
  root_parent : v.parent 0 = 0
  parent_lt : ∀ i, i < v.count → v.parent i < v.count
  ends : ∀ i, i < v.count → Ends v.parent 0 i
  child_lt : ∀ d n c, v.child d n = some c → d < v.count ∧ c < v.count
  child_parent : ∀ d n c, v.child d n = some c → v.parent c = d
  child_ne : ∀ d n c, v.child d n = some c → c ≠ 0
  name_unique : ∀ d n n' c, v.child d n = some c → v.child d n' = some c → n = n'

variable {v w : Tree}

namespace WellLinked

theorem of_new (tracking : Bool) : WellLinked (.new tracking) where
  root_lt := zero_lt_one
  root_parent := rfl
  parent_lt := fun _ _ => zero_lt_one
  ends := fun _ _ => ⟨1, rfl⟩
  child_lt := nofun
  child_parent := nofun
  child_ne := nofun
  name_unique := nofun

theorem reachable_lt (h : v.WellLinked) {i : Nat} (hi : v.Reachable i) : i < v.count := by
  cases hi with
  | root => exact h.root_lt
  | child _ hc => exact (h.child_lt _ _ _ hc).2

theorem listed_of_reachable {i : Nat} (hi : v.Reachable i) (h0 : i ≠ 0) :
    ∃ d n, v.Reachable d ∧ v.child d n = some i := by
  cases hi with
  | root => exact absurd rfl h0
  | child hd hc => exact ⟨_, _, hd, hc⟩

section

variable (h : v.WellLinked)

include h

theorem isTree : v.IsTree where
  listed_once := by
    intro i hi h0
    obtain ⟨d, n, -, hc⟩ := listed_of_reachable hi h0
    refine ⟨(d, n), hc, ?_⟩
    intro e he
    have hd : e.1 = d := (h.child_parent _ _ _ he).symm.trans (h.child_parent _ _ _ hc)
    have hn : e.2 = n := h.name_unique d _ _ _ (hd ▸ he) hc
    exact Prod.ext hd hn
  parent_lists := h.child_parent
  root_unlisted := fun d n hc => h.child_ne d n 0 hc rfl
  chain := fun i hi => h.ends i (h.reachable_lt hi)
  acyclic := by
    intro d hcycle
    -- the last link of the cycle shows that `d` is a node of the vector
    have hd : d < v.count := by
      cases hcycle with
      | single hl =>
        obtain ⟨n, hn⟩ := hl
        exact (h.child_lt _ _ _ hn).2
      | tail _ hl =>
        obtain ⟨n, hn⟩ := hl
        exact (h.child_lt _ _ _ hn).2
    refine Ends.acyclic h.root_parent ?_ (h.ends d hd) hcycle
    rintro a b ⟨n, hn⟩
    exact ⟨h.child_parent _ _ _ hn, h.child_ne _ _ _ hn⟩

/-- Entries go, or nothing changes. -/
theorem prune (hcount : w.count = v.count) (hparent : w.parent = v.parent)
    (hchild : ∀ d n c, w.child d n = some c → v.child d n = some c) : w.WellLinked where
  root_lt := hcount ▸ h.root_lt
  root_parent := hparent ▸ h.root_parent
  parent_lt := by
    rw [hcount, hparent]
    exact h.parent_lt
  ends := by
    rw [hcount, hparent]
    exact h.ends
  child_lt := by
    intro d n c hc
    rw [hcount]
    exact h.child_lt _ _ _ (hchild _ _ _ hc)
  child_parent := by
    intro d n c hc
    rw [hparent]
    exact h.child_parent _ _ _ (hchild _ _ _ hc)
  child_ne := fun d n c hc => h.child_ne _ _ _ (hchild _ _ _ hc)
  name_unique := fun d n n' c hc hc' => h.name_unique _ _ _ _ (hchild _ _ _ hc) (hchild _ _ _ hc')

/-- A node is made below `p`; at most one entry leads to it. -/
theorem grow (name : Name) {p : Nat} (hp : p < v.count) (hcount : w.count = v.count + 1)
    (hparent : w.parent = update v.parent v.count p)
    (hchild : ∀ d n c, w.child d n = some c → v.child d n = some c ∨ (d = p ∧ n = name ∧ c = v.count)) :
    w.WellLinked := by
  have hsame : ∀ i, i < v.count → w.parent i = v.parent i := by
    intro i hi
    rw [hparent, update_of_ne (Nat.ne_of_lt hi)]
  have hnew : w.parent v.count = p := by rw [hparent, update_self]
  have hends : ∀ i, i < v.count → Ends w.parent 0 i := by
    intro i hi
    rw [hparent]
    exact Ends.fresh (fun j => j < v.count) h.parent_lt (lt_irrefl _) hi (h.ends i hi)
  constructor
  case root_lt => omega
  case root_parent => rw [hsame 0 h.root_lt, h.root_parent]
  case parent_lt =>
    intro i hi
    rcases Nat.lt_succ_iff_lt_or_eq.mp (hcount ▸ hi) with hlt | rfl
    · rw [hsame i hlt, hcount]
      exact lt_succ_of_lt (h.parent_lt i hlt)
    · rw [hnew, hcount]
      exact lt_succ_of_lt hp
  case ends =>
    intro i hi
    rcases Nat.lt_succ_iff_lt_or_eq.mp (hcount ▸ hi) with hlt | rfl
    · exact hends i hlt
    · refine Ends.of_up ?_
      rw [hnew]
      exact hends p hp
  case child_lt =>
    intro d n c hc
    rcases hchild d n c hc with hold | ⟨rfl, -, rfl⟩
    · have := h.child_lt _ _ _ hold
      omega
    · omega
  case child_parent =>
    intro d n c hc
    rcases hchild d n c hc with hold | ⟨rfl, -, rfl⟩
    · rw [hsame c (h.child_lt _ _ _ hold).2]
      exact h.child_parent _ _ _ hold
    · exact hnew
  case child_ne =>
    intro d n c hc
    rcases hchild d n c hc with hold | ⟨-, -, rfl⟩
    · exact h.child_ne _ _ _ hold
    · exact ne_of_gt h.root_lt
  case name_unique =>
    intro d n n' c hc hc'
    -- no old entry leads to the new node
    rcases hchild d n c hc with hold | ⟨-, rfl, rfl⟩ <;> rcases hchild d n' _ hc' with hold' | ⟨-, hn', hcc⟩
    · exact h.name_unique _ _ _ _ hold hold'
    · exact absurd (h.child_lt _ _ _ hold).2 (by omega)
    · exact absurd (h.child_lt _ _ _ hold').2 (by omega)
    · exact hn'.symm

/-- The node `t` is moved below `p`, which is not below `t`; one entry leads to it then. -/
theorem move (name : Name) {t p : Nat} (ht : t ≠ 0) (hpc : p < v.count) (htc : t < v.count)
    (hp : ∀ k, v.parent^[k] p ≠ t) (hcount : w.count = v.count)
    (hparent : w.parent = update v.parent t p)
    (hchild : ∀ d n c, w.child d n = some c →
      (v.child d n = some c ∧ c ≠ t) ∨ (d = p ∧ n = name ∧ c = t)) : w.WellLinked where
  root_lt := hcount ▸ h.root_lt
  root_parent := by rw [hparent, update_of_ne ht.symm, h.root_parent]
  parent_lt := by
    intro i hi
    rw [hcount] at hi ⊢
    by_cases hit : i = t
    · rw [hparent, hit, update_self]
      exact hpc
    · rw [hparent, update_of_ne hit]
      exact h.parent_lt i hi
  ends := by
    intro i hi
    rw [hcount] at hi
    rw [hparent]
    exact Ends.regraft hp (h.ends p hpc) (h.ends i hi)
  child_lt := by
    intro d n c hc
    rw [hcount]
    rcases hchild d n c hc with ⟨hold, -⟩ | ⟨rfl, -, rfl⟩
    · exact h.child_lt _ _ _ hold
    · exact ⟨hpc, htc⟩
  child_parent := by
    intro d n c hc
    rw [hparent]
    rcases hchild d n c hc with ⟨hold, hct⟩ | ⟨rfl, -, rfl⟩
    · rw [update_of_ne hct]
      exact h.child_parent _ _ _ hold
    · exact update_self ..
  child_ne := by
    intro d n c hc
    rcases hchild d n c hc with ⟨hold, -⟩ | ⟨-, -, rfl⟩
    · exact h.child_ne _ _ _ hold
    · exact ht
  name_unique := by
    intro d n n' c hc hc'
    rcases hchild d n c hc with ⟨hold, hct⟩ | ⟨-, hn, hct⟩ <;>
      rcases hchild d n' c hc' with ⟨hold', hct'⟩ | ⟨-, hn', hct'⟩
    · exact h.name_unique _ _ _ _ hold hold'
    · exact absurd hct' hct
    · exact absurd hct hct'
    · exact hn.trans hn'.symm

end

end WellLinked

/-! ### Entries -/

@[simp] theorem get_remove (m : Entries) (name n : Name) :
    (m.remove name).get n = if n = name then none else m.get n := by
  unfold Entries.remove Entries.get
  rw [List.find?_filter]
  by_cases hn : n = name
  · rw [if_pos hn, map_eq_none_iff, List.find?_eq_none]
    intro e _ he
    simp [hn] at he
  · rw [if_neg hn]
    congr 2
    funext e
    by_cases he : e.1 = n
    · simp [he, hn]
    · simp [he]

@[simp] theorem get_insert (m : Entries) (name n : Name) (id : Nat) :
    (m.insert name id).get n = if n = name then some id else m.get n := by
  show (((name, id) :: m.remove name).find? fun e => e.1 = n).map (·.2) = _
  by_cases hn : n = name
  · simp [hn]
  · have hne : ¬ name = n := fun he => hn he.symm
    rw [if_neg hn, List.find?_cons_of_neg (by simpa using hne)]
    exact (get_remove m name n).trans (if_neg hn)

/-! ### What the small steps leave alone -/

theorem child_setEntries (v : Tree) (id : Nat) (m : Entries) (d : Nat) (n : Name) :
    (v.setEntries id m).child d n = if d = id then m.get n else v.child d n := by
  by_cases hd : d = id
  · subst hd
    rw [if_pos rfl]
    simp only [child, entries, setEntries, setNode, update_self]
  · rw [if_neg hd]
    simp only [child, entries, setEntries, setNode, update_of_ne hd]

@[simp] theorem parent_setEntries (v : Tree) (id : Nat) (m : Entries) : (v.setEntries id m).parent = v.parent := by
  funext i
  by_cases hi : i = id
  · subst hi
    simp only [parent, setEntries, setNode, update_self]
  · simp only [parent, setEntries, setNode, update_of_ne hi]

@[simp] theorem count_setEntries (v : Tree) (id : Nat) (m : Entries) : (v.setEntries id m).count = v.count := rfl

/-- A node keeps its kind and its parent. -/
structure SameLinks (v w : Tree) : Prop where
  count : w.count = v.count
  kind : ∀ i, (w.node i).kind = (v.node i).kind
  parent : w.parent = v.parent

namespace SameLinks

theorem self (v : Tree) : SameLinks v v := ⟨rfl, fun _ => rfl, rfl⟩

section

variable (h : SameLinks v w)

include h

theorem trans {x : Tree} (h' : SameLinks w x) : SameLinks v x :=
  ⟨h'.count.trans h.count, fun i => (h'.kind i).trans (h.kind i), h'.parent.trans h.parent⟩

theorem entries (i : Nat) : w.entries i = v.entries i := by
  unfold Tree.entries
  rw [h.kind i]

theorem child (d : Nat) (n : Name) : w.child d n = v.child d n := by
  unfold Tree.child
  rw [h.entries d]

theorem reachable {i : Nat} (hi : v.Reachable i) : w.Reachable i := by
  induction hi with
  | root => exact .root
  | child _ hc ih => exact .child ih ((h.child _ _).trans hc)

theorem wellLinked (hv : v.WellLinked) : w.WellLinked :=
  hv.prune h.count h.parent fun d n _ hc => (h.child d n).symm.trans hc

end

theorem setNode {id : Nat} {n : Node} (hkind : n.kind = (v.node id).kind) (hparent : n.parent = (v.node id).parent) :
    SameLinks v (v.setNode id n) := by
  refine ⟨rfl, ?_, ?_⟩
  · intro i
    by_cases hi : i = id
    · rw [hi]
      simp only [Tree.setNode, update_self, hkind]
    · simp only [Tree.setNode, update_of_ne hi]
  · funext i
    by_cases hi : i = id
    · rw [hi]
      simp only [Tree.parent, Tree.setNode, update_self, hparent]
    · simp only [Tree.parent, Tree.setNode, update_of_ne hi]

theorem touch (id flags : Nat) : SameLinks v (v.touch id flags) := by
  unfold Tree.touch
  split
  · exact setNode rfl rfl
  · exact self v

theorem recordRemoval (p t : Nat) (name : Name) : SameLinks v (v.recordRemoval p t name) := by
  unfold Tree.recordRemoval
  split
  · exact ⟨rfl, fun _ => rfl, rfl⟩
  · exact self v

theorem recordReplaced (m : Move) : SameLinks v (v.recordReplaced m) := by
  unfold Tree.recordReplaced
  split
  · exact recordRemoval _ _ _
  · exact self v

theorem freshen (id dev : Nat) : SameLinks v (v.freshen id dev) := by
  refine setNode ?_ ?_
  · show (ite _ _ _ : Node).kind = _
    split <;> rfl
  · show (ite _ _ _ : Node).parent = _
    split <;> rfl

theorem markFresh (depth : Nat) : ∀ (v : Tree) (id dev : Nat), SameLinks v (markFresh depth v id dev) := by
  induction depth with
  | zero => exact fun v _ _ => self v
  | succ depth ih =>
    intro v id dev
    -- the entries are marked one after the other
    have hfold : ∀ (es : Entries) (w : Tree), SameLinks w (es.foldl (fun w e => Tree.markFresh depth w e.2 dev) w) := by
      intro es
      induction es with
      | nil => exact self
      | cons e es ihe => exact fun w => (ih w e.2 dev).trans (ihe _)
    exact (freshen id dev).trans (hfold _ _)

end SameLinks

namespace WellLinked

/-! ### Paths lead to nodes -/

theorem resolveFrom_keeps {P : Nat → Prop} (hparent : ∀ cur, P cur → P (v.parent cur))
    (hchild : ∀ cur name next, P cur → v.child cur name = some next → P next) {parts : List Name} {cur id : Nat} (hcur : P cur)
    (hr : v.resolveFrom cur parts = some id) : P id := by
  induction parts generalizing cur with
  | nil =>
    cases hr
    exact hcur
  | cons part rest ih =>
    unfold resolveFrom at hr
    split at hr
    · exact ih hcur hr
    · split at hr
      · exact ih (hparent cur hcur) hr
      · split at hr
        · cases hr
        · next next hc => exact ih (hchild _ _ _ hcur hc) hr

theorem resolveFrom_lt (h : v.WellLinked) {parts : List Name} {cur id : Nat} (hcur : cur < v.count)
    (hr : v.resolveFrom cur parts = some id) : id < v.count :=
  resolveFrom_keeps h.parent_lt (fun _ _ _ _ hc => (h.child_lt _ _ _ hc).2) hcur hr

variable {cwd : Nat}

theorem origin_lt (h : v.WellLinked) (hcwd : cwd < v.count) (path : Path) : origin cwd path < v.count := by
  unfold origin
  split
  · exact h.root_lt
  · exact hcwd

theorem resolve_lt (h : v.WellLinked) {cwd id : Nat} {path : Path} (hcwd : cwd < v.count)
    (hr : v.resolve cwd path = some id) : id < v.count :=
  h.resolveFrom_lt (h.origin_lt hcwd path) hr

theorem resolveParent_lt (h : v.WellLinked) {path : Path} {e : Nat × Name} (hcwd : cwd < v.count)
    (hr : v.resolveParent cwd path = some e) : e.1 < v.count := by
  unfold resolveParent at hr
  simp only [ite_none_left_eq_some] at hr
  obtain ⟨-, -, hr⟩ := hr
  split at hr
  · cases hr
    exact h.origin_lt hcwd _
  · obtain ⟨d, hd, rfl⟩ := map_eq_some_iff.mp hr
    exact h.resolve_lt hcwd hd

/-! ### Making a node -/

section

variable (h : v.WellLinked)

include h

theorem add {p : Nat} (name : Name) {kind : Kind} (owner mode ino dirty : Nat) (hp : p < v.count)
    (hkind : ∀ m, kind = .dir m → m = []) : (v.add p name kind owner mode ino dirty).1.WellLinked := by
  unfold Tree.add
  dsimp only
  generalize hn : (⟨kind, p, owner, (v.node p).group, mode, ino, dirty, (v.node p).dev⟩ : Node) = n
  have hparent : (v.pushNode n).parent = update v.parent v.count p := by
    funext i
    by_cases hi : i = v.count
    · rw [hi]
      simp only [parent, pushNode, update_self, ← hn]
    · simp only [parent, pushNode, update_of_ne hi]
  have hchild : ∀ d nm c, (v.pushNode n).child d nm = some c → v.child d nm = some c := by
    intro d nm c hc
    by_cases hd : d = v.count
    · -- the new node has no entries
      have hnone : (v.pushNode n).entries d = [] := by
        subst hn hd
        simp only [entries, pushNode, update_self]
        cases kind with
        | dir m => exact hkind m rfl
        | _ => rfl
      rw [child, hnone] at hc
      cases hc
    · simpa only [child, entries, pushNode, update_of_ne hd] using hc
  unfold attachChild
  split
  · next w hw =>
    split at hw
    · next m hm =>
      cases hw
      refine h.grow name hp rfl ((parent_setEntries ..).trans hparent) ?_
      intro d nm c hc
      rw [child_setEntries] at hc
      split at hc
      · next hd =>
        rw [get_insert] at hc
        split at hc
        · next hnm => exact .inr ⟨hd, hnm, (some.inj hc).symm⟩
        · refine .inl (hchild d nm c ?_)
          rw [child, entries, hd, hm]
          exact hc
      · exact .inl (hchild d nm c hc)
    · cases hw
  · next w e hw =>
    split at hw
    · cases hw
    · cases hw
      exact h.grow name hp rfl hparent fun d nm c hc => .inl (hchild d nm c hc)

theorem mkdir (hcwd : cwd < v.count) (path : Path) (owner : Nat) :
    (v.mkdir cwd path owner).1.WellLinked := by
  unfold Tree.mkdir
  split
  · exact h
  · next p name hp =>
    split
    · exact h
    · split
      · exact h
      · split
        · exact h
        · refine h.add name owner _ _ _ (h.resolveParent_lt hcwd hp) ?_
          intro m hm
          cases hm
          rfl

theorem mkdirAllFrom (owner : Nat) (parts : List Name) (cur : Nat) (acc : Path) :
    (Tree.mkdirAllFrom owner v cur acc parts).1.WellLinked := by
  induction parts generalizing v cur acc with
  | nil => exact h
  | cons part rest ih =>
    unfold Tree.mkdirAllFrom
    split
    · exact ih h _ _
    · dsimp only
      split
      · exact ih h _ _
      · have hm := h.mkdir h.root_lt (acc ++ '/' :: part) owner
        split
        · next w id hw =>
          rw [hw] at hm
          exact ih hm _ _
        · next w e hw =>
          rw [hw] at hm
          exact hm

theorem createFile (hcwd : cwd < v.count) (path : Path) (owner : Nat) :
    (v.createFile cwd path owner).1.WellLinked := by
  unfold Tree.createFile
  split
  · exact h
  · next p name hp =>
    split
    · exact h
    · split
      · split
        · exact h
        · split
          · exact (SameLinks.touch _ _).wellLinked h
          · exact h
      · split
        · exact h
        · exact h.add name owner _ _ _ (h.resolveParent_lt hcwd hp) nofun

theorem mknod (hcwd : cwd < v.count) (path : Path) {kind : Kind} (owner mode : Nat)
    (hkind : ∀ m, kind ≠ .dir m) : (v.mknod cwd path kind owner mode).1.WellLinked := by
  unfold Tree.mknod
  split
  · exact h
  · next p name hp => exact h.add name owner _ _ _ (h.resolveParent_lt hcwd hp) fun m hm => absurd hm (hkind m)

theorem remove (cwd : Nat) (path : Path) (uid : Nat) : (v.remove cwd path uid).1.WellLinked := by
  unfold Tree.remove
  split
  · exact h
  · next p name hp =>
    split
    · exact h
    · next t ht =>
      split
      · exact h
      · have hr : SameLinks v (v.recordRemoval p t name) := .recordRemoval p t name
        refine (hr.wellLinked h).prune rfl (parent_setEntries ..) ?_
        intro d n c hc
        rw [child_setEntries, get_remove] at hc
        split at hc
        · next hd =>
          rw [hd]
          exact (ite_none_left_eq_some.mp hc).2
        · exact hc

end

end WellLinked

/-! ### Moving a node -/

/-- What the checks of `rename` find out. -/
structure Planned (v : Tree) (m : Move) : Prop where
  source : v.child m.oldParent m.oldName = some m.target
  destination : v.isDir m.newParent = true
  probed : v.probe m.target probeLevels m.newParent = false
  moved : ¬ (m.newParent = m.oldParent ∧ m.newName = m.oldName)
  replaced : ∀ i, v.child m.newParent m.newName = some i → v.isDir i = false

variable {m : Move} {source dest : Path} {uid : Nat}

theorem planned {cwd : Nat}
    (h : v.planRename cwd source dest uid = .ok (some m)) :
    v.Planned m ∧ ∃ e, v.resolveParent cwd dest = some e ∧ v.destination m.oldName e.1 e.2 = (m.newParent, m.newName) := by
  unfold planRename at h
  split at h
  · cases h
  · next oldParent oldName _ =>
    split at h
    · cases h
    · next target htarget =>
      split at h
      · cases h
      · next p name hres =>
        generalize hd : v.destination oldName p name = d at h
        by_cases hdir : ¬ v.isDir d.1
        · rw [if_pos hdir] at h
          cases h
        · rw [if_neg hdir] at h
          rw [not_not] at hdir
          split at h
          · cases h
          · split at h
            · cases h
            · next hprobe =>
              split at h
              · cases h
              · next hsame =>
                have hprobe : v.probe target probeLevels d.1 = false := by simpa using hprobe
                split at h
                · next existing hex =>
                  split at h
                  · cases h
                  · next hnd =>
                    cases h
                    refine ⟨⟨htarget, hdir, hprobe, hsame, ?_⟩, (p, name), hres, hd⟩
                    intro i hi
                    cases hex.symm.trans hi
                    simpa using hnd
                · next hex =>
                  cases h
                  refine ⟨⟨htarget, hdir, hprobe, hsame, ?_⟩, (p, name), hres, hd⟩
                  intro i hi
                  cases hex.symm.trans hi

section

variable (h : v.WellLinked)

include h

theorem WellLinked.newParent_lt {cwd : Nat}
    (hcwd : cwd < v.count) (hp : v.planRename cwd source dest uid = .ok (some m)) : m.newParent < v.count := by
  obtain ⟨-, e, he, hd⟩ := planned hp
  have hlt := h.resolveParent_lt hcwd he
  have hnew : (v.destination m.oldName e.1 e.2).1 < v.count := by
    unfold destination
    split
    · next existing hex =>
      split
      · exact (h.child_lt _ _ _ hex).2
      · exact hlt
    · exact hlt
  rw [hd] at hnew
  exact hnew

theorem reachable_parent {i : Nat} (hi : v.Reachable i) : v.Reachable (v.parent i) := by
  cases hi with
  | root =>
    rw [h.root_parent]
    exact .root
  | child hd hc =>
    rw [h.child_parent _ _ _ hc]
    exact hd

theorem reachable_resolveFrom {parts : List Name} {cur id : Nat} (hcur : v.Reachable cur)
    (hr : v.resolveFrom cur parts = some id) : v.Reachable id :=
  WellLinked.resolveFrom_keeps (P := v.Reachable) (fun _ => reachable_parent h) (fun _ _ _ hcur hc => .child hcur hc) hcur hr

/-- From a working directory that is still attached a rename leads to a directory that is. -/
theorem reachable_newParent {cwd : Nat}
    (hcwd : v.Reachable cwd) (hp : v.planRename cwd source dest uid = .ok (some m)) : v.Reachable m.newParent := by
  have horigin : ∀ path, v.Reachable (origin cwd path) := by
    intro path
    unfold origin
    split
    · exact .root
    · exact hcwd
  obtain ⟨-, e, he, hd⟩ := planned hp
  have hplace : v.Reachable e.1 := by
    unfold resolveParent at he
    simp only [ite_none_left_eq_some] at he
    obtain ⟨-, -, he⟩ := he
    split at he
    · cases he
      exact horigin _
    · obtain ⟨d, hres, rfl⟩ := map_eq_some_iff.mp he
      exact reachable_resolveFrom h (horigin _) hres
  have hnew : v.Reachable (v.destination m.oldName e.1 e.2).1 := by
    unfold destination
    split
    · next existing hex =>
      split
      · exact .child hplace hex
      · exact hplace
    · exact hplace
  rw [hd] at hnew
  exact hnew

end

/-- A check that finds nothing has looked at that many levels. -/
theorem probe_avoids (hroot : v.parent 0 = 0) {t : Nat} (ht : t ≠ 0) {fuel cur : Nat} (h : v.probe t fuel cur = false) :
    ∀ k, k < fuel → v.parent^[k] cur ≠ t := by
  induction fuel generalizing cur with
  | zero => nofun
  | succ fuel ih =>
    unfold probe at h
    by_cases hc : cur = t
    · rw [if_pos hc] at h
      cases h
    · rw [if_neg hc] at h
      intro k hk
      by_cases h0 : cur = 0
      · -- the chain stays at the root
        rw [h0, iterate_fixed hroot]
        exact Ne.symm ht
      · rw [if_neg h0] at h
        cases k with
        | zero => exact hc
        | succ k => exact ih h k (by omega)

theorem child_relink (d : Nat) (n : Name) :
    (v.relink m).child d n = if d = m.newParent ∧ n = m.newName then some m.target
      else if d = m.oldParent ∧ n = m.oldName then none else v.child d n := by
  have hr : SameLinks v ((v.recordReplaced m).recordRemoval m.oldParent m.target m.oldName) :=
    .trans (.recordReplaced m) (.recordRemoval _ _ _)
  unfold relink
  dsimp only
  generalize (v.recordReplaced m).recordRemoval m.oldParent m.target m.oldName = x at hr
  generalize hy : x.setEntries m.oldParent (Entries.remove (x.entries m.oldParent) m.oldName) = y
  generalize hz : y.setEntries m.newParent (insert (y.entries m.newParent) m.newName m.target) = z
  have hset : (z.setNode m.target { z.node m.target with parent := m.newParent }).child d n = z.child d n := by
    by_cases hd : d = m.target
    · rw [hd]
      simp only [child, entries, setNode, update_self]
    · simp only [child, entries, setNode, update_of_ne hd]
  have hychild : ∀ d n, y.child d n = if d = m.oldParent ∧ n = m.oldName then none else v.child d n := by
    intro d n
    rw [← hy, child_setEntries, get_remove]
    by_cases hd : d = m.oldParent
    · rw [if_pos hd, hd, ← hr.child]
      by_cases hn : n = m.oldName
      · rw [if_pos hn, if_pos ⟨rfl, hn⟩]
      · rw [if_neg hn, if_neg fun hc => hn hc.2]
        rfl
    · rw [if_neg hd, if_neg fun hc => hd hc.1, hr.child]
  rw [hset, ← hz, child_setEntries, get_insert]
  by_cases hd : d = m.newParent
  · rw [if_pos hd, hd]
    by_cases hn : n = m.newName
    · rw [if_pos hn, if_pos ⟨rfl, hn⟩]
    · rw [if_neg hn, if_neg fun hc => hn hc.2]
      exact hychild _ _
  · rw [if_neg hd, if_neg fun hc => hd hc.1]
    exact hychild _ _

theorem parent_relink (m : Move) : (v.relink m).parent = update v.parent m.target m.newParent := by
  have hr : SameLinks v ((v.recordReplaced m).recordRemoval m.oldParent m.target m.oldName) :=
    .trans (.recordReplaced m) (.recordRemoval _ _ _)
  unfold relink
  dsimp only
  generalize (v.recordReplaced m).recordRemoval m.oldParent m.target m.oldName = x at hr
  generalize hy : x.setEntries m.oldParent (Entries.remove (x.entries m.oldParent) m.oldName) = y
  generalize hz : y.setEntries m.newParent (insert (y.entries m.newParent) m.newName m.target) = z
  have hzp : z.parent = v.parent := by rw [← hz, parent_setEntries, ← hy, parent_setEntries, hr.parent]
  funext i
  by_cases hi : i = m.target
  · rw [hi, update_self]
    simp only [parent, setNode, update_self]
  · rw [update_of_ne hi, ← hzp]
    simp only [parent, setNode, update_of_ne hi]

theorem count_relink (m : Move) : (v.relink m).count = v.count :=
  (SameLinks.trans (.recordReplaced m) (.recordRemoval m.oldParent m.target m.oldName)).count

/-- The renames that the check of `probeLevels` levels, or a removed working directory, lets
    through wrongly. -/
structure Move.Sound (v : Tree) (m : Move) : Prop where
  beyond : ∀ k, probeLevels ≤ k → v.parent^[k] m.newParent ≠ m.target
  attached : v.Reachable m.target → v.Reachable m.newParent

theorem sound_of_attached (h : v.WellLinked) {cwd : Nat}
    (hcwd : v.Reachable cwd) (hp : v.planRename cwd source dest uid = .ok (some m))
    (hbeyond : ∀ k, probeLevels ≤ k → v.parent^[k] m.newParent ≠ m.target) : Move.Sound v m :=
  ⟨hbeyond, fun _ => reachable_newParent h hcwd hp⟩

namespace WellLinked

theorem avoids (h : v.WellLinked) (hp : v.Planned m) (hs : Move.Sound v m) (k : Nat) :
    v.parent^[k] m.newParent ≠ m.target := by
  by_cases hk : k < probeLevels
  · exact probe_avoids h.root_parent (h.child_ne _ _ _ hp.source) hp.probed k hk
  · exact hs.beyond k (Nat.le_of_not_lt hk)

theorem relink (h : v.WellLinked) (hp : v.Planned m) (hs : Move.Sound v m) (hlt : m.newParent < v.count) :
    (v.relink m).WellLinked := by
  refine h.move m.newName (t := m.target) (p := m.newParent) (h.child_ne _ _ _ hp.source) hlt
    (h.child_lt _ _ _ hp.source).2 (h.avoids hp hs) (count_relink m) (parent_relink m) ?_
  intro d n c hc
  rw [child_relink] at hc
  by_cases hnew : d = m.newParent ∧ n = m.newName
  · rw [if_pos hnew] at hc
    exact .inr ⟨hnew.1, hnew.2, (some.inj hc).symm⟩
  · rw [if_neg hnew] at hc
    obtain ⟨hold, hc⟩ := ite_none_left_eq_some.mp hc
    refine .inl ⟨hc, ?_⟩
    -- the only entry of the target was the old one
    intro hct
    subst hct
    have hd : d = m.oldParent := (h.child_parent _ _ _ hc).symm.trans (h.child_parent _ _ _ hp.source)
    exact hold ⟨hd, h.name_unique d _ _ _ hc (hd ▸ hp.source)⟩

/-- An entry that a rename does not touch is there afterwards. -/
theorem child_kept (hp : v.Planned m) {d c : Nat} {n : Name} (hc : v.child d n = some c)
    (hct : c ≠ m.target) : (v.relink m).child d n = some c ∨ v.child m.newParent m.newName = some c := by
  rw [child_relink]
  by_cases hnew : d = m.newParent ∧ n = m.newName
  · rw [← hnew.1, ← hnew.2]
    exact .inr hc
  · rw [if_neg hnew, if_neg]
    · exact .inl hc
    · rintro ⟨rfl, rfl⟩
      exact hct (some.inj (hc.symm.trans hp.source))

/-- What has an entry is not what a rename replaces. -/
theorem not_replaced (hp : v.Planned m) {d c : Nat} {n : Name} (hc : v.child d n = some c) :
    v.child m.newParent m.newName ≠ some d := by
  intro hr
  have hdir := hp.replaced d hr
  unfold isDir at hdir
  unfold child entries at hc
  split at hdir
  · cases hdir
  · next hk =>
    split at hc
    · next m' hm => exact hk m' hm
    · cases hc

/-- A node that is not below the target stays reachable. -/
theorem reachable_beside (h : v.WellLinked) (hp : v.Planned m) {i : Nat} (hi : v.Reachable i)
    (hside : ∀ k, v.parent^[k] i ≠ m.target) :
    (v.relink m).Reachable i ∨ v.child m.newParent m.newName = some i := by
  induction hi with
  | root => exact .inl .root
  | child _ hc ih =>
    have hup := h.child_parent _ _ _ hc
    have hd := ih fun k => by
      rw [← hup]
      exact hside (k + 1)
    rcases hd with hd | hd
    · rcases child_kept hp hc (hside 0) with hk | hk
      · exact .inl (.child hd hk)
      · exact .inr hk
    · exact absurd hd (not_replaced hp hc)

/-- A rename detaches only the file it replaces. -/
theorem reachable_relink (h : v.WellLinked) (hp : v.Planned m) (hs : Move.Sound v m) {i : Nat} (hi : v.Reachable i) :
    (v.relink m).Reachable i ∨ v.child m.newParent m.newName = some i := by
  induction hi with
  | root => exact .inl .root
  | @child d c n hd hc ih =>
    rcases ih with ihd | ihd
    · by_cases hct : c = m.target
      · -- the target hangs below the new parent, which is not below the target
        have hnew := hs.attached (hct ▸ Reachable.child hd hc)
        rcases h.reachable_beside hp hnew (h.avoids hp hs) with hr | hr
        · have hentry : (v.relink m).child m.newParent m.newName = some c := by
            rw [child_relink, if_pos ⟨rfl, rfl⟩, hct]
          exact .inl (.child hr hentry)
        · have hdir := hp.replaced _ hr
          rw [hp.destination] at hdir
          cases hdir
      · rcases child_kept hp hc hct with hk | hk
        · exact .inl (.child ihd hk)
        · exact .inr hk
    · exact absurd ihd (not_replaced hp hc)

/-- A rename keeps the links in order and detaches only the file it replaces. -/
theorem rename (h : v.WellLinked) {cwd : Nat} (hcwd : cwd < v.count)
    (hs : ∀ m, v.planRename cwd source dest uid = .ok (some m) → Move.Sound v m) :
    (v.rename cwd source dest uid).1.WellLinked ∧
      ∀ i, v.Reachable i → (v.rename cwd source dest uid).1.Reachable i ∨
        ∃ m, v.planRename cwd source dest uid = .ok (some m) ∧ v.child m.newParent m.newName = some i ∧ v.isDir i = false := by
  unfold Tree.rename
  split
  · exact ⟨h, fun i hi => .inl hi⟩
  · exact ⟨h, fun i hi => .inl hi⟩
  · next m hm =>
    have hp := (planned hm).1
    have hsame : SameLinks (v.relink m) (markFresh (v.relink m).count (v.relink m) m.target
        ((v.relink m).node m.newParent).dev) := .markFresh ..
    refine ⟨hsame.wellLinked (h.relink hp (hs m hm) (h.newParent_lt hcwd hm)), ?_⟩
    intro i hi
    rcases h.reachable_relink hp (hs m hm) hi with hr | hr
    · exact .inl (hsame.reachable hr)
    · exact .inr ⟨m, hm, hr, hp.replaced i hr⟩

end WellLinked

end Tree

/-- The calls that make, remove and move nodes. -/
inductive Call where
  | mkdir (cwd : Nat) (path : Path) (owner : Nat)
  | mkdirAll (path : Path) (owner : Nat)
  | createFile (cwd : Nat) (path : Path) (owner : Nat)
  | mknodDevice (cwd : Nat) (path : Path) (dev : Nat)
  | mknodProc (cwd : Nat) (path : Path)
  | remove (cwd : Nat) (path : Path) (uid : Nat)
  | rename (cwd : Nat) (source dest : Path) (uid : Nat)

/-- Where the relative paths of a call begin. -/
def Call.cwd : Call → Nat
  | .mkdir cwd .. => cwd
  | .mkdirAll .. => 0
  | .createFile cwd .. => cwd
  | .mknodDevice cwd .. => cwd
  | .mknodProc cwd .. => cwd
  | .remove cwd .. => cwd
  | .rename cwd .. => cwd

namespace Tree

variable {v w : Tree}

def apply (v : Tree) : Call → Tree
  | .mkdir cwd path owner => (v.mkdir cwd path owner).1
  | .mkdirAll path owner => (v.mkdirAll path owner).1
  | .createFile cwd path owner => (v.createFile cwd path owner).1
  | .mknodDevice cwd path dev => (v.mknodDevice cwd path dev).1
  | .mknodProc cwd path => (v.mknodProc cwd path).1
  | .remove cwd path uid => (v.remove cwd path uid).1
  | .rename cwd source dest uid => (v.rename cwd source dest uid).1

/-- A call whose working directory is no node panics. -/
def step (v : Tree) (c : Call) : Option Tree := if c.cwd < v.count then some (v.apply c) else none

/-- The tree of a fresh `Vfs`. -/
def Initial (v : Tree) : Prop := ∃ tracking, v = .new tracking

/-- No rename meets the gap of the check that a directory is not moved into itself. -/
def Sound (v : Tree) : Call → Prop
  | .rename cwd source dest uid => ∀ m, v.planRename cwd source dest uid = .ok (some m) → Move.Sound v m
  | _ => True

/-- After a rename everything that was reachable still is, but for a file it replaced. -/
def Keeps (v w : Tree) : Call → Prop
  | .rename cwd source dest uid =>
    ∀ i, v.Reachable i → w.Reachable i ∨
      ∃ m, v.planRename cwd source dest uid = .ok (some m) ∧ v.child m.newParent m.newName = some i ∧ v.isDir i = false
  | _ => True

theorem WellLinked.step (h : v.WellLinked) {c : Call} (hs : v.Sound c) (hstep : v.step c = some w) :
    w.WellLinked ∧ v.Keeps w c := by
  obtain ⟨hcwd, hw⟩ := ite_none_right_eq_some.mp hstep
  cases hw
  cases c with
  | mkdir cwd path owner => exact ⟨h.mkdir hcwd path owner, trivial⟩
  | mkdirAll path owner => exact ⟨h.mkdirAllFrom owner _ _ _, trivial⟩
  | createFile cwd path owner => exact ⟨h.createFile hcwd path owner, trivial⟩
  | mknodDevice cwd path dev => exact ⟨h.mknod hcwd path _ _ nofun, trivial⟩
  | mknodProc cwd path => exact ⟨h.mknod hcwd path _ _ nofun, trivial⟩
  | remove cwd path uid => exact ⟨h.remove cwd path uid, trivial⟩
  | rename cwd source dest uid => exact h.rename hcwd hs

theorem reach_wellLinked (h : Reach Initial step Sound v) : v.WellLinked := by
  refine h.invariant ?_ ?_
  · rintro _ ⟨tracking, rfl⟩
    exact .of_new tracking
  · intro s c s' hi hs hstep
    exact (hi.step hs hstep).1

/-- In every run without such renames the reachable nodes make a tree, and a rename detaches
    nothing. -/
theorem tree_kept (h : Reach Initial step Sound v) :
    v.IsTree ∧ ∀ c w, v.Sound c → v.step c = some w → v.Keeps w c :=
  ⟨(reach_wellLinked h).isTree, fun _ _ hs hstep => ((reach_wellLinked h).step hs hstep).2⟩

/-- A directory is made at the root and renamed. -/
theorem tree_kept_moved :
    let v := ((Tree.new true).apply (.mkdir 0 ['/', 'a'] 0)).apply (.rename 0 ['/', 'a'] ['/', 'b'] 0)
    v.IsTree ∧ ∀ c w, v.Sound c → v.step c = some w → v.Keeps w c := by
  refine tree_kept (.next (.next (.start ⟨true, rfl⟩) (a := .mkdir 0 ['/', 'a'] 0) trivial rfl)
    (a := .rename 0 ['/', 'a'] ['/', 'b'] 0) ?_ rfl)
  intro m hm
  have hplan : ((Tree.new true).apply (.mkdir 0 ['/', 'a'] 0)).planRename 0 ['/', 'a'] ['/', 'b'] 0 =
      .ok (some ⟨1, 0, ['a'], 0, ['b']⟩) := rfl
  cases hplan.symm.trans hm
  refine sound_of_attached ((WellLinked.of_new true).mkdir Nat.zero_lt_one _ 0) .root hplan ?_
  -- the destination is the root, whose chain of parents stays there
  intro k _ hk
  exact Nat.zero_ne_one ((iterate_fixed rfl k).symm.trans hk)

/-! ### Below the levels of the check -/

/-- `n` directories, each in the one before. -/
def deep : Nat → Tree
  | 0 => .new true
  | n + 1 => (deep n).apply (.mkdir n ['d'] 0)

theorem deep_succ (n : Nat) (hcount : (deep n).count = n + 1) (hkind : ((deep n).node n).kind = .dir []) :
    deep (n + 1) = ((deep n).pushNode ⟨.dir [], n, 0, ((deep n).node n).group, modeDirDefault, 0, dirtyMeta,
      ((deep n).node n).dev⟩).setEntries n [(['d'], n + 1)] := by
  have hres : (deep n).resolveParent n ['d'] = some (n, ['d']) := rfl
  have hdir : (deep n).isDir n = true := by
    unfold isDir
    rw [hkind]
  have hchild : (deep n).child n ['d'] = none := by
    unfold child entries
    rw [hkind]
    rfl
  show ((deep n).mkdir n ['d'] 0).1 = _
  unfold Tree.mkdir
  rw [hres]
  dsimp only
  rw [hdir, hchild]
  have hn : n ≠ (deep n).count := by omega
  have hold : ∀ N, (((deep n).pushNode N).node n).kind = .dir [] := by
    intro N
    simp only [pushNode, update_of_ne hn, hkind]
  simp [Tree.add, attachChild, canWrite, allows, hold, hcount, Entries.insert, Entries.remove]

/-- What `deep` looks like. -/
structure DeepShape (v : Tree) (n : Nat) : Prop where
  count : v.count = n + 1
  kind : ∀ i, (v.node i).kind = .dir (if i < n then [(['d'], i + 1)] else [])
  parent : ∀ i, i ≤ n → v.parent i = i - 1

theorem deep_shape (n : Nat) : DeepShape (deep n) n := by
  induction n with
  | zero => exact ⟨rfl, fun _ => rfl, fun i hi => by rw [le_zero.mp hi]; rfl⟩
  | succ n ih =>
    rw [deep_succ n ih.count ((ih.kind n).trans (by simp))]
    have hc := ih.count
    refine ⟨by simp [pushNode, hc], ?_, ?_⟩
    · intro i
      by_cases hin : i = n
      · simp [hin, setEntries, setNode]
      · by_cases hic : i = n + 1
        · simp [hic, setEntries, setNode, pushNode, hc]
        · have hold := ih.kind i
          simp only [setEntries, setNode, pushNode, hc, update_of_ne hin, update_of_ne hic]
          rw [hold]
          have : i < n ↔ i < n + 1 := by omega
          simp [this]
    · intro i hi
      rw [parent_setEntries]
      by_cases hic : i = n + 1
      · simp [hic, Tree.parent, pushNode, hc]
      · have hold := ih.parent i (by omega)
        simpa only [Tree.parent, pushNode, hc, update_of_ne hic] using hold

theorem deep_reach (n : Nat) : Reach Initial step (fun _ _ => True) (deep n) := by
  induction n with
  | zero => exact .start ⟨true, rfl⟩
  | succ n ih =>
    refine .next ih (a := .mkdir n ['d'] 0) trivial ?_
    have hn : n < (deep n).count := by
      rw [(deep_shape n).count]
      exact lt_succ_self n
    exact if_pos hn

/-- The check does not see a node further up than it looks. -/
theorem DeepShape.probe_short {n : Nat} (h : DeepShape v n) {t fuel cur : Nat} (hcur : cur ≤ n) (hfar : t + fuel ≤ cur) :
    v.probe t fuel cur = false := by
  induction fuel generalizing cur with
  | zero => rfl
  | succ fuel ih =>
    unfold probe
    rw [if_neg (by omega), if_neg (by omega), h.parent cur hcur]
    exact ih (by omega) (by omega)

/-- The outermost of so many directories that the check does not see it is moved to the innermost. -/
theorem DeepShape.planned {n : Nat} (h : DeepShape v n) (hn : probeLevels + 1 ≤ n) :
    v.planRename n ['/', 'd'] ['e'] 0 = .ok (some ⟨1, 0, ['d'], n, ['e']⟩) := by
  have hsource : v.resolveParent n ['/', 'd'] = some (0, ['d']) := rfl
  have hdest : v.resolveParent n ['e'] = some (n, ['e']) := rfl
  have hone : v.child 0 ['d'] = some 1 := by
    unfold child entries
    rw [h.kind 0, if_pos (by omega)]
    rfl
  have hfree : v.child n ['e'] = none := by
    unfold child entries
    rw [h.kind n, if_neg (lt_irrefl n)]
    rfl
  have hdir : v.isDir n = true := by
    unfold isDir
    rw [h.kind n]
  have hprobe : v.probe 1 probeLevels n = false := h.probe_short (le_refl n) (by omega)
  have hn0 : n ≠ 0 := by omega
  unfold planRename
  rw [hsource]
  dsimp only
  rw [hone]
  dsimp only
  rw [hdest]
  dsimp only
  unfold destination
  rw [hfree]
  simp [hdir, hprobe, hn0, hfree, canWrite, allows]

theorem DeepShape.detached {n : Nat} (h : DeepShape v n) (hn : probeLevels + 1 ≤ n) :
    ¬ v.Keeps (v.apply (.rename n ['/', 'd'] ['e'] 0)) (.rename n ['/', 'd'] ['e'] 0) := by
  intro hkeeps
  have hplan := h.planned hn
  have hfirst : v.child 0 ['d'] = some 1 := by
    unfold child entries
    rw [h.kind 0, if_pos (by omega)]
    rfl
  have hone : v.Reachable 1 := .child .root hfirst
  -- the root has no entry left
  have hroot : ∀ name, (v.apply (.rename n ['/', 'd'] ['e'] 0)).child 0 name = none := by
    intro name
    show (v.rename n ['/', 'd'] ['e'] 0).1.child 0 name = none
    unfold Tree.rename
    rw [hplan]
    dsimp only
    rw [SameLinks.child (.markFresh ..), child_relink, if_neg fun hc => absurd hc.1 (by show ¬ 0 = n; omega)]
    by_cases hd : name = ['d']
    · rw [if_pos ⟨rfl, hd⟩]
    · rw [if_neg fun hc => hd hc.2]
      unfold child entries Entries.get
      rw [h.kind 0, if_pos (by omega)]
      simp [Ne.symm hd]
  have hzero : ∀ i, (v.apply (.rename n ['/', 'd'] ['e'] 0)).Reachable i → i = 0 := by
    intro i hi
    induction hi with
    | root => rfl
    | child _ hc ih =>
      rw [ih, hroot] at hc
      cases hc
  rcases hkeeps 1 hone with hr | ⟨m, hm, hex, -⟩
  · exact absurd (hzero 1 hr) one_ne_zero
  · -- nothing was replaced
    cases hplan.symm.trans hm
    unfold child entries at hex
    rw [h.kind n, if_neg (lt_irrefl n)] at hex
    cases hex

/-- With 513 directories one in the other, moving the first below the last cuts all of them off. -/
theorem rename_below_itself :
    ¬ ∀ v, Reach Initial step (fun _ _ => True) v →
      v.IsTree ∧ ∀ c w, v.step c = some w → v.Keeps w c := by
  intro hclaim
  have h := deep_shape 513
  obtain ⟨-, hkeeps⟩ := hclaim _ (deep_reach 513)
  have hcwd : (Call.rename 513 ['/', 'd'] ['e'] 0).cwd < (deep 513).count := by
    rw [h.count]
    exact Nat.lt_succ_self 513
  exact h.detached (le_refl 513) (hkeeps _ _ (if_pos hcwd))

end Tree

end Vfs

end HamixOS.Kernel

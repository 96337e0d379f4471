import HamixOS.Kernel.Shm

namespace HamixOS.Kernel

open Lib List Option OpenFile Assoc Shm Proc Nat

/-!
# The references of a segment

`refs` counts the holders of a segment.  Between two writes a call has references in its
hand: a descriptor it has taken out of a table and not yet released, or a reference it
has taken for an entry it has not yet written.

* `Ledger s hand` — every count is the number of holders plus what is in hand, and no
  segment without a reference is left in the table;
* `Ledger.dropRef`, `Ledger.retain`, `Ledger.create`, `Ledger.put` — the four moves;
  every call is assembled from them;
* `Careful` — the calls that keep the books: no `/dev/shm` open into a full descriptor
  table, no exit that drops the last reference to the segment of another live process;
* `refs_are_holders` — the counts are right in every state of every careful run.
-/

theorem sum_map_set {α : Type} (f : α → Nat) {l : List α} {i : Nat} {x : α} (h : l[i]? = some x)
    (a : α) : ((l.set i a).map f).sum + f x = (l.map f).sum + f a := by
  induction l generalizing i with
  | nil => simp at h
  | cons y l ih =>
    cases i with
    | zero =>
      simp only [getElem?_cons_zero, some.injEq] at h
      simp only [set_cons_zero, map_cons, sum_cons, h]
      omega
    | succ i =>
      simp only [set_cons_succ, map_cons, sum_cons]
      have := ih h
      omega

/-! ### Descriptors as references -/

/-- The references a file holds. -/
def OpenFile.ids : OpenFile → List SegId
  | .memfd id => [id]
  | _ => []

@[simp] theorem OpenFile.holds_none (id : SegId) : OpenFile.holds id none = 0 := rfl

theorem OpenFile.holds_some (id : SegId) (f : OpenFile) :
    OpenFile.holds id (some f) = f.ids.count id := by
  cases f with
  | memfd i => simp [OpenFile.holds, OpenFile.ids, count_singleton]
  | console => rfl
  | other => rfl

/-- The slots of a table hold what its files do. -/
theorem holds_files (i : SegId) (fds : List (Option OpenFile)) :
    (fds.map (OpenFile.holds i)).sum = ((fds.filterMap id).flatMap OpenFile.ids).count i := by
  induction fds with
  | nil => rfl
  | cons f fds ih =>
    cases f with
    | none => simpa using ih
    | some f =>
      have hcons : (some f :: fds).filterMap id = f :: fds.filterMap id := rfl
      rw [hcons, flatMap_cons, count_append, map_cons, sum_cons, holds_some, ih]

/-- A table that has grown holds the same. -/
theorem holds_grown (id : SegId) (fds : List (Option OpenFile)) (n : Nat) :
    ((fds ++ replicate n none).map (OpenFile.holds id)).sum
      = (fds.map (OpenFile.holds id)).sum := by
  simp

/-- What `exec` closes and what it leaves open make up the table. -/
theorem holds_doomed (id : SegId) (t : Proc) :
    ((Shm.spared t).map (OpenFile.holds id)).sum + ((Shm.doomed t).flatMap OpenFile.ids).count id
      = (t.fds.map (OpenFile.holds id)).sum := by
  have hsplit : ∀ (fds : List (Option OpenFile)) (k : Nat),
      (((fds.zipIdx k).map (fun e => if e.2 < 256 ∧ t.cloexec e.2 then none else e.1)).map
          (OpenFile.holds id)).sum
        + (((fds.zipIdx k).filterMap (fun e =>
          if e.2 < 256 ∧ t.cloexec e.2 then e.1 else none)).flatMap OpenFile.ids).count id
      = (fds.map (OpenFile.holds id)).sum := by
    intro fds
    induction fds with
    | nil => intro k; rfl
    | cons f fds ih =>
      intro k
      have := ih (k + 1)
      simp only [zipIdx_cons, map_cons, sum_cons]
      by_cases hk : k < 256 ∧ t.cloexec k
      · rw [if_pos hk]
        cases f with
        | none =>
          rw [filterMap_cons_none (by simp [hk])]
          simpa using this
        | some f =>
          rw [filterMap_cons_some (by rw [if_pos hk]), flatMap_cons, count_append, holds_none, holds_some]
          omega
      · rw [if_neg hk, filterMap_cons_none (by rw [if_neg hk])]
        omega
  exact hsplit t.fds 0

/-- A file put into an empty slot adds its references. -/
theorem holds_set {fds : List (Option OpenFile)} {slot : Nat} (h : fds[slot]? = some none)
    (file : OpenFile) (id : SegId) :
    ((fds.set slot (some file)).map (OpenFile.holds id)).sum
      = (fds.map (OpenFile.holds id)).sum + file.ids.count id := by
  have hset := sum_map_set (OpenFile.holds id) h (some file)
  rw [holds_none, holds_some] at hset
  omega

/-- A process record that only has another descriptor table. -/
structure Proc.Tables (t t' : Proc) (file : OpenFile) : Prop where
  shm : t'.shm = t.shm
  shmNext : t'.shmNext = t.shmNext
  alive : t'.alive = t.alive
  fds : ∀ id, (t'.fds.map (OpenFile.holds id)).sum
    = (t.fds.map (OpenFile.holds id)).sum + file.ids.count id

/-- `install_fd` puts the file into an empty slot. -/
theorem install_some {t t' : Proc} {file : OpenFile} {slot : Nat}
    (h : t.install file = some (t', slot)) : t.Tables t' file := by
  have hgrown : ∀ id, (t.grown.map (OpenFile.holds id)).sum = (t.fds.map (OpenFile.holds id)).sum := by
    intro id
    unfold Proc.grown
    split_ifs
    · exact holds_grown id t.fds _
    · rfl
  unfold install at h
  split at h
  next k hk =>
    cases h
    refine ⟨rfl, rfl, rfl, fun id => ?_⟩
    rw [← hgrown]
    refine holds_set ?_ file id
    obtain ⟨hlt, hnone, -⟩ := findIdx?_eq_some_iff_getElem.mp hk
    rw [getElem_drop] at hnone
    rw [length_drop] at hlt
    rw [add_comm, getElem?_eq_getElem (by omega)]
    simpa using hnone
  next => cases h

/-- `dup_from` does too. -/
theorem installFrom_some {t t' : Proc} {file : OpenFile} {min slot : Nat}
    (h : t.installFrom file min = some (t', slot)) : t.Tables t' file := by
  have hgrown : ∀ id, ((t.grownFrom min).map (OpenFile.holds id)).sum
      = (t.fds.map (OpenFile.holds id)).sum := by
    intro id
    unfold grownFrom
    split_ifs
    · exact holds_grown id t.fds _
    · rfl
  unfold installFrom at h
  split at h
  next k hk =>
    cases h
    refine ⟨rfl, rfl, rfl, fun id => ?_⟩
    rw [← hgrown]
    refine holds_set ?_ file id
    have hsome := find?_some hk
    simp only [decide_eq_true_eq] at hsome
    exact hsome.2.1
  next => cases h

/-- Whether a table has room does not depend on the file. -/
theorem install_isSome (t : Proc) (file file' : OpenFile) :
    (t.install file).isSome = (t.install file').isSome := by
  unfold install
  split <;> rfl

/-! ### The ledger -/

/-- The mappings of a process lie in user memory, and so does the place of the next one. -/
structure Proc.Ranged (t : Proc) : Prop where
  next : userShmBase ≤ t.shmNext
  shm : ∀ e ∈ t.shm, userBase ≤ e.2.1 ∧ e.2.1 + e.2.2 ≤ userEnd

namespace Shm

def refsOf (s : Shm) (id : SegId) : Nat := (s.segments id).elim 0 (·.refs)

/-- The counts of `s` when a call holds the references `hand`. -/
structure Ledger (s : Shm) (hand : List SegId) : Prop where
  count : ∀ id, s.refsOf id = s.holders id + hand.count id
  pos : ∀ {id g}, s.segments id = some g → 0 < g.refs
  ranged : ∀ e ∈ s.procs, e.2.Ranged

variable {s s' : Shm} {hand hand' : List SegId} {id : SegId} {pid : Pid} {t t' : Proc}
  {f : OpenFile}

theorem Ledger.perm (h : Ledger s hand) (hp : hand.Perm hand') : Ledger s hand' where
  count := fun id => by rw [h.count, hp.count_eq]
  pos := h.pos
  ranged := h.ranged

/-- Whatever has a holder, or is in hand, is in the table. -/
theorem Ledger.present (h : Ledger s hand) (hid : 0 < s.holders id + hand.count id) :
    ∃ g, s.segments id = some g ∧ g.refs = s.holders id + hand.count id := by
  have hc := h.count id
  unfold refsOf at hc
  cases hs : s.segments id with
  | none =>
    rw [hs] at hc
    simp only [elim_none] at hc
    omega
  | some g =>
    rw [hs] at hc
    exact ⟨g, rfl, hc⟩

/-- A write to one segment. -/
theorem Ledger.segment (h : Ledger s hand) {o : Option Segment}
    (hseg : s'.segments = Function.update s.segments id o) (hnames : s'.names = s.names)
    (hprocs : s'.procs = s.procs) (hcount : o.elim 0 (·.refs) = s.holders id + hand'.count id)
    (hpos : ∀ g, o = some g → 0 < g.refs) (hrest : ∀ i, i ≠ id → hand'.count i = hand.count i) :
    Ledger s' hand' := by
  have hholders : ∀ i, s'.holders i = s.holders i := by
    intro i
    unfold holders
    rw [hnames, hprocs]
  refine ⟨?_, ?_, ?_⟩
  · intro i
    rw [refsOf, hseg, hholders]
    by_cases hi : i = id
    · rw [hi, Function.update_self, hcount]
    · rw [Function.update_of_ne hi, hrest i hi]
      exact h.count i
  · intro i g hg
    rw [hseg] at hg
    by_cases hi : i = id
    · rw [hi, Function.update_self] at hg
      exact hpos g hg
    · rw [Function.update_of_ne hi] at hg
      exact h.pos hg
  · rw [hprocs]
    exact h.ranged

theorem Ledger.dropRef (h : Ledger s (id :: hand)) : Ledger (s.dropRef id) hand := by
  have hpos : 0 < s.holders id + (id :: hand).count id := by
    rw [count_cons_self]
    omega
  obtain ⟨g, hg, hrefs⟩ := h.present hpos
  rw [count_cons_self] at hrefs
  have hrest : ∀ i, i ≠ id → hand.count i = (id :: hand).count i := by
    intro i hi
    rw [count_cons_of_ne hi.symm]
  unfold Shm.dropRef
  rw [hg]
  dsimp only
  split_ifs with hlast
  · refine h.segment rfl rfl rfl ?_ (by simp) hrest
    simp only [elim_none]
    omega
  · refine h.segment rfl rfl rfl ?_ ?_ hrest
    · simp only [elim_some]
      omega
    · rintro _ ⟨⟩
      exact pos_of_ne_zero hlast

theorem Ledger.dropRefs {ids : List SegId} (h : Ledger s (ids ++ hand)) :
    Ledger (ids.foldl Shm.dropRef s) hand := by
  induction ids generalizing s with
  | nil => exact h
  | cons id ids ih => exact ih h.dropRef

section

variable (h : Ledger s hand)

include h

theorem Ledger.retain (hid : 0 < s.holders id + hand.count id) :
    Ledger (s.retain id) (id :: hand) := by
  obtain ⟨g, hg, hrefs⟩ := h.present hid
  unfold Shm.retain
  rw [hg]
  refine h.segment rfl rfl rfl ?_ ?_ ?_
  · simp only [elim_some, count_cons_self]
    omega
  · rintro _ ⟨⟩
    exact succ_pos _
  · intro i hi
    rw [count_cons_of_ne hi.symm]

/-- A segment with a name of its own. -/
theorem Ledger.create (hnew : s.segments s.nextSegment = none) (owner : Pid) :
    Ledger (s.memfdCreate owner).1 (s.nextSegment :: hand) := by
  have hzero := h.count s.nextSegment
  rw [refsOf, hnew, elim_none] at hzero
  refine h.segment rfl rfl rfl ?_ ?_ ?_
  · simp only [elim_some, count_cons_self]
    omega
  · rintro _ ⟨⟩
    exact one_pos
  · intro i hi
    rw [count_cons_of_ne hi.symm]

/-- A process gets new tables: what they hold less, the call has in hand. -/
theorem Ledger.put (ht : get s.procs pid = some t)
    (hbal : ∀ id, t'.holds id + hand'.count id = t.holds id + hand.count id)
    (hr : t.Ranged → t'.Ranged) : Ledger (s.putProc pid t') hand' := by
  refine ⟨?_, h.pos, ?_⟩
  · intro id
    have hset := total_set (Proc.holds id) ht t'
    have hc := h.count id
    have hb := hbal id
    show s.refsOf id = total _ s.names + total _ (set s.procs pid t') + _
    rw [hc, holders]
    omega
  · exact forall_set h.ranged pid (hr (h.ranged _ (get_mem ht)))

/-- A call writes other fields of a segment. -/
theorem Ledger.touch {g g' : Segment} (hg : s.segments id = some g)
    (hrefs : g'.refs = g.refs) : Ledger (s.setSegment id (some g')) hand := by
  have hc := h.count id
  rw [refsOf, hg, elim_some] at hc
  refine h.segment rfl rfl rfl ?_ ?_ (fun _ _ => rfl)
  · rw [elim_some, hrefs, hc]
  · rintro _ ⟨⟩
    rw [hrefs]
    exact h.pos hg

end

/-! ### Descriptors -/

theorem Ledger.release (h : Ledger s (f.ids ++ hand)) : Ledger (s.release f) hand := by
  cases f with
  | memfd id => exact h.dropRef
  | console => exact h
  | other => exact h

theorem Ledger.releases {fs : List OpenFile} (h : Ledger s (fs.flatMap OpenFile.ids ++ hand)) :
    Ledger (fs.foldl Shm.release s) hand := by
  induction fs generalizing s with
  | nil => exact h
  | cons f fs ih =>
    rw [flatMap_cons, append_assoc] at h
    exact ih h.release

theorem Ledger.duplicate (h : Ledger s hand)
    (hf : ∀ id ∈ f.ids, 0 < s.holders id + hand.count id) :
    Ledger (s.duplicate f) (f.ids ++ hand) := by
  cases f with
  | memfd id => exact h.retain (hf id (by simp [OpenFile.ids]))
  | console => exact h
  | other => exact h

/-- What a process holds, it holds. -/
theorem holds_le (ht : get s.procs pid = some t) (id : SegId) : t.holds id ≤ s.holders id := by
  have hle := le_total (Proc.holds id) ht
  unfold holders
  omega

theorem holds_fd {fd : Nat} (hf : t.fds[fd]? = some (some f)) (id : SegId) :
    f.ids.count id ≤ t.holds id := by
  have hset := sum_map_set (OpenFile.holds id) hf none
  rw [holds_none, holds_some] at hset
  unfold Proc.holds
  omega

@[simp] theorem retain_procs (s : Shm) (id : SegId) : (s.retain id).procs = s.procs := by
  unfold retain
  split <;> rfl

@[simp] theorem dropRef_procs (s : Shm) (id : SegId) : (s.dropRef id).procs = s.procs := by
  unfold dropRef
  split
  · split_ifs <;> rfl
  · rfl

theorem foldl_release_procs (fs : List OpenFile) (s : Shm) :
    (fs.foldl release s).procs = s.procs := by
  induction fs generalizing s with
  | nil => rfl
  | cons f fs ih =>
    rw [foldl_cons, ih]
    cases f with
    | memfd id => exact dropRef_procs s id
    | console => rfl
    | other => rfl

@[simp] theorem duplicate_procs (s : Shm) (f : OpenFile) : (s.duplicate f).procs = s.procs := by
  cases f with
  | memfd id => exact retain_procs s id
  | console => rfl
  | other => rfl

theorem Ledger.installed (h : Ledger s (f.ids ++ hand)) (ht : get s.procs pid = some t)
    (hi : t.Tables t' f) : Ledger (s.putProc pid t') hand := by
  refine h.put ht ?_ ?_
  · intro id
    simp only [Proc.holds, hi.shm, hi.fds, count_append]
    omega
  · rintro ⟨hnext, hshm⟩
    refine ⟨?_, ?_⟩
    · rw [hi.shmNext]
      exact hnext
    · rw [hi.shm]
      exact hshm

theorem Ledger.installFd (h : Ledger s (f.ids ++ hand)) (ht : get s.procs pid = some t) :
    Ledger (s.installFd pid f).1 hand := by
  unfold Shm.installFd
  rw [ht, bind_some]
  cases hi : t.install f with
  | some r => exact h.installed ht (install_some hi)
  | none => exact h.release

/-- A table with room takes the descriptor. -/
theorem installFd_slot (ht : get s.procs pid = some t) (hroom : (t.install .other).isSome) :
    ¬ (s.installFd pid f).2 < 0 := by
  rw [install_isSome t .other f] at hroom
  obtain ⟨r, hr⟩ := isSome_iff_exists.mp hroom
  unfold installFd
  rw [ht, bind_some, hr]
  exact Int.not_lt.mpr (Int.natCast_nonneg _)

theorem Ledger.sysClose (h : Ledger s []) (ht : get s.procs pid = some t) (fd : Nat) :
    Ledger (s.sysClose pid t fd).1 [] := by
  unfold Shm.sysClose
  dsimp only
  split
  next f hf =>
    refine Ledger.release (f := f) ?_
    rw [append_nil]
    refine h.put ht ?_ (fun hr => ⟨hr.next, hr.shm⟩)
    intro id
    have hset := sum_map_set (OpenFile.holds id) hf none
    rw [holds_none, holds_some] at hset
    simp only [Proc.holds, count_nil]
    omega
  next => exact h.put ht (fun _ => rfl) (fun hr => ⟨hr.next, hr.shm⟩)

/-- The file a descriptor names holds what it names. -/
theorem openFile_ids (ht : get s.procs pid = some t) {fd : Nat}
    (hf : t.openFile fd = some f) : ∀ id ∈ f.ids, 0 < s.holders id + hand.count id := by
  intro id hid
  unfold openFile at hf
  split at hf
  next g hg =>
    cases hf
    have hle := le_trans (holds_fd hg id) (holds_le ht id)
    have hpos := count_pos_iff.mpr hid
    omega
  next =>
    split_ifs at hf
    cases hf
    cases hid

theorem Ledger.dupFrom (h : Ledger s []) (ht : get s.procs pid = some t) (fd min : Nat) :
    Ledger (s.dupFrom pid t fd min).1 [] := by
  unfold Shm.dupFrom
  split_ifs
  · exact h
  split
  next => exact h
  next f hf =>
    have hdup : Ledger (s.duplicate f) (f.ids ++ []) := h.duplicate (openFile_ids ht hf)
    split
    next t' slot hi => exact hdup.installed (by simpa using ht) (installFrom_some hi)
    next => exact hdup.release

theorem stretched_length (t : Proc) (new : Nat) : new < (t.stretched new).length := by
  unfold stretched
  split_ifs
  · rw [length_append, length_replicate]
    omega
  · omega

theorem holds_stretched (t : Proc) (new : Nat) (id : SegId) :
    ((t.stretched new).map (OpenFile.holds id)).sum = (t.fds.map (OpenFile.holds id)).sum := by
  unfold stretched
  split_ifs
  · exact holds_grown id t.fds _
  · rfl

theorem Ledger.replaceFd (h : Ledger s (f.ids ++ hand)) (ht : get s.procs pid = some t)
    (new : Nat) : Ledger (s.replaceFd pid t f new) hand := by
  obtain ⟨x, hx⟩ : ∃ x, (t.stretched new)[new]? = some x :=
    ⟨_, getElem?_eq_getElem (stretched_length t new)⟩
  have hset : ∀ id, (((t.stretched new).set new (some f)).map (OpenFile.holds id)).sum
      + OpenFile.holds id x = (t.fds.map (OpenFile.holds id)).sum + f.ids.count id := by
    intro id
    rw [sum_map_set (OpenFile.holds id) hx (some f), holds_stretched, holds_some]
  unfold Shm.replaceFd
  rw [hx]
  cases x with
  | none =>
    refine h.put ht ?_ (fun hr => ⟨hr.next, hr.shm⟩)
    intro id
    have hid := hset id
    rw [holds_none] at hid
    simp only [Proc.holds, count_append]
    omega
  | some replaced =>
    refine Ledger.release (f := replaced) (h.put ht ?_ (fun hr => ⟨hr.next, hr.shm⟩))
    intro id
    have hid := hset id
    rw [holds_some] at hid
    simp only [Proc.holds, count_append]
    omega

theorem Ledger.sysDup2 (h : Ledger s []) (ht : get s.procs pid = some t) (old new : Nat) :
    Ledger (s.sysDup2 pid t old new).1 [] := by
  unfold Shm.sysDup2
  by_cases hmax : new ≥ maxFds
  · rw [if_pos hmax]
    exact h
  rw [if_neg hmax]
  split
  next => exact h
  next f hf =>
    have hdup : Ledger (s.duplicate f) (f.ids ++ []) := h.duplicate (openFile_ids ht hf)
    split_ifs
    · exact hdup.release
    · exact hdup.replaceFd (by simpa using ht) new

/-! ### Names and mappings -/

/-- A new name takes a reference out of the hand. -/
theorem Ledger.name (h : Ledger s (id :: hand)) (name : String) :
    Ledger { s with names := (name, id) :: s.names } hand := by
  refine ⟨?_, h.pos, h.ranged⟩
  intro i
  have hc := h.count i
  show s.refsOf i = total _ ((name, id) :: s.names) + total (Proc.holds i) s.procs + _
  rw [hc, total_cons, holders]
  by_cases hi : id = i
  · rw [if_pos hi, hi, count_cons_self]
    omega
  · rw [if_neg hi, count_cons_of_ne hi]
    omega

theorem Ledger.unlinkShm (h : Ledger s []) (name : String) : Ledger (s.unlinkShm name).1 [] := by
  unfold Shm.unlinkShm
  cases hn : get s.names name with
  | none => exact h
  | some id =>
    refine Ledger.dropRef ⟨?_, h.pos, h.ranged⟩
    intro i
    have herase := total_erase (fun j => if j = i then 1 else 0) hn
    have hc := h.count i
    show s.refsOf i = total _ (erase s.names name) + total (Proc.holds i) s.procs + _
    rw [hc, holders]
    by_cases hi : id = i
    · rw [if_pos hi] at herase
      rw [hi, count_cons_self, count_nil]
      omega
    · rw [if_neg hi] at herase
      rw [count_cons_of_ne hi]
      omega

/-- A name holds its segment. -/
theorem holds_name {name : String} (hn : get s.names name = some id) : 0 < s.holders id := by
  have hle := le_total (fun j => if j = id then 1 else 0) hn
  rw [if_pos rfl] at hle
  unfold holders
  omega

theorem Ledger.shmSetLen (h : Ledger s hand) (id : SegId) (len : Nat) (granted : Bool) :
    Ledger (s.shmSetLen id len granted).1 hand := by
  unfold Shm.shmSetLen
  split_ifs
  · exact h
  dsimp only
  split
  next => exact h
  next g hg =>
    split_ifs
    · exact h
    · exact h
    · exact h.touch hg rfl

theorem Ledger.shmAddSeals (h : Ledger s hand) (id : SegId) (seals : Nat) :
    Ledger (s.shmAddSeals id seals).1 hand := by
  unfold Shm.shmAddSeals
  split_ifs
  · exact h
  split
  next g hg => exact h.touch hg rfl
  next => exact h

theorem shmSetLen_procs (s : Shm) (id : SegId) (len : Nat) (granted : Bool) :
    (s.shmSetLen id len granted).1.procs = s.procs := by
  unfold shmSetLen
  split_ifs
  · rfl
  dsimp only
  split
  · rfl
  · split_ifs <;> rfl

variable {fixed : Option Nat}

/-- The new entry of `shm_map_at` takes the reference, and lies in user memory. -/
theorem Ledger.shmEntry (h : Ledger s (id :: hand)) (ht : get s.procs pid = some t)
    {count base : Nat} {mapped : Bool}
    (hfixed : ∀ a, fixed = some a → userBase ≤ a ∧ a + count * pageSize ≤ userEnd)
    (he : shmEntry t id fixed count mapped = some (t', base)) : Ledger (s.putProc pid t') hand := by
  unfold Shm.shmEntry at he
  by_cases hfull : fixed.isNone ∧ fixed.getD t.shmNext + (count + 1) * pageSize > userFbBase
  · rw [if_pos hfull] at he
    cases he
  by_cases hmapped : mapped = false
  · rw [if_neg hfull, if_pos hmapped] at he
    cases he
  rw [if_neg hfull, if_neg hmapped] at he
  cases he
  refine h.put ht ?_ ?_
  · intro i
    simp only [Proc.holds, map_append, map_cons, map_nil, count_append, count_cons, count_nil]
    omega
  · rintro ⟨hnext, hshm⟩
    cases fixed with
    | none =>
      simp only [isNone_none, true_and, not_lt, getD_none, if_true] at hfull ⊢
      have hfb : userFbBase ≤ userEnd := by decide
      have hbase : userBase ≤ userShmBase := by decide
      refine ⟨by dsimp only; omega, ?_⟩
      intro e he
      rcases mem_append.mp he with he | he
      · exact hshm e he
      · simp only [mem_singleton] at he
        rw [he]
        have hsucc : (count + 1) * pageSize = count * pageSize + pageSize := succ_mul ..
        dsimp only
        exact ⟨by omega, by omega⟩
    | some a =>
      refine ⟨by simpa using hnext, ?_⟩
      intro e he
      rcases mem_append.mp he with he | he
      · exact hshm e he
      · simp only [mem_singleton] at he
        rw [he]
        exact hfixed a rfl

theorem Ledger.shmMapAt (h : Ledger s hand) (ht : get s.procs pid = some t) (id : SegId)
    (offset : Nat) {len : Nat} (mapped : Bool)
    (hfixed : ∀ a, fixed = some a →
      userBase ≤ a ∧ a + (len + pageSize - 1) / pageSize * pageSize ≤ userEnd) :
    Ledger (s.shmMapAt pid id fixed offset len mapped).1 hand := by
  unfold Shm.shmMapAt
  dsimp only
  split
  next => exact h
  next g hg =>
    split_ifs
    · exact h
    have hpos : 0 < s.holders id + hand.count id := by
      have hc := h.count id
      rw [refsOf, hg, elim_some] at hc
      have := h.pos hg
      omega
    have hret := h.retain hpos
    have ht' : get (s.retain id).procs pid = some t := by simpa using ht
    rw [ht', bind_some]
    split
    next t' base he => exact hret.shmEntry ht' hfixed he
    next => exact hret.dropRef

/-- `unmap_range` drops a reference for each entry it takes out. -/
theorem Ledger.unmapRange (h : Ledger s hand) (pid : Pid) (start len : Nat) :
    Ledger (s.unmapRange pid start len).1 hand := by
  unfold Shm.unmapRange
  split
  next => exact h
  next t ht =>
    refine Ledger.dropRefs (h.put ht ?_ ?_)
    · intro id
      have hsplit := filter_append_perm (inRange start len) t.shm
      have hcount := (hsplit.map (·.1)).count_eq id
      rw [map_append, count_append] at hcount
      simp only [Proc.holds, count_append]
      omega
    · rintro ⟨hnext, hshm⟩
      exact ⟨hnext, fun e he => hshm e (mem_filter.mp he).1⟩

theorem unmapRange_get (ht : get s.procs pid = some t) (start len : Nat) :
    get (s.unmapRange pid start len).1.procs pid
      = some { t with shm := t.shm.filter (fun e => !inRange start len e) } := by
  have hdrops : ∀ (ids : List SegId) (s : Shm), (ids.foldl dropRef s).procs = s.procs := by
    intro ids
    induction ids with
    | nil => exact fun _ => rfl
    | cons id ids ih =>
      intro s
      rw [foldl_cons, ih, dropRef_procs]
  unfold unmapRange
  rw [ht]
  rw [hdrops]
  exact get_set_self ht _

theorem Ledger.mapMemfd (h : Ledger s hand) (ht : get s.procs pid = some t) (id : SegId)
    (noreplace : Bool) (offset : Nat) {size : Nat} (clash mapped : Bool)
    (hfixed : ∀ a, fixed = some a →
      userBase ≤ a ∧ a + (size + pageSize - 1) / pageSize * pageSize ≤ userEnd) :
    Ledger (s.mapMemfd pid id fixed noreplace offset size clash mapped).1 hand := by
  unfold Shm.mapMemfd
  cases fixed with
  | none => exact h.shmMapAt ht id offset mapped hfixed
  | some addr =>
    split_ifs
    · exact h
    · exact (h.unmapRange pid addr size).shmMapAt (unmapRange_get ht addr size) id offset mapped hfixed

/-- A size of whole pages is what `shm_map_at` maps. -/
theorem pages_size (n : Nat) : (n * pageSize + pageSize - 1) / pageSize * pageSize = n * pageSize := by
  unfold pageSize
  omega

theorem Ledger.mapAnonymous (h : Ledger s hand) (ht : get s.procs pid = some t)
    (hnew : s.segments s.nextSegment = none) (noreplace : Bool) {size : Nat}
    (clash mapped granted : Bool) (hfixed : ∀ a, fixed = some a →
      userBase ≤ a ∧ a + (size + pageSize - 1) / pageSize * pageSize ≤ userEnd) :
    Ledger (s.mapAnonymous pid fixed noreplace size clash mapped granted).1 hand := by
  have hlen := (h.create hnew pid).shmSetLen s.nextSegment size granted
  have ht' : get ((s.memfdCreate pid).1.shmSetLen s.nextSegment size granted).1.procs pid
      = some t := by
    rw [shmSetLen_procs]
    exact ht
  unfold Shm.mapAnonymous
  dsimp only
  split_ifs
  · exact (hlen.mapMemfd ht' s.nextSegment noreplace 0 clash mapped hfixed).dropRef
  · exact hlen.dropRef

theorem Ledger.sysMmap (h : Ledger s []) (ht : get s.procs pid = some t)
    (anonymous : Bool) (hnew : anonymous = true → s.segments s.nextSegment = none) (fd : Nat)
    (fixed noreplace : Bool) (addr len offset : Nat) (clash mapped granted : Bool) :
    Ledger (s.sysMmap pid t anonymous fd fixed noreplace addr len offset clash mapped granted).1 [] := by
  unfold Shm.sysMmap
  by_cases hargs : len = 0 ∨ len > 2 ^ 36 ∨ offset % pageSize ≠ 0
  · rw [if_pos hargs]
    exact h
  rw [if_neg hargs]
  by_cases halign : (fixed || noreplace) = true ∧ addr % pageSize ≠ 0
  · rw [if_pos halign]
    exact h
  rw [if_neg halign]
  by_cases hplace : (fixed || noreplace) = true ∧ (addr < userBase ∨
      addr + (len + pageSize - 1) / pageSize * pageSize > userShmBase)
  · rw [if_pos hplace]
    exact h
  rw [if_neg hplace]
  -- a fixed address passed the test above
  have hfixed : ∀ a, (if (fixed || noreplace) = true then some addr else none) = some a →
      userBase ≤ a ∧ a + ((len + pageSize - 1) / pageSize * pageSize + pageSize - 1)
        / pageSize * pageSize ≤ userEnd := by
    intro a ha
    split_ifs at ha with hf
    cases ha
    have hin : ¬ (addr < userBase ∨
        addr + (len + pageSize - 1) / pageSize * pageSize > userShmBase) := fun hc => hplace ⟨hf, hc⟩
    have hend : userShmBase ≤ userEnd := by decide
    rw [pages_size]
    omega
  cases anonymous with
  | true =>
    rw [if_pos rfl]
    exact h.mapAnonymous ht (hnew rfl) noreplace clash mapped granted hfixed
  | false =>
    rw [if_neg (by simp)]
    split
    next id hid => exact h.mapMemfd ht id noreplace offset clash mapped hfixed
    next => exact h

theorem Ledger.sysMunmap (h : Ledger s []) (pid : Pid) (addr len : Nat) :
    Ledger (s.sysMunmap pid addr len).1 [] := by
  have hunmap := h.unmapRange pid addr len
  unfold Shm.sysMunmap
  by_cases hargs : addr % pageSize ≠ 0 ∨ len = 0 ∨
      ¬ (addr ≥ userBase ∧ len ≤ userEnd - userBase ∧ addr + len ≤ userEnd)
  · rw [if_pos hargs]
    exact h
  · rw [if_neg hargs]
    rcases hr : s.unmapRange pid addr len with ⟨s', shared⟩
    rw [hr] at hunmap
    dsimp only
    split_ifs <;> exact hunmap

/-! ### Opening -/

theorem Ledger.sysMemfdCreate (h : Ledger s []) (ht : get s.procs pid = some t)
    (hnew : s.segments s.nextSegment = none) (name : Except Int String) (flags : Nat) :
    Ledger (s.sysMemfdCreate pid name flags).1 [] := by
  unfold Shm.sysMemfdCreate
  split_ifs
  · exact h
  split
  next => exact h
  next name =>
    split_ifs
    · exact h
    · exact Ledger.installFd (f := .memfd s.nextSegment) (h.create hnew pid) ht

theorem shmSetLen_names (s : Shm) (id : SegId) (len : Nat) (granted : Bool) :
    (s.shmSetLen id len granted).1.names = s.names := by
  unfold shmSetLen
  split_ifs
  · rfl
  dsimp only
  split
  · rfl
  · split_ifs <;> rfl

theorem Ledger.truncated (h : Ledger s hand) (id : SegId) (flags : Nat) :
    Ledger (s.truncated id flags) hand := by
  unfold Shm.truncated
  split_ifs
  · exact h.shmSetLen id 0 true
  · exact h

theorem truncated_holders (s : Shm) (id i : SegId) (flags : Nat) :
    (s.truncated id flags).holders i = s.holders i := by
  unfold truncated
  split_ifs
  · unfold holders
    rw [shmSetLen_names, shmSetLen_procs]
  · rfl

theorem truncated_procs (s : Shm) (id : SegId) (flags : Nat) :
    (s.truncated id flags).procs = s.procs := by
  unfold truncated
  split_ifs
  · exact shmSetLen_procs ..
  · rfl

/-- With room in the table the reference of `open_shm` goes into the descriptor. -/
theorem Ledger.openSegment (h : Ledger s []) (ht : get s.procs pid = some t)
    (hroom : (t.install .other).isSome) (hid : 0 < s.holders id) (flags : Nat) :
    Ledger (s.openSegment pid id flags).1 [] := by
  have ht' : get ((s.truncated id flags).retain id).procs pid = some t := by
    rw [retain_procs, truncated_procs]
    exact ht
  have hret : Ledger ((s.truncated id flags).retain id) [id] := by
    refine (h.truncated id flags).retain ?_
    rw [truncated_holders]
    exact lt_of_lt_of_le hid (le_add_right _ _)
  unfold Shm.openSegment
  dsimp only
  rw [if_neg (installFd_slot ht' hroom)]
  exact Ledger.installFd (f := .memfd id) hret ht'

/-- The open goes past its tests of the name. -/
def Opens (s : Shm) (name : String) (flags : Nat) : Prop :=
  match Assoc.get s.names name with
  | some _ => ¬ (flags &&& 0o100 ≠ 0 ∧ flags &&& 0o200 ≠ 0)
  | none => flags &&& 0o100 ≠ 0

theorem Ledger.openShm (h : Ledger s []) (ht : get s.procs pid = some t)
    (hnew : s.segments s.nextSegment = none) {name : String} {flags : Nat}
    (hroom : s.Opens name flags → (t.install .other).isSome) :
    Ledger (s.openShm pid name flags).1 [] := by
  unfold Opens at hroom
  unfold Shm.openShm
  cases hn : get s.names name with
  | some id =>
    rw [hn] at hroom
    dsimp only at hroom ⊢
    split_ifs with hexcl
    · exact h
    · exact h.openSegment ht (hroom hexcl) (holds_name hn) flags
  | none =>
    rw [hn] at hroom
    dsimp only at hroom ⊢
    split_ifs with hcreat
    · have hnamed := (h.create hnew pid).name name
      refine hnamed.openSegment ht (hroom hcreat) ?_ flags
      refine holds_name (?_ : get _ name = _)
      rw [get_cons, if_pos rfl]
      rfl
    · exact h

/-! ### Processes -/

theorem retain_holders (s : Shm) (id i : SegId) : (s.retain id).holders i = s.holders i := by
  unfold retain
  split <;> rfl

theorem Ledger.retains (h : Ledger s hand) {ids : List SegId}
    (hids : ∀ id ∈ ids, 0 < s.holders id) : Ledger (ids.foldl Shm.retain s) (ids ++ hand) := by
  induction ids generalizing s hand with
  | nil => exact h
  | cons id ids ih =>
    have hid := hids id mem_cons_self
    have hret := h.retain (lt_of_lt_of_le hid (le_add_right _ _))
    have hrest := ih hret (fun i hi => by
      rw [retain_holders]
      exact hids i (mem_cons_of_mem _ hi))
    exact hrest.perm perm_middle

theorem foldl_duplicate (fs : List OpenFile) (s : Shm) :
    fs.foldl duplicate s = (fs.flatMap OpenFile.ids).foldl retain s := by
  induction fs generalizing s with
  | nil => rfl
  | cons f fs ih =>
    rw [foldl_cons, flatMap_cons, foldl_append, ih]
    cases f <;> rfl

/-- References are taken in the segment table only. -/
theorem foldl_retain_procs (ids : List SegId) (s : Shm) (procs : List (Pid × Proc)) (n : Pid) :
    ids.foldl retain { s with procs := procs, nextPid := n }
      = { ids.foldl retain s with procs := procs, nextPid := n } := by
  induction ids generalizing s with
  | nil => rfl
  | cons id ids ih =>
    rw [foldl_cons, foldl_cons, ← ih]
    congr 1
    unfold retain
    cases s.segments id <;> simp [setSegment]

theorem foldl_retain_frame (ids : List SegId) (s : Shm) :
    (ids.foldl retain s).names = s.names ∧ (ids.foldl retain s).procs = s.procs := by
  induction ids generalizing s with
  | nil => exact ⟨rfl, rfl⟩
  | cons id ids ih =>
    rw [foldl_cons]
    obtain ⟨hn, hp⟩ := ih (s.retain id)
    refine ⟨hn.trans ?_, hp.trans (retain_procs s id)⟩
    unfold retain
    split <;> rfl

/-- The references of a process, as a list. -/
def idsOf (t : Proc) : List SegId := t.files.flatMap OpenFile.ids ++ t.shm.map (·.1)

theorem count_idsOf (t : Proc) (i : SegId) : (idsOf t).count i = t.holds i := by
  rw [idsOf, count_append, Proc.files, ← holds_files]
  rfl

/-- A new process takes over the references in hand. -/
theorem Ledger.adopt (h : Ledger s (idsOf t ++ hand)) (hr : t.Ranged) (pid n : Pid) :
    Ledger { s with procs := (pid, t) :: s.procs, nextPid := n } hand := by
  refine ⟨?_, h.pos, forall_mem_cons.mpr ⟨hr, h.ranged⟩⟩
  intro i
  have hc := h.count i
  rw [count_append, count_idsOf] at hc
  show s.refsOf i = total _ s.names + total (Proc.holds i) ((pid, t) :: s.procs) + _
  rw [hc, total_cons, holders]
  dsimp only
  omega

/-- The child of a `fork` holds what its parent does, and each reference is counted. -/
theorem Ledger.fork (h : Ledger s []) (ht : get s.procs pid = some t) : Ledger (s.fork t) [] := by
  have hids : ∀ i ∈ idsOf t, 0 < s.holders i := by
    intro i hi
    have hpos := count_pos_iff.mpr hi
    rw [count_idsOf] at hpos
    exact lt_of_lt_of_le hpos (holds_le ht i)
  have hret : Ledger ((idsOf t).foldl Shm.retain s) (idsOf { t with alive := true } ++ []) :=
    h.retains hids
  have hranged := h.ranged _ (get_mem ht)
  have hchild := hret.adopt ⟨hranged.next, hranged.shm⟩ s.nextPid (s.nextPid + 1)
  obtain ⟨-, hprocs⟩ := foldl_retain_frame (t.files.flatMap OpenFile.ids) s
  obtain ⟨-, hall⟩ := foldl_retain_frame (idsOf t) s
  unfold Shm.fork
  dsimp only
  rw [foldl_duplicate, foldl_retain_procs, hprocs]
  rw [hall, idsOf, foldl_append] at hchild
  exact hchild

/-- `exec` drops what it closes and everything the old program had mapped. -/
theorem Ledger.exec (h : Ledger s []) (ht : get s.procs pid = some t) (posix : Bool) :
    Ledger (s.exec pid t posix) [] := by
  have hclosed : Ledger (s.putProc pid { t with fds := spared t, cloexec := fun _ => false })
      ((doomed t).flatMap OpenFile.ids ++ []) := by
    refine h.put ht ?_ (fun hr => ⟨hr.next, hr.shm⟩)
    intro i
    have hsplit := holds_doomed i t
    simp only [Proc.holds, append_nil, count_nil]
    omega
  have hget : get ((doomed t).foldl Shm.release
      (s.putProc pid { t with fds := spared t, cloexec := fun _ => false })).procs pid
      = some { t with fds := spared t, cloexec := fun _ => false } := by
    rw [foldl_release_procs]
    exact get_set_self ht _
  have hrel := hclosed.releases
  have hunmap := hrel.unmapRange pid userBase (userEnd - userBase)
  have hget' := unmapRange_get hget userBase (userEnd - userBase)
  have hranged := h.ranged _ (get_mem ht)
  -- every mapping lies in user memory, so none is left
  have hempty : t.shm.filter (fun e => !inRange userBase (userEnd - userBase) e) = [] := by
    rw [filter_eq_nil_iff]
    intro e he
    obtain ⟨hlo, hhi⟩ := hranged.shm e he
    have hle : userBase ≤ userEnd := by decide
    simp only [inRange, Bool.not_eq_true', decide_eq_false_iff_not, not_not]
    omega
  unfold Shm.exec
  dsimp only
  rw [hget']
  refine hunmap.put hget' ?_ (fun _ => ⟨le_refl _, by simp⟩)
  intro i
  simp only [Proc.holds, hempty]

/-! ### Exit -/

theorem foldl_lower (ids : List SegId) (segments : SegId → Option Segment) (id : SegId) :
    ids.foldl lower segments id
      = (segments id).map (fun g => { g with refs := g.refs - ids.count id }) := by
  induction ids generalizing segments with
  | nil =>
    cases hs : segments id with
    | none => simp [hs]
    | some g => simp [hs]
  | cons i ids ih =>
    rw [foldl_cons, ih]
    unfold lower
    by_cases hi : i = id
    · rw [hi, count_cons_self]
      cases hs : segments id with
      | none => simp [hs]
      | some g =>
        simp only [Function.update_self, map_some]
        congr 2
        omega
    · rw [count_cons_of_ne hi]
      cases hs : segments i with
      | none => rfl
      | some g => simp only [Function.update_of_ne (Ne.symm hi)]

/-- `cleanup` drops a reference for each mapping of the process; it leaves no segment
    without references behind if the last of them were dropped for a segment of the
    process itself or of one that is gone. -/
theorem Ledger.cleanup (h : Ledger s []) (ht : get s.procs pid = some t)
    (hlast : ∀ id g, s.segments id = some g → g.refs = (t.shm.map (·.1)).count id →
      g.owner = pid ∨ s.alive g.owner = false) :
    Ledger (s.cleanup pid) [] := by
  have halive : ∀ q, (s.putProc pid { t with shm := [] }).alive q = s.alive q := by
    intro q
    unfold Shm.alive putProc
    by_cases hq : q = pid
    · rw [hq, get_set_self ht, ht]
      rfl
    · rw [get_set_of_ne _ hq]
  have hholders : ∀ i, (s.putProc pid { t with shm := [] }).holders i
      + (t.shm.map (·.1)).count i = s.holders i := by
    intro i
    have hset := total_set (Proc.holds i) ht { t with shm := [] }
    simp only [Proc.holds, map_nil, count_nil] at hset
    show Assoc.total _ s.names + Assoc.total (Proc.holds i) (Assoc.set s.procs pid _) + _ = _
    unfold holders
    omega
  have hseg : ∀ i, (s.cleanup pid).segments i = ((s.segments i).map (fun g =>
      { g with refs := g.refs - (t.shm.map (·.1)).count i })).filter (fun g =>
        !(g.refs == 0 && (g.owner == pid || !s.alive g.owner))) := by
    intro i
    unfold Shm.cleanup
    rw [ht]
    dsimp only
    rw [foldl_lower]
    simp only [halive]
  have hprocs : (s.cleanup pid).procs = (s.putProc pid { t with shm := [] }).procs := by
    unfold Shm.cleanup
    rw [ht]
  have hnames : (s.cleanup pid).names = s.names := by
    unfold Shm.cleanup
    rw [ht]
    rfl
  -- a segment either keeps some references or is removed
  have hkeep : ∀ i g, s.segments i = some g →
      (g.refs = (t.shm.map (·.1)).count i ∧ (s.cleanup pid).segments i = none) ∨
      ((t.shm.map (·.1)).count i < g.refs ∧ (s.cleanup pid).segments i
        = some { g with refs := g.refs - (t.shm.map (·.1)).count i }) := by
    intro i g hg
    have hc := h.count i
    rw [refsOf, hg, elim_some, count_nil] at hc
    have hle := hholders i
    rw [hseg, hg, map_some]
    by_cases hz : g.refs = (t.shm.map (·.1)).count i
    · refine .inl ⟨hz, ?_⟩
      rw [filter_some, if_neg]
      rcases hlast i g hg hz with ho | ho
      · simp [hz, ho]
      · simp [hz, ho]
    · refine .inr ⟨by omega, ?_⟩
      rw [filter_some, if_pos]
      have hne : g.refs - (t.shm.map (·.1)).count i ≠ 0 := by omega
      simp [hne]
  refine ⟨?_, ?_, ?_⟩
  · intro i
    have hc := h.count i
    have hh := hholders i
    have hholders' : (s.cleanup pid).holders i = (s.putProc pid { t with shm := [] }).holders i := by
      unfold holders
      rw [hprocs, hnames]
      rfl
    rw [hholders', count_nil]
    rw [count_nil] at hc
    unfold refsOf at hc ⊢
    cases hg : s.segments i with
    | none =>
      rw [hg, elim_none] at hc
      rw [hseg, hg]
      simp only [map_none, filter_none, elim_none]
      omega
    | some g =>
      rw [hg, elim_some] at hc
      rcases hkeep i g hg with ⟨hz, hnone⟩ | ⟨hlt, hsome⟩
      · rw [hnone, elim_none]
        omega
      · rw [hsome, elim_some]
        dsimp only
        omega
  · intro i g' hg'
    cases hg : s.segments i with
    | none =>
      rw [hseg, hg] at hg'
      cases hg'
    | some g =>
      rcases hkeep i g hg with ⟨-, hnone⟩ | ⟨hlt, hsome⟩
      · rw [hnone] at hg'
        cases hg'
      · rw [hsome] at hg'
        cases hg'
        exact Nat.sub_pos_of_lt hlt
  · rw [hprocs]
    have hr := h.ranged _ (get_mem ht)
    exact forall_set h.ranged pid ⟨hr.next, by simp⟩

theorem Ledger.exit (h : Ledger s []) (ht : get s.procs pid = some t)
    (hlast : ∀ id g, s.segments id = some g → g.refs = (t.shm.map (·.1)).count id →
      g.owner = pid ∨ s.alive g.owner = false) :
    Ledger (s.exit pid t) [] := by
  have hclean := h.cleanup ht hlast
  have hget : get (s.cleanup pid).procs pid = some { t with shm := [] } := by
    unfold Shm.cleanup
    rw [ht]
    exact get_set_self ht _
  have hclosed : Ledger ((s.cleanup pid).putProc pid
      { t with shm := [], fds := t.fds.map (fun _ => none) }) (t.files.flatMap OpenFile.ids ++ []) := by
    refine hclean.put hget ?_ (fun hr => ⟨hr.next, by simp⟩)
    intro i
    have hfiles := holds_files i t.fds
    have hnone : ((t.fds.map (fun _ => (none : Option OpenFile))).map (OpenFile.holds i)).sum = 0 := by
      simp
    simp only [Proc.holds, hnone, append_nil, count_nil, Proc.files]
    omega
  have hrel := hclosed.releases
  unfold Shm.exit
  dsimp only
  refine hrel.put (t := { t with shm := [], fds := t.fds.map (fun _ => none) }) ?_ (fun _ => rfl)
    (fun hr => ⟨hr.next, hr.shm⟩)
  rw [foldl_release_procs]
  exact get_set_self hget _

/-! ### Runs -/

/-- `NEXT_SEGMENT` is not the id of a segment that still exists. -/
def Fresh (s : Shm) : Prop := s.segments s.nextSegment = none

/-- The calls that keep the books.  An open under `/dev/shm` finds room in the descriptor
    table; a process that exits does not hold, with its mappings alone, a segment that
    another live process created; and the counter of ids has not come round to one in use. -/
def Careful (s : Shm) (a : Pid × ShmCall) : Prop :=
  match a.2 with
  | .openShm name flags =>
    s.Fresh ∧ ∀ t, Assoc.get s.procs a.1 = some t → s.Opens name flags → (t.install .other).isSome
  | .memfdCreate _ _ => s.Fresh
  | .mmap anonymous _ _ _ _ _ _ _ _ _ => anonymous = true → s.Fresh
  | .exit => ∀ t, Assoc.get s.procs a.1 = some t → ∀ id g, s.segments id = some g →
      g.refs = (t.shm.map (·.1)).count id → g.owner = a.1 ∨ s.alive g.owner = false
  | _ => True

theorem Ledger.call (h : Ledger s []) (ht : get s.procs pid = some t) {c : ShmCall}
    (hc : s.Careful (pid, c)) : Ledger (s.call pid t c) [] := by
  cases c with
  | memfdCreate name flags => exact h.sysMemfdCreate ht hc name flags
  | openShm name flags => exact h.openShm ht hc.1 (hc.2 t ht)
  | unlinkShm name => exact h.unlinkShm name
  | openOther => exact Ledger.installFd (f := .other) h ht
  | dup fd => exact h.dupFrom ht fd t.firstFd
  | dupFrom fd min => exact h.dupFrom ht fd min
  | dup2 old new => exact h.sysDup2 ht old new
  | setCloexec fd on => exact h.put ht (fun _ => rfl) (fun hr => ⟨hr.next, hr.shm⟩)
  | close fd => exact h.sysClose ht fd
  | ftruncate fd len granted =>
    unfold Shm.call
    dsimp only
    split
    next id hid => exact h.shmSetLen id len granted
    next => exact h
  | addSeals fd seals =>
    unfold Shm.call
    dsimp only
    split
    next id hid => exact h.shmAddSeals id seals
    next => exact h
  | mmap anonymous fd fixed noreplace addr len offset clash mapped granted =>
    exact h.sysMmap ht anonymous hc fd fixed noreplace addr len offset clash mapped granted
  | munmap addr len => exact h.sysMunmap pid addr len
  | fork => exact h.fork ht
  | exec posix => exact h.exec ht posix
  | exit => exact h.exit ht (hc t ht)

theorem Boot.ledger (h : Boot s) : Ledger s [] := by
  obtain ⟨hseg, -, hnames, hprocs⟩ := h
  have hfds : ∀ (fds : List (Option OpenFile)) (i : SegId),
      (∀ f ∈ fds, ∀ id, f ≠ some (.memfd id)) → (fds.map (OpenFile.holds i)).sum = 0 := by
    intro fds i hfds
    induction fds with
    | nil => rfl
    | cons f fds ih =>
      obtain ⟨hf, hrest⟩ := forall_mem_cons.mp hfds
      rw [map_cons, sum_cons, ih hrest]
      rcases f with _ | f
      · rfl
      · cases f with
        | memfd id => exact absurd rfl (hf id)
        | console => rfl
        | other => rfl
  have hzero : ∀ (l : List (Pid × Proc)) (i : SegId), (∀ e ∈ l, Proc.holds i e.2 = 0) →
      total (Proc.holds i) l = 0 := by
    intro l i hl
    induction l with
    | nil => rfl
    | cons e l ih =>
      obtain ⟨he, hrest⟩ := forall_mem_cons.mp hl
      rw [total_cons, he, ih hrest]
  refine ⟨?_, ?_, ?_⟩
  · intro i
    have hholds : total (Proc.holds i) s.procs = 0 := by
      refine hzero s.procs i (fun e he => ?_)
      obtain ⟨hf, hshm, -⟩ := hprocs e he
      rw [Proc.holds, hfds e.2.fds i hf, hshm]
      rfl
    rw [refsOf, hseg, holders, hnames, hholds]
    rfl
  · intro i g hg
    rw [hseg] at hg
    cases hg
  · intro e he
    obtain ⟨-, hshm, hnext⟩ := hprocs e he
    refine ⟨le_of_eq hnext.symm, ?_⟩
    rw [hshm]
    simp

theorem Ledger.step (h : Ledger s []) {a : Pid × ShmCall} (hc : s.Careful a)
    (hs : s.step a = some s') : Ledger s' [] := by
  obtain ⟨t, ht, rfl⟩ := map_eq_some_iff.mp hs
  obtain ⟨hget, -⟩ := filter_eq_some_iff.mp ht
  exact h.call hget hc

/-- Every segment has as many references as holders, and a segment is in the table, with
    its frames, exactly while something holds it. -/
def Counted (s : Shm) : Prop :=
  ∀ id, (∀ g, s.segments id = some g → g.refs = s.holders id) ∧
    ((s.segments id).isSome ↔ 0 < s.holders id)

theorem Ledger.counted (h : Ledger s []) : Counted s := by
  intro id
  have hc := h.count id
  rw [count_nil, add_zero] at hc
  unfold refsOf at hc
  cases hs : s.segments id with
  | none =>
    rw [hs, elim_none] at hc
    refine ⟨fun g hg => (by cases hg), ?_⟩
    simp [← hc]
  | some g =>
    rw [hs, elim_some] at hc
    have hpos := h.pos hs
    refine ⟨?_, ?_⟩
    · rintro _ ⟨⟩
      exact hc
    · rw [← hc]
      simp [hpos]

/-- In every state of every careful run the references of a segment are its holders, and
    its frames are freed just when it has none. -/
theorem refs_are_holders (s : Shm) (h : Reach Boot step Careful s) : Counted s :=
  Ledger.counted (Reach.invariant (fun _ => Boot.ledger) (fun _ _ _ hi hc hs => hi.step hc hs) h)

/-- A machine with one process that has `fds` open. -/
def single (fds : List (Option OpenFile)) : Shm where
  segments := fun _ => none
  nextSegment := 0x5100
  names := []
  procs := [(1, ⟨fds, fun _ => false, true, [], userShmBase, true⟩)]
  nextPid := 2

theorem boot_single (n : Nat) (f : Option OpenFile) (hf : ∀ id, f ≠ some (.memfd id)) :
    Boot (single (replicate n f)) := by
  refine ⟨rfl, rfl, rfl, ?_⟩
  intro e he
  rw [single, mem_singleton] at he
  rw [he]
  refine ⟨fun x hx => ?_, rfl, rfl⟩
  rw [eq_of_mem_replicate hx]
  exact hf

/-- A process opens `/dev/shm/a` and closes the descriptor again: the name is left as the
    only holder. -/
theorem refs_are_holders_close :
    ∃ s, runLabels step (single (List.replicate 32 none))
        [(1, .openShm "a" 0o102), (1, .close 0)] = some s ∧
      s.holders 0x5100 = 1 ∧ (s.segments 0x5100).map (·.refs) = some 1 ∧ Counted s := by
  have hopen : (single (List.replicate 32 none)).Careful (1, .openShm "a" 0o102) := by
    refine ⟨rfl, ?_⟩
    rintro t ⟨⟩ -
    decide
  refine ⟨_, rfl, by decide, by decide, refs_are_holders _ (.next (.next (.start
    (boot_single 32 none (by simp))) hopen rfl) (a := (1, .close 0)) trivial rfl)⟩

set_option maxRecDepth 4000 in
/-- With 256 descriptors open, creating `/dev/shm/a` fails and frees the segment whose name
    stays behind. -/
theorem full_table_frees_named :
    ∃ s, Boot (single (List.replicate 256 (some .console))) ∧
      (single (List.replicate 256 (some .console))).step (1, .openShm "a" 0o102) = some s ∧
      s.holders 0x5100 = 1 ∧ s.segments 0x5100 = none ∧ ¬ Counted s := by
  refine ⟨_, boot_single 256 _ (by simp), rfl, by decide, rfl, ?_⟩
  intro hc
  have hsome := (hc 0x5100).2.mpr (by decide)
  cases hsome

end Shm

end HamixOS.Kernel

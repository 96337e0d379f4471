import HamixOS.Kernel.Epoll

namespace HamixOS.Kernel

open Lib Function Option List OrdMap

namespace Epoll

/-!
# Interests and the open files behind them

One process that opens, duplicates and closes descriptors and waits on its epoll instances.
An interest is made for the open file behind a descriptor but kept under the number alone,
and closing the descriptor leaves it in the table until a wait finds the number closed.
`Follows` says that every event reported was one of the file the interest was made for;
`NotReused` is the condition under which the code keeps to it: no number that still has an
interest is given to another file.
-/

/-- An open file description, and the instance it is if it is an epoll descriptor. -/
structure File where
  id : Nat
  epoll : Option Nat

structure Instance where
  refs : Nat
  items : Items

/-- An event handed to the program: the interest, and the file that was tested. -/
structure Report where
  revents : Nat
  slot : Slot
  file : Nat
  deriving DecidableEq

structure Proc where
  fds : Nat → Option File
  nextFile : Nat
  instances : Nat → Option Instance
  serial : Nat
  reported : List Report

/-- `ELOOP`. -/
def eloop : Int := -40

namespace Proc

/-- `File::retain`, as far as epoll instances go. -/
def retain (s : Proc) (f : File) : Proc :=
  match f.epoll with
  | none => s
  | some id =>
    { s with instances := Function.update s.instances id ((s.instances id).map fun i => { i with refs := i.refs + 1 }) }

/-- `epoll::release`. -/
def releaseInstance (i : Instance) : Option Instance :=
  if i.refs - 1 = 0 then none else some { i with refs := i.refs - 1 }

/-- `OpenFile::release`, as far as epoll instances go. -/
def release (s : Proc) (f : File) : Proc :=
  match f.epoll with
  | none => s
  | some id => { s with instances := Function.update s.instances id ((s.instances id).bind releaseInstance) }

/-- Put a file behind a number. -/
def install (s : Proc) (fd : Nat) (f : File) : Proc := { s with fds := Function.update s.fds fd (some f) }

/-- `close`; the interests under the number stay. -/
def close (s : Proc) (fd : Nat) : Proc :=
  match s.fds fd with
  | none => s
  | some f => ({ s with fds := Function.update s.fds fd none } : Proc).release f

/-- `instance_of`. -/
def instanceOf (s : Proc) (epfd : Nat) : Except Int Nat :=
  match s.fds epfd with
  | none => .error ebadf
  | some f =>
    match f.epoll with
    | none => .error einval
    | some id => .ok id

/-- The locked part of `epoll_ctl` for a descriptor that refers to `f`. -/
def ctlLocked (s : Proc) (id fd : Nat) (f : File) (op : CtlOp) : Proc × Int :=
  match s.instances id with
  | none => (s, ebadf)
  | some i =>
    let r := Epoll.ctl i.items fd s.serial f.id op
    ({ s with instances := Function.update s.instances id (some { i with items := r.1 }), serial := s.serial + 1 }, r.2)

def sysEpollCtl (s : Proc) (epfd fd : Nat) (op : CtlOp) : Proc × Int :=
  match s.instanceOf epfd with
  | .error e => (s, e)
  | .ok id =>
    if fd = epfd then (s, einval)
    else
      match s.fds fd with
      | none => (s, ebadf)
      | some f => if f.epoll = some id then (s, eloop) else s.ctlLocked id fd f op

/-- One turn of `collect` with the descriptors as they stand. -/
def testNext (s : Proc) (ready : Nat → Nat → Nat) (c : Collect) : Collect :=
  match c.rest with
  | [] => c
  | e :: _ =>
    match s.fds e.1 with
    | none => Epoll.test c true 0
    | some f => Epoll.test c false (ready f.id e.2.interest.events)

/-- The loop of `collect`; each turn takes at least one entry off. -/
def drain (s : Proc) (ready : Nat → Nat → Nat) : Nat → Collect → Collect
  | 0, c => c
  | n + 1, c => s.drain ready n (s.testNext ready c)

/-- The file an interest is tested on. -/
def tested (s : Proc) (slot : Slot) : Nat := ((s.fds slot.arming.1).map (·.id)).getD 0

/-- `collect` on one instance, from the copy to the edits. -/
def collect (s : Proc) (ready : Nat → Nat → Nat) (id max : Nat) : Proc :=
  match s.instances id with
  | none => s
  | some i =>
    let c := s.drain ready i.items.entries.length (Epoll.snapshot i.items max)
    { s with
      instances := Function.update s.instances id (some { i with items := applyEdits i.items c })
      reported := s.reported ++ c.ready.map fun r => ⟨r.1, r.2, s.tested r.2⟩ }

end Proc

/-- The calls.  A number that a call chooses is part of the label, and so is the readiness
    of the files when a wait is made. -/
inductive Call where
  | opens (fd : Nat)
  | epollCreate (fd : Nat)
  | dup (old new : Nat)
  | dup2 (old new : Nat)
  | close (fd : Nat)
  | ctl (epfd fd : Nat) (op : CtlOp)
  | wait (epfd max : Nat) (ready : Nat → Nat → Nat)

namespace Proc

def step (s : Proc) : Call → Option Proc
  | .opens fd =>
    if (s.fds fd).isSome then none
    else some { s.install fd ⟨s.nextFile, none⟩ with nextFile := s.nextFile + 1 }
  | .epollCreate fd =>
    if (s.fds fd).isSome then none
    else
      -- file and instance get numbers that were never given out
      some { s.install fd ⟨s.nextFile, some s.nextFile⟩ with
        nextFile := s.nextFile + 1
        instances := Function.update s.instances s.nextFile (some ⟨1, OrdMap.empty⟩) }
  | .dup old new =>
    match s.fds old with
    | none => some s
    | some f => if (s.fds new).isSome then none else some ((s.retain f).install new f)
  | .dup2 old new =>
    match s.fds old with
    | none => some s
    | some f => if old = new then some s else some (((s.retain f).close new).install new f)
  | .close fd => some (s.close fd)
  | .ctl epfd fd op => some (s.sysEpollCtl epfd fd op).1
  | .wait epfd max ready =>
    match s.instanceOf epfd with
    | .error _ => some s
    | .ok id => some (s.collect ready id max)

end Proc

/-- An interest under a number that is open was made for the file there now. -/
def Live (s : Proc) : Prop := ∀ id i, s.instances id = some i → ∀ fd slot f, i.items.get fd = some slot →
  s.fds fd = some f → slot.file = f.id

/-- What is reported is the readiness of the file the interest was made for, and adding a
    file is refused for an interest only if that one was made for the same file. -/
structure Follows (s : Proc) : Prop where
  reports : ∀ r ∈ s.reported, r.file = r.slot.file
  adds : ∀ id i, s.instances id = some i → ∀ fd f, s.fds fd = some f → ∀ events data,
    (s.ctlLocked id fd f (.add events data)).2 ≠ 0 → ∃ slot, i.items.get fd = some slot ∧ slot.file = f.id

/-- A file is put behind a number that has no interest left of another file. -/
def NotReused (s : Proc) : Call → Prop
  | .opens fd => ∀ id i, s.instances id = some i → i.items.get fd = none
  | .epollCreate fd => ∀ id i, s.instances id = some i → i.items.get fd = none
  | .dup old new => ∀ f, s.fds old = some f → ∀ id i, s.instances id = some i → ∀ slot,
      i.items.get new = some slot → slot.file = f.id
  | .dup2 old new => ∀ f, s.fds old = some f → ∀ id i, s.instances id = some i → ∀ slot,
      i.items.get new = some slot → slot.file = f.id
  | _ => True

/-- Interests are kept under the number they were made with. -/
def Keyed (items : Items) : Prop := ∀ fd slot, items.get fd = some slot → slot.arming.1 = fd

structure FileInv (s : Proc) : Prop where
  live : Live s
  keyed : ∀ id i, s.instances id = some i → Keyed i.items
  reports : ∀ r ∈ s.reported, r.file = r.slot.file

theorem FileInv.follows {s : Proc} (h : FileInv s) : Follows s where
  reports := h.reports
  adds id i hi fd f hf events data hne := by
    unfold Proc.ctlLocked at hne
    rw [hi] at hne
    dsimp only [Epoll.ctl] at hne
    split_ifs at hne with hsome
    · obtain ⟨slot, hslot⟩ := isSome_iff_exists.mp hsome
      exact ⟨slot, hslot, h.live id i hi fd slot f hslot hf⟩
    · exact absurd rfl hne

variable {s : Proc}

/-- The invariant speaks of the items of the instances only, and of the open numbers. -/
theorem FileInv.mono (h : FileInv s) {s' : Proc}
    (hinst : ∀ id i', s'.instances id = some i' → ∃ i, s.instances id = some i ∧ i'.items = i.items)
    (hfds : ∀ fd f, s'.fds fd = some f → s.fds fd = some f ∨
      ∀ id i, s.instances id = some i → ∀ slot, i.items.get fd = some slot → slot.file = f.id)
    (hrep : s'.reported = s.reported) : FileInv s' := by
  refine ⟨?_, ?_, by rw [hrep]; exact h.reports⟩
  · intro id i' hi' fd slot f hslot hf
    obtain ⟨i, hi, hitems⟩ := hinst id i' hi'
    rw [hitems] at hslot
    rcases hfds fd f hf with hold | hnew
    · exact h.live id i hi fd slot f hslot hold
    · exact hnew id i hi slot hslot
  · intro id i' hi'
    obtain ⟨i, hi, hitems⟩ := hinst id i' hi'
    rw [hitems]
    exact h.keyed id i hi

theorem instances_update {s : Proc} {k id : Nat} {x : Option Instance} {i' : Instance} (h : update s.instances k x id = some i')
    (hx : x = some i' → ∃ i, s.instances k = some i ∧ i'.items = i.items) : ∃ i, s.instances id = some i ∧ i'.items = i.items := by
  by_cases heq : id = k
  · rw [heq, update_self] at h
    rw [heq]
    exact hx h
  · rw [update_of_ne heq] at h
    exact ⟨i', h, rfl⟩

theorem retain_instances (s : Proc) (f : File) (id : Nat) (i' : Instance)
    (h : (s.retain f).instances id = some i') : ∃ i, s.instances id = some i ∧ i'.items = i.items := by
  unfold Proc.retain at h
  split at h
  · exact ⟨i', h, rfl⟩
  next k hk =>
    refine instances_update (k := k) h fun hx => ?_
    obtain ⟨i, hi, rfl⟩ := map_eq_some_iff.mp hx
    exact ⟨i, hi, rfl⟩

theorem release_instances (s : Proc) (f : File) (id : Nat) (i' : Instance)
    (h : (s.release f).instances id = some i') : ∃ i, s.instances id = some i ∧ i'.items = i.items := by
  unfold Proc.release at h
  split at h
  · exact ⟨i', h, rfl⟩
  next k hk =>
    refine instances_update (k := k) h fun hx => ?_
    obtain ⟨i, hi, hrel⟩ := bind_eq_some_iff.mp hx
    unfold Proc.releaseInstance at hrel
    split_ifs at hrel
    cases hrel
    exact ⟨i, hi, rfl⟩

@[simp] theorem retain_fds (s : Proc) (f : File) : (s.retain f).fds = s.fds := by
  unfold Proc.retain
  split
  · rfl
  · rfl

@[simp] theorem release_fds (s : Proc) (f : File) : (s.release f).fds = s.fds := by
  unfold Proc.release
  split
  · rfl
  · rfl

@[simp] theorem retain_reported (s : Proc) (f : File) : (s.retain f).reported = s.reported := by
  unfold Proc.retain
  split
  · rfl
  · rfl

@[simp] theorem release_reported (s : Proc) (f : File) : (s.release f).reported = s.reported := by
  unfold Proc.release
  split
  · rfl
  · rfl

theorem FileInv.retain (h : FileInv s) (f : File) : FileInv (s.retain f) :=
  h.mono (retain_instances s f) (fun fd g hg => .inl (by rwa [retain_fds] at hg)) (retain_reported s f)

theorem FileInv.close (h : FileInv s) (fd : Nat) : FileInv (s.close fd) := by
  unfold Proc.close
  cases hf : s.fds fd with
  | none => exact h
  | some f =>
    refine h.mono (release_instances { s with fds := update s.fds fd none } f) ?_ ?_
    · intro j g hg
      rw [release_fds] at hg
      have hg' : update s.fds fd none j = some g := hg
      by_cases heq : j = fd
      · rw [heq, update_self] at hg'
        cases hg'
      · rw [update_of_ne heq] at hg'
        exact .inl hg'
    · rw [release_reported]

theorem close_instances (s : Proc) (fd id : Nat) (i' : Instance)
    (h : (s.close fd).instances id = some i') : ∃ i, s.instances id = some i ∧ i'.items = i.items := by
  unfold Proc.close at h
  split at h
  · exact ⟨i', h, rfl⟩
  next f hf => exact release_instances { s with fds := update s.fds fd none } f id i' h

theorem FileInv.install (h : FileInv s) {fd : Nat} {f : File}
    (hfree : ∀ id i, s.instances id = some i → ∀ slot, i.items.get fd = some slot → slot.file = f.id) :
    FileInv (s.install fd f) := by
  refine h.mono (fun id i' hi => ⟨i', hi, rfl⟩) ?_ rfl
  intro j g hg
  have hg' : update s.fds fd (some f) j = some g := hg
  by_cases heq : j = fd
  · rw [heq, update_self] at hg'
    cases hg'
    right
    rw [heq]
    exact hfree
  · rw [update_of_ne heq] at hg'
    exact .inl hg'

theorem FileInv.ctlLocked (h : FileInv s) {id fd : Nat} {f : File} (hf : s.fds fd = some f) (op : CtlOp) :
    FileInv (s.ctlLocked id fd f op).1 := by
  unfold Proc.ctlLocked
  cases hi : s.instances id with
  | none => exact h
  | some i =>
    have hget := get_ctl i.items fd s.serial f.id op
    -- an interest is the one written now, for `f`, or an old one
    have hcases : ∀ j slot, (Epoll.ctl i.items fd s.serial f.id op).1.get j = some slot →
        (j = fd ∧ slot.arming.1 = fd ∧ slot.file = f.id) ∨ i.items.get j = some slot := by
      intro j slot hj
      rw [hget] at hj
      split_ifs at hj with hc
      · left
        cases op with
        | add events data =>
          cases hj
          exact ⟨hc.1.symm, rfl, rfl⟩
        | mod events data =>
          cases hj
          exact ⟨hc.1.symm, rfl, rfl⟩
        | del => cases hj
      · exact .inr hj
    have hinst : ∀ k i', update s.instances id
        (some { i with items := (Epoll.ctl i.items fd s.serial f.id op).1 }) k = some i' →
        (k = id ∧ i'.items = (Epoll.ctl i.items fd s.serial f.id op).1) ∨ s.instances k = some i' := by
      intro k i' hk
      by_cases heq : k = id
      · rw [heq, update_self] at hk
        cases hk
        exact .inl ⟨heq, rfl⟩
      · rw [update_of_ne heq] at hk
        exact .inr hk
    refine ⟨?_, ?_, h.reports⟩
    · intro k i' hk j slot g hslot hg
      rcases hinst k i' hk with ⟨-, hitems⟩ | hold
      · rw [hitems] at hslot
        rcases hcases j slot hslot with ⟨rfl, -, hfile⟩ | hslot
        · have hg' : s.fds j = some g := hg
          rw [hf] at hg'
          cases hg'
          exact hfile
        · exact h.live id i hi j slot g hslot hg
      · exact h.live k i' hold j slot g hslot hg
    · intro k i' hk
      rcases hinst k i' hk with ⟨-, hitems⟩ | hold
      · rw [hitems]
        intro j slot hslot
        rcases hcases j slot hslot with ⟨rfl, hkey, -⟩ | hslot
        · exact hkey
        · exact h.keyed id i hi j slot hslot
      · exact h.keyed k i' hold

theorem FileInv.sysEpollCtl (h : FileInv s) (epfd fd : Nat) (op : CtlOp) : FileInv (s.sysEpollCtl epfd fd op).1 := by
  unfold Proc.sysEpollCtl
  split
  · exact h
  next id hid =>
    split_ifs
    · exact h
    · cases hf : s.fds fd with
      | none => exact h
      | some f =>
        dsimp only
        split_ifs
        · exact h
        · exact h.ctlLocked hf op

/-- What a `collect` under way has read is in the table, and what it reports is open. -/
structure Reading (s : Proc) (items : Items) (c : Collect) : Prop where
  rest : ∀ e ∈ c.rest, items.get e.1 = some e.2
  ready : ∀ r ∈ c.ready, items.get r.2.arming.1 = some r.2 ∧ (s.fds r.2.arming.1).isSome = true

theorem Reading.testNext {items : Items} {c : Collect} (h : Reading s items c) (hkeyed : Keyed items)
    (ready : Nat → Nat → Nat) : Reading s items (s.testNext ready c) := by
  unfold Proc.testNext
  split
  · exact h
  next e rest hrest =>
    have hhead : items.get e.1 = some e.2 := h.rest e (by rw [hrest]; exact mem_cons_self)
    have htail : ∀ x ∈ rest, items.get x.1 = some x.2 := fun x hx =>
      h.rest x (by rw [hrest]; exact mem_cons_of_mem _ hx)
    have hgo : ∀ bad revents, (bad = false → (s.fds e.1).isSome = true) →
        Reading s items (Epoll.test c bad revents) := by
      intro bad revents hopen
      obtain ⟨hrest', hready⟩ := test_cases hrest bad revents
      constructor
      · intro x hx
        rcases hrest' with hnil | heq
        · rw [hnil] at hx
          cases hx
        · rw [heq] at hx
          exact htail x hx
      · intro r hr
        rcases hready with heq | ⟨hgood, heq⟩
        · rw [heq] at hr
          exact h.ready r hr
        · rw [heq, mem_append, mem_singleton] at hr
          rcases hr with hr | rfl
          · exact h.ready r hr
          · show items.get e.2.arming.1 = some e.2 ∧ (s.fds e.2.arming.1).isSome = true
            rw [hkeyed e.1 e.2 hhead]
            exact ⟨hhead, hopen hgood⟩
    cases hf : s.fds e.1 with
    | none => exact hgo true 0 nofun
    | some f => exact hgo false _ (fun _ => by rw [hf]; rfl)

theorem Reading.drain {items : Items} {c : Collect} (h : Reading s items c) (hkeyed : Keyed items)
    (ready : Nat → Nat → Nat) (n : Nat) : Reading s items (s.drain ready n c) := by
  induction n generalizing c with
  | zero => exact h
  | succ n ih => exact ih (h.testNext hkeyed ready)

/-- An interest that survives a `collect` was there before, up to being disarmed. -/
theorem of_applyEdits {items : Items} {c : Collect} {fd : Nat} {slot : Slot}
    (h : (applyEdits items c).get fd = some slot) :
    ∃ old, items.get fd = some old ∧ slot.arming = old.arming ∧ slot.file = old.file := by
  rw [get_applyEdits] at h
  split_ifs at h
  · obtain ⟨old, hold, rfl⟩ := map_eq_some_iff.mp h
    exact ⟨old, hold, rfl, rfl⟩
  · exact ⟨slot, h, rfl, rfl⟩

theorem FileInv.collect (h : FileInv s) (ready : Nat → Nat → Nat) (id max : Nat) :
    FileInv (s.collect ready id max) := by
  unfold Proc.collect
  cases hi : s.instances id with
  | none => exact h
  | some i =>
    have hread : Reading s i.items (s.drain ready i.items.entries.length (Epoll.snapshot i.items max)) :=
      Reading.drain ⟨fun e he => (mem_iff i.items e).mp he, fun r hr => by cases hr⟩ (h.keyed id i hi) ready _
    have hinst : ∀ (c : Collect) k i', update s.instances id
        (some { i with items := applyEdits i.items c }) k = some i' →
        (k = id ∧ i'.items = applyEdits i.items c) ∨ s.instances k = some i' := by
      intro c k i' hk
      by_cases heq : k = id
      · rw [heq, update_self] at hk
        cases hk
        exact .inl ⟨heq, rfl⟩
      · rw [update_of_ne heq] at hk
        exact .inr hk
    refine ⟨?_, ?_, ?_⟩
    · intro k i' hk j slot f hslot hf
      rcases hinst _ k i' hk with ⟨-, hitems⟩ | hold
      · rw [hitems] at hslot
        obtain ⟨old, hget, -, hfile⟩ := of_applyEdits hslot
        rw [hfile]
        exact h.live id i hi j old f hget hf
      · exact h.live k i' hold j slot f hslot hf
    · intro k i' hk
      rcases hinst _ k i' hk with ⟨-, hitems⟩ | hold
      · rw [hitems]
        intro j slot hslot
        obtain ⟨old, hget, harm, -⟩ := of_applyEdits hslot
        rw [harm]
        exact h.keyed id i hi j old hget
      · exact h.keyed k i' hold
    · intro r hr
      rcases mem_append.mp hr with hr | hr
      · exact h.reports r hr
      · obtain ⟨x, hx, rfl⟩ := mem_map.mp hr
        obtain ⟨hget, hopen⟩ := hread.ready x hx
        obtain ⟨f, hf⟩ := isSome_iff_exists.mp hopen
        have hfile := h.live id i hi _ x.2 f hget hf
        show s.tested x.2 = x.2.file
        unfold Proc.tested
        rw [hf, hfile]
        rfl

theorem FileInv.step (h : FileInv s) {a : Call} {s' : Proc} (hok : NotReused s a) (hs : s.step a = some s') :
    FileInv s' := by
  unfold Proc.step at hs
  cases a with
  | opens fd =>
    dsimp only at hs
    split_ifs at hs
    cases hs
    have hinst : FileInv (s.install fd ⟨s.nextFile, none⟩) :=
      h.install fun id i hi slot hslot => by rw [hok id i hi] at hslot; cases hslot
    exact ⟨hinst.live, hinst.keyed, hinst.reports⟩
  | epollCreate fd =>
    dsimp only at hs
    split_ifs at hs
    cases hs
    have hinst : FileInv (s.install fd ⟨s.nextFile, some s.nextFile⟩) :=
      h.install fun id i hi slot hslot => by rw [hok id i hi] at hslot; cases hslot
    -- the new instance has no interests
    refine ⟨?_, ?_, hinst.reports⟩
    · intro id i hi fd' slot f hslot hf
      have hi' : update s.instances s.nextFile (some ⟨1, empty⟩) id = some i := hi
      by_cases heq : id = s.nextFile
      · rw [heq, update_self] at hi'
        cases hi'
        cases hslot
      · rw [update_of_ne heq] at hi'
        exact hinst.live id i hi' fd' slot f hslot hf
    · intro id i hi
      have hi' : update s.instances s.nextFile (some ⟨1, empty⟩) id = some i := hi
      by_cases heq : id = s.nextFile
      · rw [heq, update_self] at hi'
        cases hi'
        exact nofun
      · rw [update_of_ne heq] at hi'
        exact hinst.keyed id i hi'
  | dup old new =>
    dsimp only at hs
    cases hf : s.fds old with
    | none =>
      rw [hf] at hs
      cases hs
      exact h
    | some f =>
      rw [hf] at hs
      dsimp only at hs
      split_ifs at hs
      cases hs
      refine (h.retain f).install fun id i hi slot hslot => ?_
      obtain ⟨i₀, hi₀, hitems⟩ := retain_instances s f id i hi
      rw [hitems] at hslot
      exact hok f hf id i₀ hi₀ slot hslot
  | dup2 old new =>
    dsimp only at hs
    cases hf : s.fds old with
    | none =>
      rw [hf] at hs
      cases hs
      exact h
    | some f =>
      rw [hf] at hs
      dsimp only at hs
      split_ifs at hs
      · cases hs
        exact h
      · cases hs
        refine ((h.retain f).close new).install fun id i hi slot hslot => ?_
        obtain ⟨i₁, hi₁, hitems₁⟩ := close_instances _ new id i hi
        obtain ⟨i₀, hi₀, hitems₀⟩ := retain_instances s f id i₁ hi₁
        rw [hitems₁, hitems₀] at hslot
        exact hok f hf id i₀ hi₀ slot hslot
  | close fd =>
    cases hs
    exact h.close fd
  | ctl epfd fd op =>
    cases hs
    exact h.sysEpollCtl epfd fd op
  | wait epfd max ready =>
    dsimp only at hs
    split at hs
    · cases hs
      exact h
    · cases hs
      exact h.collect ready _ max

/-- A process without open files. -/
def fresh : Proc := ⟨fun _ => none, 0, fun _ => none, 0, []⟩

/-- Descriptor 4 is watched, closed, found closed by a wait, and only then used again. -/
def closedThenWaited : List Call :=
  [.epollCreate 3, .opens 4, .ctl 3 4 (.add 1 7), .close 4, .wait 3 8 (fun _ _ => 1), .opens 4,
    .ctl 3 4 (.add 1 9), .wait 3 8 (fun _ _ => 1)]

/-- The process has one instance, number 0. -/
theorem onlyInstance {instances : Nat → Option Instance} {fd : Nat}
    (h0 : ∀ i, instances 0 = some i → i.items.get fd = none) (hrest : ∀ id, instances (id + 1) = none) :
    ∀ id i, instances id = some i → i.items.get fd = none := by
  intro id i hi
  cases id with
  | zero => exact h0 i hi
  | succ id =>
    rw [hrest] at hi
    cases hi

end Epoll

end HamixOS.Kernel

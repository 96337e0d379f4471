import HamixOS.Kernel.Smp

namespace HamixOS.Kernel

open Lib List Option Nat Sched Task OrdSet

/-!
# The ready queues

Who waits for a CPU stands in exactly one ready queue, at the place its `level` says.

* `Task.Waits` — runnable, and on no CPU;
* `Sched.QInv s out hold` — the queues are right, but for the tasks `out` that a loop has
  popped and not yet pushed back, and the task `hold` that `pick` has chosen and
  `schedule` has not yet put on its CPU;
* `QInv.replace`, `QInv.enqueue`, `QInv.pop`, `QInv.push` — what the code does to a
  queue, each once; `boost`, `pick` and the wakeups are assembled from them;
* `Masked` — a queue that is not empty has its bit in the mask;
* `Smp.OnCpus` — `on_cpu` says where a task runs or has just run;
* `queue_invariant` — all of this in every state of every run.
-/

/-- The task waits for a CPU. -/
def Task.Waits (t : Task) : Prop := t.state = .runnable ∧ t.onCpu = none

namespace Sched

structure QInv (s : Sched) (out : List Pid) (hold : Pid) : Prop where
  level : ∀ {pid t}, s.tasks pid = some t → t.level < levels
  mem : ∀ {l pid}, pid ∈ s.ready l → pid ≠ 0 ∧ pid ∉ out ∧
    ∃ t, s.tasks pid = some t ∧ t.Waits ∧ t.queued = true ∧ t.level = l
  nodup : ∀ l, (s.ready l).Nodup
  out_mem : ∀ {pid}, pid ∈ out → pid ≠ 0 ∧ ∃ t, s.tasks pid = some t ∧ t.Waits ∧ t.queued = true
  out_nodup : out.Nodup
  covered : ∀ {pid t}, s.tasks pid = some t → pid ≠ 0 → t.Waits → pid ∉ out → pid ≠ hold →
    pid ∈ s.ready t.level
  queued : ∀ {pid t}, s.tasks pid = some t → t.queued = true → pid ∈ out ∨ pid ∈ s.ready t.level
  held : hold ≠ 0 → ∃ t, s.tasks hold = some t ∧ t.Waits ∧ t.queued = false

/-- What the invariant says of one task: of its entry, the queues `r` it stands in, and whether it was taken out or is
held. -/
structure Place (pid : Pid) (o : Option Task) (r : Nat → Prop) (out held : Prop) : Prop where
  level : ∀ {t}, o = some t → t.level < levels
  mem : ∀ {l}, r l → pid ≠ 0 ∧ ¬ out ∧ ∃ t, o = some t ∧ t.Waits ∧ t.queued = true ∧ t.level = l
  out_mem : out → pid ≠ 0 ∧ ∃ t, o = some t ∧ t.Waits ∧ t.queued = true
  covered : ∀ {t}, o = some t → pid ≠ 0 → t.Waits → ¬ out → ¬ held → r t.level
  queued : ∀ {t}, o = some t → t.queued = true → out ∨ r t.level
  held : held → pid ≠ 0 → ∃ t, o = some t ∧ t.Waits ∧ t.queued = false

variable {s s' : Sched} {out out' : List Pid} {hold hold' pid : Pid} {t t' : Task}

theorem QInv.place (h : QInv s out hold) (pid : Pid) :
    Place pid (s.tasks pid) (fun l => pid ∈ s.ready l) (pid ∈ out) (pid = hold) where
  level := h.level
  mem := h.mem
  out_mem := h.out_mem
  covered := h.covered
  queued := h.queued
  held := by
    rintro rfl h0
    exact h.held h0

theorem QInv.of_place (h : ∀ pid, Place pid (s.tasks pid) (fun l => pid ∈ s.ready l) (pid ∈ out) (pid = hold))
    (hready : ∀ l, (s.ready l).Nodup) (hout : out.Nodup) : QInv s out hold where
  level := (h _).level
  mem := (h _).mem
  nodup := hready
  out_mem := (h _).out_mem
  out_nodup := hout
  covered := (h _).covered
  queued := (h _).queued
  held := (h hold).held rfl

/-- A task without a name of its own, or not held before and after, is as it was if its entry and its places are. -/
theorem Place.congr {o : Option Task} {r r' : Nat → Prop} {x x' y y' : Prop} (h : Place pid o r x y)
    (hr : ∀ l, r' l ↔ r l) (hx : x' ↔ x) (hy : pid ≠ 0 → (y' ↔ y)) : Place pid o r' x' y' where
  level := h.level
  mem := fun hm => by
    rw [hx]
    exact h.mem ((hr _).mp hm)
  out_mem := fun hm => h.out_mem (hx.mp hm)
  covered := fun ho h0 hw hout hheld => (hr _).mpr (h.covered ho h0 hw (mt hx.mpr hout) (mt (hy h0).mpr hheld))
  queued := fun ho hq => by
    rw [hx, hr]
    exact h.queued ho hq
  held := fun hheld h0 => h.held ((hy h0).mp hheld) h0

section

variable (h : QInv s out hold)

include h

/-- Where only one task changes its entry or its place, only that one has to be looked at. -/
theorem QInv.change (pid : Pid)
    (hother : ∀ p ≠ pid, s'.tasks p = s.tasks p ∧ (∀ l, p ∈ s'.ready l ↔ p ∈ s.ready l) ∧ (p ∈ out' ↔ p ∈ out) ∧
      (p ≠ 0 → (p = hold' ↔ p = hold)))
    (hself : Place pid (s'.tasks pid) (fun l => pid ∈ s'.ready l) (pid ∈ out') (pid = hold'))
    (hready : ∀ l, (s'.ready l).Nodup) (hout : out'.Nodup) : QInv s' out' hold' := by
  refine .of_place (fun p => ?_) hready hout
  by_cases hp : p = pid
  · exact hp ▸ hself
  · obtain ⟨ht, hr, hx, hy⟩ := hother p hp
    rw [ht]
    exact (h.place p).congr hr hx hy

/-- The invariant is about the task table and the queues only, and not about the order in which tasks were taken out. -/
theorem QInv.perm (ht : s'.tasks = s.tasks) (hr : s'.ready = s.ready) (hp : out.Perm out') :
    QInv s' out' hold := by
  refine .of_place (fun p => ?_) (hr ▸ h.nodup) (hp.nodup_iff.mp h.out_nodup)
  rw [ht, hr]
  exact (h.place p).congr (fun _ => .rfl) hp.mem_iff.symm fun _ => .rfl

theorem QInv.congr (ht : s'.tasks = s.tasks) (hr : s'.ready = s.ready) : QInv s' out hold :=
  h.perm ht hr (.refl _)

/-- A task that does not wait stands in no queue and is not marked as queued. -/
theorem QInv.off (ht : s.tasks pid = some t) (hw : ¬ t.Waits) :
    (∀ l, pid ∉ s.ready l) ∧ pid ∉ out ∧ t.queued = false := by
  have hready : ∀ l, pid ∉ s.ready l := by
    intro l hmem
    obtain ⟨-, -, u, hu, huw, -⟩ := h.mem hmem
    rw [ht] at hu
    cases hu
    exact hw huw
  have hout : pid ∉ out := by
    intro hmem
    obtain ⟨-, u, hu, huw, -⟩ := h.out_mem hmem
    rw [ht] at hu
    cases hu
    exact hw huw
  refine ⟨hready, hout, ?_⟩
  by_contra hq
  rcases h.queued ht (by simpa using hq) with hmem | hmem
  · exact hout hmem
  · exact hready _ hmem

/-- The entry of a task that stands in no queue is replaced by one that is not queued. -/
theorem QInv.replace (hready : ∀ l, pid ∉ s.ready l) (hout : pid ∉ out)
    (hhold : hold = 0 ∨ hold = pid) {o : Option Task}
    (hst : s'.tasks = Function.update s.tasks pid o) (hsr : s'.ready = s.ready)
    (hlevel : ∀ t', o = some t' → t'.level < levels ∧ t'.queued = false)
    (hhold' : (hold' = pid ∧ ∃ t', o = some t' ∧ t'.Waits) ∨
      (hold' = 0 ∧ (pid = 0 ∨ ∀ t', o = some t' → ¬ t'.Waits))) :
    QInv s' out hold' := by
  refine h.change pid (fun p hp => ⟨by simp [hst, hp], by simp [hsr], .rfl, fun h0 => ?_⟩) ?_ (hsr ▸ h.nodup) h.out_nodup
  · rcases hhold with rfl | rfl <;> rcases hhold' with ⟨rfl, -⟩ | ⟨rfl, -⟩ <;> simp [hp, h0]
  · rw [show s'.tasks pid = o by simp [hst], hsr]
    constructor
    · exact fun ho => (hlevel _ ho).1
    · exact fun hm => absurd hm (hready _)
    · exact fun hm => absurd hm hout
    · intro t ho h0 hw _ hh
      rcases hhold' with ⟨rfl, -⟩ | ⟨-, hpid | hnot⟩
      · exact absurd rfl hh
      · exact absurd hpid h0
      · exact absurd hw (hnot t ho)
    · intro t ho hq
      rw [(hlevel t ho).2] at hq
      cases hq
    · rintro rfl h0
      rcases hhold' with ⟨-, t', ho, hw⟩ | ⟨hzero, -⟩
      · exact ⟨t', ho, hw, (hlevel t' ho).2⟩
      · exact absurd hzero h0

/-- The entry of a task is replaced by one that waits and is queued just as it did. -/
theorem QInv.keep (ht : s.tasks pid = some t) (hw : t'.Waits ↔ t.Waits)
    (hq : t'.queued = t.queued) (hl : t'.level = t.level) : QInv (s.setTask pid t') out hold := by
  refine h.change pid (fun p hp => ⟨by simp [hp], fun _ => .rfl, .rfl, fun _ => .rfl⟩) ?_ h.nodup h.out_nodup
  have hplace := h.place pid
  rw [ht] at hplace
  rw [show (s.setTask pid t').tasks pid = some t' by simp]
  constructor
  · rintro _ ⟨⟩
    rw [hl]
    exact hplace.level rfl
  · intro l hm
    obtain ⟨h0, hout, _, ⟨⟩, hrest⟩ := hplace.mem hm
    exact ⟨h0, hout, t', rfl, by rwa [hw, hq, hl]⟩
  · intro hm
    obtain ⟨h0, _, ⟨⟩, hrest⟩ := hplace.out_mem hm
    exact ⟨h0, t', rfl, by rwa [hw, hq]⟩
  · rintro _ ⟨⟩ h0 hwaits
    rw [hl]
    exact hplace.covered rfl h0 (hw.mp hwaits)
  · rintro _ ⟨⟩ hqueued
    rw [hl]
    exact hplace.queued rfl (hq ▸ hqueued)
  · intro hh h0
    obtain ⟨_, ⟨⟩, hrest⟩ := hplace.held hh h0
    exact ⟨t', rfl, by rwa [hw, hq]⟩

/-- A task that is not marked as queued stands in no queue. -/
theorem QInv.not_ready (ht : ∀ t, s.tasks pid = some t → t.queued = false) (l : Nat) :
    pid ∉ s.ready l := by
  intro hm
  obtain ⟨-, -, u, hu, -, huq, -⟩ := h.mem hm
  rw [ht u hu] at huq
  cases huq

end

/-- The place of a task that was taken out. -/
theorem Place.taken (h0 : pid ≠ 0) (hw : t.Waits) (hq : t.queued = true) (hl : t.level < levels) {r : Nat → Prop}
    {out held : Prop} (hr : ∀ l, ¬ r l) (hout : out) (hheld : ¬ held) : Place pid (some t) r out held where
  level := by
    rintro _ ⟨⟩
    exact hl
  mem := fun hm => absurd hm (hr _)
  out_mem := fun _ => ⟨h0, t, rfl, hw, hq⟩
  covered := fun _ _ _ hno => absurd hout hno
  queued := fun _ _ => .inl hout
  held := fun hh => absurd hh hheld

/-- A task that was taken out is none that is held, and stands in no queue. -/
theorem QInv.of_out (h : QInv s out hold) (hpid : pid ∈ out) :
    pid ≠ 0 ∧ (∀ l, pid ∉ s.ready l) ∧ pid ≠ hold ∧ ∃ t, s.tasks pid = some t ∧ t.Waits ∧ t.queued = true := by
  obtain ⟨h0, t, ht, hw, hq⟩ := h.out_mem hpid
  refine ⟨h0, fun l hm => (h.mem hm).2.1 hpid, ?_, t, ht, hw, hq⟩
  rintro rfl
  obtain ⟨u, hu, -, huq⟩ := h.held h0
  rw [ht] at hu
  cases hu
  rw [hq] at huq
  cases huq

/-! ### Single queue operations -/

/-- The front of a queue is taken out. -/
theorem QInv.pop (h : QInv s out hold) {l : Nat} {rest : List Pid} (hq : s.ready l = pid :: rest) :
    QInv (s.pop l rest) (pid :: out) hold := by
  have hnd := h.nodup l
  rw [hq] at hnd
  obtain ⟨hp0, hpo, t, ht, hw, hqd, htl⟩ := h.mem (show pid ∈ s.ready l by rw [hq]; simp)
  refine h.change pid (fun p hp => ⟨rfl, fun k => ?_, by simp [hp], fun _ => .rfl⟩) ?_ (fun k => ?_)
    (nodup_cons.mpr ⟨hpo, h.out_nodup⟩)
  · by_cases hk : k = l
    · simp [Sched.pop, hk, hq, hp]
    · simp [Sched.pop, hk]
  · rw [show (s.pop l rest).tasks pid = some t from ht]
    refine .taken hp0 hw hqd (h.level ht) (fun k hm => ?_) mem_cons_self ?_
    · by_cases hk : k = l
      · exact (nodup_cons.mp hnd).1 (by simpa [Sched.pop, hk] using hm)
      · -- the popped task has level `l`, not `k`
        obtain ⟨-, -, v, hv, -, -, hvl⟩ := h.mem (show pid ∈ s.ready k by simpa [Sched.pop, hk] using hm)
        rw [ht] at hv
        cases hv
        exact hk (hvl.symm.trans htl)
    · rintro rfl
      obtain ⟨v, hv, -, hvq⟩ := h.held hp0
      rw [ht] at hv
      cases hv
      rw [hqd] at hvq
      cases hvq
  · by_cases hk : k = l
    · simpa [Sched.pop, hk] using (nodup_cons.mp hnd).2
    · simpa [Sched.pop, hk] using h.nodup k

variable {q : List Pid}

/-- A task that was taken out goes into the queue of its level, at either end. -/
theorem QInv.push (h : QInv s (pid :: out) hold) (ht : s.tasks pid = some t)
    (hst : s'.tasks = s.tasks) (hq : q.Perm (pid :: s.ready t.level))
    (hsr : s'.ready = Function.update s.ready t.level q) : QInv s' out hold := by
  have hnd := nodup_cons.mp h.out_nodup
  obtain ⟨hp0, hno, hnh, u, hu, hw, hqd⟩ := h.of_out (mem_cons_self : pid ∈ pid :: _)
  rw [ht] at hu
  cases hu
  have hmem : ∀ p k, p ∈ s'.ready k ↔ p ∈ s.ready k ∨ (p = pid ∧ k = t.level) := by
    intro p k
    rw [hsr]
    by_cases hk : k = t.level
    · rw [hk, Function.update_self, hq.mem_iff, mem_cons]
      tauto
    · simp [hk]
  refine h.change pid (fun p hp => ⟨by rw [hst], fun k => by simp [hmem, hp], by simp [hp], fun _ => .rfl⟩) ?_
    (fun k => ?_) hnd.2
  · rw [hst, ht]
    simp only [hmem, hno, true_and, false_or]
    constructor
    · rintro _ ⟨⟩
      exact h.level ht
    · rintro l rfl
      exact ⟨hp0, hnd.1, t, rfl, hw, hqd, rfl⟩
    · exact fun hm => absurd hm hnd.1
    · rintro _ ⟨⟩ _ _ _ _
      rfl
    · rintro _ ⟨⟩ _
      exact .inr rfl
    · exact fun hh => absurd hh hnh
  · rw [hsr]
    by_cases hk : k = t.level
    · rw [hk, Function.update_self, hq.nodup_iff]
      exact nodup_cons.mpr ⟨hno _, h.nodup _⟩
    · simpa [hk] using h.nodup k

/-- A task that was taken out gets another level. -/
theorem QInv.setLevel (h : QInv s out hold) (hpid : pid ∈ out) (ht : s.tasks pid = some t)
    {l : Nat} (hl : l < levels) : QInv (s.setTask pid { t with level := l }) out hold := by
  obtain ⟨hp0, hno, hnh, u, hu, hw, hq⟩ := h.of_out hpid
  rw [ht] at hu
  cases hu
  refine h.change pid (fun p hp => ⟨by simp [hp], fun _ => .rfl, .rfl, fun _ => .rfl⟩) ?_ h.nodup h.out_nodup
  rw [show (s.setTask pid { t with level := l }).tasks pid = some { t with level := l } by simp]
  exact .taken (t := { t with level := l }) hp0 hw hq hl hno hpid hnh

/-! ### `enqueue` and the wakeups -/

/-- `enqueue` puts the held task, or any other, where it belongs. -/
theorem QInv.enqueue (h : QInv s [] hold) (hhold : hold = 0 ∨ hold = pid) :
    QInv (s.enqueue pid) [] 0 := by
  have hnone : hold = 0 → QInv s [] 0 := fun h0 => h0 ▸ h
  unfold Sched.enqueue
  split_ifs with h0
  · exact hnone (hhold.elim id (fun hp => hp.trans h0))
  split
  next htask =>
    refine hnone (by_contra fun hne => ?_)
    obtain ⟨u, hu, -⟩ := h.held hne
    rw [hhold.resolve_left hne, htask] at hu
    cases hu
  next task htask =>
    split_ifs with hcond
    · -- a task that `enqueue` turns away is not the held one
      refine hnone (by_contra fun hne => ?_)
      obtain ⟨u, hu, hw, hq⟩ := h.held hne
      rw [hhold.resolve_left hne, htask] at hu
      cases hu
      simp [hq, hw.1, hw.2] at hcond
    · simp only [not_or, Bool.not_eq_true, isSome_eq_false_iff, isNone_iff_eq_none, ne_eq, not_not] at hcond
      obtain ⟨hq, hon, hrun⟩ := hcond
      have hlevel := h.level htask
      have hnot : ∀ l, pid ∉ s.ready l := h.not_ready fun u hu => by simp_all
      -- mark it as taken out and queued, then push it
      have hmarked : QInv (s.setTask pid { task with queued := true }) [pid] 0 := by
        refine h.change pid (fun p hp => ⟨by simp [hp], fun _ => .rfl, by simp [hp], fun hp0 => ?_⟩) ?_ h.nodup (by simp)
        · rcases hhold with rfl | rfl <;> simp [hp, hp0]
        · rw [show (s.setTask pid { task with queued := true }).tasks pid = some { task with queued := true } by simp]
          exact .taken (t := { task with queued := true }) h0 ⟨hrun, hon⟩ rfl hlevel hnot (mem_singleton_self pid) h0
      exact hmarked.push (t := { task with queued := true }) (by simp) rfl
        (perm_append_comm.trans (List.Perm.refl _)) rfl

theorem QInv.makeRunnable (h : QInv s [] 0) (pid : Pid) : QInv (s.makeRunnable pid) [] 0 := by
  unfold Sched.makeRunnable
  split
  next => exact h.enqueue (.inl rfl)
  next task htask =>
    split_ifs with hz hb
    · exact h
    · -- a blocked task stands in no queue
      have hw : ¬ task.Waits := fun hw => by simp [Task.Waits, hb] at hw
      obtain ⟨hready, hout, hq⟩ := h.off htask hw
      have hlevel := h.level htask
      by_cases hon : task.onCpu = none ∧ pid ≠ 0
      · refine QInv.enqueue (?_ : QInv _ [] pid) (.inr rfl)
        refine (h.replace hready hout (.inl rfl)
          (show (s.setTask pid task.awake).tasks = Function.update s.tasks pid (some task.awake) from rfl)
          rfl ?_ (.inl ⟨rfl, _, rfl, rfl, hon.1⟩)).congr (by simp) ?_
        · rintro _ ⟨⟩
          exact ⟨hlevel, hq⟩
        · unfold unindexBlocked
          split_ifs <;> rfl
      · refine QInv.enqueue (?_ : QInv _ [] 0) (.inl rfl)
        refine (h.replace hready hout (.inl rfl)
          (show (s.setTask pid task.awake).tasks = Function.update s.tasks pid (some task.awake) from rfl)
          rfl ?_ (.inr ⟨rfl, ?_⟩)).congr (by simp) ?_
        · rintro _ ⟨⟩
          exact ⟨hlevel, hq⟩
        · by_cases hp : pid = 0
          · exact .inl hp
          · refine .inr ?_
            rintro _ ⟨⟩ hwa
            exact hon ⟨hwa.2, hp⟩
        · unfold unindexBlocked
          split_ifs <;> rfl
    · -- a runnable task is only marked as awake
      have hrun : task.state = .runnable := by
        cases hs : task.state with
        | runnable => rfl
        | blocked => exact absurd hs hb
        | zombie => exact absurd hs hz
      have hawake : QInv (s.setTask pid task.awake) [] 0 :=
        h.keep htask (by simp [Task.Waits, Task.awake, hrun]) rfl rfl
      exact hawake.enqueue (.inl rfl)

/-! ### The mask -/

/-- A queue that is not empty has its bit in the mask. -/
def Masked (s : Sched) : Prop := ∀ l, s.ready l ≠ [] → s.mask.testBit l

theorem testBit_one_shiftLeft (l k : Nat) : (1 <<< l).testBit k = decide (l = k) := by
  rw [one_shiftLeft, testBit_two_pow]

theorem testBit_set (m l k : Nat) : (m ||| (1 <<< l)).testBit k = (m.testBit k || decide (l = k)) := by
  rw [testBit_or, testBit_one_shiftLeft]

theorem testBit_clear (m l k : Nat) :
    (m.ldiff (1 <<< l)).testBit k = (m.testBit k && !decide (l = k)) := by
  rw [testBit_ldiff, testBit_one_shiftLeft]

section

variable (h : Masked s)

include h

theorem Masked.congr (hr : s'.ready = s.ready) (hm : s'.mask = s.mask) :
    Masked s' := by
  intro l hl
  rw [hm]
  exact h l (hr ▸ hl)

/-- Queues that only lose tasks keep their bits. -/
theorem Masked.shrink (hr : ∀ l, s'.ready l ≠ [] → s.ready l ≠ [])
    (hm : s'.mask = s.mask) : Masked s' := by
  intro l hl
  rw [hm]
  exact h l (hr l hl)

/-- A push that sets the bit of its level. -/
theorem Masked.push {l : Nat}
    (hr : s'.ready = Function.update s.ready l q) (hm : s'.mask = s.mask ||| (1 <<< l)) :
    Masked s' := by
  intro k hk
  rw [hm, testBit_set]
  by_cases hkl : l = k
  · simp [hkl]
  · rw [hr, Function.update_of_ne (Ne.symm hkl)] at hk
    rw [h k hk]
    rfl

theorem Masked.enqueue (pid : Pid) : Masked (s.enqueue pid) := by
  unfold Sched.enqueue
  split_ifs
  · exact h
  split
  · exact h
  split_ifs
  · exact h
  · exact h.push rfl rfl

theorem Masked.makeRunnable (pid : Pid) : Masked (s.makeRunnable pid) := by
  unfold Sched.makeRunnable
  split
  · exact h.enqueue pid
  split_ifs
  · exact h
  · refine Masked.enqueue (Masked.congr h ?_ ?_) pid
    · unfold unindexBlocked
      split_ifs <;> rfl
    · unfold unindexBlocked
      split_ifs <;> rfl
  · refine Masked.enqueue (s := s.setTask pid _) ?_ pid
    exact Masked.congr h rfl rfl

end

/-! ### What the queues leave alone -/

/-- A task without the two fields that say where it is queued. -/
def core (t : Task) : Task := { t with level := 0, queued := false }

/-- `s'` differs from `s` in the ready queues and in what tasks know of them. -/
structure Requeued (s s' : Sched) : Prop where
  tasks : ∀ pid, (s'.tasks pid).map core = (s.tasks pid).map core
  waiting : s'.waiting = s.waiting
  timers : s'.timers = s.timers
  nextTimer : s'.nextTimer = s.nextTimer

theorem Requeued.of_eq (ht : s'.tasks = s.tasks) (hw : s'.waiting = s.waiting)
    (hm : s'.timers = s.timers) (hn : s'.nextTimer = s.nextTimer) : Requeued s s' :=
  ⟨fun pid => by rw [ht], hw, hm, hn⟩

theorem Requeued.refl (s : Sched) : Requeued s s := .of_eq rfl rfl rfl rfl

theorem Requeued.trans {s'' : Sched} (h : Requeued s s') (h' : Requeued s' s'') :
    Requeued s s'' where
  tasks := fun pid => (h'.tasks pid).trans (h.tasks pid)
  waiting := h'.waiting.trans h.waiting
  timers := h'.timers.trans h.timers
  nextTimer := h'.nextTimer.trans h.nextTimer

theorem requeued_setTask (ht : s.tasks pid = some t) (hc : core t' = core t) :
    Requeued s (s.setTask pid t') where
  tasks := by
    intro p
    by_cases hp : p = pid
    · simp [hp, ht, hc]
    · simp [hp]
  waiting := rfl
  timers := rfl
  nextTimer := rfl

theorem requeued_enqueue (s : Sched) (pid : Pid) : Requeued s (s.enqueue pid) := by
  unfold Sched.enqueue
  split_ifs
  · exact .refl s
  split
  next => exact .refl s
  next task htask =>
    split_ifs
    · exact .refl s
    · have hset : Requeued s (s.setTask pid { task with queued := true }) :=
        requeued_setTask htask rfl
      exact hset.trans (.of_eq rfl rfl rfl rfl)

/-! ### Which CPU a task is on -/

/-- The CPU of a task, if it is on one. -/
def cpuOf (s : Sched) (pid : Pid) : Option Nat := (s.tasks pid).bind (·.onCpu)

theorem cpuOf_some (ht : s.tasks pid = some t) : s.cpuOf pid = t.onCpu := by
  simp [cpuOf, ht]

theorem cpuOf_congr (ht : s'.tasks = s.tasks) : s'.cpuOf = s.cpuOf := by
  unfold cpuOf
  rw [ht]

theorem Requeued.cpuOf (h : Requeued s s') : s'.cpuOf = s.cpuOf := by
  have hcore : ∀ o : Option Task, o.bind (·.onCpu) = (o.map core).bind (·.onCpu) := by
    rintro (_ | t) <;> rfl
  funext pid
  rw [Sched.cpuOf, Sched.cpuOf, hcore, hcore (s.tasks pid), h.tasks]

/-- An update of other fields leaves every task where it is. -/
theorem cpuOf_setTask (ht : s.tasks pid = some t) (hon : t'.onCpu = t.onCpu) :
    (s.setTask pid t').cpuOf = s.cpuOf := by
  funext p
  by_cases hp : p = pid
  · simp [Sched.cpuOf, hp, ht, hon]
  · simp [Sched.cpuOf, hp]

theorem cpuOf_makeRunnable (s : Sched) (pid : Pid) : (s.makeRunnable pid).cpuOf = s.cpuOf := by
  unfold Sched.makeRunnable
  split
  · exact (requeued_enqueue s pid).cpuOf
  next task htask =>
    split_ifs
    · rfl
    · dsimp only
      rw [(requeued_enqueue _ pid).cpuOf, cpuOf_congr (unindexBlocked_tasks _ _ _ _ _)]
      exact cpuOf_setTask htask rfl
    · dsimp only
      rw [(requeued_enqueue _ pid).cpuOf]
      exact cpuOf_setTask htask rfl

/-- The queues are right, and nothing is held or taken out. -/
structure Good (s : Sched) : Prop where
  queues : QInv s [] 0
  masked : Masked s

/-- `s'` keeps the queues right and leaves every task where it is. -/
structure Keeps (s s' : Sched) : Prop where
  good : Good s → Good s'
  cpuOf : s'.cpuOf = s.cpuOf

theorem Keeps.refl (s : Sched) : Keeps s s := ⟨id, rfl⟩

theorem Keeps.trans {s'' : Sched} (h : Keeps s s') (h' : Keeps s' s'') : Keeps s s'' :=
  ⟨h'.good ∘ h.good, h'.cpuOf.trans h.cpuOf⟩

theorem keeps_makeRunnable (s : Sched) (pid : Pid) : Keeps s (s.makeRunnable pid) :=
  ⟨fun h => ⟨h.queues.makeRunnable pid, h.masked.makeRunnable pid⟩, cpuOf_makeRunnable s pid⟩

theorem keeps_foldl {α : Type} {f : Sched → α → Sched} (hf : ∀ s a, Keeps s (f s a)) (l : List α)
    (s : Sched) : Keeps s (l.foldl f s) := by
  induction l generalizing s with
  | nil => exact .refl s
  | cons a l ih => exact (hf s a).trans (ih (f s a))

theorem keeps_of_eq (ht : s'.tasks = s.tasks) (hr : s'.ready = s.ready) (hm : s'.mask = s.mask) : Keeps s s' :=
  ⟨fun h => ⟨h.queues.congr ht hr, h.masked.congr hr hm⟩, cpuOf_congr ht⟩

theorem keeps_rescanBlocked (s : Sched) (now seq : Nat) : Keeps s (s.rescanBlocked now seq) := by
  unfold rescanBlocked
  refine Keeps.trans (Keeps.trans (keeps_of_eq ?_ ?_ ?_) (keeps_foldl keeps_makeRunnable _ _)) (keeps_of_eq rfl rfl rfl)
  · split <;> rfl
  · split <;> rfl
  · split <;> rfl

/-! ### `boost` and `pick` -/

theorem QInv.boostLoop {level : Nat} (hl : level ≠ 0) (h : QInv s [] 0)
    (hq : s.ready level = q) : QInv (boostLoop level s q) [] 0 := by
  induction q generalizing s with
  | nil => exact h
  | cons pid rest ih =>
    have hpop := h.pop hq
    obtain ⟨-, t, ht, -⟩ := hpop.out_mem (mem_cons_self : pid ∈ pid :: _)
    have hset : (s.pop level rest).setLevel pid 0
        = (s.pop level rest).setTask pid { t with level := 0 } := by
      unfold Sched.setLevel
      rw [ht]
    have hlevel := hpop.setLevel (l := 0) (by simp) ht (by decide)
    unfold Sched.boostLoop
    rw [hset]
    refine ih (hlevel.push (t := { t with level := 0 }) (by simp) rfl ?_ rfl) ?_
    · exact perm_append_comm
    · simp [Sched.pushBack, Sched.pop, Sched.setTask, hl]

theorem QInv.boostLevel {level : Nat} (hl : level ≠ 0) (h : QInv s [] 0) :
    QInv (s.boostLevel level) [] 0 :=
  (h.boostLoop hl rfl).congr rfl rfl

theorem QInv.boost (h : QInv s [] 0) (boostedAt now : Nat) :
    QInv (s.boost boostedAt now).1 [] 0 := by
  unfold Sched.boost
  split_ifs
  · exact h
  · have hlevels : QInv ([1, 2, 3].foldl Sched.boostLevel s) [] 0 := by
      exact ((h.boostLevel (by decide)).boostLevel (by decide)).boostLevel (by decide)
    dsimp only
    split_ifs
    · exact hlevels.congr rfl rfl
    · exact hlevels

/-- A task that was taken out is chosen. -/
theorem QInv.chosen (h : QInv s (pid :: out) 0) (ht : s.tasks pid = some t) :
    QInv (s.setTask pid { t with queued := false }) out pid := by
  have hnd := nodup_cons.mp h.out_nodup
  have hlevel := h.level ht
  obtain ⟨h0, hnot, -, u, hu, hw, -⟩ := h.of_out (mem_cons_self : pid ∈ pid :: _)
  rw [ht] at hu
  cases hu
  refine h.change pid (fun p hp => ⟨by simp [hp], fun _ => .rfl, by simp [hp], fun hp0 => by simp [hp, hp0]⟩) ?_ h.nodup hnd.2
  rw [show (s.setTask pid { t with queued := false }).tasks pid = some { t with queued := false } by simp]
  constructor
  · rintro _ ⟨⟩
    exact hlevel
  · exact fun hm => absurd hm (hnot _)
  · exact fun hm => absurd hm hnd.1
  · exact fun _ _ _ _ hh => absurd rfl hh
  · rintro _ ⟨⟩ ⟨⟩
  · exact fun _ _ => ⟨_, rfl, hw, rfl⟩

/-- What one level's loop of `pick` leaves. -/
theorem QInv.scan (pinned : Pid → Option Nat) (cpu level : Nat) {q deferred : List Pid}
    (h : QInv s deferred 0) (hq : s.ready level = q) :
    let r := scan pinned cpu level s deferred q
    QInv r.1 r.2.1 (r.2.2.getD 0) ∧ r.1.mask = s.mask ∧
      (∀ k, r.1.ready k ≠ [] → s.ready k ≠ []) ∧ (r.2.2 = none → r.1.ready level = []) := by
  induction q generalizing s deferred with
  | nil => exact ⟨h, rfl, fun _ hk => hk, fun _ => hq⟩
  | cons pid rest ih =>
    have hpop := h.pop hq
    obtain ⟨-, t, ht, hw, -⟩ := hpop.out_mem (mem_cons_self : pid ∈ pid :: _)
    have hshrink : ∀ k, (s.pop level rest).ready k ≠ [] → s.ready k ≠ [] := by
      intro k hk
      by_cases hkl : k = level
      · rw [hkl, hq]
        simp
      · simpa [Sched.pop, hkl] using hk
    have hhead : (s.pop level rest).ready level = rest := by simp [Sched.pop]
    have hcond : ¬ (t.state ≠ .runnable ∨ t.onCpu.isSome = true) := by simp [hw.1, hw.2]
    unfold Sched.scan
    simp only [ht, if_neg hcond]
    split_ifs with hpin
    · obtain ⟨h1, h2, h3, h4⟩ :=
        ih (hpop.perm rfl rfl ((perm_append_comm : ([pid] ++ deferred).Perm _))) hhead
      exact ⟨h1, h2.trans rfl, fun k hk => hshrink k (h3 k hk), h4⟩
    · exact ⟨hpop.chosen ht, rfl, hshrink, by simp⟩

@[simp] theorem setLevel_ready (s : Sched) (pid : Pid) (l : Nat) :
    (s.setLevel pid l).ready = s.ready := by
  unfold setLevel
  split <;> rfl

@[simp] theorem setLevel_mask (s : Sched) (pid : Pid) (l : Nat) :
    (s.setLevel pid l).mask = s.mask := by
  unfold setLevel
  split <;> rfl

/-- `boost` moves a level's queue to level 0 and leaves the other queues and the mask. -/
theorem boostLoop_frame {level : Nat} (hl : level ≠ 0) (hq : s.ready level = q) :
    (boostLoop level s q).ready level = [] ∧ (boostLoop level s q).mask = s.mask ∧
      ∀ k, k ≠ 0 → k ≠ level → (boostLoop level s q).ready k = s.ready k := by
  induction q generalizing s with
  | nil => exact ⟨hq, rfl, fun _ _ _ => rfl⟩
  | cons pid rest ih =>
    unfold Sched.boostLoop
    obtain ⟨h1, h2, h3⟩ := ih (s := ((s.pop level rest).setLevel pid 0).pushBack 0 pid)
      (by simp [pushBack, pop, hl])
    refine ⟨h1, h2.trans (by simp [pushBack, pop]), fun k hk0 hkl => ?_⟩
    rw [h3 k hk0 hkl]
    simp [pushBack, pop, hk0, hkl]

theorem Masked.boost (h : Masked s) (boostedAt now : Nat) : Masked (s.boost boostedAt now).1 := by
  -- above level 0 the mask is right after each level
  have hlevel : ∀ {s : Sched} (level : Nat), level ≠ 0 → (∀ l, l ≠ 0 → s.ready l ≠ [] → s.mask.testBit l) →
      ∀ l, l ≠ 0 → (s.boostLevel level).ready l ≠ [] → (s.boostLevel level).mask.testBit l := by
    intro s level hl hs l hl0 hne
    obtain ⟨h1, h2, h3⟩ := boostLoop_frame hl (s := s) rfl
    have hll : l ≠ level := fun heq => hne (heq ▸ h1)
    show ((boostLoop level s (s.ready level)).mask.ldiff (1 <<< level)).testBit l
    rw [testBit_clear, h2, hs l hl0 (by rw [← h3 l hl0 hll]; exact hne)]
    simp [Ne.symm hll]
  unfold Sched.boost
  split_ifs
  · exact h
  have hall : ∀ l, l ≠ 0 → ([1, 2, 3].foldl boostLevel s).ready l ≠ [] →
      ([1, 2, 3].foldl boostLevel s).mask.testBit l := by
    exact hlevel 3 (by decide) (hlevel 2 (by decide) (hlevel 1 (by decide) (fun l _ => h l)))
  generalize [1, 2, 3].foldl boostLevel s = s₁ at hall
  dsimp only
  split_ifs with h0
  · intro l hl
    rw [show (1 : Nat) = 1 <<< 0 from rfl, testBit_set]
    by_cases hl0 : l = 0
    · simp [hl0]
    · rw [hall l hl0 hl]
      rfl
  · intro l hl
    by_cases hl0 : l = 0
    · exact absurd (hl0 ▸ hl) h0
    · exact hall l hl0 hl

theorem QInv.pickLevels (pinned : Pid → Option Nat) (cpu : Nat) (ls : List Nat)
    {deferred : List Pid} (h : QInv s deferred 0) (hm : Masked s) :
    let r := pickLevels pinned cpu s deferred ls
    QInv r.1 r.2.1 r.2.2 ∧ Masked r.1 := by
  induction ls generalizing s deferred with
  | nil => exact ⟨h, hm⟩
  | cons level rest ih =>
    unfold Sched.pickLevels
    split_ifs with hbit
    · exact ih h hm
    · obtain ⟨h1, h2, h3, h4⟩ := h.scan pinned cpu level rfl
      rcases hr : Sched.scan pinned cpu level s deferred (s.ready level) with ⟨s₁, d₁, chosen⟩
      rw [hr] at h1 h2 h3 h4
      have hm₁ : Masked s₁ := hm.shrink h3 h2
      cases chosen with
      | some pid => exact ⟨h1, hm₁⟩
      | none =>
        refine ih (h1.congr rfl rfl) (fun l hl => ?_)
        have hll : level ≠ l := fun heq => hl (heq ▸ h4 rfl)
        show (s₁.mask.ldiff (1 <<< level)).testBit l
        rw [testBit_clear, hm₁ l hl]
        simp [hll]

theorem QInv.restores (h : QInv s out hold) (hm : Masked s) :
    QInv (out.foldl restore s) [] hold ∧ Masked (out.foldl restore s) := by
  induction out generalizing s with
  | nil => exact ⟨h, hm⟩
  | cons pid rest ih =>
    obtain ⟨-, t, ht, -⟩ := h.out_mem (mem_cons_self : pid ∈ pid :: _)
    have hrestore : s.restore pid = { s with
        ready := Function.update s.ready t.level (pid :: s.ready t.level)
        mask := s.mask ||| (1 <<< t.level) } := by
      unfold restore
      rw [ht]
    rw [foldl_cons, hrestore]
    exact ih (h.push ht rfl (List.Perm.refl _) rfl) (hm.push rfl rfl)

/-- `pick` keeps the queues right, but for the task it has chosen. -/
theorem QInv.pick (h : QInv s [] 0) (hm : Masked s) (boostedAt : Nat) (pinned : Pid → Option Nat)
    (cpu : Nat) (l : Loads) :
    QInv (s.pick boostedAt pinned cpu l).1 [] (s.pick boostedAt pinned cpu l).2.2 ∧
      Masked (s.pick boostedAt pinned cpu l).1 := by
  unfold Sched.pick choose
  generalize hs₁ : (if l.ticks ≥ s.nextTimer ∨ l.seq ≠ s.scannedInput then
    s.rescanBlocked l.rescanTicks l.rescanSeq else s) = s₁
  have h₁ : QInv s₁ [] 0 ∧ Masked s₁ := by
    rw [← hs₁]
    split_ifs
    · have hgood := (keeps_rescanBlocked s l.rescanTicks l.rescanSeq).good ⟨h, hm⟩
      exact ⟨hgood.queues, hgood.masked⟩
    · exact ⟨h, hm⟩
  obtain ⟨h2, hm2⟩ := (h₁.1.boost boostedAt l.boostTicks).pickLevels pinned cpu (List.range levels)
    (h₁.2.boost boostedAt l.boostTicks)
  exact h2.restores hm2

/-! ### What `pick` leaves alone -/

theorem requeued_setLevel (s : Sched) (pid : Pid) (l : Nat) : Requeued s (s.setLevel pid l) := by
  unfold setLevel
  split
  next t ht => exact requeued_setTask ht rfl
  next => exact .refl s

theorem requeued_boostLoop (level : Nat) (s : Sched) (q : List Pid) :
    Requeued s (boostLoop level s q) := by
  induction q generalizing s with
  | nil => exact .refl s
  | cons pid rest ih =>
    have hpop : Requeued s (s.pop level rest) := .of_eq rfl rfl rfl rfl
    have hlevel := hpop.trans (requeued_setLevel (s.pop level rest) pid 0)
    have hpush : Requeued s (((s.pop level rest).setLevel pid 0).pushBack 0 pid) :=
      hlevel.trans (.of_eq rfl rfl rfl rfl)
    exact hpush.trans (ih _)

theorem requeued_boost (s : Sched) (boostedAt now : Nat) :
    Requeued s (s.boost boostedAt now).1 := by
  have hlevel : ∀ (s : Sched) (l : Nat), Requeued s (s.boostLevel l) := fun s l =>
    (requeued_boostLoop l s (s.ready l)).trans (.of_eq rfl rfl rfl rfl)
  unfold Sched.boost
  split_ifs
  · exact .refl s
  · have hall : Requeued s ([1, 2, 3].foldl boostLevel s) :=
      ((hlevel s 1).trans (hlevel _ 2)).trans (hlevel _ 3)
    dsimp only
    split_ifs
    · exact hall.trans (.of_eq rfl rfl rfl rfl)
    · exact hall

theorem requeued_scan (pinned : Pid → Option Nat) (cpu level : Nat) (s : Sched)
    (deferred q : List Pid) : Requeued s (scan pinned cpu level s deferred q).1 := by
  induction q generalizing s deferred with
  | nil => exact .refl s
  | cons pid rest ih =>
    have hpop : Requeued s (s.pop level rest) := .of_eq rfl rfl rfl rfl
    unfold Sched.scan
    dsimp only
    split
    · exact hpop.trans (ih _ _)
    next task htask =>
      have hset : Requeued (s.pop level rest)
          ((s.pop level rest).setTask pid { task with queued := false }) :=
        requeued_setTask htask rfl
      split_ifs
      · exact (hpop.trans hset).trans (ih _ _)
      · exact hpop.trans (ih _ _)
      · exact hpop.trans hset

theorem requeued_pickLevels (pinned : Pid → Option Nat) (cpu : Nat) (ls : List Nat) (s : Sched)
    (deferred : List Pid) : Requeued s (pickLevels pinned cpu s deferred ls).1 := by
  induction ls generalizing s deferred with
  | nil => exact .refl s
  | cons level rest ih =>
    have hscan := requeued_scan pinned cpu level s deferred (s.ready level)
    unfold Sched.pickLevels
    split_ifs
    · exact ih s deferred
    · rcases hr : Sched.scan pinned cpu level s deferred (s.ready level) with ⟨s₁, d₁, chosen⟩
      rw [hr] at hscan
      cases chosen with
      | some pid => exact hscan
      | none =>
        refine Requeued.trans (Requeued.trans hscan ?_) (ih _ d₁)
        exact .of_eq rfl rfl rfl rfl

theorem requeued_restores (l : List Pid) (s : Sched) : Requeued s (l.foldl restore s) := by
  induction l generalizing s with
  | nil => exact .refl s
  | cons p l ih =>
    have hone : Requeued s (restore s p) := by
      unfold restore
      split
      · exact .of_eq rfl rfl rfl rfl
      · exact .refl s
    exact hone.trans (ih _)

/-- The part of `pick` before `boost`. -/
def beforeBoost (s : Sched) (l : Loads) : Sched :=
  if l.ticks ≥ s.nextTimer ∨ l.seq ≠ s.scannedInput then s.rescanBlocked l.rescanTicks l.rescanSeq
  else s

/-- After `rescan_blocked`, `pick` only moves tasks in the queues. -/
theorem requeued_pick (s : Sched) (boostedAt : Nat) (pinned : Pid → Option Nat) (cpu : Nat)
    (l : Loads) : Requeued (s.beforeBoost l) (s.pick boostedAt pinned cpu l).1 :=
  ((requeued_boost (s.beforeBoost l) boostedAt l.boostTicks).trans
    (requeued_pickLevels pinned cpu (List.range levels) _ [])).trans (requeued_restores _ _)

theorem cpuOf_pick (s : Sched) (boostedAt : Nat) (pinned : Pid → Option Nat) (cpu : Nat)
    (l : Loads) : (s.pick boostedAt pinned cpu l).1.cpuOf = s.cpuOf := by
  rw [(requeued_pick s boostedAt pinned cpu l).cpuOf, beforeBoost]
  split_ifs
  · exact (keeps_rescanBlocked s _ _).cpuOf
  · rfl

/-- The ready queues, one after the other. -/
def allReady (s : Sched) : List Pid := (List.range levels).flatMap s.ready

theorem mem_allReady : pid ∈ s.allReady ↔ ∃ l < levels, pid ∈ s.ready l := by
  simp [allReady]

/-- Two queues have no task in common: the task's level tells which one it is in. -/
theorem QInv.allReady_nodup (h : QInv s out hold) : s.allReady.Nodup := by
  refine nodup_flatMap.mpr ⟨fun l _ => h.nodup l, ?_⟩
  refine List.Pairwise.imp ?_ nodup_range
  intro l k hne
  refine disjoint_left.mpr ?_
  intro pid hl hk
  obtain ⟨-, -, t, ht, -, -, htl⟩ := h.mem hl
  obtain ⟨-, -, u, hu, -, -, hul⟩ := h.mem hk
  rw [ht] at hu
  cases hu
  exact hne (htl.symm.trans hul)

/-! ### What keeps the queues right -/

/-- A write to fields that neither the queues nor the CPUs depend on. -/
theorem keeps_setTask (ht : s.tasks pid = some t) (t' : Task) (hs : t'.state = t.state)
    (hon : t'.onCpu = t.onCpu) (hq : t'.queued = t.queued) (hl : t'.level = t.level) :
    Keeps s (s.setTask pid t') where
  good := fun h => ⟨h.queues.keep ht (by simp [Task.Waits, hs, hon]) hq hl, h.masked.congr rfl rfl⟩
  cpuOf := cpuOf_setTask ht hon

theorem keeps_setWaiters (s : Sched) (key : Pid × Nat) (l : List Pid) : Keeps s (s.setWaiters key l) :=
  keeps_of_eq rfl rfl rfl

theorem keeps_interrupt (s : Sched) (tid : Pid) : Keeps s (s.interrupt tid) := by
  unfold Sched.interrupt
  split
  next task htask =>
    split_ifs
    · exact (keeps_setTask htask { task with wakePending := true } rfl rfl rfl rfl).trans
        (keeps_makeRunnable _ tid)
    · exact .refl s
  next => exact .refl s

theorem keeps_wakeOne (key : Pid × Nat) (s : Sched) (tid : Pid) : Keeps s (wakeOne key s tid) := by
  unfold Sched.wakeOne
  refine (keeps_setWaiters s key (remove tid (s.futexWaiters key))).trans ?_
  dsimp only
  split
  next task htask =>
    have hset : Keeps (s.setWaiters key (remove tid (s.futexWaiters key)))
        ((s.setWaiters key (remove tid (s.futexWaiters key))).setTask tid
          { task with futex := 0, wakePending := true }) := keeps_setTask htask _ rfl rfl rfl rfl
    split_ifs
    · exact hset.trans (keeps_makeRunnable _ tid)
    · exact hset
  next => exact .refl _

theorem keeps_requeueOne (leader : Pid) (source target : Nat) (acc : Sched × Nat) (tid : Pid) :
    Keeps acc.1 (requeueOne leader source target acc tid).1 := by
  unfold Sched.requeueOne
  dsimp only
  refine (keeps_setWaiters acc.1 (leader, source)
    (remove tid (acc.1.futexWaiters (leader, source)))).trans ?_
  split
  next task htask =>
    split_ifs
    · exact (keeps_setTask htask { task with futex := target } rfl rfl rfl rfl).trans
        (keeps_setWaiters _ _ _)
    · exact .refl _
  next => exact .refl _

theorem keeps_requeueFutex (s : Sched) (leader : Pid) (source target count : Nat) :
    Keeps s (s.requeueFutex leader source target count).1 := by
  have hloop : ∀ (l : List Pid) (acc : Sched × Nat),
      Keeps acc.1 (l.foldl (requeueOne leader source target) acc).1 := by
    intro l
    induction l with
    | nil => exact fun acc => .refl acc.1
    | cons tid l ih =>
      exact fun acc => (keeps_requeueOne leader source target acc tid).trans (ih _)
  unfold Sched.requeueFutex
  split_ifs
  · exact .refl s
  · exact hloop _ (s, 0)

theorem keeps_setCurrentFutex (s : Sched) (tid : Pid) (addr : Nat) :
    Keeps s (s.setCurrentFutex tid addr) := by
  unfold Sched.setCurrentFutex
  split
  next => exact .refl s
  next task htask =>
    have hset : Keeps s (s.setTask tid { task with futex := addr }) :=
      keeps_setTask htask _ rfl rfl rfl rfl
    dsimp only
    split_ifs
    · exact (hset.trans (keeps_setWaiters _ _ _)).trans (keeps_setWaiters _ _ _)
    · exact hset.trans (keeps_setWaiters _ _ _)
    · exact hset.trans (keeps_setWaiters _ _ _)
    · exact hset

theorem keeps_markKilled (s : Sched) (code : Int) (tid : Pid) : Keeps s (s.markKilled code tid) := by
  unfold markKilled
  split
  next task htask => exact keeps_setTask htask _ rfl rfl rfl rfl
  next => exact .refl s

theorem keeps_killOne (code : Int) (s : Sched) (member : Pid) : Keeps s (killOne code s member) :=
  (keeps_markKilled s code member).trans (keeps_makeRunnable _ member)

/-- A task that does not wait gets a new entry that does not wait either. -/
theorem Good.off (h : Good s) (ht : s.tasks pid = some t) (hw : ¬ t.Waits)
    (t' : Task)
    (hst : s'.tasks = Function.update s.tasks pid (some t')) (hsr : s'.ready = s.ready)
    (hsm : s'.mask = s.mask) (hl : t'.level < levels) (hq : t'.queued = t.queued ∨ t'.queued = false)
    (hw' : ¬ t'.Waits) : Good s' := by
  obtain ⟨hready, hout, hqd⟩ := h.queues.off ht hw
  refine ⟨h.queues.replace hready hout (.inl rfl) hst hsr ?_ (.inr ⟨rfl, .inr ?_⟩), h.masked.congr hsr hsm⟩
  · rintro _ ⟨⟩
    exact ⟨hl, hq.elim (fun h => h.trans hqd) id⟩
  · rintro _ ⟨⟩
    exact hw'

/-- A task that does not wait is taken out of the table. -/
theorem Good.drop (h : Good s) (ht : s.tasks pid = some t) (hw : ¬ t.Waits)
    (hst : s'.tasks = Function.update s.tasks pid none) (hsr : s'.ready = s.ready)
    (hsm : s'.mask = s.mask) : Good s' := by
  obtain ⟨hready, hout, -⟩ := h.queues.off ht hw
  refine ⟨h.queues.replace hready hout (.inl rfl) hst hsr ?_ (.inr ⟨rfl, .inr ?_⟩), h.masked.congr hsr hsm⟩
  · rintro _ ⟨⟩
  · rintro _ ⟨⟩

/-- A task that stands in no queue gets an entry that waits, and is put in its queue. -/
theorem Good.join (h : Good s) (hready : ∀ l, pid ∉ s.ready l) (t' : Task)
    (hst : s'.tasks = Function.update s.tasks pid (some t')) (hsr : s'.ready = s.ready)
    (hsm : s'.mask = s.mask) (hl : t'.level < levels) (hq : t'.queued = false) (hw : t'.Waits) :
    Good (s'.enqueue pid) := by
  have hheld : QInv s' [] pid := by
    refine h.queues.replace hready (by simp) (.inl rfl) hst hsr ?_ (.inl ⟨rfl, t', rfl, hw⟩)
    rintro _ ⟨⟩
    exact ⟨hl, hq⟩
  exact ⟨hheld.enqueue (.inr rfl), (h.masked.congr hsr hsm).enqueue pid⟩

/-- `block` either finds a reason not to sleep, or puts the task to sleep and indexes it. -/
theorem block_cases (ht : s.tasks pid = some t) (flags : Nat) (timeout : Option Nat)
    (seq ticks inputSeq : Nat) :
    s.block pid flags timeout seq ticks inputSeq = s.setTask pid { t with wakePending := false } ∨
    ∃ wait wakeAt n, n ≤ s.nextTimer ∧ (wait &&& waitTimer ≠ 0 → n ≤ wakeAt) ∧
      s.block pid flags timeout seq ticks inputSeq =
        { (s.setTask pid { t with
            state := .blocked
            wait := wait
            inputSeq := seq
            wakePending := false
            wakeAt := wakeAt }).indexBlocked pid wait wakeAt with nextTimer := n } := by
  unfold Sched.block
  rw [ht]
  dsimp only
  split_ifs with hstale htimer
  · exact .inl rfl
  · cases timeout with
    | none =>
      exact .inr ⟨flags, t.wakeAt, min s.nextTimer t.wakeAt, by omega, fun _ => by omega, rfl⟩
    | some d =>
      exact .inr ⟨flags ||| waitTimer, ticks + d, min s.nextTimer (ticks + d), by omega,
        fun _ => by omega, rfl⟩
  · cases timeout with
    | none => exact .inr ⟨flags, t.wakeAt, s.nextTimer, le_refl _, fun h => absurd h htimer, rfl⟩
    | some d =>
      exact .inr ⟨flags ||| waitTimer, ticks + d, s.nextTimer, le_refl _, fun h => absurd h htimer, rfl⟩

theorem keeps_block (ht : s.tasks pid = some t) (hw : ¬ t.Waits) (flags : Nat)
    (timeout : Option Nat) (seq ticks inputSeq : Nat) :
    Keeps s (s.block pid flags timeout seq ticks inputSeq) := by
  rcases block_cases ht flags timeout seq ticks inputSeq with h | ⟨wait, wakeAt, n, -, -, h⟩
  · rw [h]
    exact keeps_setTask ht _ rfl rfl rfl rfl
  · rw [h]
    refine ⟨fun hg => ?_, (cpuOf_congr rfl).trans (cpuOf_setTask ht rfl)⟩
    have hlevel := hg.queues.level ht
    refine hg.off ht hw { t with
        state := .blocked
        wait := wait
        inputSeq := seq
        wakePending := false
        wakeAt := wakeAt } rfl rfl rfl hlevel (.inl rfl) ?_
    simp [Task.Waits]

/-- The task `pick` has chosen stands in no queue, so it may be put on its CPU. -/
theorem good_dispatch {next : Pid} (hq : QInv s [] next) (hm : Masked s) (cpu : Nat) :
    Good (s.dispatch next cpu) := by
  by_cases hnext : next = 0
  · have hsame : s.dispatch next cpu = s := by
      unfold dispatch
      split
      · rw [if_neg (not_not.mpr hnext)]
      · rfl
    rw [hsame]
    exact ⟨hnext ▸ hq, hm⟩
  · obtain ⟨t, ht, -, hqd⟩ := hq.held hnext
    have hnot : ∀ l, next ∉ s.ready l := hq.not_ready fun u hu => by simp_all
    have hlevel := hq.level ht
    have hset : s.dispatch next cpu = s.setTask next { t with onCpu := some cpu } := by
      simp [dispatch, ht, hnext]
    have htasks : (s.dispatch next cpu).tasks
        = Function.update s.tasks next (some { t with onCpu := some cpu }) := by
      rw [hset]
      rfl
    have hready : (s.dispatch next cpu).ready = s.ready := by
      rw [hset]
      rfl
    have hmask : (s.dispatch next cpu).mask = s.mask := by
      rw [hset]
      rfl
    refine ⟨hq.replace hnot (by simp) (.inr rfl) htasks hready ?_ (.inr ⟨rfl, .inr ?_⟩),
      hm.congr hready hmask⟩
    · rintro _ ⟨⟩
      exact ⟨hlevel, hqd⟩
    · rintro _ ⟨⟩ hwt
      cases hwt.2

theorem cpuOf_dispatch {next : Pid} (hnext : next ≠ 0 → ∃ t, s.tasks next = some t ∧
      t.Waits ∧ t.queued = false) (cpu : Nat) (p : Pid) :
    (s.dispatch next cpu).cpuOf p = if p = next ∧ next ≠ 0 then some cpu else s.cpuOf p := by
  unfold dispatch
  by_cases h0 : next = 0
  · rw [if_neg (fun h => h.2 h0)]
    split
    · rw [if_neg (not_not.mpr h0)]
    · rfl
  · obtain ⟨t, ht, -⟩ := hnext h0
    simp only [ht]
    rw [if_pos h0]
    by_cases hp : p = next <;> simp [Sched.cpuOf, hp, h0]

theorem boostLevel_below {l level : Nat} (h0 : l ≠ 0) (hl : level ≠ 0) (h : l = level ∨ s.ready l = []) :
    (s.boostLevel level).ready l = [] := by
  obtain ⟨hnil, -, hkeep⟩ := boostLoop_frame hl (s := s) rfl
  by_cases heq : l = level
  · exact heq ▸ hnil
  · exact (hkeep l h0 heq).trans (h.resolve_left heq)

/-- A boost that is due leaves nothing below level 0. -/
theorem boost_due (s : Sched) {boostedAt now l : Nat} (hdue : boostInterval ≤ now - boostedAt) (h0 : l ≠ 0)
    (hl : l < levels) : (s.boost boostedAt now).1.ready l = [] := by
  have hready : (s.boost boostedAt now).1.ready = ([1, 2, 3].foldl boostLevel s).ready := by
    unfold Sched.boost
    rw [if_neg (not_lt.mpr hdue)]
    dsimp only
    split <;> rfl
  unfold levels at hl
  rw [hready]
  refine boostLevel_below h0 (by decide) (or_iff_not_imp_left.mpr fun h3 => ?_)
  refine boostLevel_below h0 (by decide) (or_iff_not_imp_left.mpr fun h2 => ?_)
  exact boostLevel_below h0 (by decide) (.inl (by omega))

/-- The task is not pinned to another CPU. -/
def allowed (pinned : Pid → Option Nat) (cpu : Nat) (pid : Pid) : Bool := !(pinned pid).any (· ≠ cpu)

/-- One level's loop of `pick` finds the first task that may run on the CPU. -/
theorem QInv.scan_first (pinned : Pid → Option Nat) (cpu level : Nat) {q deferred : List Pid}
    (h : QInv s deferred 0) (hq : s.ready level = q) :
    (Sched.scan pinned cpu level s deferred q).2.2 = q.find? (allowed pinned cpu) ∧
      ∀ k ≠ level, (Sched.scan pinned cpu level s deferred q).1.ready k = s.ready k := by
  induction q generalizing s deferred with
  | nil => exact ⟨rfl, fun _ _ => rfl⟩
  | cons pid rest ih =>
    have hpop := h.pop hq
    obtain ⟨-, t, ht, hw, -⟩ := hpop.out_mem (mem_cons_self : pid ∈ pid :: _)
    have hcond : ¬ (t.state ≠ .runnable ∨ t.onCpu.isSome = true) := by simp [hw.1, hw.2]
    unfold Sched.scan
    simp only [ht, if_neg hcond]
    by_cases hpin : (pinned pid).any (· ≠ cpu) = true
    · obtain ⟨hfind, hkeep⟩ := ih (hpop.perm rfl rfl (perm_append_comm : ([pid] ++ deferred).Perm _))
        (by simp [Sched.pop])
      rw [if_pos hpin, find?_cons_of_neg (by unfold allowed; rw [hpin]; decide)]
      exact ⟨hfind, fun k hk => (hkeep k hk).trans (by simp [Sched.pop, hk])⟩
    · rw [if_neg hpin, find?_cons_of_pos (by unfold allowed; rw [Bool.eq_false_iff.mpr hpin]; rfl)]
      exact ⟨rfl, fun k hk => by simp [Sched.pop, Sched.setTask, hk]⟩

/-- The levels are searched in turn; a level whose bit is clear has nothing. -/
theorem QInv.pickLevels_first (pinned : Pid → Option Nat) (cpu : Nat) {ls deferred : List Nat} (hls : ls.Nodup)
    (h : QInv s deferred 0) (hm : Masked s) :
    (Sched.pickLevels pinned cpu s deferred ls).2.2 = ((ls.flatMap s.ready).find? (allowed pinned cpu)).getD 0 := by
  induction ls generalizing s deferred with
  | nil => rfl
  | cons level rest ih =>
    obtain ⟨hnot, hrest⟩ := nodup_cons.mp hls
    unfold Sched.pickLevels
    rw [flatMap_cons, find?_append]
    split_ifs with hbit
    · have hnil : s.ready level = [] := by
        by_contra hne
        rw [hm level hne] at hbit
        cases hbit
      rw [hnil, ih hrest h hm]
      rfl
    · obtain ⟨h1, h2, h3, h4⟩ := h.scan pinned cpu level rfl
      obtain ⟨hfind, hkeep⟩ := h.scan_first pinned cpu level rfl
      rcases hr : Sched.scan pinned cpu level s deferred (s.ready level) with ⟨s₁, d₁, chosen⟩
      rw [hr] at h1 h2 h3 h4 hfind hkeep
      rw [← hfind]
      cases chosen with
      | some pid => rfl
      | none =>
        refine (ih (s := { s₁ with mask := s₁.mask.ldiff (1 <<< level) }) hrest (h1.congr rfl rfl) fun l hl => ?_).trans ?_
        · show (s₁.mask.ldiff (1 <<< level)).testBit l
          rw [testBit_clear, (hm.shrink h3 h2) l hl]
          simp [show level ≠ l from fun heq => hl (heq ▸ h4 rfl)]
        · have hsame : rest.flatMap s₁.ready = rest.flatMap s.ready :=
            flatMap_congr fun k hk => hkeep k fun heq => hnot (heq ▸ hk)
          show ((rest.flatMap s₁.ready).find? _).getD 0 = _
          rw [hsame, none_or]

end Sched

/-! ### Runs -/

namespace Smp

open Sched

/-- `on_cpu` says where a task runs, or where it ran until a `finish_switch` that is still
    to come. -/
structure OnCpus (m : Smp) : Prop where
  on : ∀ {pid c}, m.sched.cpuOf pid = some c → pid ≠ 0 ∧ (m.current c = pid ∨ m.previous c = pid)
  cur : ∀ {c}, m.current c ≠ 0 → m.sched.cpuOf (m.current c) = some c
  prev : ∀ {c}, m.previous c ≠ 0 → m.sched.cpuOf (m.previous c) = some c
  ne : ∀ {c}, m.current c ≠ 0 → m.current c ≠ m.previous c

structure Inv (m : Smp) : Prop where
  good : Good m.sched
  cpus : OnCpus m

variable {m m' : Smp}

/-- A step that keeps the queues right and leaves every task and every CPU where it is. -/
theorem Inv.keeps (h : Inv m) (hk : Keeps m.sched m'.sched) (hc : m'.current = m.current)
    (hp : m'.previous = m.previous) : Inv m' where
  good := hk.good h.good
  cpus := by
    constructor
    · intro pid c hpid
      rw [hk.cpuOf] at hpid
      rw [hc, hp]
      exact h.cpus.on hpid
    · intro c hcur
      rw [hk.cpuOf]
      rw [hc] at hcur ⊢
      exact h.cpus.cur hcur
    · intro c hprev
      rw [hk.cpuOf]
      rw [hp] at hprev ⊢
      exact h.cpus.prev hprev
    · intro c hcur
      rw [hp]
      rw [hc] at hcur ⊢
      exact h.cpus.ne hcur

/-- A task on a CPU does not wait. -/
theorem Inv.current_off (h : Inv m) {c : Nat} {t : Task} (hc : m.current c ≠ 0)
    (ht : m.sched.tasks (m.current c) = some t) : ¬ t.Waits := by
  intro hw
  have := h.cpus.cur hc
  rw [cpuOf_some ht, hw.2] at this
  cases this

variable {cpu : Nat}

theorem running_some {t : Task} (h : m.running cpu = some t) :
    m.current cpu ≠ 0 ∧ m.previous cpu = 0 ∧ m.sched.tasks (m.current cpu) = some t ∧
      t.state = .runnable := by
  unfold running at h
  split_ifs at h with hc
  obtain ⟨ht, hr⟩ := filter_eq_some_iff.mp h
  exact ⟨hc.1, hc.2, ht, by simpa using hr⟩

theorem nextLevel_lt {t : Task} (h : t.level < levels) (used slice : Nat) :
    nextLevel t used slice < levels := by
  unfold nextLevel
  unfold levels at *
  split_ifs <;> omega

theorem Inv.adjusted (h : Inv m) (cpu : Nat) (d : Advance) :
    Keeps m.sched (m.adjusted cpu d) := by
  unfold Smp.adjusted
  split_ifs with hc
  · exact .refl _
  split
  next t ht =>
    refine ⟨fun hg => ?_, cpuOf_setTask ht rfl⟩
    have hlevel := nextLevel_lt (hg.queues.level ht)
    have hw := h.current_off hc ht
    exact hg.off ht hw _ rfl rfl rfl (hlevel _ _) (.inl rfl) hw
  next => exact .refl _

/-- A CPU that has finished its last switch leaves its task for one that is on no CPU. -/
theorem OnCpus.switch (h : OnCpus m) (hprev : m.previous cpu = 0) {next : Pid}
    (hnext : next ≠ 0 → m.sched.cpuOf next = none)
    (hcpu : ∀ p, m'.sched.cpuOf p = if p = next ∧ next ≠ 0 then some cpu else m.sched.cpuOf p)
    (hc : m'.current = Function.update m.current cpu next)
    (hp : m'.previous = Function.update m.previous cpu (m.current cpu)) : OnCpus m' := by
  have hfree : ∀ c, ¬ (m.current c = next ∧ next ≠ 0) ∧ ¬ (m.previous c = next ∧ next ≠ 0) := by
    intro c
    refine ⟨fun ⟨hc, h0⟩ => ?_, fun ⟨hc, h0⟩ => ?_⟩
    · have hon := h.cur (c := c) (hc ▸ h0)
      rw [hc, hnext h0] at hon
      cases hon
    · have hon := h.prev (c := c) (hc ▸ h0)
      rw [hc, hnext h0] at hon
      cases hon
  constructor
  · intro pid c hpid
    rw [hcpu] at hpid
    rw [hc, hp]
    split_ifs at hpid with hn
    · cases hpid
      exact ⟨hn.1 ▸ hn.2, .inl (by simp [hn.1])⟩
    · obtain ⟨hp0, hpc⟩ := h.on hpid
      refine ⟨hp0, ?_⟩
      by_cases hcc : c = cpu
      · rw [hcc] at hpc ⊢
        rcases hpc with hpc | hpc
        · exact .inr (by simpa using hpc)
        · exact absurd (hpc.symm.trans hprev) hp0
      · simpa [hcc] using hpc
  · intro c hcur
    rw [hcpu]
    rw [hc] at hcur ⊢
    by_cases hcc : c = cpu
    · rw [hcc] at hcur ⊢
      simp only [Function.update_self] at hcur ⊢
      simp [hcur]
    · simp only [ne_eq, hcc, not_false_eq_true, Function.update_of_ne] at hcur ⊢
      rw [if_neg (hfree c).1]
      exact h.cur hcur
  · intro c hpc
    rw [hcpu]
    rw [hp] at hpc ⊢
    by_cases hcc : c = cpu
    · rw [hcc] at hpc ⊢
      simp only [Function.update_self] at hpc ⊢
      rw [if_neg (hfree cpu).1]
      exact h.cur hpc
    · simp only [ne_eq, hcc, not_false_eq_true, Function.update_of_ne] at hpc ⊢
      rw [if_neg (hfree c).2]
      exact h.prev hpc
  · intro c hcur
    rw [hc, hp]
    rw [hc] at hcur
    by_cases hcc : c = cpu
    · rw [hcc] at hcur ⊢
      simp only [Function.update_self] at hcur ⊢
      exact fun heq => (hfree cpu).1 ⟨heq.symm, hcur⟩
    · simp only [ne_eq, hcc, not_false_eq_true, Function.update_of_ne] at hcur ⊢
      exact h.ne hcur

theorem Inv.schedule (h : Inv m) (cpu : Nat) (hprev : m.previous cpu = 0) (d : Advance) :
    Inv (m.schedule cpu d) := by
  have hadj := h.adjusted cpu d
  have hg := hadj.good h.good
  obtain ⟨hq, hm⟩ := hg.queues.pick hg.masked m.boostedAt m.pinned cpu (m.loads d)
  have hcpu := (cpuOf_pick (m.adjusted cpu d) m.boostedAt m.pinned cpu (m.loads d)).trans hadj.cpuOf
  unfold Smp.schedule
  rcases hpick : (m.adjusted cpu d).pick m.boostedAt m.pinned cpu (m.loads d) with
    ⟨s, boostedAt, next⟩
  rw [hpick] at hq hm hcpu
  dsimp only
  split_ifs with hsame hnext
  · -- the chosen task waits, the current one is on its CPU
    obtain ⟨t, ht, hw, -⟩ := hq.held hnext
    have hcur := h.cpus.cur (hsame ▸ hnext)
    rw [← hsame, ← hcpu, cpuOf_some ht, hw.2] at hcur
    cases hcur
  · have h0 : next = 0 := not_not.mp hnext
    exact h.keeps ⟨fun _ => ⟨h0 ▸ hq, hm⟩, hcpu⟩ rfl rfl
  · have hgood := good_dispatch hq hm cpu
    refine ⟨hgood, h.cpus.switch hprev ?_ ?_ rfl rfl⟩
    · intro hnext
      obtain ⟨t, ht, hw, -⟩ := hq.held hnext
      rw [← hcpu, cpuOf_some ht]
      exact hw.2
    · intro p
      rw [← hcpu]
      exact cpuOf_dispatch hq.held cpu p

/-- The task a CPU has left is on no CPU from now on. -/
theorem OnCpus.leave (h : OnCpus m) (h0 : m.previous cpu ≠ 0)
    (hcpu : ∀ p, m'.sched.cpuOf p = if p = m.previous cpu then none else m.sched.cpuOf p)
    (hc : m'.current = m.current) (hp : m'.previous = Function.update m.previous cpu 0) :
    OnCpus m' := by
  have hon := h.prev h0
  have hcur : ∀ {c}, m.current c ≠ 0 → m.current c ≠ m.previous cpu := by
    intro c hc0 heq
    have hat := h.cur hc0
    rw [heq, hon] at hat
    cases hat
    exact h.ne hc0 heq
  have hprev : ∀ {c}, m.previous c ≠ 0 → c ≠ cpu → m.previous c ≠ m.previous cpu := by
    intro c hc0 hne heq
    have hat := h.prev hc0
    rw [heq, hon] at hat
    cases hat
    exact hne rfl
  constructor
  · intro pid c hpid
    rw [hcpu] at hpid
    split_ifs at hpid with hpp
    obtain ⟨hp0, hpc⟩ := h.on hpid
    rw [hc, hp]
    refine ⟨hp0, ?_⟩
    by_cases hcc : c = cpu
    · rw [hcc] at hpc ⊢
      exact .inl (hpc.resolve_right fun heq => hpp heq.symm)
    · simpa [hcc] using hpc
  · intro c hc0
    rw [hc] at hc0 ⊢
    rw [hcpu, if_neg (hcur hc0)]
    exact h.cur hc0
  · intro c hc0
    rw [hp] at hc0 ⊢
    by_cases hcc : c = cpu
    · simp [hcc] at hc0
    · simp only [ne_eq, hcc, not_false_eq_true, Function.update_of_ne] at hc0 ⊢
      rw [hcpu, if_neg (hprev hc0 hcc)]
      exact h.prev hc0
  · intro c hc0
    rw [hc] at hc0 ⊢
    rw [hp]
    by_cases hcc : c = cpu
    · simpa [hcc] using hcc ▸ hc0
    · simpa [hcc] using h.ne hc0

theorem removeTask_some {pid : Pid} {t : Task} (ht : m.sched.tasks pid = some t) :
    (m.removeTask pid).sched = { m.sched with tasks := Function.update m.sched.tasks pid none } ∧
      (m.removeTask pid).current = m.current ∧ (m.removeTask pid).previous = m.previous := by
  simp [Smp.removeTask, ht]

section

variable (h : Inv m)

include h

/-- The task a CPU has just left is put back, dropped, or left to sleep. -/
theorem Inv.finishSwitch (cpu : Nat) : Inv (m.finishSwitch cpu) := by
  unfold Smp.finishSwitch
  by_cases h0 : m.previous cpu = 0
  · have hsame : Function.update m.previous cpu 0 = m.previous := by rw [← h0, Function.update_eq_self]
    simp only [h0, if_true, hsame]
    exact h
  obtain ⟨t, ht, hcpu⟩ := bind_eq_some_iff.mp (h.cpus.prev h0)
  simp only [h0, if_false, ht, hcpu, if_true]
  have hw : ¬ t.Waits := by
    intro hw
    rw [hw.2] at hcpu
    cases hcpu
  obtain ⟨hready, hout, hqd⟩ := h.good.queues.off ht hw
  have hlevel := h.good.queues.level ht
  have hoff : ∀ p, (m.sched.setTask (m.previous cpu) { t with onCpu := none }).cpuOf p
      = if p = m.previous cpu then none else m.sched.cpuOf p := by
    intro p
    by_cases hp : p = m.previous cpu <;> simp [Sched.cpuOf, hp]
  split_ifs with hz hr
  · -- an orphan that has ended
    have ht' : (m.sched.setTask (m.previous cpu) { t with onCpu := none }).tasks (m.previous cpu)
        = some { t with onCpu := none } := by simp
    obtain ⟨hs, hc, hp⟩ := removeTask_some
      (m := { m with
        sched := m.sched.setTask (m.previous cpu) { t with onCpu := none }
        previous := Function.update m.previous cpu 0 }) ht'
    refine ⟨?_, h.cpus.leave h0 ?_ hc hp⟩
    · rw [hs]
      exact h.good.drop ht hw (by simp [setTask]) rfl rfl
    · intro p
      rw [hs]
      by_cases hpp : p = m.previous cpu <;> simp [Sched.cpuOf, hpp]
  · refine ⟨h.good.join hready _ rfl rfl rfl hlevel hqd ⟨hr, rfl⟩, h.cpus.leave h0 ?_ rfl rfl⟩
    intro p
    rw [(requeued_enqueue _ _).cpuOf]
    exact hoff p
  · refine ⟨h.good.off ht hw _ rfl rfl rfl hlevel (.inl rfl) ?_, h.cpus.leave h0 hoff rfl rfl⟩
    exact fun hw' => hr hw'.1

theorem Inv.insertTask {pid : Pid} (hpid : m.sched.tasks pid = none) (leader parent : Pid)
    (sigMask : BitVec 64) (kernelThread : Bool) (pinned : Option Nat) :
    Inv (m.insertTask (fresh pid leader sigMask) parent kernelThread pinned) := by
  have hready : ∀ l, pid ∉ m.sched.ready l := h.good.queues.not_ready fun u hu => by simp [hpid] at hu
  have hcpu : (m.insertTask (fresh pid leader sigMask) parent kernelThread pinned).sched.cpuOf
      = m.sched.cpuOf := by
    refine (requeued_enqueue _ _).cpuOf.trans (funext fun p => ?_)
    by_cases hp : p = pid
    · simp [Sched.cpuOf, hp, hpid, fresh]
    · simp [Sched.cpuOf, hp, fresh]
  refine h.keeps ⟨fun _ => ?_, hcpu⟩ rfl rfl
  exact h.good.join hready (fresh pid leader sigMask) rfl rfl rfl
    (by simp [fresh, levels]) rfl ⟨rfl, rfl⟩

/-- `exit` by the task that runs on `cpu`. -/
theorem Inv.exit {t : Task} (hrun : m.running cpu = some t) :
    Inv (m.exit (m.current cpu)) := by
  obtain ⟨h0, -, ht, -⟩ := running_some hrun
  have hw := h.current_off h0 ht
  have hlevel := h.good.queues.level ht
  have hsched : (m.exit (m.current cpu)).sched
      = m.sched.setTask (m.current cpu) { t with state := .zombie, queued := false } := by
    simp [Smp.exit, ht]
  refine h.keeps ⟨fun _ => ?_, ?_⟩ (by simp [Smp.exit, ht]) (by simp [Smp.exit, ht])
  · rw [hsched]
    refine h.good.off ht hw _ rfl rfl rfl hlevel (.inr rfl) ?_
    exact fun hw' => by cases hw'.1
  · rw [hsched]
    exact cpuOf_setTask ht rfl

/-- A dead task that is on no CPU is removed. -/
theorem Inv.reap {pid : Pid} {t : Task} (ht : m.sched.tasks pid = some t)
    (hz : t.state = .zombie) (hon : t.onCpu = none) : Inv (m.removeTask pid) := by
  obtain ⟨hs, hc, hp⟩ := removeTask_some ht
  refine h.keeps ⟨fun _ => ?_, ?_⟩ hc hp
  · rw [hs]
    refine h.good.drop ht (fun hw => ?_) rfl rfl rfl
    exact absurd (hz.symm.trans hw.1) (by decide)
  · rw [hs]
    funext p
    by_cases hpp : p = pid
    · simp [Sched.cpuOf, hpp, ht, hon]
    · simp [Sched.cpuOf, hpp]

theorem Inv.kill (pid : Pid) (code : Int) : Inv (m.kill pid code) := by
  unfold Smp.kill
  split
  next t ht =>
    split_ifs
    · exact h
    · exact h.keeps (keeps_foldl (keeps_killOne code) _ _) rfl rfl
  next => exact h

theorem Inv.step {e : Event} (he : m.step e = some m') : Inv m' := by
  cases e with
  | insert pid leader parent sigMask kernelThread pinned =>
    simp only [Smp.step] at he
    split_ifs at he with hpid
    cases he
    exact h.insertTask hpid ..
  | schedule cpu d =>
    simp only [Smp.step] at he
    split_ifs at he with hprev
    cases he
    exact h.schedule cpu hprev d
  | finishSwitch cpu =>
    cases he
    exact h.finishSwitch cpu
  | block cpu flags timeout seq =>
    obtain ⟨t, hrun, rfl⟩ := map_eq_some_iff.mp he
    obtain ⟨h0, -, ht, -⟩ := running_some hrun
    exact h.keeps (keeps_block ht (h.current_off h0 ht) ..) rfl rfl
  | makeRunnable pid =>
    cases he
    exact h.keeps (keeps_makeRunnable _ pid) rfl rfl
  | wake pid flag =>
    cases he
    exact h.keeps (keeps_foldl keeps_makeRunnable _ _) rfl rfl
  | wakeTask tid flag =>
    cases he
    refine h.keeps ?_ rfl rfl
    unfold Sched.wakeTask
    split_ifs
    · exact keeps_makeRunnable _ tid
    · exact .refl _
  | wakeAll flag =>
    cases he
    exact h.keeps (keeps_foldl keeps_makeRunnable _ _) rfl rfl
  | interrupt tid =>
    cases he
    exact h.keeps (keeps_interrupt _ tid) rfl rfl
  | wakeFutex leader addr count =>
    cases he
    exact h.keeps (keeps_foldl (keeps_wakeOne (leader, addr)) _ _) rfl rfl
  | requeueFutex leader source target count =>
    cases he
    exact h.keeps (keeps_requeueFutex ..) rfl rfl
  | setCurrentFutex cpu addr =>
    obtain ⟨t, -, rfl⟩ := map_eq_some_iff.mp he
    exact h.keeps (keeps_setCurrentFutex ..) rfl rfl
  | kill pid code =>
    cases he
    exact h.kill pid code
  | stopOthers pid =>
    cases he
    exact h.keeps (keeps_foldl (fun s tid => keeps_markKilled s 0 tid) _ _) rfl rfl
  | disown pid =>
    cases he
    exact h.keeps (.refl _) rfl rfl
  | detach pid =>
    cases he
    exact h.keeps (.refl _) rfl rfl
  | exit cpu =>
    obtain ⟨t, hrun, rfl⟩ := map_eq_some_iff.mp he
    exact h.exit hrun
  | reap pid =>
    simp only [Smp.step] at he
    split at he
    next t ht =>
      split_ifs at he with hz
      cases he
      exact h.reap ht hz.1 hz.2
    next => cases he
  | signals tid mask pending =>
    simp only [Smp.step] at he
    split at he
    next t ht =>
      cases he
      exact h.keeps (keeps_setTask ht _ rfl rfl rfl rfl) rfl rfl
    next => cases he
  | tick n =>
    cases he
    exact h.keeps (.refl _) rfl rfl
  | notifyInput =>
    cases he
    exact h.keeps (.refl _) rfl rfl

end

theorem Boot.inv (h : Boot m) : Inv m := by
  obtain ⟨ht, hr, -, -, -, hc, hp⟩ := h
  have htask : ∀ {pid t}, m.sched.tasks pid = some t → pid = 0 ∧ t = fresh 0 0 0 := by
    intro pid t hpid
    rw [ht] at hpid
    by_cases h0 : pid = 0
    · simp only [h0, Function.update_self, some.injEq] at hpid
      exact ⟨h0, hpid.symm⟩
    · simp [h0] at hpid
  have hnone : ∀ pid, m.sched.cpuOf pid = none := by
    intro pid
    rw [Sched.cpuOf, ht]
    by_cases h0 : pid = 0 <;> simp [h0, fresh]
  refine ⟨⟨?_, ?_⟩, ?_⟩
  · constructor
    · intro pid t hpid
      rw [(htask hpid).2]
      simp [fresh, levels]
    · intro l pid hmem
      simp [hr] at hmem
    · intro l
      simp [hr]
    · intro pid hmem
      cases hmem
    · exact nodup_nil
    · intro pid t hpid h0
      exact absurd (htask hpid).1 h0
    · intro pid t hpid hq
      rw [(htask hpid).2] at hq
      cases hq
    · intro h0
      exact absurd rfl h0
  · intro l hl
    simp [hr] at hl
  · constructor
    · intro pid c hon
      rw [hnone] at hon
      cases hon
    · intro c hcur
      simp [hc] at hcur
    · intro c hprev
      simp [hp] at hprev
    · intro c hcur
      simp [hc] at hcur

/-- The states of the machine. -/
abbrev Reachable (m : Smp) : Prop := Reach Boot step (fun _ _ => True) m

theorem Reachable.ofRun (as : List Event) (h : runLabels step boot as = some m) : Reachable m :=
  Reach.run (.start boot_boot) as (fun _ _ _ => trivial) h

theorem Reachable.inv (h : Reachable m) : Inv m :=
  Reach.invariant (fun _ => Boot.inv) (fun _ _ _ hi _ he => hi.step he) h

/-- `cpu` runs the task, or its `finish_switch` for it is still to come. -/
def At (m : Smp) (cpu : Nat) (pid : Pid) : Prop := m.current cpu = pid ∨ m.previous cpu = pid

theorem Inv.at_cpuOf (h : Inv m) {pid : Pid} (h0 : pid ≠ 0) (hat : m.At cpu pid) :
    m.sched.cpuOf pid = some cpu := by
  rcases hat with rfl | rfl
  · exact h.cpus.cur h0
  · exact h.cpus.prev h0

/-- The scheduler in `schedule`, as `pick` searches it: the timers that are due have woken their tasks, and a boost that
is due is made. -/
def searched (m : Smp) (cpu : Nat) (d : Advance) : Sched :=
  (((m.adjusted cpu d).beforeBoost (m.loads d)).boost m.boostedAt (m.loads d).boostTicks).1

theorem Inv.searched (h : Inv m) (cpu : Nat) (d : Advance) : Good (m.searched cpu d) := by
  have hg := (h.adjusted cpu d).good h.good
  have hgood : Good ((m.adjusted cpu d).beforeBoost (m.loads d)) := by
    unfold beforeBoost
    split_ifs
    · exact (keeps_rescanBlocked ..).good hg
    · exact hg
  exact ⟨hgood.queues.boost .., hgood.masked.boost _ _⟩

end Smp

end HamixOS.Kernel

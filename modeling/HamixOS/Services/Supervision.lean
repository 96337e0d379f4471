import HamixOS.Services.Supervisor

namespace HamixOS.Services

open Lib List Option Nat

/-!
# Runs of the supervisor

`Inv` is what every operation keeps as long as `start` is called where it can answer; `Keeps` says so of
an operation, and is closed under doing one after the other.  A restart that is owed is due at a time, or
its old process is still there and its exit brings another one (`Due`).
-/

/-- An instance fits what happened to it. -/
structure Fits (h : List Mark) (i : Nat) (inst : Instance) : Prop where
  running : inst.state = .running ↔ inst.pid.isSome
  killAt : inst.pid = none → inst.killAt = none
  stopped : stoppedLast h i = true → inst.wanted = false ∧ inst.restartAt = none
  owed : owed h i = true → inst.pid ≠ none → inst.wanted = true ∧ inst.restarts = 0

/-- A restart that is owed and has no time comes with the exit of the process. -/
def Due (units : List Unit) (h : List Mark) (i : Nat) (inst : Instance) : Prop :=
  owed h i = true → inst.restartAt = none → inst.pid ≠ none ∧ (units.getD inst.unit default).restart = .always

/-- The invariant, with `Due` for the instances that `p` admits. -/
structure InvFor (units : List Unit) (p : Nat → Prop) (s : Supervisor) : Prop where
  same : s.units = units
  fits : ∀ i inst, s.instances[i]? = some inst → Fits s.history i inst
  due : ∀ i inst, s.instances[i]? = some inst → p i → Due units s.history i inst
  unborn : ∀ i, s.instances.length ≤ i → stoppedLast s.history i = false ∧ owed s.history i = false
  stopped : StaysStopped s.history
  wanted : ∀ i after, .returned i after ∈ s.history → after.wanted = true ∧ after.killAt = none
  logs : (s.history.filterMap Mark.closedFd ++ s.instances.filterMap Instance.logFd).Perm (s.history.filterMap Mark.openedFd)
  nodup : (s.history.filterMap Mark.openedFd).Nodup
  fresh : ∀ fd ∈ s.history.filterMap Mark.openedFd, fd < s.starts

def Inv (units : List Unit) (s : Supervisor) : Prop := InvFor units (fun _ => True) s

theorem InvFor.mono {units : List Unit} {s : Supervisor} {p q : Nat → Prop} (h : InvFor units p s) (hq : ∀ i, q i → p i) : InvFor units q s where
  same := h.same
  fits := h.fits
  due := fun i inst hget hi => h.due i inst hget (hq i hi)
  unborn := h.unborn
  stopped := h.stopped
  wanted := h.wanted
  logs := h.logs
  nodup := h.nodup
  fresh := h.fresh

/-- The history grows, and the invariant is kept while the calls in it are sound. -/
def Keeps (units : List Unit) (f : Supervisor → Supervisor) : Prop :=
  ∀ s, (∃ l, (f s).history = l ++ s.history) ∧ (Inv units s → Sound units (f s).history → Inv units (f s))

theorem sound_of_append {units : List Unit} {l h : List Mark} (hsound : Sound units (l ++ h)) : Sound units h := by
  induction l with
  | nil => exact hsound
  | cons m l ih =>
    cases m with
    | called cause i before granted => exact ih hsound.2
    | _ => exact ih hsound

namespace Keeps

variable {units : List Unit} {f g : Supervisor → Supervisor}

theorem refl (units : List Unit) : Keeps units fun s => s := fun _ => ⟨⟨[], rfl⟩, fun h _ => h⟩

theorem comp (hf : Keeps units f) (hg : Keeps units g) : Keeps units fun s => g (f s) := by
  intro s
  obtain ⟨⟨l, hl⟩, hkeep⟩ := hf s
  obtain ⟨⟨l', hl'⟩, hkeep'⟩ := hg (f s)
  refine ⟨⟨l' ++ l, by rw [hl', hl, append_assoc]⟩, fun hinv hsound => hkeep' (hkeep hinv ?_) hsound⟩
  rw [hl'] at hsound
  exact sound_of_append hsound

theorem foldl {α : Type} {f : Supervisor → α → Supervisor} (hf : ∀ a, Keeps units fun s => f s a) (l : List α) :
    Keeps units fun s => l.foldl f s := by
  induction l with
  | nil => exact refl units
  | cons a l ih => exact comp (hf a) ih

/-- An operation that is one of these in every state. -/
theorem of_eq (h : ∀ s, ∃ g, Keeps units g ∧ f s = g s) : Keeps units f := by
  intro s
  obtain ⟨g, hg, heq⟩ := h s
  rw [heq]
  exact hg s

end Keeps

namespace Supervisor

variable {units : List Unit} {answers : Nat → Answer} {s : Supervisor} {i : Nat} {inst inst' : Instance}

/-- The log pipes after one instance has changed. -/
theorem filterMap_set (h : s.instances[i]? = some inst) (inst' : Instance) :
    ((s.instances.set i inst').filterMap Instance.logFd ++ inst.logFd.toList).Perm
      (s.instances.filterMap Instance.logFd ++ inst'.logFd.toList) := by
  obtain ⟨hi, hget⟩ := List.getElem?_eq_some_iff.mp h
  have hsplit : s.instances = s.instances.take i ++ inst :: s.instances.drop (i + 1) := by
    rw [← hget, getElem_cons_drop, take_append_drop]
  have hone (x : Instance) (l : List Instance) : (x :: l).filterMap Instance.logFd = x.logFd.toList ++ l.filterMap Instance.logFd := by
    cases hx : x.logFd with
    | none => rw [filterMap_cons_none hx]; rfl
    | some fd => rw [filterMap_cons_some hx]; rfl
  conv_rhs => rw [hsplit]
  rw [set_eq_take_append_cons_drop, if_pos hi, filterMap_append, filterMap_append, hone, hone]
  generalize (s.instances.take i).filterMap Instance.logFd = a
  generalize (s.instances.drop (i + 1)).filterMap Instance.logFd = b
  refine perm_iff_count.mpr fun x => ?_
  simp only [count_append]
  omega

end Supervisor

/-- The instance that a mark is about. -/
def Mark.index : Mark → Option Nat
  | .asked i => some i
  | .stopped i => some i
  | .restarting i => some i
  | .called _ i _ _ => some i
  | .returned i _ => some i
  | .opened _ => none
  | .closed _ => none

variable {l : List Mark}

/-- Marks about one instance say nothing about the others. -/
theorem marks_elsewhere {i j : Nat} (hl : ∀ m ∈ l, ∀ k ∈ m.index, k = i) (hj : j ≠ i) (h : List Mark) :
    stoppedLast (l ++ h) j = stoppedLast h j ∧ owed (l ++ h) j = owed h j := by
  induction l with
  | nil => exact ⟨rfl, rfl⟩
  | cons m l ih =>
    have hm := hl m mem_cons_self
    obtain ⟨hstopped, howed⟩ := ih fun m' hm' => hl m' (mem_cons_of_mem m hm')
    cases m with
    | opened fd => exact ⟨hstopped, howed⟩
    | closed fd => exact ⟨hstopped, howed⟩
    | returned k after => exact ⟨hstopped, howed⟩
    | asked k =>
      have hk : k ≠ j := fun hkj => hj (hkj ▸ hm k rfl)
      refine ⟨?_, howed⟩
      rw [← hstopped]
      simp [stoppedLast, hk]
    | stopped k =>
      have hk : k ≠ j := fun hkj => hj (hkj ▸ hm k rfl)
      rw [← hstopped, ← howed]
      simp [stoppedLast, owed, hk]
    | restarting k =>
      have hk : k ≠ j := fun hkj => hj (hkj ▸ hm k rfl)
      rw [← hstopped, ← howed]
      simp [stoppedLast, owed, hk]
    | called cause k before granted =>
      have hk : k ≠ j := fun hkj => hj (hkj ▸ hm k rfl)
      refine ⟨hstopped, ?_⟩
      rw [← howed]
      simp [owed, hk]

/-- What an operation may add to the history and do to the instance of a number. -/
structure Change (s : Supervisor) (i : Nat) (inst : Instance) (l : List Mark) (n : Nat) (inst' : Instance) : Prop where
  index : ∀ m ∈ l, ∀ k ∈ m.index, k = i
  fits : Fits (l ++ s.history) i inst'
  stopped : StaysStopped s.history → StaysStopped (l ++ s.history)
  wanted : ∀ j after, .returned j after ∈ l → after.wanted = true ∧ after.killAt = none
  logs : (l.filterMap Mark.closedFd ++ inst'.logFd.toList).Perm (l.filterMap Mark.openedFd ++ inst.logFd.toList)
  nodup : (l.filterMap Mark.openedFd).Nodup
  fresh : ∀ fd ∈ l.filterMap Mark.openedFd, s.starts ≤ fd ∧ fd < n
  starts : s.starts ≤ n

/-- A change that the history does not record, and that keeps the log pipe. -/
theorem Change.unmarked {s : Supervisor} {i : Nat} {inst inst' : Instance} (hfits : Fits s.history i inst')
    (hlog : inst'.logFd = inst.logFd) : Change s i inst [] s.starts inst' where
  index _ h := absurd h not_mem_nil
  fits := hfits
  stopped hs := hs
  wanted _ _ h := absurd h not_mem_nil
  logs := by rw [hlog]; exact .refl _
  nodup := .nil
  fresh _ h := absurd h not_mem_nil
  starts := le_refl _

namespace Supervisor

variable {units : List Unit} {answers : Nat → Answer} {s : Supervisor} {i : Nat} {inst inst' : Instance}

/-- The supervisor after such a change. -/
def changed (s : Supervisor) (i : Nat) (inst : Instance) (l : List Mark) (n : Nat) : Supervisor :=
  { s with instances := s.instances.set i inst, history := l ++ s.history, starts := n }

theorem getElem?_changed {n j : Nat} (h : s.instances[i]? = some inst) :
    (s.changed i inst' l n).instances[j]? = if j = i then some inst' else s.instances[j]? := by
  obtain ⟨hi, -⟩ := List.getElem?_eq_some_iff.mp h
  unfold changed
  rw [getElem?_set]
  by_cases hj : i = j
  · rw [if_pos hj, if_pos hi, if_pos hj.symm]
  · rw [if_neg hj, if_neg (Ne.symm hj)]

theorem inv_changed {p : Nat → Prop} {n : Nat} (h : InvFor units (· ≠ i) s) (hget : s.instances[i]? = some inst)
    (hc : Change s i inst l n inst') (hdue : p i → Due units (l ++ s.history) i inst') :
    InvFor units p (s.changed i inst' l n) where
  same := h.same
  fits j x hx := by
    rw [getElem?_changed hget] at hx
    split at hx
    next hj =>
      obtain rfl := some.inj hx
      exact hj ▸ hc.fits
    next hj =>
      have hfits := h.fits j x hx
      obtain ⟨hstopped, howed⟩ := marks_elsewhere hc.index hj s.history
      refine ⟨hfits.running, hfits.killAt, fun hs => hfits.stopped (hstopped ▸ hs), fun ho => hfits.owed (howed ▸ ho)⟩
  due j x hx hp := by
    rw [getElem?_changed hget] at hx
    split at hx
    next hj =>
      obtain rfl := some.inj hx
      subst hj
      exact hdue hp
    next hj =>
      obtain ⟨-, howed⟩ := marks_elsewhere hc.index hj s.history
      exact fun ho => h.due j x hx hj (howed ▸ ho)
  unborn j hj := by
    have hlen : s.instances.length ≤ j := by simpa [changed] using hj
    have hi := (List.getElem?_eq_some_iff.mp hget).1
    obtain ⟨hstopped, howed⟩ := marks_elsewhere hc.index (show j ≠ i by omega) s.history
    exact ⟨hstopped.trans (h.unborn j hlen).1, howed.trans (h.unborn j hlen).2⟩
  stopped := hc.stopped h.stopped
  wanted j after hm := by
    rcases mem_append.mp hm with hl | hh
    · exact hc.wanted j after hl
    · exact h.wanted j after hh
  logs := by
    have hset := filterMap_set hget inst'
    have hlogs := h.logs
    have hnew := hc.logs
    unfold changed
    dsimp only
    rw [filterMap_append, filterMap_append]
    rw [perm_iff_count] at hset hlogs hnew ⊢
    intro fd
    have h1 := hset fd
    have h2 := hlogs fd
    have h3 := hnew fd
    simp only [count_append] at h1 h2 h3 ⊢
    omega
  nodup := by
    unfold changed
    dsimp only
    rw [filterMap_append]
    refine nodup_append.mpr ⟨hc.nodup, h.nodup, fun fd hfd fd' hfd' heq => ?_⟩
    have h1 := (hc.fresh fd hfd).1
    have h2 := h.fresh fd' hfd'
    omega
  fresh fd hfd := by
    unfold changed at hfd ⊢
    dsimp only at hfd ⊢
    rw [filterMap_append] at hfd
    rcases mem_append.mp hfd with hl | hh
    · exact (hc.fresh fd hl).2
    · exact lt_of_lt_of_le (h.fresh fd hh) hc.starts

/-! ### Starting -/

/-- What `start` does to an instance: the marks, the number of starts and the instance after it. -/
inductive Started (s : Supervisor) (cause : Cause) (i : Nat) (inst : Instance) (a : Answer) :
    List Mark → Nat → Instance → Prop where
  | running (hpid : inst.pid ≠ none) : Started s cause i inst a
      [.returned i inst, .called cause i inst ((s.unitOf inst).granted a)] s.starts inst
  | refused (hpid : inst.pid = none) : Started s cause i inst a
      [.called cause i inst ((s.unitOf inst).granted a)] (s.starts + 1) inst
  | failed (hpid : inst.pid = none) : Started s cause i inst a
      [.called cause i inst ((s.unitOf inst).granted a)] (s.starts + 1) { inst with state := .failed }
  | undone (hpid : inst.pid = none) : Started s cause i inst a
      [.closed s.starts, .opened s.starts, .called cause i inst ((s.unitOf inst).granted a)] (s.starts + 1)
      { inst with state := .failed }
  | console (hpid : inst.pid = none) (hgranted : (s.unitOf inst).granted a = true) (inst' : Instance)
      (hinst : inst' = { inst with
        pid := some a.pid, state := .running, wanted := true, startedMs := a.now, restartAt := none, logFd := none }) :
      Started s cause i inst a [.returned i inst', .called cause i inst ((s.unitOf inst).granted a)] (s.starts + 1) inst'
  | piped (hpid : inst.pid = none) (hgranted : (s.unitOf inst).granted a = true) (inst' : Instance)
      (hinst : inst' = { inst with
        pid := some a.pid, state := .running, wanted := true, startedMs := a.now, restartAt := none, logFd := some s.starts }) :
      Started s cause i inst a
        [.returned i inst', .opened s.starts, .called cause i inst ((s.unitOf inst).granted a)] (s.starts + 1) inst'

theorem changed_self (h : s.instances[i]? = some inst) (l : List Mark) (n : Nat) :
    s.changed i inst l n = { s with history := l ++ s.history, starts := n } := by
  obtain ⟨hi, hget⟩ := List.getElem?_eq_some_iff.mp h
  unfold changed
  rw [← hget, set_getElem_self]

theorem start_started (answers : Nat → Answer) (cause : Cause) (h : s.instances[i]? = some inst) :
    ∃ l n inst', (start answers s cause i).2 = s.changed i inst' l n ∧
      Started s cause i inst (answers s.starts) l n inst' := by
  unfold start
  rw [h]
  dsimp only
  cases hpid : inst.pid with
  | some pid =>
    refine ⟨_, _, _, ?_, .running (by rw [hpid]; exact nofun)⟩
    rw [changed_self h]
    rfl
  | none =>
    dsimp only
    split
    · refine ⟨_, _, _, ?_, .refused hpid⟩
      rw [changed_self h]
      rfl
    next hlayer =>
    have hon : ¬ ((s.unitOf inst).linuxLayer = true ∧ (answers s.starts).layerOff = true) := hlayer
    split
    next hconsole =>
      have hconsole : (s.unitOf inst).console = true := hconsole
      unfold launch
      split
      · exact ⟨_, _, _, rfl, .failed hpid⟩
      next hpos =>
        refine ⟨_, _, _, rfl, .console hpid ?_ _ rfl⟩
        unfold Unit.granted
        exact decide_eq_true ⟨hon, .inl hconsole, Int.not_lt.mp hpos⟩
    · split
      next hpipe =>
        unfold launch
        split
        · exact ⟨_, _, _, rfl, .undone hpid⟩
        next hpos =>
          refine ⟨_, _, _, rfl, .piped hpid ?_ _ rfl⟩
          unfold Unit.granted
          exact decide_eq_true ⟨hon, .inr hpipe, Int.not_lt.mp hpos⟩
      · refine ⟨_, _, _, ?_, .refused hpid⟩
        rw [changed_self h]
        rfl

/-- A call that `start` can answer, as it is found in the history. -/
structure Answerable (units : List Unit) (h : List Mark) (cause : Cause) (i : Nat) (before : Instance) (granted : Bool) : Prop where
  pipe : before.pid = none → granted = true → before.logFd = none
  wanted : before.pid ≠ none → before.wanted = true ∧ before.killAt = none
  timer : cause = .timer → before.pid ≠ none → (units.getD before.unit default).restart = .always
  vt : cause = .vt → stoppedLast h i = false

variable {a : Answer} {cause : Cause}

theorem Started.answerable {n : Nat} (h : Started s cause i inst a l n inst')
    (hsound : Sound units (l ++ s.history)) :
    Answerable units s.history cause i inst ((s.unitOf inst).granted a) := by
  cases h with
  | running hpid => exact ⟨hsound.1.1, hsound.1.2.1, hsound.1.2.2.1, hsound.1.2.2.2⟩
  | refused hpid => exact ⟨hsound.1.1, hsound.1.2.1, hsound.1.2.2.1, hsound.1.2.2.2⟩
  | failed hpid => exact ⟨hsound.1.1, hsound.1.2.1, hsound.1.2.2.1, hsound.1.2.2.2⟩
  | undone hpid => exact ⟨hsound.1.1, hsound.1.2.1, hsound.1.2.2.1, hsound.1.2.2.2⟩
  | console hpid hgranted inst' hinst => exact ⟨hsound.1.1, hsound.1.2.1, hsound.1.2.2.1, hsound.1.2.2.2⟩
  | piped hpid hgranted inst' hinst => exact ⟨hsound.1.1, hsound.1.2.1, hsound.1.2.2.1, hsound.1.2.2.2⟩

theorem Started.owed_called {n j : Nat} (h : Started s cause i inst a l n inst') : Services.owed (l ++ s.history) j =
    Services.owed (.called cause i inst ((s.unitOf inst).granted a) :: s.history) j := by
  cases h <;> rfl

/-- A call without a process settles what is owed. -/
theorem Started.owed {n : Nat} (h : Started s cause i inst a l n inst')
    (hpid : inst.pid = none) : Services.owed (l ++ s.history) i = false := by
  rw [h.owed_called]
  simp [Services.owed, hpid]

theorem Started.change {n : Nat} (h : Started s cause i inst a l n inst')
    (hfits : Fits s.history i inst) (hcall : Answerable units s.history cause i inst ((s.unitOf inst).granted a))
    (hlive : stoppedLast s.history i = false) : Change s i inst l n inst' := by
  cases h with
  | running hpid =>
    have howed : Services.owed (.called cause i inst ((s.unitOf inst).granted a) :: s.history) i =
        Services.owed s.history i := by
      simp [Services.owed, hpid]
    refine ⟨by simp [Mark.index], ⟨hfits.running, hfits.killAt, hfits.stopped, fun ho => hfits.owed (howed.symm.trans ho)⟩,
      fun hs => ⟨fun _ hnone => absurd hnone hpid, hs⟩, ?_, .refl _, .nil, fun _ h => absurd h not_mem_nil, le_refl _⟩
    intro j after hm
    rcases mem_pair.mp hm with h | h
    · cases h
      exact hcall.wanted hpid
    · cases h
  | refused hpid =>
    refine ⟨by simp [Mark.index], ⟨hfits.running, hfits.killAt, hfits.stopped, fun _ hne => absurd hpid hne⟩,
      fun hs => ⟨fun _ _ => hlive, hs⟩, by simp, .refl _, .nil, fun _ h => absurd h not_mem_nil, le_succ _⟩
  | failed hpid =>
    refine ⟨by simp [Mark.index], ⟨⟨nofun, fun hp => ?_⟩, hfits.killAt, hfits.stopped, fun _ hne => absurd hpid hne⟩,
      fun hs => ⟨fun _ _ => hlive, hs⟩, by simp, .refl _, .nil, fun _ h => absurd h not_mem_nil, le_succ _⟩
    rw [show inst.pid = none from hpid] at hp
    cases hp
  | undone hpid =>
    refine ⟨by simp [Mark.index], ⟨⟨nofun, fun hp => ?_⟩, hfits.killAt, hfits.stopped, fun _ hne => absurd hpid hne⟩,
      fun hs => ⟨fun _ _ => hlive, hs⟩, by simp, .refl _, nodup_singleton _, ?_, le_succ _⟩
    · rw [show inst.pid = none from hpid] at hp
      cases hp
    · intro fd hfd
      obtain rfl : fd = s.starts := mem_singleton.mp hfd
      exact ⟨le_refl _, lt_succ_self _⟩
  | console hpid hgranted inst' hinst =>
    have hkill := hfits.killAt hpid
    have hlog := hcall.pipe hpid hgranted
    have hconsole : Started s cause i inst a _ _ inst' := .console hpid hgranted inst' hinst
    have howed := hconsole.owed hpid
    subst hinst
    refine ⟨by simp [Mark.index], ⟨by simp, by simp, fun hs => ?_, fun ho => ?_⟩,
      fun hs => ⟨fun _ _ => hlive, hs⟩, ?_, ?_, .nil, fun _ h => absurd h not_mem_nil, le_succ _⟩
    · exact absurd (hs.symm.trans hlive) nofun
    · exact absurd (ho.symm.trans howed) nofun
    · intro j after hm
      rcases mem_pair.mp hm with h | h
      · cases h
        exact ⟨rfl, hkill⟩
      · cases h
    · rw [hlog]
      exact .refl _
  | piped hpid hgranted inst' hinst =>
    have hkill := hfits.killAt hpid
    have hlog := hcall.pipe hpid hgranted
    have hpiped : Started s cause i inst a _ _ inst' := .piped hpid hgranted inst' hinst
    have howed := hpiped.owed hpid
    subst hinst
    refine ⟨by simp [Mark.index], ⟨by simp, by simp, fun hs => ?_, fun ho => ?_⟩,
      fun hs => ⟨fun _ _ => hlive, hs⟩, ?_, ?_, nodup_singleton _, ?_, le_succ _⟩
    · exact absurd (hs.symm.trans hlive) nofun
    · exact absurd (ho.symm.trans howed) nofun
    · intro j after hm
      simp only [mem_cons, not_mem_nil, or_false, reduceCtorEq, Mark.returned.injEq] at hm
      rw [hm.2]
      exact ⟨rfl, hkill⟩
    · rw [hlog]
      exact .refl _
    · intro fd hfd
      obtain rfl : fd = s.starts := mem_singleton.mp hfd
      exact ⟨le_refl _, lt_succ_self _⟩

theorem start_history (answers : Nat → Answer) (cause : Cause) (i : Nat) : ∃ l, (start answers s cause i).2.history = l ++ s.history := by
  cases hget : s.instances[i]? with
  | none =>
    unfold start
    rw [hget]
    exact ⟨[], rfl⟩
  | some inst =>
    obtain ⟨l, n, inst', heq, -⟩ := start_started answers cause hget
    exact ⟨l, by rw [heq]; rfl⟩

/-- `start` keeps the invariant where it can answer, also if a restart is due now. -/
theorem inv_start (h : InvFor units (· ≠ i) s) (hget : s.instances[i]? = some inst)
    (hlive : cause ≠ .vt → stoppedLast s.history i = false)
    (hdue : inst.pid ≠ none → cause ≠ .timer → Due units s.history i inst)
    (hsound : Sound units (start answers s cause i).2.history) : Inv units (start answers s cause i).2 := by
  obtain ⟨l, n, inst', heq, hstarted⟩ := start_started answers cause hget
  rw [heq] at hsound ⊢
  have hcall := hstarted.answerable hsound
  have hlive' : stoppedLast s.history i = false := by
    by_cases hvt : cause = .vt
    · exact hcall.vt hvt
    · exact hlive hvt
  refine inv_changed h hget (hstarted.change (h.fits i inst hget) hcall hlive') fun _ => ?_
  by_cases hpid : inst.pid = none
  · have howed := hstarted.owed hpid
    exact fun ho => absurd (ho.symm.trans howed) nofun
  · cases hstarted with
    | running _ =>
      have howed : Services.owed (.called cause i inst ((s.unitOf inst).granted (answers s.starts)) :: s.history) i =
          Services.owed s.history i := by
        simp [Services.owed, hpid]
      by_cases htimer : cause = .timer
      · exact fun _ _ => ⟨hpid, hcall.timer htimer hpid⟩
      · exact fun ho => hdue hpid htimer (howed.symm.trans ho)
    | refused hnone => exact absurd hnone hpid
    | failed hnone => exact absurd hnone hpid
    | undone hnone => exact absurd hnone hpid
    | console hnone _ _ _ => exact absurd hnone hpid
    | piped hnone _ _ _ => exact absurd hnone hpid

/-! ### The other operations -/

/-- An operation on an instance that exists, and nothing else. -/
theorem keeps_change {f : Supervisor → Supervisor} (i : Nat) (hnone : ∀ s, s.instances[i]? = none → f s = s)
    (hsome : ∀ s inst, s.instances[i]? = some inst → f s = s ∨
      ∃ l inst', f s = s.changed i inst' l s.starts ∧ (Inv units s → Change s i inst l s.starts inst') ∧
        (Inv units s → Due units (l ++ s.history) i inst')) : Keeps units f := by
  intro s
  cases hget : s.instances[i]? with
  | none =>
    rw [hnone s hget]
    exact ⟨⟨[], rfl⟩, fun h _ => h⟩
  | some inst =>
    rcases hsome s inst hget with heq | ⟨l, inst', heq, hchange, hdue⟩
    · rw [heq]
      exact ⟨⟨[], rfl⟩, fun h _ => h⟩
    · rw [heq]
      exact ⟨⟨l, rfl⟩, fun h _ => inv_changed (h.mono fun _ _ => trivial) hget (hchange h) fun _ => hdue h⟩

theorem keeps_stop (now i : Nat) : Keeps units fun s => s.stop now i := by
  refine keeps_change i (fun s hget => by simp only [stop, hget]) fun s inst hget => .inr ?_
  let stopped : Instance := if inst.pid.isSome
    then { inst with wanted := false, restartAt := none, killAt := some (now + stopGraceMs) }
    else { inst with wanted := false, restartAt := none }
  have hstop : s.stop now i = s.changed i stopped [.stopped i] s.starts := by
    simp only [stop, hget]
    rfl
  have howed : owed (.stopped i :: s.history) i = false := by simp [owed]
  have hstopped : stopped.pid = inst.pid ∧ stopped.state = inst.state ∧ stopped.logFd = inst.logFd ∧ stopped.wanted = false ∧
      stopped.restartAt = none := by
    unfold stopped
    split
    · exact ⟨rfl, rfl, rfl, rfl, rfl⟩
    · exact ⟨rfl, rfl, rfl, rfl, rfl⟩
  obtain ⟨hpid, hstate, hlog, hwanted, hrestart⟩ := hstopped
  refine ⟨_, _, hstop, fun h => ?_, fun _ ho => absurd (ho.symm.trans howed) nofun⟩
  have hfits := h.fits i inst hget
  refine ⟨by simp [Mark.index], ⟨?_, fun hp => ?_, fun _ => ⟨hwanted, hrestart⟩, fun ho => absurd (ho.symm.trans howed) nofun⟩,
    fun hs => hs, by simp, by rw [hlog]; exact .refl _, .nil, fun _ h => absurd h not_mem_nil, le_refl _⟩
  · rw [hstate, hpid]
    exact hfits.running
  · have hnone : inst.pid = none := hpid.symm.trans hp
    have hkill : stopped.killAt = inst.killAt := by
      unfold stopped
      rw [hnone]
      rfl
    exact hkill.trans (hfits.killAt hnone)

theorem keeps_rearm (now i : Nat) : Keeps units fun s => s.rearm now i := by
  refine keeps_change i (fun s hget => by simp only [rearm, hget]) fun s inst hget => .inr ?_
  refine ⟨[.restarting i], { inst with restartAt := some (now + 300), wanted := true, restarts := 0 }, ?_, fun h => ?_, fun _ _ => nofun⟩
  · simp only [rearm, hget]
    rfl
  · have hfits := h.fits i inst hget
    refine ⟨by simp [Mark.index], ⟨hfits.running, hfits.killAt, ?_, fun _ _ => ⟨rfl, rfl⟩⟩, fun hs => hs, by simp, .refl _, .nil,
      fun _ h => absurd h not_mem_nil, le_refl _⟩
    intro hs
    simp [stoppedLast] at hs

theorem keeps_drain (closed : Bool) (i : Nat) : Keeps units fun s => s.drain closed i := by
  refine keeps_change i (fun s hget => by simp only [drain, hget]) fun s inst hget => ?_
  cases hlog : inst.logFd with
  | none => exact .inl (by simp only [drain, hget, hlog])
  | some fd =>
    cases closed with
    | false => exact .inl (by simp only [drain, hget, hlog]; rfl)
    | true =>
      refine .inr ⟨[.closed fd], { inst with logFd := none }, ?_, fun h => ?_, fun h => ?_⟩
      · simp only [drain, hget, hlog]
        rfl
      · have hfits := h.fits i inst hget
        refine ⟨by simp [Mark.index], ⟨hfits.running, hfits.killAt, hfits.stopped, hfits.owed⟩, fun hs => hs, by simp, ?_, .nil,
          fun _ h => absurd h not_mem_nil, le_refl _⟩
        rw [hlog]
        exact .refl _
      · exact h.due i inst hget trivial

theorem keeps_killOne (now i : Nat) : Keeps units fun s => s.killOne now i := by
  refine keeps_change i (fun s hget => by simp only [killOne, hget]) fun s inst hget => ?_
  by_cases hdue : (inst.killAt.map fun t => decide (t ≤ now)).getD false = true
  · refine .inr ⟨[], { inst with killAt := none }, ?_, fun h => ?_, fun h => h.due i inst hget trivial⟩
    · simp only [killOne, hget]
      rw [if_pos hdue]
      rfl
    · have hfits := h.fits i inst hget
      exact .unmarked ⟨hfits.running, fun _ => rfl, hfits.stopped, hfits.owed⟩ rfl
  · refine .inl ?_
    simp only [killOne, hget]
    rw [if_neg hdue]

theorem keeps_asked (units : List Unit) (i : Nat) : Keeps units fun s => if i < s.instances.length then s.mark (.asked i) else s := by
  refine keeps_change i (fun s hget => if_neg (not_lt.mpr (List.getElem?_eq_none_iff.mp hget))) fun s inst hget => .inr ?_
  have hi := (List.getElem?_eq_some_iff.mp hget).1
  refine ⟨[.asked i], inst, ?_, fun h => ?_, fun h => h.due i inst hget trivial⟩
  · rw [changed_self hget]
    exact if_pos hi
  · have hfits := h.fits i inst hget
    refine ⟨by simp [Mark.index], ⟨hfits.running, hfits.killAt, ?_, hfits.owed⟩, fun hs => hs, by simp, .refl _, .nil,
      fun _ h => absurd h not_mem_nil, le_refl _⟩
    intro hs
    simp [stoppedLast] at hs

theorem reaped_restartAt {restart : Restart} {now : Nat} {code : Int}
    (h : inst.restartAt ≠ none ∨ inst.wanted = true ∧ inst.restarts = 0 ∧ restart = .always) :
    (reaped restart now code inst).restartAt ≠ none := by
  have hburst : inst.restarts = 0 → ¬ restartBurst < (if now - inst.startedMs < 10000 then inst.restarts + 1 else 1) := by
    intro hrestarts
    rw [hrestarts]
    split
    · decide
    · decide
  unfold reaped
  dsimp only
  generalize (if now - inst.startedMs < 10000 then inst.restarts + 1 else 1) = restarts at hburst ⊢
  split
  · exact nofun
  next hagain =>
    rcases h with h | ⟨hwanted, hrestarts, hpolicy⟩
    · exact h
    · exact absurd ⟨⟨hwanted, .inl hpolicy⟩, hburst hrestarts⟩ hagain

theorem reaped_same (restart : Restart) (now : Nat) (code : Int) (inst : Instance) :
    (reaped restart now code inst).pid = none ∧ (reaped restart now code inst).killAt = none ∧
      (reaped restart now code inst).state ≠ .running ∧ (reaped restart now code inst).logFd = inst.logFd ∧
      (inst.wanted = false → inst.restartAt = none →
        (reaped restart now code inst).wanted = false ∧ (reaped restart now code inst).restartAt = none) := by
  have hstate : (if code = 0 then State.exited else State.failed) ≠ .running := by
    split
    · exact nofun
    · exact nofun
  unfold reaped
  dsimp only
  generalize (if now - inst.startedMs < 10000 then inst.restarts + 1 else 1) = restarts
  split
  next hagain => exact ⟨rfl, rfl, hstate, rfl, fun hw => absurd (hw.symm.trans hagain.1.1) nofun⟩
  next => exact ⟨rfl, rfl, hstate, rfl, fun _ hr => ⟨rfl, hr⟩⟩

/-- The part of `reap` that changes the instance. -/
def exited (s : Supervisor) (now : Nat) (code : Int) (i : Nat) : Supervisor :=
  match s.instances[i]? with
  | none => s
  | some inst => s.put i (reaped (s.unitOf inst).restart now code inst)

theorem keeps_exited (now : Nat) (code : Int) (i : Nat) : Keeps units fun s => s.exited now code i := by
  refine keeps_change i (fun s hget => by simp only [exited, hget]) fun s inst hget => .inr ?_
  obtain ⟨hpid, hkill, hstate, hlog, hstopped⟩ := reaped_same (s.unitOf inst).restart now code inst
  refine ⟨[], reaped (s.unitOf inst).restart now code inst, by simp only [exited, hget]; rfl, fun h => ?_, fun h ho hnone => ?_⟩
  · have hfits := h.fits i inst hget
    refine .unmarked ⟨⟨fun hr => absurd hr hstate, fun hp => ?_⟩, fun _ => hkill, fun hs => ?_, fun _ hne => absurd hpid hne⟩ hlog
    · rw [hpid] at hp
      cases hp
    · exact hstopped (hfits.stopped hs).1 (hfits.stopped hs).2
  · refine absurd hnone (reaped_restartAt ?_)
    by_cases hrestart : inst.restartAt = none
    · obtain ⟨hp, hpolicy⟩ := h.due i inst hget trivial ho hrestart
      obtain ⟨hwanted, hrestarts⟩ := (h.fits i inst hget).owed ho hp
      refine .inr ⟨hwanted, hrestarts, ?_⟩
      unfold unitOf
      rw [h.same]
      exact hpolicy
    · exact .inl hrestart

theorem instanceFor_cases (s : Supervisor) (name : Text) :
    (∃ o, s.instanceFor name = (o, s) ∧ ∀ i, o = some i → i < s.instances.length) ∨
    ∃ unit arg, s.instanceFor name =
      (some s.instances.length, { s with instances := s.instances ++ [newInstance unit name arg] }) := by
  unfold instanceFor
  cases hfind : s.find name with
  | some i =>
    refine .inl ⟨_, rfl, fun j hj => ?_⟩
    obtain rfl := some.inj hj
    exact (findIdx?_eq_some_iff_getElem.mp hfind).1
  | none =>
    obtain ⟨base, arg⟩ := splitName name
    dsimp only
    cases s.units.findIdx? fun u => decide (u.name = base) with
    | none => exact .inl ⟨_, rfl, nofun⟩
    | some unit =>
      dsimp only
      split
      · exact .inl ⟨_, rfl, nofun⟩
      · exact .inr ⟨unit, arg, rfl⟩

theorem keeps_instanceFor (name : Text) : Keeps units fun s => (s.instanceFor name).2 := by
  intro s
  dsimp only
  rcases instanceFor_cases s name with ⟨o, heq, -⟩ | ⟨unit, arg, heq⟩
  · rw [heq]
    exact ⟨⟨[], rfl⟩, fun h _ => h⟩
  rw [heq]
  refine ⟨⟨[], rfl⟩, fun h _ => ?_⟩
  have hget {j : Nat} {x : Instance} (hx : (s.instances ++ [newInstance unit name arg])[j]? = some x) :
      s.instances[j]? = some x ∨ j = s.instances.length ∧ x = newInstance unit name arg := by
    by_cases hj : j < s.instances.length
    · rw [getElem?_append_left hj] at hx
      exact .inl hx
    · rw [getElem?_append_right (Nat.le_of_not_lt hj)] at hx
      obtain ⟨hlt, rfl⟩ := List.getElem?_eq_some_iff.mp hx
      rw [length_singleton] at hlt
      exact .inr ⟨by omega, by simp⟩
  have hnew := h.unborn s.instances.length le_rfl
  refine ⟨h.same, fun j x hx => ?_, fun j x hx _ => ?_, fun j hj => ?_, h.stopped, h.wanted, ?_, h.nodup, h.fresh⟩
  · rcases hget hx with hold | ⟨rfl, rfl⟩
    · exact h.fits j x hold
    · exact ⟨⟨nofun, nofun⟩, fun _ => rfl, fun _ => ⟨rfl, rfl⟩, fun _ hne => absurd rfl hne⟩
  · rcases hget hx with hold | ⟨rfl, rfl⟩
    · exact h.due j x hold trivial
    · exact fun ho => absurd (ho.symm.trans hnew.2) nofun
  · refine h.unborn j ?_
    dsimp only at hj
    rw [length_append] at hj
    omega
  · have hlogs := h.logs
    dsimp only
    rw [filterMap_append]
    simpa [newInstance] using hlogs

theorem instanceFor_index {name : Text} (h : (s.instanceFor name).1 = some i) : i < (s.instanceFor name).2.instances.length := by
  rcases instanceFor_cases s name with ⟨o, heq, hlt⟩ | ⟨unit, arg, heq⟩
  · rw [heq] at h ⊢
    exact hlt i h
  · rw [heq] at h ⊢
    obtain rfl := some.inj h
    simp

theorem start_missing (cause : Cause) (hget : s.instances[i]? = none) : (start answers s cause i).2 = s := by
  unfold start
  rw [hget]

/-- A call for a terminal. -/
theorem keeps_startFreed (answers : Nat → Answer) (i : Nat) : Keeps units fun s => (start answers s .vt i).2 := by
  intro s
  dsimp only
  refine ⟨start_history answers .vt i, fun h hsound => ?_⟩
  cases hget : s.instances[i]? with
  | none =>
    rw [start_missing .vt hget]
    exact h
  | some inst =>
    exact inv_start (h.mono fun _ _ => trivial) hget (fun hne => absurd rfl hne) (fun _ _ => h.due i inst hget trivial) hsound

/-- A call for a command, which has asked for the instance. -/
theorem keeps_startAsked (answers : Nat → Answer) (i : Nat) :
    Keeps units fun s => (start answers (if i < s.instances.length then s.mark (.asked i) else s) .command i).2 := by
  intro s
  obtain ⟨⟨l, hl⟩, hkeep⟩ := keeps_asked units i s
  dsimp only at hl hkeep ⊢
  have hlive (hi : i < s.instances.length) :
      stoppedLast (if i < s.instances.length then s.mark (.asked i) else s).history i = false := by
    rw [if_pos hi]
    simp [mark, stoppedLast]
  have hlen : (if i < s.instances.length then s.mark (.asked i) else s).instances = s.instances := by
    split
    · rfl
    · rfl
  generalize (if i < s.instances.length then s.mark (.asked i) else s) = t at hl hkeep hlive hlen
  obtain ⟨l', hl'⟩ := start_history (s := t) answers .command i
  refine ⟨⟨l' ++ l, by rw [hl', hl, append_assoc]⟩, fun h hsound => ?_⟩
  have ht : Inv units t := hkeep h (sound_of_append (hl' ▸ hsound))
  cases hget : t.instances[i]? with
  | none =>
    rw [start_missing .command hget]
    exact ht
  | some inst =>
    have hi := (List.getElem?_eq_some_iff.mp hget).1
    rw [hlen] at hi
    exact inv_start (ht.mono fun _ _ => trivial) hget (fun _ => hlive hi) (fun _ _ => ht.due i inst hget trivial) hsound

theorem keeps_startNamed (cause : Cause) (hcause : cause ≠ .timer) (name : Text) :
    Keeps units fun s => (s.startNamed answers cause name).2 := by
  refine Keeps.of_eq fun s => ?_
  cases hi : (s.instanceFor name).1 with
  | none =>
    refine ⟨_, keeps_instanceFor name, ?_⟩
    unfold startNamed
    split
    next heq => rw [heq]
    next heq => rw [heq] at hi; cases hi
  | some i =>
    have hlt := instanceFor_index hi
    by_cases hcommand : cause = .command
    · refine ⟨_, (keeps_instanceFor name).comp (keeps_startAsked answers i), ?_⟩
      rw [if_pos hlt]
      unfold startNamed
      split
      next heq => rw [heq] at hi; cases hi
      next j t heq =>
        rw [heq] at hi
        obtain rfl := some.inj hi
        rw [heq, if_pos hcommand, hcommand]
    · refine ⟨_, (keeps_instanceFor name).comp (keeps_startFreed answers i), ?_⟩
      unfold startNamed
      split
      next heq => rw [heq] at hi; cases hi
      next j t heq =>
        rw [heq] at hi
        obtain rfl := some.inj hi
        have hvt : cause = .vt := by
          cases cause with
          | command => exact absurd rfl hcommand
          | timer => exact absurd rfl hcause
          | vt => rfl
        rw [heq, if_neg hcommand, hvt]

theorem keeps_startVt (tty : Text) : Keeps units fun s => s.startVt answers tty := by
  refine Keeps.of_eq fun s => ?_
  by_cases hclaimed : s.vtClaimed tty = true
  · exact ⟨_, .refl units, if_pos hclaimed⟩
  · exact ⟨_, .foldl (fun u : Unit => keeps_startNamed .vt nofun (u.name ++ tty))
      (s.units.filter fun u => u.start = .vt ∧ u.template), if_neg hclaimed⟩

theorem keeps_reapOne (now : Nat) (code : Option Int) (closed : Bool) (i : Nat) :
    Keeps units fun s => s.reapOne answers now code closed i := by
  refine Keeps.of_eq fun s => ?_
  unfold reapOne
  split
  next pid code' hpid =>
    dsimp only
    cases hget : (s.drain closed i).instances[i]? with
    | none => exact ⟨_, keeps_drain closed i, rfl⟩
    | some inst =>
      have hexited : (s.drain closed i).exited now code' i =
          (s.drain closed i).put i (reaped ((s.drain closed i).unitOf inst).restart now code' inst) := by
        simp only [exited, hget]
      dsimp only
      rw [← hexited]
      split
      · exact ⟨_, (keeps_drain closed i).comp (keeps_exited now code' i), rfl⟩
      next tty _ =>
        exact ⟨_, ((keeps_drain closed i).comp (keeps_exited now code' i)).comp (keeps_startVt tty), rfl⟩
  · exact ⟨_, .refl units, rfl⟩

theorem keeps_reap (now : Nat) (codes : Nat → Option Int) (closed : Nat → Bool) :
    Keeps units fun s => s.reap answers now codes closed :=
  .of_eq fun s => ⟨_, .foldl (fun i => keeps_reapOne now (codes i) (closed i) i) (range s.instances.length), rfl⟩

theorem keeps_killOverdue (now : Nat) : Keeps units fun s => s.killOverdue now :=
  .of_eq fun s => ⟨_, .foldl (fun i => keeps_killOne now i) (range s.instances.length), rfl⟩

theorem keeps_restartOne (answers : Nat → Answer) (now i : Nat) : Keeps units fun s => s.restartOne answers now i := by
  intro s
  dsimp only
  unfold restartOne
  cases hget : s.instances[i]? with
  | none => exact ⟨⟨[], rfl⟩, fun h _ => h⟩
  | some inst =>
    dsimp only
    split
    next hdue =>
      obtain ⟨t, ht⟩ : ∃ t, inst.restartAt = some t := by
        cases hr : inst.restartAt with
        | none => rw [hr] at hdue; cases hdue
        | some t => exact ⟨t, rfl⟩
      have hput : s.put i { inst with restartAt := none } = s.changed i { inst with restartAt := none } [] s.starts := rfl
      refine ⟨start_history answers .timer i, fun h hsound => ?_⟩
      have hfits := h.fits i inst hget
      have hchange : Change s i inst [] s.starts { inst with restartAt := none } :=
        .unmarked ⟨hfits.running, hfits.killAt, fun hs => ⟨(hfits.stopped hs).1, rfl⟩, hfits.owed⟩ rfl
      have hinv : InvFor units (· ≠ i) (s.put i { inst with restartAt := none }) := by
        rw [hput]
        exact inv_changed (h.mono fun _ _ => trivial) hget hchange fun hne => absurd rfl hne
      have hget' : (s.put i { inst with restartAt := none }).instances[i]? = some { inst with restartAt := none } := by
        rw [hput, getElem?_changed hget, if_pos rfl]
      have hlive : stoppedLast s.history i = false := by
        cases hs : stoppedLast s.history i with
        | false => rfl
        | true =>
          have hnone := (hfits.stopped hs).2
          rw [ht] at hnone
          cases hnone
      exact inv_start hinv hget' (fun _ => hlive) (fun _ hne => absurd rfl hne) hsound
    · exact ⟨⟨[], rfl⟩, fun h _ => h⟩

theorem keeps_restartDue (now : Nat) : Keeps units fun s => s.restartDue answers now :=
  .of_eq fun s => ⟨_, (keeps_killOverdue now).comp (.foldl (fun i => keeps_restartOne answers now i)
    (range (s.killOverdue now).instances.length)), rfl⟩

theorem keeps_setLayer (now : Nat) (linuxOn : Bool) : Keeps units fun s => s.setLayer answers now linuxOn := by
  refine Keeps.of_eq fun s => ?_
  cases linuxOn with
  | true =>
    exact ⟨_, .foldl (fun u : Unit => keeps_startNamed .command nofun u.name)
      (s.units.filter fun u => u.linuxLayer ∧ u.start = .boot ∧ ¬ u.template), rfl⟩
  | false =>
    have hstop (i : Nat) : Keeps units fun s => s.stopLinux now i := by
      refine Keeps.of_eq fun s => ?_
      unfold stopLinux
      split
      · exact ⟨_, .refl units, rfl⟩
      · split
        · exact ⟨_, keeps_stop now i, rfl⟩
        · exact ⟨_, .refl units, rfl⟩
    exact ⟨_, .foldl hstop (range s.instances.length), rfl⟩

theorem keeps_command (root : Bool) (now : Nat) (r : Request) : Keeps units fun s => s.command answers root now r := by
  refine Keeps.of_eq fun s => ?_
  cases r with
  | activate service =>
    unfold command activate
    dsimp only
    split
    next u _ => exact ⟨_, keeps_startNamed .command nofun u.name, rfl⟩
    · exact ⟨_, .refl units, rfl⟩
  | start name =>
    cases root with
    | false => exact ⟨_, .refl units, rfl⟩
    | true => exact ⟨_, keeps_startNamed .command nofun name, rfl⟩
  | stop name =>
    cases root with
    | false => exact ⟨_, .refl units, rfl⟩
    | true =>
      unfold command
      dsimp only
      rw [if_pos rfl]
      split
      next i _ => exact ⟨_, keeps_stop now i, rfl⟩
      · exact ⟨_, .refl units, rfl⟩
  | restart name =>
    cases root with
    | false => exact ⟨_, .refl units, rfl⟩
    | true =>
      unfold command
      dsimp only
      rw [if_pos rfl]
      split
      next i _ => exact ⟨_, (keeps_stop now i).comp (keeps_rearm now i), rfl⟩
      · exact ⟨_, keeps_startNamed .command nofun name, rfl⟩
  | layer linuxOn =>
    cases root with
    | false => exact ⟨_, .refl units, rfl⟩
    | true => exact ⟨_, keeps_setLayer now linuxOn, rfl⟩

theorem keeps_step (e : Event) : Keeps units fun s => s.step answers e := by
  cases e with
  | command root now r => exact keeps_command root now r
  | drain closed i => exact keeps_drain closed i
  | reap now codes closed => exact keeps_reap now codes closed
  | tick now => exact keeps_restartDue now

theorem keeps_run (events : List Event) : Keeps units fun s => s.run answers events := Keeps.foldl keeps_step events

/-! ### A restart that is due -/

/-- The instance waits for its restart, or its restart has come. -/
def Waits (i t : Nat) (s : Supervisor) : Prop :=
  (∃ inst, s.instances[i]? = some inst ∧ inst.pid = none ∧ inst.restartAt = some t) ∨ owed s.history i = false

theorem Started.owed_of {n j : Nat} (h : Started s cause i inst a l n inst')
    (ho : Services.owed s.history j = false) : Services.owed (l ++ s.history) j = false := by
  rw [h.owed_called]
  simp [Services.owed, ho]

/-- What `restart_due` does to an instance whose time has come. -/
theorem restartOne_due (answers : Nat → Answer) {now t : Nat} (hget : s.instances[i]? = some inst) (ht : inst.restartAt = some t) (hnow : t ≤ now) :
    ∃ l n inst', s.restartOne answers now i = s.changed i inst' l n ∧
      Started (s.put i { inst with restartAt := none }) .timer i { inst with restartAt := none } (answers s.starts) l n inst' := by
  have hput : s.put i { inst with restartAt := none } = s.changed i { inst with restartAt := none } [] s.starts := rfl
  have hget' : (s.put i { inst with restartAt := none }).instances[i]? = some { inst with restartAt := none } := by
    rw [hput, getElem?_changed hget, if_pos rfl]
  obtain ⟨l, n, inst', heq, hstarted⟩ := start_started answers .timer hget'
  refine ⟨l, n, inst', ?_, hstarted⟩
  unfold restartOne
  rw [hget]
  dsimp only
  have hdue : ((some t).map fun t => decide (t ≤ now)).getD false = true := decide_eq_true hnow
  rw [ht, if_pos hdue, heq]
  unfold changed put
  dsimp only
  rw [set_set]

theorem restartOne_idle {now : Nat} (hget : s.instances[i]? = some inst) (hidle : ∀ t, inst.restartAt = some t → now < t) :
    s.restartOne answers now i = s := by
  unfold restartOne
  rw [hget]
  refine if_neg fun hdue => ?_
  cases ht : inst.restartAt with
  | none => rw [ht] at hdue; cases hdue
  | some t =>
    rw [ht] at hdue
    exact absurd (of_decide_eq_true hdue) (not_le.mpr (hidle t ht))

theorem restartOne_cases (answers : Nat → Answer) (now j : Nat) (s : Supervisor) : s.restartOne answers now j = s ∨
    ∃ inst l n inst', s.instances[j]? = some inst ∧ s.restartOne answers now j = s.changed j inst' l n ∧
      Started (s.put j { inst with restartAt := none }) .timer j { inst with restartAt := none } (answers s.starts) l n inst' := by
  cases hget : s.instances[j]? with
  | none => exact .inl (by simp only [restartOne, hget])
  | some inst =>
    by_cases hidle : ∀ t, inst.restartAt = some t → now < t
    · exact .inl (restartOne_idle hget hidle)
    · simp only [not_forall, not_lt] at hidle
      obtain ⟨t, ht, hnow⟩ := hidle
      obtain ⟨l, n, inst', heq, hstarted⟩ := restartOne_due answers hget ht hnow
      exact .inr ⟨inst, l, n, inst', rfl, heq, hstarted⟩

theorem restartOne_owed {j : Nat} (now : Nat) (h : owed s.history i = false) : owed (s.restartOne answers now j).history i = false := by
  rcases restartOne_cases answers now j s with heq | ⟨inst, l, n, inst', -, heq, hstarted⟩
  · rw [heq]
    exact h
  · rw [heq]
    exact hstarted.owed_of (s := s.put j { inst with restartAt := none }) h

theorem waits_restartOne {t j : Nat} (now : Nat) (hj : j ≠ i) (h : Waits i t s) : Waits i t (s.restartOne answers now j) := by
  rcases h with ⟨inst, hget, hpid, ht⟩ | h
  · rcases restartOne_cases answers now j s with heq | ⟨x, l, n, inst', hx, heq, -⟩
    · rw [heq]
      exact .inl ⟨inst, hget, hpid, ht⟩
    · rw [heq]
      exact .inl ⟨inst, by rw [getElem?_changed hx, if_neg hj.symm]; exact hget, hpid, ht⟩
  · exact .inr (restartOne_owed now h)

theorem restartOne_waits {t now : Nat} (hnow : t ≤ now) (h : Waits i t s) : owed (s.restartOne answers now i).history i = false := by
  rcases h with ⟨inst, hget, hpid, ht⟩ | h
  · obtain ⟨l, n, inst', heq, hstarted⟩ := restartOne_due answers hget ht hnow
    rw [heq]
    exact hstarted.owed (s := s.put i { inst with restartAt := none }) hpid
  · exact restartOne_owed now h

theorem foldl_restartOne_owed (now : Nat) (l : List Nat) (h : owed s.history i = false) :
    owed (l.foldl (fun s j => s.restartOne answers now j) s).history i = false := by
  induction l generalizing s with
  | nil => exact h
  | cons j l ih => exact ih (restartOne_owed now h)

theorem foldl_restartOne_waits {t now : Nat} (hnow : t ≤ now) {l : List Nat} (hi : i ∈ l) (h : Waits i t s) :
    owed (l.foldl (fun s j => s.restartOne answers now j) s).history i = false := by
  induction l generalizing s with
  | nil => cases hi
  | cons j l ih =>
    by_cases hj : j = i
    · subst hj
      exact foldl_restartOne_owed now l (restartOne_waits hnow h)
    · rcases mem_cons.mp hi with rfl | hmem
      · exact absurd rfl hj
      · exact ih hmem (waits_restartOne now hj h)

/-- `kill_overdue` changes no more than the time of a kill. -/
theorem waits_killOne {t j : Nat} (now : Nat) (h : Waits i t s) :
    Waits i t (s.killOne now j) ∧ (s.killOne now j).instances.length = s.instances.length := by
  unfold killOne
  cases hx : s.instances[j]? with
  | none => exact ⟨h, rfl⟩
  | some x =>
    dsimp only
    split
    · refine ⟨?_, by unfold put; dsimp only; rw [length_set]⟩
      rcases h with ⟨inst, hget, hpid, ht⟩ | h
      · refine .inl ?_
        have hput : (s.changed j { x with killAt := none } [] s.starts).instances[i]? =
            if i = j then some { x with killAt := none } else s.instances[i]? := getElem?_changed hx
        by_cases hij : i = j
        · subst hij
          obtain rfl := some.inj (hx.symm.trans hget)
          rw [if_pos rfl] at hput
          exact ⟨_, hput, hpid, ht⟩
        · rw [if_neg hij] at hput
          exact ⟨inst, hput.trans hget, hpid, ht⟩
      · exact .inr h
    · exact ⟨h, rfl⟩

theorem foldl_killOne {t : Nat} (now : Nat) (l : List Nat) (h : Waits i t s) :
    Waits i t (l.foldl (fun s j => s.killOne now j) s) ∧
      (l.foldl (fun s j => s.killOne now j) s).instances.length = s.instances.length := by
  induction l generalizing s with
  | nil => exact ⟨h, rfl⟩
  | cons j l ih =>
    obtain ⟨hwaits, hlen⟩ := waits_killOne (j := j) now h
    obtain ⟨hrest, hlen'⟩ := ih hwaits
    exact ⟨hrest, hlen'.trans hlen⟩

theorem restartDue_waits {t now : Nat} (hnow : t ≤ now) (hi : i < s.instances.length) (h : Waits i t s) :
    owed (s.restartDue answers now).history i = false := by
  obtain ⟨hwaits, hlen⟩ := foldl_killOne now (range s.instances.length) h
  unfold restartDue killOverdue
  refine foldl_restartOne_waits hnow (mem_range.mpr ?_) hwaits
  rw [hlen]
  exact hi

end Supervisor

theorem inv_initial (units : List Unit) (managers : Bool) : Inv units (initial units managers) where
  same := rfl
  fits _ _ hget := by cases hget
  due _ _ hget := by cases hget
  unborn := fun _ _ => ⟨rfl, rfl⟩
  stopped := trivial
  wanted _ _ hm := absurd hm not_mem_nil
  logs := .refl _
  nodup := .nil
  fresh _ hm := absurd hm not_mem_nil

theorem Inv.supervised {units : List Unit} {s : Supervisor} (h : Inv units s) (answers : Nat → Answer) : Supervised answers s where
  running inst hinst := by
    obtain ⟨i, hi⟩ := mem_iff_getElem?.mp hinst
    exact (h.fits i inst hi).running
  stopped := h.stopped
  restarted i inst hget hpid ho := by
    cases ht : inst.restartAt with
    | none => exact absurd hpid (h.due i inst hget trivial ho ht).1
    | some t =>
      have hi := (List.getElem?_eq_some_iff.mp hget).1
      exact ⟨t, rfl, fun now hnow => Supervisor.restartDue_waits hnow hi (.inl ⟨inst, hget, hpid, ht⟩)⟩
  wanted := h.wanted
  logs := ⟨h.logs, h.nodup⟩

/-- In a run in which `start` is called only where it can answer, every state is supervised. -/
theorem supervised_of_sound (units : List Unit) (managers : Bool) (answers : Nat → Answer) (events : List Supervisor.Event)
    (h : Sound units ((initial units managers).run answers events).history) :
    Supervised answers ((initial units managers).run answers events) :=
  ((Supervisor.keeps_run events (initial units managers)).2 (inv_initial units managers) h).supervised answers

/-! ### Calls that `start` cannot answer -/

/-- A unit that is not restarted when it exits. -/
def clockUnit : Unit where
  name := "clock".toList
  restart := .no
  start := .manual
  provides := []
  linuxLayer := false
  console := false
  template := false
  vt := []

/-- Each start brings a process. -/
def spawns (n : Nat) : Answer := ⟨false, true, n + 10, 0⟩

open Supervisor

def clockRun (events : List Event) : Supervisor := (initial [clockUnit] false).run spawns events

def start0 : Event := .command true 0 (.start "clock".toList)

def exits (now : Nat) : Event := .reap now (fun _ => some 0) (fun _ => false)

theorem supervised_clock : Sound [clockUnit] (clockRun [start0, .tick 100, exits 200, .drain true 0, .tick 300]).history ∧
    Supervised spawns (clockRun [start0, .tick 100, exits 200, .drain true 0, .tick 300]) := by
  have hsound : Sound [clockUnit] (clockRun [start0, .tick 100, exits 200, .drain true 0, .tick 300]).history := by
    have hhistory : (clockRun [start0, .tick 100, exits 200, .drain true 0, .tick 300]).history = _ := rfl
    rw [hhistory]
    refine ⟨⟨fun _ _ => rfl, fun hne => absurd rfl hne, nofun, nofun⟩, trivial⟩
  exact ⟨hsound, supervised_of_sound [clockUnit] false spawns _ hsound⟩

/-- A restart whose old process is slow is forgotten, a start while the old process is on its way out returns
    `Ok`, and a log pipe that a child keeps open is lost with the next start. -/
theorem clock_unsupervised :
    ¬ (∀ events, Supervised spawns (clockRun events)) ∧
    ¬ Supervised spawns (clockRun [start0, .command true 1000 (.restart "clock".toList), .tick 1300, exits 2000]) ∧
    ¬ Supervised spawns (clockRun [start0, .command true 1000 (.stop "clock".toList), start0]) ∧
    ¬ Supervised spawns (clockRun [start0, exits 1000, start0]) := by
  have hslow : ¬ Supervised spawns (clockRun [start0, .command true 1000 (.restart "clock".toList), .tick 1300, exits 2000]) := by
    intro h
    obtain ⟨t, ht, -⟩ := h.restarted 0 _ rfl rfl rfl
    cases ht
  refine ⟨fun h => hslow (h _), hslow, fun h => ?_, fun h => ?_⟩
  · have hwanted := (h.wanted 0 _ mem_cons_self).1
    cases hwanted
  · have hlen := h.logs.1.length_eq
    exact absurd hlen (by decide)

end HamixOS.Services

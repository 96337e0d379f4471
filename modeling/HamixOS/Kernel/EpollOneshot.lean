import HamixOS.Kernel.Epoll

namespace HamixOS.Kernel

open Lib List Function Nat

namespace Epoll

/-!
# One-shot interests under concurrent waits

One instance, with any number of `collect` calls under way and `epoll_ctl` calls between
their locked steps.  `Sound` collects what is wanted of a state:

* each arming with `EPOLLONESHOT` has been reported at most once;
* an interest in the table that is no longer armed has been reported;
* what a `collect` is about to edit is the very interest it has tested.

The code promises none of this by itself, as `collect` edits the table by number.
`Timely` is the condition on a step under which it does.
-/

structure Shared where
  items : Items
  serial : Nat
  collects : Nat → Option Collect
  reported : List Slot

inductive Act where
  | ctl (fd file : Nat) (op : CtlOp)
  | snapshot (tid max : Nat)
  | test (tid : Nat) (bad : Bool) (revents : Nat)
  | update (tid : Nat)

namespace Shared

def step (s : Shared) : Act → Option Shared
  | .ctl fd file op =>
    some { s with items := (Epoll.ctl s.items fd s.serial file op).1, serial := s.serial + 1 }
  | .snapshot tid max =>
    match s.collects tid with
    | some _ => none
    | none => some { s with collects := Function.update s.collects tid (some (Epoll.snapshot s.items max)) }
  | .test tid bad revents =>
    match s.collects tid with
    | none => none
    | some c => some { s with collects := Function.update s.collects tid (some (Epoll.test c bad revents)) }
  | .update tid =>
    match s.collects tid with
    | none => none
    | some c =>
      if c.rest.isEmpty then
        some { s with
          items := applyEdits s.items c
          collects := Function.update s.collects tid none
          reported := s.reported ++ c.ready.map (·.2) }
      else none

end Shared

/-- The armings with `EPOLLONESHOT` in a list of reported interests. -/
def oneshots (l : List Slot) : List (Nat × Nat) := (l.filter (·.interest.oneshot)).map (·.arming)

structure Sound (s : Shared) : Prop where
  once : ∀ g, (oneshots s.reported).count g ≤ 1
  kept : ∀ fd cur, s.items.get fd = some cur → cur.interest.armed = false → cur.arming ∈ s.reported.map (·.arming)
  aimed : ∀ tid c, s.collects tid = some c → ∀ e ∈ c.stale ++ c.fired, ∀ cur, s.items.get e.1 = some cur →
    cur.arming = e.2.arming

/-- A step that does not act on what another call is in the middle of.  An `epoll_ctl` that
    changes an interest finds no `collect` about to edit it; a `collect` that finds a
    descriptor closed, or a one-shot interest ready, finds that interest still in place and
    armed, and in no other hands. -/
def Timely (s : Shared) : Act → Prop
  | .ctl fd _ op => takes s.items fd op = true → ∀ tid c, s.collects tid = some c →
      fd ∉ (c.stale ++ c.fired).map (·.1)
  | .test tid bad revents => ∀ c e rest, s.collects tid = some c → c.rest = e :: rest →
      c.ready.length < c.max → e.2.interest.armed = true →
        (bad = true → ∀ cur, s.items.get e.1 = some cur → cur.arming = e.2.arming) ∧
        (bad = false → revents ≠ 0 → e.2.interest.oneshot = true →
          (∃ cur, s.items.get e.1 = some cur ∧ cur.arming = e.2.arming ∧ cur.interest.armed = true) ∧
          ∀ tid' c', s.collects tid' = some c' → e.1 ∉ c'.fired.map (·.1))
  | _ => True

/-- What one `collect` keeps about itself. -/
structure Tracks (s : Shared) (c : Collect) : Prop where
  rest : ∀ e ∈ c.rest, e.2.arming.1 = e.1 ∧ e.2.arming.2 < s.serial
  edits : ∀ e ∈ c.stale ++ c.fired, e.2.arming.1 = e.1 ∧ e.2.arming.2 < s.serial ∧
    ∀ cur, s.items.get e.1 = some cur → cur.arming = e.2.arming
  ready : (c.ready.map (·.2)).filter (·.interest.oneshot) = c.fired.map (·.2)
  fresh : (c.fired.map (·.2.arming)).Nodup ∧ ∀ e ∈ c.fired, e.2.arming ∉ oneshots s.reported

structure Inv (s : Shared) : Prop where
  key : ∀ fd cur, s.items.get fd = some cur → cur.arming.1 = fd ∧ cur.arming.2 < s.serial
  log : ∀ g ∈ oneshots s.reported, g.2 < s.serial
  done : ∀ g ∈ oneshots s.reported, ∀ cur, s.items.get g.1 = some cur → cur.arming = g →
    cur.interest.armed = false
  once : (oneshots s.reported).Nodup
  kept : ∀ fd cur, s.items.get fd = some cur → cur.interest.armed = false → cur.arming ∈ s.reported.map (·.arming)
  each : ∀ tid c, s.collects tid = some c → Tracks s c
  apart : ∀ tid tid' c c', tid ≠ tid' → s.collects tid = some c → s.collects tid' = some c' →
    ∀ e ∈ c.fired, ∀ e' ∈ c'.fired, e.2.arming ≠ e'.2.arming

theorem Inv.sound {s : Shared} (h : Inv s) : Sound s where
  once g := nodup_iff_count.mp h.once g
  kept := h.kept
  aimed tid c hc e he := ((h.each tid c hc).edits e he).2.2

theorem oneshots_append (l m : List Slot) : oneshots (l ++ m) = oneshots l ++ oneshots m := by
  unfold oneshots
  rw [filter_append, map_append]

variable {c : Collect}

theorem Tracks.oneshots_ready {s : Shared} (h : Tracks s c) :
    oneshots (c.ready.map (·.2)) = c.fired.map (·.2.arming) := by
  unfold oneshots
  rw [h.ready, map_map]
  rfl

variable {s : Shared}

section

variable (h : Inv s)

include h

theorem Inv.ctl {fd file : Nat} {op : CtlOp} (ht : Timely s (.ctl fd file op)) :
    Inv { s with items := (Epoll.ctl s.items fd s.serial file op).1, serial := s.serial + 1 } := by
  have hget := get_ctl s.items fd s.serial file op
  -- an interest in the new table is the one just written, or an old one
  have hcases : ∀ j cur, (Epoll.ctl s.items fd s.serial file op).1.get j = some cur →
      (j = fd ∧ takes s.items fd op = true ∧ cur.arming = (fd, s.serial) ∧ cur.interest.armed = true) ∨
      (¬ (fd = j ∧ takes s.items fd op = true) ∧ s.items.get j = some cur) := by
    intro j cur hj
    rw [hget] at hj
    split_ifs at hj with hc
    · left
      obtain ⟨rfl, htakes⟩ := hc
      cases op with
      | add events data =>
        cases hj
        exact ⟨rfl, htakes, rfl, rfl⟩
      | mod events data =>
        cases hj
        exact ⟨rfl, htakes, rfl, rfl⟩
      | del => cases hj
    · exact .inr ⟨hc, hj⟩
  refine ⟨?_, ?_, ?_, h.once, ?_, ?_, h.apart⟩
  · intro j cur hj
    show _ ∧ cur.arming.2 < s.serial + 1
    rcases hcases j cur hj with ⟨rfl, -, harm, -⟩ | ⟨-, hold⟩
    · rw [harm]
      exact ⟨rfl, lt_succ_self _⟩
    · have := h.key j cur hold
      exact ⟨this.1, by omega⟩
  · intro g hg
    exact lt_succ_of_lt (h.log g hg)
  · intro g hg cur hj harm
    rcases hcases _ cur hj with ⟨-, -, hnew, -⟩ | ⟨-, hold⟩
    · have := h.log g hg
      rw [← harm, hnew] at this
      exact absurd this (lt_irrefl _)
    · exact h.done g hg cur hold harm
  · intro j cur hj hoff
    rcases hcases j cur hj with ⟨-, -, -, hon⟩ | ⟨-, hold⟩
    · rw [hoff] at hon
      cases hon
    · exact h.kept j cur hold hoff
  · intro tid c hc
    have hold := h.each tid c hc
    refine ⟨?_, ?_, hold.ready, hold.fresh⟩
    · intro e he
      have := hold.rest e he
      exact ⟨this.1, lt_succ_of_lt this.2⟩
    · intro e he
      obtain ⟨hkey, hlt, haim⟩ := hold.edits e he
      refine ⟨hkey, lt_succ_of_lt hlt, ?_⟩
      intro cur hj
      rcases hcases _ cur hj with ⟨heq, htakes, -, -⟩ | ⟨-, hcur⟩
      · refine absurd ?_ (ht htakes tid c hc)
        rw [← heq]
        exact mem_map_of_mem he
      · exact haim cur hcur

/-- A new record for one call, with the table as it is. -/
theorem Inv.track {tid : Nat} (hc : Tracks s c)
    (hapart : ∀ tid' c', tid ≠ tid' → s.collects tid' = some c' → ∀ e ∈ c.fired, ∀ e' ∈ c'.fired,
      e.2.arming ≠ e'.2.arming) :
    Inv { s with collects := Function.update s.collects tid (some c) } := by
  refine ⟨h.key, h.log, h.done, h.once, h.kept, ?_, ?_⟩
  · intro tid' c' hc'
    have hc'' : Function.update s.collects tid (some c) tid' = some c' := hc'
    by_cases heq : tid' = tid
    · rw [heq, update_self] at hc''
      cases hc''
      exact ⟨hc.rest, hc.edits, hc.ready, hc.fresh⟩
    · rw [update_of_ne heq] at hc''
      have := h.each tid' c' hc''
      exact ⟨this.rest, this.edits, this.ready, this.fresh⟩
  · intro t₁ t₂ c₁ c₂ hne h₁ h₂
    have h₁' : Function.update s.collects tid (some c) t₁ = some c₁ := h₁
    have h₂' : Function.update s.collects tid (some c) t₂ = some c₂ := h₂
    by_cases heq₁ : t₁ = tid
    · rw [heq₁, update_self] at h₁'
      cases h₁'
      rw [update_of_ne (by omega)] at h₂'
      exact hapart t₂ c₂ (by omega) h₂'
    · rw [update_of_ne heq₁] at h₁'
      by_cases heq₂ : t₂ = tid
      · rw [heq₂, update_self] at h₂'
        cases h₂'
        intro e he e' he'
        exact Ne.symm (hapart t₁ c₁ (by omega) h₁' e' he' e he)
      · rw [update_of_ne heq₂] at h₂'
        exact h.apart t₁ t₂ c₁ c₂ hne h₁' h₂'

theorem Inv.snapshot (tid max : Nat) :
    Inv { s with collects := Function.update s.collects tid (some (Epoll.snapshot s.items max)) } := by
  refine h.track ⟨?_, nofun, rfl, nodup_nil, nofun⟩ (fun _ _ _ _ => nofun)
  intro e he
  exact h.key e.1 e.2 ((OrdMap.mem_iff s.items e).mp he)

theorem Inv.test {tid : Nat} (hc : s.collects tid = some c) {bad : Bool}
    {revents : Nat} (ht : Timely s (.test tid bad revents)) :
    Inv { s with collects := Function.update s.collects tid (some (Epoll.test c bad revents)) } := by
  have hold := h.each tid c hc
  have hsame : ∀ tid' c', tid ≠ tid' → s.collects tid' = some c' → ∀ e ∈ c.fired, ∀ e' ∈ c'.fired,
      e.2.arming ≠ e'.2.arming := fun tid' c' hne hc' => h.apart tid tid' c c' hne hc hc'
  unfold Epoll.test
  split
  next => exact h.track hold hsame
  next e rest hrest =>
    have hin : e ∈ c.rest := by rw [hrest]; exact mem_cons_self
    have hrest' : ∀ x ∈ rest, x.2.arming.1 = x.1 ∧ x.2.arming.2 < s.serial := fun x hx =>
      hold.rest x (by rw [hrest]; exact mem_cons_of_mem _ hx)
    split_ifs with hmax harmed hbad hzero hone
    · exact h.track ⟨nofun, hold.edits, hold.ready, hold.fresh⟩ hsame
    · exact h.track ⟨hrest', hold.edits, hold.ready, hold.fresh⟩ hsame
    · -- the descriptor is closed: the interest is still the one in the snapshot
      have haim := (ht c e rest hc hrest (by omega) (by simpa using harmed)).1 hbad
      refine h.track ⟨hrest', ?_, hold.ready, hold.fresh⟩ hsame
      intro x hx
      rw [append_assoc, mem_append, mem_append] at hx
      rcases hx with hx | hx | hx
      · exact hold.edits x (mem_append_left _ hx)
      · rw [mem_singleton] at hx
        rw [hx]
        exact ⟨(hold.rest e hin).1, (hold.rest e hin).2, haim⟩
      · exact hold.edits x (mem_append_right _ hx)
    · exact h.track ⟨hrest', hold.edits, hold.ready, hold.fresh⟩ hsame
    · -- a one-shot interest fires
      obtain ⟨⟨cur, hcur, harm, hon⟩, hother⟩ :=
        (ht c e rest hc hrest (by omega) (by simpa using harmed)).2 (by simpa using hbad) hzero hone
      have hkey := hold.rest e hin
      have hunreported : e.2.arming ∉ oneshots s.reported := by
        intro hg
        have hoff := h.done e.2.arming hg cur (by rw [hkey.1]; exact hcur) harm
        rw [hon] at hoff
        cases hoff
      have hunfired : ∀ tid' c', s.collects tid' = some c' → ∀ x ∈ c'.fired, x.2.arming ≠ e.2.arming := by
        intro tid' c' hc' x hx heq
        refine hother tid' c' hc' ?_
        have hx1 := ((h.each tid' c' hc').edits x (mem_append_right _ hx)).1
        rw [heq, hkey.1] at hx1
        rw [hx1]
        exact mem_map_of_mem hx
      refine h.track ⟨hrest', ?_, ?_, ?_, ?_⟩ ?_
      · intro x hx
        rw [← append_assoc, mem_append] at hx
        rcases hx with hx | hx
        · exact hold.edits x hx
        · rw [mem_singleton] at hx
          rw [hx]
          refine ⟨hkey.1, hkey.2, fun cur' hcur' => ?_⟩
          rw [hcur] at hcur'
          cases hcur'
          exact harm
      · rw [map_append, filter_append, hold.ready, map_append]
        simp [hone]
      · rw [map_append, nodup_append]
        refine ⟨hold.fresh.1, by simp, ?_⟩
        intro a ha b hb hab
        obtain ⟨x, hx, rfl⟩ := mem_map.mp ha
        rw [map_singleton, mem_singleton] at hb
        exact hunfired tid c hc x hx (hab.trans hb)
      · intro x hx
        rw [mem_append, mem_singleton] at hx
        rcases hx with hx | rfl
        · exact hold.fresh.2 x hx
        · exact hunreported
      · intro tid' c' hne hc' x hx x' hx'
        rw [mem_append, mem_singleton] at hx
        rcases hx with hx | rfl
        · exact hsame tid' c' hne hc' x hx x' hx'
        · exact Ne.symm (hunfired tid' c' hc' x' hx')
    · refine h.track ⟨hrest', hold.edits, ?_, hold.fresh⟩ hsame
      rw [map_append, filter_append, hold.ready]
      simp [hone]

theorem Inv.update {tid : Nat} (hc : s.collects tid = some c) :
    Inv { s with
      items := applyEdits s.items c
      collects := Function.update s.collects tid none
      reported := s.reported ++ c.ready.map (·.2) } := by
  have hold := h.each tid c hc
  have hready := hold.oneshots_ready
  -- what is left in the table was there before, perhaps armed
  have hcases : ∀ fd cur, (applyEdits s.items c).get fd = some cur →
      (fd ∉ c.fired.map (·.1) ∧ s.items.get fd = some cur) ∨
      (fd ∈ c.fired.map (·.1) ∧ ∃ old, s.items.get fd = some old ∧ cur = disarm old) := by
    intro fd cur hcur
    rw [get_applyEdits] at hcur
    split_ifs at hcur with hstale hfired
    · obtain ⟨old, hold', heq⟩ := Option.map_eq_some_iff.mp hcur
      exact .inr ⟨hfired, old, hold', heq.symm⟩
    · exact .inl ⟨hfired, hcur⟩
  have harming : ∀ fd cur, (applyEdits s.items c).get fd = some cur →
      ∃ old, s.items.get fd = some old ∧ cur.arming = old.arming := by
    intro fd cur hcur
    rcases hcases fd cur hcur with ⟨-, hsame⟩ | ⟨-, old, hget, rfl⟩
    · exact ⟨cur, hsame, rfl⟩
    · exact ⟨old, hget, rfl⟩
  have hothers : ∀ tid' c', Function.update s.collects tid none tid' = some c' →
      tid ≠ tid' ∧ s.collects tid' = some c' := by
    intro tid' c' hc'
    by_cases heq : tid' = tid
    · rw [heq, update_self] at hc'
      cases hc'
    · rw [update_of_ne heq] at hc'
      exact ⟨Ne.symm heq, hc'⟩
  refine ⟨?_, ?_, ?_, ?_, ?_, ?_, ?_⟩
  · intro fd cur hcur
    obtain ⟨old, hget, harm⟩ := harming fd cur hcur
    rw [harm]
    exact h.key fd old hget
  · intro g hg
    rw [oneshots_append, mem_append, hready] at hg
    rcases hg with hg | hg
    · exact h.log g hg
    · obtain ⟨e, he, rfl⟩ := mem_map.mp hg
      exact (hold.edits e (mem_append_right _ he)).2.1
  · intro g hg cur hcur harm
    rw [oneshots_append, mem_append, hready] at hg
    rcases hcases g.1 cur hcur with ⟨hnot, hsame⟩ | ⟨-, old, -, rfl⟩
    · rcases hg with hg | hg
      · exact h.done g hg cur hsame harm
      · obtain ⟨e, he, rfl⟩ := mem_map.mp hg
        refine absurd ?_ hnot
        rw [(hold.edits e (mem_append_right _ he)).1]
        exact mem_map_of_mem he
    · rfl
  · rw [oneshots_append, hready, nodup_append]
    refine ⟨h.once, hold.fresh.1, ?_⟩
    intro a ha b hb hab
    obtain ⟨e, he, rfl⟩ := mem_map.mp hb
    exact hold.fresh.2 e he (hab ▸ ha)
  · intro fd cur hcur hoff
    rw [map_append, mem_append]
    rcases hcases fd cur hcur with ⟨-, hsame⟩ | ⟨hfired, old, hget, rfl⟩
    · exact .inl (h.kept fd cur hsame hoff)
    · -- disarmed here: it is the interest that `ready` reports
      right
      obtain ⟨e, he, rfl⟩ := mem_map.mp hfired
      have haim := (hold.edits e (mem_append_right _ he)).2.2 old hget
      have hmem : e.2 ∈ c.fired.map (·.2) := mem_map_of_mem he
      rw [← hold.ready] at hmem
      show old.arming ∈ _
      rw [haim]
      exact mem_map_of_mem (mem_filter.mp hmem).1
  · intro tid' c' hc'
    obtain ⟨hne, hc''⟩ := hothers tid' c' hc'
    have hother := h.each tid' c' hc''
    refine ⟨hother.rest, ?_, hother.ready, hother.fresh.1, ?_⟩
    · intro e he
      obtain ⟨hkey, hlt, haim⟩ := hother.edits e he
      refine ⟨hkey, hlt, fun cur hcur => ?_⟩
      obtain ⟨old, hget, harm⟩ := harming e.1 cur hcur
      rw [harm]
      exact haim old hget
    · intro e he
      rw [oneshots_append, mem_append, hready]
      rintro (hg | hg)
      · exact hother.fresh.2 e he hg
      · obtain ⟨x, hx, heq⟩ := mem_map.mp hg
        exact h.apart tid tid' c c' hne hc hc'' x hx e he heq
  · intro t₁ t₂ c₁ c₂ hne h₁ h₂
    exact h.apart t₁ t₂ c₁ c₂ hne (hothers t₁ c₁ h₁).2 (hothers t₂ c₂ h₂).2

theorem Inv.step {a : Act} {s' : Shared} (ht : Timely s a) (hs : s.step a = some s') : Inv s' := by
  unfold Shared.step at hs
  cases a with
  | ctl fd file op =>
    cases hs
    exact h.ctl ht
  | snapshot tid max =>
    dsimp only at hs
    split at hs
    · cases hs
    · cases hs
      exact h.snapshot tid max
  | test tid bad revents =>
    dsimp only at hs
    split at hs
    · cases hs
    next c hc =>
      cases hs
      exact h.test hc ht
  | update tid =>
    dsimp only at hs
    split at hs
    · cases hs
    next c hc =>
      split_ifs at hs
      cases hs
      exact h.update hc

end

/-- A new instance. -/
def start : Shared := ⟨OrdMap.empty, 0, fun _ => none, []⟩

theorem inv_start : Inv start := by
  refine ⟨nofun, nofun, nofun, nodup_nil, nofun, nofun, ?_⟩
  intro tid tid' c c' _ hc
  cases hc

/-- In every run whose steps are timely, a one-shot interest is reported once for each
    arming, stays armed until then, and no `collect` is about to edit another one. -/
theorem oneshot_sound (s : Shared) (h : Reach (· = start) Shared.step Timely s) : Sound s := by
  refine Inv.sound (Reach.invariant ?_ (fun _ _ _ hi ht hs => hi.step ht hs) h)
  rintro _ rfl
  exact inv_start

/-- Descriptor 5 is armed, and two waits follow each other. -/
def twoWaits : List Act :=
  [.ctl 5 0 (.add (epollOneshot + 1) 7), .snapshot 1 8, .test 1 false 1, .update 1,
    .snapshot 2 8, .test 2 false 1, .update 2]

theorem oneshot_sound_twice_waited :
    ∃ s, runLabels Shared.step start twoWaits = some s ∧ oneshots s.reported = [(5, 0)] ∧ Sound s := by
  refine ⟨_, rfl, by decide, oneshot_sound _ (Reach.admitted (.start rfl) twoWaits ?_ rfl)⟩
  refine ⟨fun _ _ _ hc => (by cases hc), fun _ h => ?_⟩
  cases h
  refine ⟨trivial, fun _ h => ?_⟩
  cases h
  refine ⟨?_, fun _ h => ?_⟩
  · rintro c e rest ⟨⟩ ⟨⟩ - -
    refine ⟨nofun, fun _ _ _ => ⟨⟨_, rfl, rfl, rfl⟩, ?_⟩⟩
    intro tid' c' hc'
    by_cases heq : tid' = 1
    · rw [heq] at hc'
      cases hc'
      exact nofun
    · have hnone := update_of_ne heq (some (Epoll.snapshot (Epoll.ctl OrdMap.empty 5 0 0
        (.add (epollOneshot + 1) 7)).1 8)) (fun _ => (none : Option Collect))
      cases hnone.symm.trans hc'
  cases h
  refine ⟨trivial, fun _ h => ?_⟩
  cases h
  refine ⟨trivial, fun _ h => ?_⟩
  cases h
  refine ⟨?_, fun _ h => ?_⟩
  · -- the interest has been disarmed, so the second wait passes over it
    rintro c e rest ⟨⟩ ⟨⟩ - harmed
    cases harmed
  cases h
  exact ⟨trivial, fun _ _ => trivial⟩

/-- Two waits that overlap both report the one arming; and an `EPOLL_CTL_MOD` between the
    test and the update of a wait is disarmed unreported. -/
theorem overlapping_waits :
    (∃ s, runLabels Shared.step start
        [.ctl 5 0 (.add (epollOneshot + 1) 7), .snapshot 1 8, .snapshot 2 8, .test 1 false 1,
          .test 2 false 1, .update 1, .update 2] = some s ∧
      (oneshots s.reported).count (5, 0) = 2 ∧ ¬ Sound s) ∧
    ∃ s, runLabels Shared.step start
        [.ctl 5 0 (.add (epollOneshot + 1) 7), .snapshot 1 8, .test 1 false 1,
          .ctl 5 0 (.mod (epollOneshot + 1) 7), .update 1] = some s ∧
      (s.items.get 5).map (fun cur => (cur.arming, cur.interest.armed)) = some ((5, 1), false) ∧
      s.reported.map (·.arming) = [(5, 0)] := by
  constructor
  · refine ⟨_, rfl, by decide, ?_⟩
    intro hs
    have := hs.once (5, 0)
    revert this
    decide
  · exact ⟨_, rfl, by decide, by decide⟩

end Epoll

end HamixOS.Kernel

import HamixOS.Kernel.SigTable
import HamixOS.Lib.Machine

namespace HamixOS.Kernel

open Lib List

/-!
# Who may signal whom

`sys_kill` compares the caller's ids with those of the thread it addresses;
`sys_tgkill` and a timer with a target thread do not, and `send` acts on the whole
process of the thread that was checked.

* `Stranger uid ruid t` — the ids of `t` match neither id of the caller;
* `Sound` — the table is well formed and every live thread carries the ids of its
  process, so that one check covers the process;
* `spared_sysKill`, `spared_sysTgkill`, `spared_checkPosixTimers` — each sender, with the
  condition it needs; `sys_kill` needs none;
* `stranger_spared` — along every run in which the calls without a check address only
  what `sys_kill`'s check lets through, no stranger of a caller is touched.
-/

namespace Thread

/-- What a signal that reaches the thread changes. -/
structure SameSig (t t' : Thread) : Prop where
  sigPending : t'.sigPending = t.sigPending
  killed : t'.killed = t.killed
  state : t'.state = t.state

theorem SameSig.trans {t t' t'' : Thread} (h : SameSig t t') (h' : SameSig t' t'') :
    SameSig t t'' :=
  ⟨h'.sigPending.trans h.sigPending, h'.killed.trans h.killed, h'.state.trans h.state⟩

/-- A thread whose ids match neither of the caller's `uid` and `ruid`. -/
def Stranger (uid ruid : Nat) (t : Thread) : Prop :=
  t.uid ≠ uid ∧ t.uid ≠ ruid ∧ t.ruid ≠ uid ∧ t.ruid ≠ ruid

/-- Nobody's ids change, and strangers are not reached. -/
def Spared (uid ruid : Nat) (t t' : Thread) : Prop :=
  SameIds t t' ∧ (Stranger uid ruid t → SameSig t t')

theorem SameIds.stranger {uid ruid : Nat} {t t' : Thread} (h : SameIds t t') :
    Stranger uid ruid t' ↔ Stranger uid ruid t := by
  unfold Stranger
  rw [h.1, h.2]

theorem tracks_spared (uid ruid : Nat) :
    Tracks (Spared uid ruid) (fun t => ¬ Stranger uid ruid t) where
  refl := fun _ => ⟨⟨rfl, rfl⟩, fun _ => ⟨rfl, rfl, rfl⟩⟩
  trans := fun h h' => ⟨tracks_sameIds.trans h.1 h'.1,
    fun hstr => (h.2 hstr).trans (h'.2 (h.1.stranger.mpr hstr))⟩
  stable := fun h hq hstr => hq (h.1.stranger.mp hstr)
  mark := fun code hq => ⟨tracks_sameIds.mark code trivial, fun hstr => absurd hstr hq⟩
  pend := fun sig sender hq => ⟨tracks_sameIds.pend sig sender trivial, fun hstr => absurd hstr hq⟩
  exitSignal := fun _ _ => ⟨⟨rfl, rfl⟩, fun _ => ⟨rfl, rfl, rfl⟩⟩
  timers := fun _ _ => ⟨⟨rfl, rfl⟩, fun _ => ⟨rfl, rfl, rfl⟩⟩

end Thread

namespace Procs

open Thread

variable {R : Thread → Thread → Prop} {s s' : Procs}

/-! ### One process, one set of ids -/

/-- The table is well formed, and every live thread carries the ids of its process. -/
structure Sound (s : Procs) : Prop extends Formed s where
  ids : ∀ t ∈ s.tasks, ∀ m ∈ s.tasks, t.live → m.live → m.leader = t.leader →
    m.uid = t.uid ∧ m.ruid = t.ruid

theorem Boot.sound (h : Boot s) : Sound s where
  toFormed := h.formed
  ids := by
    intro t ht m hm _ _ hsame
    have hpid : m.pid = t.pid := by rw [← h.self m hm, ← h.self t ht, hsame]
    rw [inj_on_of_nodup_map h.nodup hm ht hpid]
    exact ⟨rfl, rfl⟩

theorem Moves.sound (hs : Moves R s s') (hR : ∀ t t', R t t' → SameIds t t') (h : Sound s) :
    Sound s' where
  toFormed := hs.formed h.toFormed
  ids := by
    intro t' ht' m' hm' hlt hlm hlead
    obtain ⟨t, ht, hid, hr⟩ := hs.mem ht'
    obtain ⟨m, hm, hidm, hrm⟩ := hs.mem hm'
    have := h.ids t ht m hm (hid.live ▸ hlt) (hidm.live ▸ hlm)
      (by rw [← hidm.leader, hlead, hid.leader])
    rw [(hR m m' hrm).1, (hR m m' hrm).2, (hR t t' hr).1, (hR t t' hr).2]
    exact this

variable {uid ruid : Nat}

theorem Moves.sound_spared (hs : Moves (Spared uid ruid) s s') (h : Sound s) :
    Sound s' :=
  hs.sound (fun _ _ hr => hr.1) h

theorem Moves.sound_ids (hs : Moves SameIds s s') (h : Sound s) : Sound s' :=
  hs.sound (fun _ _ hr => hr) h

/-- A process of one live thread may change its ids. -/
theorem Sound.setIds (hs : Sound s) {leader : Pid} (halone : s.Alone leader)
    (hself : ∀ t ∈ s.tasks, t.pid = leader → t.leader = leader) {f : Thread → Thread}
    (hf : ∀ t, SamePlace t (f t)) : Sound (s.withTask leader f) where
  toFormed := hs.toFormed.withTask hf leader
  ids := by
    intro t' ht' m' hm' hlt hlm hsame
    obtain ⟨t, ht, rfl⟩ := mem_map.mp ht'
    obtain ⟨m, hm, rfl⟩ := mem_map.mp hm'
    have hplace : ∀ x : Thread, SamePlace x (if x.pid = leader then f x else x) := by
      intro x
      split
      · exact hf x
      · exact .refl x
    rw [(hplace t).live] at hlt
    rw [(hplace m).live] at hlm
    rw [(hplace t).leader, (hplace m).leader] at hsame
    by_cases hgroup : t.leader = leader
    · -- both are the one live thread of that process
      have htp := halone t ht (inGroup_iff.mpr ⟨hgroup, hlt⟩)
      have hmp := halone m hm (inGroup_iff.mpr ⟨hsame.trans hgroup, hlm⟩)
      rw [hs.eq_of_pid ht hm (htp.trans hmp.symm)]
      exact ⟨rfl, rfl⟩
    · have hne : ∀ x ∈ s.tasks, x.leader = t.leader → x.pid ≠ leader :=
        fun x hx hxlead hxp => hgroup (hxlead ▸ hself x hx hxp)
      rw [if_neg (hne t ht rfl), if_neg (hne m hm hsame)]
      exact hs.ids t ht m hm hlt hlm hsame

/-- A new task brings its own process, or the ids of the process it joins. -/
theorem Sound.insert (hs : Sound s) {child : Thread} (hpid : child.pid = s.nextPid)
    (hlead : child.leader = child.pid ∨ ∃ l ∈ s.tasks, l.pid = child.leader ∧
      l.leader = child.leader ∧ l.live ∧ SameIds l child) (hl : child.live) :
    Sound { s with tasks := s.tasks ++ [child], nextPid := s.nextPid + 1 } where
  toFormed := by
    refine hs.toFormed.insert hpid (hlead.imp_right ?_) hl
    rintro ⟨l, hmem, h1, h2, h3, -⟩
    exact ⟨l, hmem, h1, h2, h3⟩
  ids := by
    -- the child agrees with every live thread of its process
    have hchild : ∀ t ∈ s.tasks, t.live → t.leader = child.leader →
        child.uid = t.uid ∧ child.ruid = t.ruid := by
      intro t ht htl hsame
      rcases hlead with hself | ⟨l, hmem, -, h2, h3, hu, hr⟩
      · obtain ⟨l, hmem, hlp, -, -⟩ := hs.lead t ht htl
        have hlt : l.pid < s.nextPid := hs.below l hmem
        rw [hlp, hsame, hself, hpid] at hlt
        exact absurd hlt (lt_irrefl _)
      · obtain ⟨hlu, hlr⟩ := hs.ids t ht l hmem htl h3 (h2.trans hsame.symm)
        exact ⟨hu.trans hlu, hr.trans hlr⟩
    intro t ht m hm htl hml hsame
    rcases mem_append.mp ht with ht | ht <;> rcases mem_append.mp hm with hm | hm
    · exact hs.ids t ht m hm htl hml hsame
    · rw [mem_singleton.mp hm] at hsame ⊢
      exact hchild t ht htl hsame.symm
    · rw [mem_singleton.mp ht] at hsame ⊢
      obtain ⟨hu, hr⟩ := hchild m hm hml hsame
      exact ⟨hu.symm, hr.symm⟩
    · rw [mem_singleton.mp ht, mem_singleton.mp hm]
      exact ⟨rfl, rfl⟩

/-- Fewer live threads agree all the more. -/
theorem Sound.mono (hs : Sound s) (hf : Formed s')
    (hsub : ∀ t ∈ s'.tasks, t.live → t ∈ s.tasks) : Sound s' where
  toFormed := hf
  ids := fun t ht m hm htl hml => hs.ids t (hsub t ht htl) m (hsub m hm hml) htl hml

/-! ### The calls that send -/

theorem not_stranger_of_permits {t : Thread} (h : permits uid ruid t) :
    ¬ Stranger uid ruid t := by
  rintro ⟨h1, h2, -, h4⟩
  simp [permits, h1, h2, h4] at h

/-- What passes the check for one live thread holds for its whole process. -/
theorem Sound.clear_of_permits (hs : Sound s) {t : Thread} (ht : t ∈ s.tasks)
    (hl : t.live) (h : permits uid ruid t) :
    Clear (fun t => ¬ Stranger uid ruid t) s t.leader := by
  intro m hm hlead hml hstr
  have hids : SameIds t m := hs.ids t ht m hm hl hml hlead
  exact not_stranger_of_permits h (hids.stranger.mp hstr)

variable {me : Pid}

theorem spared_killOne (hs : Sound s) (huid : uid ≠ 0)
    (b : Bool × Bool) (sig : Nat) (target : Pid) :
    Moves (Spared uid ruid) s (killOne me uid ruid (s, b) sig target).1 := by
  have hR := tracks_spared uid ruid
  unfold killOne
  simp only [ne_eq, huid, not_false_eq_true, if_true]
  split
  next t hget =>
    split
    next hperm =>
      refine moves_send hR hs.toFormed (fun x hx hl => ?_)
      rw [hget] at hx
      cases hx
      exact hs.clear_of_permits (mem_of_get hget).1 hl hperm
    next => exact .refl hR s
  next => exact .refl hR s

variable {c : Thread}

/-- `sys_kill` needs no condition: it spares every stranger of a caller that is not root. -/
theorem spared_sysKill (hs : Sound s) (hc : s.current me = some c)
    (huid : c.uid ≠ 0) (pid : Int) (sig : Nat) :
    Moves (Spared c.uid c.ruid) s (s.sysKill me pid sig).1 := by
  have hR := tracks_spared c.uid c.ruid
  have hloop : ∀ (targets : List Pid) (acc : Procs × Bool × Bool), Moves (Spared c.uid c.ruid) s acc.1 →
      Moves (Spared c.uid c.ruid) s
        (targets.foldl (fun acc target => killOne me c.uid c.ruid acc sig target) acc).1 := by
    intro targets
    induction targets with
    | nil => exact fun acc h => h
    | cons target rest ih =>
      intro acc h
      exact ih _ (h.trans hR (spared_killOne (h.sound_spared hs) huid acc.2 sig target))
  unfold sysKill
  split
  · exact .refl hR s
  dsimp only
  split
  · exact .refl hR s
  · simp only [hc, Option.map_some, Option.getD_some]
    exact hloop _ (s, false, false) (.refl hR s)

/-- The thread a call without a check addresses is live and would pass `sys_kill`'s. -/
def Addressed (s : Procs) (c : Thread) (tid : Pid) : Prop :=
  ∀ t, s.get tid = some t → t.live ∧ permits c.uid c.ruid t

theorem spared_sendThread (hs : Sound s) {me tid : Pid} {sig : Nat}
    (h : sig ≠ 0 → Addressed s c tid) :
    Moves (Spared c.uid c.ruid) s (s.sendThread me tid sig).1 := by
  refine moves_sendThread (tracks_spared _ _) hs.toFormed (fun hsig t hget => ?_)
  obtain ⟨hl, hperm⟩ := h hsig t hget
  have ht := (mem_of_get hget).1
  have hclear := hs.clear_of_permits ht hl hperm
  exact ⟨hclear t ht rfl hl, hclear, hs.toFormed.clear_leader ht hl hclear⟩

theorem spared_sysTgkill (hs : Sound s) {tgid : Int} {tid sig : Nat}
    (h : sig ≠ 0 → Addressed s c (asPid tid)) :
    Moves (Spared c.uid c.ruid) s (s.sysTgkill me tgid tid sig).1 := by
  have hR := tracks_spared c.uid c.ruid
  unfold sysTgkill
  split
  · exact .refl hR s
  split
  next =>
    split
    · exact spared_sendThread hs h
    · exact .refl hR s
  next => exact .refl hR s

theorem Addressed.moves {tid : Pid} (h : Addressed s c tid)
    (hs : Moves (Spared uid ruid) s s') : Addressed s' c tid := by
  intro t' ht'
  obtain ⟨t, ht, hid, hids, -⟩ := hs.get ht'
  obtain ⟨hl, hperm⟩ := h t ht
  refine ⟨by rw [hid.live, hl], ?_⟩
  simpa only [permits, hids.1, hids.2] using hperm

/-- The signals the timers of the caller's process fire at `now`, with their threads. -/
def due (s : Procs) (me : Pid) (now : Nat) : List (Nat × Pid) :=
  match s.current me with
  | some t => t.timers.filterMap (fun x => (expire now x).2)
  | none => []

theorem spared_checkPosixTimers (hs : Sound s)
    (hc : s.current me = some c) {now : Nat}
    (h : ∀ e ∈ s.due me now, e.2 ≠ 0 → Addressed s c e.2) :
    Moves (Spared c.uid c.ruid) s (s.checkPosixTimers me now) := by
  have hR := tracks_spared c.uid c.ruid
  have hloop : ∀ (es : List (Nat × Pid)) (s₁ : Procs),
      (∀ e ∈ es, e.2 ≠ 0 → Addressed s c e.2) → Moves (Spared c.uid c.ruid) s s₁ →
      Moves (Spared c.uid c.ruid) s (es.foldl (fire me c.pid) s₁) := by
    intro es
    induction es with
    | nil => exact fun s₁ _ h => h
    | cons e rest ih =>
      intro s₁ hes h₁
      have hs₁ := h₁.sound_spared hs
      refine ih _ (fun x hx => hes x (by simp [hx])) (h₁.trans hR ?_)
      unfold fire
      split
      next hthread => exact spared_sendThread hs₁ (fun _ => (hes e (by simp) hthread).moves h₁)
      next =>
        -- the process's own timer: the caller passes the check against itself
        refine moves_send hR hs₁.toFormed (fun t' ht' hl => ?_)
        obtain ⟨t, ht, -, hids, -⟩ := h₁.get ht'
        have htc : t = c := hs.eq_of_pid (mem_of_get ht).1 (mem_of_get hc).1 (mem_of_get ht).2
        refine hs₁.clear_of_permits (mem_of_get ht').1 hl ?_
        simp [permits, hids.1, htc]
  unfold checkPosixTimers
  rw [hc]
  dsimp only
  refine hloop _ _ (by simpa only [due, hc] using h) ?_
  exact moves_timers hR s me (·.map (fun x => (expire now x).1))

/-! ### Runs -/

/-- The calls by which a thread can make a signal reach another task. -/
def Call.Sends : Call → Prop
  | .kill _ _ => True
  | .tgkill _ _ _ => True
  | .timerCreate _ _ _ => True
  | .timerSettime _ _ _ => True
  | .checkTimers _ => True
  | _ => False

/-- The calls that make no check address only what `sys_kill` would let through, and a
    process changes its ids only while it has one live thread. -/
def Checked (s : Procs) (a : Pid × Call) : Prop :=
  match a.2 with
  | .tgkill _ tid sig =>
    ∀ c, s.current a.1 = some c → c.uid ≠ 0 → sig ≠ 0 → Addressed s c (asPid tid)
  | .checkTimers now =>
    ∀ c, s.current a.1 = some c → c.uid ≠ 0 → ∀ e ∈ s.due a.1 now, e.2 ≠ 0 → Addressed s c e.2
  | .setuid _ => s.Alone (s.currentKey a.1)
  | .setreuid _ _ => s.Alone (s.currentKey a.1)
  | .setresuid _ _ _ => s.Alone (s.currentKey a.1)
  | _ => True

theorem Sound.step (hs : Sound s) {a : Pid × Call} (hok : Checked s a)
    (h : s.step a = some s') : Sound s' := by
  have hf : Formed s' := hs.toFormed.step h
  obtain ⟨t, hget, hl⟩ := caller_of_step h
  obtain ⟨me, call⟩ := a
  have ht := (mem_of_get hget).1
  have hkey := hs.currentKey hget hl
  have hids : ∀ f : Thread → Thread, s.Alone t.leader → (∀ t, SamePlace t (f t)) →
      Sound (s.withCurrent me f) := by
    intro f halone hf
    unfold Procs.withCurrent
    rw [hkey]
    exact hs.setIds halone (hs.self_lead ht hl) hf
  simp only [Procs.step, hget, hl, not_true_eq_false, if_false] at h
  have hall := tracks_sameIds
  cases call with
  | kill pid sig => cases h; exact (moves_sysKill hall hs.toFormed me pid sig).sound_ids hs
  | tgkill tgid tid sig =>
    cases h
    exact (moves_sysTgkill hall hs.toFormed me tgid tid sig).sound_ids hs
  | timerCreate clock sevp outOk =>
    cases h
    exact (moves_timerCreate hall s me clock sevp outOk).sound_ids hs
  | timerSettime id next interval =>
    cases h
    exact (moves_timerSettime hall s me id next interval).sound_ids hs
  | checkTimers now => cases h; exact (moves_checkPosixTimers hall hs.toFormed me now).sound_ids hs
  | sigaction sig new => cases h; exact (ids_sysRtSigaction s me sig new).sound_ids hs
  | sigprocmask how set => cases h; exact (ids_sysRtSigprocmask s me how set).sound_ids hs
  | setMask mask => cases h; exact (ids_setMask s me mask).sound_ids hs
  | saveMask old => cases h; exact (ids_saveMask s me (some old)).sound_ids hs
  | deliver frameOk => cases h; exact (ids_deliverRound s me frameOk).sound_ids hs
  | sigtimedwait wanted => cases h; exact (ids_sigtimedwaitPoll s me wanted).sound_ids hs
  | setuid uid => cases h; exact hids _ (hkey ▸ hok) (setuid_samePlace _)
  | setreuid ruid euid => cases h; exact hids _ (hkey ▸ hok) (setreuid_samePlace ruid euid)
  | setresuid ruid euid suid =>
    cases h
    exact hids _ (hkey ▸ hok) (setresuid_samePlace ruid euid suid)
  | exec setUid abi =>
    dsimp only at h
    split at h
    next halone =>
      cases h
      exact (ids_takePending _ me sigwinch).sound_ids (hids _ halone (fun t => ⟨rfl, rfl, rfl⟩))
    next => cases h
  | cloneThread =>
    obtain ⟨l, hmem, hpid, hlead, hll, heq⟩ := hs.cloneThread_eq hget hl
    rw [heq] at h
    cases h
    exact hs.insert rfl (.inr ⟨l, hmem, hpid, hlead, hll, rfl, rfl⟩) rfl
  | fork =>
    obtain ⟨child, hpid, hlead, hcl, rfl⟩ := fork_eq h
    exact hs.insert hpid (.inl hlead) hcl
  | stopOthers =>
    dsimp only at h
    split at h
    · cases h; exact (ids_stopOthers s me).sound_ids hs
    · cases h
  | exit =>
    dsimp only at h
    split at h
    · cases h
    · cases h
      refine hs.mono hf (fun x' hx' hxl => ?_)
      obtain ⟨x, hx, rfl⟩ := mem_map.mp hx'
      split at hxl
      · simp [Thread.live] at hxl
      next hne => rwa [if_neg hne]
  | reap pid =>
    dsimp only at h
    split at h
    · split at h
      · cases h
      · cases h
        exact hs.mono hf (fun x hx _ => (mem_filter.mp hx).1)
    · cases h

theorem sound_of_reach (h : Reach Boot step Checked s) : Sound s :=
  h.invariant (fun _ hb => hb.sound) (fun _ _ _ hs hok hstep => hs.step hok hstep)

/-- Every stranger of a caller with these ids is still there, with the same pending set,
    the same `killed` mark and the same state. -/
def StrangersSpared (uid ruid : Nat) (s s' : Procs) : Prop :=
  ∀ t ∈ s.tasks, Stranger uid ruid t → ∃ t' ∈ s'.tasks, t'.pid = t.pid ∧
    t'.sigPending = t.sigPending ∧ t'.killed = t.killed ∧ t'.state = t.state

theorem Moves.strangersSpared (h : Moves (Spared uid ruid) s s') :
    StrangersSpared uid ruid s s' := by
  intro t ht hstr
  obtain ⟨t', ht', hid, -, hsig⟩ := h.mem_of ht
  exact ⟨t', ht', hid.pid, (hsig hstr).sigPending, (hsig hstr).killed, (hsig hstr).state⟩

/-- Along every checked run, no call of a caller that is not root reaches a stranger. -/
theorem stranger_spared {me : Pid} {call : Call} {c : Thread}
    (hreach : Reach Boot step Checked s) (hsends : call.Sends) (hok : Checked s (me, call))
    (hstep : s.step (me, call) = some s') (hc : s.current me = some c) (hroot : c.uid ≠ 0) :
    StrangersSpared c.uid c.ruid s s' := by
  have hs := sound_of_reach hreach
  have hR := tracks_spared c.uid c.ruid
  obtain ⟨t, hget, hl⟩ := caller_of_step hstep
  simp only [step, hget, hl, not_true_eq_false, if_false] at hstep
  refine Moves.strangersSpared ?_
  cases call with
  | kill pid sig => cases hstep; exact spared_sysKill hs hc hroot pid sig
  | tgkill tgid tid sig => cases hstep; exact spared_sysTgkill hs (hok c hc hroot)
  | timerCreate clock sevp outOk => cases hstep; exact moves_timerCreate hR s me clock sevp outOk
  | timerSettime id next interval => cases hstep; exact moves_timerSettime hR s me id next interval
  | checkTimers now => cases hstep; exact spared_checkPosixTimers hs hc (hok c hc hroot)
  | _ => exact hsends.elim

/-- A process of root and one of user 1000, both Linux processes. -/
def twoUsers : Procs where
  tasks := [{ Thread.fresh 1 with abi := .linux },
    { Thread.fresh 2 with abi := .linux, uid := 1000, ruid := 1000, suid := 1000 }]
  nextPid := 3
  hint := 0

theorem boot_twoUsers : Boot twoUsers where
  nodup := by decide
  below := by decide
  self := by decide

/-- `kill(1, SIGTERM)` by user 1000 is such a step. -/
theorem stranger_spared_kill :
    StrangersSpared 1000 1000 twoUsers (twoUsers.sysKill 2 1 15).1 :=
  stranger_spared (Reach.start boot_twoUsers) (show (Call.kill 1 15).Sends from trivial) trivial
    (show twoUsers.step (2, .kill 1 15) = some _ from rfl) rfl (by decide)

/-- `tgkill(1, 1, SIGKILL)` by user 1000 marks the process of root as killed. -/
theorem tgkill_reaches_stranger :
    Reach Boot step (fun _ _ => True) twoUsers ∧
      (twoUsers.current 2).map (fun c => (c.uid, c.ruid)) = some (1000, 1000) ∧
      twoUsers.step (2, .tgkill 1 1 9) = some (twoUsers.sysTgkill 2 1 1 9).1 ∧
      ¬ StrangersSpared 1000 1000 twoUsers (twoUsers.sysTgkill 2 1 1 9).1 := by
  refine ⟨Reach.start boot_twoUsers, rfl, rfl, ?_⟩
  intro h
  obtain ⟨t', ht', hpid, -, hkilled, -⟩ :=
    h { Thread.fresh 1 with abi := .linux } (by simp [twoUsers])
      (by simp [Stranger, Thread.fresh])
  have hall : ∀ x ∈ (twoUsers.sysTgkill 2 1 1 9).1.tasks, x.pid = 1 → x.killed = some 137 := by
    decide
  rw [hall t' ht' hpid] at hkilled
  cases hkilled

end Procs

end HamixOS.Kernel

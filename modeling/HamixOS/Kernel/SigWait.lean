import HamixOS.Kernel.SigTable
import HamixOS.Lib.Machine

namespace HamixOS.Kernel

open Lib List

/-!
# A blocked signal waits

`send` and `send_thread` decide at once what becomes of a signal: where the target
blocks it and the action leaves something to deliver, `queue` sets its bit in the
pending set of one thread, the *holder*: the thread itself, or the leader for a signal
to the whole process.  `deliver` and `rt_sigtimedwait` look at the pending set of the
calling thread only.

* `Aim` — a signal for one thread or for a process: its holder and who is eligible;
* `Deliverable` — the dispositions under which a blocked signal is queued;
* `Calm` — no eligible thread but the holder unblocks the signal or waits for it;
* `Waiting` — the holder keeps the bit, and every other eligible thread blocks it;
* `blocked_signal_waits` — in every calm run after the send, the signal waits until it is
  received or ignored, and the receipt takes the one bit that the send had set.
-/

/-- The numbers of the signals that can be blocked. -/
structure Blockable (sig : Nat) : Prop where
  pos : 1 ≤ sig
  le : sig ≤ nsig
  kill : sig ≠ sigkill
  stop : sig ≠ sigstop

theorem getLsbD_bit {sig i : Nat} (h : i < 64) : (bit sig).getLsbD i = decide (i = sig - 1) := by
  unfold bit
  rw [BitVec.getLsbD_shiftLeft, BitVec.getLsbD_one]
  by_cases hi : i = sig - 1
  · simp [hi] at h ⊢
    exact h
  · have : i < sig - 1 ∨ i - (sig - 1) ≠ 0 := by omega
    rcases this with h' | h'
    · simp [h', hi]
    · simp [h', hi]

theorem and_bit_ne_zero {sig : Nat} (hpos : 1 ≤ sig) (hle : sig ≤ nsig) (x : BitVec 64) :
    (x &&& bit sig != 0) = x.getLsbD (sig - 1) := by
  have hlt : sig - 1 < 64 := by unfold nsig at hle; omega
  cases hx : x.getLsbD (sig - 1) with
  | true =>
    rw [bne_iff_ne]
    intro h0
    have := congrArg (fun y : BitVec 64 => y.getLsbD (sig - 1)) h0
    simp [hx, getLsbD_bit hlt] at this
  | false =>
    rw [bne_eq_false_iff_eq]
    refine BitVec.eq_of_getLsbD_eq (fun i hi => ?_)
    rw [BitVec.getLsbD_and, getLsbD_bit hi]
    by_cases h : i = sig - 1
    · rw [h, hx]
      simp
    · simp [h]

theorem getLsbD_not_bit {sig i : Nat} (h : i < 64) :
    (~~~bit sig).getLsbD i = decide (i ≠ sig - 1) := by
  rw [BitVec.getLsbD_not, getLsbD_bit h]
  simp [h]

variable {i : Nat}

theorem getLsbD_unblockable (h8 : i ≠ 8) (h18 : i ≠ 18) (h : i < 64) :
    unblockable.getLsbD i = false := by
  have hall : ∀ j : Fin 64, j.val ≠ 8 → j.val ≠ 18 → unblockable.getLsbD j = false := by decide
  exact hall ⟨i, h⟩ h8 h18

namespace Thread

theorem holds_eq {sig : Nat} (h : Blockable sig) (t : Thread) :
    t.holds sig = t.sigPending.getLsbD (sig - 1) :=
  and_bit_ne_zero h.pos h.le _

theorem blocks_eq {sig : Nat} (h : Blockable sig) (t : Thread) :
    t.blocks sig = t.sigMask.getLsbD (sig - 1) :=
  and_bit_ne_zero h.pos h.le _

end Thread

theorem Blockable.lt {sig : Nat} (h : Blockable sig) : sig - 1 < 64 := by
  have := h.le
  have := h.pos
  unfold nsig at *
  omega

/-- What the kernel lets a thread block contains every signal that can be blocked. -/
theorem Blockable.mask {sig : Nat} (h : Blockable sig) (m : BitVec 64) :
    (m &&& ~~~unblockable).getLsbD (sig - 1) = m.getLsbD (sig - 1) := by
  have hkill := h.kill
  have hstop := h.stop
  have hlt := h.lt
  have h8 : sig - 1 ≠ 8 := by unfold sigkill at hkill; omega
  have h18 : sig - 1 ≠ 18 := by unfold sigstop at hstop; omega
  rw [BitVec.getLsbD_and, BitVec.getLsbD_not, getLsbD_unblockable h8 h18 hlt]
  simp [hlt]

/-! ### Aims -/

/-- Whom a signal is for: one thread, or the process of `leader`, addressed by the pid
    `via` of one of its threads. -/
inductive Aim where
  | thread (tid : Pid)
  | process (leader via : Pid)
  deriving DecidableEq

namespace Aim

/-- The pid the call is given. -/
def addressed : Aim → Pid
  | thread tid => tid
  | process _ via => via

/-- The thread whose pending set takes the signal. -/
def holder : Aim → Pid
  | thread tid => tid
  | process leader _ => leader

/-- The threads that may receive it. -/
def eligible (aim : Aim) (t : Thread) : Prop :=
  match aim with
  | thread tid => t.pid = tid
  | process leader _ => t.leader = leader

instance (aim : Aim) (t : Thread) : Decidable (aim.eligible t) := by
  cases aim <;> exact inferInstanceAs (Decidable (_ = _))

/-- The call that sends it. -/
def send (aim : Aim) (s : Procs) (me : Pid) (sig : Nat) : Procs :=
  match aim with
  | thread tid => (s.sendThread me tid sig).1
  | process _ via => (s.send me via sig).1

end Aim

namespace Procs

open Thread

variable {s s' : Procs} {aim : Aim} {sig : Nat}

/-- The action of the process of `leader`. -/
def actionOf (s : Procs) (leader : Pid) (sig : Nat) : SigAction :=
  ((s.get leader).map (·.sigActions sig)).getD .dfl

/-- The dispositions under which a signal that every eligible thread blocks is queued:
    a handler for a signal to one thread; anything but ignoring for a process. -/
def Deliverable (s : Procs) (sig : Nat) : Aim → Prop
  | .thread tid => ∀ t, s.get tid = some t → (s.actionOf t.leader sig).handler ∉ [sigDfl, sigIgn]
  | .process leader _ => (∀ l, s.get leader = some l → l.abi ≠ .native) ∧ sig ≠ sigcont ∧
      (s.actionOf leader sig).handler ≠ sigIgn ∧
      ¬ ((s.actionOf leader sig).handler = sigDfl ∧ defaultIgnored sig)

/-- The call addresses a live user thread, and every eligible live thread blocks `sig`. -/
structure AllBlock (s : Procs) (aim : Aim) (sig : Nat) : Prop where
  target : ∃ t, s.get aim.addressed = some t ∧ t.live ∧ ¬ t.kernelThread ∧ aim.eligible t
  blocked : ∀ t ∈ s.tasks, t.live → aim.eligible t → t.blocks sig

theorem AllBlock.holder (hf : Formed s) (hb : AllBlock s aim sig) :
    ∃ h, s.get aim.holder = some h ∧ h.live ∧ aim.eligible h := by
  obtain ⟨t, hget, hl, -, helig⟩ := hb.target
  cases aim with
  | thread tid => exact ⟨t, hget, hl, helig⟩
  | process leader via =>
    obtain ⟨l, -, hlget, -, hlead, hll⟩ := hf.leader (mem_of_get hget).1 hl
    rw [helig] at hlget hlead
    exact ⟨l, hlget, hll, hlead⟩

theorem sendThread_blocked (hsig : Blockable sig) {me tid : Pid}
    (hb : AllBlock s (.thread tid) sig) (hd : Deliverable s sig (.thread tid)) :
    (s.sendThread me tid sig).1 = s.queue me tid sig := by
  obtain ⟨h, hget, hl, -, -⟩ := hb.target
  have hget : s.get tid = some h := hget
  have hblocks := hb.blocked h (mem_of_get hget).1 hl (mem_of_get hget).2
  have hact := hd h hget
  have h0 : sig ≠ 0 := ne_of_gt hsig.pos
  simp only [actionOf, mem_cons, not_mem_nil, or_false, not_or] at hact
  simp [sendThread, hget, hblocks, h0, hsig.kill, not_lt.mpr hsig.le, hact.1, hact.2]

theorem send_blocked (hf : Formed s) (hsig : Blockable sig) {me leader via : Pid}
    (hb : AllBlock s (.process leader via) sig) (hd : Deliverable s sig (.process leader via)) :
    (s.send me via sig).1 = s.queue me leader sig := by
  obtain ⟨t, hget, hl, hk, hlead⟩ := hb.target
  have hget : s.get via = some t := hget
  have hlead : t.leader = leader := hlead
  obtain ⟨l, hlget, -, -⟩ := hb.holder hf
  have hlget : s.get leader = some l := hlget
  obtain ⟨habi, hcont, hign, hdfl⟩ := hd
  have h0 : sig ≠ 0 := ne_of_gt hsig.pos
  -- every member blocks it, so the choice falls on the leader
  have hchosen : s.chosen leader sig = some leader := by
    have hnone : (s.groupOf leader).find? (fun m => (s.get m).any (fun t => !t.blocks sig)) = none := by
      rw [find?_eq_none]
      intro m hm
      obtain ⟨x, hx, rfl⟩ := mem_map.mp hm
      obtain ⟨hx, hin⟩ := mem_filter.mp hx
      obtain ⟨hxlead, hxl⟩ := inGroup_iff.mp hin
      simp [hf.get hx, hb.blocked x hx hxl hxlead]
    simp [chosen, hnone, hlget]
  have hact : s.actionOf leader sig = l.sigActions sig := by simp [actionOf, hlget]
  rw [hact] at hign hdfl
  simp [send, hget, hlget, hlead, hl, hk, h0, hsig.kill, hcont, habi l hlget, hign, hdfl,
    not_lt.mpr hsig.le, hchosen]

variable {me : Pid}

/-- A signal that every eligible thread blocks is queued on the holder, and that is all. -/
theorem send_eq_queue (hf : Formed s) (hsig : Blockable sig)
    (hb : AllBlock s aim sig) (hd : Deliverable s sig aim) :
    aim.send s me sig = s.queue me aim.holder sig := by
  cases aim with
  | thread tid => exact sendThread_blocked hsig hb hd
  | process leader via => exact send_blocked hf hsig hb hd

/-! ### Waiting -/

/-- The holder keeps the bit, and every other eligible live thread blocks the signal. -/
structure Waiting (s : Procs) (aim : Aim) (sig : Nat) : Prop where
  kept : ∃ h, s.get aim.holder = some h ∧ h.live ∧ aim.eligible h ∧ h.holds sig
  others : ∀ t ∈ s.tasks, t.live → aim.eligible t → t.pid ≠ aim.holder → t.blocks sig

/-- The holder does not lose `sig`, and the others do not unblock it. -/
structure Keeps (aim : Aim) (sig : Nat) (t t' : Thread) : Prop where
  pid : t'.pid = t.pid
  leader : t'.leader = t.leader
  holds : t.pid = aim.holder → t.holds sig → t'.holds sig
  blocks : t.pid ≠ aim.holder → aim.eligible t → t.blocks sig → t'.blocks sig

theorem eligible_congr {t t' : Thread} (hpid : t'.pid = t.pid) (hlead : t'.leader = t.leader) :
    aim.eligible t' ↔ aim.eligible t := by
  cases aim with
  | thread tid => simp only [Aim.eligible, hpid]
  | process leader via => simp only [Aim.eligible, hlead]

theorem Keeps.trans {t t' t'' : Thread} (h : Keeps aim sig t t') (h' : Keeps aim sig t' t'') :
    Keeps aim sig t t'' where
  pid := h'.pid.trans h.pid
  leader := h'.leader.trans h.leader
  holds := fun hp hh => h'.holds (h.pid.trans hp) (h.holds hp hh)
  blocks := fun hp he hb => h'.blocks (by rwa [h.pid]) ((eligible_congr h.pid h.leader).mpr he)
    (h.blocks hp he hb)

variable {t : Thread}

/-- An update of fields other than the mask and the pending set. -/
theorem keeps_of_eq (t' : Thread) (hpid : t'.pid = t.pid) (hlead : t'.leader = t.leader)
    (hpend : t'.sigPending = t.sigPending) (hmask : t'.sigMask = t.sigMask) : Keeps aim sig t t' where
  pid := hpid
  leader := hlead
  holds := by
    intro _ h
    rwa [Thread.holds, hpend]
  blocks := by
    intro _ _ h
    rwa [Thread.blocks, hmask]

theorem keeps_awake (t : Thread) : Keeps aim sig t t.awake := by
  unfold Thread.awake
  split <;> exact keeps_of_eq _ rfl rfl rfl rfl

theorem keeps_mark (code : Int) (t : Thread) : Keeps aim sig t (t.mark code) :=
  Keeps.trans (keeps_of_eq { t with killed := t.killed <|> some code } rfl rfl rfl rfl)
    (keeps_awake _)

theorem keeps_pend (hsig : Blockable sig) (x sender : Nat) (t : Thread) :
    Keeps aim sig t (t.pend x sender) := by
  have h : Keeps aim sig t { t with
      sigPending := t.sigPending ||| bit x
      sigSender := Function.update t.sigSender x sender } := by
    refine ⟨rfl, rfl, fun _ hh => ?_, fun _ _ hb => hb⟩
    rw [holds_eq hsig] at hh ⊢
    simp [BitVec.getLsbD_or, hh]
  unfold Thread.pend
  dsimp only
  split
  · exact h.trans (keeps_awake _)
  · exact h

theorem tracks_keeps (aim : Aim) (hsig : Blockable sig) : Tracks (Keeps aim sig) (fun _ => True) where
  refl := fun _ => keeps_of_eq _ rfl rfl rfl rfl
  trans := Keeps.trans
  stable := fun _ _ => trivial
  mark := fun code _ => keeps_mark code _
  pend := fun x sender _ => keeps_pend hsig x sender _
  exitSignal := fun _ _ => keeps_of_eq _ rfl rfl rfl rfl
  timers := fun _ _ => keeps_of_eq _ rfl rfl rfl rfl

theorem Waiting.moves (hw : Waiting s aim sig) (hf : Formed s') (h : Moves (Keeps aim sig) s s') :
    Waiting s' aim sig where
  kept := by
    obtain ⟨t, hget, hl, he, hh⟩ := hw.kept
    obtain ⟨ht, hpid⟩ := mem_of_get hget
    obtain ⟨t', ht', hplace, hk⟩ := h.mem_of ht
    refine ⟨t', ?_, by rw [hplace.live, hl], (eligible_congr hk.pid hk.leader).mpr he, hk.holds hpid hh⟩
    rw [← hpid, ← hk.pid]
    exact hf.get ht'
  others := by
    intro t' ht' hl he hne
    obtain ⟨t, ht, hplace, hk⟩ := h.mem ht'
    rw [hk.pid] at hne
    have he := (eligible_congr hk.pid hk.leader).mp he
    exact hk.blocks hne he (hw.others t ht (hplace.live ▸ hl) he hne)

/-! ### The steps of a wait -/

theorem lowest_some {x : BitVec 64} (h : lowest x = some i) : i < 64 ∧ x.getLsbD i := by
  exact ⟨by simpa using mem_of_find?_eq_some h, by simpa using find?_some h⟩

/-- The lowest bit of a set that contains bit `j`. -/
theorem lowest_le {x : BitVec 64} {j : Nat} (hj : j < 64) (h : x.getLsbD j) :
    ∃ i ≤ j, lowest x = some i := by
  cases hl : lowest x with
  | none => exact absurd h (find?_eq_none.mp hl j (by simpa using hj))
  | some i =>
    refine ⟨i, ?_, rfl⟩
    by_contra hlt
    obtain ⟨-, -, hbelow⟩ := find?_range_eq_some.mp hl
    have := hbelow j (by omega)
    simp [h] at this

/-- No eligible thread but the holder unblocks the signal or waits for it, and no thread
    that may receive it is born with the signal unblocked. -/
def Calm (aim : Aim) (sig : Nat) (s : Procs) (a : Pid × Call) : Prop :=
  ∀ t, s.get a.1 = some t → aim.eligible t →
    match a.2 with
    | .sigprocmask how (some value) => a.1 ≠ aim.holder →
        ∀ mask, newMask how t.sigMask value = some mask → mask.getLsbD (sig - 1)
    | .setMask mask => a.1 ≠ aim.holder → mask.getLsbD (sig - 1)
    | .deliver _ => a.1 ≠ aim.holder → (t.savedMask.getD t.sigMask).getLsbD (sig - 1)
    | .sigtimedwait wanted => a.1 ≠ aim.holder → ¬ wanted.getLsbD (sig - 1)
    | .cloneThread => (∀ tid, aim ≠ .thread tid) → t.blocks sig
    | _ => True

/-- The step does not end the wait: the holder does not receive the signal, does not exit,
    and the signal is not set to ignored in its process. -/
def StillOwed (aim : Aim) (sig : Nat) (s : Procs) (a : Pid × Call) : Prop :=
  match a.2 with
  | .sigaction x (some action) => x = sig →
      (∃ h, s.get aim.holder = some h ∧ h.leader = s.currentPid a.1) →
      ¬ (action.handler = sigIgn ∨ (action.handler = sigDfl ∧ defaultIgnored sig))
  | .deliver _ => a.1 = aim.holder → ∀ t, s.get a.1 = some t → lowest (ready t) ≠ some (sig - 1)
  | .sigtimedwait wanted => a.1 = aim.holder →
      ∀ t, s.get a.1 = some t → lowest (t.sigPending &&& wanted) ≠ some (sig - 1)
  | .exec _ _ => a.1 = aim.holder → sig ≠ sigwinch
  | .exit => a.1 ≠ aim.holder
  | _ => True

section

variable (hsig : Blockable sig)

include hsig

theorem keeps_clear {x : Nat} (t : Thread)
    (h : t.pid = aim.holder → x ≠ 0 ∧ x ≠ sig) :
    Keeps aim sig t { t with sigPending := t.sigPending &&& ~~~bit x } := by
  refine ⟨rfl, rfl, fun hp hh => ?_, fun _ _ hb => hb⟩
  obtain ⟨h0, hne⟩ := h hp
  have hpos := hsig.pos
  rw [holds_eq hsig] at hh ⊢
  rw [BitVec.getLsbD_and, hh, getLsbD_not_bit hsig.lt]
  simp
  omega

theorem keeps_takePending (s : Procs) (me : Pid) {x : Nat}
    (h : me = aim.holder → x ≠ 0 ∧ x ≠ sig) : Moves (Keeps aim sig) s (s.takePending me x) := by
  refine moves_withTask (tracks_keeps aim hsig).refl (fun _ => ?_) (fun t _ hp => ?_)
  · exact ⟨rfl, rfl, rfl⟩
  · exact keeps_clear hsig t (fun hp' => h (hp.symm.trans hp'))

theorem keeps_setMask {mask : BitVec 64}
    (h : ∀ t ∈ s.tasks, t.pid = me → me ≠ aim.holder → aim.eligible t → mask.getLsbD (sig - 1)) :
    Moves (Keeps aim sig) s (s.setMask me mask) := by
  refine moves_withTask (tracks_keeps aim hsig).refl (fun _ => ⟨rfl, rfl, rfl⟩) (fun t ht hp => ?_)
  refine ⟨rfl, rfl, fun _ hh => hh, fun hne he _ => ?_⟩
  rw [blocks_eq hsig, hsig.mask]
  exact h t ht hp (hp ▸ hne) he

end

/-- A handler's mask contains the mask it starts from. -/
theorem handlerMask_getLsbD {mask : BitVec 64} (h : mask.getLsbD i) (x : Nat)
    (action : SigAction) : (handlerMask mask x action).getLsbD i := by
  unfold handlerMask
  split <;> simp [BitVec.getLsbD_or, h]

section

variable (hsig : Blockable sig)

include hsig

theorem keeps_deliverRound (hf : Formed s)
    (hget : s.get me = some t)
    (hown : me = aim.holder → lowest (ready t) ≠ some (sig - 1))
    (hcalm : me ≠ aim.holder → aim.eligible t → (t.savedMask.getD t.sigMask).getLsbD (sig - 1))
    (frameOk : Bool) : Moves (Keeps aim sig) s (s.deliverRound me frameOk).1 := by
  cases hi : lowest (ready t) with
  | none =>
    rw [deliverRound_idle hget hi]
    exact .refl (tracks_keeps aim hsig) s
  | some i =>
    have htake : Moves (Keeps aim sig) s (s.takePending me (i + 1)) := by
      refine keeps_takePending hsig s me (fun hme => ⟨by omega, fun h => hown hme ?_⟩)
      rw [hi, ← h]
      simp
    have hmem : ∀ t₁ ∈ (s.takePending me (i + 1)).tasks, t₁.pid = me → aim.eligible t₁ →
        aim.eligible t := by
      intro t₁ ht₁ hp he
      obtain ⟨t₀, ht₀, hplace, -⟩ := htake.mem ht₁
      have : t₀ = t := hf.eq_of_pid ht₀ (mem_of_get hget).1
        (by rw [← hplace.pid, hp, (mem_of_get hget).2])
      rw [← this]
      exact (eligible_congr hplace.pid hplace.leader).mp he
    obtain ⟨hn, g, hplace, hrest, htasks⟩ := (rest_deliverRound hget hi frameOk).1
    refine htake.trans (tracks_keeps aim hsig) ⟨hn, g, hplace, fun t₁ ht₁ => ?_, htasks⟩
    have hr := hrest t₁ ht₁
    refine ⟨hr.pid, hr.leader, fun _ hh => by rwa [Thread.holds, hr.sigPending], fun hne he hb => ?_⟩
    rcases hr.sigMask with hm | ⟨hp, action, hm⟩
    · rwa [Thread.blocks, hm]
    · rw [blocks_eq hsig, hm, hsig.mask]
      exact handlerMask_getLsbD (hcalm (hp ▸ hne) (hmem t₁ ht₁ hp he)) _ action

theorem keeps_sigtimedwait
    (hget : s.get me = some t) {wanted : BitVec 64}
    (hown : me = aim.holder → lowest (t.sigPending &&& wanted) ≠ some (sig - 1)) :
    Moves (Keeps aim sig) s (s.sigtimedwaitPoll me wanted).1 := by
  unfold sigtimedwaitPoll
  simp only [hget]
  split
  · exact .refl (tracks_keeps aim hsig) s
  next i hi =>
    have htake : Moves (Keeps aim sig) s (s.takePending me (i + 1)) := by
      refine keeps_takePending hsig s me (fun hme => ⟨by omega, fun h => hown hme ?_⟩)
      rw [hi, ← h]
      simp
    refine htake.trans (tracks_keeps aim hsig) ?_
    refine moves_withTask (tracks_keeps aim hsig).refl (fun _ => ⟨rfl, rfl, rfl⟩) (fun t _ _ => ?_)
    exact keeps_of_eq _ rfl rfl rfl rfl

theorem keeps_sigaction (hf : Formed s) {x : Nat}
    {new : Option SigAction}
    (hown : ∀ action, new = some action → x = sig →
      (∃ h, s.get aim.holder = some h ∧ h.leader = s.currentPid me) →
      ¬ (action.handler = sigIgn ∨ (action.handler = sigDfl ∧ defaultIgnored sig))) :
    Moves (Keeps aim sig) s (s.sysRtSigaction me x new).1 := by
  have hR := tracks_keeps aim hsig
  unfold sysRtSigaction
  split
  · exact .refl hR s
  next hx =>
  cases new with
  | none => exact .refl hR s
  | some action =>
  have hset : Moves (Keeps aim sig) s (s.withCurrent me (fun t =>
      { t with sigActions := Function.update t.sigActions x action })) := by
    refine moves_withTask hR.refl (fun _ => ⟨rfl, rfl, rfl⟩) (fun t _ _ => ?_)
    exact keeps_of_eq _ rfl rfl rfl rfl
  have hpid := hset.currentPid me
  dsimp only
  split
  next hign =>
    refine hset.trans hR (moves_update (fun t => ?_) (fun t ht => ?_))
    · split <;> exact ⟨rfl, rfl, rfl⟩
    · split
      next hin =>
        -- the holder is in the group only if the signal is another one
        refine keeps_clear hsig t (fun hp => ⟨fun h0 => hx (.inl h0), fun hxs => ?_⟩)
        obtain ⟨t₀, ht₀, hplace, -⟩ := hset.mem ht
        rw [hpid] at hin
        refine hown action rfl hxs ⟨t₀, ?_, ?_⟩ (hxs ▸ hign)
        · rw [← hp, hplace.pid]
          exact hf.get ht₀
        · rw [← hplace.leader]
          exact (inGroup_iff.mp hin).1
      next => exact hR.refl t
  next => exact hset

end

section

variable (hw : Waiting s aim sig)

include hw

/-- A new task blocks the signal, or is not eligible. -/
theorem Waiting.insert {child : Thread} (h : aim.eligible child → child.blocks sig) :
    Waiting { s with tasks := s.tasks ++ [child], nextPid := s.nextPid + 1 } aim sig where
  kept := by
    obtain ⟨t, hget, rest⟩ := hw.kept
    refine ⟨t, ?_, rest⟩
    unfold Procs.get at hget ⊢
    rw [find?_append, hget]
    rfl
  others := by
    intro t ht hl he hne
    rcases mem_append.mp ht with ht | ht
    · exact hw.others t ht hl he hne
    · rw [mem_singleton.mp ht] at he ⊢
      exact h he

theorem Waiting.holder_lt (hf : Formed s) : aim.holder < s.nextPid := by
  obtain ⟨t, hget, -⟩ := hw.kept
  obtain ⟨ht, hpid⟩ := mem_of_get hget
  rw [← hpid]
  exact hf.below t ht

/-- The holder stays, and nobody new becomes eligible, when live threads leave the table. -/
theorem Waiting.shrink
    (hget : s'.get aim.holder = s.get aim.holder)
    (hsub : ∀ t ∈ s'.tasks, t.live → t ∈ s.tasks) : Waiting s' aim sig where
  kept := by
    rw [hget]
    exact hw.kept
  others := fun t ht hl => hw.others t (hsub t ht hl) hl

end

theorem Waiting.step (hsig : Blockable sig) (hf : Formed s) (hw : Waiting s aim sig)
    {a : Pid × Call} (hcalm : Calm aim sig s a) (hown : StillOwed aim sig s a)
    (hstep : s.step a = some s') : Waiting s' aim sig := by
  have hf' : Formed s' := hf.step hstep
  obtain ⟨t, hget, hl⟩ := caller_of_step hstep
  obtain ⟨me, call⟩ := a
  have hR := tracks_keeps aim hsig
  have hquiet : ∀ (pid : Pid) (f : Thread → Thread), (∀ t, SamePlace t (f t)) →
      (∀ t, (f t).sigPending = t.sigPending ∧ (f t).sigMask = t.sigMask) →
      Moves (Keeps aim sig) s (s.withTask pid f) := by
    intro pid f hplace hsame
    refine moves_withTask hR.refl hplace (fun t _ _ => ?_)
    exact keeps_of_eq _ (hplace t).pid (hplace t).leader (hsame t).1 (hsame t).2
  have hat : ∀ x ∈ s.tasks, x.pid = me → x = t := fun x hx hp =>
    hf.eq_of_pid hx (mem_of_get hget).1 (hp.trans (mem_of_get hget).2.symm)
  have hc := hcalm t hget
  simp only [Procs.step, hget, hl, not_true_eq_false, if_false] at hstep
  cases call with
  | kill pid x => cases hstep; exact hw.moves hf' (moves_sysKill hR hf me pid x)
  | tgkill tgid tid x => cases hstep; exact hw.moves hf' (moves_sysTgkill hR hf me tgid tid x)
  | timerCreate clock sevp outOk =>
    cases hstep
    exact hw.moves hf' (moves_timerCreate hR s me clock sevp outOk)
  | timerSettime id next interval =>
    cases hstep
    exact hw.moves hf' (moves_timerSettime hR s me id next interval)
  | checkTimers now => cases hstep; exact hw.moves hf' (moves_checkPosixTimers hR hf me now)
  | sigaction x new =>
    cases hstep
    refine hw.moves hf' (keeps_sigaction hsig hf ?_)
    rintro action rfl
    exact hown
  | sigprocmask how set =>
    cases hstep
    refine hw.moves hf' ?_
    unfold sysRtSigprocmask
    rw [hget]
    cases set with
    | none => exact .refl hR s
    | some value =>
      dsimp only
      split
      next mask hmask =>
        refine keeps_setMask hsig (fun x hx hp hne he => ?_)
        rw [hat x hx hp] at he
        exact hc he hne mask hmask
      next => exact .refl hR s
  | setMask mask =>
    cases hstep
    refine hw.moves hf' (keeps_setMask hsig (fun x hx hp hne he => ?_))
    rw [hat x hx hp] at he
    exact hc he hne
  | saveMask old =>
    cases hstep
    exact hw.moves hf' (hquiet me _ (fun _ => ⟨rfl, rfl, rfl⟩) (fun _ => ⟨rfl, rfl⟩))
  | deliver frameOk =>
    cases hstep
    exact hw.moves hf' (keeps_deliverRound hsig hf hget (fun h => hown h t hget)
      (fun hne he => hc he hne) frameOk)
  | sigtimedwait wanted =>
    cases hstep
    exact hw.moves hf' (keeps_sigtimedwait hsig hget (fun h => hown h t hget))
  | setuid uid =>
    cases hstep
    refine hw.moves hf' (hquiet _ _ (setuid_samePlace _) (fun t => ?_))
    unfold Procs.setuid
    split
    · exact ⟨rfl, rfl⟩
    split <;> exact ⟨rfl, rfl⟩
  | setreuid ruid euid =>
    cases hstep
    refine hw.moves hf' (hquiet _ _ (setreuid_samePlace ruid euid) (fun t => ?_))
    unfold Procs.setreuid
    dsimp only
    split <;> exact ⟨rfl, rfl⟩
  | setresuid ruid euid suid =>
    cases hstep
    refine hw.moves hf' (hquiet _ _ (setresuid_samePlace ruid euid suid) (fun t => ?_))
    unfold Procs.setresuid
    dsimp only
    split <;> exact ⟨rfl, rfl⟩
  | exec setUid abi =>
    dsimp only at hstep
    split at hstep
    · cases hstep
      have hexec : Moves (Keeps aim sig) s (s.withCurrent me (execIds setUid abi)) :=
        hquiet _ (execIds setUid abi) (fun _ => ⟨rfl, rfl, rfl⟩) (fun _ => ⟨rfl, rfl⟩)
      exact hw.moves hf' (hexec.trans hR
        (keeps_takePending hsig _ me (fun h => ⟨by decide, (hown h).symm⟩)))
    · cases hstep
  | cloneThread =>
    obtain ⟨l, -, -, -, -, heq⟩ := hf.cloneThread_eq hget hl
    rw [heq] at hstep
    cases hstep
    refine hw.insert (fun he => ?_)
    cases aim with
    | thread tid => exact absurd (hw.holder_lt hf) (not_lt.mpr (le_of_eq he))
    | process leader via => exact hc he (fun _ => Aim.noConfusion)
  | fork =>
    obtain ⟨child, hpid, hlead, hcl, rfl⟩ := fork_eq hstep
    refine hw.insert (fun he => ?_)
    have hold := hw.holder_lt hf
    have hholder : child.pid = aim.holder := by
      cases aim with
      | thread tid => exact he
      | process leader via => exact hlead.symm.trans he
    rw [← hholder, hpid] at hold
    exact absurd hold (lt_irrefl _)
  | stopOthers =>
    dsimp only at hstep
    split at hstep
    · cases hstep
      refine hw.moves hf' (moves_update (fun t => ?_) (fun t _ => ?_))
      · split
        · exact mark_samePlace 0 t
        · exact .refl t
      · split
        · exact keeps_mark 0 t
        · exact hR.refl t
    · cases hstep
  | exit =>
    dsimp only at hstep
    split at hstep
    · cases hstep
    · cases hstep
      refine hw.shrink ?_ (fun x' hx' hxl => ?_)
      · unfold exitTask
        rw [get_withTask, if_neg hown.symm]
        exact fun _ => rfl
      · obtain ⟨x, hx, rfl⟩ := mem_map.mp hx'
        split at hxl
        · simp [Thread.live] at hxl
        next hne => rwa [if_neg hne]
  | reap pid =>
    dsimp only at hstep
    split at hstep
    next z hz =>
      split at hstep
      · cases hstep
      next hzl =>
        cases hstep
        refine hw.shrink (get_removeTask ?_) (fun x hx _ => (mem_filter.mp hx).1)
        -- the holder is alive, the reaped task is not
        rintro rfl
        obtain ⟨h, hh, hhl, -⟩ := hw.kept
        rw [hz] at hh
        cases hh
        exact hzl hhl
    next => cases hstep

/-! ### Receipts -/

/-- Signal `x` left the pending set of `me`, and no other pending set changed. -/
structure Taken (me : Pid) (x : Nat) (t t' : Thread) : Prop where
  pid : t'.pid = t.pid
  sigPending : t'.sigPending = if t.pid = me then t.sigPending &&& ~~~bit x else t.sigPending

theorem taken_takePending (s : Procs) (me : Pid) (x : Nat) :
    Moves (Taken me x) s (s.takePending me x) := by
  refine moves_update (fun t => ?_) (fun t _ => ?_)
  · split <;> exact ⟨rfl, rfl, rfl⟩
  · split
    next hp => exact ⟨rfl, by rw [if_pos hp]⟩
    next hp => exact ⟨rfl, by rw [if_neg hp]⟩

theorem taken_deliverRound (hget : s.get me = some t)
    (hi : lowest (ready t) = some i) (frameOk : Bool) :
    Moves (Taken me (i + 1)) s (s.deliverRound me frameOk).1 := by
  refine (taken_takePending s me (i + 1)).comp (rest_deliverRound hget hi frameOk).1 ?_
  intro a b c hab hbc
  exact ⟨hbc.pid.trans hab.pid, hbc.sigPending.trans hab.sigPending⟩

theorem taken_sigtimedwaitPoll (hget : s.get me = some t)
    {wanted : BitVec 64} (hi : lowest (t.sigPending &&& wanted) = some i) :
    (s.sigtimedwaitPoll me wanted).2 = some (i + 1) ∧
      Moves (Taken me (i + 1)) s (s.sigtimedwaitPoll me wanted).1 := by
  unfold sigtimedwaitPoll
  simp only [hget, hi]
  refine ⟨trivial, ?_⟩
  have hsender : Moves (fun t t' : Thread => t'.pid = t.pid ∧ t'.sigPending = t.sigPending)
      (s.takePending me (i + 1)) ((s.takePending me (i + 1)).takeSender me (i + 1)) := by
    refine moves_withTask (fun _ => ⟨rfl, rfl⟩) (fun _ => ?_) (fun _ _ _ => ?_)
    · exact ⟨rfl, rfl, rfl⟩
    · exact ⟨rfl, rfl⟩
  refine (taken_takePending s me (i + 1)).comp hsender ?_
  intro a b c hab hbc
  exact ⟨hbc.1.trans hab.pid, hbc.2.trans hab.sigPending⟩

/-- What is ready in a thread is pending and not blocked. -/
theorem ready_getLsbD (hsig : Blockable sig) (t : Thread) :
    (ready t).getLsbD (sig - 1) = (t.holds sig && !t.blocks sig) := by
  unfold ready
  rw [BitVec.getLsbD_and, BitVec.getLsbD_not, hsig.mask, holds_eq hsig, blocks_eq hsig]
  simp [hsig.lt]

/-- How an eligible thread `me` receives the signal: not while it blocks it; once it is
    unblocked, or waited for by the holder, in its turn, the lowest signal first.  A
    receipt takes that one bit and nothing else. -/
structure Received (s : Procs) (aim : Aim) (sig : Nat) (me : Pid) (t : Thread) : Prop where
  blocked : t.blocks sig → ∀ frameOk, (s.deliverRound me frameOk).2.received ≠ some sig
  unblocked : ¬ t.blocks sig → ∃ i ≤ sig - 1, lowest (ready t) = some i ∧ ∀ frameOk,
    (s.deliverRound me frameOk).2.received = some (i + 1) ∧
      Moves (Taken me (i + 1)) s (s.deliverRound me frameOk).1
  waited : me = aim.holder → ∀ wanted : BitVec 64, wanted.getLsbD (sig - 1) →
    ∃ i ≤ sig - 1, lowest (t.sigPending &&& wanted) = some i ∧
      (s.sigtimedwaitPoll me wanted).2 = some (i + 1) ∧
      Moves (Taken me (i + 1)) s (s.sigtimedwaitPoll me wanted).1

theorem Waiting.holds (hw : Waiting s aim sig) (hget : s.get aim.holder = some t) :
    t.holds sig := by
  obtain ⟨h, hh, -, -, hholds⟩ := hw.kept
  rw [hget] at hh
  cases hh
  exact hholds

theorem Waiting.received (hsig : Blockable sig) (hw : Waiting s aim sig)
    (hget : s.get me = some t) (hl : t.live) (he : aim.eligible t) : Received s aim sig me t where
  blocked := by
    intro hb frameOk hrec
    cases hi : lowest (ready t) with
    | none =>
      rw [deliverRound_idle hget hi] at hrec
      cases hrec
    | some i =>
      rw [(rest_deliverRound hget hi frameOk).2, Option.some.injEq] at hrec
      have hready := (lowest_some hi).2
      rw [show i = sig - 1 by omega, ready_getLsbD hsig, hb] at hready
      simp at hready
  unblocked := by
    intro hb
    have hholder : me = aim.holder := by
      by_contra hne
      exact hb (hw.others t (mem_of_get hget).1 hl he ((mem_of_get hget).2 ▸ hne))
    have hholds := hw.holds (hholder ▸ hget)
    have hready : (ready t).getLsbD (sig - 1) := by
      rw [ready_getLsbD hsig, hholds]
      simpa using hb
    obtain ⟨i, hle, hi⟩ := lowest_le hsig.lt hready
    exact ⟨i, hle, hi, fun frameOk =>
      ⟨(rest_deliverRound hget hi frameOk).2, taken_deliverRound hget hi frameOk⟩⟩
  waited := by
    intro hholder wanted hwant
    have hholds := hw.holds (hholder ▸ hget)
    rw [holds_eq hsig] at hholds
    have hboth : (t.sigPending &&& wanted).getLsbD (sig - 1) := by
      rw [BitVec.getLsbD_and, hholds, hwant]
      rfl
    obtain ⟨i, hle, hi⟩ := lowest_le hsig.lt hboth
    exact ⟨i, hle, hi, taken_sigtimedwaitPoll hget hi⟩

/-! ### Runs -/

/-- What the send does to a thread: it sets the bit of the holder. -/
structure Queued (aim : Aim) (sig : Nat) (t t' : Thread) : Prop where
  killed : t'.killed = t.killed
  exitSignal : t'.exitSignal = t.exitSignal
  sigMask : t'.sigMask = t.sigMask
  sigPending : t'.sigPending =
    if t.pid = aim.holder then t.sigPending ||| bit sig else t.sigPending

theorem pend_fields (x sender : Nat) (t : Thread) :
    (t.pend x sender).killed = t.killed ∧ (t.pend x sender).exitSignal = t.exitSignal ∧
      (t.pend x sender).sigMask = t.sigMask ∧
      (t.pend x sender).sigPending = t.sigPending ||| bit x := by
  unfold Thread.pend Thread.awake
  dsimp only
  split
  · split <;> exact ⟨rfl, rfl, rfl, rfl⟩
  · exact ⟨rfl, rfl, rfl, rfl⟩

theorem queued_queue (s : Procs) (aim : Aim) (me : Pid) (sig : Nat) :
    Moves (Queued aim sig) s (s.queue me aim.holder sig) := by
  have hpend : Moves (Queued aim sig) s
      (s.withTask aim.holder (Thread.pend sig (s.senderOf me))) := by
    refine moves_update (fun t => ?_) (fun t _ => ?_)
    · split
      · exact pend_samePlace sig _ t
      · exact .refl t
    · obtain ⟨h1, h2, h3, h4⟩ := pend_fields sig (s.senderOf me) t
      split
      next hp => exact ⟨h1, h2, h3, by rw [if_pos hp, h4]⟩
      next hp => exact ⟨rfl, rfl, rfl, by rw [if_neg hp]⟩
  exact hpend

theorem formed_of_reach {ok : Procs → Pid × Call → Prop} (h : Reach Boot step ok s) : Formed s :=
  h.invariant (fun _ hb => hb.formed) (fun _ _ _ hf _ hstep => hf.step hstep)

theorem waiting_of_queue (hsig : Blockable sig) (hf : Formed s) (hb : AllBlock s aim sig)
    (me : Pid) : Formed (s.queue me aim.holder sig) ∧ Waiting (s.queue me aim.holder sig) aim sig := by
  have hq := queued_queue s aim me sig
  have hf' := hq.formed hf
  refine ⟨hf', ?_, ?_⟩
  · obtain ⟨h, hget, hl, he⟩ := hb.holder hf
    obtain ⟨ht, hpid⟩ := mem_of_get hget
    obtain ⟨h', ht', hplace, hfields⟩ := hq.mem_of ht
    refine ⟨h', ?_, by rw [hplace.live, hl], (eligible_congr hplace.pid hplace.leader).mpr he, ?_⟩
    · have hget' := hf'.get ht'
      rwa [hplace.pid, hpid] at hget'
    · rw [holds_eq hsig, hfields.sigPending, if_pos hpid, BitVec.getLsbD_or, getLsbD_bit hsig.lt]
      simp
  · intro t' ht' hl he _
    obtain ⟨t, ht, hplace, hfields⟩ := hq.mem ht'
    rw [Thread.blocks, hfields.sigMask]
    exact hb.blocked t ht (hplace.live ▸ hl) ((eligible_congr hplace.pid hplace.leader).mp he)

/-- The send of a signal that every eligible thread blocks terminates nobody and runs no
    handler, and in every calm run from there on, until it is received or ignored, the
    signal waits; an eligible thread that unblocks it, or the holder that waits for it,
    receives it, once. -/
theorem blocked_signal_waits {s₀ : Procs} (hreach : Reach Boot step (fun _ _ => True) s₀)
    (hsig : Blockable sig) (hb : AllBlock s₀ aim sig) (hd : Deliverable s₀ sig aim)
    (caller : Pid) :
    Moves (Queued aim sig) s₀ (aim.send s₀ caller sig) ∧
      ∀ s, Reach (· = aim.send s₀ caller sig) step
          (fun s a => Calm aim sig s a ∧ StillOwed aim sig s a) s →
        Waiting s aim sig ∧
          ∀ me t, s.get me = some t → t.live → aim.eligible t → Received s aim sig me t := by
  have hf := formed_of_reach hreach
  rw [send_eq_queue hf hsig hb hd]
  refine ⟨queued_queue s₀ aim caller sig, fun s hrun => ?_⟩
  obtain ⟨-, hw⟩ : Formed s ∧ Waiting s aim sig := by
    refine hrun.invariant (I := fun s => Formed s ∧ Waiting s aim sig) ?_ ?_
    · rintro _ rfl
      exact waiting_of_queue hsig hf hb caller
    · rintro x a x' ⟨hfx, hwx⟩ ⟨hcalm, hown⟩ hstep
      exact ⟨hfx.step hstep, hwx.step hsig hfx hcalm hown hstep⟩
  exact ⟨hw, fun me t hget hl he => hw.received hsig hget hl he⟩

/-- A Linux process that blocks every signal and has a handler for signal 10. -/
def blocker : Procs where
  tasks := [{ Thread.fresh 1 with
    abi := .linux
    sigMask := ~~~unblockable
    sigActions := fun sig => if sig = 10 then ⟨4096, 0, 0, 0⟩ else .dfl }]
  nextPid := 2
  hint := 0

/-- The same process with a second thread. -/
def twoBlockers : Procs := (blocker.cloneThread 1).getD blocker

theorem reach_twoBlockers : Reach Boot step (fun _ _ => True) twoBlockers := by
  have hboot : Boot blocker := ⟨by decide, by decide, by decide⟩
  exact Reach.next (a := (1, .cloneThread)) (.start hboot) trivial rfl

/-- Signal 10 to the process waits in `twoBlockers`. -/
theorem blocked_signal_waits_handled :
    Moves (Queued (.process 1 2) 10) twoBlockers (twoBlockers.send 1 2 10).1 := by
  have hblock : AllBlock twoBlockers (.process 1 2) 10 := ⟨⟨_, rfl, rfl, by decide, rfl⟩, by decide⟩
  refine (blocked_signal_waits reach_twoBlockers ⟨by decide, by decide, by decide, by decide⟩
    hblock ?_ 1).1
  refine ⟨?_, by decide, by decide, by decide⟩
  rintro l hl
  cases hl
  decide

/-- With `SIG_DFL`, `SIGTERM` to a thread that blocks it terminates the process at once; and
    a signal to the process that the leader blocks does not reach the thread that unblocks
    it. -/
theorem blocked_signal_lost :
    (Reach Boot step (fun _ _ => True) twoBlockers ∧ AllBlock twoBlockers (.thread 2) 15 ∧
      ∀ t ∈ (Aim.send (.thread 2) twoBlockers 1 15).tasks, t.killed = some 143) ∧
    (AllBlock twoBlockers (.process 1 1) 10 ∧
      ((((Aim.send (.process 1 1) twoBlockers 1 10).setMask 2 0).deliverRound 2 true).2 =
        .idle)) := by
  refine ⟨⟨reach_twoBlockers, ⟨⟨_, rfl, rfl, by decide, rfl⟩, by decide⟩, by decide⟩,
    ⟨⟨_, rfl, rfl, by decide, rfl⟩, by decide⟩, by decide⟩

end Procs

end HamixOS.Kernel

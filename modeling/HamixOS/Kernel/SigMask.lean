import HamixOS.Kernel.SigHint

namespace HamixOS.Kernel

open Lib Option List Function Nat Finset

/-!
# Temporary signal masks

`with_wait_mask` and `sys_rt_sigsuspend` put a mask of the caller's choice in place of the thread's own.
If a signal is ready when the wait is over the old mask is left in `saved_mask` for `deliver`, which
puts it into the frame of the handler it starts.  `deliver` takes it before it has read the action of
the signal.

* `deliver` — the whole loop, which ends after one round a signal at most (`deliver_ends`);
* `Masks` — the threads with what each is doing about its mask, and the steps they take;
* `Undoing` — the signal a thread comes back for is there and starts a handler or ends the process;
* `masks_undone` — in a run in which it always is, the thread gets its mask back.
-/

namespace Procs

open Thread

variable {s s' s'' : Procs}

/-- How `deliver` ends. -/
inductive Ending where
  | idle
  | fatal
  /-- A handler runs, and the mask in its frame is the one to go back to. -/
  | handler (mask : BitVec 64)
  deriving DecidableEq

/-- The mask `deliver` puts into the frame of a handler. -/
def frameMask (s : Procs) (me : Pid) : BitVec 64 := ((s.get me).map fun t => t.savedMask.getD t.sigMask).getD 0

/-- The loop of `deliver`, for at most so many rounds; `frameOk` is the result of `sigframe::setup`,
    which the loop comes to once. -/
def deliver (me : Pid) (frameOk : Bool) : Nat → Procs → Option (Procs × Ending)
  | 0, _ => none
  | rounds + 1, s =>
    match s.deliverRound me frameOk with
    | (s', .idle) => some (s', .idle)
    | (s', .ignored _) => deliver me frameOk rounds s'
    | (s', .fatal _) => some (s', .fatal)
    | (s', .handled _) => some (s', .handler (s.frameMask me))

/-- One round for each signal, and one that finds nothing. -/
def rounds : Nat := 65

/-- The signals pending in the thread. -/
def waitingSignals (s : Procs) (me : Pid) : Nat := ((s.get me).map fun t => signals t.sigPending).getD 0

theorem signals_le (x : BitVec 64) : signals x ≤ 64 := by
  refine (card_filter_le _ _).trans ?_
  rw [Finset.card_univ, Fintype.card_fin]

theorem waitingSignals_le (s : Procs) (me : Pid) : s.waitingSignals me ≤ 64 := by
  unfold waitingSignals
  cases s.get me with
  | none => exact zero_le _
  | some t => exact signals_le t.sigPending

/-- A round that takes a signal leaves one fewer. -/
theorem waitingSignals_deliverRound (s : Procs) (me : Pid) (frameOk : Bool) (sig : Nat)
    (h : (s.deliverRound me frameOk).2.received = some sig) :
    (s.deliverRound me frameOk).1.waitingSignals me < s.waitingSignals me := by
  cases hget : s.get me with
  | none =>
    unfold deliverRound at h
    rw [hget] at h
    cases h
  | some t =>
    cases hi : lowest (ready t) with
    | none =>
      rw [deliverRound_idle hget hi] at h
      cases h
    | some i =>
      have hpend : t.sigPending.getLsbD i := by
        have hready := lowest_mem hi
        unfold ready at hready
        rw [BitVec.getLsbD_and, Bool.and_eq_true] at hready
        exact hready.1
      have hless := signals_clear_bit hpend
      unfold waitingSignals
      rw [hget]
      cases hget' : (s.deliverRound me frameOk).1.get me with
      | none =>
        simp only [map_none, getD_none, map_some, getD_some]
        omega
      | some t' =>
        obtain ⟨u, hu, -, hrest⟩ := (rest_deliverRound hget hi frameOk).1.get hget'
        have hid : ∀ t : Thread, ({ t with sigPending := t.sigPending &&& ~~~bit (i + 1) } : Thread).pid = t.pid :=
          fun _ => rfl
        rw [takePending, get_withTask hid, if_pos rfl, hget] at hu
        cases hu
        simp only [map_some, getD_some]
        rw [hrest.sigPending]
        exact hless

variable {frameOk : Bool} {me : Pid}

theorem deliver_isSome (n : Nat) (h : s.waitingSignals me < n) :
    (deliver me frameOk n s).isSome := by
  induction n generalizing s with
  | zero => exact absurd h (not_lt_zero _)
  | succ n ih =>
    unfold deliver
    cases hr : s.deliverRound me frameOk with
    | mk s' outcome =>
      cases outcome with
      | idle => rfl
      | fatal sig => rfl
      | handled sig => rfl
      | ignored sig =>
        have hless := waitingSignals_deliverRound s me frameOk sig (by rw [hr]; rfl)
        rw [hr] at hless
        exact ih (lt_of_lt_of_le hless (le_of_lt_succ h))

/-- The loop comes to its end. -/
theorem deliver_ends (s : Procs) (me : Pid) (frameOk : Bool) : ∃ r, deliver me frameOk rounds s = some r := by
  have hle := waitingSignals_le s me
  exact isSome_iff_exists.mp (deliver_isSome rounds (by unfold rounds; omega))

/-! ### What a step leaves of a thread -/

/-- The masks of the thread are the same. -/
structure Held (t t' : Thread) : Prop where
  sigMask : t'.sigMask = t.sigMask
  savedMask : t'.savedMask = t.savedMask

theorem held_awake (t : Thread) : Held t t.awake := by
  unfold awake
  split
  · exact ⟨rfl, rfl⟩
  · exact ⟨rfl, rfl⟩

theorem held_mark (code : Int) (t : Thread) : Held t (t.mark code) := by
  have h := held_awake { t with killed := t.killed <|> some code }
  exact ⟨h.sigMask, h.savedMask⟩

theorem held_pend (sig sender : Nat) (t : Thread) : Held t (t.pend sig sender) := by
  have h := held_awake { t with
    sigPending := t.sigPending ||| bit sig
    sigSender := Function.update t.sigSender sig sender }
  unfold pend
  dsimp only
  split
  · exact ⟨h.sigMask, h.savedMask⟩
  · exact ⟨rfl, rfl⟩

theorem Held.trans {t t' t'' : Thread} (h : Held t t') (h' : Held t' t'') : Held t t'' :=
  ⟨h'.sigMask.trans h.sigMask, h'.savedMask.trans h.savedMask⟩

theorem tracks_held : Tracks Held (fun _ => True) where
  refl := fun _ => ⟨rfl, rfl⟩
  trans := Held.trans
  stable := fun _ _ => True.intro
  mark := fun code _ => held_mark code _
  pend := fun sig sender _ => held_pend sig sender _
  exitSignal := fun _ _ => ⟨rfl, rfl⟩
  timers := fun _ _ => ⟨rfl, rfl⟩

/-- What a call of `c` other than the end of `sys_rt_sigsuspend` does: the masks of the others stay, and
    its own are not saved. -/
structure Touched (c : Pid) (t t' : Thread) : Prop where
  held : t.pid ≠ c → Held t t'
  saved : t.savedMask = none → t'.savedMask = none

theorem Held.touched {t t' : Thread} (h : Held t t') (c : Pid) : Touched c t t' :=
  ⟨fun _ => h, fun hn => h.savedMask.trans hn⟩

theorem Touched.trans {c : Pid} {t t' t'' : Thread} (hpid : t'.pid = t.pid) (h : Touched c t t') (h' : Touched c t' t'') :
    Touched c t t'' :=
  ⟨fun hne => (h.held hne).trans (h'.held (hpid ▸ hne)), fun hn => h'.saved (h.saved hn)⟩

theorem Moves.touched (h : Moves Held s s') (c : Pid) : Moves (Touched c) s s' :=
  h.mono fun _ _ ht => ht.touched c

/-- Such moves in a row. -/
theorem Moves.then_touched {c : Pid} (h : Moves (Touched c) s s') (h' : Moves (Touched c) s' s'') : Moves (Touched c) s s'' := by
  obtain ⟨hn, g, hid, hg, htasks⟩ := h
  obtain ⟨hn', g', hid', hg', htasks'⟩ := h'
  refine ⟨hn'.trans hn, g' ∘ g, fun t => (hid t).trans (hid' (g t)), fun t ht => ?_, ?_⟩
  · refine Touched.trans (hid t).pid (hg t ht) (hg' (g t) ?_)
    rw [htasks]
    exact mem_map_of_mem ht
  · rw [htasks', htasks, List.map_map]

variable {f : Thread → Thread}

/-- An update of other fields. -/
theorem held_withTask (hid : ∀ t, SamePlace t (f t)) (hf : ∀ t, Held t (f t)) (s : Procs) (pid : Pid) :
    Moves Held s (s.withTask pid f) :=
  moves_withTask (fun _ => ⟨rfl, rfl⟩) hid fun t _ _ => hf t

/-- An update of the caller that saves no mask. -/
theorem touched_withTask (hid : ∀ t, SamePlace t (f t))
    (hf : ∀ t, t.savedMask = none → (f t).savedMask = none) (s : Procs) (me : Pid) : Moves (Touched me) s (s.withTask me f) :=
  moves_withTask (fun _ => ⟨fun _ => ⟨rfl, rfl⟩, fun h => h⟩) hid fun t _ hp => ⟨fun hne => absurd hp hne, hf t⟩

theorem held_takePending (s : Procs) (me : Pid) (sig : Nat) : Moves Held s (s.takePending me sig) := by
  refine held_withTask (fun _ => ?_) (fun _ => ?_) s me
  · exact ⟨rfl, rfl, rfl⟩
  · exact ⟨rfl, rfl⟩

theorem held_takeSender (s : Procs) (me : Pid) (sig : Nat) : Moves Held s (s.takeSender me sig) := by
  refine held_withTask (fun _ => ?_) (fun _ => ?_) s me
  · exact ⟨rfl, rfl, rfl⟩
  · exact ⟨rfl, rfl⟩

theorem held_setAction (s : Procs) (me : Pid) (sig : Nat) (action : SigAction) :
    Moves Held s (s.withCurrent me (fun t => { t with sigActions := Function.update t.sigActions sig action })) := by
  refine held_withTask (fun _ => ?_) (fun _ => ?_) s _
  · exact ⟨rfl, rfl, rfl⟩
  · exact ⟨rfl, rfl⟩

theorem held_exitSignal (s : Procs) (pid : Pid) (sig : Nat) :
    Moves Held s (s.withTask pid (fun t => { t with exitSignal := sig })) := by
  refine held_withTask (fun _ => ?_) (fun _ => ?_) s pid
  · exact ⟨rfl, rfl, rfl⟩
  · exact ⟨rfl, rfl⟩

theorem touched_setMask (s : Procs) (me : Pid) (mask : BitVec 64) : Moves (Touched me) s (s.setMask me mask) := by
  refine touched_withTask (fun _ => ?_) (fun _ h => ?_) s me
  · exact ⟨rfl, rfl, rfl⟩
  · exact h

theorem touched_deliverTake (s : Procs) (me : Pid) (sig : Nat) : Moves (Touched me) s (s.deliverTake me sig).1 := by
  have htake : Moves (Touched me) s ((s.takePending me sig).withTask me (fun t => { t with savedMask := none })) := by
    refine ((held_takePending s me sig).touched me).then_touched (touched_withTask (fun _ => ?_) (fun _ _ => ?_) _ me)
    · exact ⟨rfl, rfl, rfl⟩
    · exact rfl
  unfold deliverTake
  dsimp only
  split
  · exact htake.then_touched ((held_setAction _ me sig .dfl).touched me)
  · exact htake

theorem touched_deliverRound (s : Procs) (me : Pid) (frameOk : Bool) : Moves (Touched me) s (s.deliverRound me frameOk).1 := by
  unfold deliverRound
  split
  · exact (Moves.refl tracks_held s).touched me
  next t _ =>
  split
  · exact (Moves.refl tracks_held s).touched me
  next i _ =>
  have htake := touched_deliverTake s me (i + 1)
  have hsender := htake.then_touched ((held_takeSender _ me (i + 1)).touched me)
  dsimp only
  split
  · exact htake
  split
  · split
    · exact htake
    · exact htake.then_touched ((held_exitSignal _ _ _).touched me)
  split
  · exact hsender.then_touched (touched_setMask _ me _)
  · exact hsender.then_touched ((held_exitSignal _ _ _).touched me)

/-- What a step leaves: a task that is there afterwards was there before, or is new. -/
structure Left (c : Pid) (s s' : Procs) : Prop where
  later : s.nextPid ≤ s'.nextPid
  get : ∀ {pid t'}, s'.get pid = some t' →
    (∃ t, s.get pid = some t ∧ Touched c t t') ∨ (pid = s.nextPid ∧ t'.savedMask = none)

/-- What it leaves of the others. -/
structure Apart (c : Pid) (s s' : Procs) : Prop where
  later : s.nextPid ≤ s'.nextPid
  get : ∀ {pid t'}, pid ≠ c → s'.get pid = some t' →
    (∃ t, s.get pid = some t ∧ Held t t') ∨ (pid = s.nextPid ∧ t'.savedMask = none)

theorem Left.apart {c : Pid} (h : Left c s s') : Apart c s s' where
  later := h.later
  get := fun hne ht => by
    rcases h.get ht with ⟨t, hget, htouched⟩ | hnew
    · exact .inl ⟨t, hget, htouched.held ((mem_of_get hget).2 ▸ hne)⟩
    · exact .inr hnew

/-- An update of the thread itself. -/
theorem apart_withTask (hid : ∀ t, (f t).pid = t.pid) (s : Procs) (me : Pid) :
    Apart me s (s.withTask me f) where
  later := le_refl _
  get := fun {pid t'} hne ht => by
    rw [get_withTask hid, if_neg hne] at ht
    exact .inl ⟨t', ht, rfl, rfl⟩

theorem Moves.left {c : Pid} (h : Moves (Touched c) s s') : Left c s s' where
  later := le_of_eq h.1.symm
  get := fun ht => by
    obtain ⟨t, hget, -, htouched⟩ := h.get ht
    exact .inl ⟨t, hget, htouched⟩

theorem left_insert (c : Pid) {child : Thread} (hpid : child.pid = s.nextPid) (hsaved : child.savedMask = none) :
    Left c s { s with tasks := s.tasks ++ [child], nextPid := s.nextPid + 1 } where
  later := le_succ _
  get := fun {pid t'} ht => by
    unfold Procs.get at ht ⊢
    rw [find?_append] at ht
    cases hold : s.tasks.find? (fun t => t.pid = pid) with
    | some t =>
      rw [hold] at ht
      cases ht
      exact .inl ⟨t', rfl, fun _ => ⟨rfl, rfl⟩, fun h => h⟩
    | none =>
      rw [hold, none_or, find?_singleton] at ht
      split at ht
      next hp =>
        cases ht
        have hp : child.pid = pid := by simpa using hp
        exact .inr ⟨hp ▸ hpid, hsaved⟩
      next => cases ht

theorem left_exit (c : Pid) (s : Procs) (pid : Pid) : Left c s (s.exitTask pid) where
  later := le_refl _
  get := fun {q t'} ht => by
    have hid : ∀ t : Thread, ({ t with state := State.zombie } : Thread).pid = t.pid := fun _ => rfl
    rw [exitTask, get_withTask hid] at ht
    split at ht
    · obtain ⟨t, hget, rfl⟩ := map_eq_some_iff.mp ht
      exact .inl ⟨t, hget, fun _ => ⟨rfl, rfl⟩, fun h => h⟩
    · exact .inl ⟨t', ht, fun _ => ⟨rfl, rfl⟩, fun h => h⟩

theorem left_removeTask (c : Pid) (s : Procs) (pid : Pid) : Left c s (s.removeTask pid) where
  later := le_refl _
  get := fun {q t'} ht => by
    have hne : q ≠ pid := by
      obtain ⟨hmem, hq⟩ := mem_of_get ht
      have := (mem_filter.mp hmem).2
      rw [hq] at this
      simpa using this
    rw [get_removeTask hne] at ht
    exact .inl ⟨t', ht, fun _ => ⟨rfl, rfl⟩, fun h => h⟩

theorem held_stopOthers (s : Procs) (leader : Pid) : Moves Held s (s.stopOthers leader) := by
  refine moves_update (fun t => ?_) (fun t _ => ?_)
  · split
    · exact mark_samePlace 0 t
    · exact .refl t
  · split
    · exact held_mark 0 t
    · exact ⟨rfl, rfl⟩

theorem held_sigaction (s : Procs) (me : Pid) (sig : Nat) (new : Option SigAction) :
    Moves Held s (s.sysRtSigaction me sig new).1 := by
  unfold sysRtSigaction
  split
  · exact .refl tracks_held s
  split
  · exact .refl tracks_held s
  next action _ =>
  have hset := held_setAction s me sig action
  split
  · refine hset.trans tracks_held (moves_update (fun t => ?_) (fun t _ => ?_))
    · split
      · exact ⟨rfl, rfl, rfl⟩
      · exact .refl t
    · split
      · exact ⟨rfl, rfl⟩
      · exact ⟨rfl, rfl⟩
  · exact hset

theorem held_sigtimedwait (s : Procs) (me : Pid) (wanted : BitVec 64) :
    Moves Held s (s.sigtimedwaitPoll me wanted).1 := by
  unfold sigtimedwaitPoll
  split
  · exact .refl tracks_held s
  split
  · exact .refl tracks_held s
  · exact (held_takePending s me _).trans tracks_held (held_takeSender _ me _)

theorem touched_sigprocmask (s : Procs) (me : Pid) (how : Nat) (set : Option (BitVec 64)) :
    Moves (Touched me) s (s.sysRtSigprocmask me how set).1 := by
  unfold sysRtSigprocmask
  split
  · split
    · exact touched_setMask s me _
    · exact (Moves.refl tracks_held s).touched me
  · exact (Moves.refl tracks_held s).touched me

theorem held_exec (s : Procs) (me : Pid) (setUid : Option Nat) (abi : Abi) :
    Moves Held s ((s.withCurrent me (execIds setUid abi)).takePending me sigwinch) := by
  refine Moves.trans tracks_held (held_withTask (fun _ => ?_) (fun _ => ?_) s _) (held_takePending _ me sigwinch)
  · exact ⟨rfl, rfl, rfl⟩
  · exact ⟨rfl, rfl⟩

theorem held_withCurrent (hid : ∀ t, SamePlace t (f t)) (hf : ∀ t, Held t (f t)) (s : Procs) (me : Pid) :
    Moves Held s (s.withCurrent me f) := held_withTask hid hf s _

/-- What a thread in the middle of a call still does: its alarm goes off, and it ends. -/
def Call.aside : Call → Bool
  | .checkTimers _ => true
  | .stopOthers => true
  | .exit => true
  | .reap _ => true
  | _ => false

/-- The end of `sys_rt_sigsuspend`. -/
def Call.saves : Call → Bool
  | .saveMask _ => true
  | _ => false

theorem left_aside (hf : Formed s) {call : Call} (haside : call.aside) (hstep : s.step (me, call) = some s')
    (c : Pid) : Left c s s' := by
  obtain ⟨t, hget, hl⟩ := caller_of_step hstep
  simp only [Procs.step, hget, hl, not_true_eq_false, if_false] at hstep
  cases call with
  | checkTimers now => cases hstep; exact ((moves_checkPosixTimers tracks_held hf me now).touched c).left
  | stopOthers =>
    dsimp only at hstep
    split at hstep
    · cases hstep; exact ((held_stopOthers s me).touched c).left
    · cases hstep
  | exit =>
    dsimp only at hstep
    split at hstep
    · cases hstep
    · cases hstep; exact left_exit c s me
  | reap pid =>
    dsimp only at hstep
    split at hstep
    · split at hstep
      · cases hstep
      · cases hstep; exact left_removeTask c s pid
    · cases hstep
  | _ => cases haside

theorem left_step (hf : Formed s) {call : Call} (hsaves : ¬ call.saves) (hstep : s.step (me, call) = some s') :
    Left me s s' := by
  have hstep' := hstep
  obtain ⟨t, hget, hl⟩ := caller_of_step hstep
  simp only [Procs.step, hget, hl, not_true_eq_false, if_false] at hstep
  cases call with
  | kill pid sig => cases hstep; exact ((moves_sysKill tracks_held hf me pid sig).touched me).left
  | tgkill tgid tid sig => cases hstep; exact ((moves_sysTgkill tracks_held hf me tgid tid sig).touched me).left
  | timerCreate clock sevp outOk =>
    cases hstep
    exact ((moves_timerCreate tracks_held s me clock sevp outOk).touched me).left
  | timerSettime id next interval =>
    cases hstep
    exact ((moves_timerSettime tracks_held s me id next interval).touched me).left
  | checkTimers now => exact left_aside hf rfl hstep' me
  | sigaction sig new => cases hstep; exact ((held_sigaction s me sig new).touched me).left
  | sigprocmask how set => cases hstep; exact (touched_sigprocmask s me how set).left
  | setMask mask => cases hstep; exact (touched_setMask s me mask).left
  | saveMask old => exact absurd rfl hsaves
  | deliver frameOk => cases hstep; exact (touched_deliverRound s me frameOk).left
  | sigtimedwait wanted => cases hstep; exact ((held_sigtimedwait s me wanted).touched me).left
  | setuid uid =>
    cases hstep
    refine ((held_withCurrent (setuid_samePlace _) (fun t => ?_) s me).touched me).left
    unfold Procs.setuid
    split
    · exact ⟨rfl, rfl⟩
    split
    · exact ⟨rfl, rfl⟩
    · exact ⟨rfl, rfl⟩
  | setreuid ruid euid =>
    cases hstep
    refine ((held_withCurrent (setreuid_samePlace ruid euid) (fun t => ?_) s me).touched me).left
    unfold Procs.setreuid
    dsimp only
    split
    · exact ⟨rfl, rfl⟩
    · exact ⟨rfl, rfl⟩
  | setresuid ruid euid suid =>
    cases hstep
    refine ((held_withCurrent (setresuid_samePlace ruid euid suid) (fun t => ?_) s me).touched me).left
    unfold Procs.setresuid
    dsimp only
    split
    · exact ⟨rfl, rfl⟩
    · exact ⟨rfl, rfl⟩
  | exec setUid abi =>
    dsimp only at hstep
    split at hstep
    · cases hstep; exact ((held_exec s me setUid abi).touched me).left
    · cases hstep
  | cloneThread =>
    obtain ⟨u, -, hstep⟩ := bind_eq_some_iff.mp hstep
    cases hstep
    exact left_insert me rfl rfl
  | fork =>
    obtain ⟨u, -, hstep⟩ := bind_eq_some_iff.mp hstep
    cases hstep
    exact left_insert me rfl rfl
  | stopOthers => exact left_aside hf rfl hstep' me
  | exit => exact left_aside hf rfl hstep' me
  | reap pid => exact left_aside hf rfl hstep' me

/-! ### The masks of the threads -/

/-- What a thread is doing about its mask. -/
inductive Phase where
  | user
  /-- It waits with a mask of its choice; `old` is the one to go back to. -/
  | waiting (old : BitVec 64)
  /-- The wait is over. -/
  | returning (old : BitVec 64)
  /-- It is back in user code, in a handler if there is a frame; `frame` is the mask saved there. -/
  | back (old : BitVec 64) (frame : Option (BitVec 64))
  /-- A signal has ended it. -/
  | gone
  deriving DecidableEq

/-- The thread runs user code, and may make a call. -/
def Phase.running : Phase → Bool
  | .user => true
  | .back _ _ => true
  | _ => false

/-- What the masks of a thread are then. -/
def Phase.Agrees : Phase → Thread → Prop
  | .user, t => t.savedMask = none
  | .waiting _, t => t.savedMask = none
  | .returning old, t => t.savedMask = some old ∨ (t.savedMask = none ∧ t.sigMask = old)
  | .back old frame, t => t.savedMask = none ∧ (frame = some old ∨ (frame = none ∧ t.sigMask = old))
  | .gone, _ => True

variable {p : Phase}

theorem Phase.Agrees.held {t t' : Thread} (h : p.Agrees t) (hheld : Held t t') : p.Agrees t' := by
  cases p with
  | user => exact hheld.savedMask.trans h
  | waiting old => exact hheld.savedMask.trans h
  | returning old =>
    show t'.savedMask = some old ∨ (t'.savedMask = none ∧ t'.sigMask = old)
    rw [hheld.savedMask, hheld.sigMask]
    exact h
  | back old frame =>
    show t'.savedMask = none ∧ (frame = some old ∨ (frame = none ∧ t'.sigMask = old))
    rw [hheld.savedMask, hheld.sigMask]
    exact h
  | gone => exact True.intro

variable {t : Thread}

/-- A thread that runs user code has no mask saved. -/
theorem Phase.Agrees.saved (h : p.Agrees t) (hrun : p.running) : t.savedMask = none := by
  cases p with
  | user => exact h
  | back old frame => exact h.1
  | waiting old => cases hrun
  | returning old => cases hrun
  | gone => cases hrun

structure Masks where
  procs : Procs
  phase : Pid → Phase

namespace Masks

variable {m m' : Masks}

inductive Label where
  | event (e : Event)
  /-- The start of `with_wait_mask` and of `sys_rt_sigsuspend`. -/
  | enter (me : Pid) (mask : BitVec 64)
  /-- The wait is over; `sys_rt_sigsuspend` goes on until a signal is ready. -/
  | leave (me : Pid) (suspend : Bool)
  /-- The end of `handle_syscall`; `alarm` says that the task has an alarm set. -/
  | resume (me : Pid) (alarm frameOk : Bool)

/-- A thread in the middle of a call makes no other; the mask to go back to is saved by `leave`. -/
def admits (m : Masks) : Event → Bool
  | .call (me, call) => call.aside || (!call.saves && (m.phase me).running)
  | _ => true

/-- A thread that makes a call of another kind has done with the one before. -/
def after (m : Masks) : Event → Pid → Phase
  | .call (me, call) => if call.aside then m.phase else Function.update m.phase me .user
  | _ => m.phase

/-- `posix_abi`. -/
def posixAbi (s : Procs) (me : Pid) : Bool := (s.current me).any fun t => t.abi != .native

/-- `with_wait_mask` puts the old mask back as it was. -/
def restore (s : Procs) (me : Pid) (old : BitVec 64) : Procs := s.withTask me fun t => { t with sigMask := old }

def step (m : Masks) : Label → Option Masks
  | .event e => if m.admits e then (m.procs.event e).map fun s => ⟨s, m.after e⟩ else none
  | .enter me mask =>
    match m.procs.get me with
    | none => none
    | some t =>
      if t.live ∧ (m.phase me).running then
        some ⟨m.procs.setMask me mask, Function.update m.phase me (.waiting t.sigMask)⟩
      else none
  | .leave me suspend =>
    match m.phase me, m.procs.get me with
    | .waiting old, some t =>
      if ¬ t.live then none
      else if ready t ≠ 0 then some ⟨m.procs.saveMask me old, Function.update m.phase me (.returning old)⟩
      else if suspend then none
      else some ⟨restore m.procs me old, Function.update m.phase me (.returning old)⟩
    | _, _ => none
  | .resume me alarm frameOk =>
    match m.phase me, m.procs.get me with
    | .returning old, some t =>
      if ¬ t.live then none
      else if posixAbi m.procs me && m.procs.maybePending me alarm then
        match Procs.deliver me frameOk rounds m.procs with
        | none => none
        | some (s, .idle) => some ⟨s, Function.update m.phase me (.back old none)⟩
        | some (s, .fatal) => some ⟨s, Function.update m.phase me .gone⟩
        | some (s, .handler mask) => some ⟨s, Function.update m.phase me (.back old (some mask))⟩
      else some ⟨m.procs, Function.update m.phase me (.back old none)⟩
    | _, _ => none

/-- A thread that is back has its mask back, or runs a handler from whose frame it gets it back. -/
def Undone (m : Masks) : Prop :=
  ∀ me old frame t, m.phase me = .back old frame → m.procs.get me = some t →
    frame = some old ∨ (frame = none ∧ t.sigMask = old ∧ t.savedMask = none)

/-- `deliver` goes on to the next signal. -/
def Ignores (s : Procs) (me : Pid) (sig : Nat) : Prop :=
  let action := ((s.current me).map (·.sigActions sig)).getD .dfl
  action.handler = sigIgn ∨ (action.handler = sigDfl ∧ defaultIgnored sig)

instance (s : Procs) (me : Pid) (sig : Nat) : Decidable (Ignores s me sig) :=
  inferInstanceAs (Decidable (_ ∨ (_ ∧ _)))

/-- A thread with a saved mask comes back to a process that takes signals, and the first one ready is
    not ignored; if it is, the two masks are the same. -/
def Undoing (m : Masks) : Label → Prop
  | .resume me _ _ => ∀ t ∈ m.procs.get me, ∀ old ∈ t.savedMask,
      posixAbi m.procs me ∧ ∃ i ∈ lowest (ready t), (Ignores m.procs me (i + 1) → t.sigMask = old)
  | _ => True

instance (m : Masks) (l : Label) : Decidable (m.Undoing l) :=
  match l with
  | .resume me _ _ => inferInstanceAs (Decidable (∀ t ∈ m.procs.get me, ∀ old ∈ t.savedMask,
      posixAbi m.procs me ∧ ∃ i ∈ lowest (ready t), (Ignores m.procs me (i + 1) → t.sigMask = old)))
  | .event _ => isTrue True.intro
  | .enter _ _ => isTrue True.intro
  | .leave _ _ => isTrue True.intro

/-- At boot nobody waits. -/
structure Start (m : Masks) : Prop where
  quiet : Quiet m.procs
  saved : ∀ t ∈ m.procs.tasks, t.savedMask = none
  phase : ∀ pid, m.phase pid = .user

/-! ### `deliver` and the mask of the thread -/

/-- What the loop leaves of a thread whose mask is to be `old`. -/
def Settled (me : Pid) (old : BitVec 64) (r : Procs × Ending) : Prop :=
  match r.2 with
  | .idle => ∀ t, r.1.get me = some t → t.savedMask = none ∧ t.sigMask = old
  | .fatal => True
  | .handler mask => mask = old ∧ ∀ t, r.1.get me = some t → t.savedMask = none

/-- A signal taken drops the saved mask and leaves the mask alone. -/
theorem get_deliverTake {s : Procs} (hget : s.get me = some t) (sig : Nat) :
    ∃ t', (s.deliverTake me sig).1.get me = some t' ∧ t'.savedMask = none ∧ t'.sigMask = t.sigMask := by
  obtain ⟨t₁, hget₁, hsaved, hmask⟩ : ∃ t₁, ((s.takePending me sig).withTask me (fun t => { t with savedMask := none })).get me
      = some t₁ ∧ t₁.savedMask = none ∧ t₁.sigMask = t.sigMask := by
    have hid : ∀ t : Thread, ({ t with savedMask := none } : Thread).pid = t.pid := fun _ => rfl
    have hid' : ∀ t : Thread, ({ t with sigPending := t.sigPending &&& ~~~bit sig } : Thread).pid = t.pid := fun _ => rfl
    rw [get_withTask hid, if_pos rfl, takePending, get_withTask hid', if_pos rfl, hget]
    exact ⟨_, rfl, rfl, rfl⟩
  unfold deliverTake
  dsimp only
  split
  · have hid : ∀ t : Thread, ({ t with sigActions := Function.update t.sigActions sig .dfl } : Thread).pid = t.pid := fun _ => rfl
    rw [withCurrent, get_withTask hid]
    split
    · refine ⟨{ t₁ with sigActions := Function.update t₁.sigActions sig .dfl }, ?_, hsaved, hmask⟩
      exact congrArg (Option.map fun t : Thread => { t with sigActions := Function.update t.sigActions sig .dfl }) hget₁
    · exact ⟨t₁, hget₁, hsaved, hmask⟩
  · exact ⟨t₁, hget₁, hsaved, hmask⟩

/-- An update of a thread that leaves its place and its actions alone. -/
theorem current_withTask (hpid : ∀ t, (f t).pid = t.pid) (hlead : ∀ t, (f t).leader = t.leader)
    (hact : ∀ t, (f t).sigActions = t.sigActions) (s : Procs) (pid me : Pid) (sig : Nat) :
    ((s.withTask pid f).current me).map (·.sigActions sig) = (s.current me).map (·.sigActions sig) := by
  have hfound : ∀ q, ((s.withTask pid f).get q).isSome = (s.get q).isSome := fun q => by
    rw [get_withTask hpid]
    split
    · rw [isSome_map]
    · rfl
  have hkey : (s.withTask pid f).currentKey me = s.currentKey me := by
    unfold currentKey
    rw [get_withTask hpid]
    cases s.get me with
    | none => rw [show (if me = pid then Option.map f none else none) = none from ite_self none]
    | some t =>
      have hleader : (if me = pid then Option.map f (some t) else some t) = some (if me = pid then f t else t) := by
        split
        · rfl
        · rfl
      have hsame : (if me = pid then f t else t).leader = t.leader := by
        split
        · exact hlead t
        · rfl
      rw [hleader]
      dsimp only
      rw [hsame, hfound]
  unfold current
  rw [hkey, get_withTask hpid]
  split
  · rw [Option.map_map]
    congr 1
    funext t
    rw [comp_apply, hact]
  · rfl

/-- The action a round reads. -/
theorem deliverTake_action (s : Procs) (me : Pid) (sig : Nat) :
    (s.deliverTake me sig).2 = ((s.current me).map (·.sigActions sig)).getD .dfl := by
  have hread : ((((s.takePending me sig).withTask me (fun t => { t with savedMask := none })).current me).map
      (·.sigActions sig)) = (s.current me).map (·.sigActions sig) := by
    rw [current_withTask (fun _ => ?_) (fun _ => ?_) (fun _ => ?_), takePending,
      current_withTask (fun _ => ?_) (fun _ => ?_) (fun _ => ?_)]
    all_goals rfl
  unfold deliverTake
  dsimp only
  split
  · exact congrArg (·.getD .dfl) hread
  · exact congrArg (·.getD .dfl) hread

/-- What a round does to the masks of the thread, and when it goes on to the next signal. -/
def RoundMasks (s : Procs) (me : Pid) (t : Thread) (r : Procs × Outcome) : Prop :=
  match r.2 with
  | .idle => r.1 = s ∧ lowest (ready t) = none
  | .ignored sig => lowest (ready t) = some (sig - 1) ∧ Ignores s me (sig - 1 + 1) ∧
      ∃ t', r.1.get me = some t' ∧ t'.savedMask = none ∧ t'.sigMask = t.sigMask
  | .fatal _ => True
  | .handled _ => ∀ t', r.1.get me = some t' → t'.savedMask = none

theorem roundMasks {s : Procs} (hget : s.get me = some t) (frameOk : Bool) :
    RoundMasks s me t (s.deliverRound me frameOk) := by
  cases hi : lowest (ready t) with
  | none =>
    rw [deliverRound_idle hget hi]
    exact ⟨rfl, hi⟩
  | some i =>
    obtain ⟨t', hget', hsaved, hmask⟩ := get_deliverTake hget (i + 1)
    have haction := deliverTake_action s me (i + 1)
    have hign : (s.deliverTake me (i + 1)).2.handler = sigIgn ∨
        ((s.deliverTake me (i + 1)).2.handler = sigDfl ∧ defaultIgnored (i + 1)) → Ignores s me (i + 1 - 1 + 1) := by
      rw [haction]
      exact fun h => h
    unfold deliverRound
    simp only [hget, hi]
    split
    next hh => exact ⟨hi, hign (.inl hh), t', hget', hsaved, hmask⟩
    split
    next hh =>
      split
      next hd => exact ⟨hi, hign (.inr ⟨hh, hd⟩), t', hget', hsaved, hmask⟩
      next => exact True.intro
    split
    · intro t'' hget''
      obtain ⟨u, hu, -, htouched⟩ :=
        (((held_takeSender (s.deliverTake me (i + 1)).1 me (i + 1)).touched me).then_touched (touched_setMask _ me _)).get hget''
      rw [hget'] at hu
      cases hu
      exact htouched.saved hsaved
    · exact True.intro

variable {r : Procs × Ending}

/-- The loop for a thread that has no saved mask: the mask it goes back to is its own. -/
theorem settled_deliver {old : BitVec 64} (n : Nat) {s : Procs}
    (hget : s.get me = some t) (hsaved : t.savedMask = none) (hmask : t.sigMask = old)
    (hr : Procs.deliver me frameOk n s = some r) : Settled me old r := by
  induction n generalizing s t with
  | zero => cases hr
  | succ n ih =>
    have hround := roundMasks hget frameOk
    unfold Procs.deliver at hr
    cases hd : s.deliverRound me frameOk with
    | mk s' outcome =>
      rw [hd] at hround hr
      cases outcome with
      | idle =>
        cases hr
        obtain ⟨rfl, -⟩ := hround
        intro t' hget'
        rw [hget] at hget'
        cases hget'
        exact ⟨hsaved, hmask⟩
      | ignored sig =>
        obtain ⟨-, -, t', hget', hsaved', hmask'⟩ := hround
        exact ih hget' hsaved' (hmask'.trans hmask) hr
      | fatal sig =>
        cases hr
        exact True.intro
      | handled sig =>
        cases hr
        refine ⟨?_, hround⟩
        simp only [frameMask, hget, map_some, getD_some, hsaved, getD_none, hmask]

/-- The loop for a thread that comes back with a saved mask for a signal that is there. -/
theorem settled_saved {old : BitVec 64} (n : Nat) {s : Procs}
    (hget : s.get me = some t) (hsaved : t.savedMask = some old) {i : Nat} (hi : lowest (ready t) = some i)
    (hign : Ignores s me (i + 1) → t.sigMask = old) (hr : Procs.deliver me frameOk n s = some r) :
    Settled me old r := by
  cases n with
  | zero => cases hr
  | succ n =>
    have hround := roundMasks hget frameOk
    unfold Procs.deliver at hr
    cases hd : s.deliverRound me frameOk with
    | mk s' outcome =>
      rw [hd] at hround hr
      cases outcome with
      | idle => cases hi.symm.trans hround.2
      | ignored sig =>
        obtain ⟨hlow, hignores, t', hget', hsaved', hmask'⟩ := hround
        have hsig : sig - 1 = i := some.inj (hlow.symm.trans hi)
        rw [hsig] at hignores
        exact settled_deliver n hget' hsaved' (hmask'.trans (hign hignores)) hr
      | fatal sig =>
        cases hr
        exact True.intro
      | handled sig =>
        cases hr
        refine ⟨?_, hround⟩
        simp only [frameMask, hget, map_some, getD_some, hsaved]

/-- The thread's pending signal shows in the counter. -/
theorem maybePending_of_ready {s : Procs} (hget : s.get me = some t) (hl : t.live)
    (hhint : s.pendingPairs ≤ s.hint) {i : Nat} (hi : lowest (ready t) = some i) (alarm : Bool) : s.maybePending me alarm := by
  have hpend : t.sigPending ≠ 0 := by
    have hready := lowest_mem hi
    unfold ready at hready
    rw [BitVec.getLsbD_and, Bool.and_eq_true] at hready
    intro hzero
    rw [hzero] at hready
    simp at hready
  have hpairs : t.pairs ≤ s.pendingPairs :=
    single_le_sum (fun _ _ => zero_le _) _ (mem_map_of_mem (mem_of_get hget).1)
  unfold Thread.pairs at hpairs
  rw [if_pos hl] at hpairs
  have hne : s.hint ≠ 0 := fun hz => hpend (signals_eq_zero (by omega))
  unfold Procs.maybePending
  simp [hne]

/-! ### Runs -/

/-- What holds in every state of a run. -/
structure Ok (m : Masks) : Prop where
  formed : Formed m.procs
  hint : m.procs.pendingPairs ≤ m.procs.hint
  fresh : ∀ pid, m.procs.nextPid ≤ pid → m.phase pid = .user
  agrees : ∀ pid t, m.procs.get pid = some t → (m.phase pid).Agrees t

theorem Start.ok (h : Start m) : Ok m where
  formed := h.quiet.toBoot.formed
  hint := by
    rw [h.quiet.pairs]
    exact zero_le _
  fresh := fun pid _ => h.phase pid
  agrees := fun pid t hget => by
    rw [h.phase pid]
    exact h.saved t (mem_of_get hget).1

theorem Ok.lt_nextPid (h : Ok m) (hget : m.procs.get me = some t) : me < m.procs.nextPid := by
  obtain ⟨hmem, hpid⟩ := mem_of_get hget
  rw [← hpid]
  exact h.formed.below t hmem

/-- A step that leaves the others alone and puts `me` into the phase `p`. -/
theorem Ok.ownStep (h : Ok m) {s' : Procs} (hf : Formed s') (hhint : s'.pendingPairs ≤ s'.hint)
    (hleft : Apart me m.procs s') (hme : me < m.procs.nextPid) (hp : ∀ t, s'.get me = some t → p.Agrees t) :
    Ok ⟨s', Function.update m.phase me p⟩ where
  formed := hf
  hint := hhint
  fresh := fun pid hle => by
    have hlater : m.procs.nextPid ≤ pid := hleft.later.trans hle
    show Function.update m.phase me p pid = .user
    have hne : pid ≠ me := fun he => not_le.mpr hme (he ▸ hlater)
    rw [update_of_ne hne]
    exact h.fresh pid hlater
  agrees := fun pid t' hget' => by
    show (Function.update m.phase me p pid).Agrees t'
    by_cases hpid : pid = me
    · subst hpid
      rw [update_self]
      exact hp t' hget'
    · rw [update_of_ne hpid]
      rcases hleft.get hpid hget' with ⟨t, hget, hheld⟩ | ⟨rfl, hsaved⟩
      · exact (h.agrees pid t hget).held hheld
      · rw [h.fresh _ le_rfl]
        exact hsaved

/-- A step during which nobody's masks change. -/
theorem Ok.asideStep (h : Ok m) {s' : Procs} (hf : Formed s') (hhint : s'.pendingPairs ≤ s'.hint)
    (hleft : ∀ c, Left c m.procs s') : Ok ⟨s', m.phase⟩ where
  formed := hf
  hint := hhint
  fresh := fun pid hle => h.fresh pid ((hleft pid).later.trans hle)
  agrees := fun pid t' hget' => by
    -- as the step of somebody else
    rcases (hleft (pid + 1)).get hget' with ⟨t, hget, htouched⟩ | ⟨rfl, hsaved⟩
    · have hne : t.pid ≠ pid + 1 := by
        rw [(mem_of_get hget).2]
        exact Nat.ne_of_lt (lt_succ_self pid)
      exact (h.agrees pid t hget).held (htouched.held hne)
    · show (m.phase _).Agrees t'
      rw [h.fresh _ le_rfl]
      exact hsaved

theorem Ok.event (h : Ok m) {e : Event} (hadmits : m.admits e) {s' : Procs} (hstep : m.procs.event e = some s') :
    Ok ⟨s', m.after e⟩ := by
  obtain ⟨hf, hhint⟩ := hint_event ⟨h.formed, h.hint⟩ hstep
  have haside : (∀ c, Left c m.procs s') → Ok ⟨s', m.phase⟩ := h.asideStep hf hhint
  cases e with
  | send me pid sig =>
    cases hstep
    exact haside fun c => ((moves_send_all tracks_held h.formed me pid sig).touched c).left
  | sendThread me tid sig =>
    cases hstep
    exact haside fun c => ((moves_sendThread_all tracks_held h.formed me tid sig).touched c).left
  | queue me tid sig =>
    cases hstep
    exact haside fun c => ((moves_queue tracks_held fun _ _ _ => True.intro).touched c).left
  | call a =>
    obtain ⟨me, call⟩ := a
    unfold after
    by_cases hc : call.aside
    · simp only [hc, if_true]
      exact haside fun c => left_aside h.formed hc hstep c
    · simp only [hc, Bool.false_eq_true, if_false]
      unfold admits at hadmits
      simp only [hc, Bool.false_or, Bool.and_eq_true, Bool.not_eq_true'] at hadmits
      obtain ⟨t, hget, -⟩ := caller_of_step hstep
      have hleft := left_step h.formed (by rw [hadmits.1]; exact Bool.false_ne_true) hstep
      refine h.ownStep hf hhint hleft.apart (h.lt_nextPid hget) fun t' hget' => ?_
      rcases hleft.get hget' with ⟨u, hu, htouched⟩ | ⟨-, hsaved⟩
      · exact htouched.saved ((h.agrees me u hu).saved hadmits.2)
      · exact hsaved

theorem formed_deliver (n : Nat) {s : Procs} (hget : s.get me = some t)
    (hl : t.live) (hf : Formed s) (hhint : s.pendingPairs ≤ s.hint)
    (hr : Procs.deliver me frameOk n s = some r) :
    Formed r.1 ∧ r.1.pendingPairs ≤ r.1.hint ∧ Left me s r.1 := by
  induction n generalizing s t with
  | zero => cases hr
  | succ n ih =>
    have hids := ids_deliverRound s me frameOk
    have hround := hids.formed hf
    have hcount := hint_deliver hget hl frameOk hhint
    have htouched := touched_deliverRound s me frameOk
    unfold Procs.deliver at hr
    cases hd : s.deliverRound me frameOk with
    | mk s' outcome =>
      rw [hd] at hr hids hround hcount htouched
      cases outcome with
      | idle => cases hr; exact ⟨hround, hcount, htouched.left⟩
      | fatal sig => cases hr; exact ⟨hround, hcount, htouched.left⟩
      | handled sig => cases hr; exact ⟨hround, hcount, htouched.left⟩
      | ignored sig =>
        obtain ⟨t', ht', hplace, -⟩ := hids.mem_of (mem_of_get hget).1
        have hget' : s'.get me = some t' := by
          have := hround.get ht'
          rwa [hplace.pid, (mem_of_get hget).2] at this
        obtain ⟨hf', hhint', hleft'⟩ := ih hget' (hplace.live ▸ hl) hround hcount hr
        refine ⟨hf', hhint', ?_, fun {pid u} hu => ?_⟩
        · exact htouched.left.later.trans hleft'.later
        · rcases hleft'.get hu with ⟨v, hv, hvu⟩ | ⟨hnew, hsaved⟩
          · obtain ⟨w, hw, hplace, hwv⟩ := htouched.get hv
            exact .inl ⟨w, hw, hwv.trans hplace.pid hvu⟩
          · exact .inr ⟨hnew.trans htouched.1, hsaved⟩

theorem Ok.enter (h : Ok m) {mask : BitVec 64} (hstep : m.step (.enter me mask) = some m') : Ok m' := by
  simp only [step] at hstep
  split at hstep
  · cases hstep
  next t hget =>
  split at hstep
  next hrun =>
    cases hstep
    have hcover := covers_setMask m.procs me mask
    have hmoves := touched_setMask m.procs me mask
    have hcount : (m.procs.setMask me mask).pendingPairs ≤ (m.procs.setMask me mask).hint := by
      have := h.hint
      unfold Covers at hcover
      omega
    refine h.ownStep ((ids_setMask m.procs me mask).formed h.formed) hcount hmoves.left.apart (h.lt_nextPid hget) fun t' hget' => ?_
    obtain ⟨u, hu, -, htouched⟩ := hmoves.get hget'
    exact htouched.saved ((h.agrees me u hu).saved hrun.2)
  next => cases hstep

/-- An update of the masks of the thread as it comes out of its wait. -/
theorem Ok.masksStep (h : Ok m) (hget : m.procs.get me = some t)
    (hid : ∀ t, SamePlace t (f t)) (hpend : ∀ t, (f t).state = t.state ∧ (f t).sigPending = t.sigPending)
    (hp : p.Agrees (f t)) : Ok ⟨m.procs.withTask me f, Function.update m.phase me p⟩ := by
  have hcover := covers_fields (s := m.procs) hpend me
  have hcount : (m.procs.withTask me f).pendingPairs ≤ (m.procs.withTask me f).hint := by
    have := h.hint
    unfold Covers at hcover
    omega
  refine h.ownStep (h.formed.withTask hid me) hcount (apart_withTask (fun t => (hid t).pid) m.procs me)
    (h.lt_nextPid hget) fun t' hget' => ?_
  rw [get_withTask fun t => (hid t).pid, if_pos rfl, hget] at hget'
  cases hget'
  exact hp

theorem Ok.leave (h : Ok m) {suspend : Bool} (hstep : m.step (.leave me suspend) = some m') : Ok m' := by
  simp only [step] at hstep
  split at hstep
  next old t hphase hget =>
    have hsaved : t.savedMask = none := by
      have := h.agrees me t hget
      rw [hphase] at this
      exact this
    split at hstep
    · cases hstep
    split at hstep
    · cases hstep
      refine h.masksStep hget (fun _ => ?_) (fun _ => ?_) ?_
      · exact ⟨rfl, rfl, rfl⟩
      · exact ⟨rfl, rfl⟩
      · exact .inl rfl
    split at hstep
    · cases hstep
    · cases hstep
      refine h.masksStep hget (fun _ => ?_) (fun _ => ?_) ?_
      · exact ⟨rfl, rfl, rfl⟩
      · exact ⟨rfl, rfl⟩
      · exact .inr ⟨hsaved, rfl⟩
  next => cases hstep

theorem Ok.resume (h : Ok m) {alarm frameOk : Bool} (hok : m.Undoing (.resume me alarm frameOk))
    (hstep : m.step (.resume me alarm frameOk) = some m') : Ok m' := by
  simp only [step] at hstep
  split at hstep
  next old t hphase hget =>
    have hagrees : t.savedMask = some old ∨ (t.savedMask = none ∧ t.sigMask = old) := by
      have := h.agrees me t hget
      rw [hphase] at this
      exact this
    split at hstep
    · cases hstep
    next hl =>
    have hl : t.live := not_not.mp hl
    -- what the loop comes to, in both cases
    have hsettled : ∀ r, Procs.deliver me frameOk rounds m.procs = some r → Settled me old r := by
      intro r hr
      rcases hagrees with hsaved | ⟨hsaved, hmask⟩
      · obtain ⟨-, i, hi, hign⟩ := hok t hget old hsaved
        exact settled_saved rounds hget hsaved hi hign hr
      · exact settled_deliver rounds hget hsaved hmask hr
    have hrest : ∀ r, Procs.deliver me frameOk rounds m.procs = some r → ∀ p : Phase,
        (∀ t', r.1.get me = some t' → p.Agrees t') → Ok ⟨r.1, Function.update m.phase me p⟩ := by
      intro r hr p hp
      obtain ⟨hf, hcount, hleft⟩ := formed_deliver rounds hget hl h.formed h.hint hr
      exact h.ownStep hf hcount hleft.apart (h.lt_nextPid hget) hp
    split at hstep
    next hsignals =>
      cases hr : Procs.deliver me frameOk rounds m.procs with
      | none =>
        rw [hr] at hstep
        cases hstep
      | some r =>
        have hs := hsettled r hr
        have ho := hrest r hr
        rw [hr] at hstep
        obtain ⟨s', ending⟩ := r
        cases ending with
        | idle =>
          cases hstep
          refine ho _ fun t' hget' => ?_
          obtain ⟨hsaved, hmask⟩ := hs t' hget'
          exact ⟨hsaved, .inr ⟨rfl, hmask⟩⟩
        | fatal =>
          cases hstep
          exact ho _ fun t' _ => True.intro
        | handler mask =>
          cases hstep
          refine ho _ fun t' hget' => ?_
          exact ⟨hs.2 t' hget', .inl (congrArg some hs.1)⟩
    next hno =>
      cases hstep
      have hfree : t.savedMask = none ∧ t.sigMask = old := by
        rcases hagrees with hsaved | hfree
        · obtain ⟨hposix, i, hi, -⟩ := hok t hget old hsaved
          exact absurd (by rw [hposix, maybePending_of_ready hget hl h.hint hi alarm]; rfl) hno
        · exact hfree
      refine h.ownStep h.formed h.hint ?_ (h.lt_nextPid hget) fun t' hget' => ?_
      · exact ⟨le_refl _, fun _ ht => .inl ⟨_, ht, rfl, rfl⟩⟩
      · rw [hget] at hget'
        cases hget'
        exact ⟨hfree.1, .inr ⟨rfl, hfree.2⟩⟩
  next => cases hstep

theorem Ok.step (h : Ok m) {l : Label} (hok : m.Undoing l) (hstep : m.step l = some m') : Ok m' := by
  cases l with
  | event e =>
    simp only [Masks.step] at hstep
    split at hstep
    next hadmits =>
      obtain ⟨s', hs', rfl⟩ := map_eq_some_iff.mp hstep
      exact h.event hadmits hs'
    next => cases hstep
  | enter me mask => exact h.enter hstep
  | leave me suspend => exact h.leave hstep
  | resume me alarm frameOk => exact h.resume hok hstep

/-- In a run in which every thread with a saved mask comes back for a signal that is not ignored, each
    thread that is back has its own mask, or a handler frame from which it gets it. -/
theorem masks_undone (h : Reach Start step Undoing m) : m.Undone := by
  have hok : Ok m := h.invariant (I := Ok) (fun m hs => hs.ok) fun m l m' hm hu hstep => hm.step hu hstep
  intro me old frame t hphase hget
  have hagrees := hok.agrees me t hget
  rw [hphase] at hagrees
  obtain ⟨hsaved, hframe | ⟨hframe, hmask⟩⟩ := hagrees
  · exact .inl hframe
  · exact .inr ⟨hframe, hmask, hsaved⟩

/-- A process with a handler for `sig`, which it blocks and sends itself. -/
def blocksOne (sig : Nat) : List Label :=
  [.event (.call (1, .sigaction sig (some ⟨4096, 0, 0, 0⟩))), .event (.call (1, .sigprocmask 0 (some (bit sig)))),
    .event (.call (1, .kill 1 sig))]

/-- A wait with no signal blocked. -/
def waitsOpen : List Label := [.enter 1 0, .leave 1 false]

def alone : Masks := ⟨⟨[{ Thread.fresh 1 with abi := .linux }], 2, 0⟩, fun _ => .user⟩

theorem start_alone : Start alone := ⟨⟨⟨by decide, by decide, by decide⟩, by decide⟩, by decide, fun _ => rfl⟩

/-- The state a list of steps leads to, where all are taken. -/
def afterAll (m : Masks) (ls : List Label) : Masks := (runLabels step m ls).getD m

theorem run_afterAll {m : Masks} {ls : List Label} (h : (runLabels step m ls).isSome) :
    runLabels step m ls = some (m.afterAll ls) := by
  unfold afterAll
  obtain ⟨m', hm'⟩ := isSome_iff_exists.mp h
  rw [hm', getD_some]

/-- The last step of a list comes after the others. -/
theorem runLabels_concat (m : Masks) (ls : List Label) (l : Label) :
    runLabels step m (ls ++ [l]) = (runLabels step m ls).bind fun m' => step m' l := by
  induction ls generalizing m with
  | nil =>
    rw [nil_append, runLabels, runLabels, bind_some]
    cases step m l with
    | none => rfl
    | some m' => rfl
  | cons a rest ih =>
    rw [cons_append, runLabels, runLabels, bind_assoc]
    congr 1
    funext m'
    exact ih m'

theorem step_afterAll {m : Masks} {ls : List Label} {l : Label} (h : (runLabels step m (ls ++ [l])).isSome) :
    step (m.afterAll ls) l = some (m.afterAll (ls ++ [l])) := by
  have hrun := run_afterAll h
  rw [runLabels_concat] at hrun
  obtain ⟨m', hm', hstep⟩ := bind_eq_some_iff.mp hrun
  have hafter : m.afterAll ls = m' := by
    unfold afterAll
    rw [hm', getD_some]
  rw [hafter, hstep]

/-- A signal with a handler ends the wait; the handler's frame has the mask that blocks it. -/
theorem masks_undone_handled : (alone.afterAll (blocksOne 10 ++ waitsOpen ++ [.resume 1 false true])).Undone := by
  have hwait : Reach Start step Undoing (alone.afterAll (blocksOne 10 ++ waitsOpen)) := by
    refine Reach.run (.start start_alone) (blocksOne 10 ++ waitsOpen) (fun m l hl => ?_) (run_afterAll (by decide))
    simp only [blocksOne, waitsOpen, List.cons_append, List.nil_append, List.mem_cons, List.not_mem_nil, or_false] at hl
    rcases hl with rfl | rfl | rfl | rfl | rfl
    all_goals exact True.intro
  have hundoing : (alone.afterAll (blocksOne 10 ++ waitsOpen)).Undoing (.resume 1 false true) := by
    intro t ht old _
    have hready : ((alone.afterAll (blocksOne 10 ++ waitsOpen)).procs.get 1).map (fun t => lowest (ready t)) = some (some 9) := by
      decide
    rw [show _ = some t from ht] at hready
    exact ⟨by decide, 9, some.inj hready, fun hign => absurd hign (by decide)⟩
  exact masks_undone (hwait.next hundoing (step_afterAll (by decide)))

/-- The handler of `SIGURG` is gone with the `exec`, the signal is still pending, and the wait lets it
    through: it is ignored, and the thread goes on with the mask of the wait. -/
theorem masks_not_undone : ∃ m, Reach Start step (fun _ _ => True) m ∧ ¬ m.Undone := by
  have hstart : Reach Start step (fun _ _ => True) alone := .start start_alone
  have hreach := hstart.run
    (blocksOne sigurg ++ .event (.call (1, .exec none .linux)) :: waitsOpen ++ [.resume 1 false true])
    (fun _ _ _ => trivial) (run_afterAll (by decide +kernel))
  refine ⟨_, hreach, fun h => ?_⟩
  obtain ⟨t, hget⟩ := isSome_iff_exists.mp (show ((alone.afterAll
    (blocksOne sigurg ++ .event (.call (1, .exec none .linux)) :: waitsOpen ++ [.resume 1 false true])).procs.get 1).isSome by decide)
  have hmask : ((alone.afterAll (blocksOne sigurg ++ .event (.call (1, .exec none .linux)) :: waitsOpen ++
    [.resume 1 false true])).procs.get 1).map (·.sigMask) = some 0 := by decide
  rw [hget] at hmask
  rcases h 1 (bit sigurg) none t (by decide) hget with hframe | ⟨-, hold, -⟩
  · cases hframe
  · rw [map_some, hold] at hmask
    exact absurd hmask (by decide)

end Masks

end Procs

end HamixOS.Kernel

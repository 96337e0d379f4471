import HamixOS.Kernel.SigTable
import HamixOS.Lib.Machine
import Mathlib.Algebra.Order.BigOperators.Group.List
import Mathlib.Algebra.Order.Group.Nat
import Mathlib.Data.Fintype.Card
import Mathlib.Data.Finset.Card

namespace HamixOS.Kernel

open Lib List BitVec Bool Nat

/-!
# The fast check for pending signals

`PENDING_HINT` is one counter for the pending sets of all tasks.  `queue` adds to it whether or not
the bit was set, `deliver` takes one from it for the bit it clears, and everything else that clears
a bit leaves it alone.

* `pendingPairs` — how many live tasks have how many signals pending;
* `Covers` — the counter grows by as much as the pairs do, at least;
* `hint_covers` — in every run the counter is no less than the pairs, so where `maybe_pending` says
  no, nothing is pending.
-/

/-- The number of signals in a set. -/
def signals (x : BitVec 64) : Nat := (Finset.univ.filter fun i : Fin 64 => x.getLsbD i).card

theorem signals_zero : signals 0 = 0 := by
  unfold signals
  rw [Finset.card_eq_zero, Finset.filter_eq_empty_iff]
  intro i _
  simp

theorem signals_eq_zero {x : BitVec 64} (h : signals x = 0) : x = 0 := by
  unfold signals at h
  rw [Finset.card_eq_zero, Finset.filter_eq_empty_iff] at h
  refine eq_of_getLsbD_eq fun i hi => ?_
  have := h (Finset.mem_univ (⟨i, hi⟩ : Fin 64))
  simpa using this

theorem signals_mono {x y : BitVec 64} (h : ∀ i, x.getLsbD i → y.getLsbD i) : signals x ≤ signals y :=
  Finset.card_le_card (Finset.monotone_filter_right _ fun i _ hi => h i hi)

theorem signals_clear (x y : BitVec 64) : signals (x &&& y) ≤ signals x :=
  signals_mono fun i hi => by
    rw [getLsbD_and, and_eq_true] at hi
    exact hi.1

theorem getLsbD_bit_eq {sig i : Nat} (h : (bit sig).getLsbD i) : i = sig - 1 := by
  unfold bit at h
  rw [getLsbD_shiftLeft, getLsbD_one] at h
  simp only [and_eq_true, decide_eq_true_eq, not_eq_true', decide_eq_false_iff_not] at h
  omega

/-- One signal more, at most. -/
theorem signals_or_bit (x : BitVec 64) (sig : Nat) : signals (x ||| bit sig) ≤ signals x + 1 := by
  by_cases hsig : sig - 1 < 64
  · have hsub : (Finset.univ.filter fun i : Fin 64 => (x ||| bit sig).getLsbD i) ⊆
        insert ⟨sig - 1, hsig⟩ (Finset.univ.filter fun i : Fin 64 => x.getLsbD i) := by
      intro i hi
      rw [Finset.mem_filter, getLsbD_or, or_eq_true] at hi
      rcases hi.2 with hx | hb
      · exact Finset.mem_insert_of_mem (Finset.mem_filter.mpr ⟨hi.1, hx⟩)
      · exact Finset.mem_insert.mpr (.inl (Fin.ext (getLsbD_bit_eq hb)))
    exact (Finset.card_le_card hsub).trans (Finset.card_insert_le _ _)
  · refine (signals_mono fun i hi => ?_).trans (le_succ _)
    rw [getLsbD_or, or_eq_true] at hi
    rcases hi with hx | hb
    · exact hx
    · have := lt_of_getLsbD hb
      have := getLsbD_bit_eq hb
      omega

/-- Clearing a signal that is in the set leaves one fewer. -/
theorem signals_clear_bit {x : BitVec 64} {i : Nat} (h : x.getLsbD i) : signals (x &&& ~~~bit (i + 1)) + 1 ≤ signals x := by
  have hi : i < 64 := lt_of_getLsbD h
  refine Finset.card_lt_card ⟨Finset.monotone_filter_right _ fun j _ hj => ?_, fun hsub => ?_⟩
  · rw [getLsbD_and, and_eq_true] at hj
    exact hj.1
  · have hmem := hsub (Finset.mem_filter.mpr ⟨Finset.mem_univ (⟨i, hi⟩ : Fin 64), h⟩)
    have hbit : (bit (i + 1)).getLsbD i = true := by
      unfold bit
      rw [getLsbD_shiftLeft, getLsbD_one]
      simp [hi]
    rw [Finset.mem_filter, getLsbD_and, getLsbD_not, hbit] at hmem
    simp at hmem

namespace Thread

/-- The signals pending in a live thread. -/
def pairs (t : Thread) : Nat := if t.live then signals t.sigPending else 0

theorem pairs_le {t t' : Thread} (hlive : t'.live → t.live) (h : signals t'.sigPending ≤ signals t.sigPending) :
    t'.pairs ≤ t.pairs := by
  unfold pairs
  by_cases hl : t'.live
  · rw [if_pos hl, if_pos (hlive hl)]
    exact h
  · rw [if_neg hl]
    exact zero_le _

theorem pairs_awake (t : Thread) : t.awake.pairs ≤ t.pairs := by
  refine pairs_le (fun h => (awake_samePlace t).live ▸ h) (le_of_eq ?_)
  unfold awake
  split
  · rfl
  · rfl

theorem pairs_mark (code : Int) (t : Thread) : (t.mark code).pairs ≤ t.pairs :=
  (pairs_awake _).trans (pairs_le (fun h => h) le_rfl)

theorem pairs_pend (sig sender : Nat) (t : Thread) : (t.pend sig sender).pairs ≤ t.pairs + 1 := by
  have h : Thread.pairs { t with
      sigPending := t.sigPending ||| bit sig
      sigSender := Function.update t.sigSender sig sender } ≤ t.pairs + 1 := by
    show (if t.live then _ else _) ≤ (if t.live then _ else _) + 1
    by_cases hl : t.live
    · rw [if_pos hl, if_pos hl]
      exact signals_or_bit _ _
    · rw [if_neg hl]
      exact zero_le _
  unfold pend
  dsimp only
  split
  · exact (pairs_awake _).trans h
  · exact h

end Thread

namespace Procs

open Thread

variable {s s' s'' : Procs}

/-- The pairs of a live task and a signal that is pending in it. -/
def pendingPairs (s : Procs) : Nat := (s.tasks.map Thread.pairs).sum

/-- `maybe_pending`; `alarm` says that the current task has an alarm set. -/
def maybePending (s : Procs) (me : Pid) (alarm : Bool) : Bool :=
  s.hint != 0 || (s.current me).any fun t => alarm || t.timers.any (·.next != 0)

/-- The counter grows by as much as the pairs do, at least. -/
def Covers (s s' : Procs) : Prop := s'.pendingPairs + s.hint ≤ s.pendingPairs + s'.hint

theorem Covers.refl (s : Procs) : Covers s s := le_refl _

theorem Covers.trans (h : Covers s s') (h' : Covers s' s'') : Covers s s'' := by
  unfold Covers at *
  omega

variable {f : Thread → Thread}

/-- No task gets a signal. -/
theorem covers_update (h : ∀ t, (f t).pairs ≤ t.pairs) : Covers s (s.update f) := by
  have hsum : ((s.tasks.map f).map Thread.pairs).sum ≤ (s.tasks.map Thread.pairs).sum := by
    rw [map_map]
    exact sum_le_sum fun t _ => h t
  show ((s.tasks.map f).map Thread.pairs).sum + s.hint ≤ (s.tasks.map Thread.pairs).sum + s.hint
  omega

theorem covers_withTask (h : ∀ t, (f t).pairs ≤ t.pairs) (pid : Pid) : Covers s (s.withTask pid f) :=
  covers_update fun t => by
    split
    · exact h t
    · exact le_refl _

/-- An update of fields other than the state and the pending set. -/
theorem covers_fields (h : ∀ t, (f t).state = t.state ∧ (f t).sigPending = t.sigPending) (pid : Pid) :
    Covers s (s.withTask pid f) := by
  refine covers_withTask (fun t => pairs_le (fun hl => ?_) (le_of_eq ?_)) pid
  · unfold live at hl ⊢
    rw [← (h t).1]
    exact hl
  · rw [(h t).2]

/-! ### Sending -/

/-- The one task with the pid gets one signal more. -/
theorem sum_pairs_withTask {l : List Thread} (hnodup : (l.map (·.pid)).Nodup)
    (h : ∀ t, (f t).pairs ≤ t.pairs + 1) (tid : Pid) :
    ((l.map fun t => if t.pid = tid then f t else t).map Thread.pairs).sum ≤ (l.map Thread.pairs).sum + 1 := by
  induction l with
  | nil => exact zero_le _
  | cons t rest ih =>
    rw [map_cons, nodup_cons] at hnodup
    simp only [map_cons, sum_cons]
    by_cases ht : t.pid = tid
    · -- nobody else has the pid
      have hrest : (rest.map fun t => if t.pid = tid then f t else t) = rest := by
        conv_rhs => rw [← map_id rest]
        refine map_congr_left fun x hx => if_neg fun hxt => hnodup.1 ?_
        rw [ht, ← hxt]
        exact mem_map_of_mem hx
      rw [if_pos ht, hrest]
      have := h t
      omega
    · rw [if_neg ht]
      have := ih hnodup.2
      omega

theorem covers_queue (hs : Formed s) (me tid : Pid) (sig : Nat) : Covers s (s.queue me tid sig) := by
  have hsum := sum_pairs_withTask hs.nodup (f := Thread.pend sig (s.senderOf me)) (pairs_pend sig _) tid
  show ((s.tasks.map _).map Thread.pairs).sum + s.hint ≤ (s.tasks.map Thread.pairs).sum + (s.hint + 1)
  omega

theorem covers_kill (s : Procs) (pid : Pid) (code : Int) : Covers s (s.kill pid code) := by
  unfold kill
  split
  · split
    · exact Covers.refl s
    · refine covers_update fun t => ?_
      split
      · exact pairs_mark code t
      · exact le_refl _
  · exact Covers.refl s

theorem covers_terminate (s : Procs) (pid : Pid) (sig : Nat) : Covers s (s.terminate pid sig) := by
  have hsignal : Covers s (s.withTask pid fun t => { t with exitSignal := sig % 256 }) := by
    refine covers_fields (fun t => ?_) pid
    exact ⟨rfl, rfl⟩
  exact hsignal.trans (covers_kill _ _ _)

theorem covers_send (hs : Formed s) (me pid : Pid) (sig : Nat) : Covers s (s.send me pid sig).1 := by
  unfold send
  split
  · exact Covers.refl s
  split
  next => exact Covers.refl s
  next t _ =>
  split
  · exact Covers.refl s
  split
  · exact Covers.refl s
  dsimp only
  split
  · exact covers_terminate s _ sig
  split
  · exact Covers.refl s
  split
  · exact Covers.refl s
  split
  · exact covers_terminate s _ sig
  split
  · exact Covers.refl s
  split
  next => exact Covers.refl s
  next target _ => exact covers_queue hs me target sig

theorem covers_sendThread (hs : Formed s) (me tid : Pid) (sig : Nat) : Covers s (s.sendThread me tid sig).1 := by
  unfold sendThread
  split
  · exact Covers.refl s
  split
  next => exact Covers.refl s
  next t _ =>
  split
  · exact Covers.refl s
  split
  · exact covers_send hs me tid sig
  dsimp only
  split
  · exact Covers.refl s
  split
  · exact covers_terminate s _ sig
  · exact covers_queue hs me tid sig

/-- A step that covers and keeps the table well formed, so that such steps can be taken in a row. -/
def Counted (s s' : Procs) : Prop := Covers s s' ∧ Formed s'

theorem counted_send (hs : Formed s) (me pid : Pid) (sig : Nat) : Counted s (s.send me pid sig).1 :=
  ⟨covers_send hs me pid sig, (moves_send_all Tracks.trivial hs me pid sig).formed hs⟩

theorem counted_sendThread (hs : Formed s) (me tid : Pid) (sig : Nat) : Counted s (s.sendThread me tid sig).1 :=
  ⟨covers_sendThread hs me tid sig, (moves_sendThread_all Tracks.trivial hs me tid sig).formed hs⟩

/-- A loop of such steps. -/
theorem counted_foldl {α β : Type} (view : β → Procs) (f : β → α → β)
    (hf : ∀ b a, Formed (view b) → Counted (view b) (view (f b a))) (l : List α) (b : β) (hb : Formed (view b)) :
    Counted (view b) (view (l.foldl f b)) := by
  induction l generalizing b with
  | nil => exact ⟨Covers.refl _, hb⟩
  | cons a rest ih =>
    obtain ⟨hcover, hformed⟩ := hf b a hb
    obtain ⟨hcover', hformed'⟩ := ih (f b a) hformed
    exact ⟨hcover.trans hcover', hformed'⟩

theorem covers_sysKill (hs : Formed s) (me : Pid) (pid : Int) (sig : Nat) : Covers s (s.sysKill me pid sig).1 := by
  unfold sysKill
  split
  · exact Covers.refl s
  dsimp only
  split
  · exact Covers.refl s
  refine (counted_foldl (fun acc : Procs × Bool × Bool => acc.1) _ (fun acc target hacc => ?_) _ (s, false, false) hs).1
  have hsend := counted_send hacc me target sig
  unfold killOne
  dsimp only
  split
  · split
    · split
      · exact hsend
      · exact ⟨Covers.refl _, hacc⟩
    · exact ⟨Covers.refl _, hacc⟩
  · exact hsend

theorem covers_sysTgkill (hs : Formed s) (me : Pid) (tgid : Int) (tid sig : Nat) : Covers s (s.sysTgkill me tgid tid sig).1 := by
  unfold sysTgkill
  split
  · exact Covers.refl s
  split
  · split
    · exact covers_sendThread hs me _ sig
    · exact Covers.refl s
  · exact Covers.refl s

/-- Only the timers of the current task change. -/
theorem covers_timers (s : Procs) (me : Pid) (f : List PosixTimer → List PosixTimer) :
    Covers s (s.withCurrent me fun t => { t with timers := f t.timers }) := by
  refine covers_fields (fun t => ?_) _
  exact ⟨rfl, rfl⟩

theorem covers_checkPosixTimers (hs : Formed s) (me : Pid) (now : Nat) : Covers s (s.checkPosixTimers me now) := by
  unfold checkPosixTimers
  split
  · exact Covers.refl s
  next t _ =>
  have hset := covers_timers s me (fun l => l.map fun x => (expire now x).1)
  have hformed := (moves_timers Tracks.trivial s me (fun l => l.map fun x => (expire now x).1)).formed hs
  refine hset.trans (counted_foldl (fun s : Procs => s) (fire me t.pid) (fun s e h => ?_) _ _ hformed).1
  unfold fire
  split
  · exact counted_sendThread h me e.2 e.1
  · exact counted_send h me t.pid e.1

theorem covers_timerCreate (s : Procs) (me : Pid) (clock : Nat) (sevp : Sevp) (outOk : Bool) :
    Covers s (s.sysTimerCreate me clock sevp outOk).1 := by
  unfold sysTimerCreate
  split
  · exact Covers.refl s
  split
  · exact Covers.refl s
  next signo thread _ =>
  split
  · exact Covers.refl s
  split
  · exact Covers.refl s
  next t _ =>
  have hadd := covers_timers s me (· ++ [⟨freeTimer t.timers, signo, thread, 0, 0, 0⟩])
  split
  · exact hadd
  · exact hadd.trans (covers_timers _ me (·.filter (·.id != freeTimer t.timers)))

theorem covers_timerSettime (s : Procs) (me : Pid) (id next interval : Nat) :
    Covers s (s.sysTimerSettime me id next interval).1 := by
  unfold sysTimerSettime
  split
  · exact Covers.refl s
  split
  · exact Covers.refl s
  next i _ => exact covers_timers s me (·.modify i fun x => { x with next, interval })

/-! ### Receiving -/

theorem covers_takePending (s : Procs) (me : Pid) (sig : Nat) : Covers s (s.takePending me sig) := by
  refine covers_withTask (f := fun t => { t with sigPending := t.sigPending &&& ~~~bit sig }) (fun t => ?_) me
  exact pairs_le (t := t) (fun h => h) (signals_clear t.sigPending (~~~bit sig))

theorem covers_takeSender (s : Procs) (me : Pid) (sig : Nat) : Covers s (s.takeSender me sig) := by
  refine covers_fields (fun t => ?_) me
  exact ⟨rfl, rfl⟩

theorem covers_setMask (s : Procs) (me : Pid) (mask : BitVec 64) : Covers s (s.setMask me mask) := by
  refine covers_fields (fun t => ?_) me
  exact ⟨rfl, rfl⟩

theorem covers_exitSignal (s : Procs) (pid : Pid) (sig : Nat) :
    Covers s (s.withTask pid fun t => { t with exitSignal := sig }) := by
  refine covers_fields (fun t => ?_) pid
  exact ⟨rfl, rfl⟩

theorem covers_sigtimedwait (s : Procs) (me : Pid) (wanted : BitVec 64) : Covers s (s.sigtimedwaitPoll me wanted).1 := by
  unfold sigtimedwaitPoll
  split
  · exact Covers.refl s
  split
  · exact Covers.refl s
  next i _ => exact (covers_takePending s me (i + 1)).trans (covers_takeSender _ me (i + 1))

theorem covers_sigaction (s : Procs) (me : Pid) (sig : Nat) (new : Option SigAction) :
    Covers s (s.sysRtSigaction me sig new).1 := by
  unfold sysRtSigaction
  split
  · exact Covers.refl s
  split
  · exact Covers.refl s
  next action _ =>
  have hset : Covers s (s.withCurrent me fun t =>
      { t with sigActions := Function.update t.sigActions sig action }) := by
    refine covers_fields (fun t => ?_) _
    exact ⟨rfl, rfl⟩
  split
  · refine hset.trans (covers_update fun t => ?_)
    split
    · exact pairs_le (fun h => h) (signals_clear _ _)
    · exact le_refl _
  · exact hset

theorem covers_sigprocmask (s : Procs) (me : Pid) (how : Nat) (set : Option (BitVec 64)) :
    Covers s (s.sysRtSigprocmask me how set).1 := by
  unfold sysRtSigprocmask
  split
  · split
    · exact covers_setMask s me _
    · exact Covers.refl s
  · exact Covers.refl s

variable {me : Pid}

/-- The signal `deliver` takes was one of the pairs. -/
theorem pairs_takePending {t : Thread} (hget : s.get me = some t) (hl : t.live) {i : Nat}
    (hi : t.sigPending.getLsbD i) : (s.takePending me (i + 1)).pendingPairs + 1 ≤ s.pendingPairs := by
  obtain ⟨ht, hpid⟩ := mem_of_get hget
  unfold pendingPairs takePending withTask
  rw [update_tasks, map_map]
  refine succ_le_of_lt (sum_lt_sum _ _ (fun x _ => ?_) ⟨t, ht, ?_⟩)
  · rw [Function.comp_apply]
    split
    · exact pairs_le (fun h => h) (signals_clear _ _)
    · exact le_refl _
  · rw [Function.comp_apply, if_pos hpid]
    show (if t.live then _ else _) < if t.live then _ else _
    rw [if_pos hl, if_pos hl]
    exact signals_clear_bit hi

theorem lowest_mem {x : BitVec 64} {i : Nat} (h : lowest x = some i) : x.getLsbD i := by
  simpa using find?_some h

/-- What a round of `deliver` does after it has taken the signal. -/
theorem covers_deliverTake (s : Procs) (me : Pid) (sig : Nat) :
    Covers { s.takePending me sig with hint := s.hint - 1 } (s.deliverTake me sig).1 := by
  have hsaved : Covers { s.takePending me sig with hint := s.hint - 1 }
      { (s.takePending me sig).withTask me (fun t => { t with savedMask := none }) with hint := s.hint - 1 } := by
    refine covers_fields (s := { s.takePending me sig with hint := s.hint - 1 }) (fun t => ?_) me
    exact ⟨rfl, rfl⟩
  unfold deliverTake
  dsimp only
  split
  · refine hsaved.trans (covers_fields (fun t => ?_) _)
    exact ⟨rfl, rfl⟩
  · exact hsaved

theorem hint_deliver {t : Thread} (hget : s.get me = some t) (hl : t.live) (frameOk : Bool)
    (h : s.pendingPairs ≤ s.hint) : (s.deliverRound me frameOk).1.pendingPairs ≤ (s.deliverRound me frameOk).1.hint := by
  cases hi : lowest (ready t) with
  | none =>
    rw [deliverRound_idle hget hi]
    exact h
  | some i =>
    have hpend : t.sigPending.getLsbD i := by
      have hready := lowest_mem hi
      unfold ready at hready
      rw [getLsbD_and, and_eq_true] at hready
      exact hready.1
    have hpairs := pairs_takePending hget hl hpend
    have htake := covers_deliverTake s me (i + 1)
    -- everything after the decrement covers, and before it the pair was counted
    have hdone : Covers { s.takePending me (i + 1) with hint := s.hint - 1 } (s.deliverRound me frameOk).1 := by
      unfold deliverRound
      simp only [hget, hi]
      split
      · exact htake
      split
      · split
        · exact htake
        · exact htake.trans (covers_exitSignal _ _ _)
      split
      · exact (htake.trans (covers_takeSender _ _ _)).trans (covers_setMask _ _ _)
      · exact (htake.trans (covers_takeSender _ _ _)).trans (covers_exitSignal _ _ _)
    have hsame : pendingPairs { s.takePending me (i + 1) with hint := s.hint - 1 } = (s.takePending me (i + 1)).pendingPairs := rfl
    unfold Covers at hdone
    rw [hsame] at hdone
    dsimp only at hdone
    omega

/-! ### Tasks come and go -/

/-- A new task has nothing pending. -/
theorem covers_insert {child : Thread} (h : child.sigPending = 0) :
    Covers s { s with tasks := s.tasks ++ [child], nextPid := s.nextPid + 1 } := by
  have hchild : child.pairs = 0 := by
    unfold pairs
    rw [h, signals_zero, ite_self]
  unfold Covers pendingPairs
  simp only [map_append, map_cons, map_nil, sum_append, sum_cons, sum_nil, hchild]
  omega

theorem covers_cloneThread (h : s.cloneThread me = some s') : Covers s s' := by
  obtain ⟨t, -, h⟩ := Option.bind_eq_some_iff.mp h
  cases h
  exact covers_insert rfl

theorem covers_fork (h : s.fork me = some s') : Covers s s' := by
  obtain ⟨t, -, h⟩ := Option.bind_eq_some_iff.mp h
  cases h
  exact covers_insert rfl

theorem covers_exec (s : Procs) (me : Pid) (setUid : Option Nat) (abi : Abi) :
    Covers s ((s.withCurrent me (execIds setUid abi)).takePending me sigwinch) := by
  have hids : Covers s (s.withCurrent me (execIds setUid abi)) := by
    refine covers_fields (fun t => ?_) _
    exact ⟨rfl, rfl⟩
  exact hids.trans (covers_takePending _ _ _)

theorem covers_exit (s : Procs) (pid : Pid) : Covers s (s.exitTask pid) := by
  refine covers_withTask (f := fun t => { t with state := .zombie }) (fun t => ?_) pid
  exact pairs_le (t := t) (fun h => by simp [live] at h) le_rfl

theorem covers_stopOthers (s : Procs) (leader : Pid) : Covers s (s.stopOthers leader) :=
  covers_update fun t => by
    split
    · exact pairs_mark 0 t
    · exact le_refl _

theorem covers_removeTask (s : Procs) (pid : Pid) : Covers s (s.removeTask pid) := by
  have hsub : ((s.tasks.filter fun t => t.pid ≠ pid).map Thread.pairs).Sublist (s.tasks.map Thread.pairs) :=
    List.Sublist.map _ filter_sublist
  have hsum := hsub.sum_le_sum fun _ _ => zero_le _
  show ((s.tasks.filter fun t => t.pid ≠ pid).map Thread.pairs).sum + s.hint ≤ (s.tasks.map Thread.pairs).sum + s.hint
  omega

theorem covers_setuid (s : Procs) (me uid : Nat) : Covers s (s.withCurrent me (Procs.setuid uid)) := by
  refine covers_fields (fun t => ?_) _
  unfold Procs.setuid
  split
  · exact ⟨rfl, rfl⟩
  split
  · exact ⟨rfl, rfl⟩
  · exact ⟨rfl, rfl⟩

theorem covers_setreuid (s : Procs) (me ruid euid : Nat) : Covers s (s.withCurrent me (Procs.setreuid ruid euid)) := by
  refine covers_fields (fun t => ?_) _
  unfold Procs.setreuid
  dsimp only
  split
  · exact ⟨rfl, rfl⟩
  · exact ⟨rfl, rfl⟩

theorem covers_setresuid (s : Procs) (me ruid euid suid : Nat) :
    Covers s (s.withCurrent me (Procs.setresuid ruid euid suid)) := by
  refine covers_fields (fun t => ?_) _
  unfold Procs.setresuid
  dsimp only
  split
  · exact ⟨rfl, rfl⟩
  · exact ⟨rfl, rfl⟩

/-- Every step but `deliver` covers, and `deliver` takes one from both sides. -/
theorem hint_step (hf : Formed s) (h : s.pendingPairs ≤ s.hint) {a : Pid × Call} (hstep : s.step a = some s') :
    s'.pendingPairs ≤ s'.hint := by
  obtain ⟨t, hget, hl⟩ := caller_of_step hstep
  obtain ⟨me, call⟩ := a
  have hcover : Covers s s' → s'.pendingPairs ≤ s'.hint := by
    intro hc
    unfold Covers at hc
    omega
  simp only [Procs.step, hget, hl, not_true_eq_false, if_false] at hstep
  cases call with
  | kill pid sig => cases hstep; exact hcover (covers_sysKill hf me pid sig)
  | tgkill tgid tid sig => cases hstep; exact hcover (covers_sysTgkill hf me tgid tid sig)
  | timerCreate clock sevp outOk => cases hstep; exact hcover (covers_timerCreate s me clock sevp outOk)
  | timerSettime id next interval => cases hstep; exact hcover (covers_timerSettime s me id next interval)
  | checkTimers now => cases hstep; exact hcover (covers_checkPosixTimers hf me now)
  | sigaction sig new => cases hstep; exact hcover (covers_sigaction s me sig new)
  | sigprocmask how set => cases hstep; exact hcover (covers_sigprocmask s me how set)
  | setMask mask => cases hstep; exact hcover (covers_setMask s me mask)
  | saveMask old =>
    cases hstep
    refine hcover (covers_fields (fun t => ?_) me)
    exact ⟨rfl, rfl⟩
  | deliver frameOk => cases hstep; exact hint_deliver hget hl frameOk h
  | sigtimedwait wanted => cases hstep; exact hcover (covers_sigtimedwait s me wanted)
  | setuid uid => cases hstep; exact hcover (covers_setuid s me _)
  | setreuid ruid euid => cases hstep; exact hcover (covers_setreuid s me ruid euid)
  | setresuid ruid euid suid => cases hstep; exact hcover (covers_setresuid s me ruid euid suid)
  | exec setUid abi =>
    dsimp only at hstep
    split at hstep
    · cases hstep
      exact hcover (covers_exec s me setUid abi)
    · cases hstep
  | cloneThread => exact hcover (covers_cloneThread hstep)
  | fork => exact hcover (covers_fork hstep)
  | stopOthers =>
    dsimp only at hstep
    split at hstep
    · cases hstep
      exact hcover (covers_stopOthers s me)
    · cases hstep
  | exit =>
    dsimp only at hstep
    split at hstep
    · cases hstep
    · cases hstep
      exact hcover (covers_exit s me)
  | reap pid =>
    dsimp only at hstep
    split at hstep
    · split at hstep
      · cases hstep
      · cases hstep
        exact hcover (covers_removeTask s pid)
    · cases hstep

/-! ### Runs -/

/-- A system call of a thread, or a signal that the kernel sends of its own accord: from a pipe or a
    socket without a reader, a terminal, an alarm, the exit of a child. -/
inductive Event where
  | call (a : Pid × Call)
  | send (me pid : Pid) (sig : Nat)
  | sendThread (me tid : Pid) (sig : Nat)
  | queue (me tid : Pid) (sig : Nat)

/-- One event; reading a `signalfd` takes signals as `rt_sigtimedwait` does. -/
def event (s : Procs) : Event → Option Procs
  | .call a => s.step a
  | .send me pid sig => some (s.send me pid sig).1
  | .sendThread me tid sig => some (s.sendThread me tid sig).1
  | .queue me tid sig => some (s.queue me tid sig)

/-- At boot no signal is pending. -/
structure Quiet (s : Procs) : Prop extends Boot s where
  pending : ∀ t ∈ s.tasks, t.sigPending = 0

theorem Quiet.pairs (h : Quiet s) : s.pendingPairs = 0 := by
  refine sum_eq_zero fun n hn => ?_
  obtain ⟨t, ht, rfl⟩ := mem_map.mp hn
  unfold Thread.pairs
  rw [h.pending t ht, signals_zero, ite_self]

theorem hint_event (h : Formed s ∧ s.pendingPairs ≤ s.hint) {e : Event} (hstep : s.event e = some s') :
    Formed s' ∧ s'.pendingPairs ≤ s'.hint := by
  obtain ⟨hf, hle⟩ := h
  have hcounted : Counted s s' → Formed s' ∧ s'.pendingPairs ≤ s'.hint := by
    rintro ⟨hc, hf'⟩
    unfold Covers at hc
    exact ⟨hf', by omega⟩
  cases e with
  | call a => exact ⟨hf.step hstep, hint_step hf hle hstep⟩
  | send me pid sig => cases hstep; exact hcounted (counted_send hf me pid sig)
  | sendThread me tid sig => cases hstep; exact hcounted (counted_sendThread hf me tid sig)
  | queue me tid sig =>
    cases hstep
    exact hcounted ⟨covers_queue hf me tid sig, (moves_queue Tracks.trivial fun _ _ _ => True.intro).formed hf⟩

/-- In every run the counter is no less than the number of pairs of a live task and a signal pending in
    it; where `maybe_pending` says no, no live task has a signal pending. -/
theorem hint_covers (h : Reach Quiet event (fun _ _ => True) s) :
    s.pendingPairs ≤ s.hint ∧
      ∀ me alarm, s.maybePending me alarm = false → ∀ t ∈ s.tasks, t.live → t.sigPending = 0 := by
  have hle : Formed s ∧ s.pendingPairs ≤ s.hint := by
    refine h.invariant (I := fun s => Formed s ∧ s.pendingPairs ≤ s.hint) (fun s hs => ⟨hs.toBoot.formed, ?_⟩)
      (fun s e s' hs _ hstep => hint_event hs hstep)
    rw [hs.pairs]
    exact Nat.zero_le _
  refine ⟨hle.2, fun me alarm hno t ht hl => ?_⟩
  unfold maybePending at hno
  rw [Bool.or_eq_false_iff] at hno
  have hzero : s.hint = 0 := by simpa using hno.1
  have hpairs : t.pairs ≤ s.pendingPairs := single_le_sum (fun _ _ => Nat.zero_le _) _ (mem_map_of_mem ht)
  unfold Thread.pairs at hpairs
  rw [if_pos hl] at hpairs
  exact signals_eq_zero (by omega)

/-- A process with a handler for signal 10, which is pending twice over. -/
def twiceSignalled : Procs :=
  let s : Procs := ⟨[{ Thread.fresh 1 with abi := .linux, sigActions := fun _ => ⟨4096, 0, 0, 0⟩ }], 2, 0⟩
  (s.queue 0 1 10).queue 0 1 10

theorem hint_covers_twice : twiceSignalled.pendingPairs ≤ twiceSignalled.hint := by
  refine (hint_covers (s := twiceSignalled) (Reach.next (a := .queue 0 1 10)
    (Reach.next (a := .queue 0 1 10) (.start ⟨⟨?_, ?_, ?_⟩, ?_⟩) trivial rfl) trivial rfl)).1
  · decide
  · decide
  · decide
  · decide

end Procs

end HamixOS.Kernel

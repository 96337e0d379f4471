import HamixOS.Kernel.Signal

namespace HamixOS.Kernel

/-!
# What the signal code does to the task table

Sending a signal, whatever the way, only ever marks, pends or wakes threads.  This is
said once, for any relation between a thread before and after:

* `Thread.SamePlace` — the same pid, the same leader, dead or alive as before;
* `Procs.Moves R s s'` — `s'` is `s` with every thread moved along `R`, in its place;
* `Tracks R q` — `R` follows what the senders do to the threads with `q`;
* `moves_send`, `moves_sendThread` — a signal moves the table along `R` if every live
  thread of the process it reaches has `q`;
* `Formed` — pids are distinct and every live thread has a live leader; all system
  calls keep it (`Formed.step`).
-/

namespace Thread

structure SamePlace (t t' : Thread) : Prop where
  pid : t'.pid = t.pid
  leader : t'.leader = t.leader
  live : t'.live = t.live

theorem SamePlace.refl (t : Thread) : SamePlace t t := ⟨rfl, rfl, rfl⟩

theorem SamePlace.trans {t t' t'' : Thread} (h : SamePlace t t') (h' : SamePlace t' t'') :
    SamePlace t t'' :=
  ⟨h'.pid.trans h.pid, h'.leader.trans h.leader, h'.live.trans h.live⟩

theorem awake_samePlace (t : Thread) : SamePlace t t.awake := by
  unfold awake
  split
  next h => exact ⟨rfl, rfl, by rw [h]; rfl⟩
  next => exact .refl t

theorem mark_samePlace (code : Int) (t : Thread) : SamePlace t (t.mark code) :=
  (show SamePlace t { t with killed := t.killed <|> some code } from
    ⟨rfl, rfl, rfl⟩).trans (awake_samePlace _)

theorem pend_samePlace (sig sender : Nat) (t : Thread) : SamePlace t (t.pend sig sender) := by
  have h : SamePlace t { t with
      sigPending := t.sigPending ||| bit sig
      sigSender := Function.update t.sigSender sig sender } := ⟨rfl, rfl, rfl⟩
  unfold pend
  dsimp only
  split
  · exact h.trans (awake_samePlace _)
  · exact h

/-- `R` follows what the senders do to a thread with `q`. -/
structure Tracks (R : Thread → Thread → Prop) (q : Thread → Prop) : Prop where
  refl : ∀ t, R t t
  trans : ∀ {t t' t''}, R t t' → R t' t'' → R t t''
  stable : ∀ {t t'}, R t t' → q t → q t'
  mark : ∀ {t} (code : Int), q t → R t (t.mark code)
  pend : ∀ {t} (sig sender : Nat), q t → R t (t.pend sig sender)
  exitSignal : ∀ t sig, R t { t with exitSignal := sig }
  timers : ∀ t l, R t { t with timers := l }

/-- The relation that says nothing. -/
theorem Tracks.trivial : Tracks (fun _ _ => True) (fun _ => True) := by
  constructor <;> intros <;> exact True.intro

/-- The ids of the thread are the same. -/
def SameIds (t t' : Thread) : Prop := t'.uid = t.uid ∧ t'.ruid = t.ruid

theorem awake_sameIds (t : Thread) : SameIds t t.awake := by
  unfold awake
  split <;> exact ⟨rfl, rfl⟩

theorem tracks_sameIds : Tracks SameIds (fun _ => True) where
  refl := fun t => ⟨rfl, rfl⟩
  trans := fun h h' => ⟨h'.1.trans h.1, h'.2.trans h.2⟩
  stable := fun _ _ => True.intro
  mark := fun {t} code _ => awake_sameIds { t with killed := t.killed <|> some code }
  pend := by
    intro t sig sender _
    unfold pend
    dsimp only
    split
    · exact awake_sameIds { t with
        sigPending := t.sigPending ||| bit sig
        sigSender := Function.update t.sigSender sig sender }
    · exact ⟨rfl, rfl⟩
  exitSignal := fun _ _ => ⟨rfl, rfl⟩
  timers := fun _ _ => ⟨rfl, rfl⟩

end Thread

namespace Procs

open Thread Option Procs

/-- Every thread stays in its place and moves along `R`. -/
def Moves (R : Thread → Thread → Prop) (s s' : Procs) : Prop :=
  s'.nextPid = s.nextPid ∧ ∃ g : Thread → Thread,
    (∀ t, SamePlace t (g t)) ∧ (∀ t ∈ s.tasks, R t (g t)) ∧ s'.tasks = s.tasks.map g

variable {R : Thread → Thread → Prop} {q : Thread → Prop} {s s' s'' : Procs}

theorem Moves.refl (hR : Tracks R q) (s : Procs) : Moves R s s :=
  ⟨rfl, id, SamePlace.refl, fun t _ => hR.refl t, by simp⟩

theorem Moves.comp {R' R'' : Thread → Thread → Prop} (h : Moves R s s') (h' : Moves R' s' s'')
    (hR : ∀ t t' t'', R t t' → R' t' t'' → R'' t t'') : Moves R'' s s'' := by
  obtain ⟨hn, g, hid, hg, htasks⟩ := h
  obtain ⟨hn', g', hid', hg', htasks'⟩ := h'
  refine ⟨hn'.trans hn, g' ∘ g, fun t => (hid t).trans (hid' (g t)), ?_, ?_⟩
  · intro t ht
    have hmem : g t ∈ s'.tasks := by
      rw [htasks]
      exact List.mem_map_of_mem ht
    exact hR _ _ _ (hg t ht) (hg' (g t) hmem)
  · rw [htasks', htasks, List.map_map]

theorem Moves.trans (hR : Tracks R q) (h : Moves R s s') (h' : Moves R s' s'') : Moves R s s'' :=
  h.comp h' (fun _ _ _ => hR.trans)

theorem Moves.mono {R' : Thread → Thread → Prop} (hR : ∀ t t', R t t' → R' t t')
    (h : Moves R s s') : Moves R' s s' := by
  obtain ⟨hn, g, hid, hg, htasks⟩ := h
  exact ⟨hn, g, hid, fun t ht => hR t (g t) (hg t ht), htasks⟩

variable {f : Thread → Thread}

theorem moves_update (hid : ∀ t, SamePlace t (f t))
    (hf : ∀ t ∈ s.tasks, R t (f t)) : Moves R s (s.update f) :=
  ⟨rfl, f, hid, hf, rfl⟩

variable {pid : Pid}

theorem moves_withTask (hrefl : ∀ t, R t t)
    (hid : ∀ t, SamePlace t (f t)) (hf : ∀ t ∈ s.tasks, t.pid = pid → R t (f t)) :
    Moves R s (s.withTask pid f) := by
  refine moves_update (fun t => ?_) (fun t ht => ?_)
  · split
    · exact hid t
    · exact .refl t
  · split
    next hpid => exact hf t ht hpid
    next => exact hrefl t

/-- Who is found afterwards was there before. -/
theorem Moves.get (h : Moves R s s') {t' : Thread} (ht : s'.get pid = some t') :
    ∃ t, s.get pid = some t ∧ SamePlace t t' ∧ R t t' := by
  obtain ⟨-, g, hid, hg, htasks⟩ := h
  have hget : s'.get pid = (s.get pid).map g := by
    unfold Procs.get
    rw [htasks]
    exact get_update (s := s) (fun t => (hid t).pid) pid
  rw [hget] at ht
  obtain ⟨t, hs, rfl⟩ := map_eq_some_iff.mp ht
  exact ⟨t, hs, hid t, hg t (mem_of_get hs).1⟩

theorem Moves.mem (h : Moves R s s') {t' : Thread} (ht : t' ∈ s'.tasks) :
    ∃ t ∈ s.tasks, SamePlace t t' ∧ R t t' := by
  obtain ⟨-, g, hid, hg, htasks⟩ := h
  rw [htasks] at ht
  obtain ⟨t, hs, rfl⟩ := List.mem_map.mp ht
  exact ⟨t, hs, hid t, hg t hs⟩

variable {t : Thread}

theorem Moves.mem_of (h : Moves R s s') (ht : t ∈ s.tasks) :
    ∃ t' ∈ s'.tasks, SamePlace t t' ∧ R t t' := by
  obtain ⟨-, g, hid, hg, htasks⟩ := h
  exact ⟨g t, by rw [htasks]; exact List.mem_map_of_mem ht, hid t, hg t ht⟩

theorem Moves.currentPid (h : Moves R s s') (me : Pid) : s'.currentPid me = s.currentPid me := by
  obtain ⟨-, g, hid, -, htasks⟩ := h
  have hget : s'.get me = (s.get me).map g := by
    unfold Procs.get
    rw [htasks]
    exact get_update (s := s) (fun t => (hid t).pid) me
  have hlead : (Option.map g (s.get me)).map (·.leader) = (s.get me).map (·.leader) := by
    rw [map_map]
    congr 1
    funext t
    exact (hid t).leader
  unfold Procs.currentPid
  rw [hget, hlead]

/-! ### Live threads and their leaders -/

/-- Pids are distinct and counted up, and every live thread has a live leader. -/
structure Formed (s : Procs) : Prop where
  nodup : (s.tasks.map (·.pid)).Nodup
  below : ∀ t ∈ s.tasks, t.pid < s.nextPid
  lead : ∀ t ∈ s.tasks, t.live → ∃ l ∈ s.tasks, l.pid = t.leader ∧ l.leader = t.leader ∧ l.live

theorem Formed.eq_of_pid (h : Formed s) {t m : Thread} (ht : t ∈ s.tasks) (hm : m ∈ s.tasks)
    (hpid : t.pid = m.pid) : t = m :=
  List.inj_on_of_nodup_map h.nodup ht hm hpid

theorem Formed.get (h : Formed s) (ht : t ∈ s.tasks) : s.get t.pid = some t := by
  cases hg : s.get t.pid with
  | none =>
    have := List.find?_eq_none.mp hg t ht
    simp at this
  | some m =>
    obtain ⟨hm, hpid⟩ := mem_of_get hg
    rw [h.eq_of_pid hm ht hpid]

/-- The leader of a live thread, as a lookup finds it. -/
theorem Formed.leader (h : Formed s) (ht : t ∈ s.tasks) (hl : t.live) :
    ∃ l ∈ s.tasks, s.get t.leader = some l ∧ l.pid = t.leader ∧ l.leader = t.leader ∧ l.live := by
  obtain ⟨l, hmem, hpid, hlead, hlive⟩ := h.lead t ht hl
  exact ⟨l, hmem, hpid ▸ h.get hmem, hpid, hlead, hlive⟩

/-- The leader of a live thread leads itself. -/
theorem Formed.self_lead (h : Formed s) (ht : t ∈ s.tasks) (hl : t.live) :
    ∀ x ∈ s.tasks, x.pid = t.leader → x.leader = t.leader := by
  intro x hx hxp
  obtain ⟨l, hmem, hpid, hlead, -⟩ := h.lead t ht hl
  rw [h.eq_of_pid hx hmem (hxp.trans hpid.symm)]
  exact hlead

variable {me : Pid}

/-- The key of a live caller is its leader. -/
theorem Formed.currentKey (h : Formed s) (ht : s.get me = some t)
    (hl : t.live) : s.currentKey me = t.leader := by
  obtain ⟨l, -, hget, -⟩ := h.leader (mem_of_get ht).1 hl
  simp [Procs.currentKey, ht, hget]

theorem Moves.formed (hs : Moves R s s') (h : Formed s) : Formed s' := by
  have hpids : s'.tasks.map (·.pid) = s.tasks.map (·.pid) := by
    obtain ⟨-, g, hid, -, htasks⟩ := hs
    rw [htasks, List.map_map]
    exact List.map_congr_left (fun t _ => (hid t).pid)
  constructor
  · rw [hpids]
    exact h.nodup
  · intro t' ht'
    obtain ⟨t, ht, hid, -⟩ := hs.mem ht'
    rw [hid.pid, hs.1]
    exact h.below t ht
  · intro t' ht' hlive
    obtain ⟨t, ht, hid, -⟩ := hs.mem ht'
    obtain ⟨l, hl, hpid, hlead, hll⟩ := h.lead t ht (hid.live ▸ hlive)
    obtain ⟨l', hl', hid', -⟩ := hs.mem_of hl
    exact ⟨l', hl', by rw [hid'.pid, hpid, hid.leader], by rw [hid'.leader, hlead, hid.leader],
      by rw [hid'.live, hll]⟩

theorem inGroup_iff {leader : Pid} : inGroup leader t ↔ t.leader = leader ∧ t.live := by
  simp [inGroup]

/-! ### A signal moves the process it reaches -/

/-- Every live thread of `leader`'s process has `q`. -/
def Clear (q : Thread → Prop) (s : Procs) (leader : Pid) : Prop :=
  ∀ m ∈ s.tasks, m.leader = leader → m.live → q m

theorem Moves.clear (hR : Tracks R q) (hs : Moves R s s') {leader : Pid}
    (h : Clear q s leader) : Clear q s' leader := by
  intro m' hm' hlead hlive
  obtain ⟨m, hm, hid, hmm⟩ := hs.mem hm'
  exact hR.stable hmm (h m hm (hid.leader ▸ hlead) (hid.live ▸ hlive))

theorem moves_kill (hR : Tracks R q) {code : Int}
    (h : ∀ t, s.get pid = some t → Clear q s t.leader) : Moves R s (s.kill pid code) := by
  unfold kill
  split
  next t ht =>
    split
    · exact .refl hR s
    · refine moves_update (fun m => ?_) (fun m hm => ?_)
      · split
        · exact mark_samePlace code m
        · exact .refl m
      · split
        next hin =>
          obtain ⟨hlead, hl⟩ := inGroup_iff.mp hin
          exact hR.mark code (h t ht m hm hlead hl)
        next => exact hR.refl m
  next => exact .refl hR s

variable {sig : Nat}

theorem moves_terminate (hR : Tracks R q)
    (h : ∀ t, s.get pid = some t → Clear q s t.leader) : Moves R s (s.terminate pid sig) := by
  have hexit : Moves R s (s.withTask pid (fun t => { t with exitSignal := sig % 256 })) :=
    moves_withTask hR.refl (fun t => ⟨rfl, rfl, rfl⟩) (fun t _ _ => hR.exitSignal t _)
  refine hexit.trans hR (moves_kill hR ?_)
  intro t' ht'
  obtain ⟨t, ht, hid, -⟩ := hexit.get ht'
  rw [hid.leader]
  exact hexit.clear hR (h t ht)

theorem moves_queue (hR : Tracks R q) {me tid : Pid}
    (h : ∀ t ∈ s.tasks, t.pid = tid → q t) : Moves R s (s.queue me tid sig) := by
  have hpend : Moves R s (s.withTask tid (Thread.pend sig (s.senderOf me))) :=
    moves_withTask hR.refl (pend_samePlace sig _) (fun t ht hpid => hR.pend sig _ (h t ht hpid))
  exact hpend

/-- `send` queues on a live thread of the process. -/
theorem chosen_mem (h : Formed s) (ht : t ∈ s.tasks) (hl : t.live)
    {target : Pid} (hc : s.chosen t.leader sig = some target) :
    ∃ m ∈ s.tasks, m.pid = target ∧ m.leader = t.leader ∧ m.live := by
  obtain ⟨hor, -⟩ := filter_eq_some_iff.mp hc
  cases hf : (s.groupOf t.leader).find? (fun m => (s.get m).any (fun t => !t.blocks sig)) with
  | some m =>
    rw [hf] at hor
    cases hor
    have hm := List.mem_of_find?_eq_some hf
    obtain ⟨x, hx, rfl⟩ := List.mem_map.mp hm
    obtain ⟨hx, hin⟩ := List.mem_filter.mp hx
    exact ⟨x, hx, rfl, inGroup_iff.mp hin⟩
  | none =>
    rw [hf] at hor
    cases hor
    obtain ⟨l, hmem, hpid, hlead, hlive⟩ := h.lead t ht hl
    exact ⟨l, hmem, hpid, hlead, hlive⟩

/-- The process of a live thread is cleared for a `terminate` of its leader. -/
theorem Formed.clear_leader (h : Formed s) (ht : t ∈ s.tasks) (hl : t.live)
    (hclear : Clear q s t.leader) : ∀ l, s.get t.leader = some l → Clear q s l.leader := by
  intro l hget
  obtain ⟨m, -, hm, -, hlead, -⟩ := h.leader ht hl
  rw [hget] at hm
  cases hm
  rw [hlead]
  exact hclear

theorem Formed.of_pid (h : Formed s) {m t : Thread} (hm : m ∈ s.tasks) (hq : q m)
    (ht : t ∈ s.tasks) (hpid : t.pid = m.pid) : q t := by
  rw [h.eq_of_pid ht hm hpid]
  exact hq

theorem moves_send (hR : Tracks R q) (hs : Formed s) {me pid : Pid}
    (h : ∀ t, s.get pid = some t → t.live → Clear q s t.leader) :
    Moves R s (s.send me pid sig).1 := by
  unfold send
  split
  · exact .refl hR s
  split
  next => exact .refl hR s
  next t hget =>
    have ht := (mem_of_get hget).1
    split
    · exact .refl hR s
    next hlive =>
      have hl : t.live := by simpa using (not_or.mp hlive).2
      have hclear := h t hget hl
      have hterm : Moves R s (s.terminate t.leader sig) :=
        moves_terminate hR (hs.clear_leader ht hl hclear)
      split
      · exact .refl hR s
      dsimp only
      split
      · exact hterm
      split
      · exact .refl hR s
      split
      · exact .refl hR s
      split
      · exact hterm
      split
      · exact .refl hR s
      split
      next => exact .refl hR s
      next target hc =>
        obtain ⟨m, hm, hpid, hlead, hml⟩ := chosen_mem hs ht hl hc
        exact moves_queue hR (fun x hx hxp =>
          hs.of_pid hm (hclear m hm hlead hml) hx (hxp.trans hpid.symm))

theorem moves_sendThread (hR : Tracks R q) (hs : Formed s) {me tid : Pid}
    (h : sig ≠ 0 → ∀ t, s.get tid = some t → q t ∧ Clear q s t.leader ∧
      ∀ l, s.get t.leader = some l → Clear q s l.leader) :
    Moves R s (s.sendThread me tid sig).1 := by
  unfold sendThread
  split
  · exact .refl hR s
  split
  next => exact .refl hR s
  next t hget =>
    obtain ⟨ht, hpid⟩ := mem_of_get hget
    split
    · exact .refl hR s
    next hsig =>
    obtain ⟨hq, hclear, hlead⟩ := h hsig t hget
    split
    · exact moves_send hR hs (fun x hx _ => (h hsig x hx).2.1)
    dsimp only
    split
    · exact .refl hR s
    split
    · exact moves_terminate hR hlead
    · exact moves_queue hR (fun x hx hxp => hs.of_pid ht hq hx (hxp.trans hpid.symm))

/-! ### The calls that send, for a relation that follows every thread -/

section

variable (hR : Tracks R (fun _ => True))
include hR

theorem moves_send_all (hs : Formed s) (me pid : Pid) (sig : Nat) :
    Moves R s (s.send me pid sig).1 :=
  moves_send hR hs (fun _ _ _ _ _ _ _ => trivial)

theorem moves_sendThread_all (hs : Formed s) (me tid : Pid) (sig : Nat) :
    Moves R s (s.sendThread me tid sig).1 :=
  moves_sendThread hR hs (fun _ _ _ => ⟨trivial, fun _ _ _ _ => trivial, fun _ _ _ _ _ _ => trivial⟩)

theorem moves_killOne (hs : Formed s) (me : Pid) (uid ruid : Nat) (b : Bool × Bool) (sig : Nat)
    (target : Pid) : Moves R s (killOne me uid ruid (s, b) sig target).1 := by
  have hsend := moves_send_all hR hs me target sig
  unfold killOne
  dsimp only
  split
  · split
    · split
      · exact hsend
      · exact .refl hR s
    · exact .refl hR s
  · exact hsend

theorem moves_sysKill (hs : Formed s) (me : Pid) (pid : Int) (sig : Nat) :
    Moves R s (s.sysKill me pid sig).1 := by
  have hloop : ∀ (uid ruid : Nat) (targets : List Pid) (acc : Procs × Bool × Bool), Moves R s acc.1 →
      Moves R s (targets.foldl (fun acc target => killOne me uid ruid acc sig target) acc).1 := by
    intro uid ruid targets
    induction targets with
    | nil => exact fun _ h => h
    | cons target rest ih =>
      exact fun acc h => ih _ (h.trans hR (moves_killOne hR (h.formed hs) me uid ruid acc.2 sig target))
  unfold sysKill
  split
  · exact .refl hR s
  dsimp only
  split
  · exact .refl hR s
  · exact hloop _ _ _ (s, false, false) (.refl hR s)

theorem moves_sysTgkill (hs : Formed s) (me : Pid) (tgid : Int) (tid sig : Nat) :
    Moves R s (s.sysTgkill me tgid tid sig).1 := by
  unfold sysTgkill
  split
  · exact .refl hR s
  split
  · split
    · exact moves_sendThread_all hR hs me _ sig
    · exact .refl hR s
  · exact .refl hR s

theorem moves_checkPosixTimers (hs : Formed s) (me : Pid) (now : Nat) :
    Moves R s (s.checkPosixTimers me now) := by
  have hloop : ∀ (pid : Pid) (es : List (Nat × Pid)) (s₁ : Procs), Moves R s s₁ →
      Moves R s (es.foldl (fire me pid) s₁) := by
    intro pid es
    induction es with
    | nil => exact fun _ h => h
    | cons e rest ih =>
      intro s₁ h
      refine ih _ (h.trans hR ?_)
      unfold fire
      split
      · exact moves_sendThread_all hR (h.formed hs) me e.2 e.1
      · exact moves_send_all hR (h.formed hs) me pid e.1
  unfold checkPosixTimers
  split
  · exact .refl hR s
  · refine hloop _ _ _ ?_
    exact moves_withTask hR.refl (fun t => ⟨rfl, rfl, rfl⟩) (fun t _ _ => hR.timers t _)

end

/-- Setting up timers reaches nobody. -/
theorem moves_timers (hR : Tracks R q) (s : Procs) (me : Pid)
    (f : List PosixTimer → List PosixTimer) :
    Moves R s (s.withCurrent me (fun t => { t with timers := f t.timers })) :=
  moves_withTask hR.refl (fun _ => ⟨rfl, rfl, rfl⟩) (fun t _ _ => hR.timers t _)

theorem moves_timerCreate (hR : Tracks R q) (s : Procs) (me : Pid) (clock : Nat) (sevp : Sevp)
    (outOk : Bool) : Moves R s (s.sysTimerCreate me clock sevp outOk).1 := by
  unfold sysTimerCreate
  split
  · exact .refl hR s
  split
  · exact .refl hR s
  next signo thread _ =>
  split
  · exact .refl hR s
  split
  · exact .refl hR s
  next t _ =>
  have hadd := moves_timers hR s me (· ++ [⟨freeTimer t.timers, signo, thread, 0, 0, 0⟩])
  split
  · exact hadd
  · exact hadd.trans hR (moves_timers hR _ me (·.filter (·.id != freeTimer t.timers)))

theorem moves_timerSettime (hR : Tracks R q) (s : Procs) (me : Pid) (id next interval : Nat) :
    Moves R s (s.sysTimerSettime me id next interval).1 := by
  unfold sysTimerSettime
  split
  · exact .refl hR s
  split
  · exact .refl hR s
  · exact moves_withTask hR.refl (fun _ => ⟨rfl, rfl, rfl⟩) (fun t _ _ => hR.timers t _)

/-! ### What keeps the table well formed -/

theorem Formed.withTask (hs : Formed s) (hid : ∀ t, SamePlace t (f t))
    (pid : Pid) : Formed (s.withTask pid f) :=
  Moves.formed (R := fun _ _ => True) (moves_withTask (fun _ => trivial) hid (fun _ _ _ => trivial)) hs

/-- A new task with a fresh pid that is its own leader, or that follows a live one, keeps
    the table well formed. -/
theorem Formed.insert (hs : Formed s) {child : Thread} (hpid : child.pid = s.nextPid)
    (hlead : child.leader = child.pid ∨
      ∃ l ∈ s.tasks, l.pid = child.leader ∧ l.leader = child.leader ∧ l.live) (hl : child.live) :
    Formed { s with tasks := s.tasks ++ [child], nextPid := s.nextPid + 1 } := by
  have hfresh : ∀ t ∈ s.tasks, t.pid ≠ child.pid := by
    intro t ht
    rw [hpid]
    exact Nat.ne_of_lt (hs.below t ht)
  constructor
  · simp only [List.map_append, List.map_cons, List.map_nil]
    refine List.Nodup.append hs.nodup (by simp) ?_
    intro x hx hx'
    obtain ⟨t, ht, rfl⟩ := List.mem_map.mp hx
    exact hfresh t ht (by simpa using hx')
  · intro t ht
    show t.pid < s.nextPid + 1
    rcases List.mem_append.mp ht with ht | ht
    · exact Nat.lt_succ_of_lt (hs.below t ht)
    · rw [List.mem_singleton.mp ht, hpid]
      exact Nat.lt_succ_self s.nextPid
  · intro t ht htl
    rcases List.mem_append.mp ht with ht | ht
    · obtain ⟨l, hmem, h⟩ := hs.lead t ht htl
      exact ⟨l, List.mem_append_left _ hmem, h⟩
    · rw [List.mem_singleton.mp ht]
      rcases hlead with hself | ⟨l, hmem, h⟩
      · exact ⟨child, by simp, hself.symm, rfl, hl⟩
      · exact ⟨l, List.mem_append_left _ hmem, h⟩

/-- The thread `clone_task` makes of the caller `current`, whose leader is `leader`. -/
def threadOf (s : Procs) (current leader : Thread) : Thread :=
  { Thread.fresh s.nextPid with
    leader := current.leader
    abi := leader.abi
    uid := leader.uid
    ruid := leader.ruid
    suid := leader.suid
    pgid := leader.pgid
    sigMask := current.sigMask }

theorem Formed.cloneThread_eq (hs : Formed s) (ht : s.get me = some t)
    (hl : t.live) : ∃ l ∈ s.tasks, l.pid = t.leader ∧ l.leader = t.leader ∧ l.live ∧ s.cloneThread me =
        some { s with tasks := s.tasks ++ [s.threadOf t l], nextPid := s.nextPid + 1 } := by
  obtain ⟨l, hmem, hget, hpid, hlead, hll⟩ := hs.leader (mem_of_get ht).1 hl
  refine ⟨l, hmem, hpid, hlead, hll, ?_⟩
  simp only [Procs.cloneThread, ht, bind_eq_bind, bind_some, hget, getD_some]
  rfl

theorem fork_eq (h : s.fork me = some s') : ∃ child : Thread,
    child.pid = s.nextPid ∧ child.leader = child.pid ∧ child.live ∧
      s' = { s with tasks := s.tasks ++ [child], nextPid := s.nextPid + 1 } := by
  obtain ⟨t, -, h⟩ := bind_eq_some_iff.mp h
  cases h
  exact ⟨_, rfl, rfl, rfl, rfl⟩

theorem Formed.removeTask (hs : Formed s)
    (hz : ∀ t ∈ s.tasks, t.pid = pid → ¬ t.live) : Formed (s.removeTask pid) := by
  have hsub : ∀ t ∈ (s.removeTask pid).tasks, t ∈ s.tasks := fun t ht => (List.mem_filter.mp ht).1
  constructor
  · exact hs.nodup.sublist (List.Sublist.map _ List.filter_sublist)
  · exact fun t ht => hs.below t (hsub t ht)
  · intro t ht hl
    obtain ⟨l, hmem, hpid, hlead, hll⟩ := hs.lead t (hsub t ht) hl
    have hne : l.pid ≠ pid := fun h => hz l hmem h hll
    exact ⟨l, List.mem_filter.mpr ⟨hmem, by simpa using hne⟩, hpid, hlead, hll⟩

/-- A thread that is not the leader of other live threads may turn into a zombie. -/
theorem Formed.exitTask (hs : Formed s)
    (halone : ∀ t ∈ s.tasks, t.live → t.leader = pid → t.pid = pid) : Formed (s.exitTask pid) := by
  have hlive : ∀ t : Thread, (if t.pid = pid then { t with state := State.zombie } else t).live →
      t.pid ≠ pid ∧ t.live := by
    intro t h
    split at h
    · simp [Thread.live] at h
    next hne => exact ⟨hne, h⟩
  constructor
  · simp only [Procs.exitTask, Procs.withTask, update_tasks, List.map_map]
    have : List.map ((·.pid) ∘ fun t : Thread =>
        if t.pid = pid then { t with state := State.zombie } else t) s.tasks
        = s.tasks.map (·.pid) :=
      List.map_congr_left (fun t _ => by simp only [Function.comp]; split <;> rfl)
    rw [this]
    exact hs.nodup
  · intro t' ht'
    obtain ⟨t, ht, rfl⟩ := List.mem_map.mp ht'
    have := hs.below t ht
    split <;> exact this
  · intro t' ht' hl
    obtain ⟨t, ht, rfl⟩ := List.mem_map.mp ht'
    obtain ⟨hne, hl⟩ := hlive t hl
    rw [if_neg hne]
    obtain ⟨l, hmem, hpid, hlead, hll⟩ := hs.lead t ht hl
    have hlne : l.pid ≠ pid := fun h => hne (halone t ht hl (hpid.symm.trans h))
    refine ⟨l, List.mem_map.mpr ⟨l, hmem, by rw [if_neg hlne]⟩, hpid, hlead, hll⟩

/-! ### Receiving, dispositions and masks leave the ids alone -/

theorem ids_withTask (hid : ∀ t, SamePlace t (f t))
    (hf : ∀ t, SameIds t (f t)) (s : Procs) (pid : Pid) : Moves SameIds s (s.withTask pid f) :=
  moves_withTask (fun _ => ⟨rfl, rfl⟩) hid (fun t _ _ => hf t)

theorem ids_takePending (s : Procs) (me : Pid) (sig : Nat) :
    Moves SameIds s (s.takePending me sig) := by
  refine ids_withTask (fun _ => ?_) (fun _ => ?_) s me
  · exact ⟨rfl, rfl, rfl⟩
  · exact ⟨rfl, rfl⟩

theorem ids_takeSender (s : Procs) (me : Pid) (sig : Nat) : Moves SameIds s (s.takeSender me sig) := by
  refine ids_withTask (fun _ => ?_) (fun _ => ?_) s me
  · exact ⟨rfl, rfl, rfl⟩
  · exact ⟨rfl, rfl⟩

theorem ids_setMask (s : Procs) (me : Pid) (mask : BitVec 64) : Moves SameIds s (s.setMask me mask) := by
  refine ids_withTask (fun _ => ?_) (fun _ => ?_) s me
  · exact ⟨rfl, rfl, rfl⟩
  · exact ⟨rfl, rfl⟩

theorem ids_setAction (s : Procs) (me : Pid) (sig : Nat) (action : SigAction) :
    Moves SameIds s (s.withCurrent me (fun t =>
      { t with sigActions := Function.update t.sigActions sig action })) := by
  refine ids_withTask (fun _ => ?_) (fun _ => ?_) s _
  · exact ⟨rfl, rfl, rfl⟩
  · exact ⟨rfl, rfl⟩

theorem ids_saveMask (s : Procs) (me : Pid) (old : Option (BitVec 64)) :
    Moves SameIds s (s.withTask me (fun t => { t with savedMask := old })) := by
  refine ids_withTask (fun _ => ?_) (fun _ => ?_) s me
  · exact ⟨rfl, rfl, rfl⟩
  · exact ⟨rfl, rfl⟩

theorem Moves.trans_ids (h : Moves SameIds s s') (h' : Moves SameIds s' s'') :
    Moves SameIds s s'' :=
  h.trans tracks_sameIds h'

/-- What a round of `deliver` does to a thread once the signal `x` is out of the pending
    set: the mask of `me` may become that of a handler, the rest is bookkeeping. -/
structure Rest (me : Pid) (mask : BitVec 64) (x : Nat) (t t' : Thread) : Prop where
  pid : t'.pid = t.pid
  leader : t'.leader = t.leader
  uid : t'.uid = t.uid
  ruid : t'.ruid = t.ruid
  sigPending : t'.sigPending = t.sigPending
  killed : t'.killed = t.killed
  sigMask : t'.sigMask = t.sigMask ∨
    t.pid = me ∧ ∃ action, t'.sigMask = handlerMask mask x action &&& ~~~unblockable

theorem Rest.trans {mask : BitVec 64} {x : Nat} {t t' t'' : Thread}
    (h : Rest me mask x t t') (h' : Rest me mask x t' t'') : Rest me mask x t t'' where
  pid := h'.pid.trans h.pid
  leader := h'.leader.trans h.leader
  uid := h'.uid.trans h.uid
  ruid := h'.ruid.trans h.ruid
  sigPending := h'.sigPending.trans h.sigPending
  killed := h'.killed.trans h.killed
  sigMask := by
    rcases h'.sigMask with hm | ⟨hp, hm⟩
    · rw [hm]
      exact h.sigMask
    · exact .inr ⟨h.pid ▸ hp, hm⟩

/-- An update that only keeps books. -/
theorem rest_withTask {mask : BitVec 64} {x : Nat}
    (hid : ∀ t, SamePlace t (f t)) (hf : ∀ t, Rest me mask x t (f t)) (s : Procs) (pid : Pid) :
    Moves (Rest me mask x) s (s.withTask pid f) :=
  moves_withTask (fun _ => ⟨rfl, rfl, rfl, rfl, rfl, rfl, .inl rfl⟩) hid (fun t _ _ => hf t)

theorem rest_exitSignal (me : Pid) (mask : BitVec 64) (x : Nat) (s : Procs) (pid : Pid) (sig : Nat) :
    Moves (Rest me mask x) s (s.withTask pid (fun t => { t with exitSignal := sig })) := by
  refine rest_withTask (fun _ => ?_) (fun _ => ?_) s pid
  · exact ⟨rfl, rfl, rfl⟩
  · exact ⟨rfl, rfl, rfl, rfl, rfl, rfl, .inl rfl⟩

theorem rest_deliverTake (s : Procs) (me : Pid) (mask : BitVec 64) (x : Nat) :
    Moves (Rest me mask x) (s.takePending me x) (s.deliverTake me x).1 := by
  have hsaved : Moves (Rest me mask x) (s.takePending me x)
      ((s.takePending me x).withTask me (fun t => { t with savedMask := none })) := by
    refine rest_withTask (fun _ => ?_) (fun _ => ?_) _ me
    · exact ⟨rfl, rfl, rfl⟩
    · exact ⟨rfl, rfl, rfl, rfl, rfl, rfl, .inl rfl⟩
  unfold deliverTake
  dsimp only
  split
  · refine Moves.comp hsaved ?_ (fun _ _ _ => Rest.trans)
    refine rest_withTask (fun _ => ?_) (fun _ => ?_) _ _
    · exact ⟨rfl, rfl, rfl⟩
    · exact ⟨rfl, rfl, rfl, rfl, rfl, rfl, .inl rfl⟩
  · exact hsaved

/-- A round of `deliver` that finds signal `i + 1`: it leaves the pending set, and the
    rest is `Rest`. -/
theorem rest_deliverRound (hget : s.get me = some t) {i : Nat}
    (hi : lowest (ready t) = some i) (frameOk : Bool) :
    Moves (Rest me (t.savedMask.getD t.sigMask) (i + 1)) (s.takePending me (i + 1))
        (s.deliverRound me frameOk).1 ∧
      (s.deliverRound me frameOk).2.received = some (i + 1) := by
  have htake := rest_deliverTake s me (t.savedMask.getD t.sigMask) (i + 1)
  unfold deliverRound
  simp only [hget, hi]
  split
  · exact ⟨htake, rfl⟩
  split
  · split
    · exact ⟨htake, rfl⟩
    · exact ⟨htake.comp (rest_exitSignal _ _ _ _ _ _) (fun _ _ _ => Rest.trans), rfl⟩
  have hsender : Moves (Rest me (t.savedMask.getD t.sigMask) (i + 1)) (s.takePending me (i + 1))
      ((s.deliverTake me (i + 1)).1.takeSender me (i + 1)) := by
    refine htake.comp (rest_withTask (fun _ => ?_) (fun _ => ?_) _ me) (fun _ _ _ => Rest.trans)
    · exact ⟨rfl, rfl, rfl⟩
    · exact ⟨rfl, rfl, rfl, rfl, rfl, rfl, .inl rfl⟩
  split
  · refine ⟨hsender.comp (moves_withTask ?_ (fun _ => ?_) ?_) (fun _ _ _ => Rest.trans), rfl⟩
    · exact fun _ => ⟨rfl, rfl, rfl, rfl, rfl, rfl, .inl rfl⟩
    · exact ⟨rfl, rfl, rfl⟩
    · exact fun _ _ hp => ⟨rfl, rfl, rfl, rfl, rfl, rfl, .inr ⟨hp, _, rfl⟩⟩
  · exact ⟨hsender.comp (rest_exitSignal _ _ _ _ _ _) (fun _ _ _ => Rest.trans), rfl⟩

/-- A round of `deliver` that finds nothing. -/
theorem deliverRound_idle (hget : s.get me = some t)
    (hi : lowest (ready t) = none) (frameOk : Bool) :
    s.deliverRound me frameOk = (s, .idle) := by
  unfold deliverRound
  simp only [hget, hi]

theorem ids_deliverRound (s : Procs) (me : Pid) (frameOk : Bool) :
    Moves SameIds s (s.deliverRound me frameOk).1 := by
  cases hget : s.get me with
  | none =>
    unfold deliverRound
    rw [hget]
    exact .refl tracks_sameIds s
  | some t =>
    cases hi : lowest (ready t) with
    | none =>
      rw [deliverRound_idle hget hi]
      exact .refl tracks_sameIds s
    | some i =>
      refine (ids_takePending s me (i + 1)).trans_ids ?_
      exact (rest_deliverRound hget hi frameOk).1.mono (fun _ _ h => ⟨h.uid, h.ruid⟩)

theorem ids_sysRtSigaction (s : Procs) (me : Pid) (sig : Nat) (new : Option SigAction) :
    Moves SameIds s (s.sysRtSigaction me sig new).1 := by
  unfold sysRtSigaction
  split
  · exact .refl tracks_sameIds s
  split
  · exact .refl tracks_sameIds s
  next action _ =>
  have hset := ids_setAction s me sig action
  split
  · refine hset.trans_ids (moves_update (fun t => ?_) (fun t _ => ?_))
    · split <;> exact ⟨rfl, rfl, rfl⟩
    · split <;> exact ⟨rfl, rfl⟩
  · exact hset

theorem ids_sysRtSigprocmask (s : Procs) (me : Pid) (how : Nat) (set : Option (BitVec 64)) :
    Moves SameIds s (s.sysRtSigprocmask me how set).1 := by
  unfold sysRtSigprocmask
  split
  · split
    · exact ids_setMask s me _
    · exact .refl tracks_sameIds s
  · exact .refl tracks_sameIds s

theorem ids_sigtimedwaitPoll (s : Procs) (me : Pid) (wanted : BitVec 64) :
    Moves SameIds s (s.sigtimedwaitPoll me wanted).1 := by
  unfold sigtimedwaitPoll
  split
  · exact .refl tracks_sameIds s
  split
  · exact .refl tracks_sameIds s
  · exact (ids_takePending s me _).trans_ids (ids_takeSender _ me _)

theorem ids_stopOthers (s : Procs) (leader : Pid) : Moves SameIds s (s.stopOthers leader) := by
  refine moves_update (fun t => ?_) (fun t _ => ?_)
  · split
    · exact mark_samePlace 0 t
    · exact .refl t
  · split
    · exact tracks_sameIds.mark 0 trivial
    · exact ⟨rfl, rfl⟩

/-! ### Runs -/

/-- What a thread of the system does, or what happens to a task. -/
inductive Call where
  | kill (pid : Int) (sig : Nat)
  | tgkill (tgid : Int) (tid sig : Nat)
  | timerCreate (clock : Nat) (sevp : Sevp) (outOk : Bool)
  | timerSettime (id next interval : Nat)
  | checkTimers (now : Nat)
  | sigaction (sig : Nat) (new : Option SigAction)
  | sigprocmask (how : Nat) (set : Option (BitVec 64))
  | setMask (mask : BitVec 64)
  | saveMask (old : BitVec 64)
  | deliver (frameOk : Bool)
  | sigtimedwait (wanted : BitVec 64)
  | setuid (uid : Nat)
  | setreuid (ruid euid : Nat)
  | setresuid (ruid euid suid : Nat)
  | exec (setUid : Option Nat) (abi : Abi)
  | cloneThread
  | fork
  | stopOthers
  | exit
  | reap (pid : Pid)

/-- `leader` is the only live thread of its process. -/
def Alone (s : Procs) (leader : Pid) : Prop := ∀ t ∈ s.tasks, inGroup leader t → t.pid = leader

instance (s : Procs) (leader : Pid) : Decidable (s.Alone leader) :=
  inferInstanceAs (Decidable (∀ t ∈ s.tasks, inGroup leader t → t.pid = leader))

/-- One step of the running thread `a.1`.  `exec` and the exit of a leader come after
    `stop_other_threads` has seen every other thread of the process die. -/
def step (s : Procs) (a : Pid × Call) : Option Procs :=
  match s.get a.1 with
  | none => none
  | some t =>
    if ¬ t.live then none
    else
      match a.2 with
      | .kill pid sig => some (s.sysKill a.1 pid sig).1
      | .tgkill tgid tid sig => some (s.sysTgkill a.1 tgid tid sig).1
      | .timerCreate clock sevp outOk => some (s.sysTimerCreate a.1 clock sevp outOk).1
      | .timerSettime id next interval => some (s.sysTimerSettime a.1 id next interval).1
      | .checkTimers now => some (s.checkPosixTimers a.1 now)
      | .sigaction sig new => some (s.sysRtSigaction a.1 sig new).1
      | .sigprocmask how set => some (s.sysRtSigprocmask a.1 how set).1
      | .setMask mask => some (s.setMask a.1 mask)
      | .saveMask old => some (s.saveMask a.1 old)
      | .deliver frameOk => some (s.deliverRound a.1 frameOk).1
      | .sigtimedwait wanted => some (s.sigtimedwaitPoll a.1 wanted).1
      | .setuid uid => some (s.withCurrent a.1 (Procs.setuid (uid % 2 ^ 32)))
      | .setreuid ruid euid => some (s.withCurrent a.1 (Procs.setreuid ruid euid))
      | .setresuid ruid euid suid => some (s.withCurrent a.1 (Procs.setresuid ruid euid suid))
      | .exec setUid abi =>
        if s.Alone t.leader then
          some ((s.withCurrent a.1 (execIds setUid abi)).takePending a.1 sigwinch)
        else none
      | .cloneThread => s.cloneThread a.1
      | .fork => s.fork a.1
      | .stopOthers => if t.leader = a.1 then some (s.stopOthers a.1) else none
      | .exit => if t.leader = a.1 ∧ ¬ s.Alone a.1 then none else some (s.exitTask a.1)
      | .reap pid =>
        match s.get pid with
        | some z => if z.live then none else some (s.removeTask pid)
        | none => none

/-- At boot every task is a process of its own. -/
structure Boot (s : Procs) : Prop where
  nodup : (s.tasks.map (·.pid)).Nodup
  below : ∀ t ∈ s.tasks, t.pid < s.nextPid
  self : ∀ t ∈ s.tasks, t.leader = t.pid

theorem Boot.formed (h : Boot s) : Formed s where
  nodup := h.nodup
  below := h.below
  lead := fun t ht hl => ⟨t, ht, (h.self t ht).symm, rfl, hl⟩

theorem setuid_samePlace (uid : Nat) (t : Thread) : SamePlace t (setuid uid t) := by
  unfold setuid
  split
  · exact ⟨rfl, rfl, rfl⟩
  split <;> exact ⟨rfl, rfl, rfl⟩

theorem setreuid_samePlace (ruid euid : Nat) (t : Thread) : SamePlace t (setreuid ruid euid t) := by
  unfold setreuid
  dsimp only
  split <;> exact ⟨rfl, rfl, rfl⟩

theorem setresuid_samePlace (ruid euid suid : Nat) (t : Thread) :
    SamePlace t (setresuid ruid euid suid t) := by
  unfold setresuid
  dsimp only
  split <;> exact ⟨rfl, rfl, rfl⟩

/-- A step is taken by a live thread. -/
theorem caller_of_step {a : Pid × Call} (h : s.step a = some s') :
    ∃ t, s.get a.1 = some t ∧ t.live := by
  unfold step at h
  split at h
  · cases h
  next t hget =>
    split at h
    · cases h
    next hl => exact ⟨t, hget, not_not.mp hl⟩

theorem Formed.step (hs : Formed s) {a : Pid × Call} (h : s.step a = some s') : Formed s' := by
  obtain ⟨t, hget, hl⟩ := caller_of_step h
  obtain ⟨me, call⟩ := a
  have ht := (mem_of_get hget).1
  simp only [Procs.step, hget, hl, not_true_eq_false, if_false] at h
  cases call with
  | kill pid sig => cases h; exact (moves_sysKill .trivial hs me pid sig).formed hs
  | tgkill tgid tid sig => cases h; exact (moves_sysTgkill .trivial hs me tgid tid sig).formed hs
  | timerCreate clock sevp outOk =>
    cases h
    exact (moves_timerCreate .trivial s me clock sevp outOk).formed hs
  | timerSettime id next interval =>
    cases h
    exact (moves_timerSettime .trivial s me id next interval).formed hs
  | checkTimers now => cases h; exact (moves_checkPosixTimers .trivial hs me now).formed hs
  | sigaction sig new => cases h; exact (ids_sysRtSigaction s me sig new).formed hs
  | sigprocmask how set => cases h; exact (ids_sysRtSigprocmask s me how set).formed hs
  | setMask mask => cases h; exact (ids_setMask s me mask).formed hs
  | saveMask old => cases h; exact (ids_saveMask s me (some old)).formed hs
  | deliver frameOk => cases h; exact (ids_deliverRound s me frameOk).formed hs
  | sigtimedwait wanted => cases h; exact (ids_sigtimedwaitPoll s me wanted).formed hs
  | setuid uid => cases h; exact hs.withTask (setuid_samePlace _) _
  | setreuid ruid euid => cases h; exact hs.withTask (setreuid_samePlace ruid euid) _
  | setresuid ruid euid suid => cases h; exact hs.withTask (setresuid_samePlace ruid euid suid) _
  | exec setUid abi =>
    dsimp only at h
    split at h
    · cases h
      refine (ids_takePending _ me sigwinch).formed (Formed.withTask hs ?_ _)
      exact fun t => ⟨rfl, rfl, rfl⟩
    · cases h
  | cloneThread =>
    obtain ⟨l, hmem, hpid, hlead, hll, heq⟩ := hs.cloneThread_eq hget hl
    rw [heq] at h
    cases h
    exact hs.insert rfl (.inr ⟨l, hmem, hpid, hlead, hll⟩) rfl
  | fork =>
    obtain ⟨child, hpid, hlead, hcl, rfl⟩ := fork_eq h
    exact hs.insert hpid (.inl hlead) hcl
  | stopOthers =>
    dsimp only at h
    split at h
    · cases h; exact (ids_stopOthers s me).formed hs
    · cases h
  | exit =>
    dsimp only at h
    split at h
    · cases h
    next hno =>
      cases h
      refine hs.exitTask (fun x hx hxl hxlead => ?_)
      -- whoever follows `me` shows that `me` leads itself
      obtain ⟨l, hmem, hlp, hll, -⟩ := hs.lead x hx hxl
      have hlt : l = t := hs.eq_of_pid hmem ht (by rw [hlp, hxlead, (mem_of_get hget).2])
      have hlead : t.leader = me := by rw [← hlt, hll, hxlead]
      have halone : s.Alone me := by
        by_contra hn
        exact hno ⟨hlead, hn⟩
      exact halone x hx (inGroup_iff.mpr ⟨hxlead, hxl⟩)
  | reap pid =>
    dsimp only at h
    split at h
    next z hz =>
      split at h
      · cases h
      next hzl =>
        cases h
        refine hs.removeTask (fun x hx hxp => ?_)
        rw [hs.eq_of_pid hx (mem_of_get hz).1 (hxp.trans (mem_of_get hz).2.symm)]
        exact hzl
    next => cases h

end Procs

end HamixOS.Kernel

import HamixOS.Kernel.Pipe

open HamixOS.Lib List Function

namespace HamixOS.Kernel

namespace Pipe

/-!
# What a pipe keeps

A pipe that is not a terminal, from its creation on, with any number of tasks that write and
read.  `entered` is the merge of the writers' bytes in the order they went in: the bytes read
are a prefix of it, and the part of it that is one writer's is what its calls say they wrote,
in the order of the calls.

`Integrity` is the claim for reads of at least one byte and for writes that do not fail; a
read of no bytes returns `0` at once, whatever the pipe holds.
-/

/-- What the calls of one writer put in, call after call. -/
def State.wrote (s : State) (tid : Nat) : List UInt8 :=
  ((s.written.filter fun w => w.writer = tid).flatMap fun w => w.data.take w.entered) ++
    match s.writes tid with
    | none => []
    | some c => c.data.take c.entered

/-- The result of a write: the number of its bytes that went in, or an error and none did. -/
def Written.Counted (w : Written) : Prop :=
  w.entered ≤ w.data.length ∧
    ∀ r, w.result = some r → r = w.entered ∨ (w.entered = 0 ∧ (r = epipe ∨ r = eintr))

structure Integrity (s : State) : Prop where
  read : s.taken <+: s.entered.map (·.2)
  merge : ∀ tid, (s.entered.filter fun e => e.1 = tid).map (·.2) = s.wrote tid
  results : ∀ w ∈ s.written, w.Counted
  room : ∀ p, s.pipe = some p → p.buffer.length ≤ capacity
  zero : ∀ r ∈ s.readDone, r.size ≠ 0 → r.result = 0 → r.ended = true

/-- The claim without its exceptions. -/
structure Claimed (s : State) : Prop where
  read : s.taken <+: s.entered.map (·.2)
  merge : ∀ tid, (s.entered.filter fun e => e.1 = tid).map (·.2) = s.wrote tid
  results : ∀ w ∈ s.written, ∀ r, w.result = some r → r = w.entered
  room : ∀ p, s.pipe = some p → p.buffer.length ≤ capacity
  zero : ∀ r ∈ s.readDone, r.result = 0 → r.ended = true

/-! ### The invariant -/

/-- A write under way on a pipe that is no terminal: every byte it took went in. -/
structure WriteCall.Plain (c : WriteCall) : Prop where
  policy : c.policy = none
  quiet : ∀ i taken, c.phase ≠ .signalling i taken
  count : c.entered = c.done
  within : c.done ≤ c.data.length

structure Plain (p : Buf) : Prop where
  tty : p.tty = false
  group : p.group = 0
  room : p.buffer.length ≤ capacity

structure Inv (s : State) : Prop where
  read : s.taken <+: s.entered.map (·.2)
  merge : ∀ tid, (s.entered.filter fun e => e.1 = tid).map (·.2) = s.wrote tid
  results : ∀ w ∈ s.written, w.Counted
  zero : ∀ r ∈ s.readDone, r.size ≠ 0 → r.result = 0 → r.ended = true
  plain : ∀ p, s.pipe = some p → Plain p
  queue : ∀ p, s.pipe = some p → s.taken ++ p.buffer = s.entered.map (·.2)
  writes : ∀ tid c, s.writes tid = some c → c.Plain
  reads : ∀ tid c, s.reads tid = some c → c.size ≠ 0

variable {s : State}

theorem Inv.integrity_of_inv (h : Inv s) : Integrity s :=
  ⟨h.read, h.merge, h.results, fun p hp => (h.plain p hp).room, h.zero⟩

/-- The pipe itself may change as long as it holds what it held. -/
theorem Inv.setPipe (h : Inv s) {pipe : Option Buf}
    (hpipe : ∀ p, pipe = some p → ∃ q, s.pipe = some q ∧ p.buffer = q.buffer ∧ p.tty = q.tty ∧ p.group = q.group) :
    Inv { s with pipe := pipe } := by
  refine ⟨h.read, h.merge, h.results, h.zero, ?_, ?_, h.writes, h.reads⟩
  · intro p hp
    obtain ⟨q, hq, hb, ht, hg⟩ := hpipe p hp
    obtain ⟨h1, h2, h3⟩ := h.plain q hq
    exact ⟨ht.trans h1, hg.trans h2, hb ▸ h3⟩
  · intro p hp
    obtain ⟨q, hq, hb, -⟩ := hpipe p hp
    rw [hb]
    exact h.queue q hq

theorem Inv.retain (h : Inv s) (reader : Bool) : Inv (s.retain reader) := by
  refine h.setPipe fun p hp => ?_
  obtain ⟨q, hq, rfl⟩ := Option.map_eq_some_iff.mp hp
  refine ⟨q, hq, ?_⟩
  split_ifs
  · exact ⟨rfl, rfl, rfl⟩
  · exact ⟨rfl, rfl, rfl⟩

theorem Inv.release (h : Inv s) (reader : Bool) : Inv (s.release reader) := by
  unfold State.release
  cases hq : s.pipe with
  | none => exact h
  | some q =>
    refine h.setPipe fun p hp => ?_
    obtain ⟨-, heq⟩ := Option.ite_none_left_eq_some.mp hp
    refine ⟨q, hq, ?_⟩
    cases reader with
    | true =>
      cases heq
      exact ⟨rfl, rfl, rfl⟩
    | false =>
      cases heq
      exact ⟨rfl, rfl, rfl⟩

/-! ### Writers -/

variable {tid : Nat}

theorem wrote_setWrite {c c' : WriteCall} (hc : s.writes tid = some c)
    (hsame : c'.data.take c'.entered = c.data.take c.entered) (i : Nat) :
    (s.setWrite tid c').wrote i = s.wrote i := by
  unfold State.wrote State.setWrite
  dsimp only
  by_cases hi : i = tid
  · rw [hi, update_self, hc]
    dsimp only
    rw [hsame]
  · rw [update_of_ne hi]

/-- A call that is already counted for what it put in goes on. -/
theorem Inv.setWrite (h : Inv s) {c w : WriteCall} (hc : s.writes tid = some c) (hplain : w.Plain)
    (hsame : w.data.take w.entered = c.data.take c.entered) : Inv (s.setWrite tid w) := by
  refine ⟨h.read, ?_, h.results, h.zero, h.plain, h.queue, ?_, h.reads⟩
  · intro i
    rw [wrote_setWrite hc hsame]
    exact h.merge i
  · intro i d hd
    have hd' : update s.writes tid (some w) i = some d := hd
    by_cases hi : i = tid
    · rw [hi, update_self] at hd'
      cases hd'
      exact hplain
    · rw [update_of_ne hi] at hd'
      exact h.writes i d hd'

/-- A call returns. -/
theorem Inv.finishWrite (h : Inv s) {c c' : WriteCall} (hc : s.writes tid = some c) {result : Option Int}
    (hdata : c'.data.take c'.entered = c.data.take c.entered)
    (hcount : Written.Counted ⟨tid, c'.data, result, c'.entered⟩) : Inv (s.finishWrite tid c' result) := by
  refine ⟨h.read, ?_, ?_, h.zero, h.plain, h.queue, ?_, h.reads⟩
  · intro i
    rw [show (s.finishWrite tid c' result).entered = s.entered from rfl, h.merge i]
    unfold State.wrote State.finishWrite
    dsimp only
    rw [filter_append, flatMap_append]
    by_cases hi : i = tid
    · subst hi
      rw [update_self, hc, filter_cons_of_pos (by simp)]
      simp only [filter_nil, flatMap_cons, flatMap_nil, List.append_nil]
      rw [hdata]
    · rw [update_of_ne hi, filter_cons_of_neg (by simpa using Ne.symm hi)]
      simp only [filter_nil, flatMap_nil, List.append_nil]
  · intro w hw
    rcases mem_append.mp hw with hw | hw
    · exact h.results w hw
    · rw [mem_singleton] at hw
      rw [hw]
      exact hcount
  · intro i d hd
    have hd' : update s.writes tid none i = some d := hd
    by_cases hi : i = tid
    · rw [hi, update_self] at hd'
      cases hd'
    · rw [update_of_ne hi] at hd'
      exact h.writes i d hd'

theorem Inv.loopWrite (h : Inv s) {c c' : WriteCall} (hc : s.writes tid = some c) (hplain : c'.Plain)
    (hsame : c'.data.take c'.entered = c.data.take c.entered) : Inv (s.loopWrite tid c') := by
  unfold State.loopWrite
  split_ifs
  · exact h.setWrite hc ⟨hplain.policy, nofun, hplain.count, hplain.within⟩ hsame
  · refine h.finishWrite hc hsame ⟨?_, ?_⟩
    · exact le_trans (le_of_eq hplain.count) hplain.within
    · intro r hr
      cases hr
      exact .inl (by rw [hplain.count])

variable {c : WriteCall}

/-- The result of a write that cannot go on. -/
theorem partly_counted (h : c.Plain) (tid : Nat) {e : Int} (he : e = epipe ∨ e = eintr) :
    Written.Counted ⟨tid, c.data, some (State.partly c e), c.entered⟩ := by
  refine ⟨le_trans (le_of_eq h.count) h.within, ?_⟩
  intro r hr
  cases hr
  unfold State.partly
  dsimp only
  rw [h.count]
  split_ifs with hdone
  · exact .inl rfl
  · exact .inr ⟨by omega, he⟩

theorem interruptOf_none (bytes : List UInt8) : interruptOf none bytes = none := rfl

theorem pushed_none (bytes : List UInt8) : bytes.filter (fun b => (signalOf none b).isNone) = bytes :=
  filter_eq_self.mpr fun _ _ => rfl

theorem setWrite_setWrite (s : State) (tid : Nat) (c c' : WriteCall) :
    (s.setWrite tid c).setWrite tid c' = s.setWrite tid c' := by
  unfold State.setWrite
  rw [update_idem]

theorem setWrite_loopWrite (s : State) (tid : Nat) (c c' : WriteCall) :
    (s.setWrite tid c).loopWrite tid c' = s.loopWrite tid c' := by
  unfold State.loopWrite
  rw [setWrite_setWrite]
  unfold State.finishWrite State.setWrite
  rw [update_idem]

/-- The log of a writer grows by the bytes it puts in, and no other log does. -/
theorem filter_push (entered : List (Nat × UInt8)) (tid i : Nat) (bytes : List UInt8) :
    ((entered ++ bytes.map fun b => (tid, b)).filter fun e => e.1 = i).map (·.2) =
      (entered.filter fun e => e.1 = i).map (·.2) ++ if tid = i then bytes else [] := by
  rw [filter_append, map_append]
  congr 1
  rw [filter_map, map_map]
  split_ifs with hi
  · rw [filter_eq_self.mpr (fun _ _ => by simpa using hi)]
    exact map_id' bytes
  · rw [filter_eq_nil_iff.mpr (fun _ _ => by simpa using hi)]
    rfl

section

variable (h : Inv s)

include h

/-- Bytes of a call go in, in the order of the call, as far as there is room. -/
theorem Inv.fill {p : Buf} (hc : s.writes tid = some c)
    (hp : s.pipe = some p) {bytes : List UInt8}
    (hbytes : bytes = (c.data.drop c.done).take (capacity - p.buffer.length)) :
    Inv ((s.push p tid bytes).setWrite tid
      { c with done := c.done + bytes.length, entered := c.entered + bytes.length, phase := .looping }) := by
  have hplain := h.writes tid c hc
  have hpipe := h.plain p hp
  have hlen : bytes.length ≤ capacity - p.buffer.length := by
    rw [hbytes, length_take]
    exact min_le_left _ _
  have hwithin : c.done + bytes.length ≤ c.data.length := by
    have := hplain.within
    rw [hbytes, length_take, length_drop]
    omega
  -- the bytes are the ones that come next in the call
  have hnext : c.data.take (c.entered + bytes.length) = c.data.take c.entered ++ bytes := by
    rw [take_add, hplain.count]
    congr 1
    rw [hbytes, length_take, take_eq_take_iff]
    omega
  refine ⟨?_, ?_, h.results, h.zero, ?_, ?_, ?_, h.reads⟩
  · show s.taken <+: (s.entered ++ _).map _
    rw [map_append]
    exact h.read.trans (prefix_append _ _)
  · intro i
    show ((s.entered ++ _).filter _).map _ = _
    rw [filter_push, h.merge i]
    unfold State.wrote State.setWrite State.push
    dsimp only
    rw [append_assoc]
    congr 1
    by_cases hi : tid = i
    · subst hi
      rw [if_pos rfl, update_self, hc]
      exact hnext.symm
    · rw [if_neg hi, update_of_ne (Ne.symm hi), List.append_nil]
  · intro q hq
    cases hq
    refine ⟨hpipe.tty, hpipe.group, ?_⟩
    have := hpipe.room
    show (p.buffer ++ bytes).length ≤ capacity
    rw [length_append]
    omega
  · intro q hq
    cases hq
    show s.taken ++ (p.buffer ++ bytes) = (s.entered ++ _).map _
    rw [← append_assoc, h.queue p hp, map_append, map_map]
    congr 1
    exact (map_id' bytes).symm
  · intro i d hd
    have hd' : update s.writes tid _ i = some d := hd
    by_cases hi : i = tid
    · rw [hi, update_self] at hd'
      cases hd'
      exact ⟨hplain.policy, nofun, congrArg (· + bytes.length) hplain.count, hwithin⟩
    · rw [update_of_ne hi] at hd'
      exact h.writes i d hd'

/-- The section under the lock: as much as there is room for goes in, and the call says so. -/
theorem Inv.writeLocked (hc : s.writes tid = some c) :
    Inv (s.writeLocked tid c) := by
  have hplain := h.writes tid c hc
  unfold State.writeLocked
  cases hp : s.pipe with
  | none => exact h.finishWrite hc rfl (partly_counted hplain tid (.inl rfl))
  | some p =>
    dsimp only
    by_cases hreaders : p.readers = 0
    · rw [if_pos hreaders]
      exact h.finishWrite hc rfl (partly_counted hplain tid (.inl rfl))
    · rw [if_neg hreaders, hplain.policy, interruptOf_none, pushed_none]
      dsimp only
      have hfill := h.fill hc hp rfl
      generalize (c.data.drop c.done).take (capacity - p.buffer.length) = bytes at hfill ⊢
      have hcall := hfill.writes tid _ (update_self _ _ _)
      split_ifs with hzero
      · have hset := hfill.setWrite (update_self _ _ _)
          (w := { c with policy := none, entered := c.entered + bytes.length, phase := .stalled })
          ⟨rfl, nofun, ?_, ?_⟩ rfl
        · rwa [setWrite_setWrite] at hset
        · have := hplain.count
          dsimp only
          omega
        · exact hplain.within
      · have hloop := hfill.loopWrite (update_self _ _ _) hcall rfl
        rw [setWrite_loopWrite] at hloop
        have hpolicy := hplain.policy
        unfold State.loopWrite at hloop ⊢
        dsimp only at hloop ⊢
        rw [hpolicy] at hloop
        exact hloop

/-- A call begins: it has put nothing in yet. -/
theorem Inv.beginWrite (hfree : s.writes tid = none) (data : List UInt8) (tasks : Tasks) :
    Inv (s.beginWrite tid data tasks) := by
  have hpolicy : (if data.any special then interruptPolicy s.pipe tasks tid else none) = none := by
    split_ifs
    · unfold interruptPolicy
      cases hp : s.pipe with
      | none => rfl
      | some p =>
        dsimp only
        rw [if_neg (fun hc => hc.1 (h.plain p hp).group), (h.plain p hp).tty, if_neg (fun hc => nomatch hc.1)]
    · rfl
  have hstart : Inv (s.setWrite tid ⟨data, none, 0, .looping, 0⟩) := by
    refine ⟨h.read, ?_, h.results, h.zero, h.plain, h.queue, ?_, h.reads⟩
    · intro i
      rw [show (s.setWrite tid ⟨data, none, 0, .looping, 0⟩).entered = s.entered from rfl, h.merge i]
      unfold State.wrote State.setWrite
      dsimp only
      by_cases hi : i = tid
      · rw [hi, update_self, hfree]
        rfl
      · rw [update_of_ne hi]
    · intro i d hd
      have hd' : update s.writes tid _ i = some d := hd
      by_cases hi : i = tid
      · rw [hi, update_self] at hd'
        cases hd'
        exact ⟨rfl, nofun, rfl, Nat.zero_le _⟩
      · rw [update_of_ne hi] at hd'
        exact h.writes i d hd'
  have hloop := hstart.loopWrite (update_self _ _ _) (hstart.writes tid _ (update_self _ _ _)) rfl
  rw [setWrite_loopWrite] at hloop
  unfold State.beginWrite
  rw [hpolicy]
  exact hloop

theorem Inv.afterStall (hc : s.writes tid = some c) (pending : Bool) :
    Inv (s.afterStall tid c pending) := by
  have hplain := h.writes tid c hc
  unfold State.afterStall
  split_ifs
  · exact h.finishWrite hc rfl (partly_counted hplain tid (.inr rfl))
  · exact h.setWrite hc ⟨hplain.policy, nofun, hplain.count, hplain.within⟩ rfl

theorem Inv.killWriter (hc : s.writes tid = some c) :
    Inv (s.finishWrite tid c none) := by
  have hplain := h.writes tid c hc
  exact h.finishWrite hc rfl ⟨le_trans (le_of_eq hplain.count) hplain.within, nofun⟩

end

/-! ### Readers -/

section

variable (h : Inv s)

include h

/-- The readers' calls and results may change as long as ends of file are ends of file. -/
theorem Inv.setReads {reads : Nat → Option ReadCall} {readDone : List ReadDone}
    (hreads : ∀ tid c, reads tid = some c → c.size ≠ 0)
    (hdone : ∀ r ∈ readDone, r.size ≠ 0 → r.result = 0 → r.ended = true) :
    Inv { s with reads := reads, readDone := readDone } :=
  ⟨h.read, h.merge, h.results, hdone, h.plain, h.queue, h.writes, hreads⟩

theorem Inv.reads_none (tid : Nat) :
    ∀ i c, update s.reads tid none i = some c → c.size ≠ 0 := by
  intro i c hc
  by_cases hi : i = tid
  · rw [hi, update_self] at hc
    cases hc
  · rw [update_of_ne hi] at hc
    exact h.reads i c hc

theorem Inv.reads_some (tid : Nat) {c : ReadCall} (hsize : c.size ≠ 0) :
    ∀ i d, update s.reads tid (some c) i = some d → d.size ≠ 0 := by
  intro i d hd
  by_cases hi : i = tid
  · rw [hi, update_self] at hd
    cases hd
    exact hsize
  · rw [update_of_ne hi] at hd
    exact h.reads i d hd

theorem Inv.finishRead (tid : Nat) (c : ReadCall) {result : Int}
    (hend : c.size ≠ 0 → result = 0 → s.ended = true) : Inv (s.finishRead tid c result) := by
  refine h.setReads (h.reads_none tid) fun r hr => ?_
  rcases mem_append.mp hr with hr | hr
  · exact h.zero r hr
  · rw [mem_singleton] at hr
    rw [hr]
    exact hend

theorem Inv.setRead (tid : Nat) {c : ReadCall} (hsize : c.size ≠ 0) :
    Inv { s with reads := update s.reads tid (some c) } :=
  h.setReads (h.reads_some tid hsize) h.zero

theorem Inv.beginRead (tid size : Nat) (nonblock : Bool) : Inv (s.beginRead tid size nonblock) := by
  unfold State.beginRead
  split_ifs with hsize
  · exact h.finishRead tid _ fun hne => absurd hsize hne
  · exact h.setRead tid hsize

theorem Inv.readLocked {c : ReadCall} (hc : s.reads tid = some c) :
    Inv (s.readLocked tid c) := by
  have hsize := h.reads tid c hc
  have hwait : Inv (s.waitRead tid c) := by
    unfold State.waitRead
    split_ifs
    · exact h.finishRead tid c fun _ => nofun
    · exact h.setRead tid hsize
  unfold State.readLocked
  cases hp : s.pipe with
  | none => exact hwait
  | some p =>
    dsimp only
    by_cases hbuf : p.buffer = []
    · rw [if_neg (fun hne => hne hbuf)]
      split_ifs with hwriters
      · refine h.finishRead tid c fun _ _ => ?_
        unfold State.ended
        rw [hp]
        simp [hbuf, hwriters]
      · exact hwait
    · rw [if_pos hbuf]
      have hpipe := h.plain p hp
      have hqueue := h.queue p hp
      have hpos : 0 < min c.size p.buffer.length := by
        have := length_pos_iff.mpr hbuf
        omega
      refine ⟨?_, h.merge, h.results, ?_, ?_, ?_, h.writes, h.reads_none tid⟩
      · refine ⟨p.buffer.drop (min c.size p.buffer.length), ?_⟩
        show (s.taken ++ p.buffer.take _) ++ p.buffer.drop _ = _
        rw [append_assoc, take_append_drop]
        exact hqueue
      · intro r hr
        rcases mem_append.mp hr with hr | hr
        · exact h.zero r hr
        · -- at least one byte was read
          rw [mem_singleton] at hr
          rw [hr]
          intro _ hres
          dsimp only at hres
          omega
      · intro q hq
        cases hq
        refine ⟨hpipe.tty, hpipe.group, ?_⟩
        have := hpipe.room
        show (p.buffer.drop _).length ≤ capacity
        rw [length_drop]
        omega
      · intro q hq
        cases hq
        show (s.taken ++ p.buffer.take _) ++ p.buffer.drop _ = _
        rw [append_assoc, take_append_drop]
        exact hqueue

theorem Inv.readCheck {c : ReadCall} (hc : s.reads tid = some c) (pending : Bool) :
    Inv (s.readCheck tid c pending) := by
  have hsize := h.reads tid c hc
  unfold State.readCheck
  split_ifs with hgone
  · refine h.finishRead tid c fun _ _ => ?_
    unfold State.ended
    rw [Option.isNone_iff_eq_none.mp hgone]
  · exact h.finishRead tid c fun _ => nofun
  · exact h.setRead tid hsize

end

/-! ### Runs -/

theorem Inv.step (h : Inv s) {call : Call} {s' : State} (hstep : step s call = some s') : Inv s' := by
  cases call with
  | retain reader =>
    cases hstep
    exact h.retain reader
  | release reader =>
    cases hstep
    exact h.release reader
  | setForeground pid =>
    cases hstep
    refine h.setPipe fun p hp => ?_
    obtain ⟨q, hq, rfl⟩ := Option.map_eq_some_iff.mp hp
    exact ⟨q, hq, rfl, rfl, rfl⟩
  | setGroup group =>
    unfold Pipe.step at hstep
    cases hp : s.pipe with
    | none =>
      rw [hp] at hstep
      cases hstep
      exact h
    | some p =>
      rw [hp] at hstep
      dsimp only at hstep
      rw [(h.plain p hp).tty] at hstep
      cases hstep
  | beginWrite tid data tasks =>
    obtain ⟨hfree, heq⟩ := Option.ite_none_right_eq_some.mp hstep
    cases heq
    exact h.beginWrite (Option.isNone_iff_eq_none.mp hfree) data tasks
  | writeLocked tid =>
    obtain ⟨c, hc, hcall⟩ := Option.bind_eq_some_iff.mp hstep
    split at hcall
    · cases hcall
      exact h.writeLocked hc
    · cases hcall
  | afterSignal tid handled =>
    obtain ⟨c, hc, hcall⟩ := Option.bind_eq_some_iff.mp hstep
    split at hcall
    next i taken hphase => exact absurd hphase ((h.writes tid c hc).quiet i taken)
    next => cases hcall
  | afterStall tid pending =>
    obtain ⟨c, hc, hcall⟩ := Option.bind_eq_some_iff.mp hstep
    split at hcall
    · cases hcall
      exact h.afterStall hc pending
    · cases hcall
  | killWriter tid =>
    obtain ⟨c, hc, hcall⟩ := Option.bind_eq_some_iff.mp hstep
    split at hcall
    · cases hcall
      exact h.killWriter hc
    · cases hcall
  | beginRead tid size nonblock =>
    obtain ⟨-, heq⟩ := Option.ite_none_right_eq_some.mp hstep
    cases heq
    exact h.beginRead tid size nonblock
  | readLocked tid =>
    obtain ⟨c, hc, hcall⟩ := Option.bind_eq_some_iff.mp hstep
    split at hcall
    · cases hcall
      exact h.readLocked hc
    · cases hcall
  | readCheck tid pending =>
    obtain ⟨c, hc, hcall⟩ := Option.bind_eq_some_iff.mp hstep
    split at hcall
    · cases hcall
      exact h.readCheck hc pending
    · cases hcall
  | killReader tid =>
    obtain ⟨c, hc, hcall⟩ := Option.bind_eq_some_iff.mp hstep
    split at hcall
    · cases hcall
      exact h.setReads (h.reads_none tid) h.zero
    · cases hcall

theorem Inv.start : Inv State.start := by
  refine ⟨prefix_rfl, fun _ => rfl, nofun, nofun, ?_, ?_, nofun, nofun⟩
  · intro p hp
    cases hp
    exact ⟨rfl, rfl, Nat.zero_le _⟩
  · intro p hp
    cases hp
    rfl

/-- A pipe that is no terminal keeps what is written to it, in every run. -/
theorem integrity (h : Reach (· = State.start) step (fun _ _ => True) s) : Integrity s := by
  have hinv : Inv s := by
    refine h.invariant ?_ ?_
    · rintro s rfl
      exact Inv.start
    · intro s call s' hi _ hstep
      exact hi.step hstep
  exact hinv.integrity_of_inv

/-- Two writers, one of which the other writes in the middle of, and a reader. -/
def talk : List Call :=
  [.beginWrite 1 [10, 11] ⟨false, none⟩, .beginWrite 2 [20] ⟨false, none⟩, .writeLocked 2, .writeLocked 1,
    .beginRead 3 2 false, .readLocked 3]

theorem integrity_talk :
    ∃ s, runLabels step State.start talk = some s ∧ s.taken = [20, 10] ∧ Integrity s :=
  ⟨_, rfl, rfl, integrity (Reach.run (.start rfl) talk (fun _ _ _ => trivial) rfl)⟩

/-- A read of no bytes, on a pipe that has its writer. -/
theorem empty_read_returns_zero :
    ¬ ∀ s, Reach (· = State.start) step (fun _ _ => True) s → Claimed s := by
  intro hall
  have hrun := hall _ (Reach.run (.start rfl) [.beginRead 1 0 false] (fun _ _ _ => trivial) rfl)
  exact nomatch hrun.zero ⟨0, 0, false⟩ (mem_singleton_self _) rfl

end Pipe

end HamixOS.Kernel

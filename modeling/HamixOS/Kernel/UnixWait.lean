import HamixOS.Kernel.Unix

namespace HamixOS.Kernel

open Lib

/-!
# The loops that wait for a Unix socket (`net/socket.rs`)

`sys_connect`, `sys_accept4`, `send_all` and `receive` try an operation of the socket table and wait when it
answers `EAGAIN`; `receive` has a second loop for `MSG_WAITALL`.  A `turn` is one round of a loop: the
attempt, on the table as the other parties have left it, and what the round does about it.  A `Moment` is what
the round meets: the table, and whether a signal is pending before and after the block.

* `good_iff_attentive` — a round does what is wanted of it exactly if it is no round of the `MSG_WAITALL` loop
  that finds nothing while the call may not wait or a signal is pending;
* `wait_loops_iff` — the same for the rounds of whole calls.
-/

namespace Unix

open Table (Caller Received)

variable {F : Type}

def msgPeek : Nat := 2

def msgDontwait : Nat := 0x40

def msgWaitall : Nat := 0x100

/-- What a call is given. -/
structure Args (F : Type) where
  id : Nat
  nonblock : Bool
  key : String
  cred : Cred
  caller : Caller
  data : List UInt8
  files : List F
  dest : Option String
  max : Nat
  flags : Nat

/-- Where a call is: in which loop, and with what.  `stream` is whether `send_all` began with a stream. -/
inductive Stage (F : Type) where
  | connect
  | accept
  | send (stream : Bool) (sent : Nat) (files : List F)
  | receive
  | waitall (first : Received F)

/-- What a loop leaves with: a code, an accepted socket or a message. -/
inductive Ret (F : Type) where
  | code (value : Int)
  | accepted (id : Nat)
  | received (got : Received F)

/-- What a round meets. -/
structure Moment (F : Type) where
  table : Table F
  pending : Bool
  arrived : Bool

/-- What a round does: the table it leaves, whether it moved data and whether it blocked, and where the call
goes on or what it returns. -/
structure Turn (F : Type) where
  table : Table F
  moved : Bool
  blocked : Bool
  next : Stage F ⊕ Ret F

/-- `wait_socket`: whether it blocks, and whether a signal ends the wait. -/
def waitSocket (m : Moment F) : Bool × Except Int Unit :=
  if m.pending then (false, .error eintr) else (true, if m.arrived then .error eintr else .ok ())

namespace Args

variable (a : Args F)

/-- Whether `send_all` and `receive` may not block. -/
def dontwait : Bool := a.nonblock || decide (a.flags &&& msgDontwait ≠ 0)

def peek : Bool := decide (a.flags &&& msgPeek ≠ 0)

/-- A round that waits, and leaves with what `onSignal` makes of the error. -/
def waiting (m : Moment F) (table : Table F) (stay : Stage F) (onSignal : Int → Ret F) : Turn F :=
  let w := waitSocket m
  { table := table
    moved := false
    blocked := w.1
    next := match w.2 with
      | .ok () => .inl stay
      | .error e => .inr (onSignal e) }

/-- A round that leaves the loop. -/
def leaving (table : Table F) (moved : Bool) (ret : Ret F) : Turn F := ⟨table, moved, false, .inr ret⟩

/-- The loop of `sys_connect`. -/
def connectTurn (m : Moment F) : Turn F :=
  let r := m.table.connect a.id a.key a.cred
  match r.2 with
  | .ok () => leaving r.1 false (.code 0)
  | .error e =>
    if e = eagain ∧ a.nonblock = false then waiting m r.1 .connect .code else leaving r.1 false (.code e)

/-- The loop of `sys_accept4`. -/
def acceptTurn (m : Moment F) : Turn F :=
  let r := m.table.accept a.id
  match r.2 with
  | .ok new => leaving r.1 false (.accepted new)
  | .error e =>
    if e = eagain ∧ a.nonblock = false then waiting m r.1 .accept .code else leaving r.1 false (.code e)

/-- What `send_all` returns for an error. -/
def partly (sent : Nat) (e : Int) : Int := if 0 < sent then sent else e

/-- The loop of `send_all`. -/
def sendTurn (m : Moment F) (stream : Bool) (sent : Nat) (files : List F) : Turn F :=
  let r := m.table.send a.id (a.data.drop sent) files a.dest a.caller
  match r.2.1 with
  | .ok n =>
    let total := sent + n
    if stream = false ∨ a.data.length ≤ total ∨ a.dontwait then leaving r.1 (decide (0 < n)) (.code total)
    else ⟨r.1, decide (0 < n), false, .inl (.send stream total r.2.2)⟩
  | .error e =>
    if e = eagain ∧ a.dontwait = false then
      waiting m r.1 (.send stream sent r.2.2) fun e => .code (partly sent e)
    else leaving r.1 false (.code (partly sent e))

/-- The result of a `MSG_WAITALL` loop that ends. -/
def filled (first : Received F) : Ret F := .received { first with fullLen := first.data.length }

/-- The condition of the `MSG_WAITALL` loop. -/
def fill (first : Received F) : Stage F ⊕ Ret F :=
  if first.data.length < a.max ∧ first.data ≠ [] then .inl (.waitall first) else .inr (filled first)

/-- The first loop of `receive`, and what follows it. -/
def receiveTurn (m : Moment F) : Turn F :=
  let r := m.table.recv a.id a.max a.peek
  match r.2 with
  | .ok first =>
    let all := a.flags &&& msgWaitall ≠ 0 ∧ a.peek = false ∧
      (r.1.socks.get a.id).map (·.kind) = some .stream ∧ first.fds.isEmpty
    ⟨r.1, decide (first.data ≠ []), false, if all then a.fill first else .inr (.received first)⟩
  | .error e =>
    if e = eagain ∧ a.dontwait = false then waiting m r.1 .receive .code else leaving r.1 false (.code e)

/-- The `MSG_WAITALL` loop: what `wait_socket` answers is dropped, and `nonblock` is not looked at. -/
def waitallTurn (m : Moment F) (first : Received F) : Turn F :=
  let r := m.table.recv a.id (a.max - first.data.length) false
  match r.2 with
  | .ok more =>
    if more.data = [] then leaving r.1 false (filled first)
    else
      let first := { first with data := first.data ++ more.data, fds := first.fds ++ more.fds }
      ⟨r.1, true, false, if first.fds.isEmpty then a.fill first else .inr (filled first)⟩
  | .error e =>
    if e = eagain then ⟨r.1, false, (waitSocket m).1, .inl (.waitall first)⟩ else leaving r.1 false (filled first)

def turn (m : Moment F) : Stage F → Turn F
  | .connect => a.connectTurn m
  | .accept => a.acceptTurn m
  | .send stream sent files => a.sendTurn m stream sent files
  | .receive => a.receiveTurn m
  | .waitall first => a.waitallTurn m first

/-- The rounds of a call: where it is at each of them, and what it meets. -/
def rounds : Stage F → List (Moment F) → List (Stage F × Moment F)
  | _, [] => []
  | stage, m :: later =>
    (stage, m) :: match (a.turn m stage).next with
      | .inl stage' => rounds stage' later
      | .inr _ => []

/-! ### What is wanted of a round -/

/-- Whether the call may not block. -/
def Nonblocking : Stage F → Bool
  | .connect | .accept => a.nonblock
  | .send _ _ _ | .receive | .waitall _ => a.dontwait

/-- Whether the attempt of a round finds that no progress is possible. -/
def Starved (m : Moment F) : Stage F → Prop
  | .connect => (m.table.connect a.id a.key a.cred).2 = .error eagain
  | .accept => (m.table.accept a.id).2 = .error eagain
  | .send _ sent files => (m.table.send a.id (a.data.drop sent) files a.dest a.caller).2.1 = .error eagain
  | .receive => (m.table.recv a.id a.max a.peek).2 = .error eagain
  | .waitall first => (m.table.recv a.id (a.max - first.data.length) false).2 = .error eagain

/-- `EINTR`, or what was transferred already. -/
def Interrupted (stage : Stage F) (ret : Ret F) : Prop :=
  ret = .code eintr ∨ match stage with
    | .send _ sent _ => 0 < sent ∧ ret = .code sent
    | .waitall first => ret = filled first
    | _ => False

/-- A round moves data, blocks or leaves; it does not block where the call may not; and where it may, a
signal ends a call that can make no progress. -/
structure Good (m : Moment F) (stage : Stage F) : Prop where
  advances : (a.turn m stage).moved = true ∨ (a.turn m stage).blocked = true ∨ ∃ ret, (a.turn m stage).next = .inr ret
  obeys : a.Nonblocking stage = true → (a.turn m stage).blocked = false
  interrupted : a.Nonblocking stage = false → a.Starved m stage → m.pending = true ∨ m.arrived = true →
    ∃ ret, (a.turn m stage).next = .inr ret ∧ Interrupted stage ret

/-- No round of the `MSG_WAITALL` loop that finds nothing while the call may not block or a signal is
pending. -/
def Attentive (m : Moment F) (stage : Stage F) : Prop :=
  ∀ first, stage = .waitall first → a.Starved m stage →
    a.dontwait = false ∧ m.pending = false ∧ m.arrived = false

variable {a}

/-- A round that waits blocks, or a signal makes it leave. -/
theorem waiting_advances (m : Moment F) (table : Table F) (stay : Stage F) (onSignal : Int → Ret F) :
    (waiting m table stay onSignal).blocked = true ∨ ∃ ret, (waiting m table stay onSignal).next = .inr ret := by
  unfold waiting waitSocket
  by_cases hp : m.pending = true
  · rw [if_pos hp]
    exact .inr ⟨_, rfl⟩
  · rw [if_neg hp]
    exact .inl rfl

variable {m : Moment F}

theorem waiting_interrupted (hsignal : m.pending = true ∨ m.arrived = true) (table : Table F)
    (stay : Stage F) (onSignal : Int → Ret F) : (waiting m table stay onSignal).next = .inr (onSignal eintr) := by
  unfold waiting waitSocket
  by_cases hp : m.pending = true
  · rw [if_pos hp]
  · rw [if_neg hp, if_pos (hsignal.resolve_left hp)]

variable {stage : Stage F}

/-- A round that waits only where the call may block, and leaves for a signal with what `Interrupted` allows,
is as it is wanted. -/
theorem good_of_waiting {table : Table F} {stay : Stage F} {onSignal : Int → Ret F}
    (hblock : a.Nonblocking stage = false) (hret : Interrupted stage (onSignal eintr))
    (hturn : a.turn m stage = waiting m table stay onSignal) : a.Good m stage where
  advances := by
    rw [hturn]
    exact .inr (waiting_advances m table stay onSignal)
  obeys h := by
    rw [hblock] at h
    cases h
  interrupted _ _ hsignal := by
    rw [hturn]
    exact ⟨_, waiting_interrupted hsignal table stay onSignal, hret⟩

/-- A round that moves data or leaves, and does not wait, is as it is wanted; for one that finds nothing this
is asked only where the call may not block. -/
theorem good_of_leaving (hnext : (a.turn m stage).moved = true ∨ ∃ ret, (a.turn m stage).next = .inr ret)
    (hblocked : (a.turn m stage).blocked = false) (hstarved : a.Nonblocking stage = false → ¬ a.Starved m stage) :
    a.Good m stage where
  advances := hnext.imp_right .inr
  obeys _ := hblocked
  interrupted hblock hs _ := absurd hs (hstarved hblock)

/-- A round that finds an error waits for it where the call may, and leaves with it otherwise. -/
theorem good_of_error {table : Table F} {stay : Stage F} {onSignal : Int → Ret F} {e : Int}
    {ret : Ret F} (hturn : a.turn m stage =
      if e = eagain ∧ a.Nonblocking stage = false then waiting m table stay onSignal else leaving table false ret)
    (hret : Interrupted stage (onSignal eintr)) (hstarved : a.Starved m stage → e = eagain) : a.Good m stage := by
  by_cases hwait : e = eagain ∧ a.Nonblocking stage = false
  · rw [if_pos hwait] at hturn
    exact good_of_waiting hwait.2 hret hturn
  · rw [if_neg hwait] at hturn
    exact good_of_leaving (by rw [hturn]; exact .inr ⟨_, rfl⟩) (by rw [hturn]; rfl) fun hb hs => hwait ⟨hstarved hs, hb⟩

theorem good_connect (m : Moment F) : a.Good m .connect := by
  cases h : (m.table.connect a.id a.key a.cred).2 with
  | ok u =>
    have hturn : a.turn m .connect = leaving (m.table.connect a.id a.key a.cred).1 false (.code 0) := by
      simp only [turn, connectTurn, h]
    exact good_of_leaving (by rw [hturn]; exact .inr ⟨_, rfl⟩) (by rw [hturn]; rfl) fun _ hs => by
      rw [Starved, h] at hs
      cases hs
  | error e =>
    refine good_of_error (by simp only [turn, connectTurn, h]; rfl) (.inl rfl) fun hs => ?_
    rw [Starved, h] at hs
    exact Except.error.inj hs

theorem good_accept (m : Moment F) : a.Good m .accept := by
  cases h : (m.table.accept a.id).2 with
  | ok new =>
    have hturn : a.turn m .accept = leaving (m.table.accept a.id).1 false (.accepted new) := by
      simp only [turn, acceptTurn, h]
    exact good_of_leaving (by rw [hturn]; exact .inr ⟨_, rfl⟩) (by rw [hturn]; rfl) fun _ hs => by
      rw [Starved, h] at hs
      cases hs
  | error e =>
    refine good_of_error (by simp only [turn, acceptTurn, h]; rfl) (.inl rfl) fun hs => ?_
    rw [Starved, h] at hs
    exact Except.error.inj hs

/-- What `send` takes of a message that is not empty. -/
theorem takes_pos {kind : Kind} {data : List UInt8} {peer : Sock F} {n : Nat} (h : Table.takes kind data peer = .ok n)
    (hdata : data ≠ []) : 0 < n := by
  have hlen := List.length_pos_iff.mpr hdata
  unfold Table.takes at h
  split_ifs at h with hstream hfull hbig hwait
  · obtain rfl := Except.ok.inj h
    have hroom : Table.room peer ≠ 0 := fun hzero => hfull ⟨hzero, hdata⟩
    omega
  · obtain rfl := Except.ok.inj h
    exact hlen

theorem send_pos {t : Table F} {id n : Nat} {data : List UInt8} {files : List F} {dest : Option String} {caller : Caller}
    (h : (t.send id data files dest caller).2.1 = .ok n) (hdata : data ≠ []) : 0 < n := by
  unfold Table.send at h
  split at h
  · cases h
  split at h
  · cases h
  split at h
  · cases h
  split at h
  · cases h
  split at h
  · cases h
  split at h
  · cases h
  split at h
  · rename_i hempty
    exact absurd hempty.2 hdata
  split at h
  · cases h
  · rename_i htakes
    rw [← Except.ok.inj h]
    exact takes_pos htakes hdata

theorem good_send (m : Moment F) (stream : Bool) (sent : Nat) (files : List F) :
    a.Good m (.send stream sent files) := by
  cases h : (m.table.send a.id (a.data.drop sent) files a.dest a.caller).2.1 with
  | ok n =>
    refine good_of_leaving ?_ ?_ fun _ hs => by
      rw [Starved, h] at hs
      cases hs
    · simp only [turn, sendTurn, h]
      by_cases hdone : stream = false ∨ a.data.length ≤ sent + n ∨ a.dontwait
      · rw [if_pos hdone]
        exact .inr ⟨_, rfl⟩
      · rw [if_neg hdone]
        -- a stream that goes on has bytes left, so some of them were taken
        have hleft : a.data.drop sent ≠ [] := fun hnil =>
          hdone (.inr (.inl (Nat.le_add_right_of_le (List.drop_eq_nil_iff.mp hnil))))
        exact .inl (decide_eq_true (send_pos h hleft))
    · simp only [turn, sendTurn, h]
      split_ifs
      · rfl
      · rfl
  | error e =>
    refine good_of_error (by simp only [turn, sendTurn, h]; rfl) ?_ fun hs => ?_
    · by_cases hsent : 0 < sent
      · exact .inr ⟨hsent, congrArg Ret.code (if_pos hsent)⟩
      · exact .inl (congrArg Ret.code (if_neg hsent))
    · rw [Starved, h] at hs
      exact Except.error.inj hs

/-- The `MSG_WAITALL` loop goes on with what is not empty, or ends. -/
theorem fill_next (first : Received F) :
    first.data ≠ [] ∨ ∃ ret, a.fill first = .inr ret := by
  unfold fill
  by_cases h : first.data.length < a.max ∧ first.data ≠ []
  · exact .inl h.2
  · rw [if_neg h]
    exact .inr ⟨_, rfl⟩

theorem good_receive (m : Moment F) : a.Good m .receive := by
  cases h : (m.table.recv a.id a.max a.peek).2 with
  | ok first =>
    refine good_of_leaving ?_ ?_ fun _ hs => by
      rw [Starved, h] at hs
      cases hs
    · simp only [turn, receiveTurn, h]
      split_ifs
      · exact (fill_next first).imp_left fun hne => decide_eq_true hne
      · exact .inr ⟨_, rfl⟩
    · simp only [turn, receiveTurn, h]
  | error e =>
    refine good_of_error (by simp only [turn, receiveTurn, h]; rfl) (.inl rfl) fun hs => ?_
    rw [Starved, h] at hs
    exact Except.error.inj hs

/-- A round of the `MSG_WAITALL` loop. -/
theorem good_waitall (m : Moment F) (first : Received F) :
    a.Good m (.waitall first) ↔ a.Attentive m (.waitall first) := by
  have hattentive : a.Attentive m (.waitall first) ↔
      (a.Starved m (.waitall first) → a.dontwait = false ∧ m.pending = false ∧ m.arrived = false) := by
    constructor
    · exact fun h => h first rfl
    · intro h first' heq
      obtain rfl := Stage.waitall.inj heq
      exact h
  rw [hattentive]
  cases h : (m.table.recv a.id (a.max - first.data.length) false).2 with
  | ok more =>
    have hstarved : ¬ a.Starved m (.waitall first) := fun hs => by
      rw [Starved, h] at hs
      cases hs
    refine iff_of_true (good_of_leaving ?_ ?_ fun _ => hstarved) fun hs => absurd hs hstarved
    · simp only [turn, waitallTurn, h]
      by_cases hempty : more.data = []
      · rw [if_pos hempty]
        exact .inr ⟨_, rfl⟩
      · rw [if_neg hempty]
        exact .inl rfl
    · simp only [turn, waitallTurn, h]
      by_cases hempty : more.data = []
      · rw [if_pos hempty]
        rfl
      · rw [if_neg hempty]
  | error e =>
    by_cases he : e = eagain
    · subst he
      have hturn : a.turn m (.waitall first) = ⟨(m.table.recv a.id (a.max - first.data.length) false).1, false,
          (waitSocket m).1, .inl (.waitall first)⟩ := by
        simp only [turn, waitallTurn, h, if_true]
      constructor
      · intro hgood hs
        have hblocked : (waitSocket m).1 = true := by
          have hadvances := hgood.advances
          rw [hturn] at hadvances
          rcases hadvances with hmoved | hblocked | ⟨ret, hret⟩
          · cases hmoved
          · exact hblocked
          · cases hret
        have hmay : a.dontwait = false := by
          by_contra hnot
          have hobeys := hgood.obeys (eq_true_of_ne_false hnot)
          rw [hturn] at hobeys
          exact Bool.false_ne_true (hobeys.symm.trans hblocked)
        have hquiet : ¬ (m.pending = true ∨ m.arrived = true) := fun hsignal => by
          obtain ⟨ret, hret, -⟩ := hgood.interrupted hmay hs hsignal
          rw [hturn] at hret
          cases hret
        exact ⟨hmay, eq_false_of_ne_true fun hp => hquiet (.inl hp), eq_false_of_ne_true fun ha => hquiet (.inr ha)⟩
      · intro hattends
        obtain ⟨hmay, hpending, harrived⟩ := hattends h
        refine ⟨?_, fun hb => ?_, fun _ _ hsignal => ?_⟩
        · rw [hturn, waitSocket, hpending]
          exact .inr (.inl rfl)
        · rw [Nonblocking, hmay] at hb
          cases hb
        · rw [hpending, harrived] at hsignal
          exact absurd hsignal (by decide)
    · have hstarved : ¬ a.Starved m (.waitall first) := fun hs => by
        rw [Starved, h] at hs
        exact he (Except.error.inj hs)
      have hturn : a.turn m (.waitall first) =
          leaving (m.table.recv a.id (a.max - first.data.length) false).1 false (filled first) := by
        simp only [turn, waitallTurn, h, if_neg he]
      exact iff_of_true (good_of_leaving (by rw [hturn]; exact .inr ⟨_, rfl⟩) (by rw [hturn]; rfl) fun _ => hstarved)
        fun hs => absurd hs hstarved

theorem good_iff_attentive (m : Moment F) (stage : Stage F) : a.Good m stage ↔ a.Attentive m stage := by
  have hother : (∀ first, stage ≠ .waitall first) → a.Attentive m stage :=
    fun hne first heq => absurd heq (hne first)
  cases stage with
  | connect => exact iff_of_true (good_connect m) (hother nofun)
  | accept => exact iff_of_true (good_accept m) (hother nofun)
  | send stream sent files => exact iff_of_true (good_send m stream sent files) (hother nofun)
  | receive => exact iff_of_true (good_receive m) (hother nofun)
  | waitall first => exact good_waitall m first

/-- In every call, whatever the other parties do to the table between its rounds and whenever signals come,
every round is as it is wanted exactly if no round of the `MSG_WAITALL` loop finds nothing while the call may not
block or a signal is pending. -/
theorem wait_loops_iff (a : Args F) (stage : Stage F) (moments : List (Moment F)) :
    (∀ r ∈ a.rounds stage moments, a.Good r.2 r.1) ↔ ∀ r ∈ a.rounds stage moments, a.Attentive r.2 r.1 :=
  forall₂_congr fun r _ => good_iff_attentive r.2 r.1

/-- A pair of streams with two bytes on the way to the second. -/
def twoSent : Table Nat :=
  ((Table.boot.pair .stream .default).1.send 1 [1, 2] [] none ⟨0, 0, 0⟩).1

/-- A receive of four bytes from the second. -/
def fourWanted (flags : Nat) : Args Nat := ⟨2, false, "", .default, ⟨0, 0, 0⟩, [], [], none, 4, flags⟩

/-- The round after the two bytes blocks, though `MSG_DONTWAIT` is given; and with a signal pending it neither
moves data nor blocks nor leaves. -/
theorem waitall_ignores :
    (¬ ∀ r ∈ (fourWanted (msgWaitall + msgDontwait)).rounds .receive
        [⟨twoSent, false, false⟩, ⟨(twoSent.recv 2 4 false).1, false, false⟩],
      (fourWanted (msgWaitall + msgDontwait)).Good r.2 r.1) ∧
    ¬ ∀ r ∈ (fourWanted msgWaitall).rounds .receive
        [⟨twoSent, true, true⟩, ⟨(twoSent.recv 2 4 false).1, true, true⟩],
      (fourWanted msgWaitall).Good r.2 r.1 := by
  constructor
  · intro h
    have hobeys := (h (.waitall ⟨[1, 2], [], none, 2, none⟩, _) (.tail _ (.head _))).obeys (by decide)
    revert hobeys
    decide +kernel
  · intro h
    have hadvances := (h (.waitall ⟨[1, 2], [], none, 2, none⟩, _) (.tail _ (.head _))).advances
    rcases hadvances with hmoved | hblocked | ⟨ret, hret⟩
    · revert hmoved
      decide +kernel
    · revert hblocked
      decide +kernel
    · cases hret

end Args

end Unix

end HamixOS.Kernel

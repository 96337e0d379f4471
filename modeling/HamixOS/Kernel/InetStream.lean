import HamixOS.Kernel.InetTable

namespace HamixOS.Kernel

open Lib List Function Option OrdMap

namespace Inet

open Net

/-!
# The byte stream of a loopback connection

The two ends of one connection, in a table that may hold anything else.  `sent` and `got`
record, for each end, the bytes `loopSend` accepted while the other end was readable and the
bytes `loopRecv` handed out without a peek.

`Streams` is what a receiver may rely on: it has got a prefix of what was sent, it sees an
end of file only where there is one, and it sees it as soon as there is one.  The last part
fails where the sender shuts its writing side and stays open: the receiver is told of a
close alone.  `NoHalfClose` is the condition under which the code keeps to it (`streams`).
-/

structure Wire where
  net : Net
  sent : Nat → List UInt8
  got : Nat → List UInt8

/-- The socket at the other end. -/
def Net.peerOf (s : Net) (id : Nat) : Option Socket := ((s.table.get id).bind (·.loopPeer)).bind s.table.get

/-- Bytes are queued at the socket `id`. -/
def Net.deliver (s : Net) (id : Nat) (peer : Socket) (bytes : List UInt8) : Net :=
  { s with table := s.table.put id { peer with loopRx := peer.loopRx ++ bytes } }

/-- The bytes of a send that count: those accepted for a peer that reads. -/
def accepted (s : Net) (id : Nat) (data : List UInt8) : List UInt8 :=
  match (s.loopSend id data).2, s.peerOf id with
  | some (.ok n), some peer => if peer.shutRead then [] else data.take n
  | _, _ => []

/-- The bytes a receive takes out of the stream. -/
def taken (s : Net) (id max : Nat) (peek : Bool) : List UInt8 :=
  match (s.loopRecv id max peek).2 with
  | some (.ok d) => if peek then [] else d.data
  | _ => []

inductive Op where
  | send (data : List UInt8)
  | recv (max : Nat) (peek : Bool)
  | shutdown (how : Nat)
  | retain
  | release

namespace Wire

def append (f : Nat → List UInt8) (id : Nat) (bytes : List UInt8) : Nat → List UInt8 :=
  Function.update f id (f id ++ bytes)

/-- One call at the end `id`. -/
def apply (w : Wire) (id : Nat) : Op → Wire
  | .send data => { w with net := (w.net.loopSend id data).1, sent := append w.sent id (accepted w.net id data) }
  | .recv max peek => { w with net := (w.net.loopRecv id max peek).1, got := append w.got id (taken w.net id max peek) }
  | .shutdown how => { w with net := (w.net.shutdown id how).1 }
  | .retain => { w with net := w.net.retain id }
  | .release => { w with net := w.net.release id }

/-- A call at one of the two ends. -/
def step (a b : Nat) (w : Wire) (c : Nat × Op) : Option Wire :=
  if c.1 = a ∨ c.1 = b then some (w.apply c.1 c.2) else none

/-- The receiver `x` has shut its reading side, or the sender `y` has shut its writing side
    or is closed and everything was received. -/
def AtEnd (w : Wire) (x y : Nat) (me : Socket) : Prop :=
  me.shutRead = true ∨
    ((∀ peer, w.net.table.get y = some peer → peer.shutWrite = true) ∧ w.got x = w.sent y)

/-- A receive that returns no bytes. -/
def Zero (r : Option (Except Int Net.Datagram)) : Prop := ∃ d, r = some (.ok d) ∧ d.data = []

/-- What the receiver `x` may rely on. -/
structure Streams (w : Wire) (x y : Nat) : Prop where
  prefixed : w.got x <+: w.sent y
  zero_only : ∀ me max peek, w.net.table.get x = some me → 1 ≤ max → Zero (w.net.loopRecv x max peek).2 →
    w.AtEnd x y me
  zero_once : ∀ me max peek, w.net.table.get x = some me → w.AtEnd x y me → Zero (w.net.loopRecv x max peek).2
  readable : ∀ me, w.net.table.get x = some me → w.AtEnd x y me →
    ∃ r, w.net.readiness x = some r ∧ r.readable = true

/-- The end a connection has made of a socket. -/
structure JustConnected (me : Socket) (other : Nat) : Prop where
  phase : me.phase = .connected
  peer : me.loopPeer = some other
  rx : me.loopRx = []
  eof : me.loopEof = false
  shutRead : me.shutRead = false
  shutWrite : me.shutWrite = false
  pending : me.loopPending = []

/-- A connection nothing was sent on yet. -/
structure Start (a b : Nat) (w : Wire) : Prop where
  distinct : a ≠ b
  first : ∃ me, w.net.table.get a = some me ∧ JustConnected me b
  second : ∃ me, w.net.table.get b = some me ∧ JustConnected me a
  sent : ∀ x, w.sent x = []
  got : ∀ x, w.got x = []

/-- The writing side is shut only towards a peer that is closed or no longer reads. -/
def NoHalfClose (w : Wire) (c : Nat × Op) : Prop :=
  ∀ how, c.2 = .shutdown how → how = 1 ∨ how = 2 → ∀ peer, w.net.peerOf c.1 = some peer → peer.shutRead = true

/-! ### The invariant -/

/-- What is known of the end `x` whose other end is `y`. -/
structure Half (w : Wire) (x y : Nat) : Prop where
  prefixed : w.got x <+: w.sent y
  phase : ∀ me, w.net.table.get x = some me → me.phase = .connected
  pending : ∀ me, w.net.table.get x = some me → me.loopPending = []
  queued : ∀ me, w.net.table.get x = some me → w.got x ++ me.loopRx = w.sent y
  paired : ∀ me peer, w.net.table.get x = some me → w.net.table.get y = some peer →
    me.loopPeer = some y ∧ me.loopEof = false
  left : ∀ me, w.net.table.get x = some me → w.net.table.get y = none → me.loopPeer = none ∧ me.loopEof = true
  shut : ∀ me peer, w.net.table.get x = some me → w.net.table.get y = some peer → peer.shutWrite = true →
    me.shutRead = true

structure Pair (w : Wire) (x y : Nat) : Prop where
  distinct : x ≠ y
  here : Half w x y
  there : Half w y x

variable {w : Wire} {x y : Nat}

theorem Pair.symm (h : Pair w x y) : Pair w y x := ⟨h.distinct.symm, h.there, h.here⟩

variable {me : Socket}

theorem Pair.peerOf (h : Pair w x y) (hme : w.net.table.get x = some me) :
    w.net.peerOf x = w.net.table.get y := by
  unfold Net.peerOf
  rw [hme, bind_some]
  cases hy : w.net.table.get y with
  | none => rw [(h.here.left me hme hy).1, bind_none]
  | some peer =>
    rw [(h.here.paired me peer hme hy).1, bind_some]
    exact hy

/-- A live end belongs to the loopback for good. -/
theorem Half.local_end (h : Half w x y) (hme : w.net.table.get x = some me) :
    ¬ (me.phase ≠ .connected ∨ (me.loopPeer = none ∧ me.loopEof = false)) := by
  rintro (hphase | ⟨hpeer, heof⟩)
  · exact hphase (h.phase me hme)
  · cases hy : w.net.table.get y with
    | none =>
      rw [(h.left me hme hy).2] at heof
      cases heof
    | some peer =>
      rw [(h.paired me peer hme hy).1] at hpeer
      cases hpeer

/-- What `loopRecv` answers at a live end. -/
theorem Half.recv (h : Half w x y) (hme : w.net.table.get x = some me) (max : Nat) (peek : Bool) :
    (w.net.loopRecv x max peek).2 = if me.shutRead then some (.ok .empty)
      else if me.loopRx.isEmpty then some (if me.loopEof then .ok .empty else .error eagain)
      else some (.ok ⟨me.loopRx.take (min (Nat.max max 1) me.loopRx.length),
        (me.loopRx.take (min (Nat.max max 1) me.loopRx.length)).length, me.peer⟩) := by
  unfold Net.loopRecv
  rw [hme]
  dsimp only
  rw [if_neg (h.local_end hme)]
  split_ifs
  · rfl
  · rfl
  · rfl
  · rfl
  · rfl

theorem take_ne_nil {rx : List UInt8} (h : ¬ rx.isEmpty = true) (max : Nat) :
    rx.take (min (Nat.max max 1) rx.length) ≠ [] := by
  cases rx with
  | nil => exact absurd rfl h
  | cons byte rest =>
    have hpos : 0 < min (Nat.max max 1) (byte :: rest).length := by
      have h1 : 1 ≤ Nat.max max 1 := le_max_right _ _
      have h2 : 1 ≤ (byte :: rest).length := Nat.succ_le_succ (Nat.zero_le _)
      omega
    intro hnil
    rw [take_eq_nil_iff] at hnil
    rcases hnil with hnil | hnil
    · omega
    · cases hnil

/-- The invariant says all that a receiver may rely on. -/
theorem Half.streams_of_half (h : Half w x y) : Streams w x y where
  prefixed := h.prefixed
  zero_only := by
    rintro me max peek hme - ⟨d, hd, hnil⟩
    rw [h.recv hme] at hd
    split_ifs at hd with hshut hempty heof
    · exact .inl hshut
    · -- nothing queued and the end of file: the sender is closed
      refine .inr ⟨fun peer hpeer => ?_, ?_⟩
      · rw [(h.paired me peer hme hpeer).2] at heof
        cases heof
      · have := h.queued me hme
        rwa [isEmpty_iff.mp hempty, List.append_nil] at this
    · cases hd
    · cases hd
      exact absurd hnil (take_ne_nil hempty max)
  zero_once := by
    intro me max peek hme hend
    rw [h.recv hme]
    rcases hend with hshut | ⟨hgone, hall⟩
    · rw [if_pos hshut]
      exact ⟨_, rfl, rfl⟩
    · have hrx : me.loopRx = [] := by
        have := h.queued me hme
        rw [hall] at this
        exact append_right_eq_self.mp this
      split_ifs with hshut hempty heof
      · exact ⟨_, rfl, rfl⟩
      · exact ⟨_, rfl, rfl⟩
      · cases hy : w.net.table.get y with
        | none => exact absurd (h.left me hme hy).2 heof
        | some peer => exact absurd (h.shut me peer hme hy (hgone peer hy)) hshut
      · exact absurd (isEmpty_iff.mpr hrx) hempty
  readable := by
    intro me hme hend
    have hlocal : me.phase = .connected ∧ (me.loopPeer.isSome ∨ me.loopEof = true) := by
      refine ⟨h.phase me hme, ?_⟩
      cases hy : w.net.table.get y with
      | none => exact .inr (h.left me hme hy).2
      | some peer => exact .inl (by rw [(h.paired me peer hme hy).1]; rfl)
    unfold readiness
    rw [hme]
    dsimp only
    rw [if_pos hlocal]
    refine ⟨_, rfl, ?_⟩
    show (!me.loopRx.isEmpty || me.loopEof || me.shutRead) = true
    rcases hend with hshut | ⟨hgone, -⟩
    · rw [hshut, Bool.or_true]
    · cases hy : w.net.table.get y with
      | none => rw [(h.left me hme hy).2, Bool.or_true, Bool.true_or]
      | some peer => rw [h.shut me peer hme hy (hgone peer hy), Bool.or_true]

/-! ### What a call keeps -/

variable {w' : Wire}

/-- One entry of the pair is rewritten with its links as they were, and its account with it. -/
theorem Pair.rewrite (h : Pair w x y) {me me' : Socket} (hme : w.net.table.get x = some me)
    (htable : w'.net.table = w.net.table.put x me') (hphase : me'.phase = me.phase)
    (hpending : me'.loopPending = me.loopPending) (hpeer : me'.loopPeer = me.loopPeer)
    (heof : me'.loopEof = me.loopEof) (hread : me.shutRead = true → me'.shutRead = true)
    (hwrite : me'.shutWrite = true → ∀ peer, w.net.table.get y = some peer → peer.shutRead = true)
    (hqueued : w'.got x ++ me'.loopRx = w'.sent y) (hgot : w'.got y = w.got y) (hsent : w'.sent x = w.sent x) :
    Pair w' x y := by
  have hx : w'.net.table.get x = some me' := by
    rw [htable, get_put_self]
  have hy : w'.net.table.get y = w.net.table.get y := by
    rw [htable, get_put_of_ne h.distinct]
  have hshut : ∀ peer, w.net.table.get y = some peer → peer.shutWrite = true → me'.shutRead = true :=
    fun peer hp hs => hread (h.here.shut me peer hme hp hs)
  refine ⟨h.distinct, ⟨⟨_, hqueued⟩, ?_, ?_, ?_, ?_, ?_, ?_⟩, ⟨?_, ?_, ?_, ?_, ?_, ?_, ?_⟩⟩
  · intro a ha
    rw [hx] at ha
    cases ha
    rw [hphase]
    exact h.here.phase me hme
  · intro a ha
    rw [hx] at ha
    cases ha
    rw [hpending]
    exact h.here.pending me hme
  · intro a ha
    rw [hx] at ha
    cases ha
    exact hqueued
  · intro a peer ha hp
    rw [hx] at ha
    cases ha
    rw [hy] at hp
    rw [hpeer, heof]
    exact h.here.paired me peer hme hp
  · intro a ha hp
    rw [hx] at ha
    cases ha
    rw [hy] at hp
    rw [hpeer, heof]
    exact h.here.left me hme hp
  · intro a peer ha hp
    rw [hx] at ha
    cases ha
    rw [hy] at hp
    exact hshut peer hp
  · rw [hgot, hsent]
    exact h.there.prefixed
  · intro peer hp
    rw [hy] at hp
    exact h.there.phase peer hp
  · intro peer hp
    rw [hy] at hp
    exact h.there.pending peer hp
  · intro peer hp
    rw [hy] at hp
    rw [hgot, hsent]
    exact h.there.queued peer hp
  · intro peer a hp ha
    rw [hy] at hp
    exact h.there.paired peer me hp hme
  · intro peer hp ha
    rw [hx] at ha
    cases ha
  · intro peer a hp ha hs
    rw [hx] at ha
    cases ha
    rw [hy] at hp
    exact hwrite hs peer hp

/-- A call that changes neither the table nor the account. -/
theorem Pair.same (h : Pair w x y) (htable : w'.net.table = w.net.table) (hgot : w'.got = w.got)
    (hsent : w'.sent = w.sent) : Pair w' x y := by
  have hhalf : ∀ {x y}, Half w x y → Half w' x y := by
    intro x y hh
    refine ⟨?_, ?_, ?_, ?_, ?_, ?_, ?_⟩
    · rw [hgot, hsent]
      exact hh.prefixed
    · rw [htable]
      exact hh.phase
    · rw [htable]
      exact hh.pending
    · rw [htable, hgot, hsent]
      exact hh.queued
    · rw [htable]
      exact hh.paired
    · rw [htable]
      exact hh.left
    · rw [htable]
      exact hh.shut
  exact ⟨h.distinct, hhalf h.here, hhalf h.there⟩

theorem append_nil (f : Nat → List UInt8) (i : Nat) : append f i [] = f := by
  unfold append
  rw [List.append_nil, update_eq_self]

/-- `loopSend` at a live end whose peer is there. -/
theorem Half.send (h : Half w x y) {me peer : Socket} (hme : w.net.table.get x = some me)
    (hpeer : w.net.table.get y = some peer) (data : List UInt8) :
    w.net.loopSend x data = if me.shutWrite then (w.net, some (.error epipe))
      else if peer.shutRead then (w.net, some (.ok data.length))
      else if loopBuffer - peer.loopRx.length = 0 then (w.net, some (.error eagain))
      else (w.net.deliver y peer (data.take (min (loopBuffer - peer.loopRx.length) data.length)),
        some (.ok (min (loopBuffer - peer.loopRx.length) data.length))) := by
  unfold Net.loopSend
  rw [hme]
  dsimp only
  rw [if_neg (h.local_end hme), (h.paired me peer hme hpeer).1]
  dsimp only
  rw [hpeer]
  rfl

/-- A send at an end that is closed, or whose peer is, does nothing. -/
theorem Half.send_alone (h : Half w x y) (hgone : w.net.table.get x = none ∨ w.net.table.get y = none)
    (data : List UInt8) : (w.net.loopSend x data).1 = w.net ∧ accepted w.net x data = [] := by
  unfold accepted Net.loopSend
  cases hme : w.net.table.get x with
  | none => exact ⟨rfl, rfl⟩
  | some me =>
    have hy : w.net.table.get y = none := hgone.resolve_left (by rw [hme]; nofun)
    dsimp only
    rw [if_neg (h.local_end hme), (h.left me hme hy).1]
    split_ifs
    · exact ⟨rfl, rfl⟩
    · exact ⟨rfl, rfl⟩

section

variable (h : Pair w x y)

include h

theorem Pair.send (data : List UInt8) : Pair (w.apply x (.send data)) x y := by
  have hsame : (w.net.loopSend x data).1 = w.net → accepted w.net x data = [] →
      Pair (w.apply x (.send data)) x y := by
    intro hnet hbytes
    refine h.same ?_ rfl ?_
    · exact congrArg Net.table hnet
    · show append w.sent x (accepted w.net x data) = w.sent
      rw [hbytes, append_nil]
  cases hme : w.net.table.get x with
  | none =>
    obtain ⟨hnet, hbytes⟩ := h.here.send_alone (.inl hme) data
    exact hsame hnet hbytes
  | some me =>
    cases hy : w.net.table.get y with
    | none =>
      obtain ⟨hnet, hbytes⟩ := h.here.send_alone (.inr hy) data
      exact hsame hnet hbytes
    | some peer =>
      have hcall := h.here.send hme hy data
      have hpeerOf : w.net.peerOf x = some peer := (h.peerOf hme).trans hy
      split_ifs at hcall with hshut hread hroom
      · refine hsame (by rw [hcall]) ?_
        unfold accepted
        rw [hcall]
      · -- the bytes for a peer that no longer reads are dropped
        refine hsame (by rw [hcall]) ?_
        unfold accepted
        rw [hcall, hpeerOf]
        dsimp only
        rw [if_pos hread]
      · refine hsame (by rw [hcall]) ?_
        unfold accepted
        rw [hcall]
      · have hbytes : accepted w.net x data = data.take (min (loopBuffer - peer.loopRx.length) data.length) := by
          unfold accepted
          rw [hcall, hpeerOf]
          dsimp only
          rw [if_neg hread]
        have htable : (w.apply x (.send data)).net.table = w.net.table.put y
            { peer with loopRx := peer.loopRx ++ accepted w.net x data } := by
          show (w.net.loopSend x data).1.table = _
          rw [hcall, hbytes]
          rfl
        refine (h.symm.rewrite hy htable rfl rfl rfl rfl (fun hs => hs) ?_ ?_ rfl ?_).symm
        · intro hs a ha
          exact h.here.shut a peer ha hy hs
        · show w.got y ++ (peer.loopRx ++ _) = append w.sent x (accepted w.net x data) x
          unfold append
          rw [update_self, ← h.there.queued peer hy, append_assoc]
        · show append w.sent x (accepted w.net x data) y = w.sent y
          unfold append
          rw [update_of_ne h.distinct.symm]

theorem Pair.recv (max : Nat) (peek : Bool) : Pair (w.apply x (.recv max peek)) x y := by
  have hother : ∀ bytes, append w.got x bytes y = w.got y := by
    intro bytes
    unfold append
    rw [update_of_ne h.distinct.symm]
  cases hme : w.net.table.get x with
  | none =>
    have hcall : w.net.loopRecv x max peek = (w.net, none) := by
      unfold Net.loopRecv
      rw [hme]
    refine h.same ?_ ?_ rfl
    · show (w.net.loopRecv x max peek).1.table = w.net.table
      rw [hcall]
    · show append w.got x (taken w.net x max peek) = w.got
      unfold taken
      rw [hcall, append_nil]
  | some me =>
    have hanswer := h.here.recv hme max peek
    have htable : (w.net.loopRecv x max peek).1.table = w.net.table ∧ taken w.net x max peek = [] ∨
        ∃ rest, (w.net.loopRecv x max peek).1.table = w.net.table.put x { me with loopRx := rest } ∧
          taken w.net x max peek ++ rest = me.loopRx := by
      unfold taken
      rw [hanswer]
      unfold Net.loopRecv
      rw [hme]
      dsimp only
      rw [if_neg (h.here.local_end hme)]
      by_cases hshut : me.shutRead = true
      · rw [if_pos hshut, if_pos hshut]
        dsimp only
        split_ifs
        · exact .inl ⟨rfl, rfl⟩
        · exact .inl ⟨rfl, rfl⟩
      · rw [if_neg hshut, if_neg hshut]
        by_cases hempty : me.loopRx.isEmpty = true
        · rw [if_pos hempty, if_pos hempty]
          cases me.loopEof with
          | false => exact .inl ⟨rfl, rfl⟩
          | true =>
            cases peek with
            | false => exact .inl ⟨rfl, rfl⟩
            | true => exact .inl ⟨rfl, rfl⟩
        · rw [if_neg hempty, if_neg hempty]
          cases peek with
          | false => exact .inr ⟨_, rfl, take_append_drop _ _⟩
          | true => exact .inr ⟨_, rfl, rfl⟩
    rcases htable with ⟨hnet, hbytes⟩ | ⟨rest, hnet, hbytes⟩
    · refine h.same hnet ?_ rfl
      show append w.got x (taken w.net x max peek) = w.got
      rw [hbytes, append_nil]
    · refine h.rewrite hme hnet rfl rfl rfl rfl (fun hs => hs) ?_ ?_ (hother _) rfl
      · intro hs peer hpeer
        exact h.there.shut peer me hpeer hme hs
      · show append w.got x (taken w.net x max peek) x ++ rest = w.sent y
        unfold append
        rw [update_self, append_assoc, hbytes]
        exact h.here.queued me hme

theorem Pair.shutdown {how : Nat} (hok : NoHalfClose w (x, .shutdown how)) :
    Pair (w.apply x (.shutdown how)) x y := by
  cases hme : w.net.table.get x with
  | none =>
    refine h.same ?_ rfl rfl
    show (w.net.shutdown x how).1.table = w.net.table
    unfold Net.shutdown
    rw [hme]
  | some me =>
    have htable : (w.net.shutdown x how).1.table = w.net.table ∨
        (w.net.shutdown x how).1.table = w.net.table.put x (Net.shut me how) := by
      unfold Net.shutdown
      rw [hme]
      dsimp only
      split_ifs
      · exact .inl rfl
      · exact .inl rfl
      · exact .inr rfl
    rcases htable with hnet | hnet
    · exact h.same hnet rfl rfl
    · refine h.rewrite hme hnet rfl rfl rfl rfl ?_ ?_ (h.here.queued me hme) rfl rfl
      · intro hs
        show (me.shutRead || _) = true
        rw [hs, Bool.true_or]
      · intro hs peer hpeer
        rcases (Bool.or_eq_true _ _).mp hs with hs | hs
        · exact h.there.shut peer me hpeer hme hs
        · exact hok how rfl (of_decide_eq_true hs) peer ((h.peerOf hme).trans hpeer)

/-- The references of an end play no part. -/
theorem Pair.refs (hme : w.net.table.get x = some me) {n : Nat}
    (htable : w'.net.table = w.net.table.put x { me with refs := n }) (hgot : w'.got = w.got)
    (hsent : w'.sent = w.sent) : Pair w' x y := by
  refine h.rewrite hme htable rfl rfl rfl rfl (fun hs => hs) ?_ ?_ ?_ ?_
  · intro hs peer hpeer
    exact h.there.shut peer me hpeer hme hs
  · rw [hgot, hsent]
    exact h.here.queued me hme
  · rw [hgot]
  · rw [hsent]

theorem Pair.retain : Pair (w.apply x .retain) x y := by
  cases hme : w.net.table.get x with
  | none =>
    refine h.same ?_ rfl rfl
    show w.net.table.modify x _ = w.net.table
    unfold OrdMap.modify
    rw [hme]
  | some me => exact h.refs hme (modify_eq_put hme _) rfl rfl

/-- A closed end leaves the table, and the other end is told. -/
theorem Pair.close (hme : w.net.table.get x = some me)
    (htable : w'.net.table = closeOut (w.net.table.erase x) me) (hgot : w'.got = w.got)
    (hsent : w'.sent = w.sent) : Pair w' x y := by
  have hpend := h.here.pending me hme
  have hx : w'.net.table.get x = none := by
    rw [htable]
    unfold closeOut
    rw [hpend]
    cases me.loopPeer with
    | none =>
      show get (w.net.table.erase x) x = none
      rw [get_erase, if_pos rfl]
    | some p =>
      show get ((w.net.table.erase x).modify p Net.hangup) x = none
      rw [get_modify, get_erase, if_pos rfl]
      split_ifs
      · rfl
      · rfl
  have hy : w'.net.table.get y = (w.net.table.get y).map Net.hangup := by
    rw [htable]
    unfold closeOut
    rw [hpend]
    cases hpeer : w.net.table.get y with
    | none =>
      rw [(h.here.left me hme hpeer).1]
      show get (w.net.table.erase x) y = none
      rw [get_erase, if_neg h.distinct]
      exact hpeer
    | some peer =>
      rw [(h.here.paired me peer hme hpeer).1]
      show get ((w.net.table.erase x).modify y Net.hangup) y = _
      rw [get_modify, if_pos rfl, get_erase, if_neg h.distinct, hpeer]
  have hthere : ∀ {new}, w'.net.table.get y = some new → ∃ old, w.net.table.get y = some old ∧ new = Net.hangup old := by
    intro new hnew
    rw [hy] at hnew
    obtain ⟨old, hold, heq⟩ := map_eq_some_iff.mp hnew
    exact ⟨old, hold, heq.symm⟩
  have hgone : ∀ {a : Socket}, w'.net.table.get x ≠ some a := by
    intro a ha
    rw [hx] at ha
    cases ha
  refine ⟨h.distinct, ⟨?_, ?_, ?_, ?_, ?_, ?_, ?_⟩, ⟨?_, ?_, ?_, ?_, ?_, ?_, ?_⟩⟩
  · rw [hgot, hsent]
    exact h.here.prefixed
  · exact fun a ha => absurd ha hgone
  · exact fun a ha => absurd ha hgone
  · exact fun a ha => absurd ha hgone
  · exact fun a _ ha => absurd ha hgone
  · exact fun a ha => absurd ha hgone
  · exact fun a _ ha => absurd ha hgone
  · rw [hgot, hsent]
    exact h.there.prefixed
  · intro new hnew
    obtain ⟨old, hold, rfl⟩ := hthere hnew
    exact h.there.phase old hold
  · intro new hnew
    obtain ⟨old, hold, rfl⟩ := hthere hnew
    exact h.there.pending old hold
  · intro new hnew
    obtain ⟨old, hold, rfl⟩ := hthere hnew
    rw [hgot, hsent]
    exact h.there.queued old hold
  · exact fun _ a _ ha => absurd ha hgone
  · intro new hnew _
    obtain ⟨old, hold, rfl⟩ := hthere hnew
    exact ⟨rfl, rfl⟩
  · exact fun _ a _ ha => absurd ha hgone

theorem Pair.release : Pair (w.apply x .release) x y := by
  cases hme : w.net.table.get x with
  | none =>
    refine h.same ?_ rfl rfl
    show (w.net.release x).table = w.net.table
    unfold Net.release
    dsimp only
    rw [hme]
  | some me =>
    have htable : (w.net.release x).table = if me.refs - 1 = 0 then closeOut (w.net.table.erase x) me
        else w.net.table.put x { me with refs := me.refs - 1 } := by
      unfold Net.release
      dsimp only
      rw [hme]
      dsimp only
      split_ifs
      · rfl
      · rfl
    by_cases hlast : me.refs - 1 = 0
    · rw [if_pos hlast] at htable
      exact h.close hme htable rfl rfl
    · rw [if_neg hlast] at htable
      exact h.refs hme htable rfl rfl

end

/-! ### Runs -/

/-- A connection that `connectLoopback` makes for a socket nothing was done with is one to start from. -/
theorem start_of_connect {s : Net} (h : Inet.Inv s) {id : Nat} (remote : Endpoint)
    (hme : s.table.get id = some me) (hnew : s.table.get s.nextId = none) (hrx : me.loopRx = [])
    (hread : me.shutRead = false) (hwrite : me.shutWrite = false)
    (hok : (s.connectLoopback id remote).2 = .ok ()) :
    Start id s.nextId ⟨(s.connectLoopback id remote).1, fun _ => [], fun _ => []⟩ := by
  have hne : id ≠ s.nextId := by
    rintro rfl
    rw [hme] at hnew
    cases hnew
  have hpend : me.phase ≠ .listening → me.loopPending = [] := by
    intro hph
    by_contra hcon
    exact hph (h.queue id me hme hcon)
  -- the phase let the call through and a listener was found
  have hfrom : me.phase ≠ .listening ∧ ∃ listener, findListener s.table remote = some listener ∧
      (s.connectLoopback id remote).1.table = Net.join s.table id s.nextId listener.1 me remote
        ⟨remote.ip, (s.takeId.localPort me).2⟩ := by
    unfold Net.connectLoopback at hok ⊢
    rw [hme] at hok ⊢
    dsimp only at hok ⊢
    have hfound : (s.takeId.connectFrom id s.nextId me remote).2 = .ok () →
        ∃ listener, findListener s.table remote = some listener ∧
          (s.takeId.connectFrom id s.nextId me remote).1.table = Net.join s.table id s.nextId listener.1 me remote
            ⟨remote.ip, (s.takeId.localPort me).2⟩ := by
      unfold Net.connectFrom
      dsimp only
      rw [show s.takeId.table = s.table from rfl]
      cases hf : findListener s.table remote with
      | none => nofun
      | some listener =>
        intro _
        exact ⟨listener, rfl, rfl⟩
    cases hph : me.phase with
    | connected =>
      rw [hph] at hok
      cases hok
    | listening =>
      rw [hph] at hok
      cases hok
    | fresh =>
      rw [hph] at hok
      exact ⟨nofun, hfound hok⟩
    | connecting =>
      rw [hph] at hok
      exact ⟨nofun, hfound hok⟩
    | failed =>
      rw [hph] at hok
      exact ⟨nofun, hfound hok⟩
  obtain ⟨hlisten, listener, hf, htable⟩ := hfrom
  have hmem := mem_of_find?_eq_some hf
  have hget : s.table.get listener.1 = some listener.2 := (mem_iff s.table listener).mp hmem
  have hls : listener.1 ≠ s.nextId := by
    intro heq
    rw [heq, hnew] at hget
    cases hget
  have hli : listener.1 ≠ id := by
    intro heq
    rw [heq, hme] at hget
    have htest : decide (Net.Listens remote listener.2) = true :=
      find?_some (p := fun e : Nat × Socket => decide (Net.Listens remote e.2)) hf
    cases hget
    exact hlisten (of_decide_eq_true htest).2.1
  have hjoin := join_get id me remote ⟨remote.ip, (s.takeId.localPort me).2⟩ hget hls
  refine ⟨hne, ?_, ?_, fun _ => rfl, fun _ => rfl⟩
  · refine ⟨clientHalf me s.nextId remote ⟨remote.ip, (s.takeId.localPort me).2⟩, ?_, ?_⟩
    · dsimp only
      rw [htable, hjoin, if_pos rfl]
    · exact ⟨rfl, rfl, hrx, rfl, hread, hwrite, hpend hlisten⟩
  · refine ⟨Net.serverHalf id remote ⟨remote.ip, (s.takeId.localPort me).2⟩, ?_, ?_⟩
    · dsimp only
      rw [htable, hjoin, if_neg hne, if_neg hls, if_pos rfl]
    · exact ⟨rfl, rfl, rfl, rfl, rfl, rfl, rfl⟩

theorem Pair.apply (h : Pair w x y) {op : Op} (hok : NoHalfClose w (x, op)) : Pair (w.apply x op) x y := by
  cases op with
  | send data => exact h.send data
  | recv max peek => exact h.recv max peek
  | shutdown how => exact h.shutdown hok
  | retain => exact h.retain
  | release => exact h.release

theorem Start.half {a b : Nat} (h : Start a b w) {x y : Nat} {me peer : Socket} (hx : w.net.table.get x = some me)
    (hme : JustConnected me y) (hy : w.net.table.get y = some peer) (hpeer : JustConnected peer x) : Half w x y := by
  refine ⟨?_, ?_, ?_, ?_, ?_, ?_, ?_⟩
  · -- nothing was sent or received yet
    have hsame : w.got x = w.sent y := (h.got x).trans (h.sent y).symm
    exact hsame ▸ prefix_rfl
  · intro a ha
    rw [hx] at ha
    cases ha
    exact hme.phase
  · intro a ha
    rw [hx] at ha
    cases ha
    exact hme.pending
  · intro a ha
    rw [hx] at ha
    cases ha
    rw [h.got, h.sent, hme.rx]
    rfl
  · intro a p ha _
    rw [hx] at ha
    cases ha
    exact ⟨hme.peer, hme.eof⟩
  · intro a _ hnone
    rw [hy] at hnone
    cases hnone
  · intro a p _ hp hs
    rw [hy] at hp
    cases hp
    rw [hpeer.shutWrite] at hs
    cases hs

theorem Start.pair {a b : Nat} (h : Start a b w) : Pair w a b := by
  obtain ⟨ma, ha, hma⟩ := h.first
  obtain ⟨mb, hb, hmb⟩ := h.second
  exact ⟨h.distinct, h.half ha hma hb hmb, h.half hb hmb ha hma⟩

/-- Both directions keep to `Streams` in every run without a half close. -/
theorem streams {a b : Nat} (h : Reach (Start a b) (step a b) NoHalfClose w) :
    Streams w a b ∧ Streams w b a := by
  have hpair : Pair w a b := by
    refine h.invariant (fun s hs => hs.pair) ?_
    rintro s ⟨id, op⟩ s' hi hok hstep
    obtain ⟨hid, heq⟩ := Option.ite_none_right_eq_some.mp hstep
    cases heq
    rcases hid with rfl | rfl
    · exact hi.apply hok
    · exact (hi.symm.apply hok).symm
  exact ⟨hpair.here.streams_of_half, hpair.there.streams_of_half⟩

/-- A client connected to a listener, and the table around them. -/
def dialled : Wire :=
  let listening := (Net.boot.create .tcp).1.listen (idBase + 1) none
  ⟨((listening.1.create .tcp).1.connectLoopback (idBase + 2) ⟨(127, 0, 0, 1), 40000⟩).1, fun _ => [], fun _ => []⟩

theorem dialled_start : Start (idBase + 2) (idBase + 3) dialled := by
  refine ⟨by decide, ⟨_, rfl, ?_⟩, ⟨_, rfl, ?_⟩, fun _ => rfl, fun _ => rfl⟩
  · exact ⟨rfl, rfl, rfl, rfl, rfl, rfl, rfl⟩
  · exact ⟨rfl, rfl, rfl, rfl, rfl, rfl, rfl⟩

/-- Three bytes are sent, two received, and the sender closes. -/
def talk : List (Nat × Op) :=
  [(idBase + 2, .send [1, 2, 3]), (idBase + 3, .recv 2 false), (idBase + 2, .release)]

theorem streams_talk :
    ∃ w, runLabels (step (idBase + 2) (idBase + 3)) dialled talk = some w ∧ w.got (idBase + 3) = [1, 2] ∧
      Streams w (idBase + 2) (idBase + 3) ∧ Streams w (idBase + 3) (idBase + 2) := by
  refine ⟨_, rfl, rfl, streams (Reach.run (.start dialled_start) talk ?_ rfl)⟩
  intro s c hc how heq
  simp only [talk, List.mem_cons, List.not_mem_nil, or_false] at hc
  rcases hc with rfl | rfl | rfl
  · cases heq
  · cases heq
  · cases heq

theorem half_close_is_not_seen :
    ¬ ∀ (a b : Nat) (w : Wire), Reach (Start a b) (step a b) (fun _ _ => True) w →
      Streams w a b ∧ Streams w b a := by
  intro hall
  have hrun := hall (idBase + 2) (idBase + 3) _
    (Reach.run (.start dialled_start) [(idBase + 2, .shutdown 1)] (fun _ _ _ => trivial) rfl)
  -- all was received and the sender will send no more, and the receiver is told to try again
  obtain ⟨d, hd, -⟩ := hrun.2.zero_once _ 1 false rfl (.inr ⟨fun peer hpeer => by cases hpeer; rfl, rfl⟩)
  cases hd

/-- What `connectLoopback` joins in any tidy run keeps to `Streams` in every run of the two ends without a half close. -/
theorem connected_streams {s : Net} (h : Reach (· = Net.boot) Inet.step Tidy s) {id : Nat} {remote : Endpoint}
    (hme : s.table.get id = some me) (hnew : s.table.get s.nextId = none) (hrx : me.loopRx = [])
    (hread : me.shutRead = false) (hwrite : me.shutWrite = false) (hok : (s.connectLoopback id remote).2 = .ok ())
    (hrun : Reach (· = ⟨(s.connectLoopback id remote).1, fun _ => [], fun _ => []⟩) (step id s.nextId) NoHalfClose w) :
    Streams w id s.nextId ∧ Streams w s.nextId id := by
  have hinv : Inet.Inv s := by
    refine h.invariant ?_ fun _ _ _ hi htidy hstep => hi.step htidy hstep
    rintro s rfl
    exact Inv.boot
  have hpair : Pair w id s.nextId := by
    refine hrun.invariant (I := fun w => Pair w id s.nextId) ?_ ?_
    · rintro _ rfl
      exact (start_of_connect hinv remote hme hnew hrx hread hwrite hok).pair
    · rintro _ ⟨x, op⟩ _ hi hstill hstep
      obtain ⟨hx, heq⟩ := ite_none_right_eq_some.mp hstep
      cases heq
      rcases hx with rfl | rfl
      · exact hi.apply hstill
      · exact (hi.symm.apply hstill).symm
  exact ⟨hpair.here.streams_of_half, hpair.there.streams_of_half⟩

/-- The client of `handshake`, and its first byte. -/
theorem connected_streams_first : ∃ s, runLabels Inet.step Net.boot (handshake.take 3) = some s ∧
    ∃ w, runLabels (step (idBase + 2) s.nextId) ⟨(s.connectLoopback (idBase + 2) ⟨(127, 0, 0, 1), 40000⟩).1, fun _ => [], fun _ => []⟩
      [(idBase + 2, .send [7])] = some w ∧ Streams w (idBase + 2) s.nextId ∧ Streams w s.nextId (idBase + 2) := by
  refine ⟨_, rfl, _, rfl, connected_streams (Reach.admitted (.start rfl) (handshake.take 3) ?_ rfl) rfl rfl rfl rfl rfl rfl
    (Reach.run (.start rfl) [(idBase + 2, .send [7])] ?_ rfl)⟩
  · refine ⟨⟨fun _ => rfl, fun h => h⟩, fun _ h => ?_⟩
    cases h
    refine ⟨⟨fun h => h.elim, fun h => h⟩, fun _ h => ?_⟩
    cases h
    exact ⟨⟨fun _ => rfl, fun h => h⟩, fun _ _ => trivial⟩
  · intro _ c hc how heq
    rw [mem_singleton.mp hc] at heq
    cases heq

end Wire

end Inet

end HamixOS.Kernel

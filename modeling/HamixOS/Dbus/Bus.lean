import HamixOS.Dbus.Message

namespace HamixOS.Dbus

open Lib List Message Nat

/-!
# A connection to the bus

`Bus` cuts the bytes that its socket delivers into messages and gives each the descriptors it announces.
`call` waits for the reply to its own message and sets the others aside; `next` returns these first.

* `Carries` — what has arrived and what is still to come is a sequence of messages, each with its
  descriptors no later than its bytes;
* `readOne_carries` — the next message is read whole, wherever it was cut;
* `Holds` — the messages that are still to be returned, in order of arrival; `next_holds` takes the first,
  `callReply_holds` one of them;
* `conversation` — calls and nexts return every message once.
-/

/-- What one `recv_with_fds` returns. -/
structure Chunk where
  bytes : Bytes
  fds : List Nat

/-- The connection, with what its socket delivers, how many bytes it takes in the sends to come, and what it has taken. -/
structure Bus where
  serial : UInt32
  inbuf : Bytes
  infds : List Nat
  pending : List Message
  incoming : List Chunk
  room : List Nat
  taken : List (Bytes × List Nat)

namespace Bus

/-- The loop of `send`: the descriptors go with the first part, and nothing taken ends it. -/
def sendAll : List Nat → Bytes → List Nat → List (Bytes × List Nat) × List Nat
  | [], _, _ => ([], [])
  | n :: room, raw, fds =>
    if raw = [] then ([], n :: room)
    else if n = 0 then ([], room)
    else
      let (parts, room) := sendAll room (raw.drop n) []
      ((raw.take n, fds) :: parts, room)

variable (b : Bus)

def send (message : Message) : UInt32 × Bus :=
  let serial := max (b.serial + 1) 1
  let (parts, room) := sendAll b.room (message.encode serial) message.fds
  (serial, { b with serial := serial, room := room, taken := b.taken ++ parts })

/-- The first message, if all of it has arrived: `some none` is one that cannot be decoded. -/
def takeOne : Option (Option Message × Bus) :=
  match totalLen b.inbuf with
  | none => none
  | some total =>
    if total ≤ b.inbuf.length then
      match decode (b.inbuf.take total) with
      | none => some (none, { b with inbuf := b.inbuf.drop total })
      | some (m, fds) =>
        some (some { m with fds := m.fds ++ b.infds.take fds.toNat },
          { b with inbuf := b.inbuf.drop total, infds := b.infds.drop fds.toNat })
    else none

/-- `incoming` is that of `b`; an empty chunk is the end of the connection. -/
def readLoop : List Chunk → Bus → Option Message × Bus
  | [], b => b.takeOne.getD (none, b)
  | c :: incoming, b =>
    match b.takeOne with
    | some r => r
    | none =>
      if c.bytes = [] then (none, { b with incoming := incoming })
      else readLoop incoming { b with inbuf := b.inbuf ++ c.bytes, infds := b.infds ++ c.fds, incoming := incoming }

def readOne : Option Message × Bus := readLoop b.incoming b

def next : Option Message × Bus :=
  match b.pending with
  | m :: pending => (some m, { b with pending := pending })
  | [] => b.readOne

/-- The bytes that have arrived and are to come. -/
def remaining : Nat := (b.inbuf ++ b.incoming.flatMap Chunk.bytes).length

variable {b : Bus}

theorem totalLen_ge {raw : Bytes} {total : Nat} (h : totalLen raw = some total) : 16 ≤ total ∧ 16 ≤ raw.length := by
  unfold totalLen at h
  split at h
  · cases h
  · have := Option.some.inj h
    omega

theorem takeOne_remaining {m : Message} {b' : Bus} (h : b.takeOne = some (some m, b')) : b'.remaining < b.remaining := by
  unfold takeOne at h
  split at h
  · cases h
  next total htotal =>
    have hge := totalLen_ge htotal
    split at h
    next hle =>
      split at h
      · cases h
      · obtain ⟨-, rfl⟩ := Prod.mk.inj (Option.some.inj h)
        unfold remaining
        simp only [length_append, length_drop]
        omega
    · cases h

theorem readLoop_remaining {incoming : List Chunk} {m : Message} {b' : Bus} (hb : b.incoming = incoming)
    (h : readLoop incoming b = (some m, b')) : b'.remaining < b.remaining := by
  induction incoming generalizing b with
  | nil =>
    unfold readLoop at h
    cases htake : b.takeOne with
    | none =>
      rw [htake] at h
      cases h
    | some r =>
      rw [htake] at h
      exact takeOne_remaining (htake.trans (congrArg some h))
  | cons c incoming ih =>
    unfold readLoop at h
    cases htake : b.takeOne with
    | some r =>
      rw [htake] at h
      exact takeOne_remaining (htake.trans (congrArg some h))
    | none =>
      rw [htake] at h
      dsimp only at h
      split at h
      · cases h
      · have hlt := ih (b := { b with inbuf := b.inbuf ++ c.bytes, infds := b.infds ++ c.fds, incoming := incoming }) rfl h
        unfold remaining at hlt ⊢
        rw [hb]
        simpa only [flatMap_cons, append_assoc] using hlt

/-- The messages before the reply are set aside. -/
def awaitReply (serial : UInt32) (b : Bus) : Option Message × Bus :=
  match _h : b.readOne with
  | (none, b') => (none, b')
  | (some m, b') =>
    if m.replySerial = serial ∧ (m.kind = methodReturn ∨ m.kind = errorKind) then (some m, b')
    else awaitReply serial { b' with pending := b'.pending ++ [m] }
termination_by b.remaining
decreasing_by exact show b'.remaining < b.remaining from readLoop_remaining rfl _h

variable (b : Bus)

/-- The message that ends a call. -/
def callReply (message : Message) : Option Message × Bus := awaitReply (b.send message).1 (b.send message).2

/-- What `call` makes of it. -/
def call (message : Message) : Except Text Message × Bus :=
  match b.callReply message with
  | (none, b) => (.error "the bus closed the connection".toList, b)
  | (some m, b) =>
    if m.kind = errorKind then (.error (m.error ++ [':', ' '] ++ ((Reader.str ⟨m.body, 0⟩).map Prod.fst).getD []), b)
    else (.ok m, b)

/-! ### Runs -/

inductive Op where
  | next
  | call (message : Message)

/-- What an operation took from the connection. -/
inductive Taken where
  | next (m : Option Message)
  | reply (m : Option Message)
  deriving DecidableEq

def step : Op → Taken × Bus
  | .next => (.next b.next.1, b.next.2)
  | .call message => (.reply (b.callReply message).1, (b.callReply message).2)

def run : Bus → List Op → List Taken × Bus
  | b, [] => ([], b)
  | b, op :: ops => ((b.step op).1 :: (run (b.step op).2 ops).1, (run (b.step op).2 ops).2)

/-- The messages that `next` returned. -/
def Taken.byNext : Taken → Option Message
  | .next m => m
  | .reply _ => none

/-- The messages that ended a call. -/
def Taken.byCall : Taken → Option Message
  | .next _ => none
  | .reply m => m

end Bus

/-- A message that the peer sends. -/
structure Sent where
  message : Message
  serial : UInt32
  fits : message.Fits

namespace Sent

def bytes (x : Sent) : Bytes := x.message.encode x.serial

def fds (x : Sent) : List Nat := x.message.fds

/-- The message as it is to be returned. -/
def received (x : Sent) : Message := { x.message with serial := x.serial }

end Sent

namespace Bus

/-- What has arrived and what is to come are the messages `xs`, and when the bytes of some of them have
    arrived, so have their descriptors. -/
structure Carries (b : Bus) (xs : List Sent) : Prop where
  bytes : b.inbuf ++ b.incoming.flatMap Chunk.bytes = xs.flatMap Sent.bytes
  fds : b.infds ++ b.incoming.flatMap Chunk.fds = xs.flatMap Sent.fds
  chunks : ∀ c ∈ b.incoming, c.bytes ≠ []
  timely : ∀ k j, ((xs.take j).flatMap Sent.bytes).length ≤ (b.inbuf ++ (b.incoming.take k).flatMap Chunk.bytes).length →
    ((xs.take j).flatMap Sent.fds).length ≤ (b.infds ++ (b.incoming.take k).flatMap Chunk.fds).length

/-! ### One message -/

/-- What is long enough starts as the whole does. -/
theorem append_drop_of_append {α : Type} {a b x c : List α} (hlen : x.length ≤ a.length) (h : a ++ b = x ++ c) :
    a = x ++ a.drop x.length := by
  have htake : a.take x.length = x := by
    rw [← take_append_of_le_length hlen, h, take_left]
  conv_lhs => rw [← take_append_drop x.length a, htake]

theorem totalLen_append {raw : Bytes} (h : 16 ≤ raw.length) (rest : Bytes) : totalLen (raw ++ rest) = totalLen raw := by
  have hslice {o : Nat} (ho : o + 4 ≤ 16) : slice (raw ++ rest) o 4 = slice raw o 4 := by
    unfold slice
    rw [drop_append_of_le_length (by omega), take_append_of_le_length (by rw [length_drop]; omega)]
  unfold totalLen
  rw [if_neg (by rw [length_append]; omega), if_neg (by omega), hslice (by decide), hslice (by decide)]

namespace Carries

variable {b : Bus} {x : Sent} {xs : List Sent}

/-- More of the stream arrives. -/
theorem recv {c : Chunk} {incoming : List Chunk} (h : b.Carries xs) (hb : b.incoming = c :: incoming) :
    ({ b with inbuf := b.inbuf ++ c.bytes, infds := b.infds ++ c.fds, incoming := incoming } : Bus).Carries xs := by
  obtain ⟨hbytes, hfds, hchunks, htimely⟩ := h
  rw [hb] at hbytes hfds hchunks htimely
  refine ⟨?_, ?_, fun c' hc => hchunks c' (mem_cons_of_mem c hc), fun k j hk => ?_⟩
  · simpa only [flatMap_cons, append_assoc] using hbytes
  · simpa only [flatMap_cons, append_assoc] using hfds
  · have hnext := htimely (k + 1) j
    simp only [take_succ_cons, flatMap_cons, ← append_assoc] at hnext
    exact hnext hk

/-- With nothing to come there is nothing left. -/
theorem nothing (h : b.Carries []) : b.inbuf = [] ∧ b.infds = [] ∧ b.incoming = [] := by
  obtain ⟨hinbuf, hbytes⟩ := append_eq_nil_iff.mp h.bytes
  obtain ⟨hinfds, -⟩ := append_eq_nil_iff.mp h.fds
  refine ⟨hinbuf, hinfds, eq_nil_iff_forall_not_mem.mpr fun c hc => h.chunks c hc ?_⟩
  exact flatMap_eq_nil_iff.mp hbytes c hc

section

variable (h : b.Carries (x :: xs))

include h

/-- A message of which the last byte is missing is left alone. -/
theorem takeOne_short (hshort : b.inbuf.length < x.bytes.length) : b.takeOne = none := by
  have hbytes := h.bytes
  rw [flatMap_cons] at hbytes
  unfold takeOne
  by_cases hlen : b.inbuf.length < 16
  · have htotal : totalLen b.inbuf = none := if_pos hlen
    rw [htotal]
  · have htotal : totalLen b.inbuf = some x.bytes.length := by
      rw [← totalLen_append (Nat.le_of_not_lt hlen) (b.incoming.flatMap Chunk.bytes), hbytes]
      exact totalLen_encode x.fits x.serial _
    rw [htotal]
    dsimp only
    rw [if_neg (not_le.mpr hshort)]

/-- A message that has arrived is taken with its own descriptors. -/
theorem takeOne_whole (hwhole : x.bytes.length ≤ b.inbuf.length) :
    ∃ b' : Bus, b.takeOne = some (some x.received, b') ∧ b'.Carries xs ∧ b'.pending = b.pending := by
  obtain ⟨hbytes, hfds, hchunks, htimely⟩ := h
  rw [flatMap_cons] at hbytes hfds
  have hone := htimely 0 1
  simp only [take_succ_cons, take_zero, flatMap_cons, flatMap_nil, append_nil] at hone
  have hfdsLen := hone hwhole
  obtain ⟨inbuf, hinbuf⟩ : ∃ inbuf, b.inbuf = x.bytes ++ inbuf :=
    ⟨b.inbuf.drop x.bytes.length, append_drop_of_append hwhole hbytes⟩
  obtain ⟨infds, hinfds⟩ : ∃ infds, b.infds = x.fds ++ infds :=
    ⟨b.infds.drop x.fds.length, append_drop_of_append hfdsLen hfds⟩
  have htotal : totalLen b.inbuf = some x.bytes.length := by
    rw [hinbuf]
    exact totalLen_encode x.fits x.serial _
  have hcount : (UInt32.ofNat x.message.fds.length).toNat = x.fds.length := toNat_ofNat_length x.fits.fds
  have hdecode : decode (b.inbuf.take x.bytes.length) =
      some ({ x.message with serial := x.serial, fds := [] }, UInt32.ofNat x.message.fds.length) := by
    rw [hinbuf, take_left]
    exact decode_encode x.fits x.serial
  refine ⟨{ b with inbuf := inbuf, infds := infds }, ?_, ⟨?_, ?_, hchunks, fun k j hk => ?_⟩, rfl⟩
  · unfold takeOne
    rw [htotal]
    dsimp only
    rw [if_pos hwhole, hdecode]
    dsimp only
    rw [hcount, hinbuf, hinfds, drop_left, take_left, drop_left]
    rfl
  · rw [hinbuf, append_assoc] at hbytes
    exact append_cancel_left hbytes
  · rw [hinfds, append_assoc] at hfds
    exact append_cancel_left hfds
  · have hnext := htimely k (j + 1)
    simp only [take_succ_cons, flatMap_cons, hinbuf, hinfds, append_assoc, length_append] at hnext hk ⊢
    omega

/-- The next message is read whole, however it was cut. -/
theorem readLoop_carries {incoming : List Chunk} (hb : b.incoming = incoming) :
    ∃ b' : Bus, readLoop incoming b = (some x.received, b') ∧ b'.Carries xs ∧ b'.pending = b.pending := by
  induction incoming generalizing b with
  | nil =>
    have hwhole : x.bytes.length ≤ b.inbuf.length := by
      have hlen := congrArg length h.bytes
      rw [hb, flatMap_cons, flatMap_nil, append_nil, length_append] at hlen
      omega
    obtain ⟨b', htake, hcarries, hpending⟩ := h.takeOne_whole hwhole
    refine ⟨b', ?_, hcarries, hpending⟩
    unfold readLoop
    rw [htake]
    rfl
  | cons c incoming ih =>
    unfold readLoop
    by_cases hwhole : x.bytes.length ≤ b.inbuf.length
    · obtain ⟨b', htake, hcarries, hpending⟩ := h.takeOne_whole hwhole
      rw [htake]
      exact ⟨b', rfl, hcarries, hpending⟩
    · have hc : c.bytes ≠ [] := h.chunks c (by rw [hb]; exact mem_cons_self)
      rw [h.takeOne_short (Nat.lt_of_not_le hwhole)]
      rw [if_neg hc]
      exact ih (h.recv hb) rfl

theorem readOne_carries :
    ∃ b' : Bus, b.readOne = (some x.received, b') ∧ b'.Carries xs ∧ b'.pending = b.pending := h.readLoop_carries rfl

end

theorem readOne_nothing (h : b.Carries []) : b.readOne = (none, b) := by
  obtain ⟨hinbuf, -, hincoming⟩ := h.nothing
  have htake : b.takeOne = none := by
    unfold takeOne
    rw [hinbuf]
    rfl
  unfold readOne
  rw [hincoming, readLoop, htake]
  rfl

end Carries

/-! ### What is still to be returned -/

/-- The messages that were set aside, and those that are to be read. -/
def Holds (b : Bus) (rest : List Message) : Prop := ∃ xs, b.Carries xs ∧ rest = b.pending ++ xs.map Sent.received

variable {b : Bus} {rest : List Message}

theorem next_holds (h : b.Holds rest) : b.next.1 = rest.head? ∧ b.next.2.Holds rest.tail := by
  obtain ⟨xs, hcarries, rfl⟩ := h
  unfold next
  cases hp : b.pending with
  | cons m pending =>
    refine ⟨rfl, xs, ⟨hcarries.bytes, hcarries.fds, hcarries.chunks, hcarries.timely⟩, rfl⟩
  | nil =>
    cases xs with
    | nil =>
      rw [hcarries.readOne_nothing]
      exact ⟨rfl, [], hcarries, by rw [hp]; rfl⟩
    | cons x xs =>
      obtain ⟨b', hread, hcarries', hpending⟩ := hcarries.readOne_carries
      rw [hread]
      exact ⟨rfl, xs, hcarries', by rw [hpending, hp]; rfl⟩

/-- What a call leaves of the messages to be returned. -/
inductive Removes : Option Message → List Message → List Message → Prop where
  | none (rest : List Message) : Removes none rest rest
  | some (before : List Message) (m : Message) (after : List Message) : Removes (some m) (before ++ m :: after) (before ++ after)

theorem awaitReply_carries {xs : List Sent} (h : b.Carries xs) (serial : UInt32) :
    ∃ rest', (awaitReply serial b).2.Holds rest' ∧ Removes (awaitReply serial b).1 (b.pending ++ xs.map Sent.received) rest' := by
  induction xs generalizing b with
  | nil =>
    unfold awaitReply
    rw [h.readOne_nothing]
    exact ⟨_, ⟨[], h, rfl⟩, .none _⟩
  | cons x xs ih =>
    obtain ⟨b', hread, hcarries, hpending⟩ := h.readOne_carries
    unfold awaitReply
    rw [hread]
    dsimp only
    split
    · refine ⟨_, ⟨xs, hcarries, rfl⟩, ?_⟩
      rw [hpending]
      exact .some b.pending x.received (xs.map Sent.received)
    · obtain ⟨rest', hholds, hremoves⟩ := ih (b := { b' with pending := b'.pending ++ [x.received] })
        ⟨hcarries.bytes, hcarries.fds, hcarries.chunks, hcarries.timely⟩
      refine ⟨rest', hholds, ?_⟩
      rw [← hpending, map_cons, append_cons b'.pending x.received (xs.map Sent.received)]
      exact hremoves

theorem callReply_holds (h : b.Holds rest) (message : Message) :
    ∃ rest', (b.callReply message).2.Holds rest' ∧ Removes (b.callReply message).1 rest rest' := by
  obtain ⟨xs, hcarries, rfl⟩ := h
  exact awaitReply_carries (b := (b.send message).2) ⟨hcarries.bytes, hcarries.fds, hcarries.chunks, hcarries.timely⟩ _

/-- What is left after any operations: each message was returned or is still to be, in its order. -/
theorem run_holds (h : b.Holds rest) (ops : List Op) :
    ∃ rest', (run b ops).2.Holds rest' ∧ ((run b ops).1.filterMap Taken.byNext ++ rest').Sublist rest ∧
      ((run b ops).1.filterMap Taken.byNext ++ rest' ++ (run b ops).1.filterMap Taken.byCall).Perm rest := by
  induction ops generalizing b rest with
  | nil => exact ⟨rest, h, List.Sublist.refl _, by rw [run, filterMap_nil, filterMap_nil, append_nil]; exact .refl _⟩
  | cons op ops ih =>
    cases op with
    | next =>
      obtain ⟨hhead, hholds⟩ := next_holds h
      obtain ⟨rest', hrest, hsub, hperm⟩ := ih hholds
      refine ⟨rest', hrest, ?_⟩
      rw [run]
      dsimp only [step]
      rw [hhead]
      cases rest with
      | nil => exact ⟨hsub, hperm⟩
      | cons m rest => exact ⟨hsub.cons_cons m, hperm.cons m⟩
    | call message =>
      obtain ⟨left, hholds, hremoves⟩ := callReply_holds h message
      obtain ⟨rest', hrest, hsub, hperm⟩ := ih hholds
      refine ⟨rest', hrest, ?_⟩
      rw [run]
      dsimp only [step]
      generalize (b.callReply message).1 = reply at hremoves
      cases hremoves with
      | none => exact ⟨hsub, hperm⟩
      | some before m after =>
        refine ⟨hsub.trans ((sublist_cons_self m after).append_left before), ?_⟩
        refine List.Perm.trans perm_middle ?_
        exact (hperm.cons m).trans perm_middle.symm

/-- The messages that are left are returned by as many nexts. -/
theorem nexts_holds (h : b.Holds rest) :
    (run b (replicate rest.length .next)).1 = rest.map fun m => Taken.next (some m) := by
  induction rest generalizing b with
  | nil => rfl
  | cons m rest ih =>
    obtain ⟨hhead, hholds⟩ := next_holds h
    rw [length_cons, replicate_succ, run, map_cons]
    dsimp only [step]
    rw [hhead, ih hholds]
    rfl

/-- Messages are read back from their bytes, and each of a stream of them is returned once: those that
    `next` returns in order of arrival, and those that are left by the nexts to come. -/
theorem conversation {m : Message} (hm : m.Fits) (serial : UInt32) {xs : List Sent} (hb : b.Carries xs) (ops : List Op) :
    (totalLen (m.encode serial) = some (m.encode serial).length ∧
      ∃ count, decode (m.encode serial) = some ({ m with serial := serial, fds := [] }, count) ∧ count.toNat = m.fds.length) ∧
    ∃ rest, ((run b ops).1.filterMap Taken.byNext ++ rest).Sublist (b.pending ++ xs.map Sent.received) ∧
      ((run b ops).1.filterMap Taken.byNext ++ rest ++ (run b ops).1.filterMap Taken.byCall).Perm
        (b.pending ++ xs.map Sent.received) ∧
      (run (run b ops).2 (List.replicate rest.length .next)).1 = rest.map fun m => Taken.next (some m) := by
  refine ⟨⟨?_, _, Message.decode_encode hm serial, Message.toNat_ofNat_length hm.fds⟩, ?_⟩
  · have htotal := Message.totalLen_encode hm serial []
    rwa [List.append_nil] at htotal
  · obtain ⟨rest, hholds, hsub, hperm⟩ := run_holds ⟨xs, hb, rfl⟩ ops
    exact ⟨rest, hsub, hperm, nexts_holds hholds⟩

/-- A signal with a descriptor, cut within its header. -/
def opened : Message where
  kind := 4
  flags := 0
  serial := 0
  path := ['/']
  interface := []
  member := ['O']
  error := []
  destination := []
  sender := []
  signature := ['h']
  replySerial := 0
  body := [0, 0, 0, 0]
  fds := [7]

theorem opened_fits : opened.Fits := ⟨by decide, by decide, by decide, by decide⟩

def openedSent : Sent := ⟨opened, 5, opened_fits⟩

def openedBus : Bus where
  serial := 1
  inbuf := []
  infds := []
  pending := []
  incoming := [⟨openedSent.bytes.take 10, [7]⟩, ⟨openedSent.bytes.drop 10, []⟩]
  room := []
  taken := []

theorem openedBus_carries : openedBus.Carries [openedSent] := by
  have hsplit : openedSent.bytes.take 10 ++ (openedSent.bytes.drop 10 ++ []) = openedSent.bytes ++ [] := by
    rw [← append_assoc, take_append_drop]
  refine ⟨hsplit, rfl, ?_, fun k j hk => ?_⟩
  · intro c hc
    rcases mem_pair.mp hc with rfl | rfl
    · exact nofun
    · exact nofun
  · cases k with
    | zero =>
      cases j with
      | zero => exact zero_le _
      | succ j =>
        have hlen : openedSent.bytes.length = _ := length_encode opened_fits 5
        change _ ≤ 0 at hk
        rw [take_succ_cons, flatMap_cons, length_append] at hk
        omega
    | succ k =>
      cases j with
      | zero => exact zero_le _
      | succ j =>
        rw [take_succ_cons, take_nil]
        exact succ_le_succ (zero_le _)

theorem conversation_opened : opened.Fits ∧ openedBus.Carries [openedSent] ∧
    ∃ rest, ((run openedBus [.next]).1.filterMap Taken.byNext ++ rest).Sublist [openedSent.received] := by
  refine ⟨opened_fits, openedBus_carries, ?_⟩
  obtain ⟨-, rest, hsub, -⟩ := conversation opened_fits 5 openedBus_carries [.next]
  exact ⟨rest, hsub⟩

end Bus

end HamixOS.Dbus

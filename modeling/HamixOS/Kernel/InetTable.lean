import HamixOS.Kernel.Inet

namespace HamixOS.Kernel.Inet

open Lib Function Option OrdMap List Net Socket

open Net

/-!
# The loopback table over a run

Any sequence of the calls.  `Consistent` is what the table should keep: loopback peers name
each other, `OPEN` is the number of sockets, a queued server half is in the table, held by
its queue alone and queued once, and a connected socket without a peer has its end of file.

Closing a listener takes the queued server halves out of the table and does nothing else
about them, so `Consistent` is lost there.  `Tidy` is the condition under which it is kept
(`consistent_of_tidy`): no listener is closed with connections pending, and no id is handed
out again while its socket is open.
-/

/-- How often `id` stands in the socket's `loopPending`. -/
def Socket.queues (sock : Socket) (id : Nat) : Nat := (sock.loopPending.map (·.1)).count id

/-- How often `id` stands in a `loopPending`, over all sockets. -/
def waits (t : OrdMap Socket) (id : Nat) : Nat := t.total fun sock => sock.queues id

/-- A connected socket that never went through the network stack. -/
def Socket.Loopback (sock : Socket) : Prop := sock.phase = .connected ∧ sock.handle = false

structure Consistent (s : Net) : Prop where
  peers : ∀ i sock p, s.table.get i = some sock → sock.loopPeer = some p →
    ∃ q, s.table.get p = some q ∧ q.loopPeer = some i
  count : s.openCount = s.table.entries.length
  pending : ∀ i, 0 < waits s.table i →
    waits s.table i = 1 ∧ ∃ sock, s.table.get i = some sock ∧ sock.refs = 1
  eof : ∀ i sock, s.table.get i = some sock → sock.Loopback →
    (∀ p, sock.loopPeer = some p → s.table.get p = none) → sock.loopEof = true

inductive Call where
  | create (proto : Proto)
  | connect (id : Nat) (remote : Endpoint)
  | bind (id : Nat) (ep : Endpoint)
  | listen (id : Nat) (stack : Option (UInt16 × Bool))
  | accept (id : Nat) (net : Except Int Endpoint)
  | send (id : Nat) (data : List UInt8)
  | recv (id max : Nat) (peek : Bool)
  | shutdown (id how : Nat)
  | retain (id : Nat)
  | release (id : Nat)

/-- One call; `retain` and `release` are made by a holder of the id. -/
def step (s : Net) : Call → Option Net
  | .create proto => some (s.create proto).1
  | .connect id remote => some (s.connectLoopback id remote).1
  | .bind id ep => some (s.bind id ep).1
  | .listen id stack => some (s.listen id stack).1
  | .accept id net => some (s.accept id net).1
  | .send id data => some (s.loopSend id data).1
  | .recv id max peek => some (s.loopRecv id max peek).1
  | .shutdown id how => some (s.shutdown id how).1
  | .retain id => if 0 < s.held id then some (s.retain id) else none
  | .release id => if 0 < s.held id then some (s.release id) else none

/-- Whether a call puts a new entry under the next id. -/
def Inserts (s : Net) : Call → Prop
  | .create _ => True
  | .connect id remote =>
    (∃ me, s.table.get id = some me ∧ me.phase ≠ .connected ∧ me.phase ≠ .listening) ∧
      ∃ e ∈ s.table.entries, Net.Listens remote e.2
  | .accept id (.ok _) => ∃ sock, s.table.get id = some sock ∧ sock.phase = .listening ∧ sock.loopPending = []
  | _ => False

/-- Whether a call closes a socket for good while it has connections pending. -/
def ClosesPending (s : Net) : Call → Prop
  | .release id => ∃ sock, s.table.get id = some sock ∧ sock.refs ≤ 1 ∧ sock.loopPending ≠ []
  | _ => False

structure Tidy (s : Net) (c : Call) : Prop where
  unused : Inserts s c → s.table.get s.nextId = none
  drained : ¬ ClosesPending s c

/-! ### The invariant -/

structure Inv (s : Net) : Prop extends Consistent s where
  joined : ∀ i sock, s.table.get i = some sock → sock.loopPeer ≠ none → sock.phase = .connected
  queue : ∀ i sock, s.table.get i = some sock → sock.loopPending ≠ [] → sock.phase = .listening
  held : ∀ i, 0 < s.held i → ∃ sock, s.table.get i = some sock ∧ sock.refs = s.held i
  unheld : ∀ i, 0 < waits s.table i → s.held i = 0

variable {s : Net}

theorem length_eq_total (t : OrdMap Socket) : t.entries.length = t.total fun _ => 1 := by
  unfold total Assoc.total
  induction t.entries with
  | nil => rfl
  | cons e l ih =>
    show l.length + 1 = 1 + (l.map fun _ => 1).sum
    rw [ih]
    exact add_comm _ _

variable {i : Nat} {t : OrdMap Socket}

theorem length_put_none (h : t.get i = none) (v : Socket) :
    (t.put i v).entries.length = t.entries.length + 1 := by
  rw [length_eq_total, length_eq_total, total_put_none _ h]

theorem length_put_some {w : Socket} (h : t.get i = some w) (v : Socket) :
    (t.put i v).entries.length = t.entries.length := by
  rw [length_eq_total, length_eq_total]
  have := total_put_some (fun _ => 1) h v
  omega

/-- Nobody holds or waits for an id that is not in the table. -/
theorem Inv.absent (h : Inv s) (hi : s.table.get i = none) : s.held i = 0 ∧ waits s.table i = 0 := by
  constructor
  · refine Nat.eq_zero_of_not_pos fun hpos => ?_
    obtain ⟨sock, hsock, -⟩ := h.held i hpos
    rw [hi] at hsock
    cases hsock
  · refine Nat.eq_zero_of_not_pos fun hpos => ?_
    obtain ⟨-, sock, hsock, -⟩ := h.pending i hpos
    rw [hi] at hsock
    cases hsock

/-- What the invariant says of an entry by itself. -/
structure Local (sock : Socket) : Prop where
  joined : sock.loopPeer ≠ none → sock.phase = .connected
  queue : sock.loopPending ≠ [] → sock.phase = .listening
  eof : sock.Loopback → sock.loopPeer = none → sock.loopEof = true

variable {sock : Socket}

theorem Inv.local (h : Inv s) (hi : s.table.get i = some sock) : Local sock where
  joined := h.joined i sock hi
  queue := h.queue i sock hi
  eof := fun hl hnone => h.eof i sock hi hl fun p hp => by
    rw [hnone] at hp
    cases hp

theorem Inv.of_local (hlocal : ∀ i sock, s.table.get i = some sock → Local sock)
    (hpeers : ∀ i sock p, s.table.get i = some sock → sock.loopPeer = some p →
      ∃ q, s.table.get p = some q ∧ q.loopPeer = some i)
    (hcount : s.openCount = s.table.entries.length)
    (hwaits : ∀ i, 0 < waits s.table i →
      s.held i = 0 ∧ waits s.table i = 1 ∧ ∃ sock, s.table.get i = some sock ∧ sock.refs = 1)
    (hheld : ∀ i, 0 < s.held i → ∃ sock, s.table.get i = some sock ∧ sock.refs = s.held i) : Inv s where
  peers := hpeers
  count := hcount
  pending := fun i hi => (hwaits i hi).2
  eof := fun i sock hi hl hgone => (hlocal i sock hi).eof hl (by
    cases hp : sock.loopPeer with
    | none => rfl
    | some p =>
      obtain ⟨q, hq, -⟩ := hpeers i sock p hi hp
      rw [hgone p hp] at hq
      cases hq)
  joined := fun i sock hi => (hlocal i sock hi).joined
  queue := fun i sock hi => (hlocal i sock hi).queue
  held := hheld
  unheld := fun i hi => (hwaits i hi).1

/-! ### Calls that keep the links -/

/-- An entry that is rewritten with its references, its links and its end of file as they were. -/
structure Kin (a b : Socket) : Prop where
  refs : b.refs = a.refs
  loopPeer : b.loopPeer = a.loopPeer
  loopPending : b.loopPending = a.loopPending
  loopEof : b.loopEof = a.loopEof
  handle : b.handle = a.handle
  connected : b.phase = .connected ↔ a.phase = .connected
  listening : a.phase = .listening → b.phase = .listening

variable {a b : Socket}

theorem Kin.local (h : Kin a b) (ha : Local a) : Local b where
  joined := fun hb => h.connected.mpr (ha.joined (h.loopPeer ▸ hb))
  queue := fun hb => h.listening (ha.queue (h.loopPending ▸ hb))
  eof := fun hb hnone => by
    rw [Socket.Loopback, h.connected, h.handle] at hb
    rw [h.loopEof]
    exact ha.eof hb (h.loopPeer ▸ hnone)

theorem waits_put (ha : t.get i = some a)
    (hp : b.loopPending = a.loopPending) (j : Nat) : waits (t.put i b) j = waits t j := by
  have hsum : waits (t.put i b) j + a.queues j = waits t j + b.queues j := total_put_some _ ha b
  have hsame : b.queues j = a.queues j := by
    unfold queues
    rw [hp]
  omega

/-- The entries of a table in which one was replaced by another that keeps its references. -/
theorem get_replaced (ha : t.get i = some a) (hrefs : b.refs = a.refs) {j : Nat}
    (hj : t.get j = some sock) : ∃ new, (t.put i b).get j = some new ∧ new.refs = sock.refs := by
  rw [get_put]
  split_ifs with hij
  · rw [← hij, ha] at hj
    cases hj
    exact ⟨b, rfl, hrefs⟩
  · exact ⟨sock, hj, rfl⟩

section

variable (h : Inv s)

include h

/-- An entry is replaced by one with the same peer, and the holders follow. -/
theorem Inv.replace (ha : s.table.get i = some a) (hpeer : b.loopPeer = a.loopPeer)
    (hlocal : Local b) {held : Nat → Nat}
    (hwaits : ∀ j, 0 < waits (s.table.put i b) j → waits (s.table.put i b) j = waits s.table j ∧ held j = 0)
    (hrefs : 0 < waits (s.table.put i b) i → b.refs = a.refs)
    (hheld : ∀ j, 0 < held j → ∃ sock, (s.table.put i b).get j = some sock ∧ sock.refs = held j) :
    Inv { s with table := s.table.put i b, held := held } := by
  have hput : ∀ {j old}, s.table.get j = some old →
      ∃ sock, (s.table.put i b).get j = some sock ∧ sock.loopPeer = old.loopPeer ∧ ((j = i ∧ sock = b ∧ old = a) ∨ sock = old) := by
    intro j old hj
    rw [get_put]
    split_ifs with hij
    · rw [← hij, ha] at hj
      cases hj
      exact ⟨b, rfl, hpeer, .inl ⟨hij.symm, rfl, rfl⟩⟩
    · exact ⟨old, hj, rfl, .inr rfl⟩
  refine .of_local (fun j sock hj => ?_) (fun j sock p hj hp => ?_) ?_ (fun j hj => ?_) hheld
  · rcases get_put_cases hj with ⟨rfl, rfl⟩ | ⟨-, hj⟩
    · exact hlocal
    · exact h.local hj
  · obtain ⟨old, hold, hp⟩ : ∃ old, s.table.get j = some old ∧ old.loopPeer = some p := by
      rcases get_put_cases hj with ⟨rfl, rfl⟩ | ⟨-, hj⟩
      · exact ⟨a, ha, hpeer ▸ hp⟩
      · exact ⟨sock, hj, hp⟩
    obtain ⟨q, hq, hqj⟩ := h.peers j old p hold hp
    obtain ⟨q', hq', hpeer', -⟩ := hput hq
    exact ⟨q', hq', hpeer'.trans hqj⟩
  · show s.openCount = (s.table.put i b).entries.length
    rw [length_put_some ha]
    exact h.count
  · obtain ⟨hsame, hzero⟩ := hwaits j hj
    obtain ⟨hone, old, hold, hr⟩ := h.pending j (hsame ▸ hj)
    obtain ⟨sock, hsock, -, ⟨rfl, rfl, rfl⟩ | rfl⟩ := hput hold
    · exact ⟨hzero, hsame.trans hone, _, hsock, (hrefs hj).trans hr⟩
    · exact ⟨hzero, hsame.trans hone, _, hsock, hr⟩

theorem Inv.rewrite (ha : s.table.get i = some a) (hk : Kin a b) :
    Inv { s with table := s.table.put i b } := by
  have hwaits := waits_put ha hk.loopPending
  refine h.replace ha hk.loopPeer (hk.local (h.local ha)) (fun j hj => ?_) (fun _ => hk.refs) fun j hj => ?_
  · exact ⟨hwaits j, h.unheld j (hwaits j ▸ hj)⟩
  · obtain ⟨old, hold, hrefs⟩ := h.held j hj
    obtain ⟨sock, hsock, hsame⟩ := get_replaced ha hk.refs hold
    exact ⟨sock, hsock, hsame.trans hrefs⟩

/-- The invariant does not read the counters that ids and ports come from. -/
theorem Inv.counters (nextId loopPort : Nat) :
    Inv { s with nextId := nextId, loopPort := loopPort } :=
  ⟨⟨h.peers, h.count, h.pending, h.eof⟩, h.joined, h.queue, h.held, h.unheld⟩

theorem Inv.takeId : Inv s.takeId := h.counters _ _

theorem Inv.localPort (me : Socket) : Inv (s.localPort me).1 := by
  unfold Net.localPort
  split
  · split_ifs
    · exact h.counters _ _
    · exact h
  · exact h.counters _ _

end

/-- Choosing a port touches the counter of ports and nothing else. -/
theorem localPort_with (s : Net) (me : Socket) (table : OrdMap Socket) (openCount : Nat) :
    { (s.localPort me).1 with table := table, openCount := openCount } =
      { s with table := table, openCount := openCount, loopPort := (s.localPort me).1.loopPort } := by
  unfold localPort
  split
  · split_ifs
    · rfl
    · rfl
  · rfl

@[simp] theorem localPort_table (s : Net) (me : Socket) : (s.localPort me).1.table = s.table := by
  unfold localPort
  split
  · split_ifs
    · rfl
    · rfl
  · rfl

/-! ### New entries -/

/-- An entry nobody refers to is put under an id that is not in the table. -/
theorem Inv.insert (h : Inv s) {a : Socket} (hi : s.table.get i = none) (hpeer : a.loopPeer = none)
    (hpend : a.loopPending = []) (hrefs : a.refs = 1) (hloop : ¬ a.Loopback) :
    Inv ({ s with table := s.table.put i a, openCount := s.openCount + 1 }.hold i) := by
  obtain ⟨hheld, hwait⟩ := h.absent hi
  have hkeep : ∀ {j sock}, s.table.get j = some sock → (s.table.put i a).get j = some sock := fun hj => by
    rw [get_put_of_ne (get_ne hj hi).symm, hj]
  have hwaits : ∀ j, waits (s.table.put i a) j = waits s.table j := by
    intro j
    have hsum : waits (s.table.put i a) j = waits s.table j + a.queues j := total_put_none _ hi a
    rw [hsum]
    unfold queues
    rw [hpend]
    rfl
  refine .of_local (fun j sock hj => ?_) (fun j sock p hj hp => ?_) ?_ (fun j hj => ?_) fun j hj => ?_
  · rcases get_put_cases hj with ⟨-, rfl⟩ | ⟨-, hj⟩
    · exact ⟨fun hne => absurd hpeer hne, fun hne => absurd hpend hne, fun hl => absurd hl hloop⟩
    · exact h.local hj
  · rcases get_put_cases hj with ⟨-, rfl⟩ | ⟨-, hj⟩
    · rw [hpeer] at hp
      cases hp
    · obtain ⟨q, hq, hqj⟩ := h.peers j sock p hj hp
      exact ⟨q, hkeep hq, hqj⟩
  · show s.openCount + 1 = (s.table.put i a).entries.length
    rw [length_put_none hi, h.count]
  · have hj' : 0 < waits (s.table.put i a) j := hj
    rw [hwaits] at hj'
    obtain ⟨hone, sock, hsock, hr⟩ := h.pending j hj'
    refine ⟨?_, (hwaits j).trans hone, sock, hkeep hsock, hr⟩
    show update s.held i (s.held i + 1) j = 0
    rw [update_of_ne]
    · exact h.unheld j hj'
    · rintro rfl
      omega
  · have hj' : 0 < update s.held i (s.held i + 1) j := hj
    show ∃ sock, (s.table.put i a).get j = some sock ∧ sock.refs = update s.held i (s.held i + 1) j
    by_cases hij : j = i
    · rw [hij, get_put_self, update_self, hheld]
      exact ⟨a, rfl, hrefs⟩
    · rw [update_of_ne hij] at hj' ⊢
      obtain ⟨sock, hsock, hr⟩ := h.held j hj'
      exact ⟨sock, hkeep hsock, hr⟩

theorem Inv.create (h : Inv s) (hnew : s.table.get s.nextId = none) (proto : Proto) : Inv (s.create proto).1 :=
  h.takeId.insert hnew rfl rfl rfl fun hl => nomatch hl.1

/-! ### Connecting -/

theorem join_get (id : Nat) {server listener : Nat} (me : Socket) {l : Socket} (remote local_ : Endpoint)
    (hl : t.get listener = some l) (hls : listener ≠ server) (j : Nat) :
    (join t id server listener me remote local_).get j =
      if id = j then some (clientHalf me server remote local_)
      else if listener = j then some { l with loopPending := l.loopPending ++ [(server, local_)] }
      else if server = j then some (serverHalf id remote local_)
      else t.get j := by
  unfold Net.join
  dsimp only
  rw [get_put, get_modify, get_put]
  by_cases hlj : listener = j
  · subst hlj
    rw [if_pos rfl, if_neg hls.symm, hl, if_pos rfl]
    rfl
  · rw [if_neg hlj, if_neg hlj]

theorem join_total (f : Socket → Nat) {id server listener : Nat} {me l : Socket}
    (remote local_ : Endpoint) (hme : t.get id = some me) (hs : t.get server = none)
    (hl : t.get listener = some l) (hne : listener ≠ id) :
    (join t id server listener me remote local_).total f + f me + f l =
      t.total f + f (serverHalf id remote local_) + f (clientHalf me server remote local_) +
        f { l with loopPending := l.loopPending ++ [(server, local_)] } := by
  have hls := get_ne hl hs
  have his := get_ne hme hs
  have hl1 : (t.put server (serverHalf id remote local_)).get listener = some l := by
    rw [get_put_of_ne hls.symm]
    exact hl
  have hme1 : ((t.put server (serverHalf id remote local_)).put listener
      { l with loopPending := l.loopPending ++ [(server, local_)] }).get id = some me := by
    rw [get_put_of_ne hne, get_put_of_ne his.symm]
    exact hme
  unfold Net.join
  dsimp only
  rw [modify_eq_put hl1]
  have h1 := total_put_none f hs (serverHalf id remote local_)
  have h2 := total_put_some f hl1 { l with loopPending := l.loopPending ++ [(server, local_)] }
  have h3 := total_put_some f hme1 (clientHalf me server remote local_)
  omega

theorem Inv.join (h : Inv s) {id listener : Nat} {me l : Socket} (remote local_ : Endpoint)
    (hme : s.table.get id = some me) (hconn : me.phase ≠ .connected) (hlisten : me.phase ≠ .listening)
    (hl : s.table.get listener = some l) (hphase : l.phase = .listening) {server : Nat}
    (hs : s.table.get server = none) :
    Inv { s with table := Net.join s.table id server listener me remote local_, openCount := s.openCount + 1 } := by
  obtain ⟨hheld, hwait⟩ := h.absent hs
  have hne : listener ≠ id := by
    rintro rfl
    rw [hl] at hme
    cases hme
    exact hlisten hphase
  have hls := get_ne hl hs
  have his := get_ne hme hs
  have hmepeer : me.loopPeer = none := by
    by_contra hcon
    exact hconn (h.joined id me hme hcon)
  have hmepend : me.loopPending = [] := by
    by_contra hcon
    exact hlisten (h.queue id me hme hcon)
  have hlpeer : l.loopPeer = none := by
    by_contra hcon
    have := h.joined listener l hl hcon
    rw [hphase] at this
    cases this
  -- nobody's peer is the client or the listener
  have hfree : ∀ {j sock p}, s.table.get j = some sock → sock.loopPeer = some p → p ≠ id ∧ p ≠ listener := by
    intro j sock p hj hp
    obtain ⟨q, hq, hqj⟩ := h.peers j sock p hj hp
    constructor
    · rintro rfl
      rw [hme] at hq
      cases hq
      rw [hmepeer] at hqj
      cases hqj
    · rintro rfl
      rw [hl] at hq
      cases hq
      rw [hlpeer] at hqj
      cases hqj
  have hget := join_get id me remote local_ hl hls
  have hwaits : ∀ j, waits (Net.join s.table id server listener me remote local_) j =
      waits s.table j + if server = j then 1 else 0 := by
    intro j
    have hsum := join_total (fun x => x.queues j) remote local_ hme hs hl hne
    have h1 : (serverHalf id remote local_).queues j = 0 := rfl
    have h2 : (clientHalf me server remote local_).queues j = me.queues j := rfl
    have h3 : queues { l with loopPending := l.loopPending ++ [(server, local_)] } j =
        l.queues j + if server = j then 1 else 0 := by
      unfold queues
      rw [map_append, count_append]
      congr 1
      rw [map_singleton, count_singleton]
      simp only [beq_iff_eq]
    unfold waits
    omega
  have hid : (Net.join s.table id server listener me remote local_).get id =
      some (clientHalf me server remote local_) := by
    rw [hget, if_pos rfl]
  have hserver : (Net.join s.table id server listener me remote local_).get server =
      some (serverHalf id remote local_) := by
    rw [hget, if_neg his, if_neg hls, if_pos rfl]
  have hother : ∀ {j}, j ≠ id → j ≠ listener → ∀ {sock}, s.table.get j = some sock →
      (Net.join s.table id server listener me remote local_).get j = some sock := by
    intro j h1 h2 sock hj
    rw [hget, if_neg h1.symm, if_neg h2.symm, if_neg (get_ne hj hs).symm, hj]
  -- what an entry can be after the connection
  have hcase : ∀ {j sock}, (Net.join s.table id server listener me remote local_).get j = some sock →
      (j = id ∧ sock = clientHalf me server remote local_) ∨
      (j = listener ∧ sock = { l with loopPending := l.loopPending ++ [(server, local_)] }) ∨
      (j = server ∧ sock = serverHalf id remote local_) ∨
      (j ≠ id ∧ j ≠ listener ∧ s.table.get j = some sock) := by
    intro j sock hj
    rw [hget] at hj
    split_ifs at hj with h1 h2 h3
    · exact .inl ⟨h1.symm, (some.inj hj).symm⟩
    · exact .inr (.inl ⟨h2.symm, (some.inj hj).symm⟩)
    · exact .inr (.inr (.inl ⟨h3.symm, (some.inj hj).symm⟩))
    · exact .inr (.inr (.inr ⟨Ne.symm h1, Ne.symm h2, hj⟩))
  -- an entry keeps its references, whatever happens to the rest of it
  have hrefs : ∀ {j old}, s.table.get j = some old →
      ∃ sock, (Net.join s.table id server listener me remote local_).get j = some sock ∧ sock.refs = old.refs := by
    intro j old hj
    by_cases h1 : j = id
    · rw [h1, hme] at hj
      cases hj
      rw [h1]
      exact ⟨_, hid, rfl⟩
    · by_cases h2 : j = listener
      · rw [h2, hl] at hj
        cases hj
        have hlist := hget listener
        rw [if_neg hne.symm, if_pos rfl] at hlist
        rw [h2]
        exact ⟨_, hlist, rfl⟩
      · exact ⟨old, hother h1 h2 hj, rfl⟩
  refine .of_local (fun j sock hj => ?_) (fun j sock p hj hp => ?_) ?_ (fun j hj => ?_) fun j hj => ?_
  · rcases hcase hj with ⟨rfl, rfl⟩ | ⟨rfl, rfl⟩ | ⟨rfl, rfl⟩ | ⟨-, -, hold⟩
    · exact ⟨fun _ => rfl, fun hne => absurd hmepend hne, fun _ hnone => nomatch hnone⟩
    · refine ⟨fun hne => absurd hlpeer hne, fun _ => hphase, fun hl _ => ?_⟩
      exact nomatch hphase.symm.trans hl.1
    · exact ⟨fun _ => rfl, fun hne => absurd rfl hne, fun _ hnone => nomatch hnone⟩
    · exact h.local hold
  · rcases hcase hj with ⟨rfl, rfl⟩ | ⟨rfl, rfl⟩ | ⟨rfl, rfl⟩ | ⟨h1, h2, hold⟩
    · cases hp
      exact ⟨_, hserver, rfl⟩
    · have hp' : l.loopPeer = some p := hp
      rw [hlpeer] at hp'
      cases hp'
    · cases hp
      exact ⟨_, hid, rfl⟩
    · obtain ⟨q, hq, hqj⟩ := h.peers j sock p hold hp
      obtain ⟨hp1, hp2⟩ := hfree hold hp
      exact ⟨q, hother hp1 hp2 hq, hqj⟩
  · show s.openCount + 1 = (Net.join s.table id server listener me remote local_).entries.length
    have hsum := join_total (fun _ => 1) remote local_ hme hs hl hne
    rw [length_eq_total, h.count, length_eq_total]
    omega
  · have hj' : 0 < waits (Net.join s.table id server listener me remote local_) j := hj
    show s.held j = 0 ∧ waits (Net.join s.table id server listener me remote local_) j = 1 ∧ _
    rw [hwaits] at hj' ⊢
    by_cases hsj : server = j
    · subst hsj
      rw [if_pos rfl, hwait]
      exact ⟨hheld, rfl, _, hserver, rfl⟩
    · rw [if_neg hsj, add_zero] at hj' ⊢
      obtain ⟨hone, old, hold, hr⟩ := h.pending j hj'
      obtain ⟨sock, hsock, hr'⟩ := hrefs hold
      exact ⟨h.unheld j hj', hone, sock, hsock, hr'.trans hr⟩
  · obtain ⟨old, hold, hr⟩ := h.held j hj
    obtain ⟨sock, hsock, hr'⟩ := hrefs hold
    exact ⟨sock, hsock, hr'.trans hr⟩

theorem Inv.connectFrom (h : Inv s) {id server : Nat} {me : Socket} (remote : Endpoint)
    (hme : s.table.get id = some me) (hconn : me.phase ≠ .connected) (hlisten : me.phase ≠ .listening)
    (hs : (∃ e ∈ s.table.entries, Net.Listens remote e.2) → s.table.get server = none) :
    Inv (s.connectFrom id server me remote).1 := by
  have hport : Inv (s.localPort me).1 := h.localPort me
  unfold Net.connectFrom
  dsimp only
  cases hf : findListener s.table remote with
  | none => exact hport
  | some e =>
    have hmem := mem_of_find?_eq_some hf
    have htest : decide (Net.Listens remote e.2) = true := 
      find?_some (p := fun e : Nat × Socket => decide (Net.Listens remote e.2)) hf
    have hl : Net.Listens remote e.2 := of_decide_eq_true htest
    have hget : s.table.get e.1 = some e.2 := (mem_iff s.table e).mp hmem
    have hjoin := h.join remote ⟨remote.ip, (s.localPort me).2⟩ hme hconn hlisten hget hl.2.1 (hs ⟨e, hmem, hl⟩)
    refine Eq.mpr (congrArg Inv (localPort_with s me _ _)) ?_
    exact hjoin.counters _ _

theorem Inv.connectLoopback (h : Inv s) (id : Nat) (remote : Endpoint)
    (hnew : Inserts s (.connect id remote) → s.table.get s.nextId = none) :
    Inv (s.connectLoopback id remote).1 := by
  unfold Net.connectLoopback
  cases hme : s.table.get id with
  | none => exact h.takeId
  | some me =>
    dsimp only
    have hgo : me.phase ≠ .connected → me.phase ≠ .listening →
        Inv (s.takeId.connectFrom id s.nextId me remote).1 := fun hconn hlisten =>
      h.takeId.connectFrom remote hme hconn hlisten fun he => hnew ⟨⟨me, hme, hconn, hlisten⟩, he⟩
    cases hph : me.phase with
    | connected => exact h.takeId
    | listening => exact h.takeId
    | fresh => exact hgo (by rw [hph]; nofun) (by rw [hph]; nofun)
    | connecting => exact hgo (by rw [hph]; nofun) (by rw [hph]; nofun)
    | failed => exact hgo (by rw [hph]; nofun) (by rw [hph]; nofun)

/-! ### The other calls -/

theorem Inv.bind (h : Inv s) (id : Nat) (ep : Endpoint) : Inv (s.bind id ep).1 := by
  unfold Net.bind
  cases hs : s.table.get id with
  | none => exact h
  | some sock =>
    dsimp only
    split_ifs
    · exact h
    · exact h
    · exact h.rewrite hs ⟨rfl, rfl, rfl, rfl, rfl, .rfl, fun hp => hp⟩

theorem Inv.listen (h : Inv s) (id : Nat) (stack : Option (UInt16 × Bool)) : Inv (s.listen id stack).1 := by
  unfold Net.listen
  cases hs : s.table.get id with
  | none => exact h
  | some sock =>
    dsimp only
    split_ifs
    · exact h
    · -- a fresh socket that starts to listen has no links yet
      have hbegin : sock.phase = .fresh → ∀ ep : Option Endpoint,
          Kin sock { sock with bound := ep, phase := .listening } := by
        intro hph ep
        refine ⟨rfl, rfl, rfl, rfl, rfl, ⟨nofun, fun hc => ?_⟩, fun _ => rfl⟩
        rw [hph] at hc
        cases hc
      cases hph : sock.phase with
      | listening => exact h
      | connecting => exact h
      | connected => exact h
      | failed => exact h
      | fresh =>
        cases stack with
        | none =>
          have hs' : (s.localPort sock).1.table.get id = some sock := by
            rw [localPort_table]
            exact hs
          exact (h.localPort sock).rewrite hs' (hbegin hph _)
        | some offer =>
          obtain ⟨offered, ok⟩ := offer
          cases ok with
          | false =>
            refine h.rewrite hs ⟨rfl, rfl, rfl, rfl, rfl, ⟨nofun, fun hc => ?_⟩, fun hc => ?_⟩
            · rw [hph] at hc
              cases hc
            · rw [hph] at hc
              cases hc
          | true => exact h.rewrite hs (hbegin hph _)

variable {id : Nat}

section

variable (h : Inv s)

include h

/-- The listener hands out its oldest pending connection. -/
theorem Inv.handOut {connection : Nat × Endpoint}
    {rest : List (Nat × Endpoint)} (hs : s.table.get id = some sock)
    (hpend : sock.loopPending = connection :: rest) :
    Inv ({ s with table := s.table.put id { sock with loopPending := rest } }.hold connection.1) := by
  have hwaits : ∀ j, waits (s.table.put id { sock with loopPending := rest }) j +
      (if connection.1 = j then 1 else 0) = waits s.table j := by
    intro j
    have hsum : waits (s.table.put id { sock with loopPending := rest }) j + sock.queues j =
        waits s.table j + queues { sock with loopPending := rest } j :=
      total_put_some _ hs _
    have hsock : sock.queues j = queues { sock with loopPending := rest } j +
        if connection.1 = j then 1 else 0 := by
      unfold queues
      rw [hpend, map_cons, count_cons]
      simp only [beq_iff_eq]
    omega
  have hfirst : 0 < waits s.table connection.1 := by
    have := hwaits connection.1
    rw [if_pos rfl] at this
    omega
  obtain ⟨hone, first, hget1, hrefs1⟩ := h.pending connection.1 hfirst
  have hput {j : Nat} {old : Socket} (hold : s.table.get j = some old) :=
    get_replaced (b := { sock with loopPending := rest }) hs rfl hold
  have hlocal := h.local hs
  have hqueue : sock.phase = .listening := hlocal.queue (by rw [hpend]; exact cons_ne_nil _ _)
  refine h.replace (b := { sock with loopPending := rest }) hs rfl ⟨hlocal.joined, fun _ => hqueue, hlocal.eof⟩
    (fun j hj => ?_) (fun _ => rfl) fun j hj => ?_
  · have hsum := hwaits j
    have hunheld := h.unheld j (by omega)
    show _ ∧ update s.held connection.1 (s.held connection.1 + 1) j = 0
    by_cases hjc : j = connection.1
    · -- it stood in the queue once, and that was here
      subst hjc
      rw [if_pos rfl] at hsum
      omega
    · rw [if_neg (Ne.symm hjc)] at hsum
      rw [update_of_ne hjc]
      exact ⟨hsum, hunheld⟩
  · have hj' : 0 < update s.held connection.1 (s.held connection.1 + 1) j := hj
    show ∃ new : Socket, _ ∧ new.refs = update s.held connection.1 (s.held connection.1 + 1) j
    by_cases hjc : j = connection.1
    · obtain ⟨new, hnew, hr⟩ := hput hget1
      rw [hjc, update_self, h.unheld _ hfirst]
      exact ⟨new, hnew, hr.trans hrefs1⟩
    · rw [update_of_ne hjc] at hj' ⊢
      obtain ⟨old, hold, hr⟩ := h.held j hj'
      obtain ⟨new, hnew, hr'⟩ := hput hold
      exact ⟨new, hnew, hr'.trans hr⟩

theorem Inv.accept (id : Nat) (net : Except Int Endpoint)
    (hnew : Inserts s (.accept id net) → s.table.get s.nextId = none) : Inv (s.accept id net).1 := by
  unfold Net.accept
  cases hs : s.table.get id with
  | none => exact h
  | some sock =>
    dsimp only
    split_ifs with hphase
    · exact h
    · rw [ne_eq, not_not] at hphase
      cases hpend : sock.loopPending with
      | cons connection rest => exact h.handOut hs hpend
      | nil =>
        cases net with
        | error e => exact h
        | ok peer =>
          have hfree := hnew ⟨sock, hs, hphase, hpend⟩
          exact h.takeId.insert hfree rfl rfl rfl fun hl => nomatch hl.2

theorem Inv.loopSend (id : Nat) (data : List UInt8) : Inv (s.loopSend id data).1 := by
  unfold Net.loopSend
  cases hs : s.table.get id with
  | none => exact h
  | some me =>
    dsimp only
    split_ifs
    · exact h
    · exact h
    · cases me.loopPeer with
      | none => exact h
      | some p =>
        dsimp only
        cases hp : s.table.get p with
        | none => exact h
        | some peer =>
          dsimp only
          split_ifs
          · exact h
          · exact h
          · exact h.rewrite hp ⟨rfl, rfl, rfl, rfl, rfl, .rfl, fun hl => hl⟩

theorem Inv.loopRecv (id max : Nat) (peek : Bool) : Inv (s.loopRecv id max peek).1 := by
  unfold Net.loopRecv
  cases hs : s.table.get id with
  | none => exact h
  | some me =>
    dsimp only
    split_ifs
    all_goals first
      | exact h
      | exact h.rewrite hs ⟨rfl, rfl, rfl, rfl, rfl, .rfl, fun hl => hl⟩

theorem Inv.shutdown (id how : Nat) : Inv (s.shutdown id how).1 := by
  unfold Net.shutdown
  cases hs : s.table.get id with
  | none => exact h
  | some sock =>
    dsimp only
    split_ifs
    · exact h
    · exact h
    · exact h.rewrite hs ⟨rfl, rfl, rfl, rfl, rfl, .rfl, fun hl => hl⟩

end

/-! ### References -/

/-- The references of a held socket and its holders change together. -/
theorem Inv.count_refs (h : Inv s) {id n : Nat} (hs : s.table.get id = some sock)
    (hheld : 0 < s.held id) :
    Inv { s with table := s.table.put id { sock with refs := n }, held := update s.held id n } := by
  have hwaits := waits_put (b := { sock with refs := n }) hs rfl
  have hunwaited : ∀ {j}, 0 < waits (s.table.put id { sock with refs := n }) j → j ≠ id := by
    rintro j hj rfl
    have := h.unheld j (hwaits j ▸ hj)
    omega
  have hlocal := h.local hs
  refine h.replace (b := { sock with refs := n }) hs rfl ⟨hlocal.joined, hlocal.queue, hlocal.eof⟩ (fun j hj => ?_) (fun hj => absurd rfl (hunwaited hj)) fun j hj => ?_
  · rw [update_of_ne (hunwaited hj)]
    exact ⟨hwaits j, h.unheld j (hwaits j ▸ hj)⟩
  · by_cases hij : j = id
    · rw [hij, update_self]
      exact ⟨_, get_put_self .., rfl⟩
    · rw [update_of_ne hij] at hj ⊢
      obtain ⟨old, hold, hr⟩ := h.held j hj
      exact ⟨old, by rw [get_put_of_ne (Ne.symm hij), hold], hr⟩

theorem Inv.retain (h : Inv s) (hheld : 0 < s.held id) : Inv (s.retain id) := by
  obtain ⟨sock, hs, hrefs⟩ := h.held id hheld
  unfold Net.retain Net.hold
  rw [modify_eq_put hs]
  have hcount := h.count_refs (n := s.held id + 1) hs hheld
  rw [← hrefs] at hcount ⊢
  exact hcount

/-- Closing a socket with nothing pending: it leaves the table and its peer hears of it. -/
theorem Inv.close (h : Inv s) (hs : s.table.get id = some sock)
    (hheld : s.held id = 1) (hpend : sock.loopPending = []) :
    Inv { s with table := closeOut (s.table.erase id) sock, openCount := s.openCount - 1
                 held := update s.held id 0 } := by
  have hclose : closeOut (s.table.erase id) sock =
      sock.loopPeer.elim (s.table.erase id) fun p => (s.table.erase id).modify p hangup := by
    unfold closeOut
    rw [hpend]
    cases sock.loopPeer <;> rfl
  have hget : ∀ j, (closeOut (s.table.erase id) sock).get j = if id = j then none
      else if sock.loopPeer = some j then (s.table.get j).map hangup else s.table.get j := by
    intro j
    rw [hclose]
    cases hp : sock.loopPeer with
    | none =>
      rw [if_neg (show ¬ none = some j from fun h => by cases h)]
      exact get_erase _ _ _
    | some p =>
      rw [elim_some, get_modify, get_erase]
      by_cases hij : id = j
      · rw [if_pos hij]
        split_ifs
        · rfl
        · rfl
      · rw [if_neg hij]
        by_cases hpj : p = j
        · rw [if_pos hpj, if_pos (congrArg some hpj), if_neg hij]
        · rw [if_neg hpj, if_neg (fun hc => hpj (some.inj hc)), if_neg hij]
  have htotal : ∀ f : Socket → Nat, (∀ a, f (hangup a) = f a) →
      (closeOut (s.table.erase id) sock).total f + f sock = s.table.total f := by
    intro f hf
    have herase := total_erase f hs
    rw [hclose]
    cases hp : sock.loopPeer with
    | none => exact herase
    | some p =>
      rw [elim_some, total_modify f _ p hf]
      exact herase
  have hwaits : ∀ j, waits (closeOut (s.table.erase id) sock) j = waits s.table j := by
    intro j
    have hsum := htotal (fun x => x.queues j) fun _ => rfl
    have hzero : sock.queues j = 0 := by
      unfold queues
      rw [hpend]
      rfl
    unfold waits
    omega
  have hunwaited : ∀ {j}, 0 < waits s.table j → j ≠ id := by
    rintro j hj rfl
    have := h.unheld j hj
    omega
  -- what an entry that is left can be
  have hcase : ∀ {j new}, (closeOut (s.table.erase id) sock).get j = some new →
      j ≠ id ∧ ∃ old, s.table.get j = some old ∧
        (sock.loopPeer = some j ∧ new = hangup old ∨ sock.loopPeer ≠ some j ∧ new = old) := by
    intro j new hj
    rw [hget] at hj
    split_ifs at hj with h1 h2
    · obtain ⟨old, hold, rfl⟩ := map_eq_some_iff.mp hj
      exact ⟨Ne.symm h1, old, hold, .inl ⟨h2, rfl⟩⟩
    · exact ⟨Ne.symm h1, new, hj, .inr ⟨h2, rfl⟩⟩
  have hkeep : ∀ {j old}, j ≠ id → s.table.get j = some old →
      ∃ new, (closeOut (s.table.erase id) sock).get j = some new ∧ new.refs = old.refs := by
    intro j old hne hj
    rw [hget, if_neg hne.symm, hj]
    split_ifs
    · exact ⟨_, rfl, rfl⟩
    · exact ⟨_, rfl, rfl⟩
  refine .of_local (fun j new hj => ?_) (fun j new p hj hp => ?_) ?_ (fun j hj => ?_) fun j hj => ?_
  · obtain ⟨-, old, hold, ⟨-, rfl⟩ | ⟨-, rfl⟩⟩ := hcase hj
    · exact ⟨fun hne => absurd rfl hne, (h.local hold).queue, fun _ _ => rfl⟩
    · exact h.local hold
  · obtain ⟨hne, old, hold, ⟨-, rfl⟩ | ⟨hnot, rfl⟩⟩ := hcase hj
    · cases hp
    · obtain ⟨q, hq, hqj⟩ := h.peers j _ p hold hp
      have hpid : p ≠ id := by
        rintro rfl
        rw [hs] at hq
        cases hq
        exact hnot hqj
      have hpp : sock.loopPeer ≠ some p := by
        intro hc
        obtain ⟨q', hq', hqid⟩ := h.peers id sock p hs hc
        rw [hq] at hq'
        cases hq'
        rw [hqj] at hqid
        exact hne (some.inj hqid)
      refine ⟨q, ?_, hqj⟩
      show (closeOut (s.table.erase id) sock).get p = some q
      rw [hget, if_neg hpid.symm, if_neg hpp]
      exact hq
  · show s.openCount - 1 = (closeOut (s.table.erase id) sock).entries.length
    have hsum := htotal (fun _ => 1) fun _ => rfl
    have hcount := h.count
    rw [length_eq_total] at hcount ⊢
    omega
  · have hj' : 0 < waits (closeOut (s.table.erase id) sock) j := hj
    rw [hwaits] at hj'
    obtain ⟨hone, old, hold, hr⟩ := h.pending j hj'
    obtain ⟨new, hnew, hr'⟩ := hkeep (hunwaited hj') hold
    refine ⟨?_, (hwaits j).trans hone, new, hnew, hr'.trans hr⟩
    show update s.held id 0 j = 0
    rw [update_of_ne (hunwaited hj')]
    exact h.unheld j hj'
  · have hj' : 0 < update s.held id 0 j := hj
    show ∃ new, (closeOut (s.table.erase id) sock).get j = some new ∧ new.refs = update s.held id 0 j
    have hne : j ≠ id := by
      rintro rfl
      rw [update_self] at hj'
      omega
    rw [update_of_ne hne] at hj' ⊢
    obtain ⟨old, hold, hr⟩ := h.held j hj'
    obtain ⟨new, hnew, hr'⟩ := hkeep hne hold
    exact ⟨new, hnew, hr'.trans hr⟩

theorem Inv.release (h : Inv s) (hheld : 0 < s.held id) (hdrained : ¬ ClosesPending s (.release id)) :
    Inv (s.release id) := by
  obtain ⟨sock, hs, hrefs⟩ := h.held id hheld
  unfold Net.release
  dsimp only
  rw [hs]
  dsimp only
  by_cases hlast : sock.refs - 1 = 0
  · have hone : s.held id = 1 := by omega
    have hpend : sock.loopPending = [] := by
      by_contra hne
      exact hdrained ⟨sock, hs, by omega, hne⟩
    rw [if_pos hlast, hone]
    exact h.close hs hone hpend
  · rw [if_neg hlast, ← hrefs]
    exact h.count_refs hs hheld

/-! ### Runs -/

theorem Inv.step (h : Inv s) {c : Call} {s' : Net} (htidy : Tidy s c) (hstep : step s c = some s') : Inv s' := by
  cases c with
  | create proto =>
    cases hstep
    exact h.create (htidy.unused trivial) proto
  | connect id remote =>
    cases hstep
    exact h.connectLoopback id remote htidy.unused
  | bind id ep =>
    cases hstep
    exact h.bind id ep
  | listen id stack =>
    cases hstep
    exact h.listen id stack
  | accept id net =>
    cases hstep
    exact h.accept id net htidy.unused
  | send id data =>
    cases hstep
    exact h.loopSend id data
  | recv id max peek =>
    cases hstep
    exact h.loopRecv id max peek
  | shutdown id how =>
    cases hstep
    exact h.shutdown id how
  | retain id =>
    obtain ⟨hheld, heq⟩ := ite_none_right_eq_some.mp hstep
    cases heq
    exact h.retain hheld
  | release id =>
    obtain ⟨hheld, heq⟩ := ite_none_right_eq_some.mp hstep
    cases heq
    exact h.release hheld htidy.drained

theorem Inv.boot : Inv boot := by
  refine .of_local (fun i sock hi => ?_) (fun i sock p hi => ?_) rfl (fun i hi => ?_) fun i hi => ?_
  · cases hi
  · cases hi
  · exact absurd hi (lt_irrefl 0)
  · exact absurd hi (lt_irrefl 0)

/-- The table is consistent in every run that closes no listener with connections pending
    and is never handed an id whose socket is open. -/
theorem consistent_of_tidy (h : Reach (· = Net.boot) step Tidy s) : Consistent s := by
  have hinv : Inv s := by
    refine h.invariant ?_ ?_
    · rintro s rfl
      exact Inv.boot
    · intro s c s' hi htidy hstep
      exact hi.step htidy hstep
  exact hinv.toConsistent

/-- A listener, a client that connects to it, and the accept. -/
def handshake : List Call :=
  [.create .tcp, .listen (idBase + 1) none, .create .tcp, .connect (idBase + 2) ⟨(127, 0, 0, 1), 40000⟩,
    .accept (idBase + 1) (.error eagain), .release (idBase + 2)]

theorem consistent_of_tidy_handshake :
    ∃ s, runLabels step Net.boot handshake = some s ∧ s.openCount = 2 ∧ Consistent s := by
  refine ⟨_, rfl, rfl, consistent_of_tidy (Reach.admitted (.start rfl) handshake ?_ rfl)⟩
  refine ⟨⟨fun _ => rfl, fun h => h⟩, fun _ h => ?_⟩
  cases h
  refine ⟨⟨fun h => h.elim, fun h => h⟩, fun _ h => ?_⟩
  cases h
  refine ⟨⟨fun _ => rfl, fun h => h⟩, fun _ h => ?_⟩
  cases h
  refine ⟨⟨fun _ => rfl, fun h => h⟩, fun _ h => ?_⟩
  cases h
  refine ⟨⟨fun h => h.elim, fun h => h⟩, fun _ h => ?_⟩
  cases h
  refine ⟨⟨fun h => h.elim, ?_⟩, fun _ _ => trivial⟩
  rintro ⟨sock, hget, -, hne⟩
  cases hget
  exact hne rfl

/-- A listener that is closed before it accepts. -/
def hangupEarly : List Call :=
  [.create .tcp, .listen (idBase + 1) none, .create .tcp, .connect (idBase + 2) ⟨(127, 0, 0, 1), 40000⟩,
    .release (idBase + 1)]

theorem closing_listener_strands_client : ¬ ∀ s, Reach (· = Net.boot) step (fun _ _ => True) s → Consistent s := by
  intro hall
  have hrun : Reach (· = Net.boot) step (fun _ _ => True) _ :=
    Reach.run (.start rfl) hangupEarly (fun _ _ _ => trivial) rfl
  -- the client is left with a peer that is gone
  obtain ⟨q, hq, -⟩ := (hall _ hrun).peers (idBase + 2) _ (idBase + 3) rfl rfl
  cases hq

end HamixOS.Kernel.Inet

import HamixOS.Kernel.Unix

namespace HamixOS.Kernel

open Lib List Function OrdMap

namespace Unix

open Table

/-!
# A connected pair of stream sockets

Bytes and descriptors are followed together: a cell is a byte and the descriptors that stand
in front of it, and `mark` turns the bytes of one send into cells, its descriptors on the
first.  `sent` and `got` record the cells accepted and the cells received without a peek.

`Intact` is the claim about one direction: what was received and what is queued make up what
was sent, cell by cell.  It holds in every run of sends and receives at both ends
(`intact`), whatever else is in the table.
-/

variable {F : Type}

/-- A byte and the descriptors that come with it. -/
abbrev Cell (F : Type) := UInt8 × List F

/-- The cells of one send. -/
def mark (bytes : List UInt8) (fds : List F) : List (Cell F) :=
  match bytes with
  | [] => []
  | byte :: rest => (byte, fds) :: rest.map fun b => (b, [])

/-- The cells of a queue. -/
def cells (rx : List (Packet F)) : List (Cell F) := rx.flatMap fun p => mark p.unread p.fds

structure Wire (F : Type) where
  table : Table F
  sent : Nat → List (Cell F)
  got : Nat → List (Cell F)

inductive Op (F : Type) where
  | send (data : List UInt8) (fds : List F) (name : Option String) (caller : Table.Caller)
  | recv (max : Nat) (peek : Bool)

namespace Wire

/-- What a send hands over: the bytes it says it took, with its descriptors. -/
def accepted (t : Table F) (id : Nat) (data : List UInt8) (fds : List F) (name : Option String)
    (caller : Table.Caller) : List (Cell F) :=
  match (t.send id data fds name caller).2.1 with
  | .ok n => mark (data.take n) fds
  | .error _ => []

/-- What a receive takes out of the stream. -/
def taken (t : Table F) (id max : Nat) (peek : Bool) : List (Cell F) :=
  match (t.recv id max peek).2 with
  | .ok r => if peek then [] else mark r.data r.fds
  | .error _ => []

def append (f : Nat → List (Cell F)) (id : Nat) (more : List (Cell F)) : Nat → List (Cell F) :=
  Function.update f id (f id ++ more)

/-- One call at the end `id`. -/
def apply (w : Wire F) (id : Nat) : Op F → Wire F
  | .send data fds name caller =>
    { w with table := (w.table.send id data fds name caller).1
             sent := append w.sent id (accepted w.table id data fds name caller) }
  | .recv max peek =>
    { w with table := (w.table.recv id max peek).1, got := append w.got id (taken w.table id max peek) }

/-- A call at one of the two ends. -/
def step (a b : Nat) (w : Wire F) (c : Nat × Op F) : Option (Wire F) :=
  if c.1 = a ∨ c.1 = b then some (w.apply c.1 c.2) else none

/-- The queue of a socket, in cells. -/
def queued (w : Wire F) (id : Nat) : List (Cell F) :=
  match w.table.socks.get id with
  | none => []
  | some sock => cells sock.rx

/-- What holds of the direction from `x` to `y`. -/
structure Intact (w : Wire F) (x y : Nat) : Prop where
  stream : w.got y ++ w.queued y = w.sent x
  bytes : (w.got y).map (·.1) <+: (w.sent x).map (·.1)
  /-- Descriptors are never received without the byte they came with. -/
  whole : ∀ max peek r, (w.table.recv y max peek).2 = .ok r → r.data = [] → r.fds = []
  /-- A send that takes no byte leaves its descriptors with the caller. -/
  kept : ∀ data fds name caller, (w.table.send x data fds name caller).2.1 = .ok 0 →
    (w.table.send x data fds name caller).2.2 = fds
  peek : ∀ max, (w.table.recv y max true).1 = w.table

/-- A stream socket connected to `other` that nothing was sent to yet. -/
structure JustConnected (sock : Sock F) (other : Nat) : Prop where
  kind : sock.kind = .stream
  link : sock.link = .connected other
  rx : sock.rx = []

structure Start (a b : Nat) (w : Wire F) : Prop where
  distinct : a ≠ b
  first : ∃ sock, w.table.socks.get a = some sock ∧ JustConnected sock b
  second : ∃ sock, w.table.socks.get b = some sock ∧ JustConnected sock a
  sent : ∀ x, w.sent x = []
  got : ∀ x, w.got x = []

end Wire

/-! ### Cells -/

@[simp] theorem cells_nil : cells ([] : List (Packet F)) = [] := rfl

@[simp] theorem cells_cons (p : Packet F) (rx : List (Packet F)) : cells (p :: rx) = mark p.unread p.fds ++ cells rx :=
  flatMap_cons

theorem cells_append (rx more : List (Packet F)) : cells (rx ++ more) = cells rx ++ cells more := flatMap_append

theorem mark_plain (bytes : List UInt8) : mark bytes ([] : List F) = bytes.map fun b => (b, []) := by
  cases bytes with
  | nil => rfl
  | cons byte rest => rfl

/-- The descriptors stay with the first part. -/
theorem mark_append {first : List UInt8} (h : first ≠ []) (rest : List UInt8) (fds : List F) :
    mark (first ++ rest) fds = mark first fds ++ mark rest [] := by
  cases first with
  | nil => exact absurd rfl h
  | cons byte more =>
    rw [mark_plain]
    show (byte, fds) :: (more ++ rest).map _ = ((byte, fds) :: more.map _) ++ rest.map _
    rw [map_append]
    rfl

/-- A packet as the queue of a stream socket holds it: something is left to read, and if the
    descriptors are still there then all of it. -/
structure Packet.Whole (p : Packet F) : Prop where
  left : p.offset < p.data.length
  start : p.fds ≠ [] → p.offset = 0

theorem Packet.Whole.unread_ne_nil {p : Packet F} (h : p.Whole) : p.unread ≠ [] := by
  unfold Packet.unread
  intro hnil
  rw [drop_eq_nil_iff] at hnil
  have := h.left
  omega

/-- A share of a packet and what stays behind make up the packet. -/
theorem share_append (p : Packet F) (max got : Nat) :
    Table.share p max got ++ p.data.drop (p.offset + (Table.share p max got).length) = p.unread := by
  unfold Table.share
  rw [← drop_drop, length_take]
  show p.unread.take (max - got) ++ p.unread.drop (min (max - got) p.unread.length) = p.unread
  rcases Nat.le_total (max - got) p.unread.length with hle | hle
  · rw [min_eq_left hle, take_append_drop]
  · rw [min_eq_right hle, take_of_length_le hle, drop_length, List.append_nil]

/-- A packet that is used up was shared out whole. -/
theorem share_all {p : Packet F} {max got : Nat}
    (h : ¬ p.offset + (Table.share p max got).length < p.data.length) : Table.share p max got = p.unread := by
  have happ := share_append p max got
  rwa [drop_eq_nil_of_le (by omega), List.append_nil] at happ

/-- The loop once it has bytes: it goes on over packets without descriptors. -/
theorem takeStream_more (max : Nat) {rx : List (Packet F)} (hw : ∀ p ∈ rx, p.Whole) {out : List UInt8}
    (hout : out ≠ []) (fds : List F) :
    ∃ more, (takeStream max rx out fds).2.1 = out ++ more ∧ (takeStream max rx out fds).2.2 = fds ∧
      mark more [] ++ cells (takeStream max rx out fds).1 = cells rx ∧
      ∀ p ∈ (takeStream max rx out fds).1, p.Whole := by
  induction rx generalizing out with
  | nil => exact ⟨[], (List.append_nil _).symm, rfl, rfl, hw⟩
  | cons p rest ih =>
    obtain ⟨hp, hrest⟩ := forall_mem_cons.mp hw
    have hstop : ∃ more, out = out ++ more ∧ fds = fds ∧ mark more [] ++ cells (p :: rest) = cells (p :: rest) ∧
        ∀ q ∈ p :: rest, q.Whole := ⟨[], (List.append_nil _).symm, rfl, rfl, hw⟩
    unfold takeStream
    dsimp only
    by_cases hfull : max ≤ out.length
    · rw [if_pos hfull]
      exact hstop
    · rw [if_neg hfull]
      by_cases hfds : p.fds = []
      · rw [if_neg (fun hc => hc.1 hfds), hfds, List.append_nil]
        by_cases hleft : p.offset + (Table.share p max out.length).length < p.data.length
        · rw [if_pos hleft]
          refine ⟨Table.share p max out.length, rfl, rfl, ?_, ?_⟩
          · rw [cells_cons, cells_cons, ← append_assoc, hfds]
            congr 1
            show mark _ [] ++ mark (p.data.drop _) [] = mark p.unread []
            rw [← share_append p max out.length, mark_plain, mark_plain, mark_plain, map_append]
          · exact forall_mem_cons.mpr ⟨⟨hleft, fun hc => absurd rfl hc⟩, hrest⟩
        · rw [if_neg hleft, if_neg (fun hc => hc rfl)]
          have hall := share_all hleft
          have hout' : out ++ Table.share p max out.length ≠ [] := append_ne_nil_of_left_ne_nil hout _
          obtain ⟨more, h1, h2, h3, h4⟩ := ih hrest hout'
          refine ⟨Table.share p max out.length ++ more, ?_, h2, ?_, h4⟩
          · rw [h1, append_assoc]
          · rw [cells_cons, ← h3, ← append_assoc, hfds, hall]
            congr 1
            rw [mark_plain, mark_plain, mark_plain, map_append]
      · rw [if_pos ⟨hfds, hout⟩]
        exact hstop

/-- A whole receive: the cells it returns and the cells it leaves are those that were there. -/
theorem takeStream_cells (max : Nat) {rx : List (Packet F)} (hw : ∀ p ∈ rx, p.Whole) :
    mark (takeStream max rx [] []).2.1 (takeStream max rx [] []).2.2 ++
        cells (takeStream max rx [] []).1 = cells rx ∧
      (∀ p ∈ (takeStream max rx [] []).1, p.Whole) ∧
      ((takeStream max rx [] []).2.1 = [] → (takeStream max rx [] []).2.2 = []) := by
  cases rx with
  | nil => exact ⟨rfl, hw, fun _ => rfl⟩
  | cons p rest =>
    obtain ⟨hp, hrest⟩ := forall_mem_cons.mp hw
    unfold takeStream
    dsimp only
    by_cases hfull : max ≤ ([] : List UInt8).length
    · rw [if_pos hfull]
      exact ⟨rfl, hw, fun _ => rfl⟩
    · rw [if_neg hfull, if_neg (fun hc => hc.2 rfl), nil_append, nil_append]
      have hpos : 0 < max := by
        rw [length_nil] at hfull
        omega
      have hne : Table.share p max ([] : List UInt8).length ≠ [] := by
        unfold Table.share
        intro hnil
        rw [take_eq_nil_iff] at hnil
        rcases hnil with hnil | hnil
        · rw [length_nil] at hnil
          omega
        · exact hp.unread_ne_nil hnil
      by_cases hleft : p.offset + (Table.share p max ([] : List UInt8).length).length < p.data.length
      · rw [if_pos hleft]
        refine ⟨?_, ?_, fun hnil => absurd hnil hne⟩
        · rw [cells_cons, cells_cons, ← append_assoc]
          congr 1
          show mark _ p.fds ++ mark (p.data.drop _) [] = mark p.unread p.fds
          rw [← mark_append hne, share_append]
        · exact forall_mem_cons.mpr ⟨⟨hleft, fun hc => absurd rfl hc⟩, hrest⟩
      · rw [if_neg hleft]
        have hall := share_all hleft
        by_cases hfds : p.fds = []
        · rw [if_neg (fun hc => hc hfds)]
          obtain ⟨more, h1, h2, h3, h4⟩ := takeStream_more max hrest hne p.fds
          refine ⟨?_, h4, fun hnil => ?_⟩
          · rw [h1, h2, cells_cons, ← h3, mark_append hne, hall, append_assoc]
          · rw [h2]
            exact hfds
        · rw [if_pos hfds]
          refine ⟨?_, hrest, fun hnil => absurd hnil hne⟩
          rw [cells_cons, hall]

/-! ### The invariant -/

namespace Wire

/-- The direction from `x` to `y`. -/
structure Flow (w : Wire F) (x y : Nat) (peer : Sock F) : Prop where
  there : w.table.socks.get y = some peer
  kind : peer.kind = .stream
  link : peer.link = .connected x
  whole : ∀ p ∈ peer.rx, p.Whole
  account : w.got y ++ cells peer.rx = w.sent x

structure Pair (w : Wire F) (x y : Nat) : Prop where
  distinct : x ≠ y
  out : ∃ peer, Flow w x y peer
  back : ∃ peer, Flow w y x peer

variable {w : Wire F} {x y : Nat}

theorem Pair.symm (h : Pair w x y) : Pair w y x := ⟨h.distinct.symm, h.back, h.out⟩

section

variable (f : Nat → List (Cell F))

include f

theorem append_nil (i : Nat) : append f i [] = f := by
  unfold append
  rw [List.append_nil, update_eq_self]

theorem append_self (i : Nat) (more : List (Cell F)) : append f i more i = f i ++ more :=
  update_self _ _ _

theorem append_of_ne {i j : Nat} (h : j ≠ i) (more : List (Cell F)) :
    append f i more j = f j := update_of_ne h _ _

end

/-- The two things a send at a connected stream socket can do. -/
theorem Pair.send_cases (h : Pair w x y) {peer : Sock F} (hflow : Flow w x y peer) (data : List UInt8) (fds : List F)
    (name : Option String) (caller : Table.Caller) :
    ((w.table.send x data fds name caller).1 = w.table ∧ accepted w.table x data fds name caller = [] ∧
        (w.table.send x data fds name caller).2.2 = fds) ∨
      ∃ n p, p.data = data.take n ∧ p.offset = 0 ∧ p.fds = fds ∧ p.data ≠ [] ∧
        (w.table.send x data fds name caller).2.1 = .ok n ∧
        (w.table.send x data fds name caller).1.socks = w.table.socks.put y (Table.enqueue peer p) ∧ 0 < n := by
  obtain ⟨me, hme⟩ := h.back
  have hdgram : me.kind ≠ .dgram := by
    rw [hme.kind]
    nofun
  unfold accepted Table.send
  rw [hme.there]
  dsimp only
  by_cases hshut : me.wrShut = true
  · rw [if_pos hshut]
    exact .inl ⟨rfl, rfl, rfl⟩
  · rw [if_neg hshut]
    have hdest : w.table.destination me name = if name.isSome then .error eisconn else .ok y := by
      unfold Table.destination
      rw [if_neg hdgram, hme.link]
    rw [hdest]
    cases name with
    | some n => exact .inl ⟨rfl, rfl, rfl⟩
    | none =>
      rw [if_neg (show ¬ (none : Option String).isSome = true from nofun)]
      dsimp only
      rw [hflow.there]
      dsimp only
      rw [if_neg (show ¬ peer.kind ≠ me.kind from fun hc => hc (hflow.kind.trans hme.kind.symm))]
      by_cases hrd : peer.rdShut = true
      · rw [if_pos hrd]
        exact .inl ⟨rfl, rfl, rfl⟩
      · rw [if_neg hrd]
        by_cases hempty : data = []
        · rw [if_pos ⟨hme.kind, hempty⟩, hempty]
          exact .inl ⟨rfl, rfl, rfl⟩
        · rw [if_neg (fun hc => hempty hc.2)]
          have htakes : Table.takes me.kind data peer =
              if Table.room peer = 0 ∧ data ≠ [] then .error eagain else .ok (min data.length (Table.room peer)) := by
            unfold Table.takes
            rw [if_pos hme.kind]
          rw [htakes]
          by_cases hroom : Table.room peer = 0
          · rw [if_pos ⟨hroom, hempty⟩]
            exact .inl ⟨rfl, rfl, rfl⟩
          · rw [if_neg (fun hc => hroom hc.1)]
            have hlen : 0 < data.length := length_pos_iff.mpr hempty
            refine .inr ⟨min data.length (Table.room peer), _, rfl, rfl, rfl, ?_, rfl, rfl, by omega⟩
            intro hnil
            rw [take_eq_nil_iff] at hnil
            rcases hnil with hnil | hnil
            · omega
            · exact hempty hnil

theorem Pair.send (h : Pair w x y) (data : List UInt8) (fds : List F) (name : Option String) (caller : Table.Caller) :
    Pair (w.apply x (.send data fds name caller)) x y := by
  obtain ⟨peer, hflow⟩ := h.out
  obtain ⟨me, hme⟩ := h.back
  rcases h.send_cases hflow data fds name caller with ⟨htable, hcells, -⟩ | ⟨n, p, hdata, hoffset, hfds, hne, hok, hsocks, -⟩
  · have hsame : w.apply x (.send data fds name caller) = w := by
      show ({ w with table := _, sent := append w.sent x _ } : Wire F) = w
      rw [htable, hcells, append_nil]
    rw [hsame]
    exact h
  · have hcells : accepted w.table x data fds name caller = mark p.unread p.fds := by
      unfold accepted Packet.unread
      rw [hok, hoffset, drop_zero, hdata, hfds]
    refine ⟨h.distinct, ⟨Table.enqueue peer p, ?_, hflow.kind, hflow.link, ?_, ?_⟩, ⟨me, ?_, hme.kind, hme.link, hme.whole, ?_⟩⟩
    · show (w.table.send x data fds name caller).1.socks.get y = _
      rw [hsocks, get_put_self]
    · intro q hq
      rcases mem_append.mp hq with hq | hq
      · exact hflow.whole q hq
      · rw [mem_singleton] at hq
        rw [hq]
        refine ⟨?_, fun _ => hoffset⟩
        rw [hoffset]
        exact length_pos_iff.mpr hne
    · show w.got y ++ cells (peer.rx ++ [p]) = append w.sent x (accepted w.table x data fds name caller) x
      rw [append_self, hcells, ← hflow.account, cells_append, cells_cons, cells_nil, List.append_nil, append_assoc]
    · show (w.table.send x data fds name caller).1.socks.get x = _
      rw [hsocks, get_put_of_ne h.distinct.symm]
      exact hme.there
    · show w.got x ++ cells me.rx = append w.sent x _ y
      rw [append_of_ne _ h.distinct.symm]
      exact hme.account

/-- The two things a receive at a connected stream socket can do. -/
theorem Flow.recv_cases (h : Flow w x y me) (max : Nat) (peek : Bool) :
    ((w.table.recv y max peek).1 = w.table ∧ taken w.table y max peek = [] ∧
        ∀ r, (w.table.recv y max peek).2 = .ok r → r.fds = []) ∨
      (peek = false ∧ ∃ r, (w.table.recv y max peek).2 = .ok r ∧
        r.data = (takeStream max me.rx [] []).2.1 ∧ r.fds = (takeStream max me.rx [] []).2.2 ∧
        ∃ left, left.kind = me.kind ∧ left.link = me.link ∧ left.rx = (takeStream max me.rx [] []).1 ∧
          (w.table.recv y max peek).1.socks = w.table.socks.put y left) := by
  have hstream : ¬ me.kind ≠ .stream := fun hc => hc h.kind
  unfold taken Table.recv
  rw [h.there]
  dsimp only
  cases w.table.atEof me with
  | error e => exact .inl ⟨rfl, rfl, nofun⟩
  | ok eof =>
    dsimp only
    cases hrx : me.rx with
    | nil =>
      cases eof with
      | true =>
        refine .inl ⟨rfl, ?_, ?_⟩
        · cases peek with
          | true => rfl
          | false => rfl
        · intro r hr
          cases hr
          rfl
      | false => exact .inl ⟨rfl, rfl, nofun⟩
    | cons p rest =>
      dsimp only
      rw [if_neg hstream]
      cases peek with
      | true =>
        refine .inl ⟨rfl, rfl, ?_⟩
        intro r hr
        cases hr
        rfl
      | false =>
        rw [if_neg (show ¬ false = true from nofun)]
        refine .inr ⟨rfl, _, rfl, rfl, rfl, ?_⟩
        exact ⟨{ me with rx := (takeStream max (p :: rest) [] []).1
                         rxBytes := me.rxBytes - (takeStream max (p :: rest) [] []).2.1.length },
          rfl, rfl, rfl, rfl⟩

theorem Pair.recv (h : Pair w x y) (max : Nat) (peek : Bool) : Pair (w.apply y (.recv max peek)) x y := by
  obtain ⟨me, hflow⟩ := h.out
  obtain ⟨peer, hpeer⟩ := h.back
  rcases hflow.recv_cases max peek with ⟨htable, hcells, -⟩ | ⟨rfl, r, hok, hdata, hfds, left, hkind, hlink, hrx, hsocks⟩
  · have hsame : w.apply y (.recv max peek) = w := by
      show ({ w with table := _, got := append w.got y _ } : Wire F) = w
      rw [htable, hcells, append_nil]
    rw [hsame]
    exact h
  · obtain ⟨hsplit, hwhole, -⟩ := takeStream_cells max hflow.whole
    have hcells : taken w.table y max false = mark r.data r.fds := by
      unfold taken
      rw [hok]
      rfl
    refine ⟨h.distinct, ⟨left, ?_, hkind.trans hflow.kind, hlink.trans hflow.link, ?_, ?_⟩,
      ⟨peer, ?_, hpeer.kind, hpeer.link, hpeer.whole, ?_⟩⟩
    · show (w.table.recv y max false).1.socks.get y = _
      rw [hsocks, get_put_self]
    · rw [hrx]
      exact hwhole
    · show append w.got y (taken w.table y max false) y ++ cells left.rx = w.sent x
      rw [append_self, hcells, hdata, hfds, hrx, append_assoc, hsplit]
      exact hflow.account
    · show (w.table.recv y max false).1.socks.get x = _
      rw [hsocks, get_put_of_ne h.distinct.symm]
      exact hpeer.there
    · show append w.got y _ x ++ cells peer.rx = w.sent y
      rw [append_of_ne _ h.distinct]
      exact hpeer.account

/-- Peeking changes nothing, at any socket. -/
theorem recv_peek (t : Table F) (id max : Nat) : (t.recv id max true).1 = t := by
  unfold Table.recv
  cases t.socks.get id with
  | none => rfl
  | some sock =>
    dsimp only
    cases t.atEof sock with
    | error e => rfl
    | ok eof =>
      dsimp only
      cases sock.rx with
      | nil => rfl
      | cons p rest =>
        dsimp only
        by_cases hkind : sock.kind = .stream
        · rw [if_neg (fun hc => hc hkind)]
          rfl
        · rw [if_pos hkind]
          rfl

theorem Pair.intact_of_pair (h : Pair w x y) : Intact w x y := by
  obtain ⟨peer, hflow⟩ := h.out
  have hqueued : w.queued y = cells peer.rx := by
    unfold queued
    rw [hflow.there]
  have hstream : w.got y ++ w.queued y = w.sent x := hqueued ▸ hflow.account
  refine ⟨hstream, ?_, ?_, ?_, recv_peek w.table y⟩
  · exact List.IsPrefix.map _ ⟨_, hstream⟩
  · intro max peek r hr hnil
    rcases hflow.recv_cases max peek with ⟨-, -, hnone⟩ | ⟨-, r', hok, hdata, hfds, -⟩
    · exact hnone r hr
    · rw [hr] at hok
      cases hok
      rw [hfds]
      exact (takeStream_cells max hflow.whole).2.2 (hdata ▸ hnil)
  · intro data fds name caller hzero
    rcases h.send_cases hflow data fds name caller with ⟨-, -, hkept⟩ | ⟨n, p, -, -, -, -, hok, -, hpos⟩
    · exact hkept
    · rw [hzero] at hok
      cases hok
      omega

/-! ### Runs -/

theorem Start.pair {a b : Nat} (h : Start a b w) : Pair w a b := by
  have hflow : ∀ {x y sock}, w.table.socks.get y = some sock → JustConnected sock x → Flow w x y sock := by
    intro x y sock hget hsock
    refine ⟨hget, hsock.kind, hsock.link, ?_, ?_⟩
    · rw [hsock.rx]
      nofun
    · rw [h.got, h.sent, hsock.rx]
      rfl
  obtain ⟨sa, ha, hsa⟩ := h.first
  obtain ⟨sb, hb, hsb⟩ := h.second
  exact ⟨h.distinct, ⟨sb, hflow hb hsb⟩, ⟨sa, hflow ha hsa⟩⟩

theorem Pair.apply (h : Pair w x y) (op : Op F) : Pair (w.apply x op) x y := by
  cases op with
  | send data fds name caller => exact h.send data fds name caller
  | recv max peek => exact (h.symm.recv max peek).symm

/-- Both directions are intact in every run of sends and receives at the two ends. -/
theorem intact {a b : Nat} (h : Reach (Start a b) (step a b) (fun _ _ => True) w) : Intact w a b ∧ Intact w b a := by
  have hpair : Pair w a b := by
    refine h.invariant (fun s hs => hs.pair) ?_
    rintro s ⟨id, op⟩ s' hi - hstep
    obtain ⟨hid, heq⟩ := Option.ite_none_right_eq_some.mp hstep
    cases heq
    rcases hid with rfl | rfl
    · exact hi.apply op
    · exact (hi.symm.apply op).symm
  exact ⟨hpair.intact_of_pair, hpair.symm.intact_of_pair⟩

/-- What `pair` makes of any table is one to start from. -/
theorem start_of_pair (t : Table F) (cred : Cred) :
    Start t.next (Table.after t.next) ⟨(t.pair .stream cred).1, fun _ => [], fun _ => []⟩ := by
  have hne : t.next ≠ Table.after t.next := by
    unfold Table.after idWrap
    omega
  have hsocks : (t.pair .stream cred).1.socks =
      (t.socks.put t.next (pairEnd .stream cred (Table.after t.next))).put (Table.after t.next)
        (pairEnd .stream cred t.next) := rfl
  refine ⟨hne, ⟨pairEnd .stream cred (Table.after t.next), ?_, ⟨rfl, rfl, rfl⟩⟩,
    ⟨pairEnd .stream cred t.next, ?_, ⟨rfl, rfl, rfl⟩⟩, fun _ => rfl, fun _ => rfl⟩
  · dsimp only
    rw [hsocks, get_put_of_ne hne.symm, get_put_self]
  · dsimp only
    rw [hsocks, get_put_self]

/-- Two stream sockets made by `pair` in an empty table. -/
def paired : Wire Nat := ⟨((Table.boot : Table Nat).pair .stream Cred.default).1, fun _ => [], fun _ => []⟩

theorem paired_start : Start 1 2 paired := start_of_pair boot Cred.default

/-- Two sends, the second with a descriptor, and a receive that stops in front of it. -/
def talk : List (Nat × Op Nat) :=
  [(1, .send [1, 2] [] none ⟨7, 0, 0⟩), (1, .send [3] [9] none ⟨7, 0, 0⟩), (2, .recv 8 true), (2, .recv 8 false)]

theorem intact_talk :
    ∃ w, runLabels (step 1 2) paired talk = some w ∧ w.got 2 = [(1, []), (2, [])] ∧
      Intact w 1 2 ∧ Intact w 2 1 :=
  ⟨_, rfl, rfl, intact (Reach.run (.start paired_start) talk (fun _ _ _ => trivial) rfl)⟩

end Wire

end Unix

end HamixOS.Kernel

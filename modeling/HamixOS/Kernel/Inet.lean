import HamixOS.Lib.Machine
import HamixOS.Lib.OrdMap
import HamixOS.Kernel.Errno

namespace HamixOS.Kernel

open Lib

namespace Inet

/-!
# The socket table of the TCP loopback

The table of `net/inet.rs`: sockets that reach each other without the network stack.  A
loopback connection makes the server half at once and queues its id in `loopPending` of the
listener, and `accept` hands it out.

What the network stack answers is part of the call: the port it offers and whether it could
listen (`listen`), the connection it hands over (`accept`).  `held` counts, for each id, the
open descriptions that hold it; only a holder calls `retain` and `release`.
-/

inductive Proto where
  | tcp
  | udp
  | icmp
  deriving DecidableEq

inductive Phase where
  | fresh
  | connecting
  | connected
  | listening
  | failed
  deriving DecidableEq

structure Endpoint where
  ip : UInt8 × UInt8 × UInt8 × UInt8
  port : UInt16
  deriving DecidableEq

def loopBuffer : Nat := 256 * 1024

def loopPortBase : Nat := 40000

def idBase : Nat := 0x40000000

/-- The ids come from an `AtomicU32`. -/
def idWrap : Nat := 2 ^ 32

structure Socket where
  refs : Nat
  proto : Proto
  phase : Phase
  /-- Whether the socket has a handle of the network stack. -/
  handle : Bool
  bound : Option Endpoint
  peer : Option Endpoint
  error : Int
  shutRead : Bool
  shutWrite : Bool
  loopPeer : Option Nat
  loopRx : List UInt8
  loopEof : Bool
  loopPending : List (Nat × Endpoint)

def freshSocket (proto : Proto) (phase : Phase) : Socket where
  refs := 1
  proto := proto
  phase := phase
  handle := false
  bound := none
  peer := none
  error := 0
  shutRead := false
  shutWrite := false
  loopPeer := none
  loopRx := []
  loopEof := false
  loopPending := []

structure Net where
  table : OrdMap Socket
  nextId : Nat
  openCount : Nat
  loopPort : Nat
  held : Nat → Nat

def Net.boot : Net := ⟨OrdMap.empty, idBase + 1, 0, 0, fun _ => 0⟩

namespace Net

/-- `NEXT_ID.fetch_add(1)`. -/
def takeId (s : Net) : Net := { s with nextId := (s.nextId + 1) % idWrap }

/-- One more open description holds `id`. -/
def hold (s : Net) (id : Nat) : Net := { s with held := Function.update s.held id (s.held id + 1) }

/-- `loop_port`: the port, and the counter after it. -/
def nextLoopPort (s : Net) : UInt16 := UInt16.ofNat (loopPortBase + s.loopPort % 20000)

def takeLoopPort (s : Net) : Net := { s with loopPort := (s.loopPort + 1) % idWrap }

def create (s : Net) (proto : Proto) : Net × Nat :=
  ({ s.takeId with table := s.table.put s.nextId (freshSocket proto .fresh), openCount := s.openCount + 1 }.hold
    s.nextId, s.nextId)

/-- Whether a socket listens on the loopback for `remote`. -/
def Listens (remote : Endpoint) (sock : Socket) : Prop :=
  sock.proto = .tcp ∧ sock.phase = .listening ∧
    ∃ b, sock.bound = some b ∧ b.port = remote.port ∧
      (b.ip = (0, 0, 0, 0) ∨ b.ip = remote.ip ∨ (b.ip.1 = 127 ∧ remote.ip.1 = 127))

instance (remote : Endpoint) (sock : Socket) : Decidable (Listens remote sock) :=
  match h : sock.bound with
  | none => .isFalse fun ⟨_, _, b, hb, _⟩ => by rw [h] at hb; cases hb
  | some b =>
    decidable_of_iff (sock.proto = .tcp ∧ sock.phase = .listening ∧ b.port = remote.port ∧
        (b.ip = (0, 0, 0, 0) ∨ b.ip = remote.ip ∨ (b.ip.1 = 127 ∧ remote.ip.1 = 127)))
      ⟨fun ⟨h1, h2, h3⟩ => ⟨h1, h2, b, h, h3⟩, fun ⟨h1, h2, b', hb, h3⟩ => by
        rw [h] at hb
        cases hb
        exact ⟨h1, h2, h3⟩⟩

/-- The server half of a connection. -/
def serverHalf (client : Nat) (remote local_ : Endpoint) : Socket :=
  { freshSocket .tcp .connected with bound := some remote, peer := some local_, loopPeer := some client }

/-- The client half. -/
def clientHalf (me : Socket) (server : Nat) (remote local_ : Endpoint) : Socket :=
  { me with phase := .connected, bound := some local_, peer := some remote, loopPeer := some server,
            loopEof := false, error := 0 }

/-- The entries a connection from `id` makes once the listener is found. -/
def join (t : OrdMap Socket) (id server listener : Nat) (me : Socket) (remote local_ : Endpoint) : OrdMap Socket :=
  let t := t.put server (serverHalf id remote local_)
  let t := t.modify listener fun l => { l with loopPending := l.loopPending ++ [(server, local_)] }
  t.put id (clientHalf me server remote local_)

/-- The port a socket connects from. -/
def localPort (s : Net) (me : Socket) : Net × UInt16 :=
  match me.bound.map (·.port) with
  | some p => if p = 0 then (s.takeLoopPort, s.nextLoopPort) else (s, p)
  | none => (s.takeLoopPort, s.nextLoopPort)

/-- The socket that `connectLoopback` finds listening. -/
def findListener (t : OrdMap Socket) (remote : Endpoint) : Option (Nat × Socket) :=
  t.entries.find? fun e => decide (Listens remote e.2)

/-- `connect_loopback` once the phase of the socket lets it through. -/
def connectFrom (s : Net) (id server : Nat) (me : Socket) (remote : Endpoint) : Net × Except Int Unit :=
  let port := s.localPort me
  let local_ : Endpoint := ⟨remote.ip, port.2⟩
  match findListener s.table remote with
  | none => (port.1, .error econnrefused)
  | some listener =>
    ({ port.1 with table := join s.table id server listener.1 me remote local_
                   openCount := s.openCount + 1 }, .ok ())

/-- `connect_loopback`. -/
def connectLoopback (s : Net) (id : Nat) (remote : Endpoint) : Net × Except Int Unit :=
  match s.table.get id with
  | none => (s.takeId, .error ebadf)
  | some me =>
    match me.phase with
    | .connected => (s.takeId, .error eisconn)
    | .listening => (s.takeId, .error einval)
    | _ => s.takeId.connectFrom id s.nextId me remote

/-- `bind` of a TCP socket; the other kinds go to the network stack. -/
def bind (s : Net) (id : Nat) (ep : Endpoint) : Net × Except Int Unit :=
  match s.table.get id with
  | none => (s, .error ebadf)
  | some sock =>
    if ep.port ≠ 0 ∧ s.table.entries.any (fun e => decide (e.1 ≠ id) && decide (e.2.proto = sock.proto) &&
        decide (e.2.bound.map (·.port) = some ep.port) &&
        (decide (sock.proto = .udp) || decide (e.2.phase = .listening))) then (s, .error eaddrinuse)
    else if sock.bound.isSome ∧ sock.handle then (s, .error einval)
    else ({ s with table := s.table.put id { sock with bound := some ep } }, .ok ())

/-- The address a listener is bound to once it has a port. -/
def listenOn (sock : Socket) (offered : UInt16) : Endpoint :=
  match sock.bound with
  | none => ⟨(0, 0, 0, 0), offered⟩
  | some b => ⟨b.ip, if b.port = 0 then offered else b.port⟩

/-- `listen`.  `stack` is `none` where there is no network stack, and else the port it
    offers and whether its sockets could listen. -/
def listen (s : Net) (id : Nat) (stack : Option (UInt16 × Bool)) : Net × Except Int Unit :=
  match s.table.get id with
  | none => (s, .error ebadf)
  | some sock =>
    if sock.proto ≠ .tcp then (s, .error eopnotsupp)
    else
      match sock.phase with
      | .listening => (s, .ok ())
      | .fresh =>
        match stack with
        | some (offered, true) =>
          ({ s with table := s.table.put id { sock with bound := some (listenOn sock offered), phase := .listening } },
            .ok ())
        | some (offered, false) =>
          ({ s with table := s.table.put id { sock with bound := some (listenOn sock offered) } }, .error eaddrinuse)
        | none =>
          let (s, port) := s.localPort sock
          ({ s with table := s.table.put id { sock with bound := some (listenOn sock port), phase := .listening } },
            .ok ())
      | _ => (s, .error einval)

/-- `accept`.  With no loopback connection pending the stack answers: `net` is the remote
    end of the connection it hands over, or its error. -/
def accept (s : Net) (id : Nat) (net : Except Int Endpoint) : Net × Except Int (Nat × Endpoint) :=
  match s.table.get id with
  | none => (s, .error ebadf)
  | some sock =>
    if sock.phase ≠ .listening then (s, .error einval)
    else
      match sock.loopPending with
      | connection :: rest =>
        ({ s with table := s.table.put id { sock with loopPending := rest } }.hold connection.1, .ok connection)
      | [] =>
        match net with
        | .error e => (s, .error e)
        | .ok peer =>
          ({ s.takeId with
              table := s.table.put s.nextId
                { freshSocket .tcp .connected with handle := true, bound := sock.bound, peer := some peer }
              openCount := s.openCount + 1 }.hold s.nextId, .ok (s.nextId, peer))

/-- `loop_send`; `none` where the socket is not a loopback one and the stack answers. -/
def loopSend (s : Net) (id : Nat) (data : List UInt8) : Net × Option (Except Int Nat) :=
  match s.table.get id with
  | none => (s, none)
  | some me =>
    if me.phase ≠ .connected ∨ (me.loopPeer = none ∧ me.loopEof = false) then (s, none)
    else if me.shutWrite then (s, some (.error epipe))
    else
      match me.loopPeer with
      | none => (s, some (.error epipe))
      | some peerId =>
        match s.table.get peerId with
        | none => (s, some (.error epipe))
        | some peer =>
          if peer.shutRead then (s, some (.ok data.length))
          else
            let room := loopBuffer - peer.loopRx.length
            if room = 0 then (s, some (.error eagain))
            else
              let n := min room data.length
              ({ s with table := s.table.put peerId { peer with loopRx := peer.loopRx ++ data.take n } },
                some (.ok n))

structure Datagram where
  data : List UInt8
  fullLen : Nat
  source : Option Endpoint

def Datagram.empty : Datagram := ⟨[], 0, none⟩

/-- `loop_recv`. -/
def loopRecv (s : Net) (id max : Nat) (peek : Bool) : Net × Option (Except Int Datagram) :=
  match s.table.get id with
  | none => (s, none)
  | some me =>
    if me.phase ≠ .connected ∨ (me.loopPeer = none ∧ me.loopEof = false) then (s, none)
    else if me.shutRead then (s, some (.ok .empty))
    else if me.loopRx.isEmpty then (s, some (if me.loopEof then .ok .empty else .error eagain))
    else
      let n := min (Nat.max max 1) me.loopRx.length
      let data := me.loopRx.take n
      let rest := if peek then me.loopRx else me.loopRx.drop n
      ({ s with table := s.table.put id { me with loopRx := rest } }, some (.ok ⟨data, data.length, me.peer⟩))

/-- The directions that `how` names are shut. -/
def shut (sock : Socket) (how : Nat) : Socket :=
  { sock with shutRead := sock.shutRead || decide (how = 0 ∨ how = 2),
              shutWrite := sock.shutWrite || decide (how = 1 ∨ how = 2) }

/-- `shutdown`. -/
def shutdown (s : Net) (id how : Nat) : Net × Except Int Unit :=
  match s.table.get id with
  | none => (s, .error ebadf)
  | some sock =>
    if how > 2 then (s, .error einval)
    else if sock.proto = .tcp ∧ sock.phase ≠ .connected then (s, .error enotconn)
    else ({ s with table := s.table.put id (shut sock how) }, .ok ())

def retain (s : Net) (id : Nat) : Net :=
  { s with table := s.table.modify id fun sock => { sock with refs := sock.refs + 1 } }.hold id

/-- What the peer of a closed socket is told. -/
def hangup (peer : Socket) : Socket := { peer with loopEof := true, loopPeer := none }

/-- What closing `sock`, already out of the table, does to the other entries. -/
def closeOut (t : OrdMap Socket) (sock : Socket) : OrdMap Socket :=
  let t := match sock.loopPeer with
    | none => t
    | some p => t.modify p hangup
  sock.loopPending.foldl (fun t e => t.erase e.1) t

def release (s : Net) (id : Nat) : Net :=
  let s := { s with held := Function.update s.held id (s.held id - 1) }
  match s.table.get id with
  | none => s
  | some sock =>
    if sock.refs - 1 = 0 then
      { s with table := closeOut (s.table.erase id) sock, openCount := s.openCount - 1 }
    else { s with table := s.table.put id { sock with refs := sock.refs - 1 } }

structure Ready where
  readable : Bool
  writable : Bool
  hangup : Bool
  error : Bool
  pending : Nat

/-- `readiness`; `none` where the stack answers. -/
def readiness (s : Net) (id : Nat) : Option Ready :=
  match s.table.get id with
  | none => some ⟨true, true, true, true, 0⟩
  | some sock =>
    if sock.phase = .connected ∧ (sock.loopPeer.isSome ∨ sock.loopEof = true) then
      let room := match sock.loopPeer.bind s.table.get with
        | none => true
        | some p => decide (p.loopRx.length < loopBuffer)
      some ⟨!sock.loopRx.isEmpty || sock.loopEof || sock.shutRead, room, sock.loopEof && sock.loopPeer.isNone,
        false, sock.loopRx.length⟩
    else if sock.phase = .listening ∧ sock.loopPending ≠ [] then some ⟨true, false, false, false, 0⟩
    else none

end Net

end Inet

end HamixOS.Kernel

import HamixOS.Lib.Machine
import HamixOS.Lib.OrdMap
import HamixOS.Kernel.Errno

namespace HamixOS.Kernel

open Lib

namespace Unix

/-!
# Unix sockets

The table of `net/unix.rs`.  `F` is what a descriptor passed in a message refers to; the
code moves it around and never looks inside.

`rxBytes` is an integer, so that a subtraction that goes below zero would be seen.  Two
parts of the state are accounts and decide nothing: `held` counts, for each id, the holders
of the socket (open descriptions and messages in flight), and `accepted` marks the ids that
`accept` handed out.
-/

inductive Kind where
  | stream
  | dgram
  | seqpacket
  deriving DecidableEq

def capacity : Nat := 256 * 1024

def maxDatagram : Nat := 212 * 1024

def maxBacklog : Nat := 128

/-- The ids come from an `AtomicU32`. -/
def idWrap : Nat := 2 ^ 32

structure Cred where
  pid : Nat
  uid : Nat
  gid : Nat
  deriving DecidableEq

def Cred.default : Cred := ⟨0, 0, 0⟩

variable {F : Type}

structure Packet (F : Type) where
  data : List UInt8
  offset : Nat
  fds : List F
  source : Option String
  sender : Cred

/-- What is not read yet. -/
def Packet.unread (p : Packet F) : List UInt8 := p.data.drop p.offset

inductive Link where
  | fresh
  | listening (backlog : List Nat) (max : Nat)
  | connected (peer : Nat)
  | closed
  deriving DecidableEq

structure Sock (F : Type) where
  kind : Kind
  refs : Nat
  link : Link
  name : Option String
  peerName : Option String
  rx : List (Packet F)
  rxBytes : Int
  rdShut : Bool
  wrShut : Bool
  cred : Cred
  peerCred : Cred
  dgramPeer : Option Nat
  passcred : Bool

def Sock.new (kind : Kind) (cred : Cred) : Sock F where
  kind := kind
  refs := 1
  link := .fresh
  name := none
  peerName := none
  rx := []
  rxBytes := 0
  rdShut := false
  wrShut := false
  cred := cred
  peerCred := .default
  dgramPeer := none
  passcred := false

structure Table (F : Type) where
  socks : OrdMap (Sock F)
  names : String → Option Nat
  next : Nat
  held : Nat → Nat
  accepted : Nat → Bool

def Table.boot : Table F := ⟨OrdMap.empty, fun _ => none, 1, fun _ => 0, fun _ => false⟩

namespace Table

variable (t : Table F)

/-- The id after `id`. -/
def after (id : Nat) : Nat := (id + 1) % idWrap

/-- A new socket under `id`. -/
def insert (id : Nat) (sock : Sock F) : Table F :=
  { t with socks := t.socks.put id sock, accepted := Function.update t.accepted id false }

/-- One more holder of `id`. -/
def hold (id : Nat) : Table F := { t with held := Function.update t.held id (t.held id + 1) }

def create (kind : Kind) (cred : Cred) : Table F × Nat :=
  (({ t with next := after t.next }.insert t.next (Sock.new kind cred)).hold t.next, t.next)

/-- One end of a pair. -/
def pairEnd (kind : Kind) (cred : Cred) (peer : Nat) : Sock F :=
  { (Sock.new kind cred : Sock F) with link := .connected peer, peerCred := cred }

def pair (kind : Kind) (cred : Cred) : Table F × Nat × Nat :=
  let a := t.next
  let b := after a
  let t := ({ t with next := after b }.insert a (pairEnd kind cred b)).insert b (pairEnd kind cred a)
  ((t.hold a).hold b, a, b)

def retain (id : Nat) : Table F :=
  { t with socks := t.socks.modify id fun s => { s with refs := s.refs + 1 } }.hold id

/-! ### Closing -/

/-- The peer of a socket that goes away. -/
def closePeer (id : Nat) (p : Sock F) : Sock F := if p.link = .connected id then { p with link := .closed } else p

def forgetPeer (id : Nat) (other : Sock F) : Sock F :=
  if other.dgramPeer = some id then { other with dgramPeer := none } else other

/-- What `detach` does to the other sockets. -/
def detachSocks (socks : OrdMap (Sock F)) (id : Nat) (sock : Sock F) : OrdMap (Sock F) :=
  let socks := socks.erase id
  let socks := match sock.link with
    | .connected peer => socks.modify peer (closePeer id)
    | _ => socks
  socks.map (forgetPeer id)

/-- The connections a listener has not handed out. -/
def Link.waiting : Link → List Nat
  | .listening backlog _ => backlog
  | _ => []

/-- The names without that of a socket, if it leads there. -/
def dropName (id : Nat) (name : Option String) : String → Option Nat :=
  match name with
  | some n => if t.names n = some id then Function.update t.names n none else t.names
  | none => t.names

/-- `detach`: the table, the descriptors to release and the orphans. -/
def detach (id : Nat) : Table F × List F × List Nat :=
  match t.socks.get id with
  | none => (t, [], [])
  | some sock =>
    ({ t with socks := detachSocks t.socks id sock, names := t.dropName id sock.name }, sock.rx.flatMap (·.fds),
      Link.waiting sock.link)

/-- The loop over the orphans: the last one first, and `fuel` of them at most. -/
def detachAll : Nat → Table F × List F × List Nat → Table F × List F × List Nat
  | 0, r => r
  | fuel + 1, (t, files, orphans) =>
    match orphans.getLast? with
    | none => (t, files, [])
    | some orphan =>
      let r := t.detach orphan
      detachAll fuel (r.1, files ++ r.2.1, orphans.dropLast ++ r.2.2)

/-- How many connections wait in backlogs. -/
def backlogs (socks : OrdMap (Sock F)) : Nat := socks.total fun s => (Link.waiting s.link).length

/-- `release`, with the descriptors it lets go. -/
def release (id : Nat) : Table F × List F :=
  let t := { t with held := Function.update t.held id (t.held id - 1) }
  match t.socks.get id with
  | none => (t, [])
  | some sock =>
    if 0 < sock.refs - 1 then ({ t with socks := t.socks.put id { sock with refs := sock.refs - 1 } }, [])
    else
      let r := detachAll (backlogs t.socks) (t.detach id)
      (r.1, r.2.1)

/-! ### Names -/

def bind (id : Nat) (name : String) : Table F × Except Int Unit :=
  if (t.names name).isSome then (t, .error eaddrinuse)
  else
    match t.socks.get id with
    | none => (t, .error einval)
    | some sock =>
      if sock.name.isSome then (t, .error einval)
      else
        ({ t with socks := t.socks.put id { sock with name := some name }
                  names := Function.update t.names name (some id) }, .ok ())

def forgetName (name : String) : Table F :=
  match t.names name with
  | none => t
  | some id =>
    { t with socks := t.socks.modify id fun s => { s with name := none }
             names := Function.update t.names name none }

/-! ### Connections -/

def listen (id backlog : Nat) : Table F × Except Int Unit :=
  match t.socks.get id with
  | none => (t, .error einval)
  | some sock =>
    if sock.kind = .dgram then (t, .error eopnotsupp)
    else
      let max := Nat.min (Nat.max backlog 1) maxBacklog
      match sock.link with
      | .fresh =>
        if sock.name.isNone then (t, .error einval)
        else ({ t with socks := t.socks.put id { sock with link := .listening [] max } }, .ok ())
      | .listening q _ => ({ t with socks := t.socks.put id { sock with link := .listening q max } }, .ok ())
      | _ => (t, .error einval)

/-- The server half of a connection. -/
def serverHalf (kind : Kind) (listenerCred : Cred) (client : Nat) (cred : Cred) (clientName : Option String) : Sock F :=
  { (Sock.new kind listenerCred : Sock F) with link := .connected client, peerCred := cred, peerName := clientName }

/-- The sockets once a connection from `id` to the listener `target` is made. -/
def join (socks : OrdMap (Sock F)) (id server target : Nat) (me listener : Sock F) (q : List Nat) (max : Nat)
    (name : String) (cred : Cred) : OrdMap (Sock F) :=
  let socks := socks.put server (serverHalf me.kind listener.cred id cred me.name)
  let socks := socks.put target { listener with link := .listening (q ++ [server]) max }
  socks.put id { me with link := .connected server, peerCred := listener.cred, peerName := some name }

def connect (id : Nat) (name : String) (cred : Cred) : Table F × Except Int Unit :=
  match t.names name with
  | none => (t, .error econnrefused)
  | some target =>
    match t.socks.get id with
    | none => (t, .error einval)
    | some me =>
      match t.socks.get target with
      | none => (t, .error econnrefused)
      | some listener =>
        if listener.kind ≠ me.kind then (t, .error eprototype)
        else if me.kind = .dgram then
          ({ t with socks := t.socks.put id { me with dgramPeer := some target, peerName := some name } }, .ok ())
        else
          match me.link with
          | .fresh =>
            match listener.link with
            | .listening q max =>
              if max ≤ q.length then (t, .error eagain)
              else
                ({ t with socks := join t.socks id t.next target me listener q max name cred
                          next := after t.next
                          accepted := Function.update t.accepted t.next false }, .ok ())
            | _ => (t, .error econnrefused)
          | .connected _ => (t, .error eisconn)
          | _ => (t, .error einval)

def accept (id : Nat) : Table F × Except Int Nat :=
  match t.socks.get id with
  | none => (t, .error einval)
  | some sock =>
    match sock.link with
    | .listening q max =>
      match q with
      | [] => (t, .error eagain)
      | first :: rest =>
        ({ t with socks := t.socks.put id { sock with link := .listening rest max }
                  accepted := Function.update t.accepted first true }.hold first, .ok first)
    | _ => (t, .error einval)

/-! ### Messages -/

/-- Who calls: the process, its leader and its user. -/
structure Caller where
  pid : Nat
  leader : Nat
  uid : Nat

/-- `sender_cred`. -/
def senderCred (caller : Caller) (gid : Nat) : Cred :=
  ⟨if caller.leader ≠ 0 then caller.leader else caller.pid, caller.uid, gid⟩

/-- Where a message goes. -/
def destination (sock : Sock F) (name : Option String) : Except Int Nat :=
  if sock.kind = .dgram then
    match name, sock.link with
    | some n, _ =>
      match t.names n with
      | none => .error econnrefused
      | some dest => .ok dest
    | none, .connected peer => .ok peer
    | none, .closed => .error econnrefused
    | none, _ =>
      match sock.dgramPeer with
      | none => .error edestaddrreq
      | some dest => .ok dest
  else
    match sock.link with
    | .connected peer => if name.isSome then .error eisconn else .ok peer
    | .closed => .error epipe
    | _ => .error enotconn

/-- The room left at a receiver. -/
def room (peer : Sock F) : Nat := ((capacity : Int) - peer.rxBytes).toNat

/-- How much of a message a receiver takes. -/
def takes (kind : Kind) (data : List UInt8) (peer : Sock F) : Except Int Nat :=
  if kind = .stream then
    if room peer = 0 ∧ data ≠ [] then .error eagain else .ok (min data.length (room peer))
  else if maxDatagram < data.length then .error emsgsize
  else if room peer < data.length ∧ 0 < peer.rxBytes then .error eagain
  else .ok data.length

/-- A packet queued at its receiver. -/
def enqueue (peer : Sock F) (p : Packet F) : Sock F :=
  { peer with rxBytes := peer.rxBytes + p.data.length, rx := peer.rx ++ [p] }

/-- `send`: the table, the result and the descriptors the caller is left with. -/
def send (id : Nat) (data : List UInt8) (fds : List F) (name : Option String) (caller : Caller) :
    Table F × Except Int Nat × List F :=
  match t.socks.get id with
  | none => (t, .error einval, fds)
  | some sock =>
    if sock.wrShut then (t, .error epipe, fds)
    else
      match t.destination sock name with
      | .error e => (t, .error e, fds)
      | .ok dest =>
        match t.socks.get dest with
        | none => (t, .error (if sock.kind = .dgram then econnrefused else epipe), fds)
        | some peer =>
          if peer.kind ≠ sock.kind then (t, .error eprototype, fds)
          else if peer.rdShut then (t, .error epipe, fds)
          else if sock.kind = .stream ∧ data = [] then (t, .ok 0, fds)
          else
            match takes sock.kind data peer with
            | .error e => (t, .error e, fds)
            | .ok take =>
              let p : Packet F := ⟨data.take take, 0, fds, if sock.kind = .dgram then sock.name else none,
                senderCred caller sock.cred.gid⟩
              ({ t with socks := t.socks.put dest (enqueue peer p) }, .ok take, [])

structure Received (F : Type) where
  data : List UInt8
  fds : List F
  source : Option String
  fullLen : Nat
  cred : Option Cred

def Received.empty : Received F := ⟨[], [], none, 0, none⟩

/-- Whether nothing more can arrive, or the error of a socket that is not connected. -/
def atEof (sock : Sock F) : Except Int Bool :=
  match sock.link with
  | .closed => .ok true
  | .connected peer =>
    .ok (sock.rdShut || match t.socks.get peer with
      | none => true
      | some p => p.wrShut)
  | .fresh => if sock.rdShut then .ok true else if sock.kind ≠ .dgram then .error enotconn else .ok false
  | .listening _ _ => if sock.rdShut then .ok true else .error enotconn

/-- What one packet gives when `got` bytes of `max` are there already. -/
def share (p : Packet F) (max got : Nat) : List UInt8 := p.unread.take (max - got)

/-- The loop of a stream receive: the queue left, the bytes and the descriptors.  A packet
    that is not used up has filled the buffer, and so the loop ends there. -/
def takeStream (max : Nat) : List (Packet F) → List UInt8 → List F → List (Packet F) × List UInt8 × List F
  | [], out, fds => ([], out, fds)
  | p :: rest, out, fds =>
    if max ≤ out.length then (p :: rest, out, fds)
    else if p.fds ≠ [] ∧ out ≠ [] then (p :: rest, out, fds)
    else
      let got := share p max out.length
      let left : Packet F := { p with fds := [], offset := p.offset + got.length }
      if left.offset < p.data.length then (left :: rest, out ++ got, fds ++ p.fds)
      else if p.fds ≠ [] then (rest, out ++ got, fds ++ p.fds)
      else takeStream max rest (out ++ got) (fds ++ p.fds)

/-- The same walk for a peek: nothing is taken. -/
def peekStream (max : Nat) : List (Packet F) → List UInt8 → List UInt8
  | [], out => out
  | p :: rest, out =>
    if max ≤ out.length then out
    else if p.fds ≠ [] ∧ out ≠ [] then out
    else if p.fds ≠ [] then out ++ share p max out.length
    else peekStream max rest (out ++ share p max out.length)

/-- The credentials a receive reports. -/
def reported (sock : Sock F) : Option Cred := if sock.passcred then sock.rx.head?.map (·.sender) else none

def recv (id max : Nat) (peek : Bool) : Table F × Except Int (Received F) :=
  match t.socks.get id with
  | none => (t, .error einval)
  | some sock =>
    match t.atEof sock with
    | .error e => (t, .error e)
    | .ok eof =>
      match sock.rx with
      | [] => (t, if eof then .ok .empty else .error eagain)
      | p :: rest =>
        if sock.kind ≠ .stream then
          let out : Received F := ⟨p.data.take max, if peek then [] else p.fds, p.source, p.data.length, reported sock⟩
          if peek then (t, .ok out)
          else
            ({ t with socks := t.socks.put id { sock with rx := rest, rxBytes := sock.rxBytes - p.data.length } },
              .ok out)
        else if peek then
          let data := peekStream max sock.rx []
          (t, .ok ⟨data, [], none, data.length, reported sock⟩)
        else
          let r := takeStream max sock.rx [] []
          ({ t with socks := t.socks.put id { sock with rx := r.1, rxBytes := sock.rxBytes - r.2.1.length } },
            .ok ⟨r.2.1, r.2.2, none, r.2.1.length, reported sock⟩)

/-- Whether a socket is or was connected. -/
def Link.linked : Link → Bool
  | .connected _ => true
  | .closed => true
  | _ => false

def shutdown (id how : Nat) : Table F × Except Int Unit :=
  match t.socks.get id with
  | none => (t, .error einval)
  | some sock =>
    if Link.linked sock.link = false ∧ sock.kind ≠ .dgram then (t, .error enotconn)
    else
      match how with
      | 0 => ({ t with socks := t.socks.put id { sock with rdShut := true } }, .ok ())
      | 1 => ({ t with socks := t.socks.put id { sock with wrShut := true } }, .ok ())
      | 2 => ({ t with socks := t.socks.put id { sock with rdShut := true, wrShut := true } }, .ok ())
      | _ => (t, .error einval)

end Table

end Unix

end HamixOS.Kernel

import HamixOS.Wlan.Frame
import Mathlib.Data.List.Lex

namespace HamixOS.Wlan

open Lib

/-!
# The Wi-Fi station (`crates/wlan/src/lib.rs`)

The station scans, joins a network, agrees on keys in the four-way handshake, and passes data on.  The
ciphers are a parameter; the calls of the radio and a history that no function reads are kept in lists,
newest first.
-/

/-- What the station uses of `crypto`. -/
structure Crypto where
  pskFromPassphrase : Text → Bytes → Bytes
  /-- Key, label, data and the number of bytes wanted. -/
  prf80211 : Bytes → Bytes → Bytes → Nat → Bytes
  hmacSha1 : Bytes → Bytes → Bytes
  aesUnwrap : Bytes → Bytes → Option Bytes
  /-- Key, nonce, associated data and payload. -/
  ccmEncrypt : Bytes → Bytes → Bytes → Bytes → Bytes
  ccmDecrypt : Bytes → Bytes → Bytes → Bytes → Option Bytes
  /-- A digest is an array of twenty bytes. -/
  length_hmacSha1 : ∀ key data, (hmacSha1 key data).length = 20

structure Bss where
  ssid : Text
  bssid : Bytes
  channel : UInt8
  rssi : Int
  security : Security
  rsnIe : Bytes
  lastSeen : Nat
  deriving DecidableEq

inductive State where
  | disabled
  | idle
  | scanning
  | authenticating
  | associating
  | handshake
  | connected
  deriving DecidableEq

structure Keys where
  kck : Bytes
  kek : Bytes
  tk : Bytes
  gtk : Option (Fin 4 × Bytes)
  txPn : Nat
  rxPn : Fin 4 → Nat
  rxPnUnicast : Nat

structure Target where
  ssid : Text
  pmk : Option Bytes
  deriving DecidableEq

/-- A call of the radio. -/
inductive RadioCall where
  | setChannel (channel : UInt8)
  | setBssid (bssid : Option Bytes)
  | transmit (frame : Bytes) (management : Bool)
  deriving DecidableEq

/-- What keys are computed from. -/
structure Install where
  pmk : Bytes
  own : Bytes
  bssid : Bytes
  anonce : Bytes
  snonce : Bytes
  deriving DecidableEq

/-- A key under which frames are accepted: that of one installation, or a group key. -/
inductive KeyId where
  | pairwise (install : Nat)
  | group (gtk : Bytes)
  deriving DecidableEq

/-- One event of the history. -/
inductive Mark where
  /-- `connect` set the target. -/
  | chosen (ssid passphrase : Text)
  /-- Keys were installed. -/
  | installed (i : Install)
  /-- A message of the handshake made the station connected. -/
  | confirmed (message : Bytes)
  /-- `ccm_encrypt` was called under the keys of an installation. -/
  | sealed (install : Nat) (pn : Nat)
  /-- `decrypt` accepted a frame. -/
  | opened (key : KeyId) (pn : Nat)
  /-- A frame was queued, with the keys and the network at that time. -/
  | queued (mpdu : Bytes) (keys : Option Keys) (security : Option Security) (eth : Bytes)

structure Station where
  state : State
  bss : List Bss
  target : Option Target
  current : Option Bss
  scanChannels : List UInt8
  scanIndex : Nat
  dwellUntil : Nat
  deadline : Nat
  attempts : Nat
  sequence : UInt16
  anonce : Bytes
  snonce : Bytes
  replay : Nat
  ptk : Option Keys
  lastBeacon : Nat
  received : List Bytes
  rng : UInt64
  message : String
  rssi : Int
  connectAfterScan : Bool
  radio : List RadioCall
  marks : List Mark

def scanDwellMs : Nat := 110
def authTimeoutMs : Nat := 400
def handshakeTimeoutMs : Nat := 4000
def beaconLossMs : Nat := 10000

/-- The number of installations in a history. -/
def installs (marks : List Mark) : Nat :=
  marks.countP fun
    | .installed _ => true
    | _ => false

/-- `random`: one step of the generator. -/
def xorshift (rng : UInt64) : UInt64 :=
  let a := rng ^^^ (rng <<< 13)
  let b := a ^^^ (a >>> 7)
  b ^^^ (b <<< 17)

/-- Four random words, and the state of the generator behind them. -/
def drawNonce (rng : UInt64) : Bytes × UInt64 :=
  let a := xorshift rng
  let b := xorshift a
  let c := xorshift b
  let d := xorshift c
  (toLE 8 a.toNat ++ toLE 8 b.toNat ++ toLE 8 c.toNat ++ toLE 8 d.toNat, d)

/-- `max_by_key` of the signal: the last of the strongest. -/
def strongest (list : List Bss) : Option Bss :=
  list.foldl (fun best b =>
    match best with
    | none => some b
    | some m => if m.rssi ≤ b.rssi then some b else some m) none

/-! ### Keys and their messages -/

/-- The packet number in front of a protected body. -/
def packetNumber (body : Bytes) : Nat := ofLE (slice body 0 2 ++ slice body 4 4)

def keyIdOf (body : Bytes) : Fin 4 := Fin.ofNat 4 ((body.getD 3 0).toNat / 64)

def Keys.group? (keys : Keys) (id : Fin 4) : Option Bytes :=
  match keys.gtk with
  | some (i, k) => if i = id then some k else none
  | none => none

def isGroup (h : Header) : Bool := h.addr1.getD 0 0 &&& 1 ≠ 0

/-- The key for a frame, how it is known to the history, and the last packet number under it. -/
def selectKey (keys : Keys) (marks : List Mark) (h : Header) : Option (Bytes × KeyId × Nat) :=
  if isGroup h then (keys.group? (keyIdOf h.body)).map fun k => (k, .group k, keys.rxPn (keyIdOf h.body))
  else some (keys.tk, .pairwise (installs marks), keys.rxPnUnicast)

/-- The counter for the next frame of the same kind. -/
def Keys.accepted (keys : Keys) (h : Header) (pn : Nat) : Keys :=
  if isGroup h then { keys with rxPn := Function.update keys.rxPn (keyIdOf h.body) pn }
  else { keys with rxPnUnicast := pn }

/-- `eapol_key_frame`. -/
def eapolKeyFrame (keyInfo replay : Nat) (nonce keyData : Bytes) : Bytes :=
  [0x02, 0x03] ++ (toLE 2 (95 + keyData.length)).reverse ++ [0x02] ++ (toLE 2 keyInfo).reverse ++ toLE 2 0 ++
    (toLE 8 replay).reverse ++ nonce ++ zeros 16 ++ zeros 8 ++ zeros 8 ++ zeros 16 ++
    (toLE 2 keyData.length).reverse ++ keyData

def llcEapol : Bytes := [0xAA, 0xAA, 0x03, 0x00, 0x00, 0x00, 0x88, 0x8E]

/-- What `on_eapol` reads of a message. -/
structure KeyMessage where
  keyInfo : Nat
  replay : Nat
  nonce : Bytes
  mic : Bytes
  keyData : Bytes
  /-- The message with its MIC cleared. -/
  check : Bytes
  deriving DecidableEq

def KeyMessage.pairwise (m : KeyMessage) : Bool := m.keyInfo.testBit 3

def KeyMessage.hasMic (m : KeyMessage) : Bool := m.keyInfo.testBit 8

def KeyMessage.ack (m : KeyMessage) : Bool := m.keyInfo.testBit 7

def KeyMessage.encrypted (m : KeyMessage) : Bool := m.keyInfo.testBit 12

def keyMessage (data : Bytes) : Option KeyMessage :=
  if data.length < 99 ∨ data.getD 1 0 ≠ 3 ∨ data.getD 4 0 ≠ 2 then none
  else
    let dataLen := ofLE (slice data 97 2).reverse
    if data.length < 99 + dataLen then none
    else some {
      keyInfo := ofLE (slice data 5 2).reverse
      replay := ofLE (slice data 9 8).reverse
      nonce := slice data 17 32
      mic := slice data 81 16
      keyData := slice data 99 dataLen
      check := splice (data.take (99 + dataLen)) 81 (zeros 16) }

/-- The loop of `find_gtk`; every element takes two bytes at least. -/
def findGtkFuel : Nat → Bytes → Option (Fin 4 × Bytes)
  | fuel + 1, id :: len :: rest =>
    if id = 0 ∧ len = 0 then none
    else if rest.length < len.toNat then none
    else
      let value := rest.take len.toNat
      if id = ieVendor ∧ 22 ≤ len.toNat ∧ value.take 4 = [0x00, 0x0F, 0xAC, 0x01] then
        some (Fin.ofNat 4 (value.getD 4 0).toNat, slice value 6 16)
      else findGtkFuel fuel (rest.drop len.toNat)
  | _, _ => none

def findGtk (keyData : Bytes) : Option (Fin 4 × Bytes) := findGtkFuel keyData.length keyData

/-- The pair of two arrays in order. -/
def ordered (a b : Bytes) : Bytes := if a < b then a ++ b else b ++ a

/-- The bytes of the label `Pairwise key expansion`. -/
def expansionLabel : Bytes := Utf8.encode "Pairwise key expansion".toList

/-- The keys of an installation. -/
def pairwiseKeys (crypto : Crypto) (i : Install) : Keys :=
  let ptk := crypto.prf80211 i.pmk expansionLabel (ordered i.own i.bssid ++ ordered i.snonce i.anonce) 48
  { kck := slice ptk 0 16
    kek := slice ptk 16 16
    tk := slice ptk 32 16
    gtk := none
    txPn := 0
    rxPn := fun _ => 0
    rxPnUnicast := 0 }

/-- The key data, decrypted if it has to be. -/
def keyDataOf (crypto : Crypto) (keys : Keys) (m : KeyMessage) : Option Bytes :=
  if m.encrypted then crypto.aesUnwrap keys.kek m.keyData else some m.keyData

/-- The frame that is queued. -/
def ethernetOf (h : Header) (payload : Bytes) : Bytes := h.addr1 ++ h.addr3 ++ slice payload 6 2 ++ payload.drop 8

/-! ### The station -/

namespace Station

def new (seed : UInt64) : Station where
  state := .disabled
  bss := []
  target := none
  current := none
  scanChannels := []
  scanIndex := 0
  dwellUntil := 0
  deadline := 0
  attempts := 0
  sequence := 0
  anonce := zeros 32
  snonce := zeros 32
  replay := 0
  ptk := none
  lastBeacon := 0
  received := []
  rng := seed ||| 1
  message := ""
  rssi := -100
  connectAfterScan := false
  radio := []
  marks := []

variable (crypto : Crypto) (own : Bytes) (now : Nat)

def nextSequence (s : Station) : Station := { s with sequence := (s.sequence + 1) &&& 0x0FFF }

def tell (s : Station) (c : RadioCall) : Station := { s with radio := c :: s.radio }

def mark (s : Station) (m : Mark) : Station := { s with marks := m :: s.marks }

/-- A management frame with the next sequence number. -/
def sendMgmt (s : Station) (subtype : UInt8) (addr1 addr3 body : Bytes) : Station :=
  let s := s.nextSequence
  s.tell (.transmit (buildHeader typeMgmt subtype 0 addr1 own addr3 s.sequence ++ body) true)

def beginAuth (s : Station) : Station :=
  match s.target with
  | none => { s with state := .idle }
  | some target =>
    match strongest (s.bss.filter fun b => b.ssid = target.ssid) with
    | none =>
      { s with message := "network " ++ String.ofList target.ssid ++ " not found", state := .idle, target := none }
    | some bss =>
      if bss.security = .wpa2 ∧ (target.pmk = none ∨ rsnSupportsCcmpPsk bss.rsnIe = false) then
        { s with
          message := if target.pmk = none then "this network needs a password" else "only WPA2-PSK with CCMP is supported"
          state := .idle
          target := none }
      else if bss.security = .wep ∨ bss.security = .wpa then
        { s with message := "WEP and WPA1 networks are not supported", state := .idle, target := none }
      else
        let s := (s.tell (.setChannel bss.channel)).tell (.setBssid (some bss.bssid))
        let s := s.sendMgmt own subAuth bss.bssid bss.bssid (toLE 2 0 ++ toLE 2 1 ++ toLE 2 0)
        { s with current := some bss, state := .authenticating, deadline := now + authTimeoutMs }

def scanStep (s : Station) : Station :=
  match s.scanChannels[s.scanIndex]? with
  | none =>
    let s := { s with state := .idle }
    if s.connectAfterScan then beginAuth own now { s with connectAfterScan := false } else s
  | some channel =>
    let s := { s with scanIndex := s.scanIndex + 1 }
    let s := (s.tell (.setBssid none)).tell (.setChannel channel)
    let s := s.sendMgmt own subProbeReq broadcast broadcast
      ([ieSsid, 0] ++ [ieRates, 8] ++ rates ++ [ieExtRates, 4] ++ extRates)
    { s with dwellUntil := now + scanDwellMs }

def startScan (s : Station) : Station :=
  if s.state = .idle ∨ s.state = .scanning then
    scanStep own now { s with
      scanChannels := [1, 2, 3, 4, 5, 6, 7, 8, 9, 10, 11, 12, 13]
      scanIndex := 0
      state := .scanning
      bss := s.bss.filter fun b => now - b.lastSeen < 60000 }
  else s

/-- The current network is given up, and its access point told if it knows of the station. -/
def leave (s : Station) : Station :=
  match s.current with
  | none => s
  | some bss =>
    if s.state = .associating ∨ s.state = .handshake ∨ s.state = .connected then
      { s with current := none }.sendMgmt own subDeauth bss.bssid bss.bssid (toLE 2 3)
    else { s with current := none }

def disconnect (s : Station) : Station :=
  let s := leave own s
  let s := { s with ptk := none, target := none, connectAfterScan := false }
  let s := s.tell (.setBssid none)
  if s.state ≠ .disabled then { s with state := .idle } else s

def enable (on : Bool) (s : Station) : Station :=
  if on = true ∧ s.state = .disabled then startScan own 0 { s with state := .idle }
  else if on = false then { disconnect own s with state := .disabled }
  else s

/-- The key that `connect` computes, if there is a passphrase. -/
def pmkOf (ssid passphrase : Text) : Option Bytes :=
  if passphrase = [] then none else some (crypto.pskFromPassphrase passphrase (Utf8.encode ssid))

/-- `connect`; an error leaves the station as it is. -/
def connect (ssid passphrase : Text) (s : Station) : Except String Station :=
  if s.state = .disabled then .error "Wi-Fi is off"
  else if ssid = [] ∨ 32 < (Utf8.encode ssid).length then .error "bad SSID"
  else if passphrase ≠ [] ∧ ((Utf8.encode passphrase).length < 8 ∨ 63 < (Utf8.encode passphrase).length) then
    .error "the passphrase must be 8..63 characters"
  else
    let pmk := pmkOf crypto ssid passphrase
    let s := disconnect own s
    let s := { s with target := some ⟨ssid, pmk⟩, attempts := 0, message := "" }
    let s := s.mark (.chosen ssid passphrase)
    if s.bss.any (fun b => b.ssid = ssid) then .ok (beginAuth own now s)
    else .ok (startScan own now { s with connectAfterScan := true, state := .idle })

def fail (reason : String) (s : Station) : Station :=
  let s := { s with attempts := s.attempts + 1, ptk := none }
  if 3 ≤ s.attempts then
    let s := { s with message := "connection failed: " ++ reason, current := none, target := none, state := .idle }
    s.tell (.setBssid none)
  else beginAuth own now s

def sendAssoc (s : Station) : Station :=
  match s.current with
  | none => s
  | some bss =>
    let capability := if bss.security ≠ .clear then 0x0431 else 0x0421
    let body := toLE 2 capability ++ toLE 2 10 ++ [ieSsid, UInt8.ofNat (Utf8.encode bss.ssid).length] ++
      Utf8.encode bss.ssid ++ [ieRates, 8] ++ rates ++ [ieExtRates, 4] ++ extRates ++
      (if bss.security = .wpa2 then [ieRsn, 20] ++ rsnIeCcmpPsk else [])
    let s := s.sendMgmt own subAssocReq bss.bssid bss.bssid body
    { s with state := .associating, deadline := now + authTimeoutMs }

def tick (s : Station) : Station :=
  match s.state with
  | .scanning => if s.dwellUntil ≤ now then scanStep own now s else s
  | .authenticating => if s.deadline ≤ now then fail own now "no authentication response" s else s
  | .associating => if s.deadline ≤ now then fail own now "no association response" s else s
  | .handshake => if s.deadline ≤ now then fail own now "the WPA2 handshake timed out (wrong password?)" s else s
  | .connected =>
    if beaconLossMs < now - s.lastBeacon then
      let s := { s with message := "the access point went away", ptk := none, state := .idle, attempts := 0 }
      if s.target ≠ none then beginAuth own now s else s
    else s
  | _ => s

/-! ### Data -/

/-- The keys under which frames are sent. -/
def sendingKeys (s : Station) : Option Keys := if s.state = .connected then s.ptk else none

def sendData (addr1 addr2 addr3 payload : Bytes) (s : Station) : Station :=
  let s := s.nextSequence
  match s.sendingKeys with
  | none => s.tell (.transmit (buildHeader typeData 0 fcToDs addr1 addr2 addr3 s.sequence ++ payload) false)
  | some keys =>
    let frame := buildHeader typeData 0 (fcToDs ||| fcProtected) addr1 addr2 addr3 s.sequence
    let pn := (keys.txPn + 1) % 2 ^ 64
    let (nonce, aad) := ccmpNonceAad (frame.take 24) pn
    let sealedFrame := frame ++ toLE 2 pn ++ [0, 0x20] ++ slice (toLE 8 pn) 2 4 ++ crypto.ccmEncrypt keys.tk nonce aad payload
    let s := { s with ptk := some { keys with txPn := pn } }
    let s := s.mark (.sealed (installs s.marks) (pn % 2 ^ 48))
    s.tell (.transmit sealedFrame false)

def sendEthernet (eth : Bytes) (s : Station) : Station :=
  if s.state ≠ .connected ∨ eth.length < 14 then s
  else
    match s.current with
    | none => s
    | some bss =>
      let payload := [0xAA, 0xAA, 0x03, 0x00, 0x00, 0x00] ++ slice eth 12 2 ++ eth.drop 14
      sendData crypto bss.bssid (slice eth 6 6) (slice eth 0 6) payload s

def takeEthernet (s : Station) : Option Bytes × Station := (s.received.head?, { s with received := s.received.tail })

def decrypt (mpdu : Bytes) (h : Header) (s : Station) : Option (Bytes × Station) := do
  let keys ← s.ptk
  if h.body.length < 16 ∨ h.body.getD 3 0 &&& 0x20 = 0 then none
  else
    let pn := packetNumber h.body
    let (key, id, last) ← selectKey keys s.marks h
    if pn ≤ last ∧ last ≠ 0 then none
    else
      let (nonce, aad) := ccmpNonceAad (mpdu.take h.headerLen) pn
      let plain ← crypto.ccmDecrypt key nonce aad (h.body.drop 8)
      let s := { s with ptk := some (keys.accepted h pn) }
      return (plain, s.mark (.opened id pn))

/-! ### The handshake -/

def sendEapol (eapol kck : Bytes) (s : Station) : Station :=
  let eapol := splice eapol 81 ((crypto.hmacSha1 kck eapol).take 16)
  match s.current with
  | none => s
  | some bss => sendData crypto bss.bssid own bss.bssid (llcEapol ++ eapol) s

def onMessage1 (pmk bssid : Bytes) (m : KeyMessage) (s : Station) : Station :=
  if m.replay < s.replay ∧ s.replay ≠ 0 then s
  else
    let (snonce, rng) := drawNonce s.rng
    let s := { s with replay := m.replay, anonce := m.nonce, snonce, rng }
    let i : Install := ⟨pmk, own, bssid, m.nonce, snonce⟩
    let keys := pairwiseKeys crypto i
    let s := { s with ptk := some keys }
    let s := s.mark (.installed i)
    let s := sendEapol crypto own (eapolKeyFrame 0x010A m.replay snonce ([ieRsn, 20] ++ rsnIeCcmpPsk)) keys.kck s
    { s with state := .handshake, deadline := now + handshakeTimeoutMs }

/-- The third message of the handshake, its MIC verified. -/
def onMessage3 (data : Bytes) (m : KeyMessage) (keys : Keys) (gtk : Option (Fin 4 × Bytes)) (s : Station) : Station :=
  if m.nonce ≠ s.anonce then s
  else
    let s := sendEapol crypto own (eapolKeyFrame 0x030A m.replay (zeros 32) []) keys.kck s
    let s := { s with ptk := s.ptk.map fun keys : Keys => { keys with gtk := gtk } }
    let s := { s with state := .connected, attempts := 0, message := "", lastBeacon := now }
    s.mark (.confirmed data)

def onGroupMessage (m : KeyMessage) (keys : Keys) (gtk : Option (Fin 4 × Bytes)) (s : Station) : Station :=
  let s := match gtk with
    | none => s
    | some g => { s with ptk := s.ptk.map fun keys : Keys => { keys with gtk := some g, rxPn := Function.update keys.rxPn g.1 0 } }
  sendEapol crypto own (eapolKeyFrame 0x0302 m.replay (zeros 32) []) keys.kck s

def onEapol (data : Bytes) (s : Station) : Station :=
  match keyMessage data with
  | none => s
  | some m =>
    match s.current, s.target.bind fun t => t.pmk with
    | some bss, some pmk =>
      if m.pairwise ∧ m.ack ∧ ¬ m.hasMic then onMessage1 crypto own now pmk bss.bssid m s
      else
        match s.ptk with
        | none => s
        | some keys =>
          if ¬ m.hasMic then s
          else if (crypto.hmacSha1 keys.kck m.check).take 16 ≠ m.mic then
            { s with message := "wrong password (MIC mismatch)" }
          else if m.replay < s.replay then s
          else
            let s := { s with replay := m.replay }
            match keyDataOf crypto keys m with
            | none => s
            | some plain =>
              if m.pairwise then onMessage3 crypto own now data m keys (findGtk plain) s
              else onGroupMessage crypto own m keys (findGtk plain) s
    | _, _ => s

/-! ### Frames -/

/-- A beacon or a probe response. -/
def onBeacon (h : Header) (rssi : Int) (s : Station) : Station :=
  match parseBeacon h.body with
  | none => s
  | some info =>
    let bssid := h.addr3
    let update (b : Bss) : Bss :=
      { b with
        rssi
        lastSeen := now
        ssid := if info.ssid ≠ [] then info.ssid else b.ssid
        security := info.security
        rsnIe := info.rsnIe
        channel := if info.channel ≠ 0 then info.channel else b.channel }
    let bss :=
      if s.bss.any (fun b => b.bssid = bssid) then s.bss.modify (s.bss.findIdx fun b => b.bssid = bssid) update
      else s.bss ++ [⟨info.ssid, bssid, info.channel, rssi, info.security, info.rsnIe, now⟩]
    if s.current.map Bss.bssid = some bssid then { s with bss := bss, lastBeacon := now, rssi := rssi } else { s with bss := bss }

def onAuth (h : Header) (s : Station) : Station :=
  if h.body.length < 6 then s
  else
    let seq := ofLE (slice h.body 2 2)
    let status := ofLE (slice h.body 4 2)
    if seq = 2 ∧ status = 0 then sendAssoc own now s
    else if seq = 2 then fail own now "authentication refused" s
    else s

/-- The network is known to be WPA2. -/
def secured (s : Station) : Bool := s.current.any fun b => b.security = .wpa2

def onAssocResp (h : Header) (s : Station) : Station :=
  if h.body.length < 6 then s
  else if ofLE (slice h.body 2 2) ≠ 0 then fail own now "association refused" s
  else
    let s := { s with lastBeacon := now }
    if s.secured then { s with state := .handshake, deadline := now + handshakeTimeoutMs }
    else { s with state := .connected, attempts := 0, message := "" }

/-- A deauthentication or a disassociation. -/
def onDeauth (h : Header) (s : Station) : Station :=
  if h.addr1 = own ∧ s.current.map Bss.bssid = some h.addr2 then
    let s := { s with ptk := none }
    if s.state = .connected ∨ s.state = .handshake then
      beginAuth own now { s with message := "disconnected by the access point", state := .idle, attempts := 0 }
    else s
  else s

/-- The payload of a data frame, decrypted if it is protected. -/
def payloadOf (mpdu : Bytes) (h : Header) (s : Station) : Option (Bytes × Station) :=
  if h.flags &&& fcProtected ≠ 0 then decrypt crypto mpdu h s else some (h.body, s)

/-- A data frame of the access point, for this station or for a group. -/
def fromAp (h : Header) (s : Station) : Bool :=
  h.subtype &&& 0x04 = 0 ∧ s.current.map Bss.bssid = some h.addr2 ∧ (h.addr1 = own ∨ isGroup h)

def onData (mpdu : Bytes) (h : Header) (s : Station) : Station :=
  if fromAp own h s then
    match payloadOf crypto mpdu h s with
    | none => s
    | some (payload, s) =>
      if payload.length < 8 ∨ payload.take 6 ≠ [0xAA, 0xAA, 0x03, 0x00, 0x00, 0x00] then s
      else if slice payload 6 2 = [0x88, 0x8E] then onEapol crypto own now (payload.drop 8) s
      else if s.state ≠ .connected then s
      else if s.received.length < 256 then
        let eth := ethernetOf h payload
        { s with received := s.received ++ [eth] }.mark (.queued mpdu s.ptk (s.current.map Bss.security) eth)
      else s
  else s

def onFrame (mpdu : Bytes) (rssi : Int) (s : Station) : Station :=
  match parse mpdu with
  | none => s
  | some h =>
    if h.frameType = typeMgmt ∧ (h.subtype = subBeacon ∨ h.subtype = subProbeResp) then onBeacon now h rssi s
    else if h.frameType = typeMgmt ∧ h.subtype = subAuth ∧ h.addr1 = own ∧ s.state = .authenticating then onAuth own now h s
    else if h.frameType = typeMgmt ∧ h.subtype = subAssocResp ∧ h.addr1 = own ∧ s.state = .associating then
      onAssocResp own now h s
    else if h.frameType = typeMgmt ∧ (h.subtype = subDeauth ∨ h.subtype = subDisassoc) then onDeauth own now h s
    else if h.frameType = typeData ∧ h.flags &&& fcFromDs ≠ 0 ∧ h.flags &&& fcToDs = 0 then onData crypto own now mpdu h s
    else s

end Station

/-! ### Runs -/

/-- The calls that the driver and the kernel make. -/
inductive Call where
  | enable (on : Bool)
  | connect (ssid passphrase : Text) (now : Nat)
  | disconnect
  | startScan (now : Nat)
  | tick (now : Nat)
  | onFrame (mpdu : Bytes) (rssi : Int) (now : Nat)
  | sendEthernet (eth : Bytes)
  | takeEthernet

/-- One call, for a radio with the address `own`. -/
def Station.step (crypto : Crypto) (own : Bytes) (s : Station) : Call → Station
  | .enable on => s.enable own on
  | .connect ssid passphrase now =>
    match s.connect crypto own now ssid passphrase with
    | .error _ => s
    | .ok s => s
  | .disconnect => s.disconnect own
  | .startScan now => s.startScan own now
  | .tick now => s.tick own now
  | .onFrame mpdu rssi now => s.onFrame crypto own now mpdu rssi
  | .sendEthernet eth => s.sendEthernet crypto eth
  | .takeEthernet => s.takeEthernet.2

end HamixOS.Wlan

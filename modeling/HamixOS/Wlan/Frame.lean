import HamixOS.Lib.Words
import HamixOS.Lib.Utf8

namespace HamixOS.Wlan

open Lib

/-!
# 802.11 frames (`crates/wlan/src/frame.rs`)

Frames are cut into their header and body, beacons into their information elements.
-/

def typeMgmt : UInt8 := 0
def typeData : UInt8 := 2

def subAssocReq : UInt8 := 0
def subAssocResp : UInt8 := 1
def subProbeReq : UInt8 := 4
def subProbeResp : UInt8 := 5
def subBeacon : UInt8 := 8
def subDisassoc : UInt8 := 10
def subAuth : UInt8 := 11
def subDeauth : UInt8 := 12

def fcToDs : UInt8 := 0x01
def fcFromDs : UInt8 := 0x02
def fcProtected : UInt8 := 0x40

def broadcast : Bytes := List.replicate 6 0xFF

def ieSsid : UInt8 := 0
def ieRates : UInt8 := 1
def ieDs : UInt8 := 3
def ieRsn : UInt8 := 48
def ieExtRates : UInt8 := 50
def ieVendor : UInt8 := 221

def rates : Bytes := [0x82, 0x84, 0x8B, 0x96, 0x0C, 0x12, 0x18, 0x24]
def extRates : Bytes := [0x30, 0x48, 0x60, 0x6C]

/-- `RSN_IE_CCMP_PSK`. -/
def rsnIeCcmpPsk : Bytes :=
  [0x01, 0x00, 0x00, 0x0F, 0xAC, 0x04, 0x01, 0x00, 0x00, 0x0F, 0xAC, 0x04, 0x01, 0x00, 0x00, 0x0F, 0xAC, 0x02, 0x00, 0x00]

/-- `Security`; `clear` is `Open`. -/
inductive Security where
  | clear
  | wep
  | wpa
  | wpa2
  deriving DecidableEq

structure Header where
  frameType : UInt8
  subtype : UInt8
  flags : UInt8
  addr1 : Bytes
  addr2 : Bytes
  addr3 : Bytes
  sequence : UInt16
  headerLen : Nat
  body : Bytes
  deriving DecidableEq

/-- Four-address frames and frames with a QoS field have longer headers. -/
def headerLength (frameType subtype flags : UInt8) : Nat :=
  if frameType = typeData then
    24 + (if flags &&& (fcToDs ||| fcFromDs) = fcToDs ||| fcFromDs then 6 else 0) + (if subtype &&& 0x08 ≠ 0 then 2 else 0)
  else 24

def parse (frame : Bytes) : Option Header :=
  if frame.length < 24 then none
  else
    let fc0 := frame.getD 0 0
    let flags := frame.getD 1 0
    let frameType := (fc0 >>> 2) &&& 3
    let subtype := fc0 >>> 4
    let headerLen := headerLength frameType subtype flags
    if frame.length < headerLen then none
    else some {
      frameType
      subtype
      flags
      addr1 := slice frame 4 6
      addr2 := slice frame 10 6
      addr3 := slice frame 16 6
      sequence := UInt16.ofNat (ofLE (slice frame 22 2)) >>> 4
      headerLen
      body := frame.drop headerLen }

def buildHeader (frameType subtype flags : UInt8) (addr1 addr2 addr3 : Bytes) (sequence : UInt16) : Bytes :=
  [(subtype <<< 4) ||| (frameType <<< 2), flags, 0x3A, 0x01] ++ addr1 ++ addr2 ++ addr3 ++
    toLE 2 ((sequence &&& 0x0FFF) <<< 4).toNat

/-- The information elements, as far as they are whole; every one takes two bytes at least. -/
def elementsFuel : Nat → Bytes → List (UInt8 × Bytes)
  | fuel + 1, id :: len :: rest =>
    if rest.length < len.toNat then []
    else (id, rest.take len.toNat) :: elementsFuel fuel (rest.drop len.toNat)
  | _, _ => []

def elements (data : Bytes) : List (UInt8 × Bytes) := elementsFuel data.length data

structure BeaconInfo where
  ssid : Text
  channel : UInt8
  security : Security
  rsnIe : Bytes
  deriving DecidableEq

/-- What one element says. -/
def BeaconInfo.element (info : BeaconInfo) (e : UInt8 × Bytes) : BeaconInfo :=
  let (id, value) := e
  if id = ieSsid then { info with ssid := fromUtf8Lossy value }
  else if id = ieDs ∧ value ≠ [] then { info with channel := value.getD 0 0 }
  else if id = ieRsn then { info with security := .wpa2, rsnIe := value }
  else if id = ieVendor ∧ value.take 4 = [0x00, 0x50, 0xF2, 0x01] ∧ info.security ≠ .wpa2 then
    { info with security := .wpa }
  else info

def parseBeacon (body : Bytes) : Option BeaconInfo :=
  if body.length < 12 then none
  else
    let capability := ofLE (slice body 10 2)
    let security := if capability.testBit 4 then Security.wep else Security.clear
    some ((elements (body.drop 12)).foldl BeaconInfo.element ⟨[], 0, security, []⟩)

/-- A list of `count` suites from `offset` on has `suite` in it. -/
def hasSuite (rsn : Bytes) (offset count : Nat) (suite : Bytes) : Bool :=
  (List.range count).any fun i => offset + i * 4 + 4 ≤ rsn.length && slice rsn (offset + i * 4) 4 == suite

def rsnSupportsCcmpPsk (rsn : Bytes) : Bool :=
  if rsn.length < 8 then false
  else
    let pairwise := ofLE (slice rsn 6 2)
    let ccmp := hasSuite rsn 8 pairwise [0x00, 0x0F, 0xAC, 0x04]
    let offset := 8 + pairwise * 4
    if rsn.length < offset + 2 then ccmp
    else
      let akm := ofLE (slice rsn offset 2)
      ccmp && hasSuite rsn (offset + 2) akm [0x00, 0x0F, 0xAC, 0x02]

example : rsnSupportsCcmpPsk rsnIeCcmpPsk = true := by decide

/-- `ccmp_nonce_aad`, from a header and a packet number. -/
def ccmpNonceAad (header : Bytes) (pn : Nat) : Bytes × Bytes :=
  let qos := (header.getD 0 0 >>> 2) &&& 3 = typeData ∧ header.getD 0 0 &&& 0x80 ≠ 0 ∧ 26 ≤ header.length
  let tid := if qos then header.getD 24 0 &&& 0x0F else 0
  let nonce := [tid] ++ slice header 10 6 ++ (toLE 6 pn).reverse
  let aad := [header.getD 0 0 &&& 0x8F, (header.getD 1 0 &&& 0xC7) ||| 0x40] ++ slice header 4 18 ++
    [header.getD 22 0 &&& 0x0F, 0] ++ (if qos then [tid, 0] else [])
  (nonce, aad)

end HamixOS.Wlan

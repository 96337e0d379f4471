import HamixOS.Wlan.Passphrase
import HamixOS.Wlan.Received
import HamixOS.Wlan.Replay

namespace HamixOS.Wlan

open Lib List Option Nat

/-!
# Frames of an access point

What an access point sends to bring a station through the handshake, and what the station does on it.
The runs at the end show where the three properties above fail without their conditions, whatever the
ciphers compute.
-/

theorem slice_append_left {a : Bytes} {o n : Nat} (h : o + n ≤ a.length) (b : Bytes) : slice (a ++ b) o n = slice a o n := by
  unfold slice
  rw [drop_append_of_le_length (by omega), take_append_of_le_length (by rw [length_drop]; omega)]

theorem getD_append_left {a : Bytes} {i : Nat} (h : i < a.length) (b : Bytes) : (a ++ b).getD i 0 = a.getD i 0 := by
  rw [getD_eq_getElem?_getD, getD_eq_getElem?_getD, getElem?_append_left h]

variable {h : Header}

/-- A frame with a short header is that header and a body. -/
theorem parse_append (header : Bytes) (hlen : header.length = 24) (hparse : parse header = some h)
    (hshort : h.headerLen = 24) (body : Bytes) : parse (header ++ body) = some { h with body := body } := by
  unfold parse at hparse ⊢
  rw [if_neg (by omega)] at hparse
  rw [if_neg (by rw [length_append]; omega)]
  rw [getD_append_left (by omega), getD_append_left (by omega), slice_append_left (by omega), slice_append_left (by omega),
    slice_append_left (by omega), slice_append_left (by omega)]
  dsimp only at hparse ⊢
  split at hparse
  · cases hparse
  obtain rfl := some.inj hparse
  dsimp only at hshort
  rw [hshort, if_neg (by rw [length_append]; omega), drop_left' hlen]

variable {m : KeyMessage}

/-- A message is read with the MIC that was put into it. -/
theorem keyMessage_splice {frame mic : Bytes} (hmic : mic.length = 16) (hm : keyMessage frame = some m) :
    keyMessage (splice frame 81 mic) = some { m with mic := mic } := by
  unfold keyMessage at hm ⊢
  split at hm
  · cases hm
  rename_i hhead
  simp only [not_or, not_lt, ne_eq, not_not] at hhead
  obtain ⟨h99, h1, h4⟩ := hhead
  have hfit : 81 + mic.length ≤ frame.length := by omega
  have hget {i : Nat} (hi : i < 81) : (splice frame 81 mic).getD i 0 = frame.getD i 0 := by
    rw [getD_eq_getElem?_getD, getD_eq_getElem?_getD, getElem?_splice hfit, if_neg (by omega)]
  have hslice {o n : Nat} (ho : o + n ≤ 81 ∨ 97 ≤ o) : slice (splice frame 81 mic) o n = slice frame o n :=
    slice_splice_of_disjoint hfit (by omega)
  dsimp only at hm ⊢
  have hhead : ¬ ((splice frame 81 mic).length < 99 ∨ (splice frame 81 mic).getD 1 0 ≠ 3 ∨
      (splice frame 81 mic).getD 4 0 ≠ 2) := by
    rw [length_splice hfit, hget (by omega), hget (by omega)]
    rintro (hlt | hne | hne)
    · omega
    · exact hne h1
    · exact hne h4
  rw [if_neg hhead, hslice (o := 97) (n := 2) (.inr le_rfl), hslice (o := 5) (n := 2) (.inl (by decide)),
    hslice (o := 9) (n := 8) (.inl (by decide)), hslice (o := 17) (n := 32) (.inl (by decide)),
    hslice (o := 99) (.inr (by decide)), length_splice hfit]
  split at hm
  · cases hm
  rename_i hdata
  rw [if_neg hdata]
  obtain rfl := some.inj hm
  simp only [some.injEq, KeyMessage.mk.injEq, true_and]
  refine ⟨?_, ?_⟩
  · rw [← hmic]
    exact slice_splice_self hfit
  · apply ext_getElem?
    intro i
    have hz : (zeros 16).length = 16 := length_zeros 16
    rw [getElem?_splice (by rw [length_take, length_splice hfit, hz]; omega),
      getElem?_splice (by rw [length_take, hz]; omega), hz]
    by_cases hi : 81 ≤ i ∧ i < 81 + 16
    · rw [if_pos hi, if_pos hi]
    · rw [if_neg hi, if_neg hi, getElem?_take, getElem?_take, getElem?_splice hfit, hmic, if_neg hi]

namespace Station

variable {crypto : Crypto} {own : Bytes} {now : Nat} {s : Station}

/-- A message of the handshake in a data frame in the clear. -/
theorem onFrame_eapol {mpdu data : Bytes} (hframe : DataFrame own mpdu h s) (hclear : h.flags &&& fcProtected = 0)
    (hbody : h.body = llcEapol ++ data) (rssi : Int) :
    s.onFrame crypto own now mpdu rssi = s.onEapol crypto own now data := by
  rw [onFrame_data hframe.parsed hframe.frameType hframe.fromDs hframe.toDs]
  unfold onData payloadOf
  rw [if_pos hframe.fromAp, if_neg (by rw [hclear]; exact not_not.mpr rfl)]
  dsimp only
  rw [hbody, if_neg, if_pos]
  · rw [drop_left' (show llcEapol.length = 8 from rfl)]
  · rw [slice_append_left (by decide)]
    rfl
  · rw [length_append, take_append_of_le_length (by decide)]
    rintro (hlt | hne)
    · have : llcEapol.length = 8 := rfl
      omega
    · exact hne rfl

/-- A verified third message makes the station connected. -/
theorem onEapol_message3 {data plain : Bytes} {keys : Keys} (hv : Verified crypto s data m keys plain)
    (hmic : m.hasMic) (hpair : m.pairwise) :
    s.onEapol crypto own now data = { s with replay := m.replay }.onMessage3 crypto own now data m keys (findGtk plain) := by
  obtain ⟨bss, pmk, hjoined⟩ := hv.joined
  unfold onEapol
  rw [hv.message]
  rw [hjoined.current, hjoined.pmk]
  dsimp only
  rw [if_neg (fun hc => hc.2.2 hmic), hv.ptk]
  dsimp only
  rw [if_neg (not_not.mpr hmic), if_neg (not_not.mpr hv.mic), if_neg (not_lt.mpr hv.fresh), hv.keyData]
  dsimp only
  rw [if_pos hpair]

/-- A first message, which has no MIC. -/
theorem onEapol_message1 {data : Bytes} {bss : Bss} {pmk : Bytes} (hm : keyMessage data = some m)
    (hjoined : Joined s bss pmk) (hfirst : m.pairwise ∧ m.ack ∧ ¬ m.hasMic) :
    s.onEapol crypto own now data = s.onMessage1 crypto own now pmk bss.bssid m := by
  unfold onEapol
  rw [hm]
  rw [hjoined.current, hjoined.pmk]
  dsimp only
  rw [if_pos hfirst]

/-- Without a connection a reply goes out in the clear. -/
theorem sendEapol_clear (crypto : Crypto) (own : Bytes) (hstate : s.state ≠ .connected) (eapol kck : Bytes) :
    ∃ sequence radio, s.sendEapol crypto own eapol kck = { s with sequence := sequence, radio := radio } := by
  unfold sendEapol
  split
  · exact ⟨s.sequence, s.radio, rfl⟩
  unfold sendData
  have hkeys : s.nextSequence.sendingKeys = none := if_neg hstate
  dsimp only
  rw [hkeys]
  exact ⟨_, _, rfl⟩

theorem onMessage1_clear (crypto : Crypto) (own : Bytes) (now : Nat) (hstate : s.state ≠ .connected) (hold : ¬ (m.replay < s.replay ∧ s.replay ≠ 0))
    (pmk bssid : Bytes) :
    ∃ sequence radio deadline, s.onMessage1 crypto own now pmk bssid m =
      { s.install crypto m ⟨pmk, own, bssid, m.nonce, (drawNonce s.rng).1⟩ with
        sequence := sequence, radio := radio, state := .handshake, deadline := deadline } := by
  have hinstalled : (s.install crypto m ⟨pmk, own, bssid, m.nonce, (drawNonce s.rng).1⟩).state ≠ .connected := hstate
  obtain ⟨sequence, radio, hsend⟩ := sendEapol_clear crypto own hinstalled
    (eapolKeyFrame 0x010A m.replay (drawNonce s.rng).1 ([ieRsn, 20] ++ rsnIeCcmpPsk))
    (pairwiseKeys crypto ⟨pmk, own, bssid, m.nonce, (drawNonce s.rng).1⟩).kck
  refine ⟨sequence, radio, now + handshakeTimeoutMs, ?_⟩
  unfold onMessage1
  rw [if_neg hold]
  exact congrArg (fun t : Station => { t with state := .handshake, deadline := now + handshakeTimeoutMs }) hsend

theorem onMessage3_clear (crypto : Crypto) (own : Bytes) (now : Nat) (hstate : s.state ≠ .connected) (hnonce : m.nonce = s.anonce) (data : Bytes)
    (keys : Keys) (gtk : Option (Fin 4 × Bytes)) :
    ∃ sequence radio, s.onMessage3 crypto own now data m keys gtk =
      { s with
        sequence := sequence, radio := radio
        ptk := s.ptk.map fun keys => { keys with gtk := gtk }
        state := .connected, attempts := 0, message := "", lastBeacon := now
        marks := .confirmed data :: s.marks } := by
  obtain ⟨sequence, radio, hsend⟩ := sendEapol_clear crypto own hstate
    (eapolKeyFrame 0x030A m.replay (zeros 32) []) keys.kck
  refine ⟨sequence, radio, ?_⟩
  unfold onMessage3
  rw [if_neg (not_not.mpr hnonce)]
  rw [hsend]
  rfl

/-! ### Runs -/

def run (crypto : Crypto) (own : Bytes) (s : Station) (calls : List Call) : Station := calls.foldl (step crypto own) s

theorem reached_run {calls : List Call} (h : Reached crypto own (fun _ _ => True) s) :
    Reached crypto own (fun _ _ => True) (run crypto own s calls) := by
  induction calls generalizing s with
  | nil => exact h
  | cons c calls ih => exact ih (Reach.next h trivial rfl)

theorem reached_onFrame {mpdu : Bytes} {rssi : Int} {t : Station} (h : Reached crypto own (fun _ _ => True) s)
    (ht : s.onFrame crypto own now mpdu rssi = t) : Reached crypto own (fun _ _ => True) t := by
  subst ht
  exact Reach.next (a := .onFrame mpdu rssi now) h trivial rfl

end Station

/-- The addresses of the tests. -/
def apAddr : Bytes := [0x02, 0x11, 0x22, 0x33, 0x44, 0x55]

def staAddr : Bytes := [0x02, 0xAA, 0xBB, 0xCC, 0xDD, 0xEE]

def homeAp : Text := ['H', 'o', 'm', 'e', 'A', 'P']

def battery : Text := ['b', 'a', 't', 't', 'e', 'r', 'i', 'e', 's']

def mgmtFrame (subtype : UInt8) (addr1 body : Bytes) : Bytes :=
  buildHeader typeMgmt subtype 0 addr1 apAddr apAddr 2 ++ body

/-- A beacon of the network, with the element of its security. -/
def beaconFrame (capability : Nat) (rsn : Bytes) : Bytes :=
  mgmtFrame subBeacon broadcast
    (zeros 8 ++ toLE 2 100 ++ toLE 2 capability ++ [ieSsid, 6] ++ Utf8.encode homeAp ++ [ieDs, 1, 6] ++ rsn)

/-- A station that joins the network up to the answer to its association. -/
def joinCalls (beacon : Bytes) : List Call :=
  [.enable true, .onFrame beacon (-40) 0, .connect homeAp battery 0,
    .onFrame (mgmtFrame subAuth staAddr [0, 0, 2, 0, 0, 0]) (-40) 0,
    .onFrame (mgmtFrame subAssocResp staAddr [0x11, 0x04, 0, 0, 1, 0xC0]) (-40) 0]

namespace Station

/-- The network of the runs below. -/
def homeBss : Bss := ⟨homeAp, apAddr, 6, -40, .wpa2, rsnIeCcmpPsk, 0⟩

/-- The station that is about to agree on keys. -/
def joined (crypto : Crypto) : Station :=
  run crypto staAddr (new 7) (joinCalls (beaconFrame 0x0411 ([ieRsn, 20] ++ rsnIeCcmpPsk)))

/-- A data frame of the access point. -/
def dataFrame (flags : UInt8) (body : Bytes) : Bytes :=
  buildHeader typeData 0 (fcFromDs ||| flags) staAddr apAddr apAddr 5 ++ body

def dataHeader (flags : UInt8) (body : Bytes) : Header where
  frameType := typeData
  subtype := 0
  flags := fcFromDs ||| flags
  addr1 := staAddr
  addr2 := apAddr
  addr3 := apAddr
  sequence := 5
  headerLen := 24
  body := body

/-- The bits of these frames. -/
theorem dataFlags : (0 : UInt8) &&& 0x04 = 0 ∧ (fcFromDs ||| 0) &&& fcFromDs ≠ 0 ∧ (fcFromDs ||| 0) &&& fcToDs = 0 ∧
    (fcFromDs ||| 0) &&& fcProtected = 0 ∧ (fcFromDs ||| fcProtected) &&& fcFromDs ≠ 0 ∧
    (fcFromDs ||| fcProtected) &&& fcToDs = 0 ∧ (fcFromDs ||| fcProtected) &&& fcProtected ≠ 0 := by decide

theorem dataFrame_of_current {s : Station} (hcurrent : s.current = some homeBss) {flags : UInt8}
    (hflags : flags = 0 ∨ flags = fcProtected) (body : Bytes) :
    DataFrame staAddr (dataFrame flags body) (dataHeader flags body) s := by
  have hap : s.fromAp staAddr (dataHeader flags body) = true := by
    unfold fromAp
    rw [hcurrent]
    exact decide_eq_true ⟨dataFlags.1, rfl, .inl rfl⟩
  obtain ⟨-, hfrom, hto, -, hfrom', hto', -⟩ := dataFlags
  rcases hflags with rfl | rfl
  · exact ⟨parse_append (buildHeader typeData 0 fcFromDs staAddr apAddr apAddr 5) rfl
      (h := dataHeader 0 []) rfl rfl body, rfl, hfrom, hto, hap⟩
  · exact ⟨parse_append (buildHeader typeData 0 (fcFromDs ||| fcProtected) staAddr apAddr apAddr 5) rfl
      (h := dataHeader fcProtected []) rfl rfl body, rfl, hfrom', hto', hap⟩

def anonceSent : Bytes := List.replicate 32 0x5A

/-- The first message of the access point. -/
def firstMessage : Bytes := eapolKeyFrame 0x008A 1 anonceSent []

/-- The third message without its MIC, and with it. -/
def thirdMessage : Bytes := eapolKeyFrame 0x01CA 2 anonceSent []

def thirdVerified (crypto : Crypto) (kck : Bytes) : Bytes :=
  splice thirdMessage 81 ((crypto.hmacSha1 kck thirdMessage).take 16)

theorem keyMessage_first : keyMessage firstMessage = some ⟨0x008A, 1, anonceSent, zeros 16, [], firstMessage⟩ := by
  decide +kernel

theorem keyMessage_third : keyMessage thirdMessage = some ⟨0x01CA, 2, anonceSent, zeros 16, [], thirdMessage⟩ := by
  decide +kernel

/-- The bits of the two messages. -/
theorem keyInfoBits : testBit 0x008A 3 = true ∧ testBit 0x008A 7 = true ∧ testBit 0x008A 8 = false ∧
    testBit 0x01CA 3 = true ∧ testBit 0x01CA 8 = true ∧ testBit 0x01CA 12 = false := by decide

/-- A connection to a protected network, on which no frame was received yet. -/
structure Fresh (s : Station) (keys : Keys) : Prop where
  state : s.state = .connected
  current : s.current = some homeBss
  ptk : s.ptk = some keys
  counter : keys.rxPnUnicast = 0
  received : s.received = []
  unread : accepted (.pairwise (installs s.marks)) s.marks = []

/-- Keys were installed and are not confirmed yet. -/
structure Negotiating (s : Station) (pmk : Bytes) (keys : Keys) : Prop where
  state : s.state = .handshake
  joined : Joined s homeBss pmk
  ptk : s.ptk = some keys
  counter : keys.rxPnUnicast = 0
  anonce : s.anonce = anonceSent
  replay : s.replay = 1
  received : s.received = []
  unread : accepted (.pairwise (installs s.marks)) s.marks = []

theorem negotiating_of_joined {pmk : Bytes} (hreached : Reached crypto staAddr (fun _ _ => True) s) (hstate : s.state = .handshake)
    (hjoined : Joined s homeBss pmk) (hreplay : s.replay = 0) (hreceived : s.received = [])
    (hmarks : s.marks = [.chosen homeAp battery]) :
    ∃ t keys, Reached crypto staAddr (fun _ _ => True) t ∧ Negotiating t pmk keys := by
  have hframe : s.onFrame crypto staAddr 0 (dataFrame 0 (llcEapol ++ firstMessage)) (-40) =
      s.onEapol crypto staAddr 0 firstMessage :=
    onFrame_eapol (dataFrame_of_current hjoined.current (.inl rfl) _) dataFlags.2.2.2.1 rfl _
  rw [onEapol_message1 keyMessage_first hjoined ⟨keyInfoBits.1, keyInfoBits.2.1,
    by unfold KeyMessage.hasMic; rw [keyInfoBits.2.2.1]; exact nofun⟩] at hframe
  have hclear : s.state ≠ .connected := by
    rw [hstate]
    exact nofun
  obtain ⟨sequence, radio, deadline, hmessage⟩ := onMessage1_clear crypto staAddr 0
    (m := ⟨0x008A, 1, anonceSent, zeros 16, [], firstMessage⟩) hclear (fun hc => hc.2 hreplay) pmk homeBss.bssid
  rw [hmessage] at hframe
  refine ⟨_, _, reached_onFrame hreached hframe, rfl, ⟨hjoined.current, hjoined.pmk⟩, rfl, rfl, rfl, rfl, hreceived, ?_⟩
  dsimp only [install]
  rw [hmarks]
  rfl

theorem fresh_of_negotiating {pmk : Bytes} {keys : Keys} (hreached : Reached crypto staAddr (fun _ _ => True) s)
    (hs : Negotiating s pmk keys) : ∃ t keys, Reached crypto staAddr (fun _ _ => True) t ∧ Fresh t keys := by
  have hlen : ((crypto.hmacSha1 keys.kck thirdMessage).take 16).length = 16 := by
    rw [length_take, crypto.length_hmacSha1]
    rfl
  have hverified : Verified crypto s (thirdVerified crypto keys.kck)
      ⟨0x01CA, 2, anonceSent, (crypto.hmacSha1 keys.kck thirdMessage).take 16, [], thirdMessage⟩ keys [] :=
    ⟨keyMessage_splice hlen keyMessage_third, ⟨homeBss, pmk, hs.joined⟩, hs.ptk, rfl,
      by rw [hs.replay]; exact le_succ 1,
      by unfold keyDataOf KeyMessage.encrypted; dsimp only; rw [keyInfoBits.2.2.2.2.2]; rfl⟩
  have hframe : s.onFrame crypto staAddr 0 (dataFrame 0 (llcEapol ++ thirdVerified crypto keys.kck)) (-40) =
      s.onEapol crypto staAddr 0 (thirdVerified crypto keys.kck) :=
    onFrame_eapol (dataFrame_of_current hs.joined.current (.inl rfl) _) dataFlags.2.2.2.1 rfl _
  rw [onEapol_message3 hverified keyInfoBits.2.2.2.2.1 keyInfoBits.2.2.2.1] at hframe
  have hclear : ({ s with replay := 2 } : Station).state ≠ .connected := by
    dsimp only
    rw [hs.state]
    exact nofun
  obtain ⟨sequence, radio, hmessage⟩ := onMessage3_clear crypto staAddr 0
    (m := ⟨0x01CA, 2, anonceSent, (crypto.hmacSha1 keys.kck thirdMessage).take 16, [], thirdMessage⟩) hclear hs.anonce.symm
    (thirdVerified crypto keys.kck) keys (findGtk [])
  rw [hmessage] at hframe
  refine ⟨_, { keys with gtk := none }, reached_onFrame hreached hframe, rfl, hs.joined.current, ?_, hs.counter, hs.received,
    hs.unread⟩
  dsimp only
  rw [hs.ptk]
  rfl

/-- The handshake succeeds, whatever the ciphers compute. -/
theorem fresh_reached (crypto : Crypto) : ∃ s keys, Reached crypto staAddr (fun _ _ => True) s ∧ Fresh s keys := by
  have hreached : Reached crypto staAddr (fun _ _ => True) (joined crypto) := reached_run (Reach.start ⟨7, rfl⟩)
  have hjoined : Joined (joined crypto) homeBss (crypto.pskFromPassphrase battery (Utf8.encode homeAp)) := ⟨rfl, rfl⟩
  obtain ⟨t, keys, hreached', hs⟩ := negotiating_of_joined hreached rfl hjoined rfl rfl rfl
  exact fresh_of_negotiating hreached' hs

/-- A frame whose payload is for the network stack goes there. -/
theorem onFrame_forwarded {s t : Station} {mpdu payload : Bytes} (hframe : DataFrame own mpdu h s)
    (hread : s.payloadOf crypto mpdu h = some (payload, t)) (hforwarded : Forwarded payload t) (now : Nat) (rssi : Int) :
    s.onFrame crypto own now mpdu rssi = t.queue mpdu (ethernetOf h payload) := by
  rw [onFrame_data hframe.parsed hframe.frameType hframe.fromDs hframe.toDs]
  unfold onData
  rw [if_pos hframe.fromAp, hread]
  dsimp only
  rw [if_neg, if_neg hforwarded.ethertype, if_neg (not_not.mpr hforwarded.state), if_pos hforwarded.room]
  · rfl
  · rintro (hlt | hne)
    · exact not_le.mpr hlt hforwarded.length
    · exact hne hforwarded.llc

/-- A frame with a payload that is too short is accepted and nothing else. -/
theorem onFrame_short {s t : Station} {mpdu payload : Bytes} (hframe : DataFrame own mpdu h s)
    (hread : s.payloadOf crypto mpdu h = some (payload, t)) (hshort : payload.length < 8) (now : Nat) (rssi : Int) :
    s.onFrame crypto own now mpdu rssi = t := by
  rw [onFrame_data hframe.parsed hframe.frameType hframe.fromDs hframe.toDs]
  unfold onData
  rw [if_pos hframe.fromAp, hread]
  dsimp only
  rw [if_pos (.inl hshort)]

/-! ### Where the conditions are needed -/

/-- A payload for the network stack, and its frame in the clear. -/
def clearPayload : Bytes := [0xAA, 0xAA, 0x03, 0x00, 0x00, 0x00, 0x08, 0x00] ++ Utf8.encode battery

def clearFrame : Bytes := dataFrame 0 clearPayload

end Station

/-- `ccm_decrypt` undoes `ccm_encrypt`, which adds a tag of eight bytes. -/
structure Crypto.Opens (crypto : Crypto) : Prop where
  decrypt : ∀ key nonce aad payload, payload.length ≤ 0xFFFF →
    crypto.ccmDecrypt key nonce aad (crypto.ccmEncrypt key nonce aad payload) = some payload
  length : ∀ key nonce aad payload, (crypto.ccmEncrypt key nonce aad payload).length = payload.length + 8

namespace Station

/-- The header of a protected frame. -/
def zeroHeader : Bytes := buildHeader typeData 0 (fcFromDs ||| fcProtected) staAddr apAddr apAddr 5

/-- A frame with packet number zero. -/
def zeroBody (crypto : Crypto) (tk : Bytes) : Bytes :=
  [0, 0, 0, 0x20, 0, 0, 0, 0] ++ crypto.ccmEncrypt tk (ccmpNonceAad zeroHeader 0).1 (ccmpNonceAad zeroHeader 0).2 []

/-- The first frame of a connection may have number zero, and so may the second. -/
theorem decrypt_zero {crypto : Crypto} (hcrypto : crypto.Opens) {s : Station} {keys : Keys} (hk : s.ptk = some keys)
    (hcounter : keys.rxPnUnicast = 0) :
    s.decrypt crypto (dataFrame fcProtected (zeroBody crypto keys.tk)) (dataHeader fcProtected (zeroBody crypto keys.tk)) =
      some ([], { s with ptk := some { keys with rxPnUnicast := 0 }, marks := .opened (.pairwise (installs s.marks)) 0 :: s.marks }) := by
  have hlen : (zeroBody crypto keys.tk).length = 16 := by
    unfold zeroBody
    rw [length_append, hcrypto.length]
    rfl
  have hunicast : isGroup (dataHeader fcProtected (zeroBody crypto keys.tk)) = false := by
    show decide (staAddr.getD 0 0 &&& 1 ≠ 0) = false
    decide
  have hextended : ¬ ((zeroBody crypto keys.tk).length < 16 ∨ (zeroBody crypto keys.tk).getD 3 0 &&& 0x20 = 0) := by
    rintro (hlt | hzero)
    · omega
    · exact absurd hzero (by decide : ¬ (0x20 : UInt8) &&& 0x20 = 0)
  have hnumber : packetNumber (zeroBody crypto keys.tk) = 0 := rfl
  have hselect : selectKey keys s.marks (dataHeader fcProtected (zeroBody crypto keys.tk)) =
      some (keys.tk, .pairwise (installs s.marks), 0) := by
    unfold selectKey
    rw [hunicast, hcounter]
    rfl
  have hplain : crypto.ccmDecrypt keys.tk (ccmpNonceAad zeroHeader 0).1 (ccmpNonceAad zeroHeader 0).2
      ((zeroBody crypto keys.tk).drop 8) = some [] := hcrypto.decrypt _ _ _ [] (zero_le _)
  have hheader : (dataFrame fcProtected (zeroBody crypto keys.tk)).take 24 = zeroHeader := take_left' rfl
  unfold decrypt
  rw [hk]
  dsimp only [bind_eq_bind, bind_some, dataHeader]
  dsimp only [dataHeader] at hselect hunicast
  refine (if_neg hextended).trans ?_
  rw [hnumber, hselect]
  dsimp only [bind_eq_bind, bind_some]
  rw [if_neg (fun hc => hc.2 rfl), hheader, hplain]
  dsimp only [bind_eq_bind, bind_some]
  unfold Keys.accepted
  rw [hunicast]
  rfl

theorem zero_accepted {crypto : Crypto} (hcrypto : crypto.Opens) {s : Station} {keys : Keys}
    (hreached : Reached crypto staAddr (fun _ _ => True) s) (hcurrent : s.current = some homeBss) (hk : s.ptk = some keys)
    (hcounter : keys.rxPnUnicast = 0) :
    Reached crypto staAddr (fun _ _ => True)
      { s with ptk := some { keys with rxPnUnicast := 0 }, marks := .opened (.pairwise (installs s.marks)) 0 :: s.marks } := by
  have hprotected : (dataHeader fcProtected (zeroBody crypto keys.tk)).flags &&& fcProtected ≠ 0 := dataFlags.2.2.2.2.2.2
  exact reached_onFrame hreached (onFrame_short (dataFrame_of_current hcurrent (.inr rfl) _)
    ((if_pos hprotected).trans (decrypt_zero hcrypto hk hcounter)) (by decide) 0 (-40))

end Station

end HamixOS.Wlan

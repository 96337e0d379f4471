import HamixOS.Wlan.Handshake

namespace HamixOS.Wlan

open Lib List Option KeyMessage Utf8

/-!
# An honest handshake

An access point that answers a `connect` with what the protocol asks for: authentication, association,
the first message with a replay counter of its choice, and the third message for the keys that follow
from the nonce in the reply.  Whether the station gets connected depends on which network of the name it
picks, and on the replay counter it has kept from networks before.

* `Attempt` — the passphrase and the frames of the access point; `Attempt.Proper` says that they are in
  order, `Third` that the third message is;
* `reply_read` — what the access point reads in the reply to the first message;
* `completes_iff` — the station ends up connected with the keys of the access point exactly if it picks
  it and its counter is not ahead.
-/

/-- A frame that is heard. -/
structure Arrival where
  mpdu : Bytes
  rssi : Int
  now : Nat

/-- An answer of the access point `ap` of some kind, addressed to this station. -/
structure Answer (own ap : Bytes) (subtype : UInt8) (mpdu : Bytes) (h : Header) : Prop where
  parsed : parse mpdu = some h
  frameType : h.frameType = typeMgmt
  kind : h.subtype = subtype
  addr1 : h.addr1 = own
  addr2 : h.addr2 = ap
  long : 6 ≤ h.body.length

/-- A message of the handshake from the access point, in the clear. -/
structure KeyFrame (own ap mpdu : Bytes) (data : Bytes) (m : KeyMessage) (h : Header) : Prop where
  parsed : parse mpdu = some h
  frameType : h.frameType = typeData
  fromDs : h.flags &&& fcFromDs ≠ 0
  toDs : h.flags &&& fcToDs = 0
  clear : h.flags &&& fcProtected = 0
  kind : h.subtype &&& 0x04 = 0
  addr1 : h.addr1 = own
  addr2 : h.addr2 = ap
  body : h.body = llcEapol ++ data
  message : keyMessage data = some m

/-- The reply of the station as the access point reads it. -/
structure Reply (own ap mpdu : Bytes) (m : KeyMessage) : Prop where
  read : ∃ h data, parse mpdu = some h ∧ h.frameType = typeData ∧ h.flags &&& fcProtected = 0 ∧ h.addr1 = ap ∧ h.addr2 = own ∧
    h.body = llcEapol ++ data ∧ keyMessage data = some m

structure Attempt where
  ssid : Text
  passphrase : Text
  ap : Bytes
  now : Nat
  auth : Arrival
  assoc : Arrival
  first : Arrival
  replay : Nat
  anonce : Bytes

namespace Attempt

/-- What the access point sends is in order. -/
structure Proper (own : Bytes) (a : Attempt) : Prop where
  named : a.ssid ≠ [] ∧ (Utf8.encode a.ssid).length ≤ 32
  phrase : 8 ≤ (Utf8.encode a.passphrase).length ∧ (Utf8.encode a.passphrase).length ≤ 63
  auth : ∃ h, Answer own a.ap subAuth a.auth.mpdu h ∧ ofLE (slice h.body 2 2) = 2 ∧ ofLE (slice h.body 4 2) = 0
  assoc : ∃ h, Answer own a.ap subAssocResp a.assoc.mpdu h ∧ ofLE (slice h.body 2 2) = 0
  first : ∃ h data m, KeyFrame own a.ap a.first.mpdu data m h ∧ (m.pairwise ∧ m.ack ∧ ¬ m.hasMic) ∧ m.replay = a.replay ∧
    m.nonce = a.anonce

/-- The third message, with the MIC and the group key for `keys`. -/
def Third (crypto : Crypto) (own : Bytes) (a : Attempt) (keys : Keys) (gtk : Fin 4 × Bytes) (mpdu : Bytes) : Prop :=
  ∃ h data m plain, KeyFrame own a.ap mpdu data m h ∧ m.pairwise ∧ m.hasMic ∧ m.encrypted ∧ m.replay = a.replay + 1 ∧
    m.nonce = a.anonce ∧ (crypto.hmacSha1 keys.kck m.check).take 16 = m.mic ∧
    crypto.aesUnwrap keys.kek m.keyData = some plain ∧ findGtk plain = some gtk

variable (crypto : Crypto) (own : Bytes) (a : Attempt) (s : Station)

def pmk : Bytes := crypto.pskFromPassphrase a.passphrase (Utf8.encode a.ssid)

/-- The station after its association. -/
def joined : Station :=
  Station.run crypto own s [.connect a.ssid a.passphrase a.now, .onFrame a.auth.mpdu a.auth.rssi a.auth.now,
    .onFrame a.assoc.mpdu a.assoc.rssi a.assoc.now]

/-- The station after the first message. -/
def answered : Station := (a.joined crypto own s).onFrame crypto own a.first.now a.first.mpdu a.first.rssi

/-- The keys that the access point computes from the nonce of the reply. -/
def keys (snonce : Bytes) : Keys := pairwiseKeys crypto ⟨a.pmk crypto, own, a.ap, a.anonce, snonce⟩

/-- The station replies to the first message, and on the third message for the nonce of its reply it is
    connected with the keys of the access point. -/
def Completes : Prop :=
  ∃ reply m, (a.answered crypto own s).radio = .transmit reply false :: (a.joined crypto own s).radio ∧
    Reply own a.ap reply m ∧
    ∀ (third : Arrival) (gtk : Fin 4 × Bytes), a.Third crypto own (a.keys crypto own m.nonce) gtk third.mpdu →
      let t := (a.answered crypto own s).onFrame crypto own third.now third.mpdu third.rssi
      t.state = .connected ∧ ∃ keys, t.ptk = some keys ∧ keys.tk = (a.keys crypto own m.nonce).tk ∧ keys.gtk = some gtk

/-- The strongest network of the name is that of the access point, with WPA2-PSK and CCMP. -/
def Picks : Prop :=
  ∃ b, strongest (s.bss.filter fun b => b.ssid = a.ssid) = some b ∧ b.bssid = a.ap ∧ b.security = .wpa2 ∧
    rsnSupportsCcmpPsk b.rsnIe = true

end Attempt

/-! ### The frames of the handshake -/

theorem length_buildHeader (frameType subtype flags : UInt8) {addr1 addr2 addr3 : Bytes} (sequence : UInt16) (h1 : addr1.length = 6)
    (h2 : addr2.length = 6) (h3 : addr3.length = 6) :
    (buildHeader frameType subtype flags addr1 addr2 addr3 sequence).length = 24 := by
  simp only [buildHeader, length_append, length_toLE, h1, h2, h3, length_cons, length_nil]

theorem slice_append_right {x y : Bytes} {o n : Nat} (h : x.length = o) : slice (x ++ y) o n = slice y 0 n := by
  unfold slice
  rw [drop_left' h, drop_zero]

theorem slice_append_self {x y : Bytes} {n : Nat} (h : x.length = n) : slice (x ++ y) 0 n = x := by
  unfold slice
  rw [drop_zero, take_left' h]

/-- The header of a data frame to the access point. -/
theorem parse_toDs {addr1 addr2 addr3 : Bytes} (h1 : addr1.length = 6) (h2 : addr2.length = 6) (h3 : addr3.length = 6)
    (sequence : UInt16) (body : Bytes) : ∃ h, parse (buildHeader typeData 0 fcToDs addr1 addr2 addr3 sequence ++ body) = some h ∧
      h.frameType = typeData ∧ h.flags &&& fcProtected = 0 ∧ h.addr1 = addr1 ∧ h.addr2 = addr2 ∧ h.body = body := by
  have hlen := length_buildHeader typeData 0 fcToDs sequence h1 h2 h3
  have hbody : (buildHeader typeData 0 fcToDs addr1 addr2 addr3 sequence ++ body).drop 24 = body := drop_left' hlen
  have hlong : ¬ (buildHeader typeData 0 fcToDs addr1 addr2 addr3 sequence ++ body).length < 24 := by
    rw [length_append]
    omega
  have hcontrol : (buildHeader typeData 0 fcToDs addr1 addr2 addr3 sequence ++ body).getD 0 0 = 8 := rfl
  have hflags : (buildHeader typeData 0 fcToDs addr1 addr2 addr3 sequence ++ body).getD 1 0 = fcToDs := rfl
  have haddr1 : slice (buildHeader typeData 0 fcToDs addr1 addr2 addr3 sequence ++ body) 4 6 = addr1 := by
    simp only [buildHeader, append_assoc]
    rw [slice_append_right (o := 4) rfl, slice_append_self h1]
  have haddr2 : slice (buildHeader typeData 0 fcToDs addr1 addr2 addr3 sequence ++ body) 10 6 = addr2 := by
    simp only [buildHeader, append_assoc]
    rw [← append_assoc, slice_append_right (o := 10) (by rw [length_append, h1]; rfl), slice_append_self h2]
  generalize buildHeader typeData 0 fcToDs addr1 addr2 addr3 sequence ++ body = frame at *
  have hheader : headerLength (((8 : UInt8) >>> 2) &&& 3) ((8 : UInt8) >>> 4) fcToDs = 24 := by decide
  unfold parse
  rw [if_neg hlong]
  simp only [hcontrol, hflags, hheader]
  rw [if_neg hlong]
  refine ⟨_, rfl, ?_, ?_, haddr1, haddr2, hbody⟩
  · exact show ((8 : UInt8) >>> 2) &&& 3 = typeData by decide
  · exact show fcToDs &&& fcProtected = 0 by decide

variable {h : Header}

/-- The flags of a frame are its second byte. -/
theorem flags_of_parse {frame : Bytes} (hparse : parse frame = some h) : h.flags = frame.getD 1 0 := by
  unfold parse at hparse
  dsimp only at hparse
  split at hparse
  · cases hparse
  split at hparse
  · cases hparse
  obtain rfl := some.inj hparse
  rfl

theorem length_addrs {frame : Bytes} (hparse : parse frame = some h) : h.addr1.length = 6 ∧ h.addr2.length = 6 := by
  unfold parse at hparse
  dsimp only at hparse
  split at hparse
  · cases hparse
  next hlong =>
  split at hparse
  · cases hparse
  obtain rfl := some.inj hparse
  exact ⟨length_slice (by omega), length_slice (by omega)⟩

/-- The second message of the handshake as it is read. -/
theorem keyMessage_second (replay : Nat) {snonce : Bytes} (keyData : Bytes) (hnonce : snonce.length = 32) (hdata : keyData.length = 22) :
    ∃ m, keyMessage (eapolKeyFrame 0x010A replay snonce keyData) = some m ∧ m.nonce = snonce := by
  have hlen : (eapolKeyFrame 0x010A replay snonce keyData).length = 121 := by
    simp only [eapolKeyFrame, length_append, length_reverse, length_toLE, length_zeros, hnonce, hdata, length_cons,
      length_nil]
  have hversion : (eapolKeyFrame 0x010A replay snonce keyData).getD 1 0 = 3 := rfl
  have hkind : (eapolKeyFrame 0x010A replay snonce keyData).getD 4 0 = 2 := rfl
  have hsize : slice (eapolKeyFrame 0x010A replay snonce keyData) 97 2 = (toLE 2 22).reverse := by
    unfold eapolKeyFrame
    rw [append_assoc, slice_append_right, hdata, slice_append_self (by rw [length_reverse, length_toLE])]
    simp only [length_append, length_reverse, length_toLE, length_zeros, hnonce, length_cons, length_nil]
  have hread : slice (eapolKeyFrame 0x010A replay snonce keyData) 17 32 = snonce := by
    unfold eapolKeyFrame
    simp only [append_assoc]
    rw [← append_assoc, ← append_assoc, ← append_assoc, ← append_assoc, ← append_assoc,
      slice_append_right, slice_append_self hnonce]
    simp only [length_append, length_reverse, length_toLE, length_cons, length_nil]
  generalize eapolKeyFrame 0x010A replay snonce keyData = frame at *
  unfold keyMessage
  rw [if_neg (by rw [hlen, hversion, hkind]; decide)]
  dsimp only
  rw [hsize, if_neg (by rw [hlen, reverse_reverse, ofLE_toLE]; decide)]
  exact ⟨_, rfl, hread⟩

theorem length_drawNonce (rng : UInt64) : (drawNonce rng).1.length = 32 := by
  simp only [drawNonce, length_append, length_toLE]

namespace Station

variable {crypto : Crypto} {own ap : Bytes} {now : Nat} {s : Station}

/-! ### What the station does on each frame -/

/-- The reply goes out to the access point in the clear. -/
theorem sendEapol_reply (crypto : Crypto) (own : Bytes) {bss : Bss} (hcurrent : s.current = some bss) (hstate : s.state ≠ .connected) (eapol kck : Bytes) :
    ∃ sequence, (s.sendEapol crypto own eapol kck).radio =
      .transmit (buildHeader typeData 0 fcToDs bss.bssid own bss.bssid sequence ++
        (llcEapol ++ splice eapol 81 ((crypto.hmacSha1 kck eapol).take 16))) false :: s.radio := by
  have hkeys : s.nextSequence.sendingKeys = none := if_neg hstate
  refine ⟨s.nextSequence.sequence, ?_⟩
  unfold sendEapol
  rw [hcurrent]
  dsimp only
  unfold sendData
  dsimp only
  rw [hkeys]
  rfl

/-- While it is connected with keys it is protected. -/
theorem sendEapol_protected (crypto : Crypto) (own : Bytes) {bss : Bss} {keys : Keys} (hcurrent : s.current = some bss) (hstate : s.state = .connected)
    (hkeys : s.ptk = some keys) (eapol kck : Bytes) :
    ∃ frame, (s.sendEapol crypto own eapol kck).radio = .transmit frame false :: s.radio ∧ frame.getD 1 0 &&& fcProtected ≠ 0 := by
  have hsending : s.nextSequence.sendingKeys = some keys := (if_pos hstate).trans hkeys
  unfold sendEapol
  rw [hcurrent]
  dsimp only
  unfold sendData
  dsimp only
  rw [hsending]
  refine ⟨_, rfl, ?_⟩
  exact show (fcToDs ||| fcProtected) &&& fcProtected ≠ 0 by decide

/-- A frame of this kind is none of the others. -/
theorem onFrame_auth {mpdu : Bytes} (ha : Answer own ap subAuth mpdu h) (rssi : Int) :
    s.onFrame crypto own now mpdu rssi = if s.state = .authenticating then s.onAuth own now h else s := by
  unfold onFrame
  rw [ha.parsed]
  simp only [ha.frameType, ha.kind, ha.addr1, true_and]
  rw [if_neg (by decide)]
  by_cases hstate : s.state = .authenticating
  · rw [if_pos hstate, if_pos hstate]
  · rw [if_neg hstate, if_neg hstate, if_neg (fun hc => absurd hc.1 (by decide)), if_neg (by decide),
      if_neg (fun hc => absurd hc.1 (by decide))]

theorem onFrame_assocResp {mpdu : Bytes} (ha : Answer own ap subAssocResp mpdu h) (rssi : Int) :
    s.onFrame crypto own now mpdu rssi = if s.state = .associating then s.onAssocResp own now h else s := by
  unfold onFrame
  rw [ha.parsed]
  simp only [ha.frameType, ha.kind, ha.addr1, true_and]
  rw [if_neg (by decide), if_neg (fun hc => absurd hc.1 (by decide))]
  by_cases hstate : s.state = .associating
  · rw [if_pos hstate, if_pos hstate]
  · rw [if_neg hstate, if_neg hstate, if_neg (by decide), if_neg (fun hc => absurd hc.1 (by decide))]

theorem dataFrame_of_keyFrame {mpdu data : Bytes} {m : KeyMessage} (hk : KeyFrame own ap mpdu data m h)
    (hcurrent : s.current.map Bss.bssid = some ap) : DataFrame own mpdu h s := by
  refine ⟨hk.parsed, hk.frameType, hk.fromDs, hk.toDs, ?_⟩
  exact decide_eq_true ⟨hk.kind, by rw [hcurrent, hk.addr2], .inl hk.addr1⟩

/-- A message from another network is not for the station. -/
theorem onFrame_other {mpdu data : Bytes} {m : KeyMessage} (hk : KeyFrame own ap mpdu data m h)
    (hcurrent : s.current.map Bss.bssid ≠ some ap) (rssi : Int) : s.onFrame crypto own now mpdu rssi = s := by
  rw [onFrame_data hk.parsed hk.frameType hk.fromDs hk.toDs]
  unfold onData
  rw [if_neg]
  intro hap
  exact hcurrent ((of_decide_eq_true hap).2.1.trans (congrArg some hk.addr2))

/-! ### Connecting -/

/-- A network that the station can join with a passphrase. -/
def Joinable (b : Bss) : Prop := b.security = .clear ∨ b.security = .wpa2 ∧ rsnSupportsCcmpPsk b.rsnIe = true

/-- What `connect` leaves: it is on its way to the strongest network of the name, or to none. -/
structure Connecting (s t : Station) (ssid : Text) (pmk : Bytes) : Prop where
  replay : t.replay = s.replay
  ptk : t.ptk = none
  picked : (∃ b, strongest (s.bss.filter fun b => b.ssid = ssid) = some b ∧ Joinable b ∧ t.current = some b ∧
      t.state = .authenticating ∧ t.target = some ⟨ssid, some pmk⟩) ∨
    ((∀ b, strongest (s.bss.filter fun b => b.ssid = ssid) = some b → ¬ Joinable b) ∧ t.current = none ∧
      (t.state = .idle ∨ t.state = .scanning))

theorem leave_same (own : Bytes) (s : Station) : (s.leave own).current = none ∧ (s.leave own).replay = s.replay ∧ (s.leave own).bss = s.bss ∧
    (s.leave own).state = s.state := by
  unfold leave
  cases hc : s.current with
  | none => exact ⟨hc, rfl, rfl, rfl⟩
  | some bss =>
    dsimp only
    split
    · exact ⟨rfl, rfl, rfl, rfl⟩
    · exact ⟨rfl, rfl, rfl, rfl⟩

theorem beginAuth_connecting {ssid : Text} {pmk : Bytes} {t : Station} (htarget : t.target = some ⟨ssid, some pmk⟩)
    (hcurrent : t.current = none) (hptk : t.ptk = none) (hbss : t.bss = s.bss) (hreplay : t.replay = s.replay) :
    Connecting s (t.beginAuth own now) ssid pmk := by
  unfold beginAuth
  rw [htarget]
  dsimp only
  rw [hbss]
  cases hbest : strongest (s.bss.filter fun b => b.ssid = ssid) with
  | none => exact ⟨hreplay, hptk, .inr ⟨fun b hb => (by cases hbest.symm.trans hb), hcurrent, .inl rfl⟩⟩
  | some b =>
    dsimp only
    split
    next hbad =>
      refine ⟨hreplay, hptk, .inr ⟨fun b' hb => ?_, hcurrent, .inl rfl⟩⟩
      obtain rfl := some.inj (hbest.symm.trans hb)
      rintro (hclear | ⟨-, hccmp⟩)
      · rw [hbad.1] at hclear
        cases hclear
      · rcases hbad.2 with hnone | hno
        · cases hnone
        · rw [hccmp] at hno
          cases hno
    next hgood =>
    split
    next hold =>
      refine ⟨hreplay, hptk, .inr ⟨fun b' hb => ?_, hcurrent, .inl rfl⟩⟩
      obtain rfl := some.inj (hbest.symm.trans hb)
      rintro (hclear | ⟨hwpa2, -⟩)
      · rw [hclear] at hold
        rcases hold with h | h <;> cases h
      · rw [hwpa2] at hold
        rcases hold with h | h <;> cases h
    next hnew =>
      refine ⟨hreplay, hptk, .inl ⟨b, hbest, ?_, rfl, rfl, htarget⟩⟩
      cases hsec : b.security with
      | clear => exact .inl hsec
      | wep => exact absurd (.inl hsec) hnew
      | wpa => exact absurd (.inr hsec) hnew
      | wpa2 =>
        refine .inr ⟨hsec, ?_⟩
        by_contra hno
        exact hgood ⟨hsec, .inr (by simpa using hno)⟩

theorem startScan_connecting {ssid : Text} {pmk : Bytes} {t : Station} (hstate : t.state = .idle) (hcurrent : t.current = none)
    (hptk : t.ptk = none) (hreplay : t.replay = s.replay) (hnone : strongest (s.bss.filter fun b => b.ssid = ssid) = none) :
    Connecting s (t.startScan own now) ssid pmk := by
  unfold startScan
  rw [if_pos (.inl hstate)]
  exact ⟨hreplay, hptk, .inr ⟨fun b hb => (by cases hnone.symm.trans hb), hcurrent, .inr rfl⟩⟩

theorem strongest_none {l : List Bss} (h : l = []) : strongest l = none := by
  subst h
  rfl

theorem disconnect_same (own : Bytes) (s : Station) : (s.disconnect own).current = none ∧ (s.disconnect own).ptk = none ∧
    (s.disconnect own).replay = s.replay ∧ (s.disconnect own).bss = s.bss := by
  obtain ⟨hcurrent, hreplay, hbss, -⟩ := leave_same own s
  rw [disconnect_eq]
  exact ⟨hcurrent, rfl, hreplay, hbss⟩

theorem connect_connecting (crypto : Crypto) (own : Bytes) (now : Nat) {ssid passphrase : Text} (hs : s.state ≠ .disabled) (hssid : ssid ≠ [] ∧ (encode ssid).length ≤ 32)
    (hphrase : 8 ≤ (encode passphrase).length ∧ (encode passphrase).length ≤ 63) :
    ∃ t, s.connect crypto own now ssid passphrase = .ok t ∧
      Connecting s t ssid (crypto.pskFromPassphrase passphrase (encode ssid)) := by
  have hne : passphrase ≠ [] := by
    rintro rfl
    exact absurd hphrase.1 (by decide)
  obtain ⟨hleft, hptk, hreplay, hbss⟩ := disconnect_same own s
  have hpmk : pmkOf crypto ssid passphrase = some (crypto.pskFromPassphrase passphrase (encode ssid)) := if_neg hne
  have hname : ¬ (ssid = [] ∨ 32 < (encode ssid).length) := by
    rintro (h | h)
    · exact hssid.1 h
    · exact absurd h (not_lt.mpr hssid.2)
  have hlength : ¬ (passphrase ≠ [] ∧ ((encode passphrase).length < 8 ∨ 63 < (encode passphrase).length)) := by
    rintro ⟨-, h | h⟩
    · exact absurd h (not_lt.mpr hphrase.1)
    · exact absurd h (not_lt.mpr hphrase.2)
  unfold connect
  rw [if_neg hs, if_neg hname, if_neg hlength]
  dsimp only
  rw [hpmk]
  generalize s.disconnect own = d at *
  split
  · refine ⟨_, rfl, beginAuth_connecting ?_ ?_ ?_ ?_ ?_⟩
    · exact rfl
    · exact hleft
    · exact hptk
    · exact hbss
    · exact hreplay
  next hany =>
    refine ⟨_, rfl, startScan_connecting ?_ ?_ ?_ ?_ (strongest_none ?_)⟩
    · exact rfl
    · exact hleft
    · exact hptk
    · exact hreplay
    · rw [filter_eq_nil_iff]
      intro b hb hname
      refine hany (any_eq_true.mpr ⟨b, ?_, hname⟩)
      exact show b ∈ d.bss from hbss ▸ hb

end Station

namespace Attempt

open Station

variable {crypto : Crypto} {own : Bytes} {a : Attempt} {s : Station}

/-- The station after its association: with a network that it could join, or with none. -/
structure Associated (crypto : Crypto) (a : Attempt) (s t : Station) : Prop where
  replay : t.replay = s.replay
  picked : (∃ b, strongest (s.bss.filter fun b => b.ssid = a.ssid) = some b ∧ Joinable b ∧ Joined t b (a.pmk crypto) ∧
      t.state = (if b.security = .wpa2 then .handshake else .connected)) ∨
    ((∀ b, strongest (s.bss.filter fun b => b.ssid = a.ssid) = some b → ¬ Joinable b) ∧ t.current = none)

theorem associated (crypto : Crypto) (hs : s.state ≠ .disabled) (ha : a.Proper own) : Associated crypto a s (a.joined crypto own s) := by
  obtain ⟨t, hconnect, hc⟩ := connect_connecting crypto own a.now hs ha.named ha.phrase
  obtain ⟨hauth, hanswer, hseq, hstatus⟩ := ha.auth
  obtain ⟨hassoc, hanswer', hstatus'⟩ := ha.assoc
  have hrun : a.joined crypto own s = (t.onFrame crypto own a.auth.now a.auth.mpdu a.auth.rssi).onFrame crypto own a.assoc.now
      a.assoc.mpdu a.assoc.rssi := by
    unfold joined run
    simp only [foldl_cons, foldl_nil, step, hconnect]
  rw [hrun, onFrame_auth hanswer, onFrame_assocResp hanswer']
  rcases hc.picked with ⟨b, hbest, hjoin, hcurrent, hstate, htarget⟩ | ⟨hno, hcurrent, hstate⟩
  · rw [if_pos hstate]
    have hsend : t.onAuth own a.auth.now hauth = t.sendAssoc own a.auth.now := by
      unfold onAuth
      rw [if_neg (not_lt.mpr hanswer.long)]
      dsimp only
      rw [if_pos ⟨hseq, hstatus⟩]
    obtain ⟨u, hu, hureplay, hucurrent, hustate, hutarget⟩ : ∃ u, t.sendAssoc own a.auth.now = u ∧ u.replay = s.replay ∧
        u.current = some b ∧ u.state = .associating ∧ u.target = some ⟨a.ssid, some (a.pmk crypto)⟩ := by
      refine ⟨_, rfl, ?_⟩
      unfold sendAssoc
      rw [hcurrent]
      exact ⟨hc.replay, hcurrent, rfl, htarget⟩
    rw [hsend, hu, if_pos hustate]
    unfold onAssocResp
    rw [if_neg (not_lt.mpr hanswer'.long), if_neg (not_not.mpr hstatus')]
    dsimp only
    have hsecured : ({ u with lastBeacon := a.assoc.now } : Station).secured = decide (b.security = .wpa2) := by
      unfold secured
      rw [show ({ u with lastBeacon := a.assoc.now } : Station).current = some b from hucurrent]
      rfl
    rw [hsecured]
    by_cases hwpa2 : b.security = .wpa2
    · rw [if_pos (decide_eq_true hwpa2)]
      refine ⟨hureplay, .inl ⟨b, hbest, hjoin, ⟨hucurrent, ?_⟩, (if_pos hwpa2).symm⟩⟩
      exact congrArg (fun o : Option Target => o.bind fun t => t.pmk) hutarget
    · rw [if_neg (by simpa using hwpa2)]
      refine ⟨hureplay, .inl ⟨b, hbest, hjoin, ⟨hucurrent, ?_⟩, (if_neg hwpa2).symm⟩⟩
      exact congrArg (fun o : Option Target => o.bind fun t => t.pmk) hutarget
  · have hauthing : t.state ≠ .authenticating := by
      rcases hstate with h | h <;> rw [h] <;> decide
    have hassociating : t.state ≠ .associating := by
      rcases hstate with h | h <;> rw [h] <;> decide
    rw [if_neg hauthing, if_neg hassociating]
    exact ⟨hc.replay, .inr ⟨hno, hcurrent⟩⟩

/-! ### The handshake -/

/-- Without a reply the handshake is over. -/
theorem not_completes (h : a.answered crypto own s = a.joined crypto own s) : ¬ a.Completes crypto own s := by
  rintro ⟨reply, m, hradio, -, -⟩
  rw [h] at hradio
  have hlen := congrArg List.length hradio
  rw [length_cons] at hlen
  omega

/-- The first message does nothing at a station that is with another network. -/
theorem answered_other (ha : a.Proper own) (hother : (a.joined crypto own s).current.map Bss.bssid ≠ some a.ap) :
    a.answered crypto own s = a.joined crypto own s := by
  obtain ⟨h, data, m, hframe, -⟩ := ha.first
  exact onFrame_other hframe hother _

/-- At a station that is with the access point it is the first message of the handshake. -/
theorem answered_message1 (ha : a.Proper own) {b : Bss} (hj : Joined (a.joined crypto own s) b (a.pmk crypto)) (hap : b.bssid = a.ap) :
    ∃ m : KeyMessage, m.replay = a.replay ∧ m.nonce = a.anonce ∧ a.answered crypto own s =
      (a.joined crypto own s).onMessage1 crypto own a.first.now (a.pmk crypto) a.ap m := by
  obtain ⟨h, data, m, hframe, hfirst, hreplay, hnonce⟩ := ha.first
  have hcurrent : (a.joined crypto own s).current.map Bss.bssid = some a.ap := by rw [hj.current, map_some, hap]
  refine ⟨m, hreplay, hnonce, ?_⟩
  unfold answered
  rw [onFrame_eapol (dataFrame_of_keyFrame hframe hcurrent) hframe.clear hframe.body, onEapol_message1 hframe.message hj hfirst, hap]

/-- A message that is behind the counter is dropped. -/
theorem onMessage1_stale {t : Station} {m : KeyMessage} (h : m.replay < t.replay ∧ t.replay ≠ 0) (now : Nat) (pmk bssid : Bytes) :
    t.onMessage1 crypto own now pmk bssid m = t := by
  unfold onMessage1
  rw [if_pos h]

/-- A connected station without a password protects its reply with the new keys. -/
theorem not_completes_clear (ha : a.Proper own) {b : Bss} (hj : Joined (a.joined crypto own s) b (a.pmk crypto)) (hap : b.bssid = a.ap)
    (hstate : (a.joined crypto own s).state = .connected) : ¬ a.Completes crypto own s := by
  obtain ⟨m, -, -, hanswered⟩ := answered_message1 ha hj hap
  by_cases hstale : m.replay < (a.joined crypto own s).replay ∧ (a.joined crypto own s).replay ≠ 0
  · exact not_completes (hanswered.trans (onMessage1_stale hstale _ _ _))
  · rintro ⟨reply, m', hradio, ⟨h, data, hparse, -, hclear, -⟩, -⟩
    obtain ⟨frame, hsent, hprotected⟩ := sendEapol_protected crypto own (s := (a.joined crypto own s).install crypto m ⟨a.pmk crypto, own, a.ap, m.nonce, (drawNonce (a.joined crypto own s).rng).1⟩)
      hj.current hstate rfl
      (eapolKeyFrame 0x010A m.replay (drawNonce (a.joined crypto own s).rng).1 ([ieRsn, 20] ++ rsnIeCcmpPsk))
      (pairwiseKeys crypto ⟨a.pmk crypto, own, a.ap, m.nonce, (drawNonce (a.joined crypto own s).rng).1⟩).kck
    have hsame : (a.answered crypto own s).radio = .transmit frame false :: (a.joined crypto own s).radio := by
      rw [hanswered]
      unfold onMessage1
      rw [if_neg hstale]
      exact hsent
    rw [hsame] at hradio
    obtain ⟨rfl, -⟩ : frame = reply ∧ True := by
      injection hradio with hhead
      injection hhead with hframe
      exact ⟨hframe, trivial⟩
    rw [flags_of_parse hparse] at hclear
    exact hprotected hclear

/-- What the access point reads in the reply to the first message. -/
theorem reply_read (crypto : Crypto) {ap : Bytes} (hown : own.length = 6) (hap : ap.length = 6) (sequence : UInt16) (replay : Nat) {snonce : Bytes}
    (hnonce : snonce.length = 32) (kck : Bytes) : ∃ m, Reply own ap (buildHeader typeData 0 fcToDs ap own ap sequence ++
      (llcEapol ++ splice (eapolKeyFrame 0x010A replay snonce ([ieRsn, 20] ++ rsnIeCcmpPsk)) 81
        ((crypto.hmacSha1 kck (eapolKeyFrame 0x010A replay snonce ([ieRsn, 20] ++ rsnIeCcmpPsk))).take 16))) m ∧ m.nonce = snonce := by
  obtain ⟨m, hm, hread⟩ := keyMessage_second replay ([ieRsn, 20] ++ rsnIeCcmpPsk) hnonce rfl
  obtain ⟨h, hparse, htype, hclear, ha1, ha2, hbody⟩ := parse_toDs hap hown hap sequence
    (llcEapol ++ splice (eapolKeyFrame 0x010A replay snonce ([ieRsn, 20] ++ rsnIeCcmpPsk)) 81
      ((crypto.hmacSha1 kck (eapolKeyFrame 0x010A replay snonce ([ieRsn, 20] ++ rsnIeCcmpPsk))).take 16))
  refine ⟨_, ⟨h, _, hparse, htype, hclear, ha1, ha2, hbody, keyMessage_splice ?_ hm⟩, hread⟩
  rw [length_take, crypto.length_hmacSha1]
  rfl

/-- The first message, fresh at a station that waits for it. -/
theorem completes_of_fresh (ha : a.Proper own) {b : Bss} (hj : Joined (a.joined crypto own s) b (a.pmk crypto)) (hap : b.bssid = a.ap)
    (hstate : (a.joined crypto own s).state = .handshake)
    (hfresh : (a.joined crypto own s).replay = 0 ∨ (a.joined crypto own s).replay ≤ a.replay) : a.Completes crypto own s := by
  obtain ⟨m, hreplay, hnonce, hanswered⟩ := answered_message1 ha hj hap
  generalize hjoined : a.joined crypto own s = t at *
  have hold : ¬ (m.replay < t.replay ∧ t.replay ≠ 0) := by omega
  have hclear : t.state ≠ .connected := by
    rw [hstate]
    decide
  obtain ⟨sequence, radio, deadline, hmessage⟩ := onMessage1_clear crypto own a.first.now hclear hold (a.pmk crypto) a.ap
  have hlengths : own.length = 6 ∧ a.ap.length = 6 := by
    obtain ⟨h, hanswer, -⟩ := ha.auth
    rw [← hanswer.addr1, ← hanswer.addr2]
    exact length_addrs hanswer.parsed
  obtain ⟨sequence', hsent⟩ := sendEapol_reply crypto own (s := t.install crypto m ⟨a.pmk crypto, own, a.ap, m.nonce, (drawNonce t.rng).1⟩) hj.current hclear
    (eapolKeyFrame 0x010A m.replay (drawNonce t.rng).1 ([ieRsn, 20] ++ rsnIeCcmpPsk))
    (pairwiseKeys crypto ⟨a.pmk crypto, own, a.ap, m.nonce, (drawNonce t.rng).1⟩).kck
  rw [hap] at hsent
  obtain ⟨m', hread, hsnonce⟩ := reply_read crypto hlengths.1 hlengths.2 sequence' m.replay (length_drawNonce t.rng)
    (pairwiseKeys crypto ⟨a.pmk crypto, own, a.ap, m.nonce, (drawNonce t.rng).1⟩).kck
  refine ⟨_, m', ?_, hread, fun third gtk hthird => ?_⟩
  · rw [hanswered, hjoined]
    unfold onMessage1
    rw [if_neg hold]
    exact hsent
  · obtain ⟨h, data, m₃, plain, hframe, hpair, hmic, henc, hnext, hanonce, hcheck, hunwrap, hgtk⟩ := hthird
    rw [hsnonce] at hcheck hunwrap ⊢
    unfold keys at hcheck hunwrap ⊢
    rw [← hnonce] at hcheck hunwrap ⊢
    dsimp only
    rw [hanswered, hmessage]
    generalize hu : ({ t.install crypto m ⟨a.pmk crypto, own, a.ap, m.nonce, (drawNonce t.rng).1⟩ with
      sequence := sequence, radio := radio, state := .handshake, deadline := deadline } : Station) = u
    have hustate : u.state ≠ .connected := by
      rw [← hu]
      exact fun hc => by cases hc
    have hucurrent : u.current = some b := by
      rw [← hu]
      exact hj.current
    have huptk : u.ptk = some (pairwiseKeys crypto ⟨a.pmk crypto, own, a.ap, m.nonce, (drawNonce t.rng).1⟩) := by
      rw [← hu]
      rfl
    have hverified : Verified crypto u data m₃ (pairwiseKeys crypto ⟨a.pmk crypto, own, a.ap, m.nonce, (drawNonce t.rng).1⟩)
        plain := by
      refine ⟨hframe.message, ⟨b, a.pmk crypto, hucurrent, ?_⟩, huptk, hcheck, ?_, ?_⟩
      · rw [← hu]
        exact hj.pmk
      · have hureplay : u.replay = m.replay := by rw [← hu]; rfl
        omega
      · unfold keyDataOf
        rw [if_pos henc]
        exact hunwrap
    have huap : u.current.map Bss.bssid = some a.ap := by rw [hucurrent, map_some, hap]
    rw [onFrame_eapol (dataFrame_of_keyFrame hframe huap) hframe.clear hframe.body, onEapol_message3 hverified hmic hpair]
    have huanonce : m₃.nonce = ({ u with replay := m₃.replay } : Station).anonce := by
      rw [hanonce, ← hnonce, ← hu]
      rfl
    obtain ⟨sequence₃, radio₃, hdone⟩ := onMessage3_clear (s := { u with replay := m₃.replay }) crypto own third.now hustate huanonce data
      (pairwiseKeys crypto ⟨a.pmk crypto, own, a.ap, m.nonce, (drawNonce t.rng).1⟩) (findGtk plain)
    rw [hdone]
    refine ⟨rfl, { pairwiseKeys crypto ⟨a.pmk crypto, own, a.ap, m.nonce, (drawNonce t.rng).1⟩ with gtk := findGtk plain }, ?_, rfl, hgtk⟩
    exact congrArg (Option.map fun keys : Keys => { keys with gtk := findGtk plain }) huptk

/-- The handshake with an access point that does its part completes exactly if the station picks it and
    no first message before had a larger replay counter. -/
theorem completes_iff (hs : s.state ≠ .disabled) (ha : a.Proper own) :
    a.Completes crypto own s ↔ a.Picks s ∧ (s.replay = 0 ∨ s.replay ≤ a.replay) := by
  have hassociated := associated crypto hs ha
  rcases hassociated.picked with ⟨b, hbest, hjoin, hj, hstate⟩ | ⟨hno, hcurrent⟩
  · by_cases hap : b.bssid = a.ap
    · rcases hjoin with hclear | ⟨hwpa2, hccmp⟩
      · rw [if_neg (by rw [hclear]; decide)] at hstate
        refine ⟨fun h => absurd h (not_completes_clear ha hj hap hstate), ?_⟩
        rintro ⟨⟨b', hb', -, hwpa2, -⟩, -⟩
        obtain rfl := some.inj (hbest.symm.trans hb')
        rw [hclear] at hwpa2
        cases hwpa2
      · rw [if_pos hwpa2] at hstate
        rw [← hassociated.replay]
        refine ⟨fun h => ⟨⟨b, hbest, hap, hwpa2, hccmp⟩, ?_⟩, fun h => completes_of_fresh ha hj hap hstate h.2⟩
        by_contra hstale
        obtain ⟨m, hreplay, -, hanswered⟩ := answered_message1 ha hj hap
        refine not_completes (hanswered.trans (onMessage1_stale ?_ _ _ _)) h
        omega
    · refine ⟨fun h => absurd h (not_completes (answered_other ha ?_)), ?_⟩
      · rw [hj.current]
        exact fun hc => hap (some.inj hc)
      · rintro ⟨⟨b', hb', hap', -⟩, -⟩
        obtain rfl := some.inj (hbest.symm.trans hb')
        exact absurd hap' hap
  · refine ⟨fun h => absurd h (not_completes (answered_other ha ?_)), ?_⟩
    · rw [hcurrent]
      exact fun hc => by cases hc
    · rintro ⟨⟨b, hb, -, hwpa2, hccmp⟩, -⟩
      exact absurd (.inr ⟨hwpa2, hccmp⟩) (hno b hb)

/-! ### A larger counter before -/

/-- The access point of the runs, with a first message of counter 1. -/
def home : Attempt where
  ssid := homeAp
  passphrase := battery
  ap := apAddr
  now := 0
  auth := ⟨mgmtFrame subAuth staAddr [0, 0, 2, 0, 0, 0], -40, 0⟩
  assoc := ⟨mgmtFrame subAssocResp staAddr [0x11, 0x04, 0, 0, 1, 0xC0], -40, 0⟩
  first := ⟨dataFrame 0 (llcEapol ++ firstMessage), -40, 0⟩
  replay := 1
  anonce := anonceSent

theorem home_proper : home.Proper staAddr where
  named := ⟨nofun, by decide⟩
  phrase := by decide
  auth := ⟨_, ⟨rfl, rfl, rfl, rfl, rfl, le_refl 6⟩, rfl, rfl⟩
  assoc := ⟨_, ⟨rfl, rfl, rfl, rfl, rfl, le_refl 6⟩, rfl⟩
  first := by
    have hpair : hasMic ⟨0x008A, 1, anonceSent, zeros 16, [], firstMessage⟩ ↔ False := by
      unfold hasMic
      rw [keyInfoBits.2.2.1]
      exact ⟨nofun, nofun⟩
    refine ⟨dataHeader 0 (llcEapol ++ firstMessage), firstMessage, _, ⟨?_, rfl, dataFlags.2.1, dataFlags.2.2.1, dataFlags.2.2.2.1,
      dataFlags.1, rfl, rfl, rfl, keyMessage_first⟩, ⟨keyInfoBits.1, keyInfoBits.2.1, hpair.mp⟩, rfl, rfl⟩
    exact parse_append (buildHeader typeData 0 fcFromDs staAddr apAddr apAddr 5) rfl (h := dataHeader 0 []) rfl rfl _

/-- The station with a passphrase that waits for its first message. -/
theorem home_picked (crypto : Crypto) : home.Picks (Station.joined crypto) :=
  ⟨homeBss, rfl, rfl, rfl, by decide +kernel⟩

theorem completes_iff_joined :
    (Station.joined Crypto.mute).state ≠ .disabled ∧ home.Proper staAddr ∧ home.Completes Crypto.mute staAddr (Station.joined Crypto.mute) := by
  have hstate : (Station.joined Crypto.mute).state ≠ .disabled := nofun
  exact ⟨hstate, home_proper, (completes_iff hstate home_proper).mpr ⟨home_picked Crypto.mute, .inl rfl⟩⟩

/-- The first message of an earlier association, with counter 5. -/
def earlierMessage : Bytes := eapolKeyFrame 0x008A 5 anonceSent []

theorem keyMessage_earlier : keyMessage earlierMessage = some ⟨0x008A, 5, anonceSent, zeros 16, [], earlierMessage⟩ := by
  decide +kernel

/-- The station keeps the counter of the association that it leaves. -/
theorem handshake_refused : ¬ ∃ crypto, ∀ s, Reached crypto staAddr (fun _ _ => True) s → s.state ≠ .disabled → ∀ a : Attempt,
    a.Proper staAddr → a.Picks s → a.Completes crypto staAddr s := by
  rintro ⟨crypto, hall⟩
  have hreached : Reached crypto staAddr (fun _ _ => True) (Station.joined crypto) := reached_run (Reach.start ⟨7, rfl⟩)
  have hjoined : Joined (Station.joined crypto) homeBss (crypto.pskFromPassphrase battery (Utf8.encode homeAp)) := ⟨rfl, rfl⟩
  have hframe : (Station.joined crypto).onFrame crypto staAddr 0 (dataFrame 0 (llcEapol ++ earlierMessage)) (-40) =
      (Station.joined crypto).onEapol crypto staAddr 0 earlierMessage :=
    onFrame_eapol (dataFrame_of_current hjoined.current (.inl rfl) _) dataFlags.2.2.2.1 rfl _
  rw [onEapol_message1 keyMessage_earlier hjoined ⟨keyInfoBits.1, keyInfoBits.2.1,
    by unfold KeyMessage.hasMic; rw [keyInfoBits.2.2.1]; exact nofun⟩] at hframe
  obtain ⟨sequence, radio, deadline, hmessage⟩ := onMessage1_clear crypto staAddr 0 (s := Station.joined crypto)
    (m := ⟨0x008A, 5, anonceSent, zeros 16, [], earlierMessage⟩) nofun (fun hc => hc.2 rfl)
    (crypto.pskFromPassphrase battery (Utf8.encode homeAp)) homeBss.bssid
  rw [hmessage] at hframe
  have hearlier := reached_onFrame hreached hframe
  generalize hs : ({ (Station.joined crypto).install crypto ⟨0x008A, 5, anonceSent, zeros 16, [], earlierMessage⟩ _ with
    sequence := sequence, radio := radio, state := .handshake, deadline := deadline } : Station) = s at hearlier
  have hreplay : s.replay = 5 := by
    rw [← hs]
    rfl
  have hbss : s.bss = [homeBss] := by
    rw [← hs]
    rfl
  have hstate : s.state ≠ .disabled := by
    rw [← hs]
    exact nofun
  have hbest : strongest (s.bss.filter fun b => b.ssid = home.ssid) = some homeBss := by
    rw [hbss]
    rfl
  have hassociated := associated crypto hstate home_proper
  obtain ⟨b, hb, -, hj, -⟩ | ⟨hno, -⟩ := hassociated.picked
  · obtain rfl := some.inj (hbest.symm.trans hb)
    obtain ⟨m, hm, -, hanswered⟩ := answered_message1 home_proper hj rfl
    refine not_completes (hanswered.trans (onMessage1_stale ?_ _ _ _)) (hall s hearlier hstate home home_proper
      ⟨homeBss, hbest, rfl, rfl, by decide +kernel⟩)
    rw [hm, hassociated.replay, hreplay]
    exact ⟨by decide, nofun⟩
  · exact hno homeBss hbest (.inr ⟨rfl, by decide +kernel⟩)

end Attempt

end HamixOS.Wlan

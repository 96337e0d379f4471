import HamixOS.Lib.Machine
import HamixOS.Wlan.Station

namespace HamixOS.Wlan

open Lib Option

/-!
# What a call does to the keys

Scanning, joining and leaving a network never do more to the keys than forget them (`Quiet`); what is
left are five effects: keys are installed, a group key is set, a frame is sealed, opened or queued.

* `Sent`, `Answered`, `Handled` — everything that sending, a message of the handshake and a data frame
  can do;
* `step_stepped` — everything that a call can do.
-/

/-- Ciphers that never open anything, for runs in which nothing is received. -/
def Crypto.mute : Crypto where
  pskFromPassphrase _ _ := zeros 32
  prf80211 _ _ _ n := zeros n
  hmacSha1 _ _ := zeros 20
  aesUnwrap _ _ := none
  ccmEncrypt _ _ _ payload := payload ++ zeros 8
  ccmDecrypt _ _ _ _ := none
  length_hmacSha1 _ _ := length_zeros 20

/-- The keys after a message with a group key. -/
def Keys.regroup (reset : Bool) (gtk : Option (Fin 4 × Bytes)) (keys : Keys) : Keys :=
  match gtk with
  | some g => { keys with gtk := some g, rxPn := if reset then Function.update keys.rxPn g.1 0 else keys.rxPn }
  | none => if reset then keys else { keys with gtk := none }

namespace Station

/-- At most, the keys were forgotten. -/
structure Quiet (s s' : Station) : Prop where
  ptk : s'.ptk = s.ptk ∨ s'.ptk = none
  marks : s'.marks = s.marks
  received : s'.received = s.received
  rng : s'.rng = s.rng

theorem Quiet.refl (s : Station) : Quiet s s := ⟨.inl rfl, rfl, rfl, rfl⟩

theorem Quiet.trans {s t u : Station} (h : Quiet s t) (h' : Quiet t u) : Quiet s u := by
  refine ⟨?_, h'.marks.trans h.marks, h'.received.trans h.received, h'.rng.trans h.rng⟩
  rcases h'.ptk with hsame | hnone
  · rw [hsame]
    exact h.ptk
  · exact .inr hnone

variable {s s' : Station}

/-- A change of other fields. -/
theorem Quiet.same (hptk : s'.ptk = s.ptk) (hmarks : s'.marks = s.marks)
    (hreceived : s'.received = s.received) (hrng : s'.rng = s.rng) : Quiet s s' :=
  ⟨.inl hptk, hmarks, hreceived, hrng⟩

variable {keys : Keys}

theorem Quiet.ptk_some (h : Quiet s s') (hk : s'.ptk = some keys) : s.ptk = some keys := by
  rcases h.ptk with hsame | hnone
  · rw [← hsame]
    exact hk
  · rw [hnone] at hk
    cases hk

variable {crypto : Crypto} {own : Bytes} {now : Nat}

theorem quiet_beginAuth (s : Station) : Quiet s (s.beginAuth own now) := by
  unfold beginAuth
  cases s.target with
  | none => exact Quiet.same rfl rfl rfl rfl
  | some target =>
    dsimp only
    cases strongest (s.bss.filter fun b => b.ssid = target.ssid) with
    | none => exact Quiet.same rfl rfl rfl rfl
    | some bss =>
      dsimp only
      split
      · exact Quiet.same rfl rfl rfl rfl
      split
      · exact Quiet.same rfl rfl rfl rfl
      · exact Quiet.same rfl rfl rfl rfl

theorem quiet_scanStep (s : Station) : Quiet s (s.scanStep own now) := by
  unfold scanStep
  cases s.scanChannels[s.scanIndex]? with
  | none =>
    dsimp only
    split
    · refine Quiet.trans ?_ (quiet_beginAuth _)
      exact Quiet.same rfl rfl rfl rfl
    · exact Quiet.same rfl rfl rfl rfl
  | some channel => exact Quiet.same rfl rfl rfl rfl

theorem quiet_startScan (s : Station) : Quiet s (s.startScan own now) := by
  unfold startScan
  split
  · refine Quiet.trans ?_ (quiet_scanStep _)
    exact Quiet.same rfl rfl rfl rfl
  · exact Quiet.refl s

theorem quiet_leave (s : Station) : Quiet s (s.leave own) := by
  unfold leave
  cases s.current with
  | none => exact Quiet.refl s
  | some bss =>
    dsimp only
    split
    · exact Quiet.same rfl rfl rfl rfl
    · exact Quiet.same rfl rfl rfl rfl

theorem disconnect_eq (s : Station) :
    s.disconnect own = { (s.leave own).tell (.setBssid none) with
      ptk := none
      target := none
      connectAfterScan := false
      state := if (s.leave own).state = .disabled then .disabled else .idle } := by
  unfold disconnect
  generalize s.leave own = t
  by_cases hd : t.state = .disabled
  · simp [tell, hd]
  · simp [tell, hd]

theorem quiet_disconnect (s : Station) : Quiet s (s.disconnect own) := by
  refine Quiet.trans (t := s.leave own) (quiet_leave s) ?_
  rw [disconnect_eq]
  exact ⟨.inr rfl, rfl, rfl, rfl⟩

theorem quiet_enable (s : Station) (on : Bool) : Quiet s (s.enable own on) := by
  unfold enable
  split
  · refine Quiet.trans ?_ (quiet_startScan _)
    exact Quiet.same rfl rfl rfl rfl
  split
  · exact (quiet_disconnect s).trans (Quiet.same rfl rfl rfl rfl)
  · exact Quiet.refl s

theorem quiet_fail (s : Station) (reason : String) : Quiet s (s.fail own now reason) := by
  have hdrop : Quiet s { s with attempts := s.attempts + 1, ptk := none } := ⟨.inr rfl, rfl, rfl, rfl⟩
  unfold fail
  dsimp only
  split
  · refine hdrop.trans ?_
    exact Quiet.same rfl rfl rfl rfl
  · exact hdrop.trans (quiet_beginAuth _)

theorem quiet_sendAssoc (s : Station) : Quiet s (s.sendAssoc own now) := by
  unfold sendAssoc
  cases s.current with
  | none => exact Quiet.refl s
  | some bss => exact Quiet.same rfl rfl rfl rfl

theorem quiet_tick (s : Station) : Quiet s (s.tick own now) := by
  unfold tick
  split
  · split
    · exact quiet_scanStep s
    · exact Quiet.refl s
  · split
    · exact quiet_fail s _
    · exact Quiet.refl s
  · split
    · exact quiet_fail s _
    · exact Quiet.refl s
  · split
    · exact quiet_fail s _
    · exact Quiet.refl s
  · split
    · dsimp only
      split
      · refine Quiet.trans ?_ (quiet_beginAuth _)
        exact ⟨.inr rfl, rfl, rfl, rfl⟩
      · exact ⟨.inr rfl, rfl, rfl, rfl⟩
    · exact Quiet.refl s
  · exact Quiet.refl s

theorem quiet_onBeacon (s : Station) (h : Header) (rssi : Int) : Quiet s (s.onBeacon now h rssi) := by
  unfold onBeacon
  cases parseBeacon h.body with
  | none => exact Quiet.refl s
  | some info =>
    dsimp only
    split
    · exact Quiet.same rfl rfl rfl rfl
    · exact Quiet.same rfl rfl rfl rfl

theorem quiet_onAuth (s : Station) (h : Header) : Quiet s (s.onAuth own now h) := by
  unfold onAuth
  split
  · exact Quiet.refl s
  dsimp only
  split
  · exact quiet_sendAssoc s
  split
  · exact quiet_fail s _
  · exact Quiet.refl s

theorem quiet_onAssocResp (s : Station) (h : Header) : Quiet s (s.onAssocResp own now h) := by
  unfold onAssocResp
  split
  · exact Quiet.refl s
  split
  · exact quiet_fail s _
  dsimp only
  split
  · exact Quiet.same rfl rfl rfl rfl
  · exact Quiet.same rfl rfl rfl rfl

theorem quiet_onDeauth (s : Station) (h : Header) : Quiet s (s.onDeauth own now h) := by
  unfold onDeauth
  split
  · dsimp only
    split
    · refine Quiet.trans ?_ (quiet_beginAuth _)
      exact ⟨.inr rfl, rfl, rfl, rfl⟩
    · exact ⟨.inr rfl, rfl, rfl, rfl⟩
  · exact Quiet.refl s

/-- A frame that is not a data frame of an access point. -/
theorem quiet_onFrame {s : Station} {mpdu : Bytes} {rssi : Int}
    (hno : ∀ h, parse mpdu = some h → ¬ (h.frameType = typeData ∧ h.flags &&& fcFromDs ≠ 0 ∧ h.flags &&& fcToDs = 0)) :
    Quiet s (s.onFrame crypto own now mpdu rssi) := by
  unfold onFrame
  cases hp : parse mpdu with
  | none => exact Quiet.refl s
  | some h =>
    dsimp only
    split
    · exact quiet_onBeacon s h rssi
    split
    · exact quiet_onAuth s h
    split
    · exact quiet_onAssocResp s h
    split
    · exact quiet_onDeauth s h
    rw [if_neg (hno h hp)]
    exact Quiet.refl s

/-! ### Sending -/

/-- A packet number is used up under the keys. -/
def sealUnder (s : Station) (keys : Keys) : Station :=
  { s with
    ptk := some { keys with txPn := (keys.txPn + 1) % 2 ^ 64 }
    marks := .sealed (installs s.marks) ((keys.txPn + 1) % 2 ^ 64 % 2 ^ 48) :: s.marks }

/-- What no effect on the keys and no frame that is sent touches. -/
structure Steady (s s' : Station) : Prop where
  state : s'.state = s.state
  target : s'.target = s.target
  current : s'.current = s.current
  anonce : s'.anonce = s.anonce
  snonce : s'.snonce = s.snonce

theorem Steady.refl (s : Station) : Steady s s := ⟨rfl, rfl, rfl, rfl, rfl⟩

/-- What is sent is sent in the clear, or under the keys of a connection. -/
inductive Sent (s s' : Station) : Prop where
  | clear (quiet : Quiet s s') (ptk : s'.ptk = s.ptk) (steady : Steady s s')
  | sealed (keys : Keys) (connected : s.state = .connected) (ptk : s.ptk = some keys) (quiet : Quiet (s.sealUnder keys) s')
      (same : s'.ptk = (s.sealUnder keys).ptk) (steady : Steady s s')

theorem sendData_sent (s : Station) (addr1 addr2 addr3 payload : Bytes) :
    Sent s (s.sendData crypto addr1 addr2 addr3 payload) := by
  unfold sendData
  dsimp only
  cases hk : s.nextSequence.sendingKeys with
  | none => exact .clear (Quiet.same rfl rfl rfl rfl) rfl ⟨rfl, rfl, rfl, rfl, rfl⟩
  | some keys =>
    have hsend : (if s.state = .connected then s.ptk else none) = some keys := hk
    split at hsend
    · rename_i hc
      exact .sealed keys hc hsend (Quiet.same rfl rfl rfl rfl) rfl ⟨rfl, rfl, rfl, rfl, rfl⟩
    · cases hsend

theorem sendEapol_sent (crypto : Crypto) (own : Bytes) (s : Station) (eapol kck : Bytes) : Sent s (s.sendEapol crypto own eapol kck) := by
  unfold sendEapol
  cases s.current with
  | none => exact .clear (Quiet.refl s) rfl (Steady.refl s)
  | some bss => exact sendData_sent s _ _ _ _

theorem sendEthernet_sent (s : Station) (eth : Bytes) : Sent s (s.sendEthernet crypto eth) := by
  unfold sendEthernet
  split
  · exact .clear (Quiet.refl s) rfl (Steady.refl s)
  cases s.current with
  | none => exact .clear (Quiet.refl s) rfl (Steady.refl s)
  | some bss => exact sendData_sent s _ _ _ _

/-- What quiet changes and sealing keep, sending keeps. -/
theorem Sent.keeps {I : Station → Prop} (hquiet : ∀ {s s'}, Quiet s s' → I s → I s')
    (hseal : ∀ {s : Station} {keys}, s.ptk = some keys → I s → I (s.sealUnder keys)) (h : Sent s s')
    (hs : I s) : I s' := by
  cases h with
  | clear quiet _ _ => exact hquiet quiet hs
  | sealed keys _ ptk quiet _ _ => exact hquiet quiet (hseal ptk hs)

/-! ### Receiving -/

variable {h : Header}

/-- A frame for a group is read with the group key of its slot, any other with the temporal key. -/
theorem selectKey_some {marks : List Mark} {key : Bytes} {id : KeyId} {last : Nat}
    (hs : selectKey keys marks h = some (key, id, last)) :
    (isGroup h = true ∧ keys.gtk = some (keyIdOf h.body, key) ∧ id = .group key ∧ last = keys.rxPn (keyIdOf h.body)) ∨
      (isGroup h ≠ true ∧ key = keys.tk ∧ id = .pairwise (installs marks) ∧ last = keys.rxPnUnicast) := by
  unfold selectKey at hs
  split at hs
  · rename_i hgroup
    obtain ⟨k, hk, heq⟩ := map_eq_some_iff.mp hs
    simp only [Prod.mk.injEq] at heq
    obtain ⟨rfl, rfl, rfl⟩ := heq
    unfold Keys.group? at hk
    split at hk
    · rename_i i k' hgtk
      split at hk
      · rename_i hi
        rw [← hi, ← some.inj hk]
        exact .inl ⟨hgroup, hgtk, rfl, rfl⟩
      · cases hk
    · cases hk
  · rename_i hgroup
    have heq := some.inj hs
    simp only [Prod.mk.injEq] at heq
    exact .inr ⟨hgroup, heq.1.symm, heq.2.1.symm, heq.2.2.symm⟩

/-- What a frame that is accepted does. -/
theorem decrypt_some {mpdu plain : Bytes} (hd : s.decrypt crypto mpdu h = some (plain, s')) :
    ∃ keys key id last, s.ptk = some keys ∧ selectKey keys s.marks h = some (key, id, last) ∧
      ¬ (packetNumber h.body ≤ last ∧ last ≠ 0) ∧
      crypto.ccmDecrypt key (ccmpNonceAad (mpdu.take h.headerLen) (packetNumber h.body)).1
        (ccmpNonceAad (mpdu.take h.headerLen) (packetNumber h.body)).2 (h.body.drop 8) = some plain ∧
      s' = { s with ptk := some (keys.accepted h (packetNumber h.body))
                    marks := .opened id (packetNumber h.body) :: s.marks } := by
  unfold decrypt at hd
  obtain ⟨keys, hptk, hd⟩ := bind_eq_some_iff.mp hd
  split at hd
  · cases hd
  obtain ⟨⟨key, id, last⟩, hselect, hd⟩ := bind_eq_some_iff.mp hd
  dsimp only at hd
  split at hd
  · cases hd
  rename_i hlast
  obtain ⟨p, hplain, hd⟩ := bind_eq_some_iff.mp hd
  have heq := some.inj hd
  rw [Prod.mk.injEq] at heq
  obtain ⟨rfl, rfl⟩ := heq
  exact ⟨keys, key, id, last, hptk, hselect, hlast, hplain, rfl⟩

theorem payloadOf_some {mpdu payload : Bytes}
    (hp : s.payloadOf crypto mpdu h = some (payload, s')) :
    (h.flags &&& fcProtected ≠ 0 ∧ s.decrypt crypto mpdu h = some (payload, s')) ∨
      (h.flags &&& fcProtected = 0 ∧ payload = h.body ∧ s' = s) := by
  unfold payloadOf at hp
  split at hp
  · rename_i hprot
    exact .inl ⟨hprot, hp⟩
  · rename_i hprot
    have heq := some.inj hp
    rw [Prod.mk.injEq] at heq
    exact .inr ⟨not_not.mp hprot, heq.1.symm, heq.2.symm⟩

/-! ### The handshake -/

/-- The network that keys are for: there is one, and it was chosen with a passphrase. -/
structure Joined (s : Station) (bss : Bss) (pmk : Bytes) : Prop where
  current : s.current = some bss
  pmk : s.target.bind (fun t => t.pmk) = some pmk

/-- A message with a MIC that is in order, and its key data. -/
structure Verified (crypto : Crypto) (s : Station) (data : Bytes) (m : KeyMessage) (keys : Keys) (plain : Bytes) : Prop where
  message : keyMessage data = some m
  joined : ∃ bss pmk, Joined s bss pmk
  ptk : s.ptk = some keys
  mic : (crypto.hmacSha1 keys.kck m.check).take 16 = m.mic
  fresh : s.replay ≤ m.replay
  keyData : keyDataOf crypto keys m = some plain

/-- The installation of the keys of a first message. -/
def install (crypto : Crypto) (m : KeyMessage) (i : Install) (s : Station) : Station :=
  { s with
    replay := m.replay
    anonce := m.nonce
    snonce := i.snonce
    rng := (drawNonce s.rng).2
    ptk := some (pairwiseKeys crypto i)
    marks := .installed i :: s.marks }

/-- Everything that a message of the handshake can do. -/
inductive Answered (crypto : Crypto) (own : Bytes) (data : Bytes) (s : Station) : Station → Prop where
  | ignored {s' : Station} (quiet : Quiet s s') (ptk : s'.ptk = s.ptk) (steady : Steady s s') :
      Answered crypto own data s s'
  | installed {m : KeyMessage} {bss : Bss} {pmk : Bytes} {t s' : Station} (message : keyMessage data = some m)
      (joined : Joined s bss pmk)
      (sent : Sent (s.install crypto m ⟨pmk, own, bss.bssid, m.nonce, (drawNonce s.rng).1⟩) t)
      (quiet : Quiet t s') (ptk : s'.ptk = t.ptk) (steady : Steady { t with state := .handshake } s') :
      Answered crypto own data s s'
  | confirmed {m : KeyMessage} {keys : Keys} {plain : Bytes} {t s' : Station} (verified : Verified crypto s data m keys plain)
      (pairwise : m.pairwise) (nonce : m.nonce = s.anonce) (sent : Sent { s with replay := m.replay } t)
      (marks : s'.marks = .confirmed data :: t.marks) (ptk : s'.ptk = t.ptk.map (Keys.regroup false (findGtk plain)))
      (received : s'.received = t.received) (rng : s'.rng = t.rng) (steady : Steady { t with state := .connected } s') :
      Answered crypto own data s s'
  | regrouped {m : KeyMessage} {keys : Keys} {plain : Bytes} {s' : Station} (verified : Verified crypto s data m keys plain)
      (pairwise : ¬ m.pairwise)
      (sent : Sent { s with replay := m.replay, ptk := s.ptk.map (Keys.regroup true (findGtk plain)) } s') :
      Answered crypto own data s s'

variable {m : KeyMessage}

theorem onMessage1_answered {s : Station} {data : Bytes} {bss : Bss} {pmk : Bytes}
    (message : keyMessage data = some m) (joined : Joined s bss pmk) :
    Answered crypto own data s (s.onMessage1 crypto own now pmk bss.bssid m) := by
  unfold onMessage1
  split
  · exact .ignored (Quiet.refl s) rfl (Steady.refl s)
  exact .installed message joined (sendEapol_sent crypto own (s.install crypto m ⟨pmk, own, bss.bssid, m.nonce, (drawNonce s.rng).1⟩) _ _)
    (Quiet.same rfl rfl rfl rfl) rfl ⟨rfl, rfl, rfl, rfl, rfl⟩

theorem onMessage3_answered {s : Station} {data : Bytes} {plain : Bytes}
    (verified : Verified crypto s data m keys plain) (pairwise : m.pairwise) :
    Answered crypto own data s ({ s with replay := m.replay }.onMessage3 crypto own now data m keys (findGtk plain)) := by
  unfold onMessage3
  split
  · exact .ignored (Quiet.same rfl rfl rfl rfl) rfl ⟨rfl, rfl, rfl, rfl, rfl⟩
  rename_i hnonce
  have hsent := sendEapol_sent crypto own { s with replay := m.replay }
    (eapolKeyFrame 0x030A m.replay (zeros 32) []) keys.kck
  refine .confirmed verified pairwise (not_not.mp hnonce) hsent rfl ?_ rfl rfl ⟨rfl, rfl, rfl, rfl, rfl⟩
  refine congrArg (fun f => Option.map f _) (funext fun k => ?_)
  cases findGtk plain with
  | none => rfl
  | some g => rfl

theorem onGroupMessage_answered {s : Station} {data : Bytes} {plain : Bytes}
    (verified : Verified crypto s data m keys plain) (pairwise : ¬ m.pairwise) :
    Answered crypto own data s ({ s with replay := m.replay }.onGroupMessage crypto own m keys (findGtk plain)) := by
  unfold onGroupMessage
  have hsent := sendEapol_sent crypto own
    { s with replay := m.replay, ptk := s.ptk.map (Keys.regroup true (findGtk plain)) }
    (eapolKeyFrame 0x0302 m.replay (zeros 32) []) keys.kck
  refine .regrouped verified pairwise ?_
  revert hsent
  cases findGtk plain with
  | none =>
    have hid : Keys.regroup true none = id := rfl
    rw [hid, Option.map_id]
    exact id
  | some g => exact id

/-- The messages of the handshake, in the order in which the code tells them apart. -/
theorem onEapol_answered (s : Station) (data : Bytes) : Answered crypto own data s (s.onEapol crypto own now data) := by
  unfold onEapol
  cases hm : keyMessage data with
  | none => exact .ignored (Quiet.refl s) rfl (Steady.refl s)
  | some m =>
    dsimp only
    split
    · rename_i bss pmk hcur hpmk
      split
      · exact onMessage1_answered hm ⟨hcur, hpmk⟩
      split
      · exact .ignored (Quiet.refl s) rfl (Steady.refl s)
      rename_i keys hk
      split
      · exact .ignored (Quiet.refl s) rfl (Steady.refl s)
      split
      · exact .ignored (Quiet.same rfl rfl rfl rfl) rfl ⟨rfl, rfl, rfl, rfl, rfl⟩
      rename_i hmic
      split
      · exact .ignored (Quiet.refl s) rfl (Steady.refl s)
      rename_i hold
      split
      · exact .ignored (Quiet.same rfl rfl rfl rfl) rfl ⟨rfl, rfl, rfl, rfl, rfl⟩
      rename_i plain hplain
      have hv : Verified crypto s data m keys plain :=
        ⟨hm, ⟨bss, pmk, hcur, hpmk⟩, hk, not_not.mp hmic, Nat.le_of_not_lt hold, hplain⟩
      split
      · rename_i hpair
        exact onMessage3_answered hv hpair
      · rename_i hpair
        exact onGroupMessage_answered hv hpair
    · exact .ignored (Quiet.refl s) rfl (Steady.refl s)

/-! ### Whole calls -/

/-- A frame that goes to the network stack: it has an LLC header, is not of the handshake, and there is a
    connection and room for it. -/
structure Forwarded (payload : Bytes) (s : Station) : Prop where
  length : 8 ≤ payload.length
  llc : payload.take 6 = [0xAA, 0xAA, 0x03, 0x00, 0x00, 0x00]
  ethertype : slice payload 6 2 ≠ [0x88, 0x8E]
  state : s.state = .connected
  room : s.received.length < 256

/-- A frame is put at the end of the queue. -/
def queue (mpdu eth : Bytes) (s : Station) : Station :=
  { s with
    received := s.received ++ [eth]
    marks := .queued mpdu s.ptk (s.current.map Bss.security) eth :: s.marks }

/-- Everything that a data frame can do. -/
inductive Handled (crypto : Crypto) (own mpdu : Bytes) (h : Header) (s : Station) : Station → Prop where
  | ignored : Handled crypto own mpdu h s s
  | passed {payload : Bytes} {t : Station} (read : s.payloadOf crypto mpdu h = some (payload, t)) :
      Handled crypto own mpdu h s t
  | answered {payload : Bytes} {t s' : Station} (read : s.payloadOf crypto mpdu h = some (payload, t))
      (answer : Answered crypto own (payload.drop 8) t s') : Handled crypto own mpdu h s s'
  | queued {payload : Bytes} {t : Station} (read : s.payloadOf crypto mpdu h = some (payload, t))
      (forwarded : Forwarded payload t) : Handled crypto own mpdu h s (t.queue mpdu (ethernetOf h payload))

theorem onData_handled (s : Station) (mpdu : Bytes) (h : Header) (hap : s.fromAp own h = true) :
    Handled crypto own mpdu h s (s.onData crypto own now mpdu h) := by
  unfold onData
  rw [if_pos hap]
  cases hp : s.payloadOf crypto mpdu h with
  | none => exact .ignored
  | some x =>
    obtain ⟨payload, t⟩ := x
    dsimp only
    split
    · exact .passed hp
    rename_i hllc
    simp only [not_or, Nat.not_lt, not_not] at hllc
    split
    · exact .answered hp (onEapol_answered t _)
    rename_i htype
    split
    · exact .passed hp
    rename_i hstate
    split
    · rename_i hroom
      exact .queued hp ⟨hllc.1, hllc.2, htype, not_not.mp hstate, hroom⟩
    · exact .passed hp

/-- A data frame that the access point of the current network sent to this station or to a group. -/
structure DataFrame (own mpdu : Bytes) (h : Header) (s : Station) : Prop where
  parsed : parse mpdu = some h
  frameType : h.frameType = typeData
  fromDs : h.flags &&& fcFromDs ≠ 0
  toDs : h.flags &&& fcToDs = 0
  fromAp : s.fromAp own h = true

/-- Everything that a call can do. -/
inductive Stepped (crypto : Crypto) (own : Bytes) (s : Station) (c : Call) : Station → Prop where
  | quiet {s' : Station} (quiet : Quiet s s') : Stepped crypto own s c s'
  | chosen {t s' : Station} (ssid passphrase : Text) (before : Quiet s t) (after : Quiet (t.mark (.chosen ssid passphrase)) s') :
      Stepped crypto own s c s'
  | sent {s' : Station} (sent : Sent s s') : Stepped crypto own s c s'
  | taken : Stepped crypto own s c { s with received := s.received.tail }
  | data {mpdu : Bytes} {rssi : Int} {now : Nat} {h : Header} {s' : Station} (call : c = .onFrame mpdu rssi now)
      (frame : DataFrame own mpdu h s) (handled : Handled crypto own mpdu h s s') : Stepped crypto own s c s'

/-- `connect` chooses a network after it has left the one before. -/
theorem connect_cases {ssid passphrase : Text} (h : s.connect crypto own now ssid passphrase = .ok s') :
    ∃ t : Station, t = { s.disconnect own with
        target := some ⟨ssid, pmkOf crypto ssid passphrase⟩
        attempts := 0
        message := ""
        marks := .chosen ssid passphrase :: (s.disconnect own).marks } ∧
      (s' = t.beginAuth own now ∨ s' = { t with connectAfterScan := true, state := .idle }.startScan own now) := by
  unfold connect at h
  split at h
  · cases h
  split at h
  · cases h
  split at h
  · cases h
  dsimp only at h
  refine ⟨_, rfl, ?_⟩
  split at h
  · exact .inl (Except.ok.inj h).symm
  · exact .inr (Except.ok.inj h).symm

/-- A data frame is not taken for one of another kind. -/
theorem onFrame_data {s : Station} {mpdu : Bytes} (hparse : parse mpdu = some h) (htype : h.frameType = typeData)
    (hfrom : h.flags &&& fcFromDs ≠ 0) (hto : h.flags &&& fcToDs = 0) (rssi : Int) :
    s.onFrame crypto own now mpdu rssi = s.onData crypto own now mpdu h := by
  have hmgmt : h.frameType ≠ typeMgmt := by
    rw [htype]
    decide
  unfold onFrame
  rw [hparse]
  dsimp only
  rw [if_neg (fun hc => hmgmt hc.1), if_neg (fun hc => hmgmt hc.1), if_neg (fun hc => hmgmt hc.1),
    if_neg (fun hc => hmgmt hc.1), if_pos ⟨htype, hfrom, hto⟩]

theorem onFrame_stepped (s : Station) (mpdu : Bytes) (rssi : Int) :
    Stepped crypto own s (.onFrame mpdu rssi now) (s.onFrame crypto own now mpdu rssi) := by
  by_cases hdata : ∃ h, parse mpdu = some h ∧ h.frameType = typeData ∧ h.flags &&& fcFromDs ≠ 0 ∧ h.flags &&& fcToDs = 0
  · obtain ⟨h, hparse, htype, hfrom, hto⟩ := hdata
    rw [onFrame_data hparse htype hfrom hto]
    by_cases hap : s.fromAp own h = true
    · exact .data rfl ⟨hparse, htype, hfrom, hto, hap⟩ (onData_handled s mpdu h hap)
    · unfold onData
      rw [if_neg hap]
      exact .quiet (Quiet.refl s)
  · exact .quiet (quiet_onFrame fun h hp hall => hdata ⟨h, hp, hall⟩)

theorem step_stepped (s : Station) (c : Call) : Stepped crypto own s c (s.step crypto own c) := by
  cases c with
  | enable on => exact .quiet (quiet_enable s on)
  | connect ssid passphrase now =>
    unfold step
    dsimp only
    cases hc : s.connect crypto own now ssid passphrase with
    | error e => exact .quiet (Quiet.refl s)
    | ok s' =>
      obtain ⟨t, ht, hs'⟩ := connect_cases hc
      have hmark : Quiet ((s.disconnect own).mark (.chosen ssid passphrase)) t := by
        rw [ht]
        exact Quiet.same rfl rfl rfl rfl
      refine .chosen ssid passphrase (quiet_disconnect s) (hmark.trans ?_)
      rcases hs' with rfl | rfl
      · exact quiet_beginAuth t
      · refine Quiet.trans ?_ (quiet_startScan _)
        exact Quiet.same rfl rfl rfl rfl
  | disconnect => exact .quiet (quiet_disconnect s)
  | startScan now => exact .quiet (quiet_startScan s)
  | tick now => exact .quiet (quiet_tick s)
  | onFrame mpdu rssi now => exact onFrame_stepped s mpdu rssi
  | sendEthernet eth => exact .sent (sendEthernet_sent s eth)
  | takeEthernet => exact .taken

/-- A station of some seed that was not used yet. -/
def Starts (s : Station) : Prop := ∃ seed, s = new seed

/-- The stations reached by calls that all meet `ok`. -/
def Reached (crypto : Crypto) (own : Bytes) (ok : Station → Call → Prop) : Station → Prop :=
  Reach Starts (fun s c => some (s.step crypto own c)) ok

end Station

end HamixOS.Wlan

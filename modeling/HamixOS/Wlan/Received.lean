import HamixOS.Wlan.Effects

namespace HamixOS.Wlan

open Lib List

namespace Station

/-!
# What reaches the network stack

Every frame in the queue was put there by `queue`, which the history records together with the keys and
the network of that time.

* `Authentic` — on a protected network, the frame is what `ccm_decrypt` made of a protected one;
* `receivedFrom_reached` — so is every frame, unless one in the clear is passed on.
-/

/-- On a WPA2 network, the frame is the payload of a protected data frame that was decrypted under the
    temporal key or the group key with its own header. -/
def Authentic (crypto : Crypto) (mpdu : Bytes) (keys : Option Keys) (security : Option Security) (eth : Bytes) : Prop :=
  security = some .wpa2 →
    ∃ h ks key plain, parse mpdu = some h ∧ h.frameType = typeData ∧ h.flags &&& fcProtected ≠ 0 ∧ keys = some ks ∧
      (key = ks.tk ∨ ∃ id, ks.gtk = some (id, key)) ∧
      crypto.ccmDecrypt key (ccmpNonceAad (mpdu.take h.headerLen) (packetNumber h.body)).1
        (ccmpNonceAad (mpdu.take h.headerLen) (packetNumber h.body)).2 (h.body.drop 8) = some plain ∧
      eth = ethernetOf h plain

/-- Everything in the queue was recorded, and everything recorded is authentic. -/
structure ReceivedFrom (crypto : Crypto) (s : Station) : Prop where
  recorded : ∀ eth ∈ s.received, ∃ mpdu keys security, .queued mpdu keys security eth ∈ s.marks
  authentic : ∀ mpdu keys security eth, .queued mpdu keys security eth ∈ s.marks → Authentic crypto mpdu keys security eth

/-- A frame in the clear that is passed on to the network stack. -/
def ForwardsClear (own : Bytes) (s : Station) : Call → Prop
  | .onFrame mpdu _ _ => ∃ h, DataFrame own mpdu h s ∧ h.flags &&& fcProtected = 0 ∧ Forwarded h.body s
  | _ => False

/-- On a WPA2 network, no frame in the clear is passed on. -/
def NoClear (own : Bytes) (s : Station) (c : Call) : Prop :=
  s.current.map Bss.security = some .wpa2 → ¬ ForwardsClear own s c

namespace ReceivedFrom

variable {crypto : Crypto} {own : Bytes} {s s' : Station}

section

variable (hs : ReceivedFrom crypto s)

include hs

/-- Nothing is recorded and nothing is queued. -/
theorem same (hreceived : s'.received = s.received)
    (hmarks : ∀ mpdu keys security eth, .queued mpdu keys security eth ∈ s'.marks ↔ .queued mpdu keys security eth ∈ s.marks) :
    ReceivedFrom crypto s' := by
  refine ⟨fun eth he => ?_, fun mpdu keys security eth hm => ?_⟩
  · rw [hreceived] at he
    obtain ⟨mpdu, keys, security, hm⟩ := hs.recorded eth he
    exact ⟨mpdu, keys, security, (hmarks mpdu keys security eth).mpr hm⟩
  · exact hs.authentic mpdu keys security eth ((hmarks mpdu keys security eth).mp hm)

theorem quiet (h : Quiet s s') : ReceivedFrom crypto s' :=
  hs.same h.received fun _ _ _ _ => by rw [h.marks]

/-- A mark of another kind. -/
theorem other {m : Mark} (hm : ∀ mpdu keys security eth, .queued mpdu keys security eth ≠ m)
    (hreceived : s'.received = s.received) (hmarks : s'.marks = m :: s.marks) : ReceivedFrom crypto s' := by
  refine hs.same hreceived fun mpdu keys security eth => ?_
  rw [hmarks, mem_cons, or_iff_right (hm mpdu keys security eth)]

end

theorem sent (h : Sent s s') (hs : ReceivedFrom crypto s) : ReceivedFrom crypto s' :=
  h.keeps (fun h hs => hs.quiet h) (fun _ hs => hs.other (fun _ _ _ _ => by exact nofun) rfl rfl) hs

theorem answered {data : Bytes} (h : Answered crypto own data s s') (hs : ReceivedFrom crypto s) : ReceivedFrom crypto s' := by
  cases h with
  | ignored quiet _ _ => exact hs.quiet quiet
  | @installed m bss pmk t _ _ _ sent quiet _ _ =>
    have hi : ReceivedFrom crypto (s.install crypto m ⟨pmk, own, bss.bssid, m.nonce, (drawNonce s.rng).1⟩) :=
      hs.other (fun _ _ _ _ => by exact nofun) rfl rfl
    exact (hi.sent sent).quiet quiet
  | @confirmed m keys plain t _ _ _ _ sent marks _ received _ _ =>
    have hr : ReceivedFrom crypto { s with replay := m.replay } := hs.same rfl fun _ _ _ _ => .rfl
    exact (hr.sent sent).other (fun _ _ _ _ => by exact nofun) received marks
  | @regrouped m keys plain _ _ _ sent =>
    have hr : ReceivedFrom crypto { s with replay := m.replay, ptk := s.ptk.map (Keys.regroup true (findGtk plain)) } :=
      hs.same rfl fun _ _ _ _ => .rfl
    exact hr.sent sent

theorem read {mpdu payload : Bytes} {h : Header} (hp : s.payloadOf crypto mpdu h = some (payload, s'))
    (hs : ReceivedFrom crypto s) : ReceivedFrom crypto s' := by
  rcases payloadOf_some hp with ⟨-, hd⟩ | ⟨-, -, rfl⟩
  · obtain ⟨keys, key, id, last, -, -, -, -, rfl⟩ := decrypt_some hd
    exact hs.other (fun _ _ _ _ => by exact nofun) rfl rfl
  · exact hs

/-- The keys of a frame that was decrypted are still those that opened it. -/
theorem authentic_read {mpdu payload : Bytes} {h : Header} (hparse : parse mpdu = some h) (htype : h.frameType = typeData)
    (hprot : h.flags &&& fcProtected ≠ 0) (hd : s.decrypt crypto mpdu h = some (payload, s')) (security : Option Security) :
    Authentic crypto mpdu s'.ptk security (ethernetOf h payload) := by
  intro _
  obtain ⟨keys, key, id, last, hk, hselect, -, hplain, rfl⟩ := decrypt_some hd
  have hkept : (keys.accepted h (packetNumber h.body)).tk = keys.tk ∧ (keys.accepted h (packetNumber h.body)).gtk = keys.gtk := by
    unfold Keys.accepted
    split
    · exact ⟨rfl, rfl⟩
    · exact ⟨rfl, rfl⟩
  refine ⟨h, _, key, payload, hparse, htype, hprot, rfl, ?_, hplain, rfl⟩
  rw [hkept.1, hkept.2]
  rcases selectKey_some hselect with ⟨-, hgtk, -, -⟩ | ⟨-, htk, -, -⟩
  · exact .inr ⟨keyIdOf h.body, hgtk⟩
  · exact .inl htk

theorem queued {mpdu eth : Bytes} (ha : Authentic crypto mpdu s.ptk (s.current.map Bss.security) eth)
    (hs : ReceivedFrom crypto s) : ReceivedFrom crypto (s.queue mpdu eth) := by
  refine ⟨fun e he => ?_, fun mpdu' keys security e hm => ?_⟩
  · rcases mem_append.mp he with hold | hnew
    · obtain ⟨mpdu', keys, security, hm⟩ := hs.recorded e hold
      exact ⟨mpdu', keys, security, mem_cons_of_mem _ hm⟩
    · rw [mem_singleton] at hnew
      subst hnew
      exact ⟨mpdu, s.ptk, s.current.map Bss.security, mem_cons_self⟩
  · rcases mem_cons.mp hm with hnew | hold
    · rw [Mark.queued.injEq] at hnew
      obtain ⟨rfl, rfl, rfl, rfl⟩ := hnew
      exact ha
    · exact hs.authentic mpdu' keys security e hold

theorem handled {mpdu : Bytes} {h : Header} (hframe : DataFrame own mpdu h s)
    (hclear : s.current.map Bss.security = some .wpa2 → ¬ (h.flags &&& fcProtected = 0 ∧ Forwarded h.body s))
    (hh : Handled crypto own mpdu h s s') (hs : ReceivedFrom crypto s) : ReceivedFrom crypto s' := by
  cases hh with
  | ignored => exact hs
  | passed hread => exact hs.read hread
  | answered hread answer => exact (hs.read hread).answered answer
  | queued hread forwarded =>
    refine (hs.read hread).queued ?_
    rcases payloadOf_some hread with ⟨hprot, hd⟩ | ⟨hprot, rfl, rfl⟩
    · exact authentic_read hframe.parsed hframe.frameType hprot hd _
    · intro hwpa2
      exact absurd ⟨hprot, forwarded⟩ (hclear hwpa2)

theorem stepped {c : Call} (hok : NoClear own s c) (h : Stepped crypto own s c s') (hs : ReceivedFrom crypto s) :
    ReceivedFrom crypto s' := by
  cases h with
  | quiet quiet => exact hs.quiet quiet
  | @chosen t _ ssid passphrase before after =>
    have hm : ReceivedFrom crypto (t.mark (.chosen ssid passphrase)) :=
      (hs.quiet before).other (fun _ _ _ _ => by exact nofun) rfl rfl
    exact hm.quiet after
  | sent sent => exact hs.sent sent
  | taken =>
    refine ⟨fun eth he => hs.recorded eth (mem_of_mem_tail he), hs.authentic⟩
  | data call frame handled =>
    subst call
    exact hs.handled frame (fun hw hc => hok hw ⟨_, frame, hc⟩) handled

end ReceivedFrom

end Station

end HamixOS.Wlan

import HamixOS.Wlan.Effects

namespace HamixOS.Wlan

open Lib Option List Keys Nat KeyId

/-!
# Replayed frames

A frame is accepted if its packet number is beyond the last one under its key.  Zero stands for a key
under which nothing was received, and a delivered group key starts a counter again, so both let frames
through twice.

* `Replay` — the invariant: each counter is at the last packet number accepted under its key;
* `accepted_increasing` — packet numbers increase in every run without a second frame numbered zero and
  without a group key that comes back behind its frames.
-/

/-- The packet numbers accepted under a key, newest first. -/
def accepted (id : KeyId) (marks : List Mark) : List Nat :=
  marks.filterMap fun
    | .opened k pn => if k = id then some pn else none
    | _ => none

theorem accepted_opened_self (id : KeyId) (pn : Nat) (marks : List Mark) :
    accepted id (.opened id pn :: marks) = pn :: accepted id marks := by
  unfold accepted
  rw [filterMap_cons_some (by dsimp only; rw [if_pos rfl])]

theorem accepted_opened_of_ne {k id : KeyId} (h : k ≠ id) (pn : Nat) (marks : List Mark) :
    accepted id (.opened k pn :: marks) = accepted id marks := by
  unfold accepted
  rw [filterMap_cons_none (by dsimp only; rw [if_neg h])]

theorem Keys.accepted_gtk (keys : Keys) (h : Header) (pn : Nat) : (keys.accepted h pn).gtk = keys.gtk := by
  unfold Keys.accepted
  split
  · rfl
  · rfl

namespace Station

structure Replay (s : Station) : Prop where
  increasing : ∀ id, (accepted id s.marks).Pairwise (· > ·)
  /-- Nothing was accepted under keys that are not installed yet. -/
  future : ∀ k, installs s.marks < k → accepted (.pairwise k) s.marks = []
  unicast : ∀ keys, s.ptk = some keys → ∀ pn ∈ accepted (.pairwise (installs s.marks)) s.marks, pn ≤ keys.rxPnUnicast
  group : ∀ keys id gtk, s.ptk = some keys → keys.gtk = some (id, gtk) → ∀ pn ∈ accepted (.group gtk) s.marks,
    pn ≤ keys.rxPn id

/-- A second frame with packet number zero under one key, and `ccm_decrypt` would take it. -/
def SecondZero (crypto : Crypto) (own : Bytes) (s : Station) : Call → Prop
  | .onFrame mpdu _ _ => ∃ h keys key id last, DataFrame own mpdu h s ∧ s.ptk = some keys ∧
      selectKey keys s.marks h = some (key, id, last) ∧ packetNumber h.body = 0 ∧ 0 ∈ accepted id s.marks ∧
      (crypto.ccmDecrypt key (ccmpNonceAad (mpdu.take h.headerLen) (packetNumber h.body)).1
        (ccmpNonceAad (mpdu.take h.headerLen) (packetNumber h.body)).2 (h.body.drop 8)).isSome
  | _ => False

/-- A message of the handshake delivers a group key, and the counter it leaves for the key is behind a
    frame that was accepted under it. -/
def KeyComesBack (crypto : Crypto) (own : Bytes) (s : Station) : Call → Prop
  | .onFrame mpdu _ _ => ∃ h payload t m keys plain id gtk, DataFrame own mpdu h s ∧
      s.payloadOf crypto mpdu h = some (payload, t) ∧ Verified crypto t (payload.drop 8) m keys plain ∧
      (m.pairwise → m.nonce = t.anonce) ∧ findGtk plain = some (id, gtk) ∧
      ∃ pn ∈ accepted (.group gtk) t.marks, (if m.pairwise then keys.rxPn id else 0) < pn
  | _ => False

def NoReplay (crypto : Crypto) (own : Bytes) (s : Station) (c : Call) : Prop :=
  ¬ SecondZero crypto own s c ∧ ¬ KeyComesBack crypto own s c

namespace Replay

variable {crypto : Crypto} {own : Bytes} {s s' : Station}

/-- The same frames were accepted, and the keys have the same counters. -/
theorem same (hs : Replay s) (haccepted : ∀ id, accepted id s'.marks = accepted id s.marks)
    (hinstalls : installs s'.marks = installs s.marks)
    (hptk : ∀ keys', s'.ptk = some keys' → ∃ keys, s.ptk = some keys ∧ keys'.rxPnUnicast = keys.rxPnUnicast ∧
      keys'.rxPn = keys.rxPn ∧ keys'.gtk = keys.gtk) : Replay s' := by
  refine ⟨fun id => ?_, fun k => ?_, fun keys' hk => ?_, fun keys' id gtk hk hg => ?_⟩
  · rw [haccepted]
    exact hs.increasing id
  · rw [haccepted, hinstalls]
    exact hs.future k
  · obtain ⟨keys, hkeys, hu, -, -⟩ := hptk keys' hk
    rw [haccepted, hinstalls, hu]
    exact hs.unicast keys hkeys
  · obtain ⟨keys, hkeys, -, hr, hgtk⟩ := hptk keys' hk
    rw [haccepted, hr]
    rw [hgtk] at hg
    exact hs.group keys id gtk hkeys hg

theorem quiet (hs : Replay s) (h : Quiet s s') : Replay s' :=
  hs.same (fun id => by rw [h.marks]) (by rw [h.marks]) fun keys hk => ⟨keys, h.ptk_some hk, rfl, rfl, rfl⟩

theorem sealUnder {keys : Keys} (hk : s.ptk = some keys) (hs : Replay s) : Replay (s.sealUnder keys) := by
  refine hs.same (fun id => rfl) rfl fun keys' hk' => ?_
  obtain rfl := some.inj hk'
  exact ⟨keys, hk, rfl, rfl, rfl⟩

theorem sent (hs : Replay s) (h : Sent s s') : Replay s' :=
  h.keeps (fun h hs => hs.quiet h) (fun hk hs => hs.sealUnder hk) hs

theorem install {m : KeyMessage} {i : Install} (hs : Replay s) : Replay (s.install crypto m i) := by
  have hinstalls : installs (s.install crypto m i).marks = installs s.marks + 1 := countP_cons_of_pos rfl
  have haccepted (id : KeyId) : accepted id (s.install crypto m i).marks = accepted id s.marks := rfl
  refine ⟨hs.increasing, fun k hlt => ?_, fun keys hk pn hm => ?_, fun keys id gtk hk hg => ?_⟩
  · rw [hinstalls] at hlt
    rw [haccepted]
    exact hs.future k (lt_of_succ_lt hlt)
  · -- Nothing was accepted under the keys that are new.
    rw [hinstalls, haccepted, hs.future _ (lt_succ_self _)] at hm
    cases hm
  · obtain rfl := some.inj hk
    cases hg

/-- A packet number that passes the test is beyond all those accepted under its key. -/
theorem beyond {id : KeyId} {pn last : Nat} {marks : List Mark} (hle : ∀ q ∈ accepted id marks, q ≤ last)
    (htest : ¬ (pn ≤ last ∧ last ≠ 0)) (hzero : pn = 0 → 0 ∉ accepted id marks) : ∀ q ∈ accepted id marks, q < pn := by
  intro q hq
  have hql := hle q hq
  by_cases hl : last = 0
  · have hq0 : q = 0 := by omega
    by_contra hnot
    refine hzero (by omega) ?_
    rw [← hq0]
    exact hq
  · omega

section

variable (hs : Replay s)

include hs

theorem opened {mpdu plain : Bytes} {h : Header} (hd : s.decrypt crypto mpdu h = some (plain, s'))
    (hzero : ∀ keys key id last, s.ptk = some keys → selectKey keys s.marks h = some (key, id, last) →
      packetNumber h.body = 0 → (crypto.ccmDecrypt key (ccmpNonceAad (mpdu.take h.headerLen) (packetNumber h.body)).1
        (ccmpNonceAad (mpdu.take h.headerLen) (packetNumber h.body)).2 (h.body.drop 8)).isSome →
      0 ∉ accepted id s.marks) : Replay s' := by
  obtain ⟨keys, key, id, last, hk, hselect, htest, hplain, rfl⟩ := decrypt_some hd
  have hz := fun h0 => hzero keys key id last hk hselect h0 (by rw [hplain]; rfl)
  generalize packetNumber h.body = pn at htest hz ⊢
  have hkeys := selectKey_some hselect
  -- The counter that is compared bounds what was accepted under the same key.
  have hle : ∀ q ∈ accepted id s.marks, q ≤ last := by
    rcases hkeys with ⟨-, hgtk, rfl, rfl⟩ | ⟨-, -, rfl, rfl⟩
    · exact hs.group keys _ key hk hgtk
    · exact hs.unicast keys hk
  have hbeyond := beyond hle htest hz
  have hbound : ∀ q ∈ accepted id (.opened id pn :: s.marks), q ≤ pn := by
    rw [accepted_opened_self]
    intro q hq
    rcases mem_cons.mp hq with rfl | hold
    · exact le_refl _
    · exact le_of_lt (hbeyond q hold)
  refine ⟨fun k => ?_, fun k hlt => ?_, fun keys' hk' q hq => ?_, fun keys' i gtk hk' hg q hq => ?_⟩
  · -- The new number comes behind those of its own key.
    by_cases hid : id = k
    · subst hid
      rw [accepted_opened_self]
      exact pairwise_cons.mpr ⟨hbeyond, hs.increasing id⟩
    · rw [accepted_opened_of_ne hid]
      exact hs.increasing k
  · -- No key of a later installation was used.
    have hne : id ≠ .pairwise k := by
      rcases hkeys with ⟨-, -, rfl, -⟩ | ⟨-, -, rfl, -⟩
      · exact KeyId.noConfusion
      · intro heq
        exact Nat.ne_of_lt hlt (KeyId.pairwise.inj heq)
    rw [accepted_opened_of_ne hne]
    exact hs.future k hlt
  · -- The counter of the pairwise key goes up, or a group key was used.
    obtain rfl := some.inj hk'
    unfold Keys.accepted
    rcases hkeys with ⟨hgroup, -, rfl, -⟩ | ⟨hgroup, -, rfl, -⟩
    · rw [accepted_opened_of_ne KeyId.noConfusion] at hq
      rw [if_pos hgroup]
      exact hs.unicast keys hk q hq
    · rw [if_neg hgroup]
      exact hbound q hq
  · obtain rfl := some.inj hk'
    rw [accepted_gtk] at hg
    unfold Keys.accepted
    rcases hkeys with ⟨hgroup, hgtk, rfl, -⟩ | ⟨hgroup, -, rfl, -⟩
    · rw [hgtk, some.injEq, Prod.mk.injEq] at hg
      obtain ⟨rfl, rfl⟩ := hg
      rw [if_pos hgroup]
      -- The slot of the group key is the one whose counter goes up.
      dsimp only
      rw [Function.update_self]
      exact hbound q hq
    · rw [accepted_opened_of_ne KeyId.noConfusion] at hq
      rw [if_neg hgroup]
      exact hs.group keys i gtk hk hg q hq

/-- A group key that is delivered is used on from the counter of its slot. -/
theorem delivered {reset : Bool} {gtk : Option (Fin 4 × Bytes)}
    (haccepted : ∀ id, accepted id s'.marks = accepted id s.marks) (hinstalls : installs s'.marks = installs s.marks)
    (hptk : s'.ptk = s.ptk.map (regroup reset gtk))
    (hback : ∀ keys id g, s.ptk = some keys → gtk = some (id, g) → ∀ pn ∈ accepted (.group g) s.marks,
      pn ≤ if reset then 0 else keys.rxPn id) : Replay s' := by
  refine ⟨fun id => ?_, fun k => ?_, fun keys' hk => ?_, fun keys' id g hk hg => ?_⟩
  · rw [haccepted]
    exact hs.increasing id
  · rw [haccepted, hinstalls]
    exact hs.future k
  · rw [hptk] at hk
    obtain ⟨keys, hkeys, rfl⟩ := map_eq_some_iff.mp hk
    -- A new group key does not touch the counter of the pairwise one.
    have hu : (keys.regroup reset gtk).rxPnUnicast = keys.rxPnUnicast := by
      cases gtk with
      | none =>
        cases reset with
        | false => rfl
        | true => rfl
      | some g => rfl
    rw [haccepted, hinstalls, hu]
    exact hs.unicast keys hkeys
  · rw [hptk] at hk
    obtain ⟨keys, hkeys, rfl⟩ := map_eq_some_iff.mp hk
    rw [haccepted]
    unfold regroup at hg ⊢
    cases gtk with
    | none =>
      cases reset with
      | false => cases hg
      | true => exact hs.group keys id g hkeys hg
    | some x =>
      dsimp only at hg ⊢
      -- This is where the condition is needed: the slot's counter is that of the key before.
      obtain rfl := some.inj hg
      have hle := hback keys id g hkeys rfl
      cases reset with
      | false => exact hle
      | true =>
        rw [if_pos rfl, Function.update_self]
        exact hle

theorem answered {data : Bytes} (h : Answered crypto own data s s')
    (hback : ∀ m keys plain id gtk, Verified crypto s data m keys plain → (m.pairwise → m.nonce = s.anonce) →
      findGtk plain = some (id, gtk) → ∀ pn ∈ accepted (.group gtk) s.marks, pn ≤ if m.pairwise then keys.rxPn id else 0) :
    Replay s' := by
  cases h with
  | ignored quiet _ _ => exact hs.quiet quiet
  | installed _ _ sent quiet _ _ => exact (hs.install.sent sent).quiet quiet
  | @confirmed m keys plain t _ verified pairwise nonce sent marks ptk _ _ _ =>
    have hr : Replay { s with replay := m.replay } :=
      hs.same (fun _ => rfl) rfl fun keys hk => ⟨keys, hk, rfl, rfl, rfl⟩
    -- The reply leaves the counters and what was accepted as they were.
    have ht : (∀ id, accepted id t.marks = accepted id s.marks) ∧
        ∀ keys', t.ptk = some keys' → keys'.rxPn = keys.rxPn := by
      cases sent with
      | clear quiet same _ =>
        refine ⟨fun id => by rw [quiet.marks], fun keys' hk => ?_⟩
        rw [same] at hk
        obtain rfl := some.inj (verified.ptk.symm.trans hk)
        rfl
      | «sealed» keys' _ hk quiet same _ =>
        refine ⟨fun id => by rw [quiet.marks]; rfl, fun keys'' hk'' => ?_⟩
        rw [same] at hk''
        obtain rfl := some.inj hk''
        obtain rfl := some.inj (verified.ptk.symm.trans hk)
        rfl
    refine (hr.sent sent).delivered (fun id => ?_) ?_ ptk fun keys' id g hk hg => ?_
    · rw [marks]
      rfl
    · rw [marks]
      rfl
    · rw [ht.1, ht.2 keys' hk]
      have hle := hback m keys plain id g verified (fun _ => nonce) hg
      rw [if_pos pairwise] at hle
      exact hle
  | @regrouped m keys plain _ verified pairwise sent =>
    have hset : Replay { s with replay := m.replay, ptk := s.ptk.map (regroup true (findGtk plain)) } := by
      refine hs.delivered (fun _ => rfl) rfl rfl fun keys' id g hk hg => ?_
      have hle := hback m keys plain id g verified (fun hp => absurd hp pairwise) hg
      rw [if_neg pairwise] at hle
      exact hle
    exact hset.sent sent

theorem stepped {c : Call} (hok : NoReplay crypto own s c) (h : Stepped crypto own s c s') : Replay s' := by
  cases h with
  | quiet quiet => exact hs.quiet quiet
  | @chosen t _ ssid passphrase before after =>
    have hm : Replay (t.mark (.chosen ssid passphrase)) :=
      (hs.quiet before).same (fun _ => rfl) rfl fun keys hk => ⟨keys, hk, rfl, rfl, rfl⟩
    exact hm.quiet after
  | sent sent => exact hs.sent sent
  | taken => exact hs.same (fun _ => rfl) rfl fun keys hk => ⟨keys, hk, rfl, rfl, rfl⟩
  | @data mpdu _ _ h _ call frame handled =>
    subst call
    have hread {payload : Bytes} {t : Station} (hp : s.payloadOf crypto mpdu h = some (payload, t)) : Replay t := by
      rcases payloadOf_some hp with ⟨-, hd⟩ | ⟨-, -, rfl⟩
      · refine hs.opened hd fun keys key id last hk hselect h0 hplain hmem => ?_
        exact hok.1 ⟨h, keys, key, id, last, frame, hk, hselect, h0, hmem, hplain⟩
      · exact hs
    cases handled with
    | ignored => exact hs
    | passed read => exact hread read
    | answered read answer =>
      refine (hread read).answered answer fun m keys plain id gtk verified hnonce hgtk pn hpn => ?_
      by_contra hlt
      exact hok.2 ⟨h, _, _, m, keys, plain, id, gtk, frame, read, verified, hnonce, hgtk, pn, hpn, Nat.lt_of_not_le hlt⟩
    | queued read _ =>
      exact (hread read).same (fun _ => rfl) rfl fun keys hk => ⟨keys, hk, rfl, rfl, rfl⟩

end

end Replay

end Station

end HamixOS.Wlan

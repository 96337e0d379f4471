import HamixOS.Wlan.Effects

namespace HamixOS.Wlan

open Lib Option Keys List Nat

/-!
# No packet number is used twice under one installation of keys

`send_data` counts up; the counter starts again only when keys are installed, and these are computed
from numbers drawn in the same call.

* `Nonces.inv_reached` — the packet numbers under each installation increase;
* `step_keys` — a call keeps the keys and their counter, or installs new ones;
* `nonces_unique` — both together.
-/

/-- The packet numbers used under one installation, newest first. -/
def sealedPns (k : Nat) (marks : List Mark) : List Nat :=
  marks.filterMap fun
    | .sealed j pn => if j = k then some pn else none
    | _ => none

/-- The number of frames that were sealed. -/
def sealedCount (marks : List Mark) : Nat :=
  marks.countP fun
    | .sealed _ _ => true
    | _ => false

/-- The marks that concern neither the installation of keys nor their use for sending. -/
def Mark.Other : Mark → Prop
  | .installed _ => False
  | .sealed _ _ => False
  | _ => True

variable {m : Mark}

theorem Mark.Other.sealedPns (h : m.Other) (k : Nat) (marks : List Mark) :
    sealedPns k (m :: marks) = sealedPns k marks := by
  cases m with
  | installed i => exact h.elim
  | «sealed» j pn => exact h.elim
  | chosen ssid passphrase => rfl
  | confirmed message => rfl
  | opened key pn => rfl
  | queued mpdu keys security eth => rfl

theorem Mark.Other.sealedCount (h : m.Other) (marks : List Mark) : sealedCount (m :: marks) = sealedCount marks := by
  cases m with
  | installed i => exact h.elim
  | «sealed» j pn => exact h.elim
  | chosen ssid passphrase => rfl
  | confirmed message => rfl
  | opened key pn => rfl
  | queued mpdu keys security eth => rfl

theorem Mark.Other.installs (h : m.Other) (marks : List Mark) : installs (m :: marks) = installs marks := by
  cases m with
  | installed i => exact h.elim
  | «sealed» j pn => exact h.elim
  | chosen ssid passphrase => rfl
  | confirmed message => rfl
  | opened key pn => rfl
  | queued mpdu keys security eth => rfl

@[simp] theorem installs_installed (i : Install) (marks : List Mark) :
    installs (.installed i :: marks) = installs marks + 1 := countP_cons_of_pos rfl

@[simp] theorem installs_sealed (k pn : Nat) (marks : List Mark) : installs (.sealed k pn :: marks) = installs marks := rfl

@[simp] theorem sealedCount_sealed (k pn : Nat) (marks : List Mark) :
    sealedCount (.sealed k pn :: marks) = sealedCount marks + 1 := countP_cons_of_pos rfl

@[simp] theorem sealedPns_installed (k : Nat) (i : Install) (marks : List Mark) :
    sealedPns k (.installed i :: marks) = sealedPns k marks := rfl

theorem sealedPns_sealed_self (k pn : Nat) (marks : List Mark) :
    sealedPns k (.sealed k pn :: marks) = pn :: sealedPns k marks := by
  unfold sealedPns
  rw [filterMap_cons_some (by dsimp only; rw [if_pos rfl])]

theorem sealedPns_sealed_of_ne {j k : Nat} (h : j ≠ k) (pn : Nat) (marks : List Mark) :
    sealedPns k (.sealed j pn :: marks) = sealedPns k marks := by
  unfold sealedPns
  rw [filterMap_cons_none (by dsimp only; rw [if_neg h])]

theorem regroup_txPn (reset : Bool) (gtk : Option (Fin 4 × Bytes)) (keys : Keys) :
    (keys.regroup reset gtk).txPn = keys.txPn := by
  unfold regroup
  cases gtk with
  | none =>
    cases reset with
    | false => rfl
    | true => rfl
  | some g => rfl

theorem accepted_txPn (keys : Keys) (h : Header) (pn : Nat) : (keys.accepted h pn).txPn = keys.txPn := by
  unfold Keys.accepted
  split
  · rfl
  · rfl

theorem regroup_same (reset : Bool) (gtk : Option (Fin 4 × Bytes)) (keys : Keys) :
    (keys.regroup reset gtk).kck = keys.kck ∧ (keys.regroup reset gtk).kek = keys.kek ∧
      (keys.regroup reset gtk).tk = keys.tk := by
  unfold regroup
  cases gtk with
  | none =>
    cases reset with
    | false => exact ⟨rfl, rfl, rfl⟩
    | true => exact ⟨rfl, rfl, rfl⟩
  | some g => exact ⟨rfl, rfl, rfl⟩

namespace Station

/-- The packet numbers increase, and the counter of the keys is at the last of them. -/
structure Nonces (s : Station) : Prop where
  increasing : ∀ k, (sealedPns k s.marks).Pairwise (· > ·)
  /-- Nothing was sealed under keys that are not installed yet. -/
  future : ∀ k, installs s.marks < k → sealedPns k s.marks = []
  last : ∀ keys, s.ptk = some keys → ∀ pn ∈ sealedPns (installs s.marks) s.marks, pn ≤ keys.txPn
  count : ∀ keys, s.ptk = some keys → keys.txPn ≤ sealedCount s.marks

namespace Nonces

variable {s s' : Station}

theorem quiet (h : Quiet s s') (hs : Nonces s) : Nonces s' := by
  refine ⟨?_, ?_, fun keys hk => ?_, fun keys hk => ?_⟩
  all_goals rw [h.marks]
  · exact hs.increasing
  · exact hs.future
  · exact hs.last keys (h.ptk_some hk)
  · exact hs.count keys (h.ptk_some hk)

/-- Marks of another kind, and keys with the same counter. -/
theorem other (hm : m.Other) (hmarks : s'.marks = m :: s.marks)
    (hptk : ∀ keys', s'.ptk = some keys' → ∃ keys, s.ptk = some keys ∧ keys'.txPn = keys.txPn) (hs : Nonces s) :
    Nonces s' := by
  refine ⟨fun k => ?_, fun k => ?_, fun keys' hk => ?_, fun keys' hk => ?_⟩
  · rw [hmarks, hm.sealedPns]
    exact hs.increasing k
  · rw [hmarks, hm.sealedPns, hm.installs]
    exact hs.future k
  · obtain ⟨keys, hkeys, hpn⟩ := hptk keys' hk
    rw [hmarks, hm.sealedPns, hm.installs, hpn]
    exact hs.last keys hkeys
  · obtain ⟨keys, hkeys, hpn⟩ := hptk keys' hk
    rw [hmarks, hm.sealedCount, hpn]
    exact hs.count keys hkeys

theorem sealUnder {keys : Keys} (hk : s.ptk = some keys) (hcount : sealedCount s.marks < 2 ^ 48 - 1) (hs : Nonces s) :
    Nonces (s.sealUnder keys) := by
  have hle := hs.count keys hk
  have hpn : (keys.txPn + 1) % 2 ^ 64 % 2 ^ 48 = keys.txPn + 1 := by omega
  have hmarks : (s.sealUnder keys).marks = .sealed (installs s.marks) (keys.txPn + 1) :: s.marks := by
    unfold Station.sealUnder
    rw [hpn]
  have hptk : (s.sealUnder keys).ptk = some { keys with txPn := keys.txPn + 1 } := by
    unfold Station.sealUnder
    rw [mod_eq_of_lt (by omega)]
  refine ⟨fun k => ?_, fun k hlt => ?_, fun keys' hk' => ?_, fun keys' hk' => ?_⟩
  · rw [hmarks]
    by_cases hj : installs s.marks = k
    · subst hj
      rw [sealedPns_sealed_self]
      exact pairwise_cons.mpr ⟨fun pn hm => lt_succ_of_le (hs.last keys hk pn hm), hs.increasing _⟩
    · rw [sealedPns_sealed_of_ne hj]
      exact hs.increasing k
  · rw [hmarks, installs_sealed] at hlt
    rw [hmarks, sealedPns_sealed_of_ne (Nat.ne_of_lt hlt)]
    exact hs.future k hlt
  · rw [hptk] at hk'
    obtain rfl := some.inj hk'
    rw [hmarks, installs_sealed, sealedPns_sealed_self]
    intro pn hm
    rcases mem_cons.mp hm with rfl | hm
    · exact le_refl _
    · exact le_succ_of_le (hs.last keys hk pn hm)
  · rw [hptk] at hk'
    obtain rfl := some.inj hk'
    rw [hmarks, sealedCount_sealed]
    exact succ_le_succ hle

theorem install {crypto : Crypto} {m : KeyMessage} {i : Install} (hs : Nonces s) : Nonces (s.install crypto m i) := by
  have hmarks : (s.install crypto m i).marks = .installed i :: s.marks := rfl
  have hnew : sealedPns (installs s.marks + 1) s.marks = [] := hs.future _ (lt_succ_self _)
  refine ⟨fun k => ?_, fun k hlt => ?_, fun keys' hk' => ?_, fun keys' hk' => ?_⟩
  · rw [hmarks, sealedPns_installed]
    exact hs.increasing k
  · rw [hmarks, installs_installed] at hlt
    rw [hmarks, sealedPns_installed]
    exact hs.future k (lt_of_succ_lt hlt)
  · rw [hmarks, installs_installed, sealedPns_installed, hnew]
    intro pn hm
    cases hm
  · obtain rfl := some.inj hk'
    exact zero_le _

end Nonces

/-- As long as fewer than `2 ^ 48` frames were sealed. -/
def NoncesUpTo (s : Station) : Prop := sealedCount s.marks < 2 ^ 48 → Nonces s

variable {crypto : Crypto} {own : Bytes} {s s' : Station}

theorem NoncesUpTo.quiet (h : Quiet s s') (hs : NoncesUpTo s) : NoncesUpTo s' := by
  intro hcount
  rw [h.marks] at hcount
  exact (hs hcount).quiet h

theorem NoncesUpTo.other (hm : m.Other) (hmarks : s'.marks = m :: s.marks)
    (hptk : ∀ keys', s'.ptk = some keys' → ∃ keys, s.ptk = some keys ∧ keys'.txPn = keys.txPn) (hs : NoncesUpTo s) :
    NoncesUpTo s' := by
  intro hcount
  rw [hmarks, hm.sealedCount] at hcount
  exact (hs hcount).other hm hmarks hptk

theorem NoncesUpTo.sealUnder {keys : Keys} (hk : s.ptk = some keys) (hs : NoncesUpTo s) : NoncesUpTo (s.sealUnder keys) := by
  intro hcount
  have hnext : sealedCount (s.sealUnder keys).marks = sealedCount s.marks + 1 := sealedCount_sealed _ _ _
  rw [hnext] at hcount
  exact (hs (by omega)).sealUnder hk (by omega)

theorem NoncesUpTo.install {m : KeyMessage} {i : Install} (hs : NoncesUpTo s) : NoncesUpTo (s.install crypto m i) :=
  fun hcount => (hs hcount).install

theorem NoncesUpTo.sent (h : Sent s s') (hs : NoncesUpTo s) : NoncesUpTo s' :=
  h.keeps (fun h hs => hs.quiet h) (fun hk hs => hs.sealUnder hk) hs

/-- Keys that only got another group key. -/
theorem regroup_some {ptk : Option Keys} {reset : Bool} {gtk : Option (Fin 4 × Bytes)} {keys' : Keys}
    (h : ptk.map (regroup reset gtk) = some keys') : ∃ keys, ptk = some keys ∧ keys' = keys.regroup reset gtk := by
  obtain ⟨keys, hk, heq⟩ := map_eq_some_iff.mp h
  exact ⟨keys, hk, heq.symm⟩

/-- The same marks, and keys with the same counter. -/
theorem NoncesUpTo.same (hmarks : s'.marks = s.marks)
    (hptk : ∀ keys', s'.ptk = some keys' → ∃ keys, s.ptk = some keys ∧ keys'.txPn = keys.txPn) (hs : NoncesUpTo s) :
    NoncesUpTo s' := by
  intro hcount
  rw [hmarks] at hcount
  have h := hs hcount
  refine ⟨?_, ?_, fun keys' hk => ?_, fun keys' hk => ?_⟩
  · rw [hmarks]
    exact h.increasing
  · rw [hmarks]
    exact h.future
  · obtain ⟨keys, hkeys, hpn⟩ := hptk keys' hk
    rw [hmarks, hpn]
    exact h.last keys hkeys
  · obtain ⟨keys, hkeys, hpn⟩ := hptk keys' hk
    rw [hmarks, hpn]
    exact h.count keys hkeys

theorem NoncesUpTo.answered {data : Bytes} (h : Answered crypto own data s s') (hs : NoncesUpTo s) : NoncesUpTo s' := by
  cases h with
  | ignored quiet _ _ => exact hs.quiet quiet
  | installed _ _ sent quiet _ _ => exact ((hs.install).sent sent).quiet quiet
  | confirmed _ _ _ sent marks ptk _ _ _ =>
    have hquiet := NoncesUpTo.sent sent (NoncesUpTo.same (s := s) rfl (fun keys hk => ⟨keys, hk, rfl⟩) hs)
    refine NoncesUpTo.other (m := .confirmed data) trivial marks (fun keys' hk => ?_) hquiet
    rw [ptk] at hk
    obtain ⟨keys, hkeys, rfl⟩ := regroup_some hk
    exact ⟨keys, hkeys, regroup_txPn _ _ _⟩
  | regrouped _ _ sent =>
    refine NoncesUpTo.sent sent (NoncesUpTo.same (s := s) rfl (fun keys' hk => ?_) hs)
    obtain ⟨keys, hkeys, rfl⟩ := regroup_some hk
    exact ⟨keys, hkeys, regroup_txPn _ _ _⟩

variable {h : Header} {mpdu payload : Bytes}

theorem NoncesUpTo.read (hp : s.payloadOf crypto mpdu h = some (payload, s'))
    (hs : NoncesUpTo s) : NoncesUpTo s' := by
  rcases payloadOf_some hp with ⟨-, hd⟩ | ⟨-, -, rfl⟩
  · obtain ⟨keys, key, id, last, hk, -, -, -, rfl⟩ := decrypt_some hd
    refine NoncesUpTo.other (s := s) (m := .opened id (packetNumber h.body)) trivial rfl (fun keys' hk' => ?_) hs
    obtain rfl := some.inj hk'
    exact ⟨keys, hk, accepted_txPn _ _ _⟩
  · exact hs

theorem NoncesUpTo.handled {mpdu : Bytes} (hh : Handled crypto own mpdu h s s') (hs : NoncesUpTo s) :
    NoncesUpTo s' := by
  cases hh with
  | ignored => exact hs
  | passed read => exact hs.read read
  | answered read answer => exact (hs.read read).answered answer
  | @queued payload t read _ =>
    exact NoncesUpTo.other (s := t) (m := .queued mpdu t.ptk (t.current.map Bss.security) (ethernetOf h payload)) trivial rfl
      (fun keys hk => ⟨keys, hk, rfl⟩) (hs.read read)

theorem NoncesUpTo.stepped {c : Call} (h : Stepped crypto own s c s') (hs : NoncesUpTo s) : NoncesUpTo s' := by
  cases h with
  | quiet quiet => exact hs.quiet quiet
  | @chosen t _ ssid passphrase before after =>
    have hchosen : NoncesUpTo (t.mark (.chosen ssid passphrase)) :=
      NoncesUpTo.other (s := t) (m := .chosen ssid passphrase) trivial rfl (fun keys hk => ⟨keys, hk, rfl⟩) (hs.quiet before)
    exact hchosen.quiet after
  | sent sent => exact hs.sent sent
  | taken => exact NoncesUpTo.same (s := s) rfl (fun keys hk => ⟨keys, hk, rfl⟩) hs
  | data _ _ handled => exact hs.handled handled

/-- Over every run the packet numbers under each installation increase. -/
theorem noncesUpTo_reached {ok : Station → Call → Prop} (h : Reached crypto own ok s) : NoncesUpTo s := by
  refine Reach.invariant (I := NoncesUpTo) ?_ ?_ h
  · rintro _ ⟨seed, rfl⟩ -
    refine ⟨fun k => List.Pairwise.nil, fun k _ => rfl, fun keys hk => ?_, fun keys hk => ?_⟩
    · cases hk
    · cases hk
  · rintro s c _ hs - hstep
    obtain rfl := some.inj hstep
    exact hs.stepped (step_stepped s c)

/-! ### Where the counter starts again -/

/-- No keys were installed: those there are were there before, with a counter that was not greater. -/
structure Follows (s s' : Station) : Prop where
  installs : installs s'.marks = installs s.marks
  rng : s'.rng = s.rng
  keys : ∀ keys', s'.ptk = some keys' → ∃ keys, s.ptk = some keys ∧ keys'.kck = keys.kck ∧ keys'.kek = keys.kek ∧
    keys'.tk = keys.tk ∧ keys.txPn ≤ keys'.txPn

theorem Follows.of_ptk (hinstalls : Wlan.installs s'.marks = Wlan.installs s.marks) (hrng : s'.rng = s.rng)
    (hptk : s'.ptk = s.ptk) : Follows s s' := by
  refine ⟨hinstalls, hrng, fun keys hk => ?_⟩
  rw [hptk] at hk
  exact ⟨keys, hk, rfl, rfl, rfl, le_refl _⟩

theorem Follows.refl (s : Station) : Follows s s := .of_ptk rfl rfl rfl

theorem Follows.trans {t : Station} (h : Follows s t) (h' : Follows t s') : Follows s s' := by
  refine ⟨h'.installs.trans h.installs, h'.rng.trans h.rng, fun keys' hk' => ?_⟩
  obtain ⟨mid, hmid, hkck, hkek, htk, hle⟩ := h'.keys keys' hk'
  obtain ⟨keys, hk, hkck', hkek', htk', hle'⟩ := h.keys mid hmid
  exact ⟨keys, hk, hkck.trans hkck', hkek.trans hkek', htk.trans htk', le_trans hle' hle⟩

theorem Quiet.follows (h : Quiet s s') : Follows s s' := by
  refine ⟨by rw [h.marks], h.rng, fun keys hk => ?_⟩
  exact ⟨keys, h.ptk_some hk, rfl, rfl, rfl, le_refl _⟩

/-- The counter is not about to wrap. -/
def Small (s : Station) : Prop := ∀ keys, s.ptk = some keys → keys.txPn < 2 ^ 48

theorem sealUnder_follows {keys : Keys} (hk : s.ptk = some keys) (hsmall : Small s) : Follows s (s.sealUnder keys) := by
  refine ⟨rfl, rfl, fun keys' hk' => ?_⟩
  obtain rfl := some.inj hk'
  have := hsmall keys hk
  refine ⟨keys, hk, rfl, rfl, rfl, ?_⟩
  dsimp only
  omega

theorem Sent.follows (h : Sent s s') (hsmall : Small s) : Follows s s' := by
  cases h with
  | clear quiet _ _ => exact quiet.follows
  | «sealed» keys _ ptk quiet _ _ => exact (sealUnder_follows ptk hsmall).trans quiet.follows

theorem regroup_follows {reset : Bool} {gtk : Option (Fin 4 × Bytes)} (hinstalls : installs s'.marks = installs s.marks)
    (hrng : s'.rng = s.rng) (hptk : s'.ptk = s.ptk.map (regroup reset gtk)) : Follows s s' := by
  refine ⟨hinstalls, hrng, fun keys' hk' => ?_⟩
  rw [hptk] at hk'
  obtain ⟨keys, hk, rfl⟩ := regroup_some hk'
  obtain ⟨hkck, hkek, htk⟩ := regroup_same reset gtk keys
  exact ⟨keys, hk, hkck, hkek, htk, le_of_eq (regroup_txPn _ _ _).symm⟩

theorem payloadOf_follows (hp : s.payloadOf crypto mpdu h = some (payload, s')) :
    Follows s s' := by
  rcases payloadOf_some hp with ⟨-, hd⟩ | ⟨-, -, rfl⟩
  · obtain ⟨keys, key, id, last, hk, -, -, -, rfl⟩ := decrypt_some hd
    have hm : (Mark.opened id (packetNumber h.body)).Other := trivial
    refine ⟨hm.installs _, rfl, fun keys' hk' => ?_⟩
    obtain rfl := some.inj hk'
    refine ⟨keys, hk, ?_⟩
    unfold Keys.accepted
    split
    · exact ⟨rfl, rfl, rfl, le_refl _⟩
    · exact ⟨rfl, rfl, rfl, le_refl _⟩
  · exact Follows.refl _

/-- Keys were installed that are computed from the next four words of the generator. -/
structure Renewed (crypto : Crypto) (s s' : Station) : Prop where
  installs : installs s'.marks = installs s.marks + 1
  rng : s'.rng = (drawNonce s.rng).2
  keys : ∃ i : Install, i.snonce = (drawNonce s.rng).1 ∧ .installed i ∈ s'.marks ∧
    ∀ keys, s'.ptk = some keys → keys.kck = (pairwiseKeys crypto i).kck ∧ keys.kek = (pairwiseKeys crypto i).kek ∧
      keys.tk = (pairwiseKeys crypto i).tk

theorem Small.of_count (hs : NoncesUpTo s) (hcount : sealedCount s.marks < 2 ^ 48) : Small s := by
  intro keys hk
  have := (hs hcount).count keys hk
  omega

theorem Small.read (hp : s.payloadOf crypto mpdu h = some (payload, s')) (hs : Small s) :
    Small s' := by
  rcases payloadOf_some hp with ⟨-, hd⟩ | ⟨-, -, rfl⟩
  · obtain ⟨keys, key, id, last, hk, -, -, -, rfl⟩ := decrypt_some hd
    intro keys' hk'
    obtain rfl := some.inj hk'
    rw [accepted_txPn]
    exact hs keys hk
  · exact hs

theorem Answered.keys {data : Bytes} (h : Answered crypto own data s s') (hsmall : Small s) :
    Follows s s' ∨ Renewed crypto s s' := by
  cases h with
  | ignored quiet _ _ => exact .inl quiet.follows
  | @installed m bss pmk t _ _ _ sent quiet _ _ =>
    right
    -- New keys start to count at zero.
    have hsmall' : Small (s.install crypto m ⟨pmk, own, bss.bssid, m.nonce, (drawNonce s.rng).1⟩) := by
      intro keys hk
      obtain rfl := some.inj hk
      exact Nat.two_pow_pos 48
    have hf := (sent.follows hsmall').trans quiet.follows
    refine ⟨?_, hf.rng, ⟨pmk, own, bss.bssid, m.nonce, (drawNonce s.rng).1⟩, rfl, ?_, fun keys hk => ?_⟩
    · rw [hf.installs]
      exact installs_installed _ _
    · -- The installation is in the history, maybe behind the reply that was sealed.
      rw [quiet.marks]
      cases sent with
      | clear hq _ _ =>
        rw [hq.marks]
        exact mem_cons_self
      | «sealed» _ _ _ hq _ _ =>
        rw [hq.marks]
        exact mem_cons_of_mem _ mem_cons_self
    · obtain ⟨keys', hk', hkck, hkek, htk, -⟩ := hf.keys keys hk
      obtain rfl := some.inj hk'
      exact ⟨hkck, hkek, htk⟩
  | @confirmed m keys plain t _ _ _ _ sent marks ptk _ rng _ =>
    left
    have hbefore : Follows s { s with replay := m.replay } := .of_ptk rfl rfl rfl
    -- A confirmation is no installation and seals nothing.
    have hm : (Mark.confirmed data).Other := trivial
    refine (hbefore.trans (sent.follows hsmall)).trans (regroup_follows ?_ rng ptk)
    rw [marks, hm.installs]
  | @regrouped m keys plain _ _ _ sent =>
    left
    have hset : Follows s { s with replay := m.replay, ptk := s.ptk.map (regroup true (findGtk plain)) } :=
      regroup_follows rfl rfl rfl
    refine hset.trans (sent.follows fun keys' hk' => ?_)
    obtain ⟨keys'', hk'', rfl⟩ := regroup_some hk'
    rw [regroup_txPn]
    exact hsmall keys'' hk''

theorem Follows.renewed {t : Station} (h : Follows s t) (h' : Renewed crypto t s') : Renewed crypto s s' := by
  refine ⟨by rw [h'.installs, h.installs], by rw [h'.rng, h.rng], ?_⟩
  rw [← h.rng]
  exact h'.keys

/-- A call keeps the keys and does not lower their counter, or installs keys computed from a nonce that it
    draws itself. -/
theorem step_keys (hsmall : Small s) (c : Call) :
    Follows s (s.step crypto own c) ∨ Renewed crypto s (s.step crypto own c) := by
  have hstep : Stepped crypto own s c (s.step crypto own c) := step_stepped s c
  generalize s.step crypto own c = s' at hstep
  cases hstep with
  | quiet quiet => exact .inl quiet.follows
  | @chosen t _ ssid passphrase before after =>
    have hm : (Mark.chosen ssid passphrase).Other := trivial
    have hmark : Follows t (t.mark (.chosen ssid passphrase)) := .of_ptk (hm.installs _) rfl rfl
    exact .inl ((before.follows.trans hmark).trans after.follows)
  | sent sent => exact .inl (sent.follows hsmall)
  | taken => exact .inl (.of_ptk rfl rfl rfl)
  | @data mpdu _ _ h _ _ _ handled =>
    cases handled with
    | ignored => exact .inl (Follows.refl s)
    | passed read => exact .inl (payloadOf_follows read)
    | answered read answer =>
      rcases answer.keys (hsmall.read read) with hf | hr
      · exact .inl ((payloadOf_follows read).trans hf)
      · exact .inr ((payloadOf_follows read).renewed hr)
    | @queued payload t read _ =>
      have hm : (Mark.queued mpdu t.ptk (t.current.map Bss.security) (ethernetOf h payload)).Other := trivial
      exact .inl ((payloadOf_follows read).trans (.of_ptk (hm.installs _) rfl rfl))

end Station

end HamixOS.Wlan

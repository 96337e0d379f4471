import HamixOS.Kernel.UnixStream

open HamixOS.Lib List Function Option OrdMap Nat

namespace HamixOS.Kernel.Unix

/-!
# The table of Unix sockets over a run

Any sequence of the calls.  `Consistent` is what the table keeps: connected sockets name each
other, a name and its socket name each other, a connection in a backlog is there once and was
not handed out, and the byte count of a socket is what its queue still holds.

The one way to lose it is the counter of ids, which wraps after `2 ^ 32` sockets and may then
give out the id of a socket that is still open.  `Unused` excludes that (`consistent`).
-/

variable {F : Type}

/-- The bytes a queue still holds. -/
def unreadBytes (rx : List (Packet F)) : Nat := (rx.map fun p => p.unread.length).sum

/-- How often `id` stands in a backlog, over all sockets. -/
def queued (t : Table F) (id : Nat) : Nat := t.socks.total fun s => (Table.Link.waiting s.link).count id

structure Consistent (t : Table F) : Prop where
  links : ∀ i s p, t.socks.get i = some s → s.link = .connected p →
    ∃ q, t.socks.get p = some q ∧ q.link = .connected i
  names : ∀ n i, t.names n = some i ↔ ∃ s, t.socks.get i = some s ∧ s.name = some n
  backlog : ∀ i, 0 < queued t i → queued t i = 1 ∧ (∃ s, t.socks.get i = some s) ∧ t.accepted i = false
  bytes : ∀ i s, t.socks.get i = some s → s.rxBytes = unreadBytes s.rx

inductive Call (F : Type) where
  | create (kind : Kind) (cred : Cred)
  | pair (kind : Kind) (cred : Cred)
  | bind (id : Nat) (name : String)
  | forgetName (name : String)
  | listen (id backlog : Nat)
  | connect (id : Nat) (name : String) (cred : Cred)
  | accept (id : Nat)
  | send (id : Nat) (data : List UInt8) (fds : List F) (name : Option String) (caller : Table.Caller)
  | recv (id max : Nat) (peek : Bool)
  | shutdown (id how : Nat)
  | retain (id : Nat)
  | release (id : Nat)

/-- One call; `retain` and `release` are made by a holder of the id. -/
def step (t : Table F) : Call F → Option (Table F)
  | .create kind cred => some (t.create kind cred).1
  | .pair kind cred => some (t.pair kind cred).1
  | .bind id name => some (t.bind id name).1
  | .forgetName name => some (t.forgetName name)
  | .listen id backlog => some (t.listen id backlog).1
  | .connect id name cred => some (t.connect id name cred).1
  | .accept id => some (t.accept id).1
  | .send id data fds name caller => some (t.send id data fds name caller).1
  | .recv id max peek => some (t.recv id max peek).1
  | .shutdown id how => some (t.shutdown id how).1
  | .retain id => if 0 < t.held id then some (t.retain id) else none
  | .release id => if 0 < t.held id then some (t.release id).1 else none

/-- Whether a `connect` gets as far as making a server half. -/
def Dials (t : Table F) (id : Nat) (name : String) : Prop :=
  ∃ target me listener q max, t.names name = some target ∧ t.socks.get id = some me ∧
    t.socks.get target = some listener ∧ listener.kind = me.kind ∧ me.kind ≠ .dgram ∧ me.link = .fresh ∧
    listener.link = .listening q max ∧ q.length < max

/-- No id that the call takes from the counter is that of a socket in the table. -/
def Unused (t : Table F) : Call F → Prop
  | .create _ _ => t.socks.get t.next = none
  | .pair _ _ => t.socks.get t.next = none ∧ t.socks.get (Table.after t.next) = none
  | .connect id name _ => Dials t id name → t.socks.get t.next = none
  | _ => True

/-! ### The invariant -/

structure Inv (t : Table F) : Prop extends Consistent t where
  offsets : ∀ i s, t.socks.get i = some s → s.kind ≠ .stream → ∀ p ∈ s.rx, p.offset = 0
  held : ∀ i, 0 < t.held i → ∃ s, t.socks.get i = some s ∧ s.refs = t.held i
  unheld : ∀ i, 0 < queued t i → t.held i = 0 ∧ ∀ s, t.socks.get i = some s → s.refs = 1

variable {t : Table F}

variable {i : Nat}

/-- Nobody refers to an id that is not in the table. -/
theorem Inv.absent (h : Inv t) (hi : t.socks.get i = none) :
    t.held i = 0 ∧ queued t i = 0 ∧ ∀ n, t.names n ≠ some i := by
  refine ⟨?_, ?_, ?_⟩
  · refine Nat.eq_zero_of_not_pos fun hpos => ?_
    obtain ⟨s, hs, -⟩ := h.held i hpos
    rw [hi] at hs
    cases hs
  · refine Nat.eq_zero_of_not_pos fun hpos => ?_
    obtain ⟨-, ⟨s, hs⟩, -⟩ := h.backlog i hpos
    rw [hi] at hs
    cases hs
  · intro n hn
    obtain ⟨s, hs, -⟩ := (h.names n i).mp hn
    rw [hi] at hs
    cases hs

theorem queued_put {a b : Sock F} (ha : t.socks.get i = some a) (j : Nat) :
    queued { t with socks := t.socks.put i b } j + (Table.Link.waiting a.link).count j =
      queued t j + (Table.Link.waiting b.link).count j :=
  total_put_some _ ha b

theorem queued_put_none {b : Sock F} (hi : t.socks.get i = none) (j : Nat) :
    queued { t with socks := t.socks.put i b } j = queued t j + (Table.Link.waiting b.link).count j :=
  total_put_none _ hi b

/-- An entry that is rewritten with its references, its name and its links as they were, and
    with a count that fits its queue. -/
structure Kin (a b : Sock F) : Prop where
  refs : b.refs = a.refs
  name : b.name = a.name
  connected : ∀ p, b.link = .connected p ↔ a.link = .connected p
  waiting : Table.Link.waiting b.link = Table.Link.waiting a.link
  bytes : b.rxBytes = unreadBytes b.rx
  offsets : b.kind ≠ .stream → ∀ p ∈ b.rx, p.offset = 0

/-- An entry is replaced, and the names and the holders follow. -/
theorem Inv.replace (h : Inv t) {a b : Sock F} (ha : t.socks.get i = some a)
    (hconnected : ∀ p, b.link = .connected p ↔ a.link = .connected p)
    (hwaiting : Table.Link.waiting b.link = Table.Link.waiting a.link) (hbytes : b.rxBytes = unreadBytes b.rx)
    (hoffsets : b.kind ≠ .stream → ∀ p ∈ b.rx, p.offset = 0) {names : String → Option Nat} {held : Nat → Nat}
    (hnames : ∀ n j, names n = some j ↔ (j = i ∧ b.name = some n) ∨ (j ≠ i ∧ t.names n = some j))
    (hother : ∀ j, j ≠ i → held j = t.held j) (hheld : 0 < held i → b.refs = held i)
    (hunheld : 0 < queued t i → held i = 0 ∧ b.refs = 1) :
    Inv { t with socks := t.socks.put i b, names := names, held := held } := by
  have hself : (t.socks.put i b).get i = some b := by rw [get_put_self]
  have hkept : ∀ {j}, j ≠ i → (t.socks.put i b).get j = t.socks.get j := by
    intro j hne
    rw [get_put_of_ne hne.symm]
  -- an entry keeps its peer
  have hput : ∀ {j s}, t.socks.get j = some s → ∃ s', (t.socks.put i b).get j = some s' ∧
      ∀ p, s'.link = .connected p ↔ s.link = .connected p := by
    intro j s hj
    by_cases hij : j = i
    · rw [hij, ha] at hj
      cases hj
      rw [hij]
      exact ⟨b, hself, hconnected⟩
    · exact ⟨s, (hkept hij).trans hj, fun _ => .rfl⟩
  have hqueued : ∀ j, queued { t with socks := t.socks.put i b, names := names, held := held } j = queued t j := by
    intro j
    have hsum := queued_put (b := b) ha j
    rw [hwaiting] at hsum
    exact add_right_cancel hsum
  refine ⟨⟨?_, ?_, ?_, ?_⟩, ?_, ?_, ?_⟩
  · intro j s p hj hp
    have hold : ∃ s', t.socks.get j = some s' ∧ s'.link = .connected p := by
      rcases get_put_cases hj with ⟨rfl, rfl⟩ | ⟨-, hold⟩
      · exact ⟨a, ha, (hconnected p).mp hp⟩
      · exact ⟨s, hold, hp⟩
    obtain ⟨s', hs', hp'⟩ := hold
    obtain ⟨q, hq, hqj⟩ := h.links j s' p hs' hp'
    obtain ⟨q', hq', hlink⟩ := hput hq
    exact ⟨q', hq', (hlink j).mpr hqj⟩
  · intro n j
    show names n = some j ↔ _
    rw [hnames]
    constructor
    · rintro (⟨rfl, hn⟩ | ⟨hne, hn⟩)
      · exact ⟨b, hself, hn⟩
      · obtain ⟨s, hs, hname⟩ := (h.names n j).mp hn
        exact ⟨s, (hkept hne).trans hs, hname⟩
    · rintro ⟨s, hs, hn⟩
      rcases get_put_cases hs with ⟨rfl, rfl⟩ | ⟨hne, hold⟩
      · exact .inl ⟨rfl, hn⟩
      · exact .inr ⟨hne, (h.names n j).mpr ⟨s, hold, hn⟩⟩
  · intro j hj
    have hj' : 0 < queued t j := hqueued j ▸ hj
    obtain ⟨hone, ⟨s, hs⟩, hacc⟩ := h.backlog j hj'
    obtain ⟨s', hs', -⟩ := hput hs
    exact ⟨(hqueued j).trans hone, ⟨s', hs'⟩, hacc⟩
  · intro j s hj
    rcases get_put_cases hj with ⟨rfl, rfl⟩ | ⟨-, hold⟩
    · exact hbytes
    · exact h.bytes j s hold
  · intro j s hj
    rcases get_put_cases hj with ⟨rfl, rfl⟩ | ⟨-, hold⟩
    · exact hoffsets
    · exact h.offsets j s hold
  · intro j hj
    by_cases hij : j = i
    · rw [hij] at hj ⊢
      exact ⟨b, hself, hheld hj⟩
    · obtain ⟨s, hs, hrefs⟩ := h.held j ((hother j hij) ▸ hj)
      exact ⟨s, (hkept hij).trans hs, hrefs.trans (hother j hij).symm⟩
  · intro j hj
    have hj' : 0 < queued t j := hqueued j ▸ hj
    by_cases hij : j = i
    · rw [hij] at hj' ⊢
      refine ⟨(hunheld hj').1, fun s hs => ?_⟩
      rw [some.inj (hs.symm.trans hself)]
      exact (hunheld hj').2
    · exact ⟨(hother j hij).trans (h.unheld j hj').1, fun s hs => (h.unheld j hj').2 s ((hkept hij).symm.trans hs)⟩

variable {a : Sock F}

section

variable (h : Inv t)

include h

/-- The names that a table has, when an entry keeps its own. -/
theorem Inv.names_kept (ha : t.socks.get i = some a) (n : String) (j : Nat) :
    t.names n = some j ↔ (j = i ∧ a.name = some n) ∨ (j ≠ i ∧ t.names n = some j) := by
  by_cases hij : j = i
  · rw [hij, h.names n i, ha]
    simp
  · simp [hij]

theorem Inv.rewrite {a b : Sock F} (ha : t.socks.get i = some a) (hk : Kin a b) :
    Inv { t with socks := t.socks.put i b } := by
  refine h.replace ha hk.connected hk.waiting hk.bytes hk.offsets (fun n j => ?_) (fun _ _ => rfl) (fun hi => ?_) fun hi => ?_
  · rw [hk.name]
    exact h.names_kept ha n j
  · obtain ⟨s, hs, hrefs⟩ := h.held i hi
    rw [ha] at hs
    cases hs
    exact hk.refs.trans hrefs
  · exact ⟨(h.unheld i hi).1, hk.refs.trans ((h.unheld i hi).2 a ha)⟩

/-- A socket nobody refers to is put under an id that is not in the table. -/
theorem Inv.insert (hi : t.socks.get i = none) (hlink : a.link = .fresh)
    (hname : a.name = none) (hrx : a.rx = []) (hbytes : a.rxBytes = 0) : Inv (t.insert i a) := by
  obtain ⟨hheld, hwait, -⟩ := h.absent hi
  have hput : ∀ {j s}, t.socks.get j = some s → (t.socks.put i a).get j = some s := fun hj => by
    rw [get_put_of_ne (get_ne hj hi).symm, hj]
  have hqueued : ∀ j, queued (t.insert i a) j = queued t j := by
    intro j
    have hsum : queued (t.insert i a) j = queued t j + (Table.Link.waiting a.link).count j := queued_put_none hi j
    rw [hsum, hlink]
    rfl
  refine ⟨⟨?_, ?_, ?_, ?_⟩, ?_, ?_, ?_⟩
  · intro j s p hj hp
    rcases get_put_cases hj with ⟨rfl, rfl⟩ | ⟨-, hold⟩
    · rw [hlink] at hp
      cases hp
    · obtain ⟨q, hq, hqj⟩ := h.links j s p hold hp
      exact ⟨q, hput hq, hqj⟩
  · intro n j
    show t.names n = some j ↔ _
    rw [h.names n j]
    constructor
    · rintro ⟨s, hs, hn⟩
      exact ⟨s, hput hs, hn⟩
    · rintro ⟨s, hs, hn⟩
      rcases get_put_cases hs with ⟨rfl, rfl⟩ | ⟨-, hold⟩
      · rw [hname] at hn
        cases hn
      · exact ⟨s, hold, hn⟩
  · intro j hj
    rw [hqueued] at hj ⊢
    obtain ⟨hone, ⟨s, hs⟩, hacc⟩ := h.backlog j hj
    refine ⟨hone, ⟨s, hput hs⟩, ?_⟩
    show update t.accepted i false j = false
    by_cases hij : j = i
    · rw [hij, update_self]
    · rw [update_of_ne hij]
      exact hacc
  · intro j s hj
    rcases get_put_cases hj with ⟨rfl, rfl⟩ | ⟨-, hold⟩
    · rw [hbytes, hrx]
      rfl
    · exact h.bytes j s hold
  · intro j s hj
    rcases get_put_cases hj with ⟨rfl, rfl⟩ | ⟨-, hold⟩
    · rw [hrx]
      nofun
    · exact h.offsets j s hold
  · intro j hj
    obtain ⟨s, hs, hrefs⟩ := h.held j hj
    exact ⟨s, hput hs, hrefs⟩
  · intro j hj
    rw [hqueued] at hj
    obtain ⟨hzero, hone⟩ := h.unheld j hj
    refine ⟨hzero, fun s hs => ?_⟩
    rcases get_put_cases hs with ⟨rfl, rfl⟩ | ⟨-, hold⟩
    · omega
    · exact hone s hold

/-- A socket nobody refers to yet gets its first holder. -/
theorem Inv.hold (ha : t.socks.get i = some a) (hrefs : a.refs = 1)
    (hheld : t.held i = 0) (hwait : queued t i = 0) : Inv (t.hold i) := by
  refine ⟨⟨h.links, h.names, h.backlog, h.bytes⟩, h.offsets, ?_, ?_⟩
  · intro j hj
    have hj' : 0 < update t.held i (t.held i + 1) j := hj
    show ∃ s, t.socks.get j = some s ∧ s.refs = update t.held i (t.held i + 1) j
    by_cases hij : j = i
    · rw [hij, update_self, hheld]
      exact ⟨a, ha, hrefs⟩
    · rw [update_of_ne hij] at hj' ⊢
      exact h.held j hj'
  · intro j hj
    have hj' : 0 < queued t j := hj
    obtain ⟨hzero, hone⟩ := h.unheld j hj'
    refine ⟨?_, hone⟩
    show update t.held i (t.held i + 1) j = 0
    rw [update_of_ne]
    · exact hzero
    · rintro rfl
      omega

/-- The invariant does not read the counter. -/
theorem Inv.counter (next : Nat) : Inv { t with next := next } :=
  ⟨⟨h.links, h.names, h.backlog, h.bytes⟩, h.offsets, h.held, h.unheld⟩

end

/-! ### Links -/

/-- A socket of which only the link and what is not counted may have changed. -/
structure Same (a b : Sock F) : Prop where
  refs : b.refs = a.refs
  name : b.name = a.name
  kind : b.kind = a.kind
  rx : b.rx = a.rx
  rxBytes : b.rxBytes = a.rxBytes

theorem Same.refl (a : Sock F) : Same a a := ⟨rfl, rfl, rfl, rfl, rfl⟩

/-- Links change and the sockets of `gone` go: what is left to show is about links and backlogs. -/
theorem Inv.relink (h : Inv t) {t' : Table F} (gone : Nat → Prop) (hheld : t'.held = t.held) (hgone : ∀ j, gone j → t.held j = 0)
    (hnames : ∀ n j, t'.names n = some j ↔ ¬ gone j ∧ t.names n = some j)
    (hback : ∀ {j s'}, t'.socks.get j = some s' → ¬ gone j ∧ ∃ s, t.socks.get j = some s ∧ Same s s')
    (hforth : ∀ {j s}, ¬ gone j → t.socks.get j = some s → ∃ s', t'.socks.get j = some s' ∧ Same s s')
    (hlinks : ∀ i s p, t'.socks.get i = some s → s.link = .connected p →
      ∃ q, t'.socks.get p = some q ∧ q.link = .connected i)
    (hqueue : ∀ j, 0 < queued t' j → queued t' j = 1 ∧ t'.accepted j = false ∧ t.held j = 0 ∧ ¬ gone j ∧
      ∃ s, t.socks.get j = some s ∧ s.refs = 1) : Inv t' := by
  refine ⟨⟨hlinks, ?_, ?_, ?_⟩, ?_, ?_, ?_⟩
  · intro n j
    rw [hnames, h.names n j]
    constructor
    · rintro ⟨hin, s, hs, hn⟩
      obtain ⟨s', hs', hsame⟩ := hforth hin hs
      exact ⟨s', hs', hsame.name.trans hn⟩
    · rintro ⟨s', hs', hn⟩
      obtain ⟨hin, s, hs, hsame⟩ := hback hs'
      exact ⟨hin, s, hs, hsame.name ▸ hn⟩
  · intro j hj
    obtain ⟨hone, hacc, -, hin, s, hs, -⟩ := hqueue j hj
    obtain ⟨s', hs', -⟩ := hforth hin hs
    exact ⟨hone, ⟨s', hs'⟩, hacc⟩
  · intro j s' hj
    obtain ⟨-, s, hs, hsame⟩ := hback hj
    rw [hsame.rxBytes, hsame.rx]
    exact h.bytes j s hs
  · intro j s' hj
    obtain ⟨-, s, hs, hsame⟩ := hback hj
    rw [hsame.kind, hsame.rx]
    exact h.offsets j s hs
  · intro j hj
    rw [hheld] at hj ⊢
    obtain ⟨s, hs, hrefs⟩ := h.held j hj
    obtain ⟨s', hs', hsame⟩ := hforth (fun hg => absurd (hgone j hg) (ne_of_gt hj)) hs
    exact ⟨s', hs', hsame.refs.trans hrefs⟩
  · intro j hj
    obtain ⟨-, -, hzero, -, s, hs, hone⟩ := hqueue j hj
    refine ⟨hheld ▸ hzero, fun s' hs' => ?_⟩
    obtain ⟨-, s0, hs0, hsame⟩ := hback hs'
    rw [hs] at hs0
    cases hs0
    exact hsame.refs.trans hone

/-- What the invariant says of a queued id, in one piece. -/
theorem Inv.waiting (h : Inv t) {j : Nat} (hj : 0 < queued t j) :
    queued t j = 1 ∧ t.accepted j = false ∧ t.held j = 0 ∧ ∃ s, t.socks.get j = some s ∧ s.refs = 1 := by
  obtain ⟨hone, ⟨s, hs⟩, hacc⟩ := h.backlog j hj
  obtain ⟨hheld, hrefs⟩ := h.unheld j hj
  exact ⟨hone, hacc, hheld, s, hs, hrefs s hs⟩

variable {socks : OrdMap (Sock F)}

/-- One entry is written over by one that is the same but for the link. -/
theorem put_back {a a' : Sock F} (ha : socks.get i = some a) (hsame : Same a a')
    {j : Nat} {s' : Sock F} (hj : (socks.put i a').get j = some s') : ∃ s, socks.get j = some s ∧ Same s s' := by
  rcases get_put_cases hj with ⟨rfl, rfl⟩ | ⟨-, hj⟩
  · exact ⟨a, ha, hsame⟩
  · exact ⟨s', hj, Same.refl s'⟩

theorem put_forth {a a' : Sock F} (ha : socks.get i = some a) (hsame : Same a a')
    {j : Nat} {s : Sock F} (hj : socks.get j = some s) : ∃ s', (socks.put i a').get j = some s' ∧ Same s s' := by
  rw [get_put]
  split_ifs with hij
  · rw [← hij, ha] at hj
    cases hj
    exact ⟨a', rfl, hsame⟩
  · exact ⟨s, hj, Same.refl s⟩

theorem Same.trans {a b c : Sock F} (h : Same a b) (h' : Same b c) : Same a c :=
  ⟨h'.refs.trans h.refs, h'.name.trans h.name, h'.kind.trans h.kind, h'.rx.trans h.rx, h'.rxBytes.trans h.rxBytes⟩

/-- Two fresh sockets are connected to each other. -/
def marry (t : Table F) (i j : Nat) (a b : Sock F) : Table F := { t with socks := (t.socks.put i a).put j b }

theorem get_marry {i j : Nat} (hij : i ≠ j) (a b : Sock F) :
    (marry t i j a b).socks.get i = some a ∧ (marry t i j a b).socks.get j = some b := by
  unfold marry
  rw [get_put_of_ne hij.symm, get_put_self, get_put_self]
  exact ⟨rfl, rfl⟩

theorem queued_marry {i j : Nat} {a b : Sock F} (a' b' : Sock F) (hij : i ≠ j) (ha : t.socks.get i = some a)
    (hb : t.socks.get j = some b) (hfa : a.link = .fresh) (hfb : b.link = .fresh)
    (hla : a'.link = .connected j) (hlb : b'.link = .connected i) (k : Nat) :
    queued (marry t i j a' b') k = queued t k := by
  have hb' : ({ t with socks := t.socks.put i a' } : Table F).socks.get j = some b := by
    rw [get_put_of_ne hij]
    exact hb
  have h1 := queued_put (b := a') ha k
  have h2 := queued_put (b := b') hb' k
  rw [hfa, hla] at h1
  rw [hfb, hlb] at h2
  exact h2.trans h1

theorem Inv.marry (h : Inv t) {i j : Nat} {a b : Sock F} (a' b' : Sock F) (hij : i ≠ j) (ha : t.socks.get i = some a)
    (hb : t.socks.get j = some b) (hfa : a.link = .fresh) (hfb : b.link = .fresh)
    (hla : a'.link = .connected j) (hlb : b'.link = .connected i) (hsa : Same a a') (hsb : Same b b') :
    Inv (marry t i j a' b') := by
  obtain ⟨hgi, hgj⟩ := get_marry (t := t) hij a' b'
  have hb' : (t.socks.put i a').get j = some b := by
    rw [get_put_of_ne hij]
    exact hb
  have hget : ∀ {k s}, (Unix.marry t i j a' b').socks.get k = some s →
      (k = i ∧ s = a') ∨ (k = j ∧ s = b') ∨ t.socks.get k = some s := by
    intro k s hk
    unfold Unix.marry at hk
    dsimp only at hk
    rw [get_put, get_put] at hk
    split_ifs at hk with h1 h2
    · exact .inr (.inl ⟨h1.symm, (some.inj hk).symm⟩)
    · exact .inl ⟨h2.symm, (some.inj hk).symm⟩
    · exact .inr (.inr hk)
  have hother : ∀ {k}, k ≠ i → k ≠ j → (Unix.marry t i j a' b').socks.get k = t.socks.get k := by
    intro k h1 h2
    unfold Unix.marry
    dsimp only
    rw [get_put_of_ne h2.symm, get_put_of_ne h1.symm]
  refine h.relink (fun _ => False) rfl (fun _ => False.elim) (fun _ _ => (and_iff_right not_false).symm) ?_ ?_ ?_ ?_
  · intro k s' hk
    obtain ⟨s1, hs1, hsame1⟩ := put_back hb' hsb hk
    obtain ⟨s, hs, hsame⟩ := put_back ha hsa hs1
    exact ⟨id, s, hs, hsame.trans hsame1⟩
  · intro k s _ hk
    obtain ⟨s1, hs1, hsame1⟩ := put_forth ha hsa hk
    obtain ⟨s', hs', hsame'⟩ := put_forth hb' hsb hs1
    exact ⟨s', hs', hsame1.trans hsame'⟩
  · intro k s p hk hp
    rcases hget hk with ⟨rfl, rfl⟩ | ⟨rfl, rfl⟩ | hold
    · rw [hla] at hp
      cases hp
      exact ⟨b', hgj, hlb⟩
    · rw [hlb] at hp
      cases hp
      exact ⟨a', hgi, hla⟩
    · -- the peer of another socket is connected, so it is neither of the two
      obtain ⟨q, hq, hqk⟩ := h.links k s p hold hp
      refine ⟨q, ?_, hqk⟩
      rw [hother]
      · exact hq
      · rintro rfl
        rw [ha] at hq
        cases hq
        rw [hfa] at hqk
        cases hqk
      · rintro rfl
        rw [hb] at hq
        cases hq
        rw [hfb] at hqk
        cases hqk
  · intro k hk
    have hk' := queued_marry a' b' hij ha hb hfa hfb hla hlb k
    rw [hk'] at hk ⊢
    obtain ⟨hone, hacc, hzero, hs⟩ := h.waiting hk
    exact ⟨hone, hacc, hzero, id, hs⟩

/-- A listener gets another backlog, whose connections are each waiting once. -/
theorem Inv.rebacklog (h : Inv t) {l : Sock F} {q : List Nat} {max : Nat} (q' : List Nat) (max' : Nat)
    (accepted : Nat → Bool) (hl : t.socks.get i = some l) (hlink : l.link = .listening q max)
    (hqueue : ∀ j, 0 < queued { t with socks := t.socks.put i { l with link := .listening q' max' } } j →
      queued { t with socks := t.socks.put i { l with link := .listening q' max' } } j = 1 ∧ accepted j = false ∧
        t.held j = 0 ∧ ∃ s, t.socks.get j = some s ∧ s.refs = 1) :
    Inv { t with socks := t.socks.put i { l with link := .listening q' max' }, accepted := accepted } := by
  have hsame : Same l { l with link := .listening q' max' } := ⟨rfl, rfl, rfl, rfl, rfl⟩
  refine h.relink (fun _ => False) rfl (fun _ => False.elim) (fun _ _ => (and_iff_right not_false).symm)
    (fun hk => ⟨id, put_back hl hsame hk⟩) (fun _ => put_forth hl hsame) (fun k s p hk hp => ?_) fun j hj => ?_
  swap
  · obtain ⟨hone, hacc, hzero, hs⟩ := hqueue j hj
    exact ⟨hone, hacc, hzero, id, hs⟩
  rcases get_put_cases hk with ⟨rfl, rfl⟩ | ⟨-, hk'⟩
  · cases hp
  · obtain ⟨r, hr, hrk⟩ := h.links k s p hk' hp
    refine ⟨r, ?_, hrk⟩
    show (t.socks.put i { l with link := .listening q' max' }).get p = some r
    rw [get_put, if_neg]
    · exact hr
    · rintro rfl
      rw [hl] at hr
      cases hr
      rw [hlink] at hrk
      cases hrk

theorem Inv.push (h : Inv t) {i server : Nat} {l a : Sock F} {q : List Nat} {max : Nat}
    (hl : t.socks.get i = some l) (hlink : l.link = .listening q max) (hserver : t.socks.get server = some a)
    (hrefs : a.refs = 1) (hheld : t.held server = 0) (hwait : queued t server = 0)
    (hacc : t.accepted server = false) :
    Inv { t with socks := t.socks.put i { l with link := .listening (q ++ [server]) max } } := by
  refine h.rebacklog _ _ t.accepted hl hlink fun j hj => ?_
  have hsum := queued_put (b := { l with link := .listening (q ++ [server]) max }) hl j
  rw [hlink] at hsum
  have hcount : (Table.Link.waiting (.listening (q ++ [server]) max)).count j =
      q.count j + if server = j then 1 else 0 := by
    show (q ++ [server]).count j = _
    rw [count_append, count_singleton]
    simp only [beq_iff_eq]
  have hq : (Table.Link.waiting (.listening q max)).count j = q.count j := rfl
  rw [hcount, hq] at hsum
  by_cases hsj : server = j
  · subst hsj
    rw [if_pos rfl] at hsum
    exact ⟨by omega, hacc, hheld, a, hserver, hrefs⟩
  · rw [if_neg hsj] at hsum
    have heq : queued { t with socks := t.socks.put i { l with link := .listening (q ++ [server]) max } } j =
        queued t j := by omega
    rw [heq] at hj ⊢
    exact h.waiting hj

/-! ### Calls on one socket -/

theorem Inv.create (h : Inv t) (kind : Kind) (cred : Cred) (hnew : t.socks.get t.next = none) :
    Inv (t.create kind cred).1 := by
  obtain ⟨hheld, hwait, -⟩ := h.absent hnew
  have hins := (h.counter (Table.after t.next)).insert (i := t.next) (a := Sock.new kind cred) hnew rfl rfl rfl rfl
  refine hins.hold (a := Sock.new kind cred) ?_ rfl hheld ?_
  · exact get_put_self _ _ _
  · have hsum := queued_put_none (t := t) (b := Sock.new kind cred) hnew t.next
    exact hsum.trans (by rw [hwait]; rfl)

theorem after_ne (id : Nat) : id ≠ Table.after id := by
  unfold Table.after idWrap
  omega

/-- A socket before it is linked. -/
def unlinked (a : Sock F) : Sock F := { a with link := .fresh }

theorem same_unlinked (a : Sock F) : Same (unlinked a) a := ⟨rfl, rfl, rfl, rfl, rfl⟩

section

variable (h : Inv t)

include h

theorem Inv.pair (kind : Kind) (cred : Cred) (ha : t.socks.get t.next = none)
    (hb : t.socks.get (Table.after t.next) = none) : Inv (t.pair kind cred).1 := by
  have hne := after_ne t.next
  obtain ⟨hheldA, hwaitA, -⟩ := h.absent ha
  obtain ⟨hheldB, hwaitB, -⟩ := h.absent hb
  -- both are made fresh, connected to each other, and handed out
  have h1 := (h.counter (Table.after (Table.after t.next))).insert (i := t.next)
    (a := unlinked (Table.pairEnd kind cred (Table.after t.next))) ha rfl rfl rfl rfl
  have hb1 : (({ t with next := Table.after (Table.after t.next) } : Table F).insert t.next
      (unlinked (Table.pairEnd kind cred (Table.after t.next)))).socks.get (Table.after t.next) = none :=
    (get_put_of_ne hne _ _).trans (hb)
  have h2 := h1.insert (i := Table.after t.next) (a := unlinked (Table.pairEnd kind cred t.next)) hb1 rfl rfl rfl rfl
  generalize ht2 : (({ t with next := Table.after (Table.after t.next) } : Table F).insert t.next
    (unlinked (Table.pairEnd kind cred (Table.after t.next)))).insert (Table.after t.next)
      (unlinked (Table.pairEnd kind cred t.next)) = t2 at h2
  have hga : t2.socks.get t.next = some (unlinked (Table.pairEnd kind cred (Table.after t.next))) := by
    subst ht2
    exact (get_put_of_ne hne.symm _ _).trans (get_put_self _ _ _)
  have hgb : t2.socks.get (Table.after t.next) = some (unlinked (Table.pairEnd kind cred t.next)) := by
    subst ht2
    exact get_put_self _ _ _
  have hq2 : ∀ j, queued t2 j = queued t j := by
    intro j
    subst ht2
    exact (queued_put_none hb1 j).trans (queued_put_none ha j)
  have h3 := h2.marry (Table.pairEnd kind cred (Table.after t.next)) (Table.pairEnd kind cred t.next)
    hne hga hgb rfl rfl rfl rfl (same_unlinked _) (same_unlinked _)
  have hq3 := queued_marry (Table.pairEnd kind cred (Table.after t.next)) (Table.pairEnd kind cred t.next)
    hne hga hgb rfl rfl rfl rfl
  obtain ⟨hma, hmb⟩ := get_marry (t := t2) hne (Table.pairEnd kind cred (Table.after t.next))
    (Table.pairEnd kind cred t.next)
  have hheld2 : t2.held = t.held := by
    subst ht2
    rfl
  have h4 := h3.hold hma rfl ((congrFun hheld2 _).trans hheldA) (((hq3 _).trans (hq2 _)).trans hwaitA)
  have hheldB' : ((Unix.marry t2 t.next (Table.after t.next) (Table.pairEnd kind cred (Table.after t.next))
      (Table.pairEnd kind cred t.next)).hold t.next).held (Table.after t.next) = 0 := by
    show update t2.held t.next _ (Table.after t.next) = 0
    rw [update_of_ne hne.symm, hheld2]
    exact hheldB
  have h5 := h4.hold hmb rfl hheldB' (((hq3 _).trans (hq2 _)).trans hwaitB)
  -- the order of the writes makes no difference
  refine Eq.mp (congrArg Inv ?_) h5
  subst ht2
  unfold Table.pair Unix.marry Table.insert Table.hold
  dsimp only
  congr 1
  refine ext_get fun j => ?_
  simp only [get_put]
  split_ifs
  · rfl
  · rfl
  · rfl

/-- A server half is made, queued at the listener and connected to the client. -/
theorem Inv.dial {id target : Nat} {me listener : Sock F} {q : List Nat} {max : Nat} (name : String)
    (cred : Cred) (hme : t.socks.get id = some me) (hlis : t.socks.get target = some listener)
    (hlink : me.link = .fresh) (hllink : listener.link = .listening q max) (hfree : t.socks.get t.next = none) :
    Inv { t with socks := Table.join t.socks id t.next target me listener q max name cred
                 next := Table.after t.next
                 accepted := update t.accepted t.next false } := by
  obtain ⟨hheld, hwait, -⟩ := h.absent hfree
  have hti : target ≠ id := by
    rintro rfl
    rw [hme] at hlis
    cases hlis
    rw [hlink] at hllink
    cases hllink
  have hts := get_ne hlis hfree
  have his := get_ne hme hfree
  generalize hserver : Table.serverHalf me.kind listener.cred id cred me.name = server
  have hnew : unlinked server = unlinked (Table.serverHalf me.kind listener.cred id cred me.name) := by
    rw [hserver]
  have h1 := (h.counter (Table.after t.next)).insert (i := t.next) (a := unlinked server) hfree
    (by rw [hnew]; rfl) (by rw [hnew]; rfl) (by rw [hnew]; rfl) (by rw [hnew]; rfl)
  have hget1 : ∀ {j s}, j ≠ t.next → t.socks.get j = some s → (t.socks.put t.next (unlinked server)).get j = some s := by
    intro j s hne hj
    rw [get_put_of_ne hne.symm]
    exact hj
  have hq1 : queued (({ t with next := Table.after t.next } : Table F).insert t.next (unlinked server)) t.next = 0 :=
    (queued_put_none hfree t.next).trans (by rw [hwait]; rfl)
  have h2 := h1.push (hget1 hts hlis) hllink (get_put_self _ _ _)
    (by rw [hnew]; rfl) hheld hq1 (update_self _ _ _)
  have h3 := h2.marry (i := id) (j := t.next) (a := me) (b := unlinked server)
    { me with link := .connected t.next, peerCred := listener.cred, peerName := some name } server his
    ((get_put_of_ne hti _ _).trans ((hget1 his hme)))
    ((get_put_of_ne hts _ _).trans (get_put_self _ _ _))
    hlink rfl rfl (by rw [← hserver]; rfl) ⟨rfl, rfl, rfl, rfl, rfl⟩ (same_unlinked server)
  refine Eq.mp (congrArg Inv ?_) h3
  unfold Unix.marry Table.insert Table.join
  dsimp only
  rw [hserver]
  congr 1
  refine ext_get fun j => ?_
  simp only [get_put]
  by_cases hj : t.next = j
  · subst hj
    rw [if_pos rfl, if_neg his, if_neg hts, if_pos rfl]
  · rw [if_neg hj, if_neg hj]
    split_ifs
    · rfl
    · rfl
    · rfl

theorem Inv.connect (id : Nat) (name : String) (cred : Cred)
    (hnew : Dials t id name → t.socks.get t.next = none) : Inv (t.connect id name cred).1 := by
  unfold Table.connect
  cases htarget : t.names name with
  | none => exact h
  | some target =>
    cases hme : t.socks.get id with
    | none => exact h
    | some me =>
      dsimp only
      cases hlis : t.socks.get target with
      | none => exact h
      | some listener =>
        dsimp only
        by_cases hkind : listener.kind = me.kind
        · rw [if_neg (fun hc => hc hkind)]
          by_cases hdgram : me.kind = .dgram
          · rw [if_pos hdgram]
            exact h.rewrite hme ⟨rfl, rfl, fun _ => .rfl, rfl, h.bytes id me hme, h.offsets id me hme⟩
          · rw [if_neg hdgram]
            cases hlink : me.link with
            | connected p => exact h
            | closed => exact h
            | listening q max => exact h
            | fresh =>
              cases hllink : listener.link with
              | connected p => exact h
              | closed => exact h
              | fresh => exact h
              | listening q max =>
                dsimp only
                split_ifs with hfull
                · exact h
                · have hfree := hnew ⟨target, me, listener, q, max, htarget, hme, hlis, hkind, hdgram, hlink, hllink,
                    by omega⟩
                  exact h.dial name cred hme hlis hlink hllink hfree
        · rw [if_pos hkind]
          exact h

theorem Inv.accept (id : Nat) : Inv (t.accept id).1 := by
  unfold Table.accept
  cases hs : t.socks.get id with
  | none => exact h
  | some sock =>
    dsimp only
    cases hlink : sock.link with
    | fresh => exact h
    | connected p => exact h
    | closed => exact h
    | listening q max =>
      cases q with
      | nil => exact h
      | cons first rest =>
        have hsum : ∀ j, queued { t with socks := t.socks.put id { sock with link := .listening rest max } } j +
            (if first = j then 1 else 0) = queued t j := by
          intro j
          have hput := queued_put (b := { sock with link := .listening rest max }) hs j
          have hold : (Table.Link.waiting sock.link).count j = rest.count j + if first = j then 1 else 0 := by
            rw [hlink]
            show (first :: rest).count j = _
            rw [count_cons]
            simp only [beq_iff_eq]
          have hrest : (Table.Link.waiting (.listening rest max)).count j = rest.count j := rfl
          rw [hold, hrest] at hput
          omega
        have hfirst : 0 < queued t first := by
          have := hsum first
          rw [if_pos rfl] at this
          omega
        obtain ⟨hone, -, hheld, a, ha, hrefs⟩ := h.waiting hfirst
        have hgone : queued { t with socks := t.socks.put id { sock with link := .listening rest max } } first = 0 := by
          have := hsum first
          rw [if_pos rfl] at this
          omega
        have hrel := h.rebacklog rest max (update t.accepted first true) hs hlink
          fun j hj => by
            have hj' := hsum j
            have hne : j ≠ first := by
              rintro rfl
              omega
            rw [if_neg hne.symm] at hj'
            obtain ⟨h1, h2, h3, h4⟩ := h.waiting (j := j) (by omega)
            refine ⟨by omega, ?_, h3, h4⟩
            rw [update_of_ne hne]
            exact h2
        -- the one handed out keeps its entry, unless it is the listener itself that is written
        have hsame : Same sock { sock with link := .listening rest max } := ⟨rfl, rfl, rfl, rfl, rfl⟩
        obtain ⟨a', ha', hsame'⟩ := put_forth hs hsame ha
        exact hrel.hold ha' (hsame'.refs.trans hrefs) hheld hgone

theorem Inv.listen (id backlog : Nat) : Inv (t.listen id backlog).1 := by
  unfold Table.listen
  cases hs : t.socks.get id with
  | none => exact h
  | some sock =>
    dsimp only
    have hbytes := h.bytes id sock hs
    have hoffsets := h.offsets id sock hs
    by_cases hdgram : sock.kind = .dgram
    · rw [if_pos hdgram]
      exact h
    · rw [if_neg hdgram]
      cases hlink : sock.link with
      | connected p => exact h
      | closed => exact h
      | fresh =>
        dsimp only
        by_cases hname : sock.name.isNone = true
        · rw [if_pos hname]
          exact h
        · rw [if_neg hname]
          refine h.rewrite hs ⟨rfl, rfl, fun p => ?_, ?_, hbytes, hoffsets⟩
          · rw [hlink]
            exact ⟨nofun, nofun⟩
          · rw [hlink]
            rfl
      | listening q max =>
        refine h.rewrite hs ⟨rfl, rfl, fun p => ?_, ?_, hbytes, hoffsets⟩
        · rw [hlink]
          exact ⟨nofun, nofun⟩
        · rw [hlink]
          rfl

theorem Inv.shutdown (id how : Nat) : Inv (t.shutdown id how).1 := by
  unfold Table.shutdown
  cases hs : t.socks.get id with
  | none => exact h
  | some sock =>
    dsimp only
    have hkeep : ∀ rd wr : Bool, Inv { t with socks := t.socks.put id { sock with rdShut := rd, wrShut := wr } } :=
      fun rd wr => h.rewrite hs ⟨rfl, rfl, fun _ => .rfl, rfl, h.bytes id sock hs, h.offsets id sock hs⟩
    by_cases hlinked : Table.Link.linked sock.link = false ∧ sock.kind ≠ .dgram
    · rw [if_pos hlinked]
      exact h
    · rw [if_neg hlinked]
      match how with
      | 0 => exact hkeep true sock.wrShut
      | 1 => exact hkeep sock.rdShut true
      | 2 => exact hkeep true true
      | _ + 3 => exact h

end

/-! ### Messages -/

theorem unreadBytes_append (rx more : List (Packet F)) :
    unreadBytes (rx ++ more) = unreadBytes rx + unreadBytes more := by
  unfold unreadBytes
  rw [map_append, sum_append]

theorem unreadBytes_cons (p : Packet F) (rx : List (Packet F)) :
    unreadBytes (p :: rx) = p.unread.length + unreadBytes rx := by
  unfold unreadBytes
  rw [map_cons, sum_cons]

/-- A new packet is counted whole. -/
theorem Inv.enqueue (h : Inv t) {peer : Sock F} (hs : t.socks.get i = some peer) {p : Packet F}
    (hoffset : p.offset = 0) : Inv { t with socks := t.socks.put i (Table.enqueue peer p) } := by
  refine h.rewrite hs ⟨rfl, rfl, fun _ => .rfl, rfl, ?_, ?_⟩
  · show peer.rxBytes + (p.data.length : Int) = ((unreadBytes (peer.rx ++ [p]) : Nat) : Int)
    have hunread : p.unread = p.data := by
      unfold Packet.unread
      rw [hoffset, drop_zero]
    rw [h.bytes i peer hs, unreadBytes_append, unreadBytes_cons, hunread]
    show (unreadBytes peer.rx : Int) + (p.data.length : Int) = ((unreadBytes peer.rx + (p.data.length + 0) : Nat) : Int)
    omega
  · intro hkind q hq
    rcases mem_append.mp hq with hq | hq
    · exact h.offsets i peer hs hkind q hq
    · rw [mem_singleton] at hq
      rw [hq]
      exact hoffset

theorem Inv.send (h : Inv t) (id : Nat) (data : List UInt8) (fds : List F) (name : Option String)
    (caller : Table.Caller) : Inv (t.send id data fds name caller).1 := by
  unfold Table.send
  cases hs : t.socks.get id with
  | none => exact h
  | some sock =>
    dsimp only
    by_cases hshut : sock.wrShut = true
    · rw [if_pos hshut]
      exact h
    · rw [if_neg hshut]
      cases t.destination sock name with
      | error e => exact h
      | ok dest =>
        dsimp only
        cases hd : t.socks.get dest with
        | none => exact h
        | some peer =>
          dsimp only
          split_ifs
          · exact h
          · exact h
          · exact h
          all_goals
            cases Table.takes sock.kind data peer with
            | error e => exact h
            | ok take => exact h.enqueue hd rfl

/-- A stream receive takes out of the queue what it returns. -/
theorem takeStream_bytes (max : Nat) (rx : List (Packet F)) (out : List UInt8) (fds : List F) :
    unreadBytes (Table.takeStream max rx out fds).1 + (Table.takeStream max rx out fds).2.1.length =
      unreadBytes rx + out.length := by
  induction rx generalizing out fds with
  | nil => rfl
  | cons p rest ih =>
    unfold Table.takeStream
    by_cases hfull : max ≤ out.length
    · rw [if_pos hfull]
    · rw [if_neg hfull]
      by_cases hstop : p.fds ≠ [] ∧ out ≠ []
      · rw [if_pos hstop]
      · rw [if_neg hstop]
        by_cases hleft : p.offset + (Table.share p max out.length).length < p.data.length
        · rw [if_pos hleft]
          have hsplit := congrArg List.length (share_append p max out.length)
          rw [length_append] at hsplit
          rw [unreadBytes_cons, unreadBytes_cons, length_append]
          show (p.data.drop (p.offset + (Table.share p max out.length).length)).length + _ + _ = _
          omega
        · rw [if_neg hleft]
          have hall := congrArg List.length (share_all hleft)
          split_ifs
          · rw [unreadBytes_cons, length_append]
            dsimp only
            omega
          · rw [ih, unreadBytes_cons, length_append]
            omega

theorem Inv.recv (h : Inv t) (id max : Nat) (peek : Bool) : Inv (t.recv id max peek).1 := by
  unfold Table.recv
  cases hs : t.socks.get id with
  | none => exact h
  | some sock =>
    dsimp only
    cases t.atEof sock with
    | error e => exact h
    | ok eof =>
      have hbytes := h.bytes id sock hs
      cases hrx : sock.rx with
      | nil => exact h
      | cons p rest =>
        rw [hrx] at hbytes
        dsimp only
        by_cases hkind : sock.kind = .stream
        · rw [if_neg (fun hc => hc hkind)]
          cases peek with
          | true => exact h
          | false =>
            refine h.rewrite hs ⟨rfl, rfl, fun _ => .rfl, rfl, ?_, fun hc => absurd hkind hc⟩
            have hsum := takeStream_bytes max (p :: rest) [] []
            rw [length_nil] at hsum
            dsimp only
            omega
        · rw [if_pos hkind]
          cases peek with
          | true => exact h
          | false =>
            have hoffsets := h.offsets id sock hs hkind
            rw [hrx] at hoffsets
            obtain ⟨hp, hrest⟩ := forall_mem_cons.mp hoffsets
            refine h.rewrite hs ⟨rfl, rfl, fun _ => .rfl, rfl, ?_, fun _ => hrest⟩
            have hunread : p.unread = p.data := by
              unfold Packet.unread
              rw [hp, drop_zero]
            rw [unreadBytes_cons, hunread] at hbytes
            dsimp only
            omega

/-! ### Names -/

/-- A socket gets another name, or none, and the names follow. -/
theorem Inv.rename (h : Inv t) (ha : t.socks.get i = some a) (o : Option String)
    {names : String → Option Nat}
    (hnames : ∀ n j, names n = some j ↔ (j = i ∧ o = some n) ∨ (j ≠ i ∧ t.names n = some j)) :
    Inv { t with socks := t.socks.put i { a with name := o }, names := names } := by
  refine h.replace (b := { a with name := o }) ha (fun _ => .rfl) rfl (h.bytes i a ha) (h.offsets i a ha) hnames
    (fun _ _ => rfl) (fun hi => ?_) fun hi => ?_
  · obtain ⟨s, hs, hrefs⟩ := h.held i hi
    rw [ha] at hs
    cases hs
    exact hrefs
  · exact ⟨(h.unheld i hi).1, (h.unheld i hi).2 a ha⟩

theorem Inv.bind (h : Inv t) (id : Nat) (name : String) : Inv (t.bind id name).1 := by
  unfold Table.bind
  by_cases htaken : (t.names name).isSome = true
  · rw [if_pos htaken]
    exact h
  · rw [if_neg htaken]
    have hfree : t.names name = none := not_isSome_iff_eq_none.mp htaken
    cases hs : t.socks.get id with
    | none => exact h
    | some sock =>
      dsimp only
      by_cases hnamed : sock.name.isSome = true
      · rw [if_pos hnamed]
        exact h
      · rw [if_neg hnamed]
        have hnone : sock.name = none := not_isSome_iff_eq_none.mp hnamed
        refine h.rename hs (some name) fun n j => ?_
        by_cases hn : n = name
        · rw [hn, update_self, hfree]
          constructor
          · intro heq
            exact .inl ⟨(some.inj heq).symm, rfl⟩
          · rintro (⟨rfl, -⟩ | ⟨-, hc⟩)
            · rfl
            · cases hc
        · rw [update_of_ne hn]
          constructor
          · intro heq
            refine .inr ⟨?_, heq⟩
            rintro rfl
            obtain ⟨s, hs', hname⟩ := (h.names n j).mp heq
            rw [hs] at hs'
            cases hs'
            rw [hnone] at hname
            cases hname
          · rintro (⟨-, hc⟩ | ⟨-, heq⟩)
            · exact absurd (some.inj hc).symm hn
            · exact heq

theorem Inv.forgetName (h : Inv t) (name : String) : Inv (t.forgetName name) := by
  unfold Table.forgetName
  cases hid : t.names name with
  | none => exact h
  | some id =>
    obtain ⟨sock, hs, hname⟩ := (h.names name id).mp hid
    dsimp only
    rw [modify_eq_put hs]
    refine h.rename hs none fun n j => ?_
    by_cases hn : n = name
    · rw [hn, update_self, hid]
      constructor
      · nofun
      · rintro (⟨-, hc⟩ | ⟨hne, hc⟩)
        · cases hc
        · exact absurd (some.inj hc).symm hne
    · rw [update_of_ne hn]
      constructor
      · intro heq
        refine .inr ⟨?_, heq⟩
        rintro rfl
        obtain ⟨s, hs', hname'⟩ := (h.names n j).mp heq
        rw [hs] at hs'
        cases hs'
        rw [hname] at hname'
        exact hn (some.inj hname').symm
      · rintro (⟨-, hc⟩ | ⟨-, heq⟩)
        · cases hc
        · exact heq

/-! ### References -/

/-- The references of a held socket and its holders change together. -/
theorem Inv.count_refs (h : Inv t) {i n : Nat} (ha : t.socks.get i = some a) (hheld : 0 < t.held i) :
    Inv { t with socks := t.socks.put i { a with refs := n }, held := update t.held i n } := by
  have hnames := h.names_kept ha
  refine h.replace (b := { a with refs := n }) ha (fun _ => .rfl) rfl (h.bytes i a ha) (h.offsets i a ha) hnames
    (fun j hij => by rw [update_of_ne hij]) (fun _ => ?_) fun hi => ?_
  · rw [update_self]
  · -- a socket that is held does not wait
    have := (h.unheld i hi).1
    omega

variable {id : Nat}

theorem Inv.retain (h : Inv t) (hheld : 0 < t.held id) : Inv (t.retain id) := by
  obtain ⟨a, ha, hrefs⟩ := h.held id hheld
  unfold Table.retain Table.hold
  rw [modify_eq_put ha]
  have hcount := h.count_refs (n := t.held id + 1) ha hheld
  rw [← hrefs] at hcount ⊢
  exact hcount

/-! ### Closing -/

/-- What becomes of another socket when `id` is detached. -/
def settle (sock : Sock F) (id j : Nat) (s : Sock F) : Sock F :=
  Table.forgetPeer id (if sock.link = .connected j then Table.closePeer id s else s)

theorem get_detachSocks (socks : OrdMap (Sock F)) (id : Nat) (sock : Sock F) (j : Nat) :
    (Table.detachSocks socks id sock).get j = if id = j then none else (socks.get j).map (settle sock id j) := by
  unfold Table.detachSocks
  rw [OrdMap.get_map]
  have hplain : (∀ p, sock.link ≠ .connected p) → ((socks.erase id).get j).map (Table.forgetPeer id) =
      if id = j then none else (socks.get j).map (settle sock id j) := by
    intro hno
    rw [OrdMap.get_erase]
    split_ifs
    · rfl
    · unfold settle
      simp only [if_neg (hno j)]
  cases hlink : sock.link with
  | connected p =>
    dsimp only
    rw [OrdMap.get_modify, OrdMap.get_erase]
    by_cases hij : id = j
    · rw [if_pos hij, if_pos hij]
      split_ifs
      · rfl
      · rfl
    · rw [if_neg hij, if_neg hij]
      by_cases hpj : p = j
      · rw [if_pos hpj, Option.map_map]
        unfold settle
        rw [hlink, hpj]
        simp only [if_true]
        rfl
      · rw [if_neg hpj]
        unfold settle
        rw [hlink]
        simp only [if_neg (show ¬ Link.connected p = .connected j from fun hc => hpj (Link.connected.inj hc))]
  | fresh => exact hplain (by rw [hlink]; nofun)
  | closed => exact hplain (by rw [hlink]; nofun)
  | listening q max => exact hplain (by rw [hlink]; nofun)

/-- A detached socket leaves the others what they were, but for links to itself. -/
theorem settle_same (sock : Sock F) (id j : Nat) (s : Sock F) : Same s (settle sock id j s) ∧
    ((settle sock id j s).link = s.link ∨ (settle sock id j s).link = .closed ∧ s.link = .connected id) := by
  have hforget : ∀ x : Sock F, Same x (Table.forgetPeer id x) ∧ (Table.forgetPeer id x).link = x.link := by
    intro x
    unfold Table.forgetPeer
    split_ifs
    · exact ⟨⟨rfl, rfl, rfl, rfl, rfl⟩, rfl⟩
    · exact ⟨Same.refl x, rfl⟩
  have hclose : Same s (Table.closePeer id s) ∧
      ((Table.closePeer id s).link = s.link ∨ (Table.closePeer id s).link = .closed ∧ s.link = .connected id) := by
    unfold Table.closePeer
    split_ifs with hc
    · exact ⟨⟨rfl, rfl, rfl, rfl, rfl⟩, .inr ⟨rfl, hc⟩⟩
    · exact ⟨Same.refl s, .inl rfl⟩
  unfold settle
  split_ifs
  · obtain ⟨hsame, hlink⟩ := hforget (Table.closePeer id s)
    rw [hlink]
    exact ⟨hclose.1.trans hsame, hclose.2⟩
  · obtain ⟨hsame, hlink⟩ := hforget s
    exact ⟨hsame, .inl hlink⟩

theorem settle_connected {sock : Sock F} {id j p : Nat} {s : Sock F} (h : (settle sock id j s).link = .connected p) :
    s.link = .connected p ∧ (sock.link = .connected j → p ≠ id) := by
  rcases (settle_same sock id j s).2 with hlink | ⟨hlink, -⟩
  · refine ⟨hlink.symm.trans h, ?_⟩
    rintro hsock rfl
    -- the peer of the detached socket would have been closed
    have hs : s.link = .connected p := hlink.symm.trans h
    have hclosed : (settle sock p j s).link = .closed := by
      unfold settle
      rw [if_pos hsock]
      unfold Table.closePeer
      rw [if_pos hs]
      unfold Table.forgetPeer
      split_ifs
      · rfl
      · rfl
    rw [h] at hclosed
    cases hclosed
  · rw [h] at hlink
    cases hlink

/-- The sum of a count of the links over the table, once `id` is detached. -/
theorem total_detachSocks (f : Sock F → Nat) (hf : ∀ a b : Sock F, Table.Link.waiting a.link =
    Table.Link.waiting b.link → f a = f b) {sock : Sock F}
    (hs : socks.get id = some sock) : (Table.detachSocks socks id sock).total f + f sock = socks.total f := by
  have hforget : ∀ v : Sock F, f (Table.forgetPeer id v) = f v := by
    intro v
    refine hf _ _ ?_
    unfold Table.forgetPeer
    split_ifs
    · rfl
    · rfl
  have hclose : ∀ v : Sock F, f (Table.closePeer id v) = f v := by
    intro v
    refine hf _ _ ?_
    unfold Table.closePeer
    split_ifs with hc
    · rw [hc]
      rfl
    · rfl
  have herase := total_erase f hs
  unfold Table.detachSocks
  dsimp only
  rw [total_map f _ hforget]
  cases sock.link with
  | connected p =>
    dsimp only
    rw [total_modify f _ p hclose]
    exact herase
  | fresh => exact herase
  | closed => exact herase
  | listening q max => exact herase

/-- Detaching a socket nobody refers to keeps the invariant, and its orphans are then
    sockets nobody refers to. -/
theorem Inv.detach (h : Inv t) (hheld : t.held id = 0) (hwait : queued t id = 0) :
    Inv (t.detach id).1 ∧ (t.detach id).1.held = t.held ∧ (∀ j, queued (t.detach id).1 j ≤ queued t j) ∧
      ∀ o ∈ (t.detach id).2.2, t.held o = 0 ∧ queued (t.detach id).1 o = 0 := by
  unfold Table.detach
  cases hs : t.socks.get id with
  | none => exact ⟨h, rfl, fun _ => le_refl _, nofun⟩
  | some sock =>
    dsimp only
    generalize hn : t.dropName id sock.name = names
    unfold Table.dropName at hn
    have hnames : ∀ n j, names n = some j ↔ j ≠ id ∧ t.names n = some j := by
      intro n j
      -- the names that lead to the socket are its own
      have howner : t.names n = some id → sock.name = some n := by
        intro heq
        obtain ⟨s, hs', hname⟩ := (h.names n id).mp heq
        rw [hs] at hs'
        cases hs'
        exact hname
      cases hname : sock.name with
      | none =>
        rw [hname] at hn howner
        dsimp only at hn
        subst hn
        constructor
        · intro heq
          refine ⟨?_, heq⟩
          rintro rfl
          cases howner heq
        · exact And.right
      | some name =>
        rw [hname] at hn howner
        dsimp only at hn
        rw [if_pos ((h.names name id).mpr ⟨sock, hs, hname⟩)] at hn
        subst hn
        by_cases hnn : n = name
        · rw [hnn, update_self, (h.names name id).mpr ⟨sock, hs, hname⟩]
          constructor
          · nofun
          · rintro ⟨hne, heq⟩
            exact absurd (some.inj heq).symm hne
        · rw [update_of_ne hnn]
          constructor
          · intro heq
            refine ⟨?_, heq⟩
            rintro rfl
            exact hnn (some.inj (howner heq)).symm
          · exact And.right
    have hget := get_detachSocks t.socks id sock
    have hsum : ∀ j, queued { t with socks := Table.detachSocks t.socks id sock, names := names } j +
        (Table.Link.waiting sock.link).count j = queued t j := fun j =>
      total_detachSocks (fun s => (Table.Link.waiting s.link).count j)
        (fun _ _ hab => congrArg (List.count j) hab) hs
    have hforth : ∀ {j s}, j ≠ id → t.socks.get j = some s →
        (Table.detachSocks t.socks id sock).get j = some (settle sock id j s) := by
      intro j s hne hj
      rw [hget, if_neg hne.symm, hj]
      rfl
    -- what an entry that is left can be
    have hback : ∀ {j s'}, (Table.detachSocks t.socks id sock).get j = some s' →
        j ≠ id ∧ ∃ s, t.socks.get j = some s ∧ s' = settle sock id j s := by
      intro j s' hj
      rw [hget] at hj
      split_ifs at hj with hij
      obtain ⟨s, hs', heq⟩ := map_eq_some_iff.mp hj
      exact ⟨Ne.symm hij, s, hs', heq.symm⟩
    refine ⟨h.relink (· = id) rfl (fun _ hj => hj ▸ hheld) hnames (fun hj => ?_)
      (fun hne hj => ⟨_, hforth hne hj, (settle_same ..).1⟩) (fun j s' p hj hp => ?_) fun j hj => ?_, rfl, fun j => ?_, ?_⟩
    · obtain ⟨hne, s, hs', rfl⟩ := hback hj
      exact ⟨hne, s, hs', (settle_same ..).1⟩
    · obtain ⟨hne, s, hs', rfl⟩ := hback hj
      obtain ⟨hlink, hpeer⟩ := settle_connected hp
      obtain ⟨q, hq, hqj⟩ := h.links j s p hs' hlink
      have hpid : p ≠ id := by
        rintro rfl
        rw [hs] at hq
        cases hq
        exact hpeer hqj rfl
      refine ⟨settle sock id p q, hforth hpid hq, ?_⟩
      rcases (settle_same sock id p q).2 with hsame | ⟨-, hqid⟩
      · exact hsame.trans hqj
      · rw [hqj] at hqid
        exact absurd (Link.connected.inj hqid) hne
    · have hj' := hsum j
      obtain ⟨hone, hacc, hzero, hs'⟩ := h.waiting (j := j) (by omega)
      refine ⟨by omega, hacc, hzero, ?_, hs'⟩
      rintro rfl
      omega
    · have hj' := hsum j
      omega
    · -- an orphan was waiting in this backlog alone
      intro o ho
      have ho' := hsum o
      have hpos : 0 < (Table.Link.waiting sock.link).count o := count_pos_iff.mpr ho
      obtain ⟨hone, -⟩ := h.backlog o (by omega)
      exact ⟨(h.unheld o (by omega)).1, by omega⟩

theorem Inv.detachAll (h : Inv t) (fuel : Nat) (files : List F) {orphans : List Nat}
    (horphans : ∀ o ∈ orphans, t.held o = 0 ∧ queued t o = 0) :
    Inv (Table.detachAll fuel (t, files, orphans)).1 := by
  induction fuel generalizing t files orphans with
  | zero => exact h
  | succ fuel ih =>
    unfold Table.detachAll
    cases hlast : orphans.getLast? with
    | none => exact h
    | some orphan =>
      obtain ⟨hheld, hwait⟩ := horphans orphan (mem_of_getLast? hlast)
      obtain ⟨hinv, hsame, hle, hnew⟩ := h.detach hheld hwait
      refine ih hinv _ fun o ho => ?_
      rw [hsame]
      rcases mem_append.mp ho with ho | ho
      · obtain ⟨h1, h2⟩ := horphans o (dropLast_subset _ ho)
        have := hle o
        exact ⟨h1, by omega⟩
      · exact hnew o ho

/-- The last holder lets go. -/
theorem Inv.drop (h : Inv t) (id : Nat) : Inv { t with held := update t.held id 0 } := by
  refine ⟨⟨h.links, h.names, h.backlog, h.bytes⟩, h.offsets, ?_, ?_⟩
  · intro j hj
    have hj' : 0 < update t.held id 0 j := hj
    show ∃ s, t.socks.get j = some s ∧ s.refs = update t.held id 0 j
    have hne : j ≠ id := by
      rintro rfl
      rw [update_self] at hj'
      omega
    rw [update_of_ne hne] at hj' ⊢
    exact h.held j hj'
  · intro j hj
    obtain ⟨hzero, hone⟩ := h.unheld j hj
    refine ⟨?_, hone⟩
    show update t.held id 0 j = 0
    by_cases hji : j = id
    · rw [hji, update_self]
    · rw [update_of_ne hji]
      exact hzero

theorem Inv.release (h : Inv t) (hheld : 0 < t.held id) : Inv (t.release id).1 := by
  obtain ⟨a, ha, hrefs⟩ := h.held id hheld
  unfold Table.release
  dsimp only
  rw [ha]
  dsimp only
  by_cases hlast : 0 < a.refs - 1
  · rw [if_pos hlast, ← hrefs]
    exact h.count_refs ha hheld
  · rw [if_neg hlast]
    have hone : t.held id - 1 = 0 := by omega
    have hwait : queued t id = 0 := by
      refine Nat.eq_zero_of_not_pos fun hpos => ?_
      have := (h.unheld id hpos).1
      omega
    rw [hone]
    obtain ⟨hinv, hsame, -, hnew⟩ := (h.drop id).detach (update_self _ _ _) hwait
    exact hinv.detachAll _ _ fun o ho => by
      rw [hsame]
      exact hnew o ho

/-! ### Runs -/

theorem Inv.boot : Inv (Table.boot : Table F) := by
  refine ⟨⟨?_, ?_, ?_, ?_⟩, ?_, ?_, ?_⟩
  · intro i s p hi
    cases hi
  · intro n i
    constructor
    · nofun
    · rintro ⟨s, hs, -⟩
      cases hs
  · intro i hi
    exact absurd hi (lt_irrefl 0)
  · intro i s hi
    cases hi
  · intro i s hi
    cases hi
  · intro i hi
    exact absurd hi (lt_irrefl 0)
  · intro i hi
    exact absurd hi (lt_irrefl 0)

theorem Inv.step (h : Inv t) {c : Call F} {t' : Table F} (hok : Unused t c) (hstep : step t c = some t') : Inv t' := by
  cases c with
  | create kind cred =>
    cases hstep
    exact h.create kind cred hok
  | pair kind cred =>
    cases hstep
    exact h.pair kind cred hok.1 hok.2
  | bind id name =>
    cases hstep
    exact h.bind id name
  | forgetName name =>
    cases hstep
    exact h.forgetName name
  | listen id backlog =>
    cases hstep
    exact h.listen id backlog
  | connect id name cred =>
    cases hstep
    exact h.connect id name cred hok
  | accept id =>
    cases hstep
    exact h.accept id
  | send id data fds name caller =>
    cases hstep
    exact h.send id data fds name caller
  | recv id max peek =>
    cases hstep
    exact h.recv id max peek
  | shutdown id how =>
    cases hstep
    exact h.shutdown id how
  | retain id =>
    obtain ⟨hheld, heq⟩ := ite_none_right_eq_some.mp hstep
    cases heq
    exact h.retain hheld
  | release id =>
    obtain ⟨hheld, heq⟩ := ite_none_right_eq_some.mp hstep
    cases heq
    exact h.release hheld

/-- A listener that is closed with a connection pending, and a name used again. -/
def comeAndGo : List (Call Nat) :=
  [.create .stream .default, .bind 1 "a", .listen 1 4, .create .stream .default, .connect 2 "a" .default,
    .release 1, .create .stream .default, .bind 4 "a"]

theorem detachAll_nil (fuel : Nat) (t : Table F) (files : List F) :
    Table.detachAll fuel (t, files, []) = (t, files, []) := by
  cases fuel with
  | zero => rfl
  | succ fuel => rfl

/-- Closing a fresh socket leaves the links of the others. -/
theorem release_fresh (ha : t.socks.get id = some a) (hrefs : a.refs = 1)
    (hlink : a.link = .fresh) : (t.release id).1.next = t.next ∧ ∀ j s, j ≠ id → t.socks.get j = some s →
      ∃ s', (t.release id).1.socks.get j = some s' ∧ s'.link = s.link := by
  have hdetach : (({ t with held := update t.held id (t.held id - 1) } : Table F).detach id) =
      ({ t with held := update t.held id (t.held id - 1), socks := Table.detachSocks t.socks id a
                names := t.dropName id a.name }, a.rx.flatMap (·.fds), []) := by
    unfold Table.detach
    rw [ha]
    dsimp only
    rw [hlink]
    rfl
  unfold Table.release
  dsimp only
  rw [ha]
  dsimp only
  rw [if_neg (by omega), hdetach, detachAll_nil]
  refine ⟨rfl, fun j s hne hs => ⟨settle a id j s, ?_, ?_⟩⟩
  · show (Table.detachSocks t.socks id a).get j = _
    rw [get_detachSocks, if_neg hne.symm, hs]
    rfl
  · unfold settle Table.forgetPeer
    rw [hlink]
    simp only [reduceCtorEq, if_false]
    split_ifs
    · rfl
    · rfl

/-- The second of a pair, connected to the first, when the counter stands at `n`. -/
def Halfway (n : Nat) : Prop :=
  ∃ t : Table Nat, Reach (· = Table.boot) step (fun _ _ => True) t ∧ t.next = n ∧
    ∃ s, t.socks.get 2 = some s ∧ s.link = .connected 1

/-- A socket made and closed again moves the counter on and nothing else. -/
theorem Halfway.cycle {n : Nat} (h : Halfway n) (hn : n ≠ 2) : Halfway (Table.after n) := by
  obtain ⟨t, hreach, rfl, s, hs, hls⟩ := h
  have hmade := Reach.next (a := .create .stream .default) hreach trivial rfl
  have hself : (t.create .stream .default).1.socks.get t.next = some (Sock.new .stream .default) :=
    get_put_self _ _ _
  have hsecond : (t.create .stream .default).1.socks.get 2 = some s :=
    (get_put_of_ne hn _ _).trans (hs)
  have hheld : 0 < (t.create .stream .default).1.held t.next := by
    show 0 < update t.held t.next (t.held t.next + 1) t.next
    rw [update_self]
    exact succ_pos _
  have hstep : step (t.create .stream .default).1 (.release t.next) =
      some ((t.create .stream .default).1.release t.next).1 := if_pos hheld
  have hclosed := Reach.next hmade trivial hstep
  obtain ⟨hnext, hothers⟩ := release_fresh hself rfl rfl
  obtain ⟨s', hs', hls'⟩ := hothers 2 s hn.symm hsecond
  exact ⟨_, hclosed, hnext, s', hs', hls'.trans hls⟩

theorem halfway (k : Nat) (hk : k ≤ idWrap - 2) : Halfway ((3 + k) % idWrap) := by
  induction k with
  | zero =>
    refine ⟨_, Reach.next (a := .pair .stream .default) (.start rfl) trivial rfl, rfl, ?_⟩
    exact ⟨Table.pairEnd .stream .default 1, rfl, rfl⟩
  | succ k ih =>
    have hne : (3 + k) % idWrap ≠ 2 := by
      unfold idWrap at hk ⊢
      omega
    have hnext := (ih (by omega)).cycle hne
    have heq : Table.after ((3 + k) % idWrap) = (3 + (k + 1)) % idWrap := by
      unfold Table.after
      rw [mod_add_mod, add_assoc]
    rwa [heq] at hnext

/-- In a run that takes unused ids a held socket counts its holders, and one in a backlog has no holder and one reference. -/
theorem refs_counted (h : Reach (· = Table.boot) step Unused t) (i : Nat) :
    (0 < t.held i → ∃ s, t.socks.get i = some s ∧ s.refs = t.held i) ∧
      (0 < queued t i → t.held i = 0 ∧ ∃ s, t.socks.get i = some s ∧ s.refs = 1) := by
  have hinv : Inv t := by
    refine h.invariant ?_ fun _ _ _ hi hok hstep => hi.step hok hstep
    rintro s rfl
    exact Inv.boot
  refine ⟨hinv.held i, fun hpos => ?_⟩
  obtain ⟨hheld, hrefs⟩ := hinv.unheld i hpos
  obtain ⟨-, ⟨s, hs⟩, -⟩ := hinv.backlog i hpos
  exact ⟨hheld, s, hs, hrefs s hs⟩

/-- Two holders of one socket. -/
theorem refs_counted_twice : ∃ t, runLabels step Table.boot ([.create .stream .default, .retain 1] : List (Call Nat)) = some t ∧
    ∃ s, t.socks.get 1 = some s ∧ s.refs = t.held 1 := by
  refine ⟨_, rfl, (refs_counted (Reach.admitted (.start rfl) [.create .stream .default, .retain 1] ?_ rfl) 1).1 (by decide)⟩
  exact ⟨rfl, fun _ h => by cases h; exact ⟨trivial, fun _ _ => trivial⟩⟩

end HamixOS.Kernel.Unix

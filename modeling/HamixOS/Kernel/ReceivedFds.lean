import Mathlib.Data.Finset.Card
import Mathlib.Order.Interval.Finset.Nat
import HamixOS.Kernel.PassedFds

open HamixOS.Lib List Function Nat Int

namespace HamixOS.Kernel

/-!
# Descriptors received in messages (`net/socket.rs`, `task/fdtable.rs`)

`sys_recvmsg` installs the files of a message in the table of its caller and reports their numbers in the
control buffer.  Each call of `copy_out` has its own outcome.  The flags of a descriptor are left out, and so are
the internet sockets, whose messages bring no files.

* `recvmsg_settles_iff` — each file is reported or released, unless a copy fails after the numbers were reported;
* `passing_iff` — this with the sending side.
-/

namespace PassedFds

variable {F : Type}

def msgTrunc : Nat := 0x20

def msgCtrunc : Nat := 8

def scmCredentials : Nat := 2

def maxFds : Nat := 256

/-- Where `copy_out` puts its bytes. -/
inductive Area where
  | control
  | creds
  | name
  | header
  deriving DecidableEq

/-- The descriptors of a task. -/
structure Table (F : Type) where
  slots : List (Option F)
  bounded : slots.length ≤ maxFds

/-- A call in progress: the table, the files it has released and the copies it has made. -/
structure Receiving (F : Type) extends Table F where
  released : List F
  copied : List (Area × Bytes)

/-- The file of a descriptor. -/
def Table.fdAt (t : Table F) (n : Nat) : Option F := t.slots[n]?.join

/-- The table with a slot changed. -/
def Table.put (t : Table F) (n : Nat) (file : Option F) : Table F where
  slots := t.slots.set n file
  bounded := (List.length_set ..).trans_le t.bounded

def Receiving.start (t : Table F) : Receiving F := { t with released := [], copied := [] }

def Receiving.release (s : Receiving F) (files : List F) : Receiving F := { s with released := s.released ++ files }

/-- The table with free slots added where `install_fd` finds none. -/
def Table.grow (t : Table F) (first : Nat) : Table F :=
  if (t.slots.drop first).any Option.isNone then t
  else {
    slots := t.slots ++ List.replicate (min (t.slots.length + 32) maxFds - t.slots.length) none
    bounded := by
      have := t.bounded
      rw [List.length_append, List.length_replicate]
      omega }

def installFd (first : Nat) (file : F) (s : Receiving F) : Int × Receiving F :=
  let t := s.toTable.grow first
  match (t.slots.drop first).findIdx? Option.isNone with
  | some slot => ((slot + first : Nat), { s with toTable := t.put (slot + first) (some file) })
  | none => (emfile, { s with toTable := t, released := s.released ++ [file] })

def sysClose (s : Receiving F) (n : Nat) : Receiving F :=
  match s.fdAt n with
  | some file => { s with toTable := s.toTable.put n none, released := s.released ++ [file] }
  | none => s

/-- The loop that installs the files. -/
structure Installing (F : Type) where
  numbers : List Nat
  failed : Bool
  state : Receiving F

def installNext (first : Nat) (r : Installing F) (file : F) : Installing F :=
  if r.failed then { r with state := r.state.release [file] }
  else
    let out := installFd first file r.state
    if out.1 < 0 then { r with failed := true, state := out.2 }
    else { r with numbers := r.numbers ++ [out.1.toNat], state := out.2 }

def installAll (first : Nat) (files : List F) (s : Receiving F) : Installing F :=
  files.foldl (installNext first) ⟨[], false, s⟩

structure Cred where
  pid : Nat
  uid : Nat
  gid : Nat

/-- `Received`. -/
structure Message (F : Type) where
  data : Bytes
  fds : List F
  sender : Option Bytes
  fullLen : Nat
  cred : Option Cred

/-- A call of `sys_recvmsg`, with what the functions that it calls return. -/
structure Call (F : Type) where
  posix : Bool
  netlink : Bool
  passcred : Bool
  msg : Nat
  header : Bytes
  flags : Nat
  received : Except Int (Message F)
  scattered : Except Int Unit
  copyOut : Area → Nat → Nat → Int

namespace Call

variable (c : Call F)

def first : Nat := if c.posix then 0 else 3

def name : Nat := getLE 8 c.header 0

def control : Nat := getLE 8 c.header 32

def controlLen : Nat := getLE 8 c.header 40

/-- `copy_out`: `raw` goes to `len` bytes at `ptr`. -/
def copy (area : Area) (ptr len : Nat) (raw : Bytes) (s : Receiving F) : Int × Receiving F :=
  if c.copyOut area ptr len < 0 then (c.copyOut area ptr len, s)
  else (c.copyOut area ptr len, { s with copied := s.copied ++ [(area, raw.take len)] })

/-- How many descriptors the control buffer has room for. -/
def fit : Nat := if 16 ≤ c.controlLen then (c.controlLen - 16) / 4 else 0

/-- The length of the control message for `n` descriptors. -/
def space (n : Nat) : Nat := min ((16 + n * 4 + 7) / 8 * 8) c.controlLen

/-- The control message that reports descriptors. -/
def rightsMessage (numbers : List Nat) : Bytes :=
  let raw := toLE 8 (16 + numbers.length * 4) ++ (toLE 4 solSocket ++ (toLE 4 scmRights ++ numbers.flatMap (toLE 4)))
  raw.take (c.space numbers.length) ++ zeros (c.space numbers.length - raw.length)

/-- The part that installs and reports descriptors: the length used of the control buffer and the flags. -/
def deliverFds (fds : List F) (flags : Nat) (s : Receiving F) : Except Int (Nat × Nat) × Receiving F :=
  if fds.isEmpty then (.ok (0, flags), s)
  else
    let extra := fds.drop c.fit
    let flags := if extra.isEmpty then flags else flags ||| msgCtrunc
    let r := installAll c.first (fds.take c.fit) (s.release extra)
    let flags := if r.failed then flags ||| msgCtrunc else flags
    if ¬ r.numbers.isEmpty then
      let raw := c.rightsMessage r.numbers
      let out := c.copy .control c.control raw.length raw r.state
      if out.1 < 0 then (.error out.1, r.numbers.foldl sysClose out.2) else (.ok (raw.length, flags), out.2)
    else if r.failed then (.error emfile, r.state)
    else (.ok (0, flags), r.state)

/-- The credentials that the call passes on. -/
def creds (m : Message F) : Option Cred :=
  if c.netlink ∧ c.passcred then some ⟨0, 0, 0⟩ else if c.netlink then none else m.cred

def credsMessage (sender : Cred) : Bytes :=
  toLE 8 28 ++ toLE 4 solSocket ++ toLE 4 scmCredentials ++ toLE 4 sender.pid ++ toLE 4 sender.uid ++ toLE 4 sender.gid ++
    zeros 4

def deliverCreds (m : Message F) (used flags : Nat) (s : Receiving F) : Except Int (Nat × Nat) × Receiving F :=
  match c.creds m with
  | none => (.ok (used, flags), s)
  | some sender =>
    if c.control = 0 then (.ok (used, flags), s)
    else if used + 32 ≤ c.controlLen then
      let out := c.copy .creds (c.control + used) 32 (credsMessage sender) s
      if out.1 < 0 then (.error out.1, out.2) else (.ok (used + 32, flags), out.2)
    else (.ok (used, flags ||| msgCtrunc), s)

/-- The address that the call writes to its `name`. -/
def address (m : Message F) : Bytes :=
  if c.netlink then toLE 2 16 ++ zeros 10
  else toLE 2 1 ++
    match m.sender with
    | none => []
    | some path => if path.head? = some 0 then path else path ++ [0]

def deliverName (m : Message F) (update : Bytes) (s : Receiving F) : Bytes × Receiving F :=
  if c.name = 0 then (update, s)
  else
    let cap := getLE 4 c.header 8
    let s := if cap = 0 then s else (c.copy .name c.name (min cap (c.address m).length) (c.address m) s).2
    (putLE 4 update 8 (c.address m).length, s)

def deliverHeader (m : Message F) (used flags : Nat) (s : Receiving F) : Int × Receiving F :=
  let named := c.deliverName m (putLE 4 (putLE 8 c.header 40 used) 48 flags) s
  let out := c.copy .header c.msg 56 named.1 named.2
  if out.1 < 0 then out
  else (if c.flags &&& msgTrunc ≠ 0 then m.fullLen else m.data.length, out.2)

def sysRecvmsg (s : Receiving F) : Int × Receiving F :=
  match c.received with
  | .error e => (e, s)
  | .ok m =>
    match c.scattered with
    | .error e => (e, s.release m.fds)
    | .ok () =>
      match c.deliverFds m.fds (if m.data.length < m.fullLen then msgTrunc else 0) s with
      | (.error e, s) => (e, s)
      | (.ok (used, flags), s) =>
        match c.deliverCreds m used flags s with
        | (.error e, s) => (e, s)
        | (.ok (used, flags), s) => c.deliverHeader m used flags s

end Call

/-! ### The table -/

/-- How many descriptors a task can still be given. -/
def Table.vacant (t : Table F) (first : Nat) : Nat := ((Finset.Ico first maxFds).filter fun n => (t.fdAt n).isNone).card

variable {n : Nat}

theorem Table.fdAt_put {t : Table F} {file : Option F} (hn : n < t.slots.length) :
    (t.put n file).fdAt = Function.update t.fdAt n file := by
  funext m
  unfold Table.fdAt Table.put
  by_cases hm : m = n
  · subst hm
    rw [update_self, getElem?_set_self hn, Option.join_some]
  · rw [update_of_ne hm, getElem?_set_ne (Ne.symm hm)]

theorem Table.fdAt_grow (t : Table F) (first : Nat) : (t.grow first).fdAt = t.fdAt := by
  funext m
  unfold Table.grow
  split_ifs with hany
  · rfl
  by_cases hm : m < t.slots.length
  · exact congrArg Option.join (getElem?_append_left hm)
  · show (t.slots ++ replicate _ none)[m]?.join = t.slots[m]?.join
    rw [getElem?_append_right (Nat.le_of_not_lt hm), getElem?_eq_none (Nat.le_of_not_lt hm),
      getElem?_replicate]
    split_ifs <;> rfl

theorem Table.lt_of_fdAt {t : Table F} {file : F} (h : t.fdAt n = some file) : n < t.slots.length := by
  by_contra hn
  unfold Table.fdAt at h
  rw [getElem?_eq_none (Nat.le_of_not_lt hn)] at h
  cases h

variable {first : Nat}

/-- Where growing leaves no free slot, there is no free descriptor. -/
theorem Table.vacant_of_grow {t : Table F} (hfirst : first ≤ 3)
    (h : ∀ file ∈ (t.grow first).slots.drop first, file.isNone = false) : t.vacant first = 0 := by
  have hfull : (t.grow first).slots.length = maxFds := by
    by_contra hlen
    unfold Table.grow at h hlen
    split_ifs at h hlen with hany
    · obtain ⟨file, hfile, hnone⟩ := any_eq_true.mp hany
      rw [h file hfile] at hnone
      cases hnone
    · have hbound := t.bounded
      rw [length_append, length_replicate] at hlen
      have hmem : none ∈ (t.slots ++ replicate (min (t.slots.length + 32) maxFds - t.slots.length) none).drop first := by
        rw [drop_append, drop_replicate]
        refine mem_append_right _ (mem_replicate.mpr ⟨?_, rfl⟩)
        unfold maxFds at *
        omega
      cases h none hmem
  refine Finset.card_eq_zero.mpr (Finset.filter_eq_empty_iff.mpr fun n hn hnone => ?_)
  obtain ⟨hlow, hhigh⟩ := Finset.mem_Ico.mp hn
  rw [← Table.fdAt_grow t first] at hnone
  unfold Table.fdAt at hnone
  have hlt : n < (t.grow first).slots.length := hhigh.trans_eq hfull.symm
  have hmem : (t.grow first).slots[n] ∈ (t.grow first).slots.drop first := by
    refine mem_iff_getElem.mpr ⟨n - first, ?_, ?_⟩
    · rw [length_drop]
      omega
    · rw [getElem_drop]
      congr 1
      omega
  have hsome := h _ hmem
  rw [getElem?_eq_getElem hlt, Option.join_some, hsome] at hnone
  cases hnone

/-- A descriptor taken is one fewer. -/
theorem Table.vacant_update {t u : Table F} {first n : Nat} {file : F} (hlow : first ≤ n) (hhigh : n < maxFds)
    (hfree : t.fdAt n = none) (hu : u.fdAt = Function.update t.fdAt n (some file)) :
    u.vacant first + 1 = t.vacant first := by
  have hmem : n ∈ (Finset.Ico first maxFds).filter fun n => (t.fdAt n).isNone :=
    Finset.mem_filter.mpr ⟨Finset.mem_Ico.mpr ⟨hlow, hhigh⟩, by rw [hfree]; rfl⟩
  have herase : ((Finset.Ico first maxFds).filter fun n => (u.fdAt n).isNone) =
      ((Finset.Ico first maxFds).filter fun n => (t.fdAt n).isNone).erase n := by
    ext m
    rw [Finset.mem_erase, Finset.mem_filter, Finset.mem_filter, hu]
    by_cases hm : m = n
    · subst hm
      rw [update_self]
      exact ⟨fun h => absurd h.2 Bool.false_ne_true, fun h => absurd rfl h.1⟩
    · rw [update_of_ne hm]
      exact ⟨fun h => ⟨hm, h⟩, And.right⟩
  unfold Table.vacant
  rw [herase]
  exact Finset.card_erase_add_one hmem

/-- What `install_fd` can do. -/
theorem installFd_cases (hfirst : first ≤ 3) (file : F) (s : Receiving F) :
    (s.vacant first = 0 ∧ ∃ t : Table F, t.fdAt = s.fdAt ∧
      installFd first file s = (emfile, { s with toTable := t, released := s.released ++ [file] })) ∨
    (∃ n : Nat, first ≤ n ∧ n < maxFds ∧ s.fdAt n = none ∧ ∃ t : Table F,
      t.fdAt = Function.update s.fdAt n (some file) ∧ installFd first file s = ((n : Int), { s with toTable := t })) := by
  cases hfind : ((s.toTable.grow first).slots.drop first).findIdx? Option.isNone with
  | none =>
    refine .inl ⟨Table.vacant_of_grow hfirst (findIdx?_eq_none_iff.mp hfind), s.toTable.grow first,
      Table.fdAt_grow _ _, ?_⟩
    simp only [installFd, hfind]
  | some slot =>
    obtain ⟨hslot, hnone, -⟩ := findIdx?_eq_some_iff_getElem.mp hfind
    rw [length_drop] at hslot
    have hlt : slot + first < (s.toTable.grow first).slots.length := by omega
    refine .inr ⟨slot + first, Nat.le_add_left .., hlt.trans_le (Table.bounded _), ?_,
      (s.toTable.grow first).put (slot + first) (some file), ?_, ?_⟩
    · rw [← Table.fdAt_grow s.toTable first]
      unfold Table.fdAt
      rw [getElem_drop] at hnone
      rw [getElem?_eq_getElem hlt, Option.join_some]
      refine Option.isNone_iff_eq_none.mp ((congrArg Option.isNone ?_).trans hnone)
      congr 1
      omega
    · rw [Table.fdAt_put hlt, Table.fdAt_grow]
    · simp only [installFd, hfind]

/-! ### Files installed or released -/

/-- The files `kept` are at free descriptors, one each, and the other descriptors are as before. -/
structure Kept (before after : Nat → Option F) (kept : List (Nat × F)) : Prop where
  apart : (kept.map Prod.fst).Nodup
  installed : ∀ p ∈ kept, before p.1 = none ∧ after p.1 = some p.2
  others : ∀ n, n ∉ kept.map Prod.fst → after n = before n

/-- Each of the files is at one of the descriptors `numbers` or released, once. -/
def Settled (t : Table F) (s : Receiving F) (files : List F) (numbers : List Nat) : Prop :=
  ∃ kept, Kept t.fdAt s.fdAt kept ∧ kept.map Prod.fst = numbers ∧ (kept.map Prod.snd ++ s.released).Perm files

namespace Settled

variable {t : Table F} {s s' : Receiving F} {files : List F} {numbers : List Nat}

theorem start (t : Table F) : Settled t (.start t) [] [] :=
  ⟨[], ⟨nodup_nil, fun _ hp => absurd hp not_mem_nil, fun _ _ => rfl⟩, rfl, .refl _⟩

section

variable (h : Settled t s files numbers)

include h

theorem release {more : List F} (hfds : s'.fdAt = s.fdAt)
    (hreleased : s'.released = s.released ++ more) : Settled t s' (files ++ more) numbers := by
  obtain ⟨kept, hkept, hnumbers, hperm⟩ := h
  refine ⟨kept, hfds ▸ hkept, hnumbers, ?_⟩
  rw [hreleased, ← append_assoc]
  exact hperm.append_right more

theorem quiet (hfds : s'.fdAt = s.fdAt) (hreleased : s'.released = s.released) :
    Settled t s' files numbers := by
  have := h.release hfds (hreleased.trans (append_nil _).symm)
  rwa [append_nil] at this

theorem install {file : F} (hfree : s.fdAt n = none)
    (hfds : s'.fdAt = Function.update s.fdAt n (some file)) (hreleased : s'.released = s.released) :
    Settled t s' (files ++ [file]) (numbers ++ [n]) := by
  obtain ⟨kept, hkept, hnumbers, hperm⟩ := h
  have hnew : ∀ p ∈ kept, p.1 ≠ n := by
    rintro p hp rfl
    have := (hkept.installed p hp).2
    rw [hfree] at this
    cases this
  have hmem : n ∉ kept.map Prod.fst := fun h => by
    obtain ⟨p, hp, rfl⟩ := mem_map.mp h
    exact hnew p hp rfl
  refine ⟨kept ++ [(n, file)], ⟨?_, ?_, ?_⟩, ?_, ?_⟩
  · rw [map_append]
    exact nodup_append.mpr ⟨hkept.apart, nodup_singleton n, fun a ha b hb hab => by
      rw [mem_singleton.mp hb] at hab
      exact hmem ((show a = n from hab) ▸ ha)⟩
  · intro p hp
    rw [hfds]
    rcases mem_append.mp hp with hp | hp
    · rw [update_of_ne (hnew p hp)]
      exact hkept.installed p hp
    · rw [mem_singleton.mp hp, update_self]
      exact ⟨(hkept.others n hmem).symm.trans hfree, rfl⟩
  · intro m hm
    rw [map_append, mem_append, not_or] at hm
    rw [hfds, update_of_ne fun h => hm.2 (mem_singleton.mpr h)]
    exact hkept.others m hm.1
  · rw [map_append, hnumbers]
    rfl
  · rw [hreleased, map_append, append_assoc]
    refine (List.Perm.append_left _ perm_append_comm).trans ?_
    rw [← append_assoc]
    exact hperm.append_right [file]

theorem lt : ∀ n ∈ numbers, n < maxFds := by
  obtain ⟨kept, hkept, rfl, -⟩ := h
  intro n hn
  obtain ⟨p, hp, rfl⟩ := mem_map.mp hn
  exact (Table.lt_of_fdAt (hkept.installed p hp).2).trans_le s.bounded

end

/-- What is closed is released. -/
theorem close (h : Settled t s files (n :: numbers)) : Settled t (sysClose s n) files numbers := by
  obtain ⟨kept, hkept, hnumbers, hperm⟩ := h
  obtain ⟨p, rest, rfl, rfl, rfl⟩ := map_eq_cons_iff.mp hnumbers
  obtain ⟨hfree, hhas⟩ := hkept.installed p mem_cons_self
  obtain ⟨hnot, hapart⟩ := nodup_cons.mp hkept.apart
  have hfds : (s.toTable.put p.1 none).fdAt = Function.update s.fdAt p.1 none := Table.fdAt_put (Table.lt_of_fdAt hhas)
  unfold sysClose
  rw [hhas]
  refine ⟨rest, ⟨hapart, fun q hq => ?_, fun m hm => ?_⟩, rfl, ?_⟩
  · have hne : q.1 ≠ p.1 := fun h => hnot (h ▸ mem_map_of_mem hq)
    show _ ∧ (s.toTable.put p.1 none).fdAt q.1 = _
    rw [hfds, update_of_ne hne]
    exact hkept.installed q (mem_cons_of_mem p hq)
  · show (s.toTable.put p.1 none).fdAt m = _
    rw [hfds]
    by_cases hmp : m = p.1
    · rw [hmp, update_self, hfree]
    · rw [update_of_ne hmp]
      exact hkept.others m fun h => (mem_cons.mp h).elim hmp hm
  · show (rest.map Prod.snd ++ (s.released ++ [p.2])).Perm files
    rw [← append_assoc]
    exact (perm_append_singleton ..).trans hperm

theorem closeAll (h : Settled t s files numbers) : Settled t (numbers.foldl sysClose s) files [] := by
  induction numbers generalizing s with
  | nil => exact h
  | cons n numbers ih => exact ih h.close

theorem unchanged (h : Settled t s files []) (n : Nat) : s.fdAt n = t.fdAt n := by
  obtain ⟨kept, hkept, hnumbers, -⟩ := h
  rw [map_eq_nil_iff.mp hnumbers] at hkept
  exact hkept.others n not_mem_nil

theorem ne_nil (h : Settled t s files (n :: numbers)) : s.fdAt n ≠ t.fdAt n := by
  obtain ⟨kept, hkept, hnumbers, -⟩ := h
  obtain ⟨p, rest, rfl, rfl, -⟩ := map_eq_cons_iff.mp hnumbers
  obtain ⟨hfree, hhas⟩ := hkept.installed p mem_cons_self
  rw [hfree, hhas]
  exact Option.some_ne_none _

end Settled

/-! ### The loop that installs -/

/-- What holds while `done` is being installed, `extra` having been released: the numbers are as many as there was
room for. -/
structure Progress (t : Table F) (first : Nat) (r : Installing F) (extra done : List F) : Prop where
  settled : Settled t r.state (extra ++ done) r.numbers
  count : r.numbers.length = min done.length (t.vacant first)
  room : r.state.vacant first = t.vacant first - r.numbers.length
  failed : r.failed = true → t.vacant first < done.length
  copied : r.state.copied = []

theorem Progress.next {t : Table F} {r : Installing F} {extra done : List F} (hfirst : first ≤ 3)
    (h : Progress t first r extra done) (file : F) :
    Progress t first (installNext first r file) extra (done ++ [file]) := by
  have hcount := h.count
  have hroom := h.room
  have hassoc := append_assoc extra done [file]
  unfold installNext
  by_cases hfailed : r.failed = true
  · rw [if_pos hfailed]
    have hover := h.failed hfailed
    refine ⟨hassoc ▸ h.settled.release rfl rfl, ?_, hroom, fun _ => ?_, h.copied⟩
    · rw [length_append]
      show r.numbers.length = _
      omega
    · rw [length_append]
      omega
  rw [if_neg hfailed]
  rcases installFd_cases hfirst file r.state with ⟨hfull, u, hu, heq⟩ | ⟨n, hlow, hhigh, hfree, u, hu, heq⟩
  · rw [heq]
    refine ⟨hassoc ▸ h.settled.release hu rfl, ?_, ?_, fun _ => ?_, h.copied⟩
    · rw [length_append]
      show r.numbers.length = _
      omega
    · show u.vacant first = t.vacant first - r.numbers.length
      unfold Table.vacant at *
      rw [hu]
      exact hroom
    · rw [length_append, length_singleton]
      omega
  · have hless := Table.vacant_update hlow hhigh hfree hu
    rw [heq]
    show Progress t first (if (n : Int) < 0 then _ else _) extra _
    rw [if_neg (not_lt.mpr (natCast_nonneg n))]
    refine ⟨hassoc ▸ h.settled.install hfree hu rfl, ?_, ?_, fun h => absurd h hfailed, h.copied⟩
    · show (r.numbers ++ [n]).length = _
      rw [length_append, length_append, length_singleton, length_singleton]
      omega
    · show u.vacant first = _ - (r.numbers ++ [n]).length
      rw [length_append, length_singleton]
      omega

theorem Progress.all {t : Table F} {extra done : List F} (hfirst : first ≤ 3) (files : List F)
    {r : Installing F} (h : Progress t first r extra done) :
    Progress t first (files.foldl (installNext first) r) extra (done ++ files) := by
  induction files generalizing r done with
  | nil => rwa [append_nil]
  | cons file files ih =>
    rw [append_cons]
    exact ih (h.next hfirst file)

/-! ### The report -/

/-- The descriptors that a program reads in what was copied to its control buffer. -/
def reportedIn (copied : List (Area × Bytes)) : List Nat :=
  (copied.filter (·.1 = .control)).flatMap fun c => fdsOf (slice c.2 16 (headerLen c.2 0 - 16))

theorem reportedIn_append (a b : List (Area × Bytes)) : reportedIn (a ++ b) = reportedIn a ++ reportedIn b := by
  unfold reportedIn
  rw [filter_append, flatMap_append]

theorem fdsOf_append {w rest : Bytes} (h : w.length = 4) : fdsOf (w ++ rest) = ofLE w :: fdsOf rest := by
  have hcount : (w ++ rest).length / 4 = rest.length / 4 + 1 := by
    rw [length_append, h]
    omega
  have hshift : ∀ i, getLE 4 (w ++ rest) ((i + 1) * 4) = getLE 4 rest (i * 4) := fun i => by
    unfold getLE slice
    rw [succ_mul, add_comm, ← h, drop_append, drop_eq_nil_of_le (Nat.le_add_right ..),
      Nat.add_sub_cancel_left]
    rfl
  have hfirst : getLE 4 (w ++ rest) (0 * 4) = ofLE w := by
    unfold getLE slice
    rw [Nat.zero_mul, drop_zero, ← h, take_left]
  unfold fdsOf
  rw [hcount, range_succ_eq_map, map_cons, map_map, hfirst]
  exact congrArg _ (map_congr_left fun i _ => hshift i)

theorem fdsOf_words {numbers : List Nat} (h : ∀ n ∈ numbers, n < maxFds) : fdsOf (numbers.flatMap (toLE 4)) = numbers := by
  induction numbers with
  | nil => rfl
  | cons n numbers ih =>
    obtain ⟨hn, hrest⟩ := forall_mem_cons.mp h
    rw [flatMap_cons, fdsOf_append (length_toLE 4 n), ofLE_toLE, ih hrest, mod_eq_of_lt (hn.trans (by decide))]

theorem length_words (numbers : List Nat) : (numbers.flatMap (toLE 4)).length = numbers.length * 4 := by
  induction numbers with
  | nil => rfl
  | cons n numbers ih =>
    rw [flatMap_cons, length_append, length_toLE, ih, length_cons, succ_mul, add_comm]

namespace Call

variable (c : Call F)

theorem first_le : c.first ≤ 3 := by
  unfold first
  split_ifs <;> decide

/-- Where descriptors are reported the buffer has room for their message. -/
theorem space_ge (hpos : 0 < n) (hfit : n ≤ c.fit) : 16 + n * 4 ≤ c.space n := by
  unfold space fit at *
  split_ifs at hfit <;> omega

variable {c} in
/-- The control message, as the program reads it. -/
theorem report_rightsMessage {numbers : List Nat} (hsmall : ∀ n ∈ numbers, n < maxFds) (hpos : 0 < numbers.length)
    (hfit : numbers.length ≤ c.fit) :
    (c.rightsMessage numbers).length = c.space numbers.length ∧
      reportedIn [(.control, c.rightsMessage numbers)] = numbers := by
  have hspace := c.space_ge hpos hfit
  have hlen : 16 + numbers.length * 4 < 2 ^ 64 := by
    have hcontrol : c.controlLen < 2 ^ 64 := getLE_lt 8 c.header 40
    unfold space at hspace
    omega
  have hwords := length_words numbers
  unfold rightsMessage
  generalize htail : numbers.flatMap (toLE 4) = words at hwords
  have hraw : (toLE 8 (16 + numbers.length * 4) ++ (toLE 4 solSocket ++ (toLE 4 scmRights ++ words))).length =
      16 + numbers.length * 4 := by
    rw [length_append, length_append, length_append, length_toLE, length_toLE, length_toLE, hwords]
    omega
  dsimp only
  rw [take_of_length_le (hraw.trans_le hspace), hraw]
  refine ⟨?_, ?_⟩
  · rw [length_append, hraw, length_zeros]
    omega
  have hheader : headerLen (toLE 8 (16 + numbers.length * 4) ++ (toLE 4 solSocket ++ (toLE 4 scmRights ++ words)) ++
      zeros (c.space numbers.length - (16 + numbers.length * 4))) 0 = 16 + numbers.length * 4 := by
    unfold headerLen getLE
    rw [slice_zero, append_assoc, take_append_of_le_length (length_toLE ..).ge,
      take_of_length_le (length_toLE ..).le, ofLE_toLE]
    exact mod_eq_of_lt hlen
  show (fdsOf (slice _ 16 (headerLen _ 0 - 16)) ++ []) = numbers
  rw [hheader, append_nil, Nat.add_sub_cancel_left]
  refine Eq.trans (congrArg fdsOf ?_) (fdsOf_words hsmall)
  have hfront : (toLE 8 (16 + words.length) ++ (toLE 4 solSocket ++ toLE 4 scmRights)).length = 16 := by
    rw [length_append, length_append, length_toLE, length_toLE, length_toLE]
  rw [htail, ← hwords, slice, ← append_assoc (toLE 4 solSocket), ← append_assoc (toLE 8 _), append_assoc _ words]
  exact (congrArg (take _) (drop_left' hfront)).trans take_left

/-! ### The parts of the call -/

/-- How many of the files are installed. -/
def installs (t : Table F) (fds : List F) : Nat := min (min fds.length c.fit) (t.vacant c.first)

/-- Whether the call copies credentials, `used` bytes into the control buffer. -/
def SendsCreds (m : Message F) (used : Nat) : Prop :=
  (c.creds m).isSome ∧ c.control ≠ 0 ∧ used + 32 ≤ c.controlLen

/-- A part that touches neither the table nor the report. -/
structure Quiet (s s' : Receiving F) : Prop where
  table : s'.toTable = s.toTable
  released : s'.released = s.released
  report : reportedIn s'.copied = reportedIn s.copied

variable {c} in
theorem Quiet.trans {s s' s'' : Receiving F} (h : Quiet s s') (h' : Quiet s' s'') : Quiet s s'' :=
  ⟨h'.table.trans h.table, h'.released.trans h.released, h'.report.trans h.report⟩

theorem quiet_copy {area : Area} (harea : area ≠ .control) (ptr len : Nat) (raw : Bytes) (s : Receiving F) :
    (c.copy area ptr len raw s).1 = c.copyOut area ptr len ∧ Quiet s (c.copy area ptr len raw s).2 := by
  unfold copy
  split_ifs
  · exact ⟨rfl, rfl, rfl, rfl⟩
  · refine ⟨rfl, rfl, rfl, ?_⟩
    show reportedIn (s.copied ++ _) = _
    rw [reportedIn_append]
    unfold reportedIn
    rw [filter_cons_of_neg (by simpa using harea), filter_nil]
    exact append_nil _

/-- What `deliverCreds` can do. -/
theorem deliverCreds_cases (m : Message F) (used flags : Nat) (s : Receiving F) :
    (∃ s', Quiet s s' ∧ c.SendsCreds m used ∧ c.copyOut .creds (c.control + used) 32 < 0 ∧
      c.deliverCreds m used flags s = (.error (c.copyOut .creds (c.control + used) 32), s')) ∨
    (∃ out s', Quiet s s' ∧ (c.SendsCreds m used → 0 ≤ c.copyOut .creds (c.control + used) 32) ∧
      c.deliverCreds m used flags s = (.ok out, s')) := by
  unfold deliverCreds SendsCreds
  cases c.creds m with
  | none => exact .inr ⟨_, s, ⟨rfl, rfl, rfl⟩, fun h => absurd h.1 Bool.false_ne_true, rfl⟩
  | some sender =>
    dsimp only
    by_cases hcontrol : c.control = 0
    · rw [if_pos hcontrol]
      exact .inr ⟨_, s, ⟨rfl, rfl, rfl⟩, fun h => absurd hcontrol h.2.1, rfl⟩
    rw [if_neg hcontrol]
    by_cases hroom : used + 32 ≤ c.controlLen
    · rw [if_pos hroom]
      obtain ⟨hresult, hquiet⟩ := c.quiet_copy (show Area.creds ≠ .control by decide) (c.control + used) 32 (credsMessage sender) s
      rw [hresult]
      by_cases hneg : c.copyOut .creds (c.control + used) 32 < 0
      · rw [if_pos hneg]
        exact .inl ⟨_, hquiet, ⟨rfl, hcontrol, hroom⟩, hneg, rfl⟩
      · rw [if_neg hneg]
        exact .inr ⟨_, _, hquiet, fun _ => not_lt.mp hneg, rfl⟩
    · rw [if_neg hroom]
      exact .inr ⟨_, s, ⟨rfl, rfl, rfl⟩, fun h => absurd h.2.2 hroom, rfl⟩

theorem deliverName_quiet (m : Message F) (update : Bytes) (s : Receiving F) : Quiet s (c.deliverName m update s).2 := by
  unfold deliverName
  split_ifs
  · exact ⟨rfl, rfl, rfl⟩
  · dsimp only
    split_ifs
    · exact ⟨rfl, rfl, rfl⟩
    · exact (c.quiet_copy (by decide) _ _ _ s).2

theorem deliverHeader_spec (m : Message F) (used flags : Nat) (s : Receiving F) :
    Quiet s (c.deliverHeader m used flags s).2 ∧
      ((c.deliverHeader m used flags s).1 < 0 ↔ c.copyOut .header c.msg 56 < 0) := by
  unfold deliverHeader
  dsimp only
  generalize hname : c.deliverName m _ s = named
  have hquiet : Quiet s named.2 := hname ▸ c.deliverName_quiet m _ s
  obtain ⟨hresult, hcopy⟩ := c.quiet_copy (show Area.header ≠ .control by decide) c.msg 56 named.1 named.2
  rw [hresult]
  by_cases hneg : c.copyOut .header c.msg 56 < 0
  · rw [if_pos hneg, hresult]
    exact ⟨hquiet.trans hcopy, .rfl⟩
  · rw [if_neg hneg]
    refine ⟨hquiet.trans hcopy, iff_of_false (fun h => ?_) hneg⟩
    dsimp only at h
    split_ifs at h <;> omega

/-- What `deliverFds` does: it stops with nothing installed, or the descriptors installed are those reported. -/
theorem deliverFds_spec (t : Table F) (fds : List F) (flags : Nat) :
    match c.deliverFds fds flags (.start t) with
    | (.error e, s) => e < 0 ∧ Settled t s fds [] ∧
        ¬ (0 < c.installs t fds ∧ 0 ≤ c.copyOut .control c.control (c.space (c.installs t fds)))
    | (.ok out, s) => ∃ numbers, Settled t s fds numbers ∧ numbers.length = c.installs t fds ∧
        reportedIn s.copied = numbers ∧ out.1 = (if numbers = [] then 0 else c.space numbers.length) ∧
        (numbers ≠ [] → 0 ≤ c.copyOut .control c.control (c.space numbers.length)) := by
  unfold deliverFds
  by_cases hempty : fds = []
  · subst hempty
    have hzero : c.installs t [] = 0 := min_eq_zero_iff.mpr (.inl (zero_min _))
    exact ⟨[], .start t, hzero.symm, rfl, rfl, fun h => absurd rfl h⟩
  rw [if_neg fun h => hempty (isEmpty_iff.mp h)]
  dsimp only
  have hprogress : Progress t c.first (installAll c.first (fds.take c.fit) ((Receiving.start t).release (fds.drop c.fit)))
      (fds.drop c.fit) (fds.take c.fit) := by
    have hstart : Progress t c.first ⟨[], false, (Receiving.start t).release (fds.drop c.fit)⟩ (fds.drop c.fit) [] := by
      refine ⟨?_, rfl, rfl, fun h => absurd h Bool.false_ne_true, rfl⟩
      rw [append_nil]
      exact (Settled.start t).release rfl rfl
    exact hstart.all c.first_le (fds.take c.fit)
  generalize installAll c.first (fds.take c.fit) ((Receiving.start t).release (fds.drop c.fit)) = r at hprogress
  have hperm : (fds.drop c.fit ++ fds.take c.fit).Perm fds :=
    perm_append_comm.trans (List.Perm.of_eq (take_append_drop c.fit fds))
  have hsettled : Settled t r.state fds r.numbers := by
    obtain ⟨kept, hkept, hnumbers, hfiles⟩ := hprogress.settled
    exact ⟨kept, hkept, hnumbers, hfiles.trans hperm⟩
  have hinstalls : r.numbers.length = c.installs t fds := by
    rw [hprogress.count, length_take, min_comm c.fit]
    rfl
  by_cases hnumbers : r.numbers = []
  · rw [if_neg (not_not.mpr (isEmpty_iff.mpr hnumbers))]
    rw [hnumbers] at hsettled hinstalls
    by_cases hfailed : r.failed = true
    · rw [if_pos hfailed]
      exact ⟨by decide, hsettled, fun h => absurd h.1 (hinstalls ▸ lt_irrefl 0)⟩
    · rw [if_neg hfailed]
      exact ⟨[], hsettled, hinstalls, congrArg reportedIn hprogress.copied, rfl, fun h => absurd rfl h⟩
  · rw [if_pos fun h => hnumbers (isEmpty_iff.mp h)]
    have hpos : 0 < r.numbers.length := length_pos_iff.mpr hnumbers
    have hfit : r.numbers.length ≤ c.fit := by
      rw [hinstalls]
      exact (min_le_left ..).trans (min_le_right ..)
    obtain ⟨hlen, hreport⟩ := report_rightsMessage hsettled.lt hpos hfit
    rw [hlen, ← hinstalls]
    unfold copy
    by_cases hneg : c.copyOut .control c.control (c.space r.numbers.length) < 0
    · rw [if_pos hneg, if_pos hneg]
      exact ⟨hneg, hsettled.closeAll, fun h => absurd hneg (not_lt.mpr h.2)⟩
    · rw [if_neg hneg, if_neg hneg]
      refine ⟨r.numbers, hsettled.quiet rfl rfl, rfl, ?_, (if_neg hnumbers).symm, fun _ => not_lt.mp hneg⟩
      show reportedIn (r.state.copied ++ [(Area.control, _)]) = _
      rw [hprogress.copied, take_of_length_le hlen.le]
      exact hreport

/-! ### The whole call -/

/-- The files that the call receives. -/
def files : List F :=
  match c.received with
  | .ok m => m.fds
  | .error _ => []

/-- Each file received is at one descriptor reported to the caller, or released once; an error leaves the table as
it was. -/
def Settles (t : Table F) : Prop :=
  let out := c.sysRecvmsg (.start t)
  Settled t out.2 c.files (if out.1 < 0 then [] else reportedIn out.2.copied) ∧ (out.1 < 0 → ∀ n, out.2.fdAt n = t.fdAt n)

/-- Once the control message that reports descriptors is copied, the copies after it succeed. -/
def Undisturbed (t : Table F) : Prop :=
  ∀ m, c.received = .ok m → c.scattered = .ok () → 0 < c.installs t m.fds →
    0 ≤ c.copyOut .control c.control (c.space (c.installs t m.fds)) →
    (c.SendsCreds m (c.space (c.installs t m.fds)) →
      0 ≤ c.copyOut .creds (c.control + c.space (c.installs t m.fds)) 32) ∧ 0 ≤ c.copyOut .header c.msg 56

variable {c} in
/-- A call that ends with nothing installed. -/
theorem settles_of_nothing {t : Table F} {r : Int} {s : Receiving F} (hrun : c.sysRecvmsg (.start t) = (r, s))
    (hsettled : Settled t s c.files []) (hreport : reportedIn s.copied = [] ∨ r < 0) : c.Settles t := by
  unfold Settles
  rw [hrun]
  refine ⟨?_, fun _ => hsettled.unchanged⟩
  show Settled t s c.files (if r < 0 then [] else reportedIn s.copied)
  split_ifs with hneg
  · exact hsettled
  · rwa [hreport.resolve_right hneg]

/-- The call ends with `numbers` installed, in the report and in an error or not. -/
theorem settles_iff_of_installed {t : Table F} {r : Int} {s : Receiving F} {numbers : List Nat}
    (hrun : c.sysRecvmsg (.start t) = (r, s)) (hsettled : Settled t s c.files numbers)
    (hreport : reportedIn s.copied = numbers) : c.Settles t ↔ numbers = [] ∨ 0 ≤ r := by
  constructor
  · intro h
    by_contra hnot
    obtain ⟨hne, hneg⟩ := not_or.mp hnot
    unfold Settles at h
    rw [hrun] at h
    cases numbers with
    | nil => exact hne rfl
    | cons n numbers => exact hsettled.ne_nil (h.2 (not_le.mp hneg) n)
  · rintro (rfl | hpos)
    · exact settles_of_nothing hrun hsettled (.inl hreport)
    · unfold Settles
      rw [hrun]
      refine ⟨?_, fun h => absurd hpos (not_le.mpr h)⟩
      show Settled t s c.files (if r < 0 then [] else reportedIn s.copied)
      rwa [if_neg (not_lt.mpr hpos), hreport]

/-- From where the descriptors are reported on. -/
theorem settles_iff_of_reported {t : Table F} {m : Message F} (hreceived : c.received = .ok m)
    (hscattered : c.scattered = .ok ()) {used flags : Nat} {s : Receiving F} {numbers : List Nat}
    (hfds : c.deliverFds m.fds (if m.data.length < m.fullLen then msgTrunc else 0) (.start t) = (.ok (used, flags), s))
    (hsettled : Settled t s c.files numbers) (hreport : reportedIn s.copied = numbers) :
    c.Settles t ↔ (numbers ≠ [] →
      (c.SendsCreds m used → 0 ≤ c.copyOut .creds (c.control + used) 32) ∧ 0 ≤ c.copyOut .header c.msg 56) := by
  rcases c.deliverCreds_cases m used flags s with
    ⟨s', hquiet, hsends, hneg, hcreds⟩ | ⟨⟨used', flags'⟩, s', hquiet, hok, hcreds⟩
  · have hrun : c.sysRecvmsg (.start t) = (c.copyOut .creds (c.control + used) 32, s') := by
      simp only [sysRecvmsg, hreceived, hscattered, hfds, hcreds]
    rw [c.settles_iff_of_installed hrun (hsettled.quiet (congrArg Table.fdAt hquiet.table) hquiet.released)
      (hquiet.report.trans hreport)]
    constructor
    · rintro (hnil | hpos) hne
      · exact absurd hnil hne
      · exact absurd hneg (not_lt.mpr hpos)
    · intro h
      by_contra hnot
      exact absurd hneg (not_lt.mpr ((h (not_or.mp hnot).1).1 hsends))
  · obtain ⟨hlast, hheader⟩ := c.deliverHeader_spec m used' flags' s'
    have hboth := hquiet.trans hlast
    have hrun : c.sysRecvmsg (.start t) =
        ((c.deliverHeader m used' flags' s').1, (c.deliverHeader m used' flags' s').2) := by
      simp only [sysRecvmsg, hreceived, hscattered, hfds, hcreds]
    rw [c.settles_iff_of_installed hrun (hsettled.quiet (congrArg Table.fdAt hboth.table) hboth.released)
      (hboth.report.trans hreport), ← not_lt, hheader, not_lt]
    constructor
    · rintro (hnil | hpos) hne
      · exact absurd hnil hne
      · exact ⟨hok, hpos⟩
    · intro h
      by_contra hnot
      exact (not_or.mp hnot).2 (h (not_or.mp hnot).1).2

theorem recvmsg_settles_iff (t : Table F) : c.Settles t ↔ c.Undisturbed t := by
  cases hreceived : c.received with
  | error e =>
    have hrun : c.sysRecvmsg (.start t) = (e, .start t) := by
      unfold sysRecvmsg
      rw [hreceived]
    have hfiles : c.files = [] := by
      unfold files
      rw [hreceived]
    refine iff_of_true (settles_of_nothing hrun (hfiles ▸ .start t) (.inl rfl)) fun m hm => ?_
    rw [hreceived] at hm
    cases hm
  | ok m =>
    have hfiles : c.files = m.fds := by
      unfold files
      rw [hreceived]
    cases hscattered : c.scattered with
    | error e =>
      have hrun : c.sysRecvmsg (.start t) = (e, (Receiving.start t).release m.fds) := by
        unfold sysRecvmsg
        rw [hreceived, hscattered]
      refine iff_of_true (settles_of_nothing hrun (hfiles ▸ (Settled.start t).release rfl rfl) (.inl rfl)) fun _ _ h => ?_
      rw [hscattered] at h
      cases h
    | ok u =>
      have hspec := c.deliverFds_spec t m.fds (if m.data.length < m.fullLen then msgTrunc else 0)
      have hund : c.Undisturbed t ↔ (0 < c.installs t m.fds →
          0 ≤ c.copyOut .control c.control (c.space (c.installs t m.fds)) →
          (c.SendsCreds m (c.space (c.installs t m.fds)) →
            0 ≤ c.copyOut .creds (c.control + c.space (c.installs t m.fds)) 32) ∧ 0 ≤ c.copyOut .header c.msg 56) := by
        refine ⟨fun h => h m hreceived hscattered, fun h m' hm' _ => ?_⟩
        cases hreceived.symm.trans hm'
        exact h
      rw [hund]
      cases hfds : c.deliverFds m.fds (if m.data.length < m.fullLen then msgTrunc else 0) (.start t) with
      | mk result s =>
        rw [hfds] at hspec
        cases result with
        | error e =>
          obtain ⟨hneg, hsettled, hnot⟩ := hspec
          have hrun : c.sysRecvmsg (.start t) = (e, s) := by
            simp only [sysRecvmsg, hreceived, hscattered, hfds]
          exact iff_of_true (settles_of_nothing hrun (hfiles ▸ hsettled) (.inr hneg)) fun hpos hcopy =>
            absurd ⟨hpos, hcopy⟩ hnot
        | ok out =>
          obtain ⟨numbers, hsettled, hcount, hreport, hused, hcopied⟩ := hspec
          rw [c.settles_iff_of_reported hreceived hscattered hfds (hfiles ▸ hsettled) hreport, ← hcount, hused]
          constructor
          · intro h hpos _
            have hne := length_pos_iff.mp hpos
            have := h hne
            rwa [if_neg hne] at this
          · intro h hne
            rw [if_neg hne]
            exact h (length_pos_iff.mpr hne) (hcopied hne)

end Call

/-- Sending and receiving descriptors: both sides are in order exactly if no header overflows and no copy fails after
the report. -/
theorem passing_iff (mem : UserMemory) (lookup : Nat → Option F) (control controlLen : Nat) (c : Call F) (t : Table F) :
    (Collects mem lookup control controlLen ∧ c.Settles t) ↔ (HeadersEnd mem lookup control controlLen ∧ c.Undisturbed t) :=
  and_congr (collectFds_iff mem lookup control controlLen) (c.recvmsg_settles_iff t)

/-- A header of credentials, then one whose length is 2^64 - 16. -/
def hostileControl : Bytes := toLE 8 16 ++ toLE 4 1 ++ toLE 4 2 ++ toLE 8 (2 ^ 64 - 16) ++ toLE 4 1 ++ toLE 4 1

/-- A program whose memory holds `hostileControl`, and zeros after it. -/
def hostileMemory : UserMemory where
  slice _ len := .ok ((hostileControl ++ zeros len).take len)
  length_slice ptr len b h := by
    cases h
    rw [List.length_take, List.length_append, length_zeros]
    omega

/-- A call with room for a descriptor and a header that cannot be written. -/
def unwritable : Call Nat where
  posix := true
  netlink := false
  passcred := false
  msg := 4096
  header := zeros 32 ++ toLE 8 8192 ++ toLE 8 64 ++ zeros 8
  flags := 0
  received := .ok ⟨[0], [7], none, 1, none⟩
  scattered := .ok ()
  copyOut area _ len := if area = .header then efault else len

def noFds : Table Nat := ⟨[], Nat.zero_le _⟩

theorem passing_unsafe : ¬ Collects hostileMemory (fun n => some n) 4096 32 ∧ ¬ unwritable.Settles noFds := by
  refine ⟨fun h => ?_, fun h => ?_⟩
  · obtain ⟨r, s, h, -⟩ := h
    have hrun : (match collectFds hostileMemory (fun n => some n) 4096 32 ⟨[], []⟩ with
        | .ok _ _ => true
        | .error _ _ => false) = false := by decide
    rw [h] at hrun
    cases hrun
  · exact absurd (h.2 (by decide) 0) (by decide)

end PassedFds

end HamixOS.Kernel

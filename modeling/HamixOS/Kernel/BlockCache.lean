import HamixOS.Lib.Machine

namespace HamixOS.Kernel

open Lib List Function Option

/-!
# The read cache of slow disks (`drivers/block.rs`)

Short reads of a slow disk go through windows of `WINDOW_SECTORS` sectors.  The lock of the
cache is held for the lookup and for the insertion, but not for the device read between
them; a write drops the windows it touches (`forget_cached`) before it reaches the device.
Any number of reads and writes take these steps in any order.

* The cache of one disk is a partial map from windows to their sectors.  Which window is
  evicted is left open, so the clock that decides it is left out.
* With each read we record, for every sector, the contents it has had since the read began
  (`since`): a read may return any of these, and nothing older.

`Coherent` is what is wanted of a state, and `Undisturbed` the condition on the steps under
which it holds: a device write finds no window of its range in the cache or on its way in.
-/

/-- `WINDOW_SECTORS`. -/
def windowSectors : Nat := 256

namespace BlockCache

variable {β : Type}

/-- Where a read stands with the window it is at. -/
inductive Phase (β : Type) where
  | looking
  | missed
  | fetched (data : List β)

structure Reader (β : Type) where
  lba : Nat
  count : Nat
  out : List β
  phase : Phase β
  since : Nat → List β

/-- A write that has dropped its windows and not yet reached the device. -/
structure Writer (β : Type) where
  lba : Nat
  data : List β

structure State (β : Type) where
  sectors : Nat
  device : Nat → β
  cache : Nat → Option (List β)
  readers : Nat → Option (Reader β)
  writers : Nat → Option (Writer β)
  returned : List (Reader β)

inductive Act (β : Type) where
  | read (tid lba count : Nat)
  | lookup (tid : Nat)
  | fetch (tid : Nat)
  | insert (tid : Nat) (victim : Option Nat)
  | finish (tid : Nat)
  | forget (tid lba : Nat) (data : List β)
  | write (tid : Nat)
  | evict (window : Nat)

namespace Reader

def sector (r : Reader β) : Nat := r.lba + r.out.length

def window (r : Reader β) : Nat := r.sector / windowSectors

def within (r : Reader β) : Nat := r.sector % windowSectors

/-- The sectors this turn of the loop of `cached_read` supplies. -/
def take (r : Reader β) : Nat := min (r.count - r.out.length) (windowSectors - r.within)

/-- Copy this turn's share of a window to the buffer. -/
def copy (r : Reader β) (data : List β) : Reader β := { r with out := r.out ++ (data.drop r.within).take r.take }

end Reader

/-- The contents of a window of the disk; the last one may be short. -/
def windowOf (sectors : Nat) (device : Nat → β) (w : Nat) : List β :=
  (List.range (min windowSectors (sectors - w * windowSectors))).map fun i => device (w * windowSectors + i)

/-- The disk after `data` has been written at `lba`. -/
def writeAt (device : Nat → β) (lba : Nat) (data : List β) : Nat → β := fun k =>
  if lba ≤ k then (data[k - lba]?).getD (device k) else device k

/-- The windows a range touches, as `forget_cached` counts them. -/
def touches (lba count w : Nat) : Bool :=
  lba / windowSectors ≤ w ∧ w < (lba + count + windowSectors - 1) / windowSectors

namespace State

/-- `read`, as far as its checks: a short read inside the disk. -/
def read (s : State β) (tid lba count : Nat) : Option (State β) :=
  if (s.readers tid).isSome ∨ count ≥ windowSectors ∨ lba + count > s.sectors then none
  else some { s with
    readers := Function.update s.readers tid (some ⟨lba, count, [], .looking, fun k => [s.device k]⟩) }

/-- The locked lookup of `cached_read`. -/
def lookupWith (s : State β) (tid : Nat) (r : Reader β) : State β :=
  match s.cache r.window with
  | some data =>
    if r.within + r.take ≤ data.length then
      { s with readers := Function.update s.readers tid (some (r.copy data)) }
    else { s with readers := Function.update s.readers tid (some { r with phase := .missed }) }
  | none => { s with readers := Function.update s.readers tid (some { r with phase := .missed }) }

/-- The device read of the window.  What the buffer needs is copied with the insertion. -/
def fetchWith (s : State β) (tid : Nat) (r : Reader β) : State β :=
  { s with readers :=
      Function.update s.readers tid (some { r with phase := .fetched (windowOf s.sectors s.device r.window) }) }

/-- The buffer gets its share, and the locked insertion of `cached_read` follows. -/
def insertWith (s : State β) (tid : Nat) (r : Reader β) (data : List β) (victim : Option Nat) : State β :=
  let evicted := fun w => if victim = some w then none else s.cache w
  { s with
    cache := Function.update evicted r.window (some data)
    readers := Function.update s.readers tid (some { r.copy data with phase := .looking }) }

/-- `forget_cached`. -/
def forget (s : State β) (tid lba : Nat) (data : List β) : Option (State β) :=
  if (s.writers tid).isSome ∨ lba + data.length > s.sectors then none
  else some { s with
    cache := fun w => if touches lba data.length w then none else s.cache w
    writers := Function.update s.writers tid (some ⟨lba, data⟩) }

/-- The device write; every read under way may see it from now on. -/
def writeWith (s : State β) (tid : Nat) (w : Writer β) : State β :=
  let device := writeAt s.device w.lba w.data
  { s with
    device := device
    readers := fun t => (s.readers t).map fun r => { r with since := fun k => r.since k ++ [device k] }
    writers := Function.update s.writers tid none }

def step (s : State β) : Act β → Option (State β)
  | .read tid lba count => s.read tid lba count
  | .lookup tid =>
    match s.readers tid with
    | some r =>
      match r.phase with
      | .looking => if r.out.length < r.count then some (s.lookupWith tid r) else none
      | _ => none
    | none => none
  | .fetch tid =>
    match s.readers tid with
    | some r =>
      match r.phase with
      | .missed => some (s.fetchWith tid r)
      | _ => none
    | none => none
  | .insert tid victim =>
    match s.readers tid with
    | some r =>
      match r.phase with
      | .fetched data => some (s.insertWith tid r data victim)
      | _ => none
    | none => none
  | .finish tid =>
    match s.readers tid with
    | some r =>
      match r.phase with
      | .looking =>
        if r.out.length < r.count then none
        else some { s with readers := Function.update s.readers tid none, returned := s.returned ++ [r] }
      | _ => none
    | none => none
  | .forget tid lba data => s.forget tid lba data
  | .write tid => (s.writers tid).map (s.writeWith tid)
  | .evict window => some { s with cache := Function.update s.cache window none }

end State

/-- A finished read returned, for each of its sectors, contents the sector has had since the
    read began. -/
def Current (r : Reader β) : Prop :=
  r.out.length = r.count ∧ ∀ i v, r.out[i]? = some v → v ∈ r.since (r.lba + i)

/-- Every window in the cache is what the disk holds, and no read has returned older bytes. -/
structure Coherent (s : State β) : Prop where
  windows : ∀ w data, s.cache w = some data → data = windowOf s.sectors s.device w
  returned : ∀ r ∈ s.returned, Current r

/-- A device write finds no window of its range in the cache, and none between its device
    read and its insertion. -/
def Undisturbed (s : State β) : Act β → Prop
  | .write tid => ∀ w, s.writers tid = some w → ∀ k, touches w.lba w.data.length k = true →
      s.cache k = none ∧ ∀ t r data, s.readers t = some r → r.phase = .fetched data → r.window ≠ k
  | _ => True

/-! ### Windows -/

/-- Within the disk, a slice of a window is a run of sectors. -/
theorem slice_windowOf (sectors : Nat) (device : Nat → β) (w : Nat) {within take : Nat}
    (hw : within + take ≤ windowSectors) (hs : w * windowSectors + within + take ≤ sectors) :
    ((windowOf sectors device w).drop within).take take =
      (List.range take).map fun i => device (w * windowSectors + within + i) := by
  apply ext_getElem?
  intro i
  rw [getElem?_take]
  by_cases hi : i < take
  · rw [if_pos hi, getElem?_drop]
    unfold windowOf
    rw [getElem?_map, getElem?_map, getElem?_range (by omega), getElem?_range hi,
      map_some, map_some, add_assoc]
  · rw [if_neg hi, getElem?_map, getElem?_eq_none (by simpa using hi)]
    rfl

variable {data : List β}

theorem writeAt_outside {device : Nat → β} {lba : Nat} {k : Nat}
    (h : k < lba ∨ lba + data.length ≤ k) : writeAt device lba data k = device k := by
  unfold writeAt
  rcases h with h | h
  · rw [if_neg (by omega)]
  · rw [if_pos (by omega), getElem?_eq_none (by omega)]
    rfl

/-- A write leaves the windows it does not touch as they are. -/
theorem windowOf_writeAt {device : Nat → β} {lba : Nat} {w : Nat} (sectors : Nat)
    (h : touches lba data.length w = false) :
    windowOf sectors (writeAt device lba data) w = windowOf sectors device w := by
  refine map_congr_left fun i hi => writeAt_outside ?_
  rw [mem_range] at hi
  unfold touches at h
  rw [decide_eq_false_iff_not] at h
  unfold windowSectors at h hi ⊢
  omega

/-! ### The invariant -/

/-- What is known of a read under way. -/
structure Follows (s : State β) (r : Reader β) : Prop where
  inside : r.lba + r.count ≤ s.sectors
  size : r.out.length ≤ r.count
  busy : r.phase ≠ .looking → r.out.length < r.count
  seen : ∀ i v, r.out[i]? = some v → v ∈ r.since (r.lba + i)
  now : ∀ k, s.device k ∈ r.since k
  fetched : ∀ data, r.phase = .fetched data → data = windowOf s.sectors s.device r.window

structure Inv (s : State β) : Prop where
  windows : ∀ w data, s.cache w = some data → data = windowOf s.sectors s.device w
  returned : ∀ r ∈ s.returned, Current r
  readers : ∀ t r, s.readers t = some r → Follows s r

variable {s : State β}

variable {r : Reader β}

/-- The share of a window that equals the disk is what the disk holds now. -/
theorem Follows.copy (h : Follows s r) (hlt : r.out.length < r.count) (phase : Phase β)
    (hphase : phase = .looking) :
    Follows s { r.copy (windowOf s.sectors s.device r.window) with phase := phase } := by
  have hmod : r.window * windowSectors + r.within = r.sector := Nat.div_add_mod' _ _
  have hwithin : r.within < windowSectors := Nat.mod_lt _ (by decide)
  have htake : r.take ≤ r.count - r.out.length := min_le_left _ _
  have htake' : r.take ≤ windowSectors - r.within := min_le_right _ _
  have hsector : r.sector = r.lba + r.out.length := rfl
  have hinside := h.inside
  have hfit : r.within + r.take ≤ windowSectors := by omega
  have hdisk : r.window * windowSectors + r.within + r.take ≤ s.sectors := by omega
  have hslice := slice_windowOf s.sectors s.device r.window hfit hdisk
  have hout : (r.copy (windowOf s.sectors s.device r.window)).out =
      r.out ++ (List.range r.take).map fun i => s.device (r.window * windowSectors + r.within + i) := by
    show r.out ++ _ = _
    rw [hslice]
  refine ⟨h.inside, ?_, fun hne => absurd hphase hne, ?_, h.now, ?_⟩
  · show (r.copy _).out.length ≤ r.count
    rw [hout, length_append, length_map, length_range]
    omega
  · intro i v hv
    have hv' : (r.copy (windowOf s.sectors s.device r.window)).out[i]? = some v := hv
    rw [hout] at hv'
    rcases lt_or_ge i r.out.length with hi | hi
    · rw [getElem?_append_left hi] at hv'
      exact h.seen i v hv'
    · rw [getElem?_append_right hi, getElem?_map] at hv'
      obtain ⟨j, hj, rfl⟩ := map_eq_some_iff.mp hv'
      obtain ⟨hlt', hjv⟩ := List.getElem?_eq_some_iff.mp hj
      rw [getElem_range] at hjv
      have haddr : r.window * windowSectors + r.within + j = r.lba + i := by omega
      rw [haddr]
      exact h.now _
  · intro data hdata
    rw [hphase] at hdata
    cases hdata

theorem Inv.setReader (h : Inv s) (tid : Nat) (hr : Follows s r) :
    Inv { s with readers := update s.readers tid (some r) } := by
  refine ⟨h.windows, h.returned, ?_⟩
  intro t r' hr'
  have hr'' : update s.readers tid (some r) t = some r' := hr'
  by_cases heq : t = tid
  · rw [heq, update_self] at hr''
    cases hr''
    exact ⟨hr.inside, hr.size, hr.busy, hr.seen, hr.now, hr.fetched⟩
  · rw [update_of_ne heq] at hr''
    have := h.readers t r' hr''
    exact ⟨this.inside, this.size, this.busy, this.seen, this.now, this.fetched⟩

/-- Dropping windows from the cache is always safe. -/
theorem Inv.shrink (h : Inv s) {cache : Nat → Option (List β)}
    (hsub : ∀ w data, cache w = some data → s.cache w = some data) : Inv { s with cache := cache } := by
  refine ⟨fun w data hd => h.windows w data (hsub w data hd), h.returned, ?_⟩
  intro t r hr
  have := h.readers t r hr
  exact ⟨this.inside, this.size, this.busy, this.seen, this.now, this.fetched⟩

theorem Inv.read (h : Inv s) {tid lba count : Nat} {s' : State β} (hs : s.read tid lba count = some s') : Inv s' := by
  unfold State.read at hs
  split_ifs at hs with hc
  cases hs
  refine h.setReader tid ⟨?_, Nat.zero_le _, fun hne => absurd rfl hne, ?_, fun k => mem_singleton_self _, nofun⟩
  · show lba + count ≤ s.sectors
    omega
  · intro i v hv
    cases hv

variable {tid : Nat}

section

variable (h : Inv s)

include h

section

variable (hr : s.readers tid = some r)

include hr

theorem Inv.lookup (hphase : r.phase = .looking)
    (hlt : r.out.length < r.count) : Inv (s.lookupWith tid r) := by
  have hf := h.readers tid r hr
  have hmiss : Inv { s with readers := update s.readers tid (some { r with phase := .missed }) } :=
    h.setReader tid ⟨hf.inside, hf.size, fun _ => hlt, hf.seen, hf.now, nofun⟩
  unfold State.lookupWith
  cases hc : s.cache r.window with
  | none => exact hmiss
  | some data =>
    dsimp only
    split_ifs
    · have hdata := h.windows r.window data hc
      have hcopy := hf.copy hlt r.phase hphase
      rw [← hdata] at hcopy
      exact h.setReader tid hcopy
    · exact hmiss

theorem Inv.fetch (hphase : r.phase = .missed) :
    Inv (s.fetchWith tid r) := by
  have hf := h.readers tid r hr
  refine h.setReader tid ⟨hf.inside, hf.size, fun _ => hf.busy (by rw [hphase]; nofun), hf.seen, hf.now, ?_⟩
  intro data hdata
  cases hdata
  rfl

theorem Inv.insert
    (hphase : r.phase = .fetched data) (victim : Option Nat) : Inv (s.insertWith tid r data victim) := by
  have hf := h.readers tid r hr
  have hdata := hf.fetched data hphase
  have hlt := hf.busy (by rw [hphase]; nofun)
  have hcopy := hf.copy hlt .looking rfl
  rw [← hdata] at hcopy
  have hread := h.setReader tid hcopy
  refine ⟨?_, hread.returned, ?_⟩
  · intro w d hd
    have hd' : update (fun w => if victim = some w then none else s.cache w) r.window (some data) w =
        some d := hd
    by_cases heq : w = r.window
    · rw [heq, update_self] at hd'
      cases hd'
      rw [heq]
      exact hdata
    · rw [update_of_ne heq] at hd'
      split_ifs at hd'
      exact h.windows w d hd'
  · intro t r' hr'
    have := hread.readers t r' hr'
    exact ⟨this.inside, this.size, this.busy, this.seen, this.now, this.fetched⟩

theorem Inv.finish
    (hdone : ¬ r.out.length < r.count) :
    Inv { s with readers := update s.readers tid none, returned := s.returned ++ [r] } := by
  have hf := h.readers tid r hr
  refine ⟨h.windows, ?_, ?_⟩
  · intro r' hr'
    rcases mem_append.mp hr' with hold | hnew
    · exact h.returned r' hold
    · rw [mem_singleton] at hnew
      rw [hnew]
      have := hf.size
      exact ⟨by omega, hf.seen⟩
  · intro t r' hr'
    have hr'' : update s.readers tid none t = some r' := hr'
    by_cases heq : t = tid
    · rw [heq, update_self] at hr''
      cases hr''
    · rw [update_of_ne heq] at hr''
      have := h.readers t r' hr''
      exact ⟨this.inside, this.size, this.busy, this.seen, this.now, this.fetched⟩

end

theorem Inv.forget {tid lba : Nat} {s' : State β}
    (hs : s.forget tid lba data = some s') : Inv s' := by
  unfold State.forget at hs
  split_ifs at hs
  cases hs
  have hshrink : Inv { s with cache := fun w => if touches lba data.length w then none else s.cache w } := by
    refine h.shrink fun w d hd => ?_
    split_ifs at hd
    exact hd
  refine ⟨hshrink.windows, hshrink.returned, fun t r hr => ?_⟩
  have := hshrink.readers t r hr
  exact ⟨this.inside, this.size, this.busy, this.seen, this.now, this.fetched⟩

theorem Inv.write {w : Writer β} (hw : s.writers tid = some w)
    (hok : Undisturbed s (.write tid)) : Inv (s.writeWith tid w) := by
  refine ⟨?_, h.returned, ?_⟩
  · intro k data hd
    have hd' : s.cache k = some data := hd
    show data = windowOf s.sectors (writeAt s.device w.lba w.data) k
    rw [windowOf_writeAt]
    · exact h.windows k data hd'
    · by_contra htouch
      rw [(hok w hw k (by simpa using htouch)).1] at hd'
      cases hd'
  · intro t r' hr'
    obtain ⟨r, hr, rfl⟩ := map_eq_some_iff.mp (show (s.readers t).map _ = some r' from hr')
    have hf := h.readers t r hr
    refine ⟨hf.inside, hf.size, hf.busy, ?_, ?_, ?_⟩
    · exact fun i v hv => mem_append_left _ (hf.seen i v hv)
    · exact fun k => mem_append_right _ (mem_singleton_self _)
    · intro data hphase
      show data = windowOf s.sectors (writeAt s.device w.lba w.data) r.window
      rw [windowOf_writeAt]
      · exact hf.fetched data hphase
      · by_contra htouch
        exact (hok w hw r.window (by simpa using htouch)).2 t r data hr hphase rfl

theorem Inv.step {a : Act β} {s' : State β} (hok : Undisturbed s a) (hs : s.step a = some s') :
    Inv s' := by
  unfold State.step at hs
  cases a with
  | read tid lba count => exact h.read hs
  | lookup tid =>
    dsimp only at hs
    split at hs
    next r hr =>
      split at hs
      next hphase =>
        split_ifs at hs with hlt
        cases hs
        exact h.lookup hr hphase hlt
      · cases hs
    · cases hs
  | fetch tid =>
    dsimp only at hs
    split at hs
    next r hr =>
      split at hs
      next hphase =>
        cases hs
        exact h.fetch hr hphase
      · cases hs
    · cases hs
  | insert tid victim =>
    dsimp only at hs
    split at hs
    next r hr =>
      split at hs
      next data hphase =>
        cases hs
        exact h.insert hr hphase victim
      · cases hs
    · cases hs
  | finish tid =>
    dsimp only at hs
    split at hs
    next r hr =>
      split at hs
      next hphase =>
        split_ifs at hs with hlt
        cases hs
        exact h.finish hr hlt
      · cases hs
    · cases hs
  | forget tid lba data => exact h.forget hs
  | write tid =>
    obtain ⟨w, hw, rfl⟩ := map_eq_some_iff.mp hs
    exact h.write hw hok
  | evict window =>
    cases hs
    refine h.shrink fun w d hd => ?_
    by_cases heq : w = window
    · rw [heq, update_self] at hd
      cases hd
    · rw [update_of_ne heq] at hd
      exact hd

end

/-- A disk with nothing cached and nothing under way. -/
def Idle (s : State β) : Prop :=
  (∀ w, s.cache w = none) ∧ (∀ t, s.readers t = none) ∧ (∀ t, s.writers t = none) ∧ s.returned = []

/-- In every run whose device writes are undisturbed the cache is the disk, and no read
    returns bytes older than its beginning. -/
theorem cache_coherent (s : State β) (h : Reach Idle State.step Undisturbed s) : Coherent s := by
  have hinv : Inv s := by
    refine Reach.invariant ?_ (fun _ _ _ hi hok hs => hi.step hok hs) h
    rintro s₀ ⟨hcache, hread, -, hret⟩
    refine ⟨?_, ?_, ?_⟩
    · intro w data hd
      rw [hcache] at hd
      cases hd
    · rw [hret]
      exact nofun
    · intro t r hr
      rw [hread] at hr
      cases hr
  exact ⟨hinv.windows, hinv.returned⟩

/-- A disk of two sectors. -/
def twoSectors : State Nat := ⟨2, fun _ => 0, fun _ => none, fun _ => none, fun _ => none, []⟩

theorem idle_twoSectors : Idle twoSectors := ⟨fun _ => rfl, fun _ => rfl, fun _ => rfl, rfl⟩

/-- A read, then a write, then a read again. -/
def readWriteRead : List (Act Nat) :=
  [.read 1 0 1, .lookup 1, .fetch 1, .insert 1 none, .finish 1, .forget 2 0 [7], .write 2,
    .read 1 0 1, .lookup 1, .fetch 1, .insert 1 none, .finish 1]

theorem cache_coherent_read_back :
    ∃ s, runLabels State.step twoSectors readWriteRead = some s ∧
      s.returned.map (·.out) = [[0], [7]] ∧ Coherent s := by
  refine ⟨_, rfl, by decide, cache_coherent _ (Reach.admitted (.start idle_twoSectors) readWriteRead ?_ rfl)⟩
  iterate 6
    refine ⟨trivial, fun _ h => ?_⟩
    cases h
  refine ⟨?_, fun _ h => ?_⟩
  · rintro w ⟨⟩ k hk
    have hk0 : k = 0 := by
      unfold touches windowSectors at hk
      rw [decide_eq_true_iff] at hk
      have := hk.2
      simp at this
      omega
    rw [hk0]
    refine ⟨rfl, fun t r data hr hphase => ?_⟩
    by_cases heq : t = 1
    · rw [heq] at hr
      cases hr
    · have hnone : ∀ (f : Nat → Option (Reader Nat)) v, f t = none → update f 1 v t = none := by
        intro f v hf
        rw [update_of_ne heq]
        exact hf
      have := (hnone _ _ (hnone _ _ (hnone _ _ (hnone _ _ (hnone _ _ rfl))))).symm.trans hr
      cases this
  cases h
  iterate 5
    refine ⟨trivial, fun _ h => ?_⟩
    cases h
  trivial

/-- A read that has fetched its window before a write and inserts it afterwards leaves the
    old bytes in the cache, and the next read returns them. -/
theorem late_insert_is_stale :
    ∃ s, runLabels State.step twoSectors
        [.read 1 0 1, .lookup 1, .fetch 1, .forget 2 0 [7], .write 2, .insert 1 none, .finish 1,
          .read 3 0 1, .lookup 3, .finish 3] = some s ∧
      s.cache 0 = some [0, 0] ∧ s.device 0 = 7 ∧ s.writers 2 = none ∧
      s.returned.map (fun r => (r.out, r.since 0)) = [([0], [0, 7]), ([0], [7])] ∧ ¬ Coherent s := by
  refine ⟨_, rfl, by decide, by decide, rfl, by decide, ?_⟩
  intro hc
  have := hc.windows 0 [0, 0] (by decide)
  revert this
  decide

end BlockCache

end HamixOS.Kernel

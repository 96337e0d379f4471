import HamixOS.Lib.Machine
import HamixOS.Kernel.Errno

namespace HamixOS.Kernel

open Lib Function Nat

/-!
# Event descriptors (`syscall/special.rs`)

One eventfd and the calls of `read` and `write` that are under way on it.  A `read` looks at the
counter in `wait` and takes from it in a later section under the lock; each section is one step
here, and those of any number of threads may come in any order.

Counters are `u64` and wrap, as in a release build.  The accounts of what was written and read,
and of the calls that have returned, decide nothing.
-/

namespace EventFd

def u64 : Nat := 2 ^ 64

/-- Where a thread is: outside, in `wait`, between `wait` and the section that takes, or in the
    loop of `write`; with whether its descriptor is non-blocking. -/
inductive Phase where
  | idle
  | waiting (nonblock : Bool)
  | woken (nonblock : Bool)
  | writing (value : Nat) (nonblock : Bool)
  deriving DecidableEq

structure Event where
  counter : Nat
  semaphore : Bool
  phase : Nat → Phase
  initial : Nat
  written : Nat
  taken : Nat
  returned : List (Bool × Int)

/-- `sys_eventfd2`. -/
def create (initval : Nat) (semaphore : Bool) : Event :=
  ⟨initval % 2 ^ 32, semaphore, fun _ => .idle, initval % 2 ^ 32, 0, 0, []⟩

/-- The sections; `signal` says whether the thread has a signal pending. -/
inductive Act where
  | read (thread count : Nat) (nonblock : Bool)
  | look (thread : Nat) (signal : Bool)
  | take (thread : Nat)
  | write (thread length value : Nat) (nonblock : Bool)
  | add (thread : Nat)
  deriving DecidableEq

namespace Event

variable (e : Event)

def goTo (t : Nat) (p : Phase) : Event := { e with phase := Function.update e.phase t p }

/-- The call of thread `t` returns `r`. -/
def leave (t : Nat) (nonblock : Bool) (r : Int) : Event :=
  { e.goTo t .idle with returned := e.returned ++ [(nonblock, r)] }

/-- The round of the loop of `wait`: `readable` and what follows. -/
def look (t : Nat) (nonblock signal : Bool) : Event :=
  if 0 < e.counter then e.goTo t (.woken nonblock)
  else if nonblock then e.leave t nonblock eagain
  else if signal then e.leave t nonblock eintr
  else e

/-- The section of `read` that takes from the counter: the value, and what is left. -/
def taking : Nat × Nat :=
  if e.semaphore then (1, (e.counter + u64 - 1) % u64) else (e.counter, 0)

def take (t : Nat) (nonblock : Bool) : Event :=
  let r := e.taking
  let e := { e with counter := r.2 }
  if 0 < r.1 then { e.leave t nonblock 8 with taken := e.taken + r.1 } else e.leave t nonblock eagain

/-- The section of `write`. -/
def add (t value : Nat) (nonblock : Bool) : Event :=
  if value ≤ (u64 - 2 + u64 - e.counter) % u64 then
    { e.leave t nonblock 8 with counter := (e.counter + value) % u64, written := e.written + value }
  else if nonblock then e.leave t nonblock eagain
  else e

end Event

def step (e : Event) : Act → Option Event
  | .read t count nonblock =>
    if e.phase t = .idle then
      some (if count < 8 then e.leave t nonblock einval else e.goTo t (.waiting nonblock))
    else none
  | .look t signal =>
    match e.phase t with
    | .waiting nonblock => some (e.look t nonblock signal)
    | _ => none
  | .take t =>
    match e.phase t with
    | .woken nonblock => some (e.take t nonblock)
    | _ => none
  | .write t length value nonblock =>
    if e.phase t = .idle then
      some (if length < 8 ∨ value % u64 = u64 - 1 then e.leave t nonblock einval
        else e.goTo t (.writing (value % u64) nonblock))
    else none
  | .add t =>
    match e.phase t with
    | .writing value nonblock => some (e.add t value nonblock)
    | _ => none

/-- No count is lost or made up, and no blocking call has returned `EAGAIN`. -/
structure Kept (e : Event) : Prop where
  sum : e.initial + e.written = e.counter + e.taken
  bound : e.counter ≤ u64 - 2
  blocking : ∀ r ∈ e.returned, r.2 = eagain → r.1 = true

/-- The section that takes finds something, as no other reader has drained the counter since, or
    it belongs to a non-blocking call on a counter that is not a semaphore. -/
def Undrained (e : Event) : Act → Prop
  | .take t => 0 < e.counter ∨ (e.semaphore = false ∧ e.phase t = .woken true)
  | _ => True

/-- What is written fits. -/
structure Inv (e : Event) : Prop extends Kept e where
  values : ∀ t value nonblock, e.phase t = .writing value nonblock → value < u64 - 1

section Steps

variable {e : Event}

section

variable (h : Inv e)

include h

theorem Inv.goTo (t : Nat) {p : Phase} (hp : ∀ value nonblock, p = .writing value nonblock → value < u64 - 1) :
    Inv (e.goTo t p) where
  sum := h.sum
  bound := h.bound
  blocking := h.blocking
  values u value nonblock hu := by
    have hu' : update e.phase t p u = .writing value nonblock := hu
    by_cases hut : u = t
    · rw [hut, update_self] at hu'
      exact hp value nonblock hu'
    · rw [update_of_ne hut] at hu'
      exact h.values u value nonblock hu'

/-- A call that returns leaves the accounts as they are. -/
theorem Inv.leave (t : Nat) {nonblock : Bool} {r : Int} (hr : r = eagain → nonblock = true) :
    Inv (e.leave t nonblock r) where
  sum := h.sum
  bound := h.bound
  blocking x hx hxa := by
    rcases List.mem_append.mp hx with hx | hx
    · exact h.blocking x hx hxa
    · rw [List.mem_singleton.mp hx] at hxa ⊢
      exact hr hxa
  values := (h.goTo t (p := .idle) nofun).values

theorem Inv.look (t : Nat) (nonblock signal : Bool) : Inv (e.look t nonblock signal) := by
  unfold Event.look
  split_ifs with hc hn
  · exact h.goTo t nofun
  · exact h.leave t fun _ => hn
  · exact h.leave t (fun hr => absurd hr (by decide))
  · exact h

theorem Inv.take (hc : 0 < e.counter) (t : Nat) (nonblock : Bool) : Inv (e.take t nonblock) := by
  have hb := h.bound
  have hs := h.sum
  have hr : (8 : Int) = eagain → nonblock = true := fun hr => absurd hr (by decide)
  have hleave := h.leave t hr
  have hval : 0 < e.taking.1 ∧ e.taking.2 + e.taking.1 = e.counter := by
    unfold Event.taking
    split_ifs
    · refine ⟨one_pos, ?_⟩
      have hmod : (e.counter + u64 - 1) % u64 = e.counter - 1 := by
        have hlt : e.counter - 1 < u64 := by omega
        have hsplit : e.counter + u64 - 1 = (e.counter - 1) + u64 := by omega
        rw [hsplit, add_mod_right, mod_eq_of_lt hlt]
      dsimp only
      omega
    · exact ⟨hc, zero_add _⟩
  unfold Event.take
  dsimp only
  rw [if_pos hval.1]
  exact ⟨⟨by show e.initial + e.written = e.taking.2 + (e.taken + e.taking.1); omega,
    by show e.taking.2 ≤ u64 - 2; omega, hleave.blocking⟩, hleave.values⟩

/-- Without a semaphore, taking from a drained counter changes no account. -/
theorem Inv.take_drained (hc : e.counter = 0) (hsem : e.semaphore = false) (t : Nat) :
    Inv (e.take t true) := by
  have htaking : e.taking = (0, 0) := by
    unfold Event.taking
    rw [hsem, hc]
    rfl
  have hleave := h.leave t (r := eagain) fun _ => rfl
  have hs := h.sum
  unfold Event.take
  rw [htaking]
  exact ⟨⟨by show e.initial + e.written = 0 + e.taken; omega, zero_le _, hleave.blocking⟩, hleave.values⟩

theorem Inv.add {t value : Nat} {nonblock : Bool} (hp : e.phase t = .writing value nonblock) :
    Inv (e.add t value nonblock) := by
  have hb := h.bound
  have hs := h.sum
  unfold Event.add
  split_ifs with hfit hn
  · have hr : (8 : Int) = eagain → nonblock = true := fun hr => absurd hr (by decide)
    have hleave := h.leave t hr
    have hroom : (u64 - 2 + u64 - e.counter) % u64 = u64 - 2 - e.counter := by
      have hsplit : u64 - 2 + u64 - e.counter = (u64 - 2 - e.counter) + u64 := by omega
      have hlt : u64 - 2 - e.counter < u64 := by
        have : 0 < u64 := by decide
        omega
      rw [hsplit, add_mod_right, mod_eq_of_lt hlt]
    rw [hroom] at hfit
    have hpos : 2 < u64 := by decide
    have hmod : (e.counter + value) % u64 = e.counter + value := mod_eq_of_lt (by omega)
    exact ⟨⟨by show e.initial + (e.written + value) = (e.counter + value) % u64 + e.taken; omega,
      by show (e.counter + value) % u64 ≤ u64 - 2; omega, hleave.blocking⟩, hleave.values⟩
  · exact h.leave t fun _ => hn
  · exact h

theorem Inv.step {e' : Event} {a : Act} (hok : Undrained e a) (hs : step e a = some e') : Inv e' := by
  cases a with
  | read t count nonblock =>
    simp only [EventFd.step] at hs
    split_ifs at hs
    · cases hs
      exact h.leave t (fun hr => absurd hr (by decide))
    · cases hs
      exact h.goTo t nofun
  | look t signal =>
    simp only [EventFd.step] at hs
    split at hs
    · cases hs
      exact h.look t _ _
    · cases hs
  | take t =>
    simp only [EventFd.step] at hs
    split at hs
    · next nonblock hp =>
      cases hs
      rcases Nat.eq_zero_or_pos e.counter with hc | hc
      · rcases hok with hpos | ⟨hsem, hwoken⟩
        · omega
        · rw [hp] at hwoken
          cases hwoken
          exact h.take_drained hc hsem t
      · exact h.take hc t _
    · cases hs
  | write t length value nonblock =>
    simp only [EventFd.step] at hs
    split_ifs at hs with hi hbad
    · cases hs
      exact h.leave t (fun hr => absurd hr (by decide))
    · cases hs
      refine h.goTo t ?_
      rintro v b ⟨⟩
      have hlt : value % u64 < u64 := mod_lt _ (by decide)
      have hne := (not_or.mp hbad).2
      omega
  | add t =>
    simp only [EventFd.step] at hs
    split at hs
    · next value nonblock hp =>
      cases hs
      exact h.add hp
    · cases hs

end

end Steps

/-- The states before the first call. -/
def Fresh (e : Event) : Prop := ∃ initval semaphore, e = create initval semaphore

theorem inv_fresh {e : Event} (h : Fresh e) : Inv e := by
  obtain ⟨initval, semaphore, rfl⟩ := h
  refine ⟨⟨rfl, ?_, nofun⟩, nofun⟩
  show initval % 2 ^ 32 ≤ u64 - 2
  unfold u64
  omega

/-- Where no reader is overtaken, every state that is reached keeps the counts. -/
theorem kept_of_reach {e : Event} (h : Reach Fresh step Undrained e) : Kept e :=
  (h.invariant (I := Inv) (fun _ => inv_fresh) (fun _ _ _ hi hok hs => hi.step hok hs)).toKept

/-- Two readers that both look before one of them takes. -/
def overtaken : List Act := [.read 0 8 false, .read 1 8 false, .look 0 false, .look 1 false, .take 0, .take 1]

/-- A reader on its own. -/
def alone : List Act := [.read 0 8 false, .look 0 false, .take 0]

end EventFd

end HamixOS.Kernel

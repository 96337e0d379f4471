import HamixOS.Lib.Machine
import HamixOS.Lib.OrdMap
import HamixOS.Kernel.Errno

namespace HamixOS.Kernel.Epoll

open Lib Option OrdMap

/-!
# Epoll instances (`fs/epoll.rs`)

The interests of an instance are keyed by descriptor number.  `sys_epoll_ctl` edits them
under the lock; `collect` copies them under the lock (`snapshot`), tests each one without
it (`test`) and edits the table by number under the lock again (`applyEdits`).

To an interest we add two things the code does not keep: which `EPOLL_CTL_ADD` or
`EPOLL_CTL_MOD` wrote it (`arming`), and the open file that was behind the descriptor then
(`file`).  They are written where the code writes the interest and never looked at.
-/

/-- `EPOLLONESHOT`. -/
def epollOneshot : Nat := 2 ^ 30

structure Interest where
  events : Nat
  data : Nat
  armed : Bool
  deriving DecidableEq

def Interest.oneshot (i : Interest) : Bool := i.events &&& epollOneshot ≠ 0

/-- An interest, with the descriptor and serial number of the call that wrote it and the
    open file it was written for. -/
structure Slot where
  interest : Interest
  arming : Nat × Nat
  file : Nat
  deriving DecidableEq

abbrev Items := OrdMap Slot

/-- The operations of `epoll_ctl` on one descriptor. -/
inductive CtlOp where
  | add (events data : Nat)
  | mod (events data : Nat)
  | del
  deriving DecidableEq

/-- The locked part of `sys_epoll_ctl`; `serial` and `file` are recorded with the interest. -/
def ctl (items : Items) (fd serial file : Nat) : CtlOp → Items × Int
  | .add events data =>
    if (items.get fd).isSome then (items, eexist)
    else (items.put fd ⟨⟨events, data, true⟩, (fd, serial), file⟩, 0)
  | .mod events data =>
    if (items.get fd).isSome then (items.put fd ⟨⟨events, data, true⟩, (fd, serial), file⟩, 0)
    else (items, enoent)
  | .del => if (items.get fd).isSome then (items.erase fd, 0) else (items, enoent)

/-- The operation finds the table as it needs it, and changes the entry of `fd`. -/
def takes (items : Items) (fd : Nat) : CtlOp → Bool
  | .add _ _ => (items.get fd).isNone
  | .mod _ _ => (items.get fd).isSome
  | .del => (items.get fd).isSome

/-- A `collect` between its first and its last locked step. -/
structure Collect where
  rest : List (Nat × Slot)
  max : Nat
  ready : List (Nat × Slot)
  stale : List (Nat × Slot)
  fired : List (Nat × Slot)

def snapshot (items : Items) (max : Nat) : Collect := ⟨items.entries, max, [], [], []⟩

/-- One turn of the loop of `collect`.  `bad` says that `target` finds nothing behind the
    descriptor, `revents` is what `tty::readiness` and `tty::rdhup` answer. -/
def test (c : Collect) (bad : Bool) (revents : Nat) : Collect :=
  match c.rest with
  | [] => c
  | e :: rest =>
    if c.ready.length ≥ c.max then { c with rest := [] }
    else if !e.2.interest.armed then { c with rest := rest }
    else if bad then { c with rest := rest, stale := c.stale ++ [e] }
    else if revents = 0 then { c with rest := rest }
    else
      { c with
        rest := rest
        ready := c.ready ++ [(revents, e.2)]
        fired := if e.2.interest.oneshot then c.fired ++ [e] else c.fired }

/-- A turn leaves the rest of the list, or nothing, and reports only an open descriptor. -/
theorem test_cases {c : Collect} {e : Nat × Slot} {rest : List (Nat × Slot)} (hrest : c.rest = e :: rest)
    (bad : Bool) (revents : Nat) :
    ((test c bad revents).rest = [] ∨ (test c bad revents).rest = rest) ∧
      ((test c bad revents).ready = c.ready ∨
        bad = false ∧ (test c bad revents).ready = c.ready ++ [(revents, e.2)]) := by
  unfold test
  rw [hrest]
  dsimp only
  by_cases hmax : c.ready.length ≥ c.max
  · rw [if_pos hmax]
    exact ⟨.inl rfl, .inl rfl⟩
  rw [if_neg hmax]
  by_cases harmed : (!e.2.interest.armed) = true
  · rw [if_pos harmed]
    exact ⟨.inr rfl, .inl rfl⟩
  rw [if_neg harmed]
  cases bad with
  | true => exact ⟨.inr rfl, .inl rfl⟩
  | false =>
    rw [if_neg (by decide)]
    by_cases hzero : revents = 0
    · rw [if_pos hzero]
      exact ⟨.inr rfl, .inl rfl⟩
    · rw [if_neg hzero]
      exact ⟨.inr rfl, .inr ⟨rfl, rfl⟩⟩

def disarm (s : Slot) : Slot := { s with interest := { s.interest with armed := false } }

/-- The last locked step of `collect`: by descriptor number. -/
def applyEdits (items : Items) (c : Collect) : Items :=
  (c.fired.map (·.1)).foldl (fun m fd => m.modify fd disarm)
    ((c.stale.map (·.1)).foldl (fun m fd => m.erase fd) items)

theorem get_foldl_erase (l : List Nat) (items : Items) (fd : Nat) :
    (l.foldl (fun m k => m.erase k) items).get fd = if fd ∈ l then none else items.get fd := by
  induction l generalizing items with
  | nil => simp
  | cons k l ih =>
    rw [List.foldl_cons, ih, get_erase]
    by_cases hk : k = fd
    · simp [hk]
    · simp [hk, Ne.symm hk]

theorem get_foldl_disarm (l : List Nat) (items : Items) (fd : Nat) :
    (l.foldl (fun m k => m.modify k disarm) items).get fd =
      if fd ∈ l then (items.get fd).map disarm else items.get fd := by
  induction l generalizing items with
  | nil => simp
  | cons k l ih =>
    rw [List.foldl_cons, ih, get_modify]
    by_cases hk : k = fd
    · rw [if_pos hk, if_pos (show fd ∈ k :: l by simp [hk])]
      split_ifs
      · cases items.get fd with
        | none => rfl
        | some s => rfl
      · rfl
    · rw [if_neg hk]
      simp [Ne.symm hk]

theorem get_applyEdits (items : Items) (c : Collect) (fd : Nat) :
    (applyEdits items c).get fd = if fd ∈ c.stale.map (·.1) then none
      else if fd ∈ c.fired.map (·.1) then (items.get fd).map disarm else items.get fd := by
  unfold applyEdits
  rw [get_foldl_disarm, get_foldl_erase]
  by_cases hstale : fd ∈ c.stale.map (·.1)
  · rw [if_pos hstale, if_pos hstale]
    split_ifs
    · rfl
    · rfl
  · rw [if_neg hstale, if_neg hstale]

/-- What a successful `epoll_ctl` leaves at each descriptor. -/
theorem get_ctl (items : Items) (fd serial file : Nat) (op : CtlOp) (j : Nat) :
    (ctl items fd serial file op).1.get j = if fd = j ∧ takes items fd op = true then
        (match op with
        | .add events data => some ⟨⟨events, data, true⟩, (fd, serial), file⟩
        | .mod events data => some ⟨⟨events, data, true⟩, (fd, serial), file⟩
        | .del => none)
      else items.get j := by
  unfold ctl takes
  cases op with
  | add events data =>
    cases hg : items.get fd with
    | none =>
      simp only [isSome_none, Bool.false_eq_true, if_false, isNone_none, and_true]
      rw [get_put]
    | some s => simp
  | mod events data =>
    dsimp only
    cases hg : items.get fd with
    | none => simp
    | some s =>
      simp only [isSome_some, if_true, and_true]
      rw [get_put]
  | del =>
    dsimp only
    cases hg : items.get fd with
    | none => simp
    | some s =>
      simp only [isSome_some, if_true, and_true]
      rw [get_erase]

end HamixOS.Kernel.Epoll

import HamixOS.Lib.Returns
import HamixOS.Kernel.Errno

namespace HamixOS.Kernel.PassedFds

open Lib Checked Nat

/-!
# Descriptors sent in messages (`net/socket.rs`)

`collect_fds` reads the control buffer of `sendmsg` and duplicates the open files it names.  `F` is what a
descriptor refers to.  The files that the call acquires and releases are kept in lists, so that a file
released twice is seen.

* `collectFds_iff` — `collect_fds` returns, with its files in order, unless it meets a header whose end does
  not fit in 64 bits.
-/

variable {F : Type}

def scmRights : Nat := 1

def solSocket : Nat := 1

def maxPassedFds : Nat := 253

/-- The memory of the caller: `user_slice`. -/
structure UserMemory where
  slice : Nat → Nat → Except Int Bytes
  length_slice : ∀ ptr len b, slice ptr len = .ok b → b.length = len

/-- The files that a call has duplicated, and those it has released. -/
structure Held (F : Type) where
  acquired : List F
  released : List F

/-- The length in the header at `off`. -/
def headerLen (raw : Bytes) (off : Nat) : Nat := getLE 8 raw off

/-- Whether the header at `off` is one of `SCM_RIGHTS`. -/
def isRights (level kind : Nat) : Bool := decide (level = solSocket ∧ kind = scmRights)

/-- The descriptors of a control message, four bytes each. -/
def fdsOf (part : Bytes) : List Nat := (List.range (part.length / 4)).map fun i => getLE 4 part (i * 4)

/-- The files of descriptors, `n` of which are there already, up to the first that cannot be passed; `lookup`
is `open_file_for`. -/
def takeFds (lookup : Nat → Option F) : List Nat → Nat → List F × Option Int
  | [], _ => ([], none)
  | fd :: rest, n =>
    if 2 ^ 31 ≤ fd ∨ maxPassedFds ≤ n then ([], some (if 2 ^ 31 ≤ fd then ebadf else einval))
    else
      match lookup fd with
      | none => ([], some ebadf)
      | some file =>
        let r := takeFds lookup rest (n + 1)
        (file :: r.1, r.2)

/-- `fail`: all files are released. -/
def failWith (files : List F) (e : Int) : CheckedM Overflow (Held F) (Except Int (List F)) := do
  modify fun s => { s with released := s.released ++ files }
  pure (.error e)

/-- The files of the message at `off`. -/
def filesAt (lookup : Nat → Option F) (raw : Bytes) (off len level kind count : Nat) : List F × Option Int :=
  if isRights level kind then takeFds lookup (fdsOf (slice raw (off + 16) (len - 16))) count else ([], none)

/-- The loop of `collect_fds`. -/
def collectLoop (lookup : Nat → Option F) (raw : Bytes) :
    Nat → Nat → List F → CheckedM Overflow (Held F) (Except Int (List F))
  | 0, _, _ => throw .endless
  | fuel + 1, off, files => do
    let head ← Checked.plus 64 off 16
    if raw.length < head then pure (.ok files)
    else do
      let len ← Checked.word 8 raw off
      let level ← Checked.word 4 raw (off + 8)
      let kind ← Checked.word 4 raw (off + 12)
      if len < 16 then failWith files einval
      else do
        let stop ← Checked.plus 64 off len
        if raw.length < stop then failWith files einval
        else do
          let got := filesAt lookup raw off len level kind files.length
          modify fun s => { s with acquired := s.acquired ++ got.1 }
          match got.2 with
          | some e => failWith (files ++ got.1) e
          | none => do
            let padded ← Checked.plus 64 len 7
            let next ← Checked.plus 64 off (padded / 8 * 8)
            collectLoop lookup raw fuel next (files ++ got.1)

def collectFds (mem : UserMemory) (lookup : Nat → Option F) (control controlLen : Nat) :
    CheckedM Overflow (Held F) (Except Int (List F)) :=
  if control = 0 ∨ controlLen = 0 then pure (.ok [])
  else
    match mem.slice control (min controlLen (64 * 1024)) with
    | .error e => pure (.error e)
    | .ok raw => collectLoop lookup raw (raw.length + 1) 0 []

/-- The files of the message whose header is at `off`. -/
def filesOf (lookup : Nat → Option F) (raw : Bytes) (off : Nat) (files : List F) : List F × Option Int :=
  filesAt lookup raw off (headerLen raw off) (getLE 4 raw (off + 8)) (getLE 4 raw (off + 12)) files.length

/-- From one header, with some files in hand, the loop comes to another. -/
inductive Visits (lookup : Nat → Option F) (raw : Bytes) : Nat → List F → Nat → List F → Prop where
  | here {off files} : Visits lookup raw off files off files
  | next {off files off' files'} : off + 16 ≤ raw.length → 16 ≤ headerLen raw off →
      off + headerLen raw off ≤ raw.length → (filesOf lookup raw off files).2 = none →
      Visits lookup raw (off + (headerLen raw off + 7) / 8 * 8) (files ++ (filesOf lookup raw off files).1) off' files' →
      Visits lookup raw off files off' files'

/-- Every header that the loop comes to ends below 2^64. -/
def Bounded (lookup : Nat → Option F) (raw : Bytes) (off : Nat) (files : List F) : Prop :=
  ∀ off' files', Visits lookup raw off files off' files' → off' + 16 ≤ raw.length → off' + headerLen raw off' < 2 ^ 64

/-- The files are with the result, or all released. -/
def Balanced (r : Except Int (List F)) (s : Held F) : Prop :=
  match r with
  | .ok files => s.acquired = files ∧ s.released = []
  | .error _ => s.released = s.acquired

variable {lookup : Nat → Option F} {raw : Bytes}

variable {files : List F}

/-- Where the loop does not go on, only the header at hand counts. -/
theorem bounded_of_last {off : Nat} (hlast : ¬ (off + 16 ≤ raw.length ∧ 16 ≤ headerLen raw off ∧
      off + headerLen raw off ≤ raw.length ∧ (filesOf lookup raw off files).2 = none))
    (hhere : off + 16 ≤ raw.length → off + headerLen raw off < 2 ^ 64) : Bounded lookup raw off files := by
  intro off' files' hv
  cases hv with
  | here => exact hhere
  | next h₁ h₂ h₃ h₄ => exact absurd ⟨h₁, h₂, h₃, h₄⟩ hlast

theorem post_failWith {e : Int} {s : Held F} {P : Prop} {E : Stop Overflow → Held F → Prop}
    (hacquired : s.acquired = files) (hreleased : s.released = []) (h : P) :
    Post (failWith files e) s (fun r s' => Balanced r s' ∧ P) E := by
  refine ⟨?_, h⟩
  show s.released ++ files = s.acquired
  rw [hreleased, hacquired]
  rfl

/-- From a header the loop comes to, it returns with its files in order, or meets one that does not end. -/
theorem post_collectLoop (hraw : raw.length ≤ 64 * 1024) {fuel off : Nat} {s : Held F}
    (hacquired : s.acquired = files) (hreleased : s.released = []) (hoff : off < 64 * 1024 + 8)
    (hfuel : raw.length < fuel + off) (hpos : 0 < fuel) :
    Post (collectLoop lookup raw fuel off files) s
      (fun r s' => Balanced r s' ∧ Bounded lookup raw off files) (fun _ _ => ¬ Bounded lookup raw off files) := by
  induction fuel generalizing off files s with
  | zero => exact absurd hpos (lt_irrefl 0)
  | succ fuel ih =>
    refine post_plus (by omega) ?_
    by_cases hend : raw.length < off + 16
    · rw [if_pos hend]
      exact Post.pure ⟨⟨hacquired, hreleased⟩, bounded_of_last (fun h => by omega) fun h => by omega⟩
    rw [if_neg hend]
    refine post_word (by omega) (post_word (by omega) (post_word (by omega) ?_))
    by_cases hshort : getLE 8 raw off < 16
    · rw [if_pos hshort]
      refine post_failWith hacquired hreleased (bounded_of_last (fun h => ?_) fun _ => ?_)
      · exact absurd hshort (not_lt.mpr h.2.1)
      · show off + getLE 8 raw off < _
        omega
    rw [if_neg hshort]
    by_cases hover : 2 ^ 64 ≤ off + getLE 8 raw off
    · unfold Checked.plus
      rw [if_neg (not_lt.mpr hover)]
      exact fun hbounded => absurd (hbounded off files .here (Nat.le_of_not_lt hend)) (not_lt.mpr hover)
    refine post_plus (Nat.lt_of_not_le hover) ?_
    by_cases hlong : raw.length < off + getLE 8 raw off
    · rw [if_pos hlong]
      exact post_failWith hacquired hreleased
        (bounded_of_last (fun h => absurd hlong (not_lt.mpr h.2.2.1)) fun _ => Nat.lt_of_not_le hover)
    rw [if_neg hlong]
    refine Post.change ?_
    show Post (match (filesOf lookup raw off files).2 with | some e => _ | none => _) _ _ _
    cases hfiles : (filesOf lookup raw off files).2 with
    | some e =>
      refine post_failWith (congrArg (· ++ _) hacquired) hreleased (bounded_of_last (fun h => ?_) fun _ => Nat.lt_of_not_le hover)
      rw [hfiles] at h
      cases h.2.2.2
    | none =>
      refine post_plus (by omega) (post_plus (by omega) ?_)
      refine Post.mono (ih (congrArg (· ++ _) hacquired) hreleased (by omega) (by omega) (by omega)) ?_ ?_
      · rintro r s' ⟨hbalanced, hbounded⟩
        refine ⟨hbalanced, fun off' files' hv => ?_⟩
        cases hv with
        | here => exact fun _ => Nat.lt_of_not_le hover
        | next _ _ _ _ hv => exact hbounded off' files' hv
      · intro x s' hnot hbounded
        exact hnot fun off' files' hv => hbounded off' files'
          (.next (Nat.le_of_not_lt hend) (Nat.le_of_not_lt hshort) (Nat.le_of_not_lt hlong) hfiles hv)

/-- The buffer that `collect_fds` reads has no header whose end overflows. -/
def HeadersEnd (mem : UserMemory) (lookup : Nat → Option F) (control controlLen : Nat) : Prop :=
  control ≠ 0 → controlLen ≠ 0 → ∀ raw, mem.slice control (min controlLen (64 * 1024)) = .ok raw → Bounded lookup raw 0 []

/-- `collect_fds` returns, and its files are in order. -/
def Collects (mem : UserMemory) (lookup : Nat → Option F) (control controlLen : Nat) : Prop :=
  ∃ r s, collectFds mem lookup control controlLen ⟨[], []⟩ = .ok r s ∧ Balanced r s

theorem collectFds_iff (mem : UserMemory) (lookup : Nat → Option F) (control controlLen : Nat) :
    Collects mem lookup control controlLen ↔ HeadersEnd mem lookup control controlLen := by
  unfold Collects HeadersEnd collectFds
  by_cases hnone : control = 0 ∨ controlLen = 0
  · rw [if_pos hnone]
    exact ⟨fun _ hc hl => absurd hnone (not_or.mpr ⟨hc, hl⟩), fun _ => ⟨_, _, rfl, rfl, rfl⟩⟩
  rw [if_neg hnone]
  obtain ⟨hcontrol, hlen⟩ := not_or.mp hnone
  cases hslice : mem.slice control (min controlLen (64 * 1024)) with
  | error e => exact ⟨fun _ _ _ raw h => (nomatch h), fun _ => ⟨_, _, rfl, rfl⟩⟩
  | ok raw =>
    have hraw := mem.length_slice _ _ _ hslice
    have hrun : Post (collectLoop lookup raw (raw.length + 1) 0 []) ⟨[], []⟩
        (fun r s' => Balanced r s' ∧ Bounded lookup raw 0 []) (fun _ _ => ¬ Bounded lookup raw 0 []) :=
      post_collectLoop (by omega) rfl rfl (by omega) (by omega) (by omega)
    unfold Post at hrun
    constructor
    · rintro ⟨r, s, h, -⟩ - - _ ⟨⟩
      change collectLoop lookup raw _ 0 [] _ = _ at h
      rw [h] at hrun
      exact hrun.2
    · intro h
      have hbounded := h hcontrol hlen raw rfl
      show ∃ r s, collectLoop lookup raw (raw.length + 1) 0 [] ⟨[], []⟩ = .ok r s ∧ Balanced r s
      cases hloop : collectLoop lookup raw (raw.length + 1) 0 [] ⟨[], []⟩ with
      | ok r s =>
        rw [hloop] at hrun
        exact ⟨r, s, rfl, hrun.1⟩
      | error x s =>
        rw [hloop] at hrun
        exact absurd hbounded hrun

end HamixOS.Kernel.PassedFds

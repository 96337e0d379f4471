import Mathlib.Algebra.BigOperators.Group.Finset.Piecewise
import Mathlib.Algebra.Order.BigOperators.Group.Finset
import HamixOS.Lib.Radix

namespace HamixOS.Kernel

open Lib Function Option List

/-!
# Physical frames (`memory/frame.rs`, `memory/tlb.rs`)

The bitmap of free frames, the table of shares that copy-on-write keeps beside it, the
contents of the frames and the list of frames to be freed at the next `tlb::sync`.  A frame
is named by its number; the source uses its address, `PAGE_SIZE` times that.

`Balanced pool p h` says that the frames of `pool`, those the allocator was given, are
accounted for when the holders of frame `f` outside this module are `h f` in number: a free
frame has none and any other has one more than its shares.  Each operation has one lemma
that says what it does to the books, and `Kept` says what it leaves alone.
-/

/-- `MAX_FRAMES`. -/
def maxFrames : Nat := 2 ^ 25

/-- The contents of a page, by offset. -/
abbrev Page := Nat → UInt8

def zeroPage : Page := fun _ => 0

/-- `BitmapFrameAllocator`; a set bit marks a free frame. -/
structure BitmapFrameAllocator where
  bitmap : Nat → Bool
  nextFree : Nat
  limit : Nat
  freeFrames : Nat

namespace BitmapFrameAllocator

/-- `trailing_zeros` of a word of the bitmap, as a frame; `none` if the word is zero. -/
def firstOfWord (a : BitmapFrameAllocator) (word : Nat) : Option Nat :=
  ((List.range 64).find? (fun bit => a.bitmap (word * 64 + bit))).map (fun bit => word * 64 + bit)

def words (a : BitmapFrameAllocator) : Nat := (a.limit + 63) / 64

/-- The frame `alloc` picks: words are tried from the one of `next_free` on, round the end. -/
def pick (a : BitmapFrameAllocator) : Option Nat :=
  (List.range (a.words + 1)).findSome? fun step =>
    (a.firstOfWord ((min (a.nextFree / 64) (a.words - 1) + step) % a.words)).filter (· < a.limit)

def alloc (a : BitmapFrameAllocator) : Option (Nat × BitmapFrameAllocator) :=
  if a.freeFrames = 0 ∨ a.limit = 0 then none
  else a.pick.map fun frame =>
    (frame, { a with
      bitmap := Function.update a.bitmap frame false
      freeFrames := a.freeFrames - 1
      nextFree := frame + 1 })

def free (a : BitmapFrameAllocator) (frame : Nat) : BitmapFrameAllocator :=
  if frame < maxFrames ∧ a.bitmap frame = false then
    { a with
      bitmap := Function.update a.bitmap frame true
      freeFrames := a.freeFrames + 1
      nextFree := if frame < a.nextFree then frame else a.nextFree }
  else a

theorem pick_free {a : BitmapFrameAllocator} {f : Nat} (h : a.pick = some f) : a.bitmap f = true := by
  obtain ⟨step, -, hstep⟩ := exists_of_findSome?_eq_some h
  obtain ⟨hword, -⟩ := filter_eq_some_iff.mp hstep
  obtain ⟨bit, hbit, rfl⟩ := map_eq_some_iff.mp hword
  have hset := find?_some hbit
  exact hset

/-- A frame is handed out only when it is free, and is marked as used. -/
theorem alloc_spec {a a' : BitmapFrameAllocator} {f : Nat} (h : a.alloc = some (f, a')) :
    a.bitmap f = true ∧ a'.bitmap = update a.bitmap f false := by
  unfold alloc at h
  split_ifs at h
  obtain ⟨g, hg, heq⟩ := map_eq_some_iff.mp h
  cases heq
  exact ⟨pick_free hg, rfl⟩

end BitmapFrameAllocator

/-- `FRAME_ALLOCATOR`, `REFS` with its length (zero until `vmalloc` has supplied it),
    `SHARED`, the contents of the frames, `DEFERRED`, and `NX`. -/
structure Phys where
  allocator : BitmapFrameAllocator
  refs : Nat → Nat
  refsLen : Nat
  shared : Nat
  bytes : Nat → Page
  deferred : List (Nat × Nat)
  nx : Bool

namespace Phys

def isFree (p : Phys) (f : Nat) : Bool := p.allocator.bitmap f

def allocFrame (p : Phys) : Option (Nat × Phys) :=
  p.allocator.alloc.map fun r => (r.1, { p with allocator := r.2 })

/-- Overwrite a frame. -/
def store (p : Phys) (f : Nat) (page : Page) : Phys :=
  { p with bytes := Function.update p.bytes f page }

/-- A frame with the contents `page`: `alloc_frame` and the copy that follows it. -/
def allocWith (page : Page) (p : Phys) : Option (Nat × Phys) :=
  p.allocFrame.map fun r => (r.1, r.2.store r.1 page)

def allocZeroedFrame (p : Phys) : Option (Nat × Phys) := p.allocWith zeroPage

def isShared (p : Phys) (f : Nat) : Bool :=
  p.shared ≠ 0 ∧ f < p.refsLen ∧ p.refs f ≠ 0

/-- `drop_share`: one holder fewer, if the frame has more than one. -/
def dropShare (p : Phys) (f : Nat) : Option Phys :=
  if p.isShared f then
    some { p with refs := Function.update p.refs f (p.refs f - 1), shared := p.shared - 1 }
  else none

def freeFrame (p : Phys) (f : Nat) : Phys :=
  match p.dropShare f with
  | some p' => p'
  | none => { p with allocator := p.allocator.free f }

/-- `tlb::defer_free`. -/
def deferFree (p : Phys) (root f : Nat) : Phys := { p with deferred := p.deferred ++ [(root, f)] }

/-- The pending frees of frame `f`. -/
def pending (p : Phys) (f : Nat) : Nat := (p.deferred.map (·.2)).count f

end Phys

/-! ### The books -/

/-- The frames of `pool` are accounted for, with `h f` holders of `f` besides the pending
    frees. -/
structure Balanced (pool : Nat → Bool) (p : Phys) (h : Nat → Nat) : Prop where
  range : ∀ f, pool f = true → f < maxFrames
  outside : ∀ f, pool f = false → h f + p.pending f = 0 ∧ p.isFree f = false
  idle : ∀ f, p.isFree f = true → h f + p.pending f = 0 ∧ p.refs f = 0
  used : ∀ f, pool f = true → p.isFree f = false → h f + p.pending f = p.refs f + 1
  counted : ∀ f, p.refsLen ≤ f → p.refs f = 0
  shared : p.shared = ∑ f ∈ Finset.range p.refsLen, p.refs f

namespace Balanced

variable {pool : Nat → Bool} {p p' : Phys} {h h' : Nat → Nat} {f : Nat}

section

variable (hb : Balanced pool p h)

include hb

theorem congr (heq : ∀ x, h x = h' x) : Balanced pool p h' :=
  Eq.mp (congrArg (Balanced pool p) (funext heq)) hb

theorem isShared_iff (f : Nat) : p.isShared f = true ↔ p.refs f ≠ 0 := by
  unfold Phys.isShared
  rw [decide_eq_true_iff]
  constructor
  · exact fun hs => hs.2.2
  · intro hr
    have hlt : f < p.refsLen := by
      by_contra hge
      exact hr (hb.counted f (by omega))
    refine ⟨?_, hlt, hr⟩
    have hle : p.refs f ≤ ∑ x ∈ Finset.range p.refsLen, p.refs x :=
      Finset.single_le_sum (fun x _ => Nat.zero_le (p.refs x)) (Finset.mem_range.mpr hlt)
    have := hb.shared
    omega

/-- A frame with a holder is one of the pool, and is not free. -/
theorem held_used (hf : 0 < h f) : pool f = true ∧ p.isFree f = false := by
  constructor
  · by_contra hp
    have := (hb.outside f (by simpa using hp)).1
    omega
  · by_contra hp
    have := (hb.idle f (by simpa using hp)).1
    omega

end

variable {r : Nat × Phys}

/-- A frame the allocator hands out has no holder yet. -/
theorem isFree_of_alloc (ha : p.allocFrame = some r) : p.isFree r.1 = true := by
  obtain ⟨⟨g, a⟩, hg, rfl⟩ := map_eq_some_iff.mp ha
  exact (BitmapFrameAllocator.alloc_spec hg).1

section

variable (hb : Balanced pool p h)

include hb

theorem allocFrame (ha : p.allocFrame = some r) :
    Balanced pool r.2 (fun x => h x + one r.1 x) := by
  have hfree := isFree_of_alloc ha
  obtain ⟨⟨g, a⟩, hg, rfl⟩ := map_eq_some_iff.mp ha
  obtain ⟨-, hmap⟩ := BitmapFrameAllocator.alloc_spec hg
  have hidle := hb.idle g hfree
  have hpool : pool g = true := by
    by_contra hp
    have := (hb.outside g (by simpa using hp)).2
    rw [hfree] at this
    cases this
  have hself : ∀ x, Phys.isFree { p with allocator := a } x = update p.isFree g false x := by
    intro x
    exact congrFun hmap x
  refine ⟨hb.range, ?_, ?_, ?_, hb.counted, hb.shared⟩
  · intro x hx
    have hne : g ≠ x := by
      rintro rfl
      rw [hx] at hpool
      cases hpool
    rw [hself, update_of_ne hne.symm, one_of_ne hne]
    exact hb.outside x hx
  · intro x hx
    rw [hself] at hx
    by_cases hne : g = x
    · rw [hne, update_self] at hx
      cases hx
    · rw [update_of_ne (Ne.symm hne)] at hx
      rw [one_of_ne hne]
      exact hb.idle x hx
  · intro x hpx hx
    by_cases hne : g = x
    · rw [← hne, one_self]
      show h g + 1 + p.pending g = p.refs g + 1
      omega
    · rw [hself, update_of_ne (Ne.symm hne)] at hx
      rw [one_of_ne hne]
      exact hb.used x hpx hx

theorem store (g : Nat) (page : Page) : Balanced pool (p.store g page) h :=
  ⟨hb.range, hb.outside, hb.idle, hb.used, hb.counted, hb.shared⟩

theorem allocWith {page : Page} (ha : p.allocWith page = some r) :
    Balanced pool r.2 (fun x => h x + one r.1 x) ∧ h r.1 = 0 ∧ r.2.bytes r.1 = page ∧
      r.2.refs = p.refs ∧ (∀ x, x ≠ r.1 → r.2.bytes x = p.bytes x) ∧ r.2.deferred = p.deferred := by
  obtain ⟨r', hr', rfl⟩ := map_eq_some_iff.mp ha
  have hfree := isFree_of_alloc hr'
  refine ⟨(hb.allocFrame hr').store _ _, ?_, ?_, ?_⟩
  · have := (hb.idle _ hfree).1
    show h r'.1 = 0
    omega
  · exact update_self _ _ _
  · obtain ⟨⟨g, a⟩, -, rfl⟩ := map_eq_some_iff.mp hr'
    exact ⟨rfl, fun x hx => update_of_ne hx _ _, rfl⟩

end

theorem deferFree (hb : Balanced pool p (fun x => h x + one f x)) (root : Nat) :
    Balanced pool (p.deferFree root f) h := by
  have hpend : ∀ x, (p.deferFree root f).pending x = p.pending x + one f x := by
    intro x
    unfold Phys.pending Phys.deferFree one
    rw [map_append, count_append, map_singleton, count_singleton]
    simp
  refine ⟨hb.range, ?_, ?_, ?_, hb.counted, hb.shared⟩
  · intro x hx
    have := hb.outside x hx
    rw [hpend]
    exact ⟨by omega, this.2⟩
  · intro x hx
    have := hb.idle x hx
    rw [hpend]
    exact ⟨by omega, this.2⟩
  · intro x hpx hx
    have := hb.used x hpx hx
    rw [hpend]
    show _ = p.refs x + 1
    omega

end Balanced

end HamixOS.Kernel

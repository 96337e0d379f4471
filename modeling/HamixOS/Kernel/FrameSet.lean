import Mathlib.Order.Interval.Finset.Nat
import HamixOS.Kernel.Frame
import HamixOS.Kernel.Pte

namespace HamixOS.Kernel

open List Function Option Bool

/-!
# The allocator as a set of free frames (`memory/frame.rs`)

`add_region`, `reserve_region` and `alloc_contiguous` beside `alloc` and `free`, and what a
sequence of calls makes of them.  The abstract state is `freeSet`, the set of the frames
whose bit is set: `Sound` says that `free_frames` is its size and that it lies below `limit`,
and each operation has one lemma that says what becomes of the set.

`total_frames`, which only `memory_info` reads, is left out.
-/

namespace BitmapFrameAllocator

/-! ### The operations -/

def new : BitmapFrameAllocator := ⟨fun _ => false, 0, 0, 0⟩

/-- One frame of `add_region`. -/
def addFrame (a : BitmapFrameAllocator) (frame : Nat) : BitmapFrameAllocator :=
  { a with
    bitmap := Function.update a.bitmap frame true
    freeFrames := if a.bitmap frame then a.freeFrames else a.freeFrames + 1
    limit := max a.limit (frame + 1) }

/-- The frames that lie in a region from its first byte to its last. -/
def inside (base size : Nat) : List Nat :=
  let start := (base + (pageSize - 1)) / pageSize
  List.range' start (min ((base + size) % 2 ^ 64 / pageSize) maxFrames - start)

def addRegion (a : BitmapFrameAllocator) (base size : Nat) : BitmapFrameAllocator :=
  (inside base size).foldl addFrame a

/-- One frame of `reserve_region`. -/
def reserveFrame (a : BitmapFrameAllocator) (frame : Nat) : BitmapFrameAllocator :=
  if a.bitmap frame then
    { a with
      bitmap := Function.update a.bitmap frame false
      freeFrames := a.freeFrames - 1 }
  else a

/-- The frames that a region touches. -/
def touched (base size : Nat) : List Nat :=
  let start := base / pageSize
  List.range' start (min (((base + size) % 2 ^ 64 + (pageSize - 1)) / pageSize) maxFrames - start)

def reserveRegion (a : BitmapFrameAllocator) (base size : Nat) : BitmapFrameAllocator :=
  (touched base size).foldl reserveFrame a

/-- The loop of `alloc_contiguous`: `run` frames from `frame` on are known to be free. -/
def scanDown (a : BitmapFrameAllocator) (count : Nat) : Nat → Nat → Option Nat
  | 0, _ => none
  | frame + 1, run =>
    if a.bitmap frame then
      if run + 1 = count then some frame else a.scanDown count frame (run + 1)
    else a.scanDown count frame 0

/-- `set_used` for `count` frames from `base` on. -/
def takeRun (a : BitmapFrameAllocator) (base count : Nat) : BitmapFrameAllocator :=
  { a with
    bitmap := fun f => if base ≤ f ∧ f < base + count then false else a.bitmap f
    freeFrames := a.freeFrames - count }

def allocContiguous (a : BitmapFrameAllocator) (count below : Nat) : Option (Nat × BitmapFrameAllocator) :=
  (a.scanDown count (min a.limit (below / pageSize)) 0).map fun base => (base, a.takeRun base count)

/-! ### The set of free frames -/

def freeSet (a : BitmapFrameAllocator) : Finset Nat :=
  (Finset.range a.limit).filter fun f => a.bitmap f = true

/-- What holds of the allocator between two calls. -/
structure Sound (a : BitmapFrameAllocator) : Prop where
  below : ∀ f, a.bitmap f = true → f < a.limit
  limit_le : a.limit ≤ maxFrames
  counted : a.freeFrames = a.freeSet.card

variable {a a' : BitmapFrameAllocator} {f n base : Nat}

theorem Sound.mem_freeSet (ha : Sound a) : f ∈ a.freeSet ↔ a.bitmap f = true := by
  unfold freeSet
  rw [Finset.mem_filter, Finset.mem_range]
  exact ⟨fun h => h.2, fun h => ⟨ha.below f h, h⟩⟩

theorem sound_new : Sound new := ⟨fun _ h => absurd h false_ne_true, Nat.zero_le _, rfl⟩

/-- A free frame more. -/
theorem Sound.add_one (ha : Sound a) (hf : a.bitmap f = false) {l m : Nat} (hlt : f < l) (hle : a.limit ≤ l)
    (hmax : l ≤ maxFrames) : Sound ⟨update a.bitmap f true, m, l, a.freeFrames + 1⟩ := by
  have hbelow : ∀ x, update a.bitmap f true x = true → x < l := by
    intro x hx
    by_cases hxf : x = f
    · omega
    · rw [update_of_ne hxf] at hx
      have := ha.below x hx
      omega
  have hset : freeSet ⟨update a.bitmap f true, m, l, a.freeFrames + 1⟩ = insert f a.freeSet := by
    ext x
    rw [Finset.mem_insert, ha.mem_freeSet]
    unfold freeSet
    rw [Finset.mem_filter, Finset.mem_range]
    dsimp only
    by_cases hxf : x = f
    · rw [hxf, update_self]
      exact ⟨fun _ => .inl rfl, fun _ => ⟨hlt, rfl⟩⟩
    · rw [update_of_ne hxf]
      refine ⟨fun h => .inr h.2, fun h => ⟨?_, h.resolve_left hxf⟩⟩
      have := ha.below x (h.resolve_left hxf)
      omega
  refine ⟨hbelow, hmax, ?_⟩
  have hnot : f ∉ a.freeSet := by
    rw [ha.mem_freeSet, hf]
    exact false_ne_true
  rw [hset, Finset.card_insert_of_notMem hnot]
  exact congrArg (· + 1) ha.counted

/-- A set of free frames fewer. -/
theorem Sound.remove (ha : Sound a) {s : Finset Nat} {bitmap : Nat → Bool} {m : Nat} (hs : ∀ x ∈ s, a.bitmap x = true)
    (hbit : ∀ x, bitmap x = true ↔ a.bitmap x = true ∧ x ∉ s) :
    Sound ⟨bitmap, m, a.limit, a.freeFrames - s.card⟩ := by
  have hset : freeSet ⟨bitmap, m, a.limit, a.freeFrames - s.card⟩ = a.freeSet \ s := by
    ext x
    rw [Finset.mem_sdiff, ha.mem_freeSet]
    unfold freeSet
    rw [Finset.mem_filter, Finset.mem_range]
    rw [hbit]
    exact ⟨fun h => h.2, fun h => ⟨ha.below x h.1, h⟩⟩
  have hsub : s ⊆ a.freeSet := fun x hx => ha.mem_freeSet.mpr (hs x hx)
  refine ⟨fun x hx => ha.below x ((hbit x).mp hx).1, ha.limit_le, ?_⟩
  rw [hset, Finset.card_sdiff_of_subset hsub, ← ha.counted]

theorem Sound.drop_one (ha : Sound a) (hf : a.bitmap f = true) {m : Nat} :
    Sound ⟨update a.bitmap f false, m, a.limit, a.freeFrames - 1⟩ := by
  have hbit : ∀ x, update a.bitmap f false x = true ↔ a.bitmap x = true ∧ x ∉ ({f} : Finset Nat) := by
    intro x
    rw [Finset.mem_singleton]
    by_cases hxf : x = f
    · rw [hxf, update_self]
      exact ⟨fun h => absurd h false_ne_true, fun h => absurd rfl h.2⟩
    · rw [update_of_ne hxf]
      exact ⟨fun h => ⟨h, hxf⟩, fun h => h.1⟩
  refine ha.remove (s := {f}) ?_ hbit
  intro x hx
  rw [Finset.mem_singleton.mp hx]
  exact hf

/-! ### What each operation does to it -/

theorem Sound.addFrame (ha : Sound a) (hf : f < maxFrames) : Sound (a.addFrame f) := by
  unfold BitmapFrameAllocator.addFrame
  by_cases hfree : a.bitmap f = true
  · have hlt := ha.below f hfree
    rw [if_pos hfree, max_eq_left hlt, update_eq_self_iff.mpr hfree.symm]
    exact ha
  · rw [if_neg hfree]
    have hmax : max a.limit (f + 1) ≤ maxFrames := Nat.max_le.mpr ⟨ha.limit_le, hf⟩
    exact ha.add_one (eq_false_iff.mpr hfree) (Nat.le_max_right _ _) (Nat.le_max_left _ _) hmax

theorem mem_inside {size : Nat} (h : f ∈ inside base size) : f < maxFrames := by
  unfold inside at h
  rw [mem_range'_1] at h
  omega

theorem Sound.addRegion (ha : Sound a) (base size : Nat) : Sound (a.addRegion base size) := by
  have hloop : ∀ (l : List Nat) (b : BitmapFrameAllocator), Sound b → (∀ f ∈ l, f < maxFrames) →
      Sound (l.foldl BitmapFrameAllocator.addFrame b) := by
    intro l
    induction l with
    | nil => exact fun b hb _ => hb
    | cons f l ih =>
      intro b hb hl
      exact ih _ (hb.addFrame (hl f mem_cons_self)) fun x hx => hl x (mem_cons_of_mem _ hx)
  exact hloop _ a ha fun f hf => mem_inside hf

theorem Sound.reserveFrame (ha : Sound a) (f : Nat) : Sound (a.reserveFrame f) := by
  unfold BitmapFrameAllocator.reserveFrame
  split_ifs with hfree
  · exact ha.drop_one hfree
  · exact ha

theorem Sound.reserveRegion (ha : Sound a) (base size : Nat) : Sound (a.reserveRegion base size) := by
  have hloop : ∀ (l : List Nat) (b : BitmapFrameAllocator), Sound b →
      Sound (l.foldl BitmapFrameAllocator.reserveFrame b) := by
    intro l
    induction l with
    | nil => exact fun b hb => hb
    | cons f l ih => exact fun b hb => ih _ (hb.reserveFrame f)
  exact hloop _ a ha

theorem Sound.free (ha : Sound a) (hf : f < a.limit) : Sound (a.free f) := by
  unfold BitmapFrameAllocator.free
  by_cases h : f < maxFrames ∧ a.bitmap f = false
  · rw [if_pos h]
    exact ha.add_one h.2 hf le_rfl ha.limit_le
  · rw [if_neg h]
    exact ha

/-- A word of the bitmap with a bit set has a lowest one. -/
theorem firstOfWord_isSome (hf : a.bitmap f = true) :
    ∃ g, a.firstOfWord (f / 64) = some g ∧ a.bitmap g = true := by
  have hmem : f % 64 ∈ range 64 := mem_range.mpr (Nat.mod_lt _ (by decide))
  have hbit : a.bitmap (f / 64 * 64 + f % 64) = true := by
    rw [Nat.div_add_mod']
    exact hf
  have hsome : ((range 64).find? fun bit => a.bitmap (f / 64 * 64 + bit)).isSome := by
    rw [find?_isSome]
    exact ⟨_, hmem, hbit⟩
  obtain ⟨bit, hfound⟩ := isSome_iff_exists.mp hsome
  have hset := find?_some hfound
  refine ⟨f / 64 * 64 + bit, ?_, hset⟩
  unfold firstOfWord
  rw [hfound]
  rfl

/-- The round of `alloc` passes every word. -/
theorem exists_step {words start w : Nat} (hw : w < words) (hs : start < words) :
    ∃ step < words + 1, (start + step) % words = w := by
  rcases lt_or_ge w start with hlt | hge
  · refine ⟨w + words - start, by omega, ?_⟩
    rw [show start + (w + words - start) = w + words by omega, Nat.add_mod_right, Nat.mod_eq_of_lt hw]
  · refine ⟨w - start, by omega, ?_⟩
    rw [Nat.add_sub_cancel' hge, Nat.mod_eq_of_lt hw]

theorem Sound.pick_isSome (ha : Sound a) (hf : a.bitmap f = true) : a.pick.isSome := by
  have hlt := ha.below f hf
  have hword : f / 64 < a.words := by
    unfold words
    omega
  have hstart : min (a.nextFree / 64) (a.words - 1) < a.words := by omega
  obtain ⟨step, hstep, hmod⟩ := exists_step hword hstart
  obtain ⟨g, hg, hfree⟩ := firstOfWord_isSome hf
  have hglt : decide (g < a.limit) = true := decide_eq_true (ha.below g hfree)
  unfold pick
  rw [findSome?_isSome_iff]
  refine ⟨step, mem_range.mpr hstep, ?_⟩
  rw [hmod, hg, filter_some, if_pos hglt]
  rfl

/-- `alloc` fails when no frame is free. -/
theorem Sound.alloc_eq_none (ha : Sound a) : a.alloc = none ↔ ∀ f < a.limit, a.bitmap f = false := by
  unfold BitmapFrameAllocator.alloc
  constructor
  · intro hnone f hf
    by_contra hfree
    have hbit : a.bitmap f = true := by simpa using hfree
    have hpos : 0 < a.freeSet.card := Finset.card_pos.mpr ⟨f, ha.mem_freeSet.mpr hbit⟩
    have hcount := ha.counted
    rw [if_neg (by omega), map_eq_none_iff] at hnone
    have hsome := ha.pick_isSome hbit
    rw [hnone] at hsome
    cases hsome
  · intro hall
    have hempty : a.freeSet = ∅ := by
      refine Finset.eq_empty_of_forall_notMem fun x hx => ?_
      have hbit := ha.mem_freeSet.mp hx
      rw [hall x (ha.below x hbit)] at hbit
      cases hbit
    have hcount := ha.counted
    rw [hempty, Finset.card_empty] at hcount
    exact if_pos (.inl hcount)

theorem Sound.alloc (ha : Sound a) (h : a.alloc = some (f, a')) : Sound a' := by
  have hbit := (alloc_spec h).1
  unfold BitmapFrameAllocator.alloc at h
  split_ifs at h
  obtain ⟨g, -, heq⟩ := map_eq_some_iff.mp h
  cases heq
  exact ha.drop_one hbit

/-- The frames from `base` on, `n` of them, are free. -/
def RunFree (a : BitmapFrameAllocator) (base n : Nat) : Prop := ∀ f, base ≤ f → f < base + n → a.bitmap f = true

/-- What the scan returns is a run; and it returns one if there is one that ends by `frame + run`. -/
theorem scanDown_spec (frame run : Nat) (hrun : run < n) (hfree : RunFree a frame run) :
    (∀ base, a.scanDown n frame run = some base → base + n ≤ frame + run ∧ RunFree a base n) ∧
      (a.scanDown n frame run = none → ∀ base, base + n ≤ frame + run → ¬ RunFree a base n) := by
  induction frame generalizing run with
  | zero => exact ⟨fun base h => (by cases h), fun _ base hle => absurd hle (by omega)⟩
  | succ frame ih =>
    unfold scanDown
    by_cases hbit : a.bitmap frame = true
    · -- the run above grows by this frame
      have hmore : RunFree a frame (run + 1) := by
        intro f hle hlt
        by_cases heq : f = frame
        · rw [heq]
          exact hbit
        · exact hfree f (by omega) (by omega)
      rw [if_pos hbit]
      split_ifs with hfull
      · refine ⟨fun base h => ?_, fun h => (by cases h)⟩
        cases h
        rw [← hfull]
        exact ⟨by omega, hmore⟩
      · have hnext := ih (run + 1) (by omega) hmore
        rw [show frame + 1 + run = frame + (run + 1) by omega]
        exact hnext
    · -- a frame in use ends the run, and no run of `n` frames goes over it
      rw [if_neg hbit]
      obtain ⟨hsome, hnone⟩ := ih 0 (by omega) fun f hle hlt => absurd hlt (by omega)
      refine ⟨fun base h => ?_, fun h base hle hall => ?_⟩
      · have := hsome base h
        exact ⟨by omega, this.2⟩
      · by_cases hend : base + n ≤ frame + 0
        · exact hnone h base hend hall
        · exact hbit (hall frame (by omega) (by omega))

theorem Sound.takeRun (ha : Sound a) (hall : RunFree a base n) : Sound (a.takeRun base n) := by
  have hbit : ∀ x, (if base ≤ x ∧ x < base + n then false else a.bitmap x) = true ↔
      a.bitmap x = true ∧ x ∉ Finset.Ico base (base + n) := by
    intro x
    rw [Finset.mem_Ico]
    split_ifs with hx
    · exact ⟨fun h => h.elim, fun h => absurd hx h.2⟩
    · exact ⟨fun h => ⟨h, hx⟩, fun h => h.1⟩
  have hmem : ∀ x ∈ Finset.Ico base (base + n), a.bitmap x = true := by
    intro x hx
    rw [Finset.mem_Ico] at hx
    exact hall x hx.1 hx.2
  have hsound := ha.remove (m := a.nextFree) hmem hbit
  rw [Nat.card_Ico, Nat.add_sub_cancel_left] at hsound
  exact hsound

/-- `alloc_contiguous` takes a run that ends below the limit. -/
theorem allocContiguous_spec {below : Nat} (hn : 1 ≤ n) (h : a.allocContiguous n below = some (base, a')) :
    base + n ≤ min a.limit (below / pageSize) ∧ RunFree a base n ∧ a' = a.takeRun base n := by
  obtain ⟨b, hb, heq⟩ := map_eq_some_iff.mp h
  cases heq
  have hspec := scanDown_spec (a := a) (min a.limit (below / pageSize)) 0 hn fun f hle hlt => absurd hlt (by omega)
  obtain ⟨hle, hall⟩ := hspec.1 base hb
  exact ⟨hle, hall, rfl⟩

/-- It finds a run if there is one. -/
theorem allocContiguous_isSome {below : Nat} (hn : 1 ≤ n) :
    (a.allocContiguous n below).isSome = true ↔
      ∃ base, base + n ≤ min a.limit (below / pageSize) ∧ RunFree a base n := by
  constructor
  · intro h
    obtain ⟨⟨base, a'⟩, heq⟩ := isSome_iff_exists.mp h
    obtain ⟨hle, hall, -⟩ := allocContiguous_spec hn heq
    exact ⟨base, hle, hall⟩
  · rintro ⟨base, hle, hall⟩
    have hspec := scanDown_spec (a := a) (min a.limit (below / pageSize)) 0 hn fun f hle hlt => absurd hlt (by omega)
    unfold BitmapFrameAllocator.allocContiguous
    rw [isSome_map]
    by_contra hnone
    exact hspec.2 (not_isSome_iff_eq_none.mp hnone) base hle hall

end BitmapFrameAllocator

/-! ### Runs -/

inductive FrameOp where
  | addRegion (base size : Nat)
  | reserveRegion (base size : Nat)
  | alloc
  | allocContiguous (count below : Nat)
  | free (frame : Nat)

namespace FrameOp

open BitmapFrameAllocator

def step (a : BitmapFrameAllocator) : FrameOp → BitmapFrameAllocator
  | addRegion base size => a.addRegion base size
  | reserveRegion base size => a.reserveRegion base size
  | alloc => (a.alloc.map (·.2)).getD a
  | allocContiguous count below => ((a.allocContiguous count below).map (·.2)).getD a
  | free frame => a.free frame

/-- The operation hands out frame `f`. -/
def HandsOut (a : BitmapFrameAllocator) (f : Nat) : FrameOp → Prop
  | alloc => ∃ a', a.alloc = some (f, a')
  | allocContiguous count below =>
    ∃ base a', a.allocContiguous count below = some (base, a') ∧ base ≤ f ∧ f < base + count
  | _ => False

/-- The operation gives frame `f` to the allocator: it frees it, or adds a region that it is in. -/
def Returns (f : Nat) : FrameOp → Prop
  | free frame => frame = f
  | addRegion base size => f ∈ inside base size
  | _ => False

def after (ops : List FrameOp) : BitmapFrameAllocator := ops.foldl step new

/-- Only frames that were handed out before are freed. -/
def Valid (ops : List FrameOp) : Prop :=
  ∀ pre f post, ops = pre ++ free f :: post →
    ∃ xs op ys, pre = xs ++ op :: ys ∧ HandsOut (after xs) f op

theorem after_concat (ops : List FrameOp) (op : FrameOp) : after (ops ++ [op]) = step (after ops) op := by
  unfold after
  rw [foldl_append, foldl_cons, foldl_nil]

variable {ops : List FrameOp}

theorem Valid.init {op : FrameOp} (h : Valid (ops ++ [op])) : Valid ops := by
  intro pre f post heq
  refine h pre f (post ++ [op]) ?_
  rw [heq, append_assoc, cons_append]

variable {a a' : BitmapFrameAllocator} {f : Nat} {op : FrameOp}

theorem step_alloc_none (h : a.alloc = none) : step a alloc = a := by
  show (a.alloc.map (·.2)).getD a = a
  rw [h]
  rfl

theorem step_alloc_some (h : a.alloc = some (f, a')) : step a alloc = a' := by
  show (a.alloc.map (·.2)).getD a = a'
  rw [h]
  rfl

theorem step_contiguous_none {count below : Nat} (h : a.allocContiguous count below = none) :
    step a (allocContiguous count below) = a := by
  show ((a.allocContiguous count below).map (·.2)).getD a = a
  rw [h]
  rfl

theorem step_contiguous_some {count below base : Nat} (h : a.allocContiguous count below = some (base, a')) :
    step a (allocContiguous count below) = a' := by
  show ((a.allocContiguous count below).map (·.2)).getD a = a'
  rw [h]
  rfl

/-- The bitmap after `alloc_contiguous`, with no run for a count of zero. -/
theorem allocContiguous_cases {count below base : Nat} (h : a.allocContiguous count below = some (base, a')) :
    1 ≤ count ∧ base + count ≤ min a.limit (below / pageSize) ∧ a.RunFree base count ∧ a' = a.takeRun base count := by
  have hpos : 1 ≤ count := by
    by_contra hzero
    have hc : count = 0 := by omega
    have hnone : ∀ frame run, a.scanDown 0 frame run = none := by
      intro frame
      induction frame with
      | zero => exact fun _ => rfl
      | succ frame ih =>
        intro run
        unfold scanDown
        split_ifs with _ h0
        · cases h0
        · exact ih _
        · exact ih _
    rw [hc] at h
    unfold BitmapFrameAllocator.allocContiguous at h
    rw [hnone] at h
    cases h
  exact ⟨hpos, allocContiguous_spec hpos h⟩

theorem limit_foldl_addFrame (l : List Nat) (a : BitmapFrameAllocator) :
    a.limit ≤ (l.foldl BitmapFrameAllocator.addFrame a).limit := by
  induction l generalizing a with
  | nil => exact le_refl _
  | cons f l ih => exact le_trans (le_max_left a.limit (f + 1)) (ih (a.addFrame f))

theorem limit_foldl_reserveFrame (l : List Nat) (a : BitmapFrameAllocator) :
    (l.foldl BitmapFrameAllocator.reserveFrame a).limit = a.limit := by
  induction l generalizing a with
  | nil => rfl
  | cons f l ih =>
    refine (ih _).trans ?_
    unfold BitmapFrameAllocator.reserveFrame
    split_ifs
    · rfl
    · rfl

theorem limit_alloc (h : a.alloc = some (f, a')) : a'.limit = a.limit := by
  unfold BitmapFrameAllocator.alloc at h
  split_ifs at h
  obtain ⟨g, -, heq⟩ := map_eq_some_iff.mp h
  cases heq
  rfl

/-- The limit only grows. -/
theorem limit_step (a : BitmapFrameAllocator) (op : FrameOp) : a.limit ≤ (step a op).limit := by
  cases op with
  | addRegion base size => exact limit_foldl_addFrame _ a
  | reserveRegion base size => exact le_of_eq (limit_foldl_reserveFrame _ a).symm
  | alloc =>
    cases h : a.alloc with
    | none => exact le_of_eq (congrArg limit (step_alloc_none h)).symm
    | some r =>
      rw [step_alloc_some (f := r.1) h, limit_alloc (f := r.1) h]
  | allocContiguous count below =>
    cases h : a.allocContiguous count below with
    | none => exact le_of_eq (congrArg limit (step_contiguous_none h)).symm
    | some r =>
      obtain ⟨base, a'⟩ := r
      obtain ⟨-, -, -, hr⟩ := allocContiguous_cases h
      rw [step_contiguous_some h, hr]
      exact le_refl a.limit
  | free frame =>
    show a.limit ≤ (a.free frame).limit
    unfold BitmapFrameAllocator.free
    split_ifs
    · exact le_refl a.limit
    · exact le_refl a.limit
    · exact le_refl a.limit

theorem limit_after (xs ys : List FrameOp) : (after xs).limit ≤ (after (xs ++ ys)).limit := by
  induction ys using reverseRecOn with
  | nil => rw [append_nil]
  | append_singleton ys op ih =>
    rw [← append_assoc, after_concat]
    exact le_trans ih (limit_step _ op)

/-- What is handed out was free before, and is in use after. -/
theorem HandsOut.bits (h : HandsOut a f op) : a.bitmap f = true ∧ (step a op).bitmap f = false := by
  cases op with
  | alloc =>
    obtain ⟨a', heq⟩ := h
    obtain ⟨hfree, hmap⟩ := alloc_spec heq
    rw [step_alloc_some heq, hmap, update_self]
    exact ⟨hfree, rfl⟩
  | allocContiguous count below =>
    obtain ⟨base, a', heq, hle, hlt⟩ := h
    obtain ⟨-, -, hall, hrun⟩ := allocContiguous_cases heq
    rw [step_contiguous_some heq, hrun]
    exact ⟨hall f hle hlt, if_pos ⟨hle, hlt⟩⟩
  | addRegion base size => exact h.elim
  | reserveRegion base size => exact h.elim
  | free frame => exact h.elim

theorem bitmap_foldl_addFrame (l : List Nat) (hf : f ∉ l) (a : BitmapFrameAllocator) :
    (l.foldl BitmapFrameAllocator.addFrame a).bitmap f = a.bitmap f := by
  induction l generalizing a with
  | nil => rfl
  | cons x l ih =>
    have hne : f ≠ x := by
      rintro rfl
      exact hf mem_cons_self
    refine (ih (fun h => hf (mem_cons_of_mem _ h)) _).trans ?_
    exact update_of_ne hne _ _

theorem bitmap_foldl_reserveFrame (l : List Nat) (a : BitmapFrameAllocator) (h : a.bitmap f = false) :
    (l.foldl BitmapFrameAllocator.reserveFrame a).bitmap f = false := by
  induction l generalizing a with
  | nil => exact h
  | cons x l ih =>
    refine ih _ ?_
    unfold BitmapFrameAllocator.reserveFrame
    split_ifs
    · by_cases hx : f = x
      · exact (congrArg _ hx).trans (update_self _ _ _)
      · exact (update_of_ne hx _ _).trans h
    · exact h

/-- A frame in use stays so until it is returned. -/
theorem bitmap_step (h : a.bitmap f = false) (hop : ¬ op.Returns f) : (step a op).bitmap f = false := by
  cases op with
  | addRegion base size => exact (bitmap_foldl_addFrame _ hop a).trans h
  | reserveRegion base size => exact bitmap_foldl_reserveFrame _ a h
  | alloc =>
    cases heq : a.alloc with
    | none => exact (congrArg (bitmap · f) (step_alloc_none heq)).trans h
    | some r =>
      obtain ⟨hfree, hmap⟩ := alloc_spec (f := r.1) heq
      rw [step_alloc_some (f := r.1) heq, hmap, update_of_ne]
      · exact h
      · intro hr
        rw [← hr, h] at hfree
        cases hfree
  | allocContiguous count below =>
    cases heq : a.allocContiguous count below with
    | none => exact (congrArg (bitmap · f) (step_contiguous_none heq)).trans h
    | some r =>
      obtain ⟨base, a'⟩ := r
      obtain ⟨-, -, -, hrun⟩ := allocContiguous_cases heq
      rw [step_contiguous_some heq, hrun]
      unfold takeRun
      dsimp only
      rw [h, ite_self]
  | free frame =>
    show (a.free frame).bitmap f = false
    unfold BitmapFrameAllocator.free
    split_ifs
    · exact (update_of_ne (Ne.symm hop) _ _).trans h
    · exact (update_of_ne (Ne.symm hop) _ _).trans h
    · exact h

theorem bitmap_after {xs ys : List FrameOp} (h : (after xs).bitmap f = false) (hys : ∀ op ∈ ys, ¬ op.Returns f) :
    (after (xs ++ ys)).bitmap f = false := by
  induction ys using reverseRecOn with
  | nil =>
    rw [append_nil]
    exact h
  | append_singleton ys op ih =>
    rw [← append_assoc, after_concat]
    refine bitmap_step (ih fun x hx => hys x (mem_append_left _ hx)) (hys op ?_)
    exact mem_append_right _ (mem_singleton_self op)

/-- What is handed out twice was returned in between. -/
theorem returned_between {xs mid : List FrameOp} {op op' : FrameOp} (h : HandsOut (after xs) f op)
    (h' : HandsOut (after (xs ++ op :: mid)) f op') : ∃ r ∈ mid, r.Returns f := by
  by_contra hnone
  push Not at hnone
  have hused : (after (xs ++ [op])).bitmap f = false := by
    rw [after_concat]
    exact h.bits.2
  have hstill : (after (xs ++ [op] ++ mid)).bitmap f = false := bitmap_after hused hnone
  rw [append_assoc, singleton_append, h'.bits.1] at hstill
  cases hstill

/-- One operation keeps the books, if what it frees is below the limit. -/
theorem step_sound (ha : a.Sound) (hop : ∀ frame, op = free frame → frame < a.limit) : (step a op).Sound := by
  cases op with
  | addRegion base size => exact ha.addRegion base size
  | reserveRegion base size => exact ha.reserveRegion base size
  | alloc =>
    cases heq : a.alloc with
    | none =>
      rw [step_alloc_none heq]
      exact ha
    | some r =>
      rw [step_alloc_some (f := r.1) heq]
      exact ha.alloc (f := r.1) heq
  | allocContiguous count below =>
    cases heq : a.allocContiguous count below with
    | none =>
      rw [step_contiguous_none heq]
      exact ha
    | some r =>
      obtain ⟨base, a'⟩ := r
      obtain ⟨-, -, hall, hrun⟩ := allocContiguous_cases heq
      rw [step_contiguous_some heq, hrun]
      exact ha.takeRun hall
  | free frame => exact ha.free (hop frame rfl)

/-- The books are right after every part of a run; what a run frees was below the limit when
    it was handed out. -/
theorem sound_of_prefix (h : Valid ops) :
    ∀ xs ys, ops = xs ++ ys → (after xs).Sound := by
  induction ops using reverseRecOn with
  | nil =>
    intro xs ys heq
    rw [(append_eq_nil_iff.mp heq.symm).1]
    exact sound_new
  | append_singleton ops op ih =>
    have hold := ih h.init
    have hlast : ∀ frame, op = free frame → frame < (after ops).limit := by
      rintro frame rfl
      obtain ⟨xs, op', ys, hsplit, hout⟩ := h ops frame [] rfl
      have hlt := (hold xs (op' :: ys) hsplit).below frame hout.bits.1
      have hgrow := limit_after xs (op' :: ys)
      rw [← hsplit] at hgrow
      omega
    intro xs ys heq
    rcases eq_nil_or_concat ys with rfl | ⟨ys', last, rfl⟩
    · rw [append_nil] at heq
      rw [← heq, after_concat]
      exact step_sound (hold ops [] (append_nil ops).symm) hlast
    · rw [concat_eq_append, ← append_assoc] at heq
      exact hold xs ys' (append_inj_left' heq rfl)

theorem Valid.sound (h : Valid ops) : (after ops).Sound :=
  sound_of_prefix h ops [] (append_nil ops).symm

theorem freeSet_alloc (ha : a.Sound) (h : a.alloc = some (f, a')) : a'.freeSet = a.freeSet.erase f := by
  obtain ⟨-, hmap⟩ := alloc_spec h
  ext x
  rw [(ha.alloc h).mem_freeSet, Finset.mem_erase, ha.mem_freeSet, hmap]
  by_cases hx : x = f
  · rw [hx, update_self]
    exact ⟨fun h => absurd h false_ne_true, fun h => absurd rfl h.1⟩
  · rw [update_of_ne hx]
    exact ⟨fun h => ⟨hx, h⟩, fun h => h.2⟩

theorem freeSet_takeRun (ha : a.Sound) {base n : Nat} (hall : a.RunFree base n) :
    (a.takeRun base n).freeSet = a.freeSet \ Finset.Ico base (base + n) := by
  ext x
  rw [(ha.takeRun hall).mem_freeSet, Finset.mem_sdiff, ha.mem_freeSet, Finset.mem_Ico]
  show (if base ≤ x ∧ x < base + n then false else a.bitmap x) = true ↔ _
  split_ifs with hx
  · exact ⟨fun h => h.elim, fun h => absurd hx h.2⟩
  · exact ⟨fun h => ⟨h, hx⟩, fun h => h.1⟩

/-- After every run the allocator is the set of its free frames: `free_frames` is its size,
    `alloc` takes one out unless there is none, `alloc_contiguous` takes a run out if there is
    one, and what has been handed out is not handed out again until it is returned. -/
theorem allocator_refines_freeSet (ops : List FrameOp) (h : Valid ops) :
    (after ops).freeFrames = (after ops).freeSet.card ∧
      (∀ f, f ∈ (after ops).freeSet ↔ (after ops).bitmap f = true) ∧
      ((after ops).alloc = none ↔ ∀ f < (after ops).limit, (after ops).bitmap f = false) ∧
      (∀ f a', (after ops).alloc = some (f, a') →
        f ∈ (after ops).freeSet ∧ a'.freeSet = (after ops).freeSet.erase f) ∧
      (∀ n below, 1 ≤ n → (((after ops).allocContiguous n below).isSome = true ↔
        ∃ base, base + n ≤ min (after ops).limit (below / pageSize) ∧ (after ops).RunFree base n)) ∧
      (∀ n below base a', 1 ≤ n → (after ops).allocContiguous n below = some (base, a') →
        base + n ≤ min (after ops).limit (below / pageSize) ∧ (after ops).RunFree base n ∧
          a'.freeSet = (after ops).freeSet \ Finset.Ico base (base + n)) ∧
      (∀ xs op mid op' post f, ops = xs ++ op :: mid ++ op' :: post → HandsOut (after xs) f op →
        HandsOut (after (xs ++ op :: mid)) f op' → ∃ r ∈ mid, r.Returns f) := by
  have ha := h.sound
  refine ⟨ha.counted, fun f => ha.mem_freeSet, ha.alloc_eq_none, ?_, ?_, ?_, ?_⟩
  · intro f a' halloc
    exact ⟨ha.mem_freeSet.mpr (alloc_spec halloc).1, freeSet_alloc ha halloc⟩
  · exact fun n below hn => allocContiguous_isSome hn
  · intro n below base a' hn hrun
    obtain ⟨hle, hall, heq⟩ := allocContiguous_spec hn hrun
    rw [heq]
    exact ⟨hle, hall, freeSet_takeRun ha hall⟩
  · exact fun xs op mid op' post f _ hout hagain => returned_between hout hagain

/-- Frame zero is handed out, freed, and handed out once more. -/
theorem allocator_refines_freeSet_reused :
    Valid [addRegion 0 8192, alloc, free 0] ∧ (after [addRegion 0 8192, alloc, free 0]).freeSet.card = 2 := by
  have hvalid : Valid [addRegion 0 8192, alloc, free 0] := by
    intro pre f post heq
    have hlen := congrArg List.length heq
    rw [length_append] at hlen
    obtain _ | ⟨x, _ | ⟨y, _ | ⟨z, rest⟩⟩⟩ := pre
    · simp at heq
    · simp at heq
    · obtain ⟨rfl, rfl, rfl, -⟩ : addRegion 0 8192 = x ∧ alloc = y ∧ 0 = f ∧ [] = post := by simpa using heq
      exact ⟨[addRegion 0 8192], alloc, [], rfl, _, rfl⟩
    · simp at hlen
      omega
  exact ⟨hvalid, (allocator_refines_freeSet _ hvalid).1.symm⟩

/-- A region that is added again brings back a frame that has not been freed: it is handed out
    twice. -/
theorem readded_frame_handed_out_twice :
    Valid [addRegion 0 8192, alloc, addRegion 0 8192, alloc] ∧ HandsOut (after [addRegion 0 8192]) 0 alloc ∧
      HandsOut (after [addRegion 0 8192, alloc, addRegion 0 8192]) 0 alloc ∧
      free 0 ∉ [addRegion 0 8192] := by
  refine ⟨?_, ⟨_, rfl⟩, ⟨_, rfl⟩, fun h => ?_⟩
  · intro pre f post heq
    have hmem : free f ∈ [addRegion 0 8192, alloc, addRegion 0 8192, alloc] := by
      rw [heq]
      exact mem_append_right _ mem_cons_self
    simp at hmem
  · cases mem_singleton.mp h

end FrameOp

end HamixOS.Kernel

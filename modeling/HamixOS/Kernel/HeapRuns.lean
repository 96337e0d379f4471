import HamixOS.Kernel.HeapCalls

namespace HamixOS.Kernel.Heap

open Lib Nat

/-!
# Runs of the kernel heap

Each call of the block allocator is one step, for it is made under the lock, and between two of them a client may write
the memory that it holds.  The pointers that are held are kept beside the heap, with the bytes that were asked for.

* `Reached.inv` — every heap that is reached is sound;
* `alloc_after_grow` — a chunk that the heap grows by has room for the request it was got for.
-/

/-- Frames and the vmalloc area give pages that are in no chunk. -/
structure Env.Fresh (env : Env) (chunks : List (Nat × Nat)) : Prop where
  contiguous : ∀ count base, env.contiguous count = some base →
    base % pageSize = 0 ∧ ∀ r ∈ chunks, Apart (base, count * pageSize) r
  vmalloc : ∀ size base, env.vmalloc size = some base → base % pageSize = 0 ∧ ∀ r ∈ chunks, Apart (base, size) r

/-- The heaps that are reached, with the bytes that are held at each pointer. -/
inductive Reached (storage : Nat) : BlockAllocator → (Nat → Option Nat) → Prop
  | new (memory : Nat → Nat) : Reached storage (new memory) fun _ => none
  /-- `init`. -/
  | init {h live} : Reached storage h live → storage % blockAlign = 0 → (∀ r ∈ h.chunks, Apart (storage, staticHeapSize) r) →
      Reached storage (h.addChunk storage staticHeapSize).2 live
  | grow {h live} : Reached storage h live → ∀ env needed, env.Fresh h.chunks → Reached storage (grow env h needed).2 live
  | alloc {h live} : Reached storage h live → ∀ layout, Reached storage (h.alloc layout).2
      (if (h.alloc layout).1 = 0 then live else Function.update live (h.alloc layout).1 (some layout.size))
  | dealloc {h live} : Reached storage h live → ∀ p n, live p = some n →
      Reached storage (h.dealloc p) (Function.update live p none)
  | realloc {h live} : Reached storage h live → ∀ p n, live p = some n → ∀ newSize,
      Reached storage (h.reallocInPlace p newSize).2
        (if (h.reallocInPlace p newSize).1 then Function.update live p (some newSize) else live)
  | store {h live} : Reached storage h live → ∀ p n, live p = some n → ∀ memory,
      (∀ a, ¬ (p ≤ a ∧ a < p + n) → memory a = h.memory a) →
      Reached storage { h with memory := memory } live
  | trim {h live} : Reached storage h live → Reached storage (h.trim storage).2 live

variable {h : BlockAllocator} {live : Nat → Option Nat} {storage : Nat}

theorem inv_new (memory : Nat → Nat) : Inv (new memory) fun _ => none := by
  refine ⟨fun _ => none, ⟨⟨?_, ?_, ?_, ?_, ?_, ?_, ?_, ?_⟩, ⟨fun _ => [], ?_⟩, ⟨⟨?_, ?_⟩, ?_, ?_, ?_, ?_⟩⟩, ?_⟩
  · exact fun hb => (nomatch hb)
  · exact fun hb => (nomatch hb)
  · exact fun hb => (nomatch hb)
  · exact fun hb => (nomatch hb)
  · exact fun hb => (nomatch hb)
  · exact fun hlt => absurd hlt (by omega)
  · exact fun hb => (nomatch hb)
  · exact fun hb => (nomatch hb)
  · refine ⟨fun _ => trivial, fun _ => rfl, fun _ => ⟨fun hn => (nomatch hn), fun hn => absurd rfl hn⟩,
      fun _ => List.nodup_nil, fun k b => ⟨fun hn => (nomatch hn), fun ⟨t, ht, _⟩ => (nomatch ht)⟩⟩
  · exact fun r hr => (nomatch hr)
  · exact List.Pairwise.nil
  · exact fun r hr => (nomatch hr)
  · exact fun hb => (nomatch hb)
  · exact fun r hr => (nomatch hr)
  · exact fun hlt => absurd hlt (by omega)
  · exact fun p n => ⟨fun hn => (nomatch hn), fun ⟨b, s, hb⟩ => (nomatch hb)⟩

theorem Inv.addChunk (hi : Inv h live) {base size : Nat} (hshape : base % 16 = 0 ∧ size % 16 = 0 ∧ 64 ≤ size)
    (hapart : ∀ r ∈ h.chunks, Apart (base, size) r) : Inv (h.addChunk base size).2 live := by
  obtain ⟨B, hs, ht⟩ := hi
  by_cases hroom : maxChunks ≤ h.chunks.length
  · unfold BlockAllocator.addChunk
    rw [if_pos hroom]
    exact ⟨B, hs, ht⟩
  · obtain ⟨B', hs', hsame, -⟩ := hs.addChunk hshape hapart hroom
    exact ⟨B', hs', ht.of_same hsame⟩

/-! ### The size of a new chunk -/

theorem chunkSize_mod (needed : Nat) : chunkSize needed % pageSize = 0 := by
  unfold chunkSize
  rcases le_total (alignUp (needed + fence * 2 + minBlock) pageSize) growChunk with hle | hle
  · rw [max_eq_right hle]
    decide
  · rw [max_eq_left hle]
    exact alignUp_mod ..

theorem le_chunkSize (needed : Nat) : needed + 64 ≤ chunkSize needed ∧ growChunk ≤ chunkSize needed :=
  ⟨le_trans (le_alignUp pageSize (by decide) _) (le_max_left ..), le_max_right ..⟩

/-- What `grow` adds is apart from the chunks there are. -/
theorem grow_chunk {env : Env} (hfresh : env.Fresh h.chunks) (needed : Nat) : grow env h needed = (false, h) ∨
    ∃ base, grow env h needed = h.addChunk base (chunkSize needed) ∧
      (base % 16 = 0 ∧ chunkSize needed % 16 = 0 ∧ 64 ≤ chunkSize needed) ∧
      ∀ r ∈ h.chunks, Apart (base, chunkSize needed) r := by
  have hmod := chunkSize_mod needed
  obtain ⟨-, hge⟩ := le_chunkSize needed
  unfold growChunk at hge
  unfold pageSize at hmod
  unfold grow
  cases hcontiguous : env.contiguous (chunkSize needed / pageSize) with
  | some base =>
    obtain ⟨hbase, hapart⟩ := hfresh.contiguous _ _ hcontiguous
    unfold pageSize at hbase hapart
    rw [Nat.div_mul_cancel (dvd_of_mod_eq_zero hmod)] at hapart
    exact .inr ⟨base, rfl, by omega, hapart⟩
  | none =>
    cases hvmalloc : env.vmalloc (chunkSize needed) with
    | some base =>
      obtain ⟨hbase, hapart⟩ := hfresh.vmalloc _ _ hvmalloc
      unfold pageSize at hbase
      exact .inr ⟨base, rfl, by omega, hapart⟩
    | none => exact .inl rfl

/-- Every heap that is reached is sound. -/
theorem Reached.inv (hr : Reached storage h live) : Inv h live := by
  induction hr with
  | new memory => exact inv_new memory
  | init _ hstorage hapart ih => exact ih.addChunk ⟨hstorage, by decide, by decide⟩ hapart
  | @grow h live _ env needed hfresh ih =>
    rcases grow_chunk hfresh needed with heq | ⟨base, heq, hshape, hapart⟩
    · rw [heq]
      exact ih
    · rw [heq]
      exact ih.addChunk hshape hapart
  | @alloc h live _ layout ih =>
    obtain ⟨B, hs, ht⟩ := ih
    rcases hs.alloc ht layout with heq | ⟨hne, hinv⟩
    · rw [heq, if_pos rfl]
      exact ⟨B, hs, ht⟩
    · rw [if_neg hne]
      exact hinv
  | dealloc _ p n hlive ih =>
    obtain ⟨B, hs, ht⟩ := ih
    exact hs.dealloc ht hlive
  | @realloc h live _ p n hlive newSize ih =>
    obtain ⟨B, hs, ht⟩ := ih
    rcases hs.reallocInPlace ht hlive newSize with heq | ⟨htrue, hinv⟩
    · rw [heq]
      exact ⟨B, hs, ht⟩
    · rw [if_pos htrue]
      exact hinv
  | store _ p n hlive memory hsame ih =>
    obtain ⟨B, hs, ht⟩ := ih
    exact hs.store ht hlive hsame
  | trim _ ih =>
    obtain ⟨B, hs, ht⟩ := ih
    exact hs.trimLoop ht storage le_rfl _ _

/-! ### Growth -/

theorem binFor_lt (size : Nat) : binFor size < binCount := by
  unfold binFor binCount smallBins
  dsimp only
  split <;> omega

/-- Larger blocks are in later bins. -/
theorem binFor_mono {a b : Nat} (hle : a ≤ b) : binFor a ≤ binFor b := by
  have hdiv : a / 16 ≤ b / 16 := Nat.div_le_div_right hle
  unfold binFor binCount smallBins blockAlign
  by_cases hb : b / 16 < 64
  · rw [if_pos hb, if_pos (by omega)]
    exact hdiv
  · rw [if_neg hb]
    have hten : 10 ≤ log2 b := (le_log2 (by omega)).mpr (by omega)
    by_cases ha : a / 16 < 64
    · rw [if_pos ha]
      omega
    · rw [if_neg ha]
      have hlog : log2 a ≤ log2 b :=
        (le_log2 (by omega)).mpr (le_trans (log2_self_le (by omega)) hle)
      omega

/-- The first block of a late enough bin, if it has room, keeps the request from failing. -/
theorem Sound.alloc_ne_null {B : Tiles} (hs : Sound h B 0 0) (layout : Layout) {b : Nat} {t : Tile} (hb : B b = some t)
    (hfree : t.use = .free) (hfirst : h.bins (binFor t.size) = b) (hmarked : h.bitmap (binFor t.size) = true)
    (hbase : b % 16 = 0) (hroom : layout.size + layout.align + 64 ≤ t.size) : (h.alloc layout).1 ≠ 0 := by
  have hneed := alignUp_le blockAlign (max layout.size 1)
  have hpayload := alignUp_le (max layout.align blockAlign) (b + header)
  unfold BlockAllocator.alloc
  dsimp only
  generalize alignUp (max layout.size 1) blockAlign = need at hneed
  unfold blockAlign at hneed
  have hbin : binFor (max (need + header) minBlock) ≤ binFor t.size := binFor_mono (by unfold header minBlock; omega)
  have hfound : (h.findFit need (max layout.align blockAlign)).1 ≠ none := by
    refine hs.scanBins_ne_none (k := binFor t.size) (List.mem_range'_1.mpr ⟨hbin, ?_⟩) hb hfree hfirst hmarked ?_
    · have := binFor_lt t.size
      omega
    · unfold blockAlign header at *
      omega
  rcases hs.findFit need (max layout.align blockAlign) with hfit | ⟨c, u, hfit, -⟩
  · rw [hfit] at hfound
    exact absurd rfl hfound
  · rw [hfit]
    dsimp only
    have hge := le_alignUp (max layout.align blockAlign) (by unfold blockAlign; omega) (c + header)
    unfold header at hge ⊢
    omega

/-- When a request fails and the heap grows for it, it does not fail again; and no search finds a block without room. -/
theorem alloc_after_grow (storage : Nat) :
    (∀ (h : BlockAllocator) (live : Nat → Option Nat), Reached storage h live → ∀ (layout : Layout) (env : Env),
      env.Fresh (h.alloc layout).2.chunks → (h.alloc layout).1 = 0 →
      (grow env (h.alloc layout).2 (layout.size + layout.align + header * 2)).1 = true →
      ((grow env (h.alloc layout).2 (layout.size + layout.align + header * 2)).2.alloc layout).1 ≠ 0) ∧
    ∀ (h h' : BlockAllocator) (need align block size payload : Nat), 0 < align →
      h.findFit need align = (some (block, size, payload), h') →
      size = h'.blockSize block ∧ block + header ≤ payload ∧ payload % align = 0 ∧ payload + need ≤ block + size := by
  constructor
  · intro h live hr layout env hfresh hnull hgrow
    obtain ⟨B, hs, ht⟩ := hr.inv
    have hsame : h.alloc layout = (0, h) := (hs.alloc ht layout).resolve_right fun hn => hn.1 hnull
    rw [hsame] at hfresh hgrow ⊢
    rcases grow_chunk hfresh (layout.size + layout.align + header * 2) with heq | ⟨base, heq, hshape, hapart⟩
    · rw [heq] at hgrow
      cases hgrow
    · rw [heq] at hgrow ⊢
      obtain ⟨hge, -⟩ := le_chunkSize (layout.size + layout.align + header * 2)
      generalize chunkSize (layout.size + layout.align + header * 2) = size at *
      have hroom : ¬ maxChunks ≤ h.chunks.length := by
        intro hfull
        unfold BlockAllocator.addChunk at hgrow
        rw [if_pos hfull] at hgrow
        cases hgrow
      obtain ⟨B', hs', -, hb, hfirst, hmarked⟩ := hs.addChunk hshape hapart hroom
      refine hs'.alloc_ne_null layout hb rfl hfirst hmarked (by omega) ?_
      unfold header at hge
      dsimp only
      omega
  · intro h h' need align block size payload halign hfit
    obtain ⟨hsize, hpayload, hroom⟩ := scanBins_fits hfit
    dsimp only at hsize hpayload hroom
    subst hpayload
    exact ⟨hsize.symm, le_alignUp align halign _, alignUp_mod .., hroom⟩

/-- A hundred bytes, aligned to eight. -/
def smallLayout : Layout := ⟨100, 8, ⟨3, rfl⟩, by decide⟩

/-- Frames are given from one gigabyte on. -/
def gigabyteEnv : Env := ⟨fun _ => some (2 ^ 30), fun _ => none⟩

/-- The first allocation of all makes the heap grow, and finds its block in the new chunk. -/
theorem alloc_after_grow_first :
    ((grow gigabyteEnv ((new fun _ => 0).alloc smallLayout).2 140).2.alloc smallLayout).1 ≠ 0 ∧
      2 ^ 30 + 16 + header ≤ 2 ^ 30 + 32 :=
  ⟨(alloc_after_grow 0x400000).1 _ _ (.new fun _ => 0) smallLayout gigabyteEnv
      ⟨fun _ _ hbase => ⟨Option.some.inj hbase ▸ (by decide), fun _ hr => (nomatch hr)⟩, fun _ _ hbase => (nomatch hbase)⟩
      (by decide) (by decide),
    ((alloc_after_grow 0x400000).2 ((new fun _ => 0).addChunk (2 ^ 30) growChunk).2
      ((((new fun _ => 0).addChunk (2 ^ 30) growChunk).2.findFit 112 16).2) 112 16 (2 ^ 30 + 16) (growChunk - 32) (2 ^ 30 + 32)
      (by decide) (Prod.ext (by decide) rfl)).2.1⟩

theorem Layout.align_dvd (layout : Layout) : layout.align ∣ max layout.align blockAlign := by
  obtain ⟨k, hk⟩ := layout.align_pow
  rcases le_total layout.align blockAlign with hle | hle
  · rw [max_eq_right hle, hk]
    exact Nat.pow_dvd_pow 2 ((Nat.pow_le_pow_iff_right (by decide)).mp (hk ▸ hle : 2 ^ k ≤ 2 ^ 4))
  · rw [max_eq_left hle]

/-- What is held ends before another tile begins, or begins behind its end. -/
theorem held_beside {m : Memory} {B : Tiles} {x y b c p n : Nat} {t u : Tile} (ht : Tagged m B x y) (hb : B b = some t)
    (huse : t.use = .held p n) (hc : B c = some u) (hne : u.use ≠ .held p n) : p + n ≤ c ∨ c + u.size + header ≤ p := by
  have hbc : b ≠ c := by
    rintro rfl
    rw [hb] at hc
    exact hne (Option.some.inj hc ▸ huse)
  have hap := ht.ne_apart hb hc hbc
  have hpay := (ht.shape hb).payload p n huse
  unfold header
  omega

/-- What is held is aligned, lies in a chunk, and is apart from what else is held and from what is allocated next. -/
theorem held_apart (hr : Reached storage h live) :
    (∀ p n, live p = some n → p % blockAlign = 0 ∧ ∃ r ∈ h.chunks, r.1 + fence + header ≤ p ∧ p + n ≤ r.1 + r.2) ∧
    (∀ p n q k, live p = some n → live q = some k → p ≠ q → p + n + header ≤ q ∨ q + k + header ≤ p) ∧
    ∀ layout : Layout, (h.alloc layout).1 ≠ 0 → (h.alloc layout).1 % layout.align = 0 ∧ ∀ p n, live p = some n →
      p + n + header ≤ (h.alloc layout).1 ∨ (h.alloc layout).1 + layout.size + header ≤ p := by
  obtain ⟨B, hs, ht⟩ := hr.inv
  refine ⟨fun p n hp => ?_, fun p n q k hp hq hne => ?_, fun layout hnull => ?_⟩
  · obtain ⟨b, s, hb⟩ := (ht p n).mp hp
    obtain ⟨hlo, hmod, -, hhi⟩ := (hs.tagged.shape hb).payload p n rfl
    obtain ⟨r, hr, hrlo, hrhi⟩ := hs.housed.inside hb
    exact ⟨hmod, r, hr, by unfold fence header; omega, le_trans hhi hrhi⟩
  · obtain ⟨b, s, hb⟩ := (ht p n).mp hp
    obtain ⟨c, u, hc⟩ := (ht q k).mp hq
    have hside := held_beside hs.tagged hb rfl hc fun huse => hne (Use.held.inj huse).1.symm
    have hcq := (hs.tagged.shape hc).payload q k rfl
    unfold header at *
    dsimp only at *
    omega
  · unfold BlockAllocator.alloc at hnull ⊢
    dsimp only at hnull ⊢
    rcases hs.findFit (alignUp (max layout.size 1) blockAlign) (max layout.align blockAlign) with hfit | ⟨c, t, hfit, hc, hfree, hroom⟩
    · rw [hfit] at hnull
      exact absurd rfl hnull
    rw [hfit]
    dsimp only
    have hneed := le_alignUp blockAlign (by decide) (max layout.size 1)
    have hge := le_alignUp (max layout.align blockAlign) (by unfold blockAlign; omega) (c + header)
    refine ⟨mod_eq_zero_of_dvd (layout.align_dvd.trans (Nat.dvd_of_mod_eq_zero (alignUp_mod ..))), fun p n hp => ?_⟩
    obtain ⟨b, s, hb⟩ := (ht p n).mp hp
    have hside := held_beside hs.tagged hb rfl hc (by rw [hfree]; exact nofun)
    unfold header at *
    omega

/-- A heap with one chunk, from which a hundred bytes are held. -/
def smallHeap : BlockAllocator := (((new fun _ => 0).addChunk (2 ^ 30) growChunk).2.alloc smallLayout).2

theorem held_apart_small : (2 ^ 30 + 32) % blockAlign = 0 ∧ ∀ layout : Layout, (smallHeap.alloc layout).1 ≠ 0 →
    2 ^ 30 + 32 + 100 + header ≤ (smallHeap.alloc layout).1 ∨
      (smallHeap.alloc layout).1 + layout.size + header ≤ 2 ^ 30 + 32 := by
  have hr := ((@Reached.new (2 ^ 30) fun _ => 0).init (by decide) fun _ hr => (nomatch hr)).alloc smallLayout
  exact ⟨((held_apart hr).1 _ 100 (by decide)).1, fun layout hne => ((held_apart hr).2.2 layout hne).2 _ 100 (by decide)⟩

end HamixOS.Kernel.Heap

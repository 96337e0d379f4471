import HamixOS.Kernel.HeapOps

namespace HamixOS.Kernel

open Lib Function Option List Nat Bool

/-!
# The calls of the heap

* `Sound.findFit` — the search leaves a sound heap as it is and finds a free block with room for the request;
* `Sound.alloc`, `dealloc`, `reallocInPlace`, `trim` — the calls leave the heap sound, and the pointers that are held are
  the old ones and the one the call is about.
-/

namespace Heap

open BlockAllocator

variable {h h' : BlockAllocator} {B : Tiles} {L : Nat → List Nat} {b c x y : Nat} {t u : Tile}

/-! ### Rounding -/

theorem le_alignUp (align : Nat) (ha : 0 < align) (n : Nat) : n ≤ alignUp n align := by
  have hdiv := div_add_mod (n + align - 1) align
  have hmod := mod_lt (n + align - 1) ha
  unfold alignUp
  rw [mul_comm]
  omega

theorem alignUp_le (align n : Nat) : alignUp n align ≤ n + align - 1 := div_mul_le_self ..

theorem alignUp_mod (align n : Nat) : alignUp n align % align = 0 := mul_mod_left ..

/-- A multiple of a power of two from sixteen on is one of sixteen. -/
theorem mod_of_pow {align n : Nat} (hpow : ∃ k, align = 2 ^ k) (hle : 16 ≤ align) (hn : n % align = 0) : n % 16 = 0 := by
  obtain ⟨k, rfl⟩ := hpow
  have hk : 4 ≤ k := by
    by_contra hlt
    have hlt : 2 ^ k < 2 ^ 4 := Nat.pow_lt_pow_right (by decide) (by omega)
    omega
  exact mod_eq_zero_of_dvd (dvd_trans (pow_dvd_pow 2 hk) (dvd_of_mod_eq_zero hn))

/-! ### The search -/

/-- What was found has room for the request. -/
structure Fits (h : BlockAllocator) (need align : Nat) (fit : Nat × Nat × Nat) : Prop where
  size : h.blockSize fit.1 = fit.2.1
  payload : fit.2.2 = alignUp (fit.1 + header) align
  room : fit.2.2 + need ≤ fit.1 + fit.2.1

theorem scan_fits {need align bin room previous : Nat} {fit : Nat × Nat × Nat}
    (hscan : BlockAllocator.scan need align bin room b previous h = (some fit, h')) : Fits h' need align fit := by
  induction room generalizing b previous with
  | zero => cases hscan
  | succ room ih =>
    unfold BlockAllocator.scan at hscan
    dsimp only at hscan
    split_ifs at hscan with hnull hsane hprev hroom
    · cases hscan
    · cases hscan
    · cases hscan
    · obtain ⟨hfit, rfl⟩ := Prod.mk.inj hscan
      obtain rfl := some.inj hfit
      exact ⟨rfl, rfl, hroom⟩
    · exact ih hscan

theorem scanBins_fits {need align : Nat} {bins : List Nat} {fit : Nat × Nat × Nat}
    (hscan : BlockAllocator.scanBins need align bins h = (some fit, h')) : Fits h' need align fit := by
  induction bins generalizing h with
  | nil => cases hscan
  | cons bin bins ih =>
    unfold BlockAllocator.scanBins at hscan
    split at hscan
    · exact ih hscan
    · split at hscan
      · rename_i hfound
        obtain ⟨hfit, rfl⟩ := Prod.mk.inj hscan
        obtain rfl := some.inj hfit
        exact scan_fits hfound
      · exact ih hscan

namespace Sound

section

variable (hs : Sound h B 0 0)

include hs

theorem tile_head (hb : B b = some t) : h.memory b = t.size + t.use.bit + flag B b :=
  hs.tagged.head hb fun hlt => absurd hlt (by omega)

theorem saneFree (hb : B b = some t) (hfree : t.use = .free) : h.saneFree b = true := by
  have hshape := hs.tagged.shape hb
  have hsize := blockSize_of_head (hs.tile_head hb) hshape.size (flag_lt B b)
  have hinuse := isInuse_of_head (hs.tile_head hb) hshape.size (flag_lt B b)
  have hblock := hshape.block (kept_of_free hfree)
  unfold BlockAllocator.saneFree
  rw [hsize, hs.isPlausible hb (kept_of_free hfree)]
  refine decide_eq_true ⟨rfl, hblock, hshape.size, (hs.bounds hb).2, ?_, hs.tagged.footer hb hfree⟩
  exact eq_false_iff.mpr fun hn => hinuse.mp hn hfree

/-- The loop over the blocks of a bin meets free blocks only. -/
theorem scan (hl : Listed h B L) (need align k room previous : Nat) (l₁ l₂ : List Nat)
    (heq : L k = l₁ ++ l₂) : ∃ r, BlockAllocator.scan need align k room (l₂.headD 0) previous h = (r, h) ∧
      ∀ fit, r = some fit → ∃ t, B fit.1 = some t ∧ t.use = .free := by
  induction room generalizing l₁ l₂ previous with
  | zero => exact ⟨none, rfl, fun _ hn => (nomatch hn)⟩
  | succ room ih =>
    cases l₂ with
    | nil => exact ⟨none, rfl, fun _ hn => (nomatch hn)⟩
    | cons b l₂ =>
      obtain ⟨t, hb, hfree, -⟩ := (hl.mem k b).mp (heq ▸ mem_append_right _ (mem_cons_self ..))
      have hpos := (hs.tagged.shape hb).pos
      have hlinked := hl.linked k
      rw [heq] at hlinked
      have hnext : h.nextLink b = l₂.headD 0 := (Linked.append.mp hlinked).2.2.1
      unfold BlockAllocator.scan
      rw [headD_cons, if_neg (ne_of_gt hpos), if_neg (by rw [hs.saneFree hb hfree]; exact Bool.noConfusion)]
      dsimp only
      split
      · refine ⟨_, rfl, fun fit hfit => ?_⟩
        obtain rfl := some.inj hfit
        exact ⟨t, hb, hfree⟩
      · rw [hnext]
        exact ih _ (l₁ ++ [b]) _ (by rw [heq, append_assoc]; rfl)

theorem scanBins (need align : Nat) (bins : List Nat) :
    ∃ r, BlockAllocator.scanBins need align bins h = (r, h) ∧ ∀ fit, r = some fit → ∃ t, B fit.1 = some t ∧ t.use = .free := by
  obtain ⟨L, hl⟩ := hs.listed
  induction bins with
  | nil => exact ⟨none, rfl, fun _ hn => (nomatch hn)⟩
  | cons k bins ih =>
    unfold BlockAllocator.scanBins
    split
    · exact ih
    · obtain ⟨r, hscan, hr⟩ := hs.scan hl need align k 64 0 [] _ rfl
      rw [hl.first, hscan]
      cases r with
      | none => exact ih
      | some fit => exact ⟨some fit, rfl, hr⟩

/-- The search finds a block if the first block of one of its bins has room. -/
theorem scanBins_ne_none {need align k : Nat} {bins : List Nat} (hk : k ∈ bins) (hb : B b = some t)
    (hfree : t.use = .free) (hfirst : h.bins k = b) (hmarked : h.bitmap k = true)
    (hroom : alignUp (b + header) align + need ≤ b + t.size) : (BlockAllocator.scanBins need align bins h).1 ≠ none := by
  obtain ⟨L, hl⟩ := hs.listed
  have hfound : ∃ fit, BlockAllocator.scan need align k 64 (h.bins k) 0 h = (some fit, h) := by
    have hsize := blockSize_of_head (hs.tile_head hb) (hs.tagged.shape hb).size (flag_lt B b)
    unfold BlockAllocator.scan
    rw [hfirst, if_neg (ne_of_gt (hs.tagged.shape hb).pos),
      if_neg (by rw [hs.saneFree hb hfree]; exact Bool.noConfusion), hsize]
    dsimp only
    rw [if_pos hroom]
    exact ⟨_, rfl⟩
  induction bins with
  | nil => cases hk
  | cons j bins ih =>
    unfold BlockAllocator.scanBins
    rcases mem_cons.mp hk with rfl | hk
    · rw [if_neg (by rw [hmarked]; exact Bool.noConfusion)]
      obtain ⟨fit, hfit⟩ := hfound
      rw [hfit]
      exact some_ne_none _
    · split
      · exact ih hk
      · obtain ⟨r, hscan, hr⟩ := hs.scan hl need align j 64 0 [] _ rfl
        rw [hl.first, hscan]
        cases r with
        | none => exact ih hk
        | some fit => exact some_ne_none _

/-- The search leaves the heap as it is, and what it finds is a free block with room for the request. -/
theorem findFit (need align : Nat) : h.findFit need align = (none, h) ∨
    ∃ b t, h.findFit need align = (some (b, t.size, alignUp (b + header) align), h) ∧ B b = some t ∧ t.use = .free ∧
      alignUp (b + header) align + need ≤ b + t.size := by
  unfold BlockAllocator.findFit
  obtain ⟨r, hscan, hr⟩ := hs.scanBins need align
    (List.range' (binFor (max (need + header) minBlock)) (binCount - binFor (max (need + header) minBlock)))
  cases r with
  | none => exact .inl hscan
  | some fit =>
    right
    obtain ⟨b, size, payload⟩ := fit
    obtain ⟨t, hb, hfree⟩ := hr _ rfl
    obtain ⟨hsize, hpayload, hroom⟩ := scanBins_fits hscan
    dsimp only at hb hsize hpayload hroom
    have htile := blockSize_of_head (hs.tile_head hb) (hs.tagged.shape hb).size (flag_lt B b)
    subst hpayload
    obtain rfl := htile.symm.trans hsize
    exact ⟨b, t, hscan, hb, hfree, hroom⟩

end

end Sound

/-! ### The pointers that are held -/

/-- The pointers of the clients, with the bytes they asked for, are those of the blocks that are held. -/
def Tracks (B : Tiles) (live : Nat → Option Nat) : Prop := ∀ p n, live p = some n ↔ ∃ b s, B b = some ⟨s, .held p n⟩

namespace Tracks

variable {live : Nat → Option Nat} {m : Memory} {p n size : Nat} {use : Use}

theorem of_same {B' : Tiles} (ht : Tracks B live) (hsame : SameHeld B B') : Tracks B' live := by
  intro p n
  rw [ht]
  exact exists_congr fun b => exists_congr fun s => (hsame b s p n).symm

/-- Two blocks are not held by one pointer. -/
theorem unique (htag : Tagged m B x y) (hb : B b = some t) (hp : b ≤ p ∧ p < b + t.size) {n : Nat}
    (hc : B c = some u) (huse : u.use = .held p n) : c = b := by
  obtain ⟨hlo, -, hhi, -⟩ := (htag.shape hc).payload p n huse
  exact htag.eq_of_inside hc hb (a := p) (by omega) hp

/-- A block is given to a client, or to its client with another size. -/
theorem hold (ht : Tracks B live) (htag : Tagged m B x y) (hb : B b = some ⟨size, use⟩)
    (huse : use = .kept ∨ ∃ k, use = .held p k) (hp : b ≤ p ∧ p < b + size) :
    Tracks (update B b (some ⟨size, .held p n⟩)) (update live p (some n)) := by
  intro q k
  by_cases hq : q = p
  · subst hq
    rw [update_self]
    constructor
    · rintro heq
      obtain rfl := some.inj heq
      exact ⟨b, size, update_self ..⟩
    · rintro ⟨c, s, hc⟩
      rcases update_some hc with ⟨-, heq⟩ | ⟨hcb, hc⟩
      · injection heq with _ heq
        injection heq with _ heq
        rw [heq]
      · exact absurd (unique htag hb hp hc rfl) hcb
  · rw [update_of_ne hq, ht]
    constructor
    · rintro ⟨c, s, hc⟩
      have hcb : c ≠ b := by
        rintro rfl
        injection hb.symm.trans hc with heq
        injection heq with _ heq
        rcases huse with rfl | ⟨j, rfl⟩
        · cases heq
        · injection heq with heq
          exact hq heq.symm
      exact ⟨c, s, by rw [update_of_ne hcb]; exact hc⟩
    · rintro ⟨c, s, hc⟩
      rcases update_some hc with ⟨-, heq⟩ | ⟨-, hc⟩
      · injection heq with _ heq
        injection heq with heq
        exact absurd heq.symm hq
      · exact ⟨c, s, hc⟩

/-- A client gives its block up. -/
theorem release (ht : Tracks B live) (htag : Tagged m B x y) (hb : B b = some ⟨size, .held p n⟩) {o : Option Tile}
    (ho : ∀ s q k, o ≠ some ⟨s, .held q k⟩) : Tracks (update B b o) (update live p none) := by
  obtain ⟨hlo, -, hhi, -⟩ := (htag.shape hb).payload p n rfl
  intro q k
  by_cases hq : q = p
  · subst hq
    rw [update_self]
    refine ⟨fun heq => (nomatch heq), fun ⟨c, s, hc⟩ => ?_⟩
    by_cases hcb : c = b
    · subst hcb
      rw [update_self] at hc
      exact absurd hc (ho _ _ _)
    · rw [update_of_ne hcb] at hc
      exact absurd (unique htag hb ⟨by omega, hhi⟩ hc rfl) hcb
  · rw [update_of_ne hq, ht]
    constructor
    · rintro ⟨c, s, hc⟩
      have hcb : c ≠ b := by
        rintro rfl
        injection hb.symm.trans hc with heq
        injection heq with _ heq
        injection heq with heq
        exact hq heq.symm
      exact ⟨c, s, by rw [update_of_ne hcb]; exact hc⟩
    · rintro ⟨c, s, hc⟩
      by_cases hcb : c = b
      · subst hcb
        rw [update_self] at hc
        exact absurd hc (ho _ _ _)
      · rw [update_of_ne hcb] at hc
        exact ⟨c, s, hc⟩

end Tracks

/-! ### The calls -/

/-- The heap is sound, and the pointers of its clients are `live`. -/
def Inv (h : BlockAllocator) (live : Nat → Option Nat) : Prop := ∃ B, Sound h B 0 0 ∧ Tracks B live

namespace Sound

theorem stop_head (hs : Sound h B x y) (hlt : x < y) : ∃ t, B y = some t ∧ h.blockSize y = t.size ∧
    (h.isInuse y = true ↔ t.use ≠ .free) := by
  obtain ⟨t, ht, hm⟩ := hs.tagged.stop hlt
  have hsize := (hs.tagged.shape ht).size
  rcases hm with hm | hm
  · exact ⟨t, ht, blockSize_of_head (f := 0) hm hsize (.inl rfl),
      isInuse_of_head (f := 0) hm hsize (.inl rfl)⟩
  · exact ⟨t, ht, blockSize_of_head hm hsize (.inr rfl), isInuse_of_head hm hsize (.inr rfl)⟩

/-- The start of a tile is no link of a free block. -/
theorem start_not_link (hs : Sound h B x y) (hb : B b = some t) :
    ∀ c u, B c = some u → u.use = .free → b ≠ c + 8 ∧ b ≠ c + 16 := by
  intro c u hc hu
  have hb16 := (hs.tagged.shape hb).start
  have hc16 := (hs.tagged.shape hc).start
  have hfence := (hs.tagged.shape hb).fence
  have hblock := (hs.tagged.shape hc).block (kept_of_free hu)
  refine ⟨by omega, fun heq => ?_⟩
  have := hs.tagged.eq_of_inside hb hc (a := b) (by omega) (by omega)
  omega

/-- The flag of a place does not change as a tile that does not end there comes or goes. -/
theorem flag_remove (hc : B c = some t) (hend : c + t.size ≠ b) :
    flag (update B c none) b = flag B b := by
  refine flag_update (fun u hu _ => ?_) fun u hu _ => by cases hu
  obtain rfl := some.inj (hc.symm.trans hu)
  exact hend

/-- The end of `alloc`: a free block is taken, and what is not needed of it is free again. -/
theorem place (hs : Sound h B 0 0) {live : Nat → Option Nat} (ht : Tracks B live) (hb : B b = some t) (hfree : t.use = .free)
    {need payload n : Nat} (hpayload : b + 16 ≤ payload ∧ payload % 16 = 0) (hneed : need % 16 = 0 ∧ 16 ≤ need ∧ n ≤ need)
    (hroom : payload + need ≤ b + t.size) :
    Inv (h.place need b t.size payload) (update live payload (some n)) := by
  have hshape := hs.tagged.shape hb
  have hstart := hshape.start
  have hsize := hshape.size
  have hblock := hshape.block (kept_of_free hfree)
  obtain ⟨-, -, -, hmemory⟩ := hs.takeFree hb hfree
  have htake := (hs.hole_at hb).take_right le_rfl hb hfree
  have hprev : (h.takeFree b t.size).head b &&& flagPrevInuse = flag (update B b none) b := by
    rw [flag_remove hb (by omega)]
    refine prevInuse_of_head ?_ hsize (flag_lt B b)
    rw [hmemory b (hs.start_not_link hb)]
    exact hs.tile_head hb
  have hround : alignUp (payload + need) blockAlign = payload + need := alignUp_of_mod (by omega)
  have hheld : Tracks (update B b none) live := by
    refine ht.of_same (SameHeld.update (fun s p k heq => ?_) fun _ _ _ heq => by cases heq)
    obtain rfl := some.inj (hb.symm.trans heq)
    cases hfree
  unfold BlockAllocator.place
  dsimp only
  rw [hround]
  generalize htaken : (if minBlock ≤ b + t.size - (payload + need) then payload + need - b else t.size) = taken
  have hcases : 32 ≤ taken ∧ taken % 16 = 0 ∧ (b + taken = b + t.size ∨ b + taken + 32 ≤ b + t.size) ∧
      payload + need ≤ b + taken := by
    unfold minBlock at htaken
    split at htaken <;> omega
  obtain ⟨hge, hmod, hle, hin⟩ := hcases
  obtain ⟨B', hs', hb', hnext, hsame, -⟩ := htake.occupy ⟨hshape.pos, hstart⟩ hprev ⟨hge, hmod⟩ hle
  rw [show b + t.size - b = t.size by omega] at hs'
  refine ⟨_, hs'.retag _ (.held payload n) hb' Use.noConfusion Use.noConfusion ?_ (fun _ => hnext) ⟨rfl, rfl, rfl⟩ rfl rfl (fun p k hp => ?_)
    fun a ha => ?_, (hheld.of_same hsame).hold hs'.tagged hb' (.inl rfl) ⟨by omega, by omega⟩⟩
  · refine ⟨hshape.pos, hstart, hmod, by dsimp only; omega, fun _ => hge, fun p k hp => ?_⟩
    obtain ⟨rfl, rfl⟩ := Use.held.inj hp
    exact ⟨hpayload.1, hpayload.2, by dsimp only; omega, by dsimp only; omega⟩
  · obtain ⟨rfl, rfl⟩ := Use.held.inj hp
    exact update_self ..
  · exact update_of_ne (ha payload n rfl) ..

theorem alloc (hs : Sound h B 0 0) {live : Nat → Option Nat} (ht : Tracks B live) (layout : Layout) :
    h.alloc layout = (0, h) ∨
      ((h.alloc layout).1 ≠ 0 ∧ Inv (h.alloc layout).2 (update live (h.alloc layout).1 (some layout.size))) := by
  unfold BlockAllocator.alloc
  dsimp only
  have hround := le_alignUp blockAlign (by decide) (max layout.size 1)
  have hmod := alignUp_mod blockAlign (max layout.size 1)
  have halign : ∃ k, max layout.align blockAlign = 2 ^ k := by
    obtain ⟨k, hk⟩ := layout.align_pow
    rcases le_total layout.align blockAlign with hle | hle
    · exact ⟨4, max_eq_right hle⟩
    · exact ⟨k, (max_eq_left hle).trans hk⟩
  have hge : 16 ≤ max layout.align blockAlign := le_max_right ..
  generalize max layout.align blockAlign = align at halign hge
  rcases hs.findFit (alignUp (max layout.size 1) blockAlign) align with hfit | ⟨b, t, hfit, hb, hfree, hroom⟩
  · rw [hfit]
    exact .inl rfl
  · right
    rw [hfit]
    dsimp only
    have hpayload := le_alignUp align (by omega) (b + header)
    unfold header at hpayload
    unfold blockAlign at hmod hround
    refine ⟨by unfold header; omega, hs.place ht hb hfree ⟨hpayload, mod_of_pow halign hge (alignUp_mod ..)⟩ ?_ hroom⟩
    unfold blockAlign
    omega

/-- What is free behind the hole is taken with it. -/
theorem mergeAfter (hs : Sound h B x y) (hlt : x < y) : ∃ B' z, h.mergeAfter x (y - x) = ((h.mergeAfter x (y - x)).1, z - x) ∧
    Sound (h.mergeAfter x (y - x)).1 B' x z ∧ y ≤ z ∧ SameHeld B B' ∧ flag B' x = flag B x := by
  obtain ⟨t, hy, hsize, hinuse⟩ := hs.stop_head hlt
  unfold BlockAllocator.mergeAfter
  dsimp only
  rw [show x + (y - x) = y by omega, hsize]
  split
  · rename_i hn
    have hfree : t.use = .free := by
      by_contra hne
      rw [hinuse.mpr hne] at hn
      cases hn
    refine ⟨_, y + t.size, ?_, hs.take_right (by omega) hy hfree, by omega,
      SameHeld.update (fun s p k heq => ?_) (fun _ _ _ heq => by cases heq), flag_remove hy (by omega)⟩
    · rw [show y + t.size - x = y - x + t.size by omega]
    · obtain rfl := some.inj (hy.symm.trans heq)
      cases hfree
  · exact ⟨B, y, rfl, hs, le_refl _, fun _ _ _ _ => .rfl, rfl⟩

section

variable (hs : Sound h B 0 0)

include hs

/-- The flag in the header of a block that is held, when it becomes a hole. -/
theorem open_flag (hb : B b = some t) :
    h.head b &&& flagPrevInuse = flag (update B b none) b := by
  have hshape := hs.tagged.shape hb
  have := hshape.fence
  rw [flag_remove hb (by omega)]
  exact prevInuse_of_head (hs.tile_head hb) hshape.size (flag_lt B b)

theorem dealloc {live : Nat → Option Nat} (ht : Tracks B live) {p n : Nat}
    (hlive : live p = some n) : Inv (h.dealloc p) (update live p none) := by
  obtain ⟨b, size, hb⟩ := (ht p n).mp hlive
  have hshape := hs.tagged.shape hb
  have hblock := hshape.block Use.noConfusion
  have hstart := hshape.start
  have hpos := hshape.pos
  have hmod := hshape.size
  obtain ⟨hlo, -, hhi, -⟩ := hshape.payload p n rfl
  have hbounds := hs.bounds hb
  have hsize := blockSize_of_head (hs.tile_head hb) hmod (flag_lt B b)
  have hinuse := (isInuse_of_head (hs.tile_head hb) hmod (flag_lt B b)).mpr Use.noConfusion
  dsimp only at hhi hblock hbounds hmod hsize
  unfold BlockAllocator.dealloc
  dsimp only
  rw [hs.tagged.pointer hb rfl, hs.isPlausible hb Use.noConfusion, hinuse, hsize]
  by_cases hfar : 2 ^ 20 < p - b
  · rw [if_pos (.inr (.inr hfar))]
    -- a block whose pointer is far from its header is not found again
    have hkept := hs.retag (h.corrupted "free of a pointer whose header is overwritten" p) .kept hb
      Use.noConfusion Use.noConfusion
      ⟨hpos, hstart, hmod, by dsimp only; omega, fun hne => absurd rfl hne, fun q k hq => Use.noConfusion hq⟩
      (fun hne => absurd rfl hne) ⟨rfl, rfl, rfl⟩ rfl rfl (fun q k hq => Use.noConfusion hq) fun _ _ => rfl
    exact ⟨_, hkept, ht.release hs.tagged hb fun s q k heq => by cases heq⟩
  · have hnear : ¬ (true = false ∨ p < b + header ∨ 2 ^ 20 < p - b) := by
      unfold header
      rintro (hn | hn | hn)
      · cases hn
      · omega
      · exact hfar hn
    rw [if_neg hnear, if_neg Bool.noConfusion, if_neg (by unfold minBlock; omega)]
    have hopen := hs.open_held hb Use.noConfusion Use.noConfusion
    dsimp only at hopen
    have hflag := hs.open_flag hb
    have hheld := ht.release hs.tagged hb (o := none) fun s q k heq => by cases heq
    obtain ⟨B₁, z, hmerge, hs₁, hle, hsame, hflag₁⟩ := hopen.mergeAfter (by omega)
    rw [show b + size - b = size by omega] at hmerge hs₁
    rw [hmerge, hflag, ← hflag₁]
    dsimp only
    generalize (h.mergeAfter b size).1 = h₁ at hs₁
    have hlive₁ := hheld.of_same hsame
    rcases flag_cases B₁ b with ⟨⟨c, u, hc, hfree, hend⟩, hf⟩ | ⟨-, hf⟩
    · rw [hf, if_pos rfl]
      have hcshape := hs₁.tagged.shape hc
      have hcblock := hcshape.block (kept_of_free hfree)
      have hfooter : h₁.previousSize b = u.size := by
        rw [← hs₁.tagged.footer hc hfree, hend]
        rfl
      obtain ⟨-, -, -, hmemory⟩ := hs₁.takeFree hc hfree
      have hleft := hs₁.take_left (by omega) hc hfree hend
      have hprev : (h₁.takeFree c u.size).head c &&& flagPrevInuse = flag (update B₁ c none) c := by
        rw [flag_remove hc (by omega)]
        refine prevInuse_of_head ?_ hcshape.size (flag_lt B₁ c)
        rw [hmemory c (hs₁.start_not_link hc)]
        exact hs₁.tagged.head hc fun _ => by omega
      rw [hfooter, show b - u.size = c by omega, hprev, show z - b + u.size = z - c by omega]
      refine ⟨_, hleft.makeFree ⟨hcshape.pos, hcshape.start⟩ (by omega), (hlive₁.of_same
        (SameHeld.update (fun s q k heq => ?_) fun _ _ _ heq => by cases heq)).of_same
        (SameHeld.update (fun s q k heq => ?_) fun _ _ _ heq => by cases heq)⟩
      · obtain rfl := some.inj (hc.symm.trans heq)
        cases hfree
      · rw [update_self] at heq
        cases heq
    · rw [if_neg (by rw [hf]; decide)]
      refine ⟨_, hs₁.makeFree ⟨hpos, hstart⟩ (by omega),
        hlive₁.of_same (SameHeld.update (fun s q k heq => ?_) fun _ _ _ heq => by cases heq)⟩
      rw [hs₁.hole_none (by omega)] at heq
      cases heq

theorem reallocInPlace {live : Nat → Option Nat} (ht : Tracks B live) {p n : Nat}
    (hlive : live p = some n) (newSize : Nat) : h.reallocInPlace p newSize = (false, h) ∨
      ((h.reallocInPlace p newSize).1 = true ∧
        Inv (h.reallocInPlace p newSize).2 (update live p (some newSize))) := by
  obtain ⟨b, size, hb⟩ := (ht p n).mp hlive
  have hshape := hs.tagged.shape hb
  have hblock := hshape.block Use.noConfusion
  have hstart := hshape.start
  have hpos := hshape.pos
  have hmod := hshape.size
  obtain ⟨hlo, hpmod, hhi, -⟩ := hshape.payload p n rfl
  have hsize := blockSize_of_head (hs.tile_head hb) hmod (flag_lt B b)
  dsimp only at hhi hblock hmod hsize
  have hopen := hs.open_held hb Use.noConfusion Use.noConfusion
  dsimp only at hopen
  obtain ⟨u, hu, husize, huinuse⟩ := hopen.stop_head (by omega)
  unfold BlockAllocator.reallocInPlace
  dsimp only
  rw [hs.tagged.pointer hb rfl, hsize, husize]
  by_cases hslack : newSize ≤ b + size - p
  · rw [if_pos hslack]
    -- the block has room as it is
    refine .inr ⟨rfl, _, hs.retag h (.held p newSize) hb Use.noConfusion Use.noConfusion ?_ (fun _ => ?_)
      ⟨rfl, rfl, rfl⟩ rfl rfl (fun q k hq => ?_) (fun _ _ => rfl), ht.hold hs.tagged hb (.inr ⟨n, rfl⟩) ⟨by omega, hhi⟩⟩
    · refine ⟨hpos, hstart, hmod, by dsimp only; omega, fun _ => hblock, fun q k hq => ?_⟩
      obtain ⟨rfl, rfl⟩ := Use.held.inj hq
      exact ⟨hlo, hpmod, hhi, by dsimp only; omega⟩
    · exact (hs.tagged.next hb Use.noConfusion).resolve_right fun hn => absurd hn.1 (by omega)
    · obtain ⟨rfl, -⟩ := Use.held.inj hq
      exact hs.tagged.pointer hb rfl
  rw [if_neg hslack]
  by_cases hused : h.isInuse (b + size) = true
  · rw [if_pos hused]
    exact .inl rfl
  rw [if_neg hused]
  by_cases hshort : b + size - p + u.size < alignUp newSize blockAlign
  · rw [if_pos hshort]
    exact .inl rfl
  · rw [if_neg hshort]
    have hfree : u.use = .free := by
      by_contra hne
      exact hused (huinuse.mpr hne)
    have hushape := hopen.tagged.shape hu
    have humod := hushape.size
    have hublock := hushape.block (kept_of_free hfree)
    have hround := le_alignUp blockAlign (by decide) newSize
    have hroundmod := alignUp_mod blockAlign newSize
    have hwanted : alignUp (p + newSize) blockAlign = p + alignUp newSize blockAlign := by
      unfold alignUp blockAlign
      omega
    unfold blockAlign at hround hroundmod
    obtain ⟨-, -, -, hmemory⟩ := hopen.takeFree hu hfree
    have htake := hopen.take_right (by omega) hu hfree
    have hprev : (h.takeFree (b + size) u.size).head b &&& flagPrevInuse =
        flag (update (update B b none) (b + size) none) b := by
      rw [flag_remove hu (by omega), ← hs.open_flag hb]
      exact congrArg (· &&& flagPrevInuse) (hmemory b (hopen.not_link ⟨by omega, by omega⟩))
    rw [hwanted]
    unfold blockAlign at hshort ⊢
    generalize htaken : (if minBlock ≤ size + u.size - (p + alignUp newSize 16 - b) then p + alignUp newSize 16 - b
      else size + u.size) = taken
    have hcases : 32 ≤ taken ∧ taken % 16 = 0 ∧
        (b + taken = b + size + u.size ∨ b + taken + 32 ≤ b + size + u.size) ∧ p + newSize ≤ b + taken ∧ p < b + taken := by
      unfold minBlock at htaken
      split at htaken <;> omega
    obtain ⟨hge, htmod, hle, hin, hplt⟩ := hcases
    obtain ⟨B', hs', hb', hnext, hsame, hkeep⟩ := htake.occupy ⟨hpos, hstart⟩ hprev ⟨hge, htmod⟩ hle
    rw [show b + size + u.size - b = size + u.size by omega] at hs' hkeep
    have hheld : Tracks B' (update live p none) := by
      refine ((ht.release hs.tagged hb (o := none) fun s q k heq => by cases heq).of_same
        (SameHeld.update (fun s q k heq => ?_) fun _ _ _ heq => by cases heq)).of_same hsame
      obtain rfl := some.inj (hu.symm.trans heq)
      cases hfree
    have hold := hheld.hold hs'.tagged hb' (p := p) (n := newSize) (.inl rfl) ⟨by omega, hplt⟩
    rw [update_idem] at hold
    refine .inr ⟨rfl, _, hs'.retag ((h.takeFree (b + size) u.size).occupy b (size + u.size) taken) (.held p newSize) hb' Use.noConfusion
      Use.noConfusion ?_ (fun _ => hnext) ⟨rfl, rfl, rfl⟩ rfl rfl (fun q k hq => ?_) (fun _ _ => rfl), hold⟩
    · refine ⟨hpos, hstart, htmod, by dsimp only; omega, fun _ => hge, fun q k hq => ?_⟩
      obtain ⟨rfl, rfl⟩ := Use.held.inj hq
      exact ⟨hlo, hpmod, hplt, hin⟩
    · obtain ⟨rfl, -⟩ := Use.held.inj hq
      rw [hkeep _ (by omega) (by omega), hmemory _ (hopen.not_link ⟨by omega, by omega⟩)]
      exact hs.tagged.pointer hb rfl

/-- A client writes what it holds. -/
theorem store {live : Nat → Option Nat} (ht : Tracks B live) {p n : Nat} (hlive : live p = some n)
    {memory : Nat → Nat} (hsame : ∀ a, ¬ (p ≤ a ∧ a < p + n) → memory a = h.memory a) :
    Inv { h with memory := memory } live := by
  obtain ⟨b, size, hb⟩ := (ht p n).mp hlive
  obtain ⟨hlo, -, hhi, hin⟩ := (hs.tagged.shape hb).payload p n rfl
  obtain ⟨L, hl⟩ := hs.listed
  refine ⟨B, ⟨hs.tagged.store hb rfl hsame, ⟨L, hl.congr rfl rfl fun c u hc hfree => ?_⟩, hs.housed⟩, ht⟩
  have hne : c ≠ b := by
    rintro rfl
    obtain rfl := some.inj (hb.symm.trans hc)
    cases hfree
  have hapart := hs.tagged.ne_apart hc hb hne
  dsimp only at hapart hin
  exact ⟨hsame _ (by omega), hsame _ (by omega)⟩

/-- A chunk that is free as a whole is its one block. -/
theorem wholeChunkFree {r : Nat × Nat} (hr : r ∈ h.chunks) {body size : Nat}
    (hwhole : h.wholeChunkFree r.1 r.2 = some (body, size)) :
    body = r.1 + 16 ∧ size = r.2 - 32 ∧ ∃ t, B body = some t ∧ t.use = .free ∧ t.size = size := by
  obtain ⟨hmod₁, hmod₂, hge⟩ := hs.housed.shape r hr
  unfold BlockAllocator.wholeChunkFree at hwhole
  dsimp only at hwhole
  rw [alignUp_of_mod hmod₁, show (r.1 + r.2) / blockAlign * blockAlign = r.1 + r.2 by unfold blockAlign; omega] at hwhole
  unfold fence minBlock at hwhole
  split_ifs at hwhole with hsmall hused
  obtain ⟨rfl, rfl⟩ := Prod.mk.inj (some.inj hwhole)
  obtain ⟨hfree, hsize⟩ := not_or.mp hused
  obtain ⟨t, ht⟩ := isSome_iff_exists.mp ((hs.housed.first r hr).resolve_right fun hn => absurd hn.1 (by omega))
  have htile := blockSize_of_head (hs.tile_head ht) (hs.tagged.shape ht).size (flag_lt B _)
  have hinuse := isInuse_of_head (hs.tile_head ht) (hs.tagged.shape ht).size (flag_lt B _)
  refine ⟨rfl, by omega, t, ht, ?_, ?_⟩
  · by_contra hne
    exact hfree (hinuse.mpr hne)
  · rw [← htile]
    exact not_not.mp hsize

theorem trimLoop {live : Nat → Option Nat} (ht : Tracks B live) (storage : Nat) {i : Nat}
    (hi : i ≤ h.chunks.length) (spare : Nat) (released : List (Nat × Nat)) :
    Inv (BlockAllocator.trimLoop storage i spare released h).2 live := by
  induction i generalizing h B spare released with
  | zero => exact ⟨B, hs, ht⟩
  | succ i ih =>
    have hlt : i < h.chunks.length := by omega
    unfold BlockAllocator.trimLoop
    dsimp only
    split_ifs with hfull hskip
    · exact ⟨B, hs, ht⟩
    · exact ih hs ht (by omega) spare released
    · split
      · exact ih hs ht (by omega) spare released
      · rename_i body size hwhole
        have hperm := perm_cons_eraseIdx hlt (0, 0)
        have hr : h.chunks.getD i (0, 0) ∈ h.chunks := hperm.mem_iff.mpr (mem_cons_self ..)
        have hshape := hs.housed.shape _ hr
        obtain ⟨rfl, hsize, t, hb, hfree, rfl⟩ := hs.wholeChunkFree hr hwhole
        obtain ⟨-, -, hsame, -⟩ := hs.takeFree hb hfree
        have htake := (hs.hole_at hb).take_right le_rfl hb hfree
        have hperm' : (h.takeFree ((h.chunks.getD i (0, 0)).1 + 16) t.size).chunks.Perm
            (h.chunks.getD i (0, 0) :: swapRemove h.chunks i) := by
          rw [hsame.chunks]
          exact hperm.trans ((swapRemove_perm hlt).symm.cons _)
        obtain ⟨B', hs', hheld⟩ := htake.dropChunk hperm' ⟨rfl, by omega⟩
        have ht' : Tracks B' live := by
          refine (ht.of_same (SameHeld.update (fun s q k heq => ?_) fun _ _ _ heq => by cases heq)).of_same hheld
          obtain rfl := some.inj (hb.symm.trans heq)
          cases hfree
        rw [hsame.chunks]
        refine ih hs' ht' ?_ _ _
        have hlen := (swapRemove_perm hlt).length_eq
        rw [length_eraseIdx_of_lt hlt] at hlen
        dsimp only
        omega

end

end Sound

end Heap

end HamixOS.Kernel

import HamixOS.Kernel.HeapLists
import Mathlib.Data.List.Pairwise

namespace HamixOS.Kernel

open Lib List Function Option

/-!
# What the operations of the heap do to its blocks

`Sound h B x y` says that the memory, the free lists and the chunks of `h` are those of the tiles `B`, with a hole from
`x` to `y`.

* `Sound.take_right`, `take_left`, `open_held` — blocks are taken out;
* `Sound.makeFree`, `occupy` — the hole is filled;
* `Sound.addChunk`, `dropChunk` — chunks come and go.
-/

namespace Heap

open BlockAllocator

variable {h h' : BlockAllocator} {B : Tiles} {b c x y z : Nat} {t u : Tile}

/-- The chunks are apart, and every tile lies in one of them. -/
structure Housed (chunks : List (Nat × Nat)) (lo hi : Nat) (B : Tiles) (x y : Nat) : Prop where
  ranges : Ranges lo hi chunks
  shape : ∀ r ∈ chunks, r.1 % 16 = 0 ∧ r.2 % 16 = 0 ∧ 64 ≤ r.2
  inside : ∀ {b t}, B b = some t → ∃ r ∈ chunks, r.1 + 16 ≤ b ∧ b + t.size ≤ r.1 + r.2
  first : ∀ r ∈ chunks, (B (r.1 + 16)).isSome ∨ (x < y ∧ x = r.1 + 16)
  hole : x < y → ∃ r ∈ chunks, r.1 + 16 ≤ x ∧ y ≤ r.1 + r.2

namespace Housed

variable {chunks : List (Nat × Nat)} {lo hi : Nat} {r q : Nat × Nat}

theorem apart (hh : Housed chunks lo hi B x y) (hr : r ∈ chunks) (hq : q ∈ chunks) (hne : r ≠ q) : Apart r q :=
  have : Std.Symm Apart := ⟨fun _ _ => Apart.symm⟩
  hh.ranges.apart.forall hr hq hne

theorem eq_of_common (hh : Housed chunks lo hi B x y) (hr : r ∈ chunks) (hq : q ∈ chunks) {a : Nat}
    (har : r.1 ≤ a ∧ a < r.1 + r.2) (haq : q.1 ≤ a ∧ a < q.1 + q.2) : r = q := by
  by_contra hne
  exact (hh.apart hr hq hne).not_mem har haq

theorem hole_at (hh : Housed chunks lo hi B 0 0) (b : Nat) : Housed chunks lo hi B b b where
  ranges := hh.ranges
  shape := hh.shape
  inside := hh.inside
  first r hr := (hh.first r hr).imp_right fun hn => absurd hn.1 (by omega)
  hole hlt := absurd hlt (by omega)

theorem close (hh : Housed chunks lo hi B x x) : Housed chunks lo hi B 0 0 where
  ranges := hh.ranges
  shape := hh.shape
  inside := hh.inside
  first r hr := (hh.first r hr).imp_right fun hn => absurd hn.1 (by omega)
  hole hlt := absurd hlt (by omega)

section

variable (hh : Housed chunks lo hi B x y)

include hh

/-- The tile after the hole joins it. -/
theorem extend_right (hxy : x ≤ y) (hy : B y = some t) (hfence : 16 ≤ t.size) :
    Housed chunks lo hi (update B y none) x (y + t.size) where
  ranges := hh.ranges
  shape := hh.shape
  inside hb := hh.inside (update_none hb).2
  first r hr := by
    rcases hh.first r hr with hsome | ⟨hlt, heq⟩
    · by_cases hry : r.1 + 16 = y
      · rcases Nat.lt_or_eq_of_le hxy with hlt | rfl
        · obtain ⟨q, hq, hlo, hhi⟩ := hh.hole hlt
          have := hh.eq_of_common hr hq (a := r.1 + 15) (by have := hh.shape r hr; omega) (by omega)
          subst this
          omega
        · exact .inr ⟨by omega, hry.symm⟩
      · rw [update_of_ne hry]
        exact .inl hsome
    · exact .inr ⟨by omega, heq⟩
  hole _ := by
    obtain ⟨r, hr, hlo, hhi⟩ := hh.inside hy
    rcases Nat.lt_or_eq_of_le hxy with hlt | rfl
    · obtain ⟨q, hq, hlo', hhi'⟩ := hh.hole hlt
      have := hh.eq_of_common hr hq (a := y - 1) (by omega) (by omega)
      subst this
      exact ⟨r, hr, hlo', hhi⟩
    · exact ⟨r, hr, hlo, hhi⟩

/-- The tile before the hole joins it. -/
theorem extend_left (hxy : x < y) (hc : B c = some t) (hfence : 16 ≤ t.size)
    (hend : c + t.size = x) : Housed chunks lo hi (update B c none) c y where
  ranges := hh.ranges
  shape := hh.shape
  inside hb := hh.inside (update_none hb).2
  first r hr := by
    obtain ⟨q, hq, hlo, hhi⟩ := hh.inside hc
    rcases hh.first r hr with hsome | ⟨hlt, heq⟩
    · by_cases hrc : r.1 + 16 = c
      · exact .inr ⟨by omega, hrc.symm⟩
      · rw [update_of_ne hrc]
        exact .inl hsome
    · have := hh.eq_of_common hr hq (a := r.1 + 15) (by have := hh.shape r hr; omega) (by omega)
      subst this
      omega
  hole _ := by
    obtain ⟨r, hr, hlo, hhi⟩ := hh.inside hc
    obtain ⟨q, hq, hlo', hhi'⟩ := hh.hole hxy
    have := hh.eq_of_common hr hq (a := x - 1) (by omega) (by omega)
    subst this
    exact ⟨r, hr, hlo, hhi'⟩

/-- A tile is put at the front of the hole. -/
theorem fill (hz : x < z ∧ z ≤ y) (hsize : t.size = z - x) :
    Housed chunks lo hi (update B x (some t)) z y where
  ranges := hh.ranges
  shape := hh.shape
  inside hb := by
    rcases update_some hb with ⟨rfl, rfl⟩ | ⟨-, hb⟩
    · obtain ⟨r, hr, hlo, hhi⟩ := hh.hole (by omega)
      exact ⟨r, hr, hlo, by omega⟩
    · exact hh.inside hb
  first r hr := by
    left
    by_cases hrx : r.1 + 16 = x
    · rw [hrx, update_self]
      rfl
    · rw [update_of_ne hrx]
      exact (hh.first r hr).resolve_right fun hn => hrx hn.2.symm
  hole hlt := by
    obtain ⟨r, hr, hlo, hhi⟩ := hh.hole (by omega)
    exact ⟨r, hr, by omega, hhi⟩

end

theorem retag (hh : Housed chunks lo hi B 0 0) (hb : B b = some t) (hsize : u.size = t.size) :
    Housed chunks lo hi (update B b (some u)) 0 0 where
  ranges := hh.ranges
  shape := hh.shape
  inside hc := by
    rcases update_some hc with ⟨rfl, rfl⟩ | ⟨-, hc⟩
    · rw [hsize]
      exact hh.inside hb
    · exact hh.inside hc
  first r hr := by
    left
    by_cases hrb : r.1 + 16 = b
    · rw [hrb, update_self]
      rfl
    · rw [update_of_ne hrb]
      exact (hh.first r hr).resolve_right fun hn => absurd hn.1 (by omega)
  hole hlt := absurd hlt (by omega)

/-- A chunk comes with a fence at its end, and the rest of it is a hole. -/
theorem add (hh : Housed chunks lo hi B 0 0) {base size : Nat} (hshape : base % 16 = 0 ∧ size % 16 = 0 ∧ 64 ≤ size)
    (hapart : ∀ r ∈ chunks, Apart (base, size) r) :
    Housed (chunks ++ [(base, size)]) (min lo base) (max hi (base + size))
      (update B (base + size - 16) (some ⟨16, .kept⟩)) (base + 16) (base + size - 16) where
  ranges := by
    refine ⟨fun r hr => ?_, ?_⟩
    · rcases mem_append.mp hr with hr | hr
      · have := hh.ranges.inside r hr
        omega
      · obtain rfl := mem_singleton.mp hr
        omega
    · refine pairwise_append.mpr ⟨hh.ranges.apart, pairwise_singleton _ _, fun r hr q hq => ?_⟩
      obtain rfl := mem_singleton.mp hq
      exact (hapart r hr).symm
  shape r hr := by
    rcases mem_append.mp hr with hr | hr
    · exact hh.shape r hr
    · obtain rfl := mem_singleton.mp hr
      exact hshape
  inside hb := by
    rcases update_some hb with ⟨rfl, rfl⟩ | ⟨-, hb⟩
    · exact ⟨(base, size), mem_append_right _ (mem_singleton_self _), by dsimp only; omega, by dsimp only; omega⟩
    · obtain ⟨r, hr, hin⟩ := hh.inside hb
      exact ⟨r, mem_append_left _ hr, hin⟩
  first r hr := by
    rcases mem_append.mp hr with hr | hr
    · left
      have hsome := (hh.first r hr).resolve_right fun hn => absurd hn.1 (by omega)
      by_cases heq : r.1 + 16 = base + size - 16
      · rw [heq, update_self]
        rfl
      · rwa [update_of_ne heq]
    · obtain rfl := mem_singleton.mp hr
      exact .inr ⟨by omega, rfl⟩
  hole _ := ⟨(base, size), mem_append_right _ (mem_singleton_self _), le_refl _, by dsimp only; omega⟩

/-- The tiles lie in the chunk, or apart from it. -/
theorem inside_or_apart (hh : Housed chunks lo hi B x y) (hr : r ∈ chunks) (hb : B b = some t) :
    (r.1 + 16 ≤ b ∧ b + t.size ≤ r.1 + r.2) ∨ b + t.size ≤ r.1 ∨ r.1 + r.2 + 16 ≤ b := by
  obtain ⟨q, hq, hlo, hhi⟩ := hh.inside hb
  by_cases hqr : r = q
  · subst hqr
    exact .inl ⟨hlo, hhi⟩
  · have := hh.apart hr hq hqr
    unfold Apart at this
    omega

open Classical in
/-- A chunk goes with its tiles. -/
theorem drop (hh : Housed chunks lo hi B x y) {chunks' : List (Nat × Nat)} (hperm : chunks.Perm (r :: chunks'))
    (hhole : r.1 + 16 ≤ x ∧ x < r.1 + r.2) (hfence : ∀ {b t}, B b = some t → 16 ≤ t.size) :
    Housed chunks' lo hi (fun b => if r.1 + 16 ≤ b ∧ b < r.1 + r.2 then none else B b) 0 0 where
  ranges := by
    have hranges := hh.ranges.of_perm hperm
    exact ⟨fun q hq => hranges.inside q (mem_cons_of_mem _ hq), (pairwise_cons.mp hranges.apart).2⟩
  shape q hq := hh.shape q (hperm.mem_iff.mpr (mem_cons_of_mem _ hq))
  inside {b t} hb := by
    split at hb
    · cases hb
    · rename_i hout
      obtain ⟨q, hq, hlo, hhi⟩ := hh.inside hb
      have := hfence hb
      rcases mem_cons.mp (hperm.mem_iff.mp hq) with rfl | hq
      · omega
      · exact ⟨q, hq, hlo, hhi⟩
  first q hq := by
    left
    have hapart := (pairwise_cons.mp (hh.ranges.of_perm hperm).apart).1 q hq
    have hmem := hperm.mem_iff.mpr (mem_cons_of_mem r hq)
    have hshape := hh.shape q hmem
    unfold Apart at hapart
    rw [if_neg (by omega)]
    exact (hh.first q hmem).resolve_right fun hn => by omega
  hole hlt := absurd hlt (by omega)

end Housed

/-! ### The chunks stay -/

structure SameChunks (h h' : BlockAllocator) : Prop where
  chunks : h'.chunks = h.chunks
  lo : h'.lo = h.lo
  hi : h'.hi = h.hi

namespace BlockAllocator

theorem sameChunks_linkFree (h : BlockAllocator) (block size : Nat) : SameChunks h (h.linkFree block size) := by
  unfold linkFree
  dsimp only
  split_ifs <;> exact ⟨rfl, rfl, rfl⟩

theorem sameChunks_spliceOut (h : BlockAllocator) (bin next prev : Nat) : SameChunks h (h.spliceOut bin next prev) := by
  unfold spliceOut
  dsimp only
  split_ifs <;> exact ⟨rfl, rfl, rfl⟩

theorem sameChunks_makeFree (h : BlockAllocator) (block size f : Nat) : SameChunks h (h.makeFree block size f) := by
  have hlink := sameChunks_linkFree (h.tagFree block size f) block size
  exact ⟨hlink.chunks, hlink.lo, hlink.hi⟩

/-- The words that `make_free` writes but for the links. -/
theorem tagFree_memory (h : BlockAllocator) {x size : Nat} (f : Nat) (hsize : 32 ≤ size) :
    (h.tagFree x size f).memory x = size ||| f ∧ (h.tagFree x size f).memory (x + size - 8) = size ∧
      (h.tagFree x size f).memory (x + size) = h.memory (x + size) - (h.memory (x + size) &&& 2) ∧
      ∀ a, a ≠ x → a ≠ x + size - 8 → a ≠ x + size → (h.tagFree x size f).memory a = h.memory a := by
  have hfirst : ∀ a, a ≠ x → a ≠ x + size - 8 → ((h.setHead x (size ||| f)).writeFooter x size).memory a = h.memory a :=
    fun a hx hy => (update_of_ne hy ..).trans (update_of_ne hx ..)
  refine ⟨?_, ?_, ?_, fun a hx hy hz => (update_of_ne hz ..).trans (hfirst a hx hy)⟩
  · refine (update_of_ne (by omega) ..).trans ((update_of_ne (by omega) ..).trans ?_)
    exact update_self ..
  · exact (update_of_ne (by omega) ..).trans (update_self ..)
  · refine (update_self ..).trans ?_
    rw [show ((h.setHead x (size ||| f)).writeFooter x size).head (x + size) = h.memory (x + size) from
      hfirst _ (by omega) (by omega)]
    rfl

end BlockAllocator

/-! ### Taking blocks -/

/-- The blocks that are held are the same ones. -/
def SameHeld (B B' : Tiles) : Prop := ∀ c s p n, B' c = some ⟨s, .held p n⟩ ↔ B c = some ⟨s, .held p n⟩

theorem SameHeld.trans {B₁ B₂ B₃ : Tiles} (h : SameHeld B₁ B₂) (h' : SameHeld B₂ B₃) : SameHeld B₁ B₃ :=
  fun c s p n => (h' c s p n).trans (h c s p n)

theorem SameHeld.update {o : Option Tile} (hold : ∀ s p n, B c ≠ some ⟨s, .held p n⟩) (hnew : ∀ s p n, o ≠ some ⟨s, .held p n⟩) :
    SameHeld B (update B c o) := by
  intro d s p n
  by_cases hd : d = c
  · subst hd
    rw [update_self]
    exact ⟨fun heq => absurd heq (hnew s p n), fun heq => absurd heq (hold s p n)⟩
  · rw [update_of_ne hd]

structure Sound (h : BlockAllocator) (B : Tiles) (x y : Nat) : Prop where
  tagged : Tagged h.memory B x y
  listed : ∃ L, Listed h B L
  housed : Housed h.chunks h.lo h.hi B x y

namespace Sound

theorem bounds (hs : Sound h B x y) (hb : B b = some t) : h.lo ≤ b ∧ b + t.size ≤ h.hi := by
  obtain ⟨r, hr, hlo, hhi⟩ := hs.housed.inside hb
  have := hs.housed.ranges.inside r hr
  omega

theorem isPlausible (hs : Sound h B x y) (hb : B b = some t) (hkept : t.use ≠ .kept) : h.isPlausible b = true := by
  have := hs.bounds hb
  have hshape := hs.tagged.shape hb
  have := hshape.block hkept
  have := hshape.start
  unfold BlockAllocator.isPlausible blockAlign minBlock
  exact decide_eq_true (by omega)

theorem kept_of_free (hfree : t.use = .free) : t.use ≠ .kept := by
  rw [hfree]
  exact Use.noConfusion

/-- A free block is taken out of its list; only links are written. -/
theorem takeFree (hs : Sound h B x y) (hb : B b = some t) (hfree : t.use = .free) :
    Tagged (h.takeFree b t.size).memory B x y ∧ (∃ L, Listed (h.takeFree b t.size) (update B b none) L) ∧
      SameChunks h (h.takeFree b t.size) ∧
      ∀ a, (∀ c u, B c = some u → u.use = .free → a ≠ c + 8 ∧ a ≠ c + 16) → (h.takeFree b t.size).memory a = h.memory a := by
  obtain ⟨L, hl⟩ := hs.listed
  have hsane : ∀ c u, B c = some u → u.use = .free → h.isPlausible c = true := fun c u hc hu =>
    hs.isPlausible hc (kept_of_free hu)
  obtain ⟨L', hl'⟩ := hl.unlinkFree hs.tagged.shape hsane hb hfree
  have hmemory : ∀ a, (∀ c u, B c = some u → u.use = .free → a ≠ c + 8 ∧ a ≠ c + 16) →
      (h.takeFree b t.size).memory a = h.memory a := fun a ha => hl.unlinkFree_memory hsane hb hfree ha
  refine ⟨hs.tagged.congr_links hmemory, ⟨L', hl'.congr rfl rfl fun _ _ _ _ => ⟨rfl, rfl⟩⟩, ?_, hmemory⟩
  have hsplice := BlockAllocator.sameChunks_spliceOut h (binFor t.size) (h.nextLink b) (h.prevLink b)
  rw [← hl.unlinkFree_eq hsane hb hfree] at hsplice
  exact ⟨hsplice.chunks, hsplice.lo, hsplice.hi⟩

theorem of_same (hsame : SameChunks h h') {B' : Tiles} (hh : Housed h.chunks h.lo h.hi B' x y) :
    Housed h'.chunks h'.lo h'.hi B' x y := by
  rw [hsame.chunks, hsame.lo, hsame.hi]
  exact hh

/-- The free block after the hole, or a free block on its own, is taken. -/
theorem take_right (hs : Sound h B x y) (hxy : x ≤ y) (hy : B y = some t) (hfree : t.use = .free) :
    Sound (h.takeFree y t.size) (update B y none) x (y + t.size) := by
  obtain ⟨htagged, hlisted, hsame, -⟩ := hs.takeFree hy hfree
  exact ⟨htagged.extend_right hxy hy (kept_of_free hfree), hlisted,
    of_same hsame (hs.housed.extend_right hxy hy (hs.tagged.shape hy).fence)⟩

/-- The free block before the hole is taken. -/
theorem take_left (hs : Sound h B x y) (hxy : x < y) (hc : B c = some t) (hfree : t.use = .free) (hend : c + t.size = x) :
    Sound (h.takeFree c t.size) (update B c none) c y := by
  obtain ⟨htagged, hlisted, hsame, -⟩ := hs.takeFree hc hfree
  exact ⟨htagged.extend_left hxy hc hend, hlisted,
    of_same hsame (hs.housed.extend_left hxy hc (hs.tagged.shape hc).fence hend)⟩

/-- A block that is held becomes a hole. -/
theorem open_held (hs : Sound h B 0 0) (hb : B b = some t) (hfree : t.use ≠ .free) (hkept : t.use ≠ .kept) :
    Sound h (update B b none) b (b + t.size) := by
  obtain ⟨L, hl⟩ := hs.listed
  refine ⟨(hs.tagged.hole_at hb).extend_right le_rfl hb hkept,
    ⟨L, ⟨hl.linked, hl.first, hl.marked, hl.nodup, fun k c => ?_⟩⟩,
    (hs.housed.hole_at b).extend_right le_rfl hb (hs.tagged.shape hb).fence⟩
  rw [hl.mem]
  by_cases hcb : c = b
  · subst hcb
    rw [update_self]
    refine ⟨fun ⟨u, hu, hu', _⟩ => ?_, fun ⟨u, hu, _⟩ => (nomatch hu)⟩
    obtain rfl := some.inj (hb.symm.trans hu)
    exact absurd hu' hfree
  · rw [update_of_ne hcb]

theorem hole_at (hs : Sound h B 0 0) (hb : B b = some t) : Sound h B b b :=
  ⟨hs.tagged.hole_at hb, hs.listed, hs.housed.hole_at b⟩

/-! ### Filling the hole -/

section

variable (hs : Sound h B x y)

include hs

theorem ne_hole {o : Tile} (hlt : x < y) (hb : B b = some o) : b ≠ x := by
  rintro rfl
  have := hs.tagged.outside hb
  have := (hs.tagged.shape hb).fence
  omega

theorem hole_none (hlt : x < y) : B x = none := by
  cases hbx : B x with
  | none => rfl
  | some o => exact absurd rfl (hs.ne_hole hlt hbx)

/-- The word at the start of a hole, or in it behind its second word, is no link of a free block. -/
theorem not_link {a : Nat} (ha : x ≤ a ∧ a < y) :
    ∀ c u, B c = some u → u.use = .free → a ≠ c + 8 ∧ a ≠ c + 16 := by
  intro c u hc hu
  have := hs.tagged.outside hc
  have := (hs.tagged.shape hc).block (kept_of_free hu)
  omega

/-- The tags of the new free block are no links. -/
theorem listed_tagFree (hlen : x + 32 ≤ y) {L : Nat → List Nat} (hl : Listed h B L) :
    Listed (h.tagFree x (y - x) (flag B x)) B L := by
  obtain ⟨-, -, -, hother⟩ := BlockAllocator.tagFree_memory h (x := x) (flag B x) (by omega : 32 ≤ y - x)
  obtain ⟨u, hu, -⟩ := hs.tagged.stop (by omega)
  have hsum : x + (y - x) = y := by omega
  rw [hsum] at hother
  refine hl.congr rfl rfl fun c v hc hfree => ?_
  have hout := hs.tagged.outside hc
  have hblock := (hs.tagged.shape hc).block (kept_of_free hfree)
  refine ⟨hother _ (by omega) (by omega) (by omega), hother _ (by omega) (by omega) ?_⟩
  by_cases hne : c = y
  · omega
  · have := hs.tagged.ne_apart hc hu hne
    omega

/-- Before the hole only links of free blocks are written. -/
theorem makeFree_memory (hlen : x + 32 ≤ y) {a : Nat} (hax : a < x)
    (ha : ∀ c u, B c = some u → u.use = .free → a ≠ c + 8 ∧ a ≠ c + 16) :
    (h.makeFree x (y - x) (flag B x)).memory a = h.memory a := by
  obtain ⟨L, hl⟩ := hs.listed
  obtain ⟨-, -, -, hother⟩ := BlockAllocator.tagFree_memory h (x := x) (flag B x) (by omega : 32 ≤ y - x)
  refine ((hs.listed_tagFree hlen hl).linkFree_memory fun c u hc hfree => ?_).trans
    (hother a (by omega) (by omega) (by omega))
  rcases update_some hc with ⟨rfl, rfl⟩ | ⟨-, hc⟩
  · omega
  · exact ha c u hc hfree

/-- The hole becomes a free block. -/
theorem makeFree (hx : 0 < x ∧ x % 16 = 0) (hlen : x + 32 ≤ y) :
    Sound (h.makeFree x (y - x) (flag B x)) (update B x (some ⟨y - x, .free⟩)) 0 0 := by
  obtain ⟨L, hl⟩ := hs.listed
  obtain ⟨u, hu, hyhead⟩ := hs.tagged.stop (by omega)
  have hushape := hs.tagged.shape hu
  have hustart := hushape.start
  have hysize := hushape.size
  have hbit := bit_le u.use
  have hflag := flag_lt B x
  obtain ⟨hatx, hfooter, haty, hother⟩ := BlockAllocator.tagFree_memory h (x := x) (flag B x) (by omega : 32 ≤ y - x)
  have hsum : x + (y - x) = y := by omega
  rw [hsum] at hfooter haty hother
  have hshape : Tile.Shape x ⟨y - x, .free⟩ :=
    ⟨hx.1, hx.2, by dsimp only; omega, by dsimp only; omega, fun _ => by dsimp only; omega, fun p n hp => Use.noConfusion hp⟩
  have htagged : Tagged (h.tagFree x (y - x) (flag B x)).memory (update B x (some ⟨y - x, .free⟩)) y y := by
    refine hs.tagged.fill ⟨by omega, le_refl _⟩ hshape rfl (.inl rfl) (fun hlt => absurd hlt (lt_irrefl _)) ?_
      (fun _ => hfooter) (fun v hv => ?_) hother
    · rw [hatx, or_flags (by omega) (by omega)]
      rfl
    · obtain rfl := some.inj (hu.symm.trans hv)
      rw [if_pos rfl, haty, and_two, show (Use.free).bit = 0 from rfl]
      omega
  have hl₁ := hs.listed_tagFree hlen hl
  have hlink := hl₁.linkFree hs.tagged.shape (hs.hole_none (by omega)) hx (y - x)
  exact ⟨(htagged.congr_links fun a ha => hl₁.linkFree_memory ha).close, ⟨_, hlink.congr rfl rfl fun _ _ _ _ => ⟨rfl, rfl⟩⟩,
    of_same (BlockAllocator.sameChunks_makeFree h x (y - x) (flag B x)) (hs.housed.fill ⟨by omega, le_refl _⟩ rfl).close⟩

/-- The front of the hole becomes a block in use. -/
theorem keep_part (hx : 0 < x ∧ x % 16 = 0) (hz : x + 32 ≤ z ∧ z < y ∧ z % 16 = 0) :
    Sound (h.setHead x (z - x ||| flagInuse ||| flag B x)) (update B x (some ⟨z - x, .kept⟩)) z y := by
  obtain ⟨L, hl⟩ := hs.listed
  have hshape : Tile.Shape x ⟨z - x, .kept⟩ :=
    ⟨hx.1, hx.2, by dsimp only; omega, by dsimp only; omega, fun hne => absurd rfl hne, fun p n hp => Use.noConfusion hp⟩
  have hother : ∀ a, a ≠ x → (h.setHead x (z - x ||| flagInuse ||| flag B x)).memory a = h.memory a :=
    fun a ha => update_of_ne ha ..
  refine ⟨hs.tagged.fill ⟨by omega, by omega⟩ hshape rfl (.inr rfl) (fun _ => rfl) ?_ (fun hfree => (nomatch hfree))
      (fun u _ => ?_) fun a hax _ _ => hother a hax, ⟨L, ?_⟩, hs.housed.fill ⟨by omega, by omega⟩ rfl⟩
  · refine (update_self ..).trans ?_
    exact or_inuse (by omega) (flag_lt B x)
  · rw [if_neg (by omega)]
    exact hother y (by omega)
  · refine (hl.update_kept (hs.hole_none (by omega)) rfl).congr rfl rfl fun c v hc hfree => ?_
    rcases update_some hc with ⟨rfl, rfl⟩ | ⟨-, hc⟩
    · cases hfree
    · have := hs.not_link (a := x) (by omega) c v hc hfree
      exact ⟨hother _ this.1.symm, hother _ this.2.symm⟩

/-- The whole hole becomes a block in use. -/
theorem keep (hx : 0 < x ∧ x % 16 = 0) (hlen : x + 32 ≤ y) :
    Sound ((h.setHead x (y - x ||| flagInuse ||| flag B x)).setHead y (h.head y ||| flagPrevInuse))
      (update B x (some ⟨y - x, .kept⟩)) 0 0 := by
  obtain ⟨L, hl⟩ := hs.listed
  obtain ⟨u, hu, hyhead⟩ := hs.tagged.stop (by omega)
  have hustart := (hs.tagged.shape hu).start
  have husize := (hs.tagged.shape hu).size
  have hbit := bit_le u.use
  have hflag := flag_lt B x
  have hshape : Tile.Shape x ⟨y - x, .kept⟩ :=
    ⟨hx.1, hx.2, by dsimp only; omega, by dsimp only; omega, fun hne => absurd rfl hne, fun p n hp => Use.noConfusion hp⟩
  have hother : ∀ a, a ≠ x → a ≠ y →
      ((h.setHead x (y - x ||| flagInuse ||| flag B x)).setHead y (h.head y ||| flagPrevInuse)).memory a = h.memory a :=
    fun a hax hay => (update_of_ne hay ..).trans (update_of_ne hax ..)
  have htagged : Tagged ((h.setHead x (y - x ||| flagInuse ||| flag B x)).setHead y (h.head y ||| flagPrevInuse)).memory
      (update B x (some ⟨y - x, .kept⟩)) y y :=
    hs.tagged.fill ⟨by omega, le_refl _⟩ hshape rfl (.inr rfl) (fun hlt => absurd hlt (lt_irrefl _)) ?_ (fun hfree => (nomatch hfree))
      (fun v hv => ?_) fun a hax _ hay => hother a hax hay
  · refine ⟨htagged.close, ⟨L, ?_⟩, (hs.housed.fill ⟨by omega, le_refl _⟩ rfl).close⟩
    refine (hl.update_kept (hs.hole_none (by omega)) rfl).congr rfl rfl fun c v hc hfree => ?_
    rcases update_some hc with ⟨rfl, rfl⟩ | ⟨-, hc⟩
    · cases hfree
    · have hc16 := (hs.tagged.shape hc).start
      have := hs.not_link (a := x) (by omega) c v hc hfree
      have hout := hs.tagged.outside hc
      have hblock := (hs.tagged.shape hc).block (kept_of_free hfree)
      refine ⟨hother _ this.1.symm (by omega), hother _ this.2.symm ?_⟩
      by_cases hne : c = y
      · omega
      · have := hs.tagged.ne_apart hc hu hne
        omega
  · refine (update_of_ne (by omega) ..).trans ((update_self ..).trans ?_)
    exact or_inuse (by omega) (flag_lt B x)
  · obtain rfl := some.inj (hu.symm.trans hv)
    rw [if_pos rfl]
    refine (update_self ..).trans ?_
    obtain ⟨hset, hagain⟩ := or_two husize (by omega : u.use.bit < 2)
    unfold BlockAllocator.head flagPrevInuse
    rcases hyhead with hm | hm <;> rw [hm]
    · exact hset
    · exact hagain

/-- Of the hole, the front becomes a block in use and the rest is free again. -/
theorem occupy (hx : 0 < x ∧ x % 16 = 0) (hprev : h.head x &&& flagPrevInuse = flag B x) {taken : Nat}
    (htaken : 32 ≤ taken ∧ taken % 16 = 0) (hle : x + taken = y ∨ x + taken + 32 ≤ y) :
    ∃ B', Sound (h.occupy x (y - x) taken) B' 0 0 ∧ B' x = some ⟨taken, .kept⟩ ∧ (B' (x + taken)).isSome ∧ SameHeld B B' ∧
      ∀ a, x < a → a < x + taken → (h.occupy x (y - x) taken).memory a = h.memory a := by
  have hnone := hs.hole_none (by omega)
  have hheld : ∀ {s}, SameHeld B (update B x (some ⟨s, .kept⟩)) := by
    refine fun {s} => SameHeld.update (fun _ _ _ heq => ?_) fun _ _ _ heq => by cases heq
    rw [hnone] at heq
    cases heq
  unfold BlockAllocator.occupy
  dsimp only
  rw [hprev]
  rcases hle with rfl | hle
  · have hsize : x + taken - x = taken := by omega
    have hkeep := hs.keep hx (by omega)
    obtain ⟨u, hu, -⟩ := hs.tagged.stop (by omega)
    rw [hsize] at hkeep ⊢
    rw [if_neg (fun hne => hne rfl), show (h.setHead x (taken ||| flagInuse ||| flag B x)).head (x + taken) = h.head (x + taken)
      from update_of_ne (by omega) ..]
    refine ⟨_, hkeep, update_self .., ?_, hheld, fun a hxa hay => ?_⟩
    · rw [update_of_ne (by omega), hu]
      rfl
    · exact (update_of_ne (by omega) ..).trans (update_of_ne (by omega) ..)
  · have hpart := hs.keep_part hx (z := x + taken) ⟨by omega, by omega, by omega⟩
    rw [show x + taken - x = taken by omega] at hpart
    have hflag : flag (update B x (some ⟨taken, .kept⟩)) (x + taken) = flagPrevInuse := by
      rcases flag_cases (update B x (some ⟨taken, .kept⟩)) (x + taken) with ⟨⟨c, v, hc, hfree, hend⟩, -⟩ | ⟨-, hf⟩
      · rcases update_some hc with ⟨rfl, rfl⟩ | ⟨-, hc⟩
        · cases hfree
        · have := hs.tagged.outside hc
          have := (hs.tagged.shape hc).fence
          omega
      · exact hf
    have hlen : x + taken + 32 ≤ y := hle
    have hmake := hpart.makeFree ⟨by omega, by omega⟩ hlen
    have hmemory := fun {a} => hpart.makeFree_memory hlen (a := a)
    rw [hflag, show y - (x + taken) = y - x - taken by omega] at hmake hmemory
    rw [if_pos (by omega : taken ≠ y - x)]
    refine ⟨_, hmake, ?_, ?_, hheld.trans (SameHeld.update (fun s p n heq => ?_) fun s p n heq => by cases heq),
      fun a hxa hay => ?_⟩
    · rw [update_of_ne (by omega), update_self]
    · rw [update_self]
      rfl
    · rw [hpart.hole_none (by omega)] at heq
      cases heq
    · refine (hmemory hay fun c u hc hfree => ?_).trans (update_of_ne (by omega) ..)
      rcases update_some hc with ⟨rfl, rfl⟩ | ⟨-, hc⟩
      · cases hfree
      · exact hs.not_link ⟨by omega, by omega⟩ c u hc hfree

end

/-- A block that is not free is put to another use. -/
theorem retag (hs : Sound h B 0 0) (h' : BlockAllocator) {size : Nat} {use : Use} (use' : Use) (hb : B b = some ⟨size, use⟩) (huse : use ≠ .free)
    (huse' : use' ≠ .free) (hshape : Tile.Shape b ⟨size, use'⟩) (hnext : use' ≠ .kept → (B (b + size)).isSome)
    (hchunks : SameChunks h h') (hbins : h'.bins = h.bins) (hbitmap : h'.bitmap = h.bitmap)
    (hptr : ∀ p n, use' = .held p n → h'.memory (p - 8) = b)
    (hsame : ∀ a, (∀ p n, use' = .held p n → a ≠ p - 8) → h'.memory a = h.memory a) :
    Sound h' (update B b (some ⟨size, use'⟩)) 0 0 := by
  obtain ⟨L, hl⟩ := hs.listed
  refine ⟨hs.tagged.retag hb huse huse' hshape hnext hptr hsame, ⟨L, ?_⟩, of_same hchunks (hs.housed.retag hb rfl)⟩
  have hold : Listed h (update B b (some ⟨size, use'⟩)) L := by
    refine ⟨hl.linked, hl.first, hl.marked, hl.nodup, fun k c => ?_⟩
    rw [hl.mem]
    by_cases hcb : c = b
    · subst hcb
      rw [update_self, hb]
      constructor
      · rintro ⟨u, hu, hfree, -⟩
        obtain rfl := some.inj hu
        exact absurd hfree huse
      · rintro ⟨u, hu, hfree, -⟩
        obtain rfl := some.inj hu
        exact absurd hfree huse'
    · rw [update_of_ne hcb]
  refine hold.congr hbins hbitmap fun c v hc hfree => ?_
  rcases update_some hc with ⟨rfl, rfl⟩ | ⟨hcb, hc⟩
  · exact absurd hfree huse'
  · have hblock := (hs.tagged.shape hc).block (kept_of_free hfree)
    have hapart := hs.tagged.ne_apart hc hb hcb
    dsimp only at hapart
    constructor <;> refine hsame _ fun p n hp => ?_
    · obtain ⟨hlo, -, hhi, -⟩ := hshape.payload p n hp
      dsimp only at hhi
      omega
    · obtain ⟨hlo, -, hhi, -⟩ := hshape.payload p n hp
      dsimp only at hhi
      omega

/-! ### Chunks -/

theorem alignUp_of_mod {n : Nat} (hn : n % 16 = 0) : alignUp n blockAlign = n := by
  unfold alignUp blockAlign
  omega

/-- A new chunk, apart from the other ones, is a free block. -/
theorem addChunk (hs : Sound h B 0 0) {base size : Nat} (hshape : base % 16 = 0 ∧ size % 16 = 0 ∧ 64 ≤ size)
    (hapart : ∀ r ∈ h.chunks, Apart (base, size) r) (hroom : ¬ maxChunks ≤ h.chunks.length) :
    ∃ B', Sound (h.addChunk base size).2 B' 0 0 ∧ SameHeld B B' ∧ B' (base + 16) = some ⟨size - 32, .free⟩ ∧
      (h.addChunk base size).2.bins (binFor (size - 32)) = base + 16 ∧
      (h.addChunk base size).2.bitmap (binFor (size - 32)) = true := by
  obtain ⟨L, hl⟩ := hs.listed
  let h₁ : BlockAllocator :=
    { h with chunks := h.chunks ++ [(base, size)], lo := min h.lo base, hi := max h.hi (base + size) }
  let h₂ := (h₁.setHead base (fence ||| flagInuse ||| flagPrevInuse)).setHead (base + size - fence) (fence ||| flagInuse)
  have hadd : (h.addChunk base size).2 = h₂.makeFree (base + 16) (base + size - 16 - (base + 16)) flagPrevInuse := by
    unfold BlockAllocator.addChunk
    rw [if_neg hroom]
    unfold insertRegion
    dsimp only
    rw [alignUp_of_mod hshape.1, show (base + size) / blockAlign * blockAlign = base + size by unfold blockAlign; omega,
      if_neg (by unfold fence minBlock; omega)]
    rfl
  -- the tiles lie in the other chunks
  have hout : ∀ b t, B b = some t → b + t.size ≤ base ∨ base + size < b := by
    intro b t hb
    obtain ⟨r, hr, hlo, hhi⟩ := hs.housed.inside hb
    have := hapart r hr
    unfold Apart at this
    have := (hs.tagged.shape hb).fence
    dsimp only at *
    omega
  have hother : ∀ a, a ≠ base → a ≠ base + size - 16 → h₂.memory a = h.memory a := fun a ha ha' =>
    (update_of_ne ha' ..).trans (update_of_ne ha ..)
  have hnone : B (base + size - 16) = none := by
    cases hbx : B (base + size - 16) with
    | none => rfl
    | some o =>
      have := hout _ _ hbx
      have := (hs.tagged.shape hbx).fence
      omega
  have hsound : Sound h₂ (update B (base + size - 16) (some ⟨16, .kept⟩)) (base + 16) (base + size - 16) := by
    refine ⟨hs.tagged.add_fence base (base + size) ⟨hshape.1, by omega, by omega⟩ hout ?_ hother,
      ⟨L, (hl.update_kept hnone rfl).congr rfl rfl fun c u hc hfree => ?_⟩, hs.housed.add hshape hapart⟩
    · exact update_self ..
    · rcases update_some hc with ⟨rfl, rfl⟩ | ⟨-, hc⟩
      · cases hfree
      · have := hout c u hc
        have := (hs.tagged.shape hc).block (kept_of_free hfree)
        exact ⟨hother _ (by omega) (by omega), hother _ (by omega) (by omega)⟩
  have hflag : flag (update B (base + size - 16) (some ⟨16, .kept⟩)) (base + 16) = flagPrevInuse := by
    rcases flag_cases (update B (base + size - 16) (some ⟨16, .kept⟩)) (base + 16) with ⟨⟨c, v, hc, hfree, hend⟩, -⟩ | ⟨-, hf⟩
    · rcases update_some hc with ⟨rfl, rfl⟩ | ⟨-, hc⟩
      · cases hfree
      · have := hout c v hc
        have := (hs.tagged.shape hc).fence
        omega
    · exact hf
  have hmake := hsound.makeFree ⟨by omega, by omega⟩ (by omega)
  have hlen : base + size - 16 - (base + 16) = size - 32 := by omega
  rw [hflag] at hmake
  rw [hadd]
  rw [hlen] at hmake ⊢
  refine ⟨_, hmake, SameHeld.trans (SameHeld.update (fun s p n heq => ?_) fun s p n heq => by cases heq)
    (SameHeld.update (fun s p n heq => ?_) fun s p n heq => by cases heq), update_self .., ?_, ?_⟩
  · rw [hnone] at heq
    cases heq
  · rw [hsound.hole_none (by omega)] at heq
    cases heq
  · exact (congrFun (linkFree_bins ..) _).trans (update_self ..)
  · exact (congrFun (linkFree_bitmap ..) _).trans (update_self ..)

open Classical in
/-- A chunk whose blocks are a hole goes. -/
theorem dropChunk (hs : Sound h B x y) {r : Nat × Nat} {chunks : List (Nat × Nat)} (hperm : h.chunks.Perm (r :: chunks))
    (hhole : x = r.1 + 16 ∧ y = r.1 + r.2 - 16) : ∃ B', Sound { h with chunks := chunks } B' 0 0 ∧ SameHeld B B' := by
  obtain ⟨L, hl⟩ := hs.listed
  have hmem : r ∈ h.chunks := hperm.mem_iff.mpr (mem_cons_self ..)
  have hshape := hs.housed.shape r hmem
  -- what is left in the chunk is no block
  have hfence : ∀ {c t}, B c = some t → r.1 + 16 ≤ c ∧ c < r.1 + r.2 → t.use = .kept := by
    intro c t hc hin
    by_contra hkept
    have := (hs.tagged.shape hc).block hkept
    have := hs.housed.inside_or_apart hmem hc
    have := hs.tagged.outside hc
    omega
  refine ⟨_, ⟨hs.tagged.drop (r.1 + 16) (r.1 + r.2) (by omega) fun c t hc => ?_,
    ⟨L, Listed.congr (h := h) ⟨hl.linked, hl.first, hl.marked, hl.nodup, fun k c => ?_⟩ rfl rfl fun _ _ _ _ => ⟨rfl, rfl⟩⟩,
    hs.housed.drop hperm (by omega) fun hc => (hs.tagged.shape hc).fence⟩, fun c s p n => ?_⟩
  · have := hs.housed.inside_or_apart hmem hc
    omega
  · rw [hl.mem]
    split
    · rename_i hin
      refine ⟨fun ⟨t, ht, hfree, _⟩ => ?_, fun ⟨t, ht, _⟩ => (nomatch ht)⟩
      exact absurd (hfence ht hin) (kept_of_free hfree)
    · exact .rfl
  · split
    · rename_i hin
      refine ⟨fun hn => (nomatch hn), fun hc => ?_⟩
      cases hfence hc hin
    · exact .rfl

end Sound

end Heap

end HamixOS.Kernel

import HamixOS.Kernel.Heap

namespace HamixOS.Kernel

open Function Option Nat

/-!
# The blocks of the heap

The heap as a map from addresses to tiles: the free blocks, the blocks that are held, and the fences.  `Tagged m B x y`
says that the tags in the memory `m` are those of the tiles `B`, where the words from `x` to `y` belong to no tile; the
operations open such a hole, widen it and fill it.

* `Tagged.congr` — only the words of the tags matter;
* `Tagged.extend_right`, `extend_left` — a tile joins the hole;
* `Tagged.fill` — a tile is put at the front of the hole;
* `Tagged.retag` — a block that is not free is put to another use;
* `Tagged.add_fence`, `drop` — a chunk comes and goes.
-/

namespace Heap

abbrev Memory := Nat → Nat

/-- A block is free, held by a client that may write the bytes at its pointer, or kept for good. -/
inductive Use where
  | free
  | kept
  | held (pointer bytes : Nat)
  deriving DecidableEq

def Use.bit : Use → Nat
  | .free => 0
  | _ => 1

structure Tile where
  size : Nat
  use : Use

abbrev Tiles := Nat → Option Tile

/-- A free block ends where `b` begins. -/
def FreeBefore (B : Tiles) (b : Nat) : Prop := ∃ c t, B c = some t ∧ t.use = .free ∧ c + t.size = b

open Classical in
/-- `FLAG_PREV_INUSE`, as the header of `b` has it. -/
noncomputable def flag (B : Tiles) (b : Nat) : Nat := if FreeBefore B b then 0 else 2

structure Tile.Shape (b : Nat) (t : Tile) : Prop where
  pos : 0 < b
  start : b % 16 = 0
  size : t.size % 16 = 0
  fence : 16 ≤ t.size
  block : t.use ≠ .kept → 32 ≤ t.size
  payload : ∀ p n, t.use = .held p n → b + 16 ≤ p ∧ p % 16 = 0 ∧ p < b + t.size ∧ p + n ≤ b + t.size

structure Tagged (m : Memory) (B : Tiles) (x y : Nat) : Prop where
  shape : ∀ {b t}, B b = some t → t.Shape b
  apart : ∀ {b t c u}, B b = some t → B c = some u → b < c → b + t.size ≤ c
  outside : ∀ {b t}, B b = some t → b + t.size ≤ x ∨ y ≤ b
  next : ∀ {b t}, B b = some t → t.use ≠ .kept → (B (b + t.size)).isSome ∨ (x < y ∧ b + t.size = x)
  head : ∀ {b t}, B b = some t → (x < y → b ≠ y) → m b = t.size + t.use.bit + flag B b
  stop : x < y → ∃ t, B y = some t ∧ (m y = t.size + t.use.bit ∨ m y = t.size + t.use.bit + 2)
  footer : ∀ {b t}, B b = some t → t.use = .free → m (b + t.size - 8) = t.size
  pointer : ∀ {b t p n}, B b = some t → t.use = .held p n → m (p - 8) = b

variable {m m' : Memory} {B : Tiles} {b c x y z : Nat} {t u : Tile}

/-! ### The flag -/

theorem flag_cases (B : Tiles) (b : Nat) : (FreeBefore B b ∧ flag B b = 0) ∨ (¬ FreeBefore B b ∧ flag B b = 2) := by
  unfold flag
  split
  · exact .inl ⟨by assumption, rfl⟩
  · exact .inr ⟨by assumption, rfl⟩

theorem flag_congr {B' : Tiles} (h : FreeBefore B' b ↔ FreeBefore B b) : flag B' b = flag B b := by
  unfold flag
  rw [propext h]

/-- The tile at `c` does not end where `b` begins. -/
theorem flag_update (hc : ∀ t, B c = some t → t.use = .free → c + t.size ≠ b) {o : Option Tile}
    (ho : ∀ t, o = some t → t.use = .free → c + t.size ≠ b) : flag (update B c o) b = flag B b := by
  refine flag_congr ⟨fun ⟨d, t, hd, hfree, hend⟩ => ?_, fun ⟨d, t, hd, hfree, hend⟩ => ?_⟩
  · by_cases hdc : d = c
    · subst hdc
      rw [update_self] at hd
      exact absurd hend (ho t hd hfree)
    · rw [update_of_ne hdc] at hd
      exact ⟨d, t, hd, hfree, hend⟩
  · have hdc : d ≠ c := by
      rintro rfl
      exact hc t hd hfree hend
    exact ⟨d, t, by rw [update_of_ne hdc]; exact hd, hfree, hend⟩

/-! ### Tiles and their words -/

namespace Tagged

section

variable (h : Tagged m B x y)

include h

theorem ne_apart (hb : B b = some t) (hc : B c = some u) (hne : b ≠ c) :
    b + t.size ≤ c ∨ c + u.size ≤ b :=
  (lt_or_gt_of_ne hne).imp (h.apart hb hc) (h.apart hc hb)

/-- A tile from which another place of it lies is that tile. -/
theorem eq_of_inside (hb : B b = some t) (hc : B c = some u) {a : Nat} (hba : b ≤ a ∧ a < b + t.size)
    (hca : c ≤ a ∧ a < c + u.size) : b = c := by
  by_contra hne
  have := h.ne_apart hb hc hne
  omega

/-- Only the words of the tags matter. -/
theorem congr (hsame : ∀ b t, B b = some t → m' b = m b ∧
      (t.use = .free → m' (b + t.size - 8) = m (b + t.size - 8)) ∧ ∀ p n, t.use = .held p n → m' (p - 8) = m (p - 8)) :
    Tagged m' B x y where
  shape := h.shape
  apart := h.apart
  outside := h.outside
  next := h.next
  head hb hne := (hsame _ _ hb).1.trans (h.head hb hne)
  stop hlt := by
    obtain ⟨t, ht, hm⟩ := h.stop hlt
    exact ⟨t, ht, by rwa [(hsame _ _ ht).1]⟩
  footer hb hfree := ((hsame _ _ hb).2.1 hfree).trans (h.footer hb hfree)
  pointer hb huse := ((hsame _ _ hb).2.2 _ _ huse).trans (h.pointer hb huse)

/-- The links of the free blocks may change. -/
theorem congr_links
    (hsame : ∀ a, (∀ c u, B c = some u → u.use = .free → a ≠ c + 8 ∧ a ≠ c + 16) → m' a = m a) : Tagged m' B x y := by
  refine h.congr fun b t hb => ?_
  have hshape := h.shape hb
  have hfence := hshape.fence
  have hsize := hshape.size
  -- a word of the tile is a link of a free block only where the tile is that block
  have hlink : ∀ {a}, b ≤ a → a < b + t.size → (t.use = .free → a ≠ b + 8 ∧ a ≠ b + 16) → m' a = m a := by
    intro a hlo hhi hown
    refine hsame a fun c u hc hfree => ?_
    have hblock := (h.shape hc).block (by rw [hfree]; exact Use.noConfusion)
    by_cases hbc : b = c
    · subst hbc
      obtain rfl := some.inj (hb.symm.trans hc)
      exact hown hfree
    · have := h.ne_apart hb hc hbc
      omega
  refine ⟨hlink le_rfl (by omega) fun _ => by omega, fun hfree => ?_, fun p n huse => ?_⟩
  · have hblock := hshape.block (by rw [hfree]; exact Use.noConfusion)
    exact hlink (by omega) (by omega) fun _ => by omega
  · obtain ⟨hlo, -, hhi, -⟩ := hshape.payload p n huse
    exact hlink (by omega) (by omega) fun hfree => by rw [hfree] at huse; cases huse

/-- A client writes what it holds. -/
theorem store {p n : Nat} (hb : B b = some t) (huse : t.use = .held p n)
    (hsame : ∀ a, ¬ (p ≤ a ∧ a < p + n) → m' a = m a) : Tagged m' B x y := by
  obtain ⟨hp, -, -, hpn⟩ := (h.shape hb).payload p n huse
  refine h.congr fun c u hc => ?_
  have hfence := (h.shape hc).fence
  have hown : ∀ {a}, c ≤ a → a < c + u.size → (b = c → a < p) → m' a = m a := by
    intro a hlo hhi hlt
    refine hsame a fun hin => ?_
    have heq := h.eq_of_inside hb hc (a := a) (by omega) ⟨hlo, hhi⟩
    have := hlt heq
    omega
  refine ⟨hown le_rfl (by omega) (by omega), fun hfree => ?_, fun q k hq => ?_⟩
  · have hblock := (h.shape hc).block (by rw [hfree]; exact Use.noConfusion)
    refine hown (by omega) (by omega) fun heq => ?_
    subst heq
    obtain rfl := some.inj (hb.symm.trans hc)
    rw [hfree] at huse
    cases huse
  · obtain ⟨hq', -, hhi, -⟩ := (h.shape hc).payload q k hq
    refine hown (by omega) (by omega) fun heq => ?_
    subst heq
    obtain rfl := some.inj (hb.symm.trans hc)
    obtain ⟨rfl, rfl⟩ := Use.held.inj (hq.symm.trans huse)
    omega

end

/-! ### Holes -/

/-- An empty hole, where a tile begins. -/
theorem hole_at (h : Tagged m B 0 0) (hb : B b = some t) : Tagged m B b b where
  shape := h.shape
  apart := h.apart
  outside {c u} hc := by
    by_cases hcb : c = b
    · omega
    · have := h.ne_apart hc hb hcb
      have := (h.shape hb).fence
      omega
  next hc huse := (h.next hc huse).imp_right fun hn => absurd hn.1 (by omega)
  head hc _ := h.head hc fun hn => absurd hn (by omega)
  stop hlt := absurd hlt (by omega)
  footer := h.footer
  pointer := h.pointer

theorem close (h : Tagged m B x x) : Tagged m B 0 0 where
  shape := h.shape
  apart := h.apart
  outside _ := .inr (zero_le _)
  next hc huse := (h.next hc huse).imp_right fun hn => absurd hn.1 (by omega)
  head hc _ := h.head hc fun hn => absurd hn (by omega)
  stop hlt := absurd hlt (by omega)
  footer := h.footer
  pointer := h.pointer

end Tagged

theorem update_none {o : Tile} (h : update B c none b = some o) : b ≠ c ∧ B b = some o := by
  by_cases hbc : b = c
  · subst hbc
    rw [update_self] at h
    cases h
  · rw [update_of_ne hbc] at h
    exact ⟨hbc, h⟩

theorem update_some {o o' : Tile} (h : update B c (some o) b = some o') :
    (b = c ∧ o = o') ∨ (b ≠ c ∧ B b = some o') := by
  by_cases hbc : b = c
  · subst hbc
    rw [update_self] at h
    exact .inl ⟨rfl, some.inj h⟩
  · rw [update_of_ne hbc] at h
    exact .inr ⟨hbc, h⟩

namespace Tagged

/-- The tile after the hole joins it. -/
theorem extend_right (h : Tagged m B x y) (hxy : x ≤ y) (hy : B y = some t) (huse : t.use ≠ .kept) :
    Tagged m (update B y none) x (y + t.size) where
  shape hb := h.shape (update_none hb).2
  apart hb hc := h.apart (update_none hb).2 (update_none hc).2
  outside hb := by
    obtain ⟨hne, hb⟩ := update_none hb
    have := h.outside hb
    have := h.ne_apart hb hy hne
    have := (h.shape hb).fence
    omega
  next {b u} hb hkept := by
    obtain ⟨hne, hb⟩ := update_none hb
    have hfence := (h.shape hy).fence
    have hout := h.outside hb
    rcases h.next hb hkept with hsome | ⟨hlt, heq⟩
    · by_cases hend : b + u.size = y
      · exact .inr ⟨by omega, by omega⟩
      · rw [update_of_ne hend]
        exact .inl hsome
    · exact .inr ⟨by omega, heq⟩
  head {b u} hb hend := by
    obtain ⟨hne, hb⟩ := update_none hb
    have hfence := (h.shape hy).fence
    have hend : b ≠ y + t.size := hend (by omega)
    rw [h.head hb fun _ => hne, flag_update (fun t' ht' _ => ?_) fun _ ho _ => by cases ho]
    obtain rfl := some.inj (hy.symm.trans ht')
    exact hend.symm
  stop hlt := by
    have hfence := (h.shape hy).fence
    have hne : y + t.size ≠ y := by omega
    rcases h.next hy huse with hsome | ⟨_, heq⟩
    · obtain ⟨u, hu⟩ := isSome_iff_exists.mp hsome
      refine ⟨u, by rw [update_of_ne hne]; exact hu, ?_⟩
      rw [h.head hu fun _ => hne]
      rcases flag_cases B (y + t.size) with ⟨-, hf⟩ | ⟨-, hf⟩ <;> rw [hf] <;> omega
    · omega
  footer hb := h.footer (update_none hb).2
  pointer hb := h.pointer (update_none hb).2

/-- The tile before the hole joins it. -/
theorem extend_left (h : Tagged m B x y) (hxy : x < y) (hc : B c = some t) (hend : c + t.size = x) :
    Tagged m (update B c none) c y where
  shape hb := h.shape (update_none hb).2
  apart hb hd := h.apart (update_none hb).2 (update_none hd).2
  outside hb := by
    obtain ⟨hne, hb⟩ := update_none hb
    have := h.outside hb
    have := h.ne_apart hb hc hne
    have := (h.shape hb).fence
    omega
  next {b u} hb hkept := by
    obtain ⟨hne, hb⟩ := update_none hb
    have hsize := (h.shape hb).fence
    have hapart := h.ne_apart hb hc hne
    rcases h.next hb hkept with hsome | ⟨hlt, heq⟩
    · by_cases heq : b + u.size = c
      · exact .inr ⟨by omega, heq⟩
      · rw [update_of_ne heq]
        exact .inl hsome
    · omega
  head {b u} hb hne' := by
    obtain ⟨hne, hb⟩ := update_none hb
    have hfence := (h.shape hc).fence
    have hsize := (h.shape hb).fence
    have hout := h.outside hb
    rw [h.head hb fun _ => hne' (by omega), flag_update (fun t' ht' _ => ?_) fun _ ho _ => by cases ho]
    obtain rfl := some.inj (hc.symm.trans ht')
    omega
  stop _ := by
    obtain ⟨u, hu, hm⟩ := h.stop hxy
    have hne : y ≠ c := by omega
    exact ⟨u, by rw [update_of_ne hne]; exact hu, hm⟩
  footer hb := h.footer (update_none hb).2
  pointer hb := h.pointer (update_none hb).2

/-- A tile is put at the front of the hole. -/
theorem fill (h : Tagged m B x y) (hz : x < z ∧ z ≤ y) (hshape : Tile.Shape x t) (hsize : t.size = z - x)
    (huse : t.use = .free ∨ t.use = .kept) (hlast : z < y → t.use = .kept) (hx : m' x = t.size + t.use.bit + flag B x)
    (hfooter : t.use = .free → m' (z - 8) = t.size)
    (hy : ∀ u, B y = some u → m' y = if z = y then u.size + u.use.bit + 2 * t.use.bit else m y)
    (hsame : ∀ a, a ≠ x → a ≠ z - 8 → a ≠ y → m' a = m a) : Tagged m' (update B x (some t)) z y := by
  have hmod := hshape.size
  have hyx : y ≠ x := by omega
  -- the words of the other tiles are as they were
  have hold : ∀ {b u a}, B b = some u → b ≤ a → a < b + u.size → (b = y → a ≠ y) → m' a = m a := by
    intro b u a hb hlo hhi hne
    have hout := h.outside hb
    refine hsame a (by omega) (by omega) ?_
    rintro rfl
    obtain ⟨v, hv, -⟩ := h.stop (by omega)
    exact hne (h.eq_of_inside hb hv ⟨hlo, hhi⟩ ⟨le_refl _, by have := (h.shape hv).fence; omega⟩) rfl
  have hends : ∀ {b}, b ≠ z → ∀ t', some t = some t' → t'.use = .free → x + t'.size ≠ b := by
    intro b hb t' ht' _
    obtain rfl := some.inj ht'
    omega
  have hfree_at : ∀ t', B x = some t' → t'.use = .free → ∀ b, x + t'.size ≠ b := by
    intro t' ht' _ b _
    have := h.outside ht'
    have := (h.shape ht').fence
    omega
  have hflag : ∀ {b}, b ≠ z → flag (update B x (some t)) b = flag B b := fun hb =>
    flag_update (fun t' ht' hfree => hfree_at t' ht' hfree _) (hends hb)
  refine ⟨fun hb => ?_, fun {b u c v} hb hc hlt => ?_, fun {b u} hb => ?_, fun {b u} hb hkept => ?_, fun {b u} hb hne => ?_,
    fun hlt => ?_, fun {b u} hb hfree => ?_, fun {b u p n} hb hheld => ?_⟩
  · rcases update_some hb with ⟨rfl, rfl⟩ | ⟨-, hb⟩
    · exact hshape
    · exact h.shape hb
  · rcases update_some hb with ⟨rfl, rfl⟩ | ⟨-, hb'⟩ <;> rcases update_some hc with ⟨rfl, rfl⟩ | ⟨-, hc'⟩
    · omega
    · have := h.outside hc'
      have := (h.shape hc').fence
      omega
    · have := h.outside hb'
      omega
    · exact h.apart hb' hc' hlt
  · rcases update_some hb with ⟨rfl, rfl⟩ | ⟨-, hb⟩
    · omega
    · have := h.outside hb
      omega
  · rcases update_some hb with ⟨rfl, rfl⟩ | ⟨-, hb⟩
    · obtain ⟨v, hv, -⟩ := h.stop (by omega)
      have hend : b + t.size = z := by omega
      rcases lt_or_eq_of_le hz.2 with hlt | rfl
      · exact absurd (hlast hlt) hkept
      · left
        rw [hend, update_of_ne hyx, hv]
        rfl
    · left
      rcases h.next hb hkept with hsome | ⟨-, heq⟩
      · by_cases hend : b + u.size = x
        · rw [hend, update_self]
          rfl
        · rwa [update_of_ne hend]
      · rw [heq, update_self]
        rfl
  · rcases update_some hb with ⟨rfl, rfl⟩ | ⟨hbx, hb⟩
    · rw [hx, hflag (by omega)]
    · have hfence' := (h.shape hb).fence
      by_cases hby : b = y
      · subst hby
        have hzy : z = b := by
          by_contra hzy
          exact hne (by omega) rfl
        subst hzy
        rw [hy u hb, if_pos rfl]
        congr 1
        rcases huse with hfree | hkept
        · rcases flag_cases (update B x (some t)) z with ⟨-, hf⟩ | ⟨hn, -⟩
          · rw [hf, hfree]
            rfl
          · exact absurd ⟨x, t, update_self .., hfree, by omega⟩ hn
        · rcases flag_cases (update B x (some t)) z with ⟨⟨c, v, hc, hfree, hend⟩, -⟩ | ⟨-, hf⟩
          · rcases update_some hc with ⟨rfl, rfl⟩ | ⟨-, hc⟩
            · rw [hkept] at hfree
              cases hfree
            · have := h.outside hc
              have := (h.shape hc).fence
              omega
          · rw [hf, hkept]
            rfl
      · have hbz : b ≠ z := by
          have := h.outside hb
          omega
        rw [hold hb le_rfl (by omega) fun heq => absurd heq hby, h.head hb fun _ => hby, hflag hbz]
  · obtain ⟨v, hv, hm⟩ := h.stop (by omega)
    refine ⟨v, by rw [update_of_ne hyx]; exact hv, ?_⟩
    rwa [hy v hv, if_neg (by omega)]
  · rcases update_some hb with ⟨rfl, rfl⟩ | ⟨-, hb⟩
    · rw [show b + t.size - 8 = z - 8 by omega, hfooter hfree]
    · have hblock := (h.shape hb).block (by rw [hfree]; exact Use.noConfusion)
      rw [hold hb (by omega) (by omega) (by omega), h.footer hb hfree]
  · rcases update_some hb with ⟨rfl, rfl⟩ | ⟨-, hb⟩
    · rcases huse with huse | huse <;> rw [huse] at hheld <;> cases hheld
    · obtain ⟨hlo, -, hhi, -⟩ := (h.shape hb).payload p n hheld
      rw [hold hb (by omega) (by omega) (by omega), h.pointer hb hheld]

/-- A block that is not free is put to another use. -/
theorem retag (h : Tagged m B 0 0) {size : Nat} {use use' : Use} (hb : B b = some ⟨size, use⟩) (huse : use ≠ .free)
    (huse' : use' ≠ .free) (hshape : Tile.Shape b ⟨size, use'⟩) (hnext : use' ≠ .kept → (B (b + size)).isSome)
    (hptr : ∀ p n, use' = .held p n → m' (p - 8) = b) (hsame : ∀ a, (∀ p n, use' = .held p n → a ≠ p - 8) → m' a = m a) :
    Tagged m' (update B b (some ⟨size, use'⟩)) 0 0 := by
  have hflag : ∀ c, flag (update B b (some ⟨size, use'⟩)) c = flag B c := by
    intro c
    refine flag_update (fun t' ht' hfree => ?_) fun t' ht' hfree => ?_
    · obtain rfl := some.inj (hb.symm.trans ht')
      exact absurd hfree huse
    · obtain rfl := some.inj ht'
      exact absurd hfree huse'
  have hbit : ∀ {v : Use}, v ≠ .free → v.bit = 1 := by
    intro v hv
    cases v with
    | free => exact absurd rfl hv
    | kept => rfl
    | held p n => rfl
  have hfence := hshape.fence
  dsimp only at hfence
  have hsize : ∀ {c u}, update B b (some ⟨size, use'⟩) c = some u → ∃ v, B c = some ⟨u.size, v⟩ ∧
      (c ≠ b → v = u.use) := by
    intro c u hc
    rcases update_some hc with ⟨rfl, rfl⟩ | ⟨hcb, hc⟩
    · exact ⟨use, hb, fun hne => absurd rfl hne⟩
    · exact ⟨u.use, hc, fun _ => rfl⟩
  -- the word before the pointer is a word of this block's
  have hold : ∀ {c u a}, B c = some u → c ≤ a → a < c + u.size → (c = b → a = b) → m' a = m a := by
    intro c u a hc hlo hhi hown
    refine hsame a fun p n hp heq => ?_
    obtain ⟨hlo', -, hhi', -⟩ := hshape.payload p n hp
    dsimp only at hhi'
    have hcb := h.eq_of_inside hc hb ⟨hlo, hhi⟩ (by dsimp only; omega)
    have := hown hcb
    omega
  refine ⟨fun hc => ?_, fun {c u d v} hc hd hlt => ?_, fun _ => .inr (zero_le _), fun {c u} hc hkept => ?_,
    fun {c u} hc _ => ?_, fun hlt => absurd hlt (by omega), fun {c u} hc hfree => ?_, fun {c u p n} hc hheld => ?_⟩
  · rcases update_some hc with ⟨rfl, rfl⟩ | ⟨-, hc⟩
    · exact hshape
    · exact h.shape hc
  · obtain ⟨_, hc, -⟩ := hsize hc
    obtain ⟨_, hd, -⟩ := hsize hd
    have hle := h.apart hc hd hlt
    exact hle
  · have hsome : (B (c + u.size)).isSome := by
      rcases update_some hc with ⟨rfl, rfl⟩ | ⟨-, hc⟩
      · exact hnext hkept
      · exact (h.next hc hkept).resolve_right fun hn => absurd hn.1 (by omega)
    left
    by_cases hend : c + u.size = b
    · rw [hend, update_self]
      rfl
    · rwa [update_of_ne hend]
  · rw [hflag]
    rcases update_some hc with ⟨rfl, rfl⟩ | ⟨hcb, hc⟩
    · rw [hold hb le_rfl (by dsimp only; omega) fun _ => rfl, h.head hb fun hn => absurd hn (by omega), hbit huse,
        hbit huse']
    · have hfence' := (h.shape hc).fence
      rw [hold hc le_rfl (by omega) fun heq => heq, h.head hc fun hn => absurd hn (by omega)]
  · rcases update_some hc with ⟨rfl, rfl⟩ | ⟨hcb, hc⟩
    · exact absurd hfree huse'
    · have hblock := (h.shape hc).block (by rw [hfree]; exact Use.noConfusion)
      rw [hold hc (by omega) (by omega) fun heq => absurd heq hcb, h.footer hc hfree]
  · rcases update_some hc with ⟨rfl, rfl⟩ | ⟨hcb, hc⟩
    · exact hptr p n hheld
    · obtain ⟨hlo, -, hhi, -⟩ := (h.shape hc).payload p n hheld
      rw [hold hc (by omega) (by omega) fun heq => absurd heq hcb, h.pointer hc hheld]

/-- A new chunk, apart from all tiles, is a hole with a fence after it. -/
theorem add_fence (h : Tagged m B 0 0) (lo hi : Nat) (hlo : lo % 16 = 0 ∧ hi % 16 = 0 ∧ lo + 64 ≤ hi)
    (hapart : ∀ b t, B b = some t → b + t.size ≤ lo ∨ hi < b) (hfence : m' (hi - 16) = 17)
    (hsame : ∀ a, a ≠ lo → a ≠ hi - 16 → m' a = m a) :
    Tagged m' (update B (hi - 16) (some ⟨16, .kept⟩)) (lo + 16) (hi - 16) := by
  have hflag : ∀ b, flag (update B (hi - 16) (some ⟨16, .kept⟩)) b = flag B b := by
    intro b
    refine flag_update (fun t' ht' _ => ?_) fun t' ht' hfree => ?_
    · have := hapart _ _ ht'
      have := (h.shape ht').fence
      omega
    · obtain rfl := some.inj ht'
      cases hfree
  have hold : ∀ {b t a}, B b = some t → b ≤ a → a < b + t.size → m' a = m a := by
    intro b t a hb hba hab
    have := hapart b t hb
    exact hsame a (by omega) (by omega)
  refine ⟨fun hb => ?_, fun {b u c v} hb hc hlt => ?_, fun {b u} hb => ?_, fun {b u} hb hkept => ?_, fun {b u} hb hne => ?_,
    fun _ => ⟨_, update_self .., .inl hfence⟩, fun {b u} hb hfree => ?_, fun {b u p n} hb hheld => ?_⟩
  · rcases update_some hb with ⟨rfl, rfl⟩ | ⟨-, hb⟩
    · exact ⟨by omega, by omega, rfl, le_refl _, fun hne => absurd rfl hne, fun p n hheld => Use.noConfusion hheld⟩
    · exact h.shape hb
  · rcases update_some hb with ⟨rfl, rfl⟩ | ⟨-, hb'⟩ <;> rcases update_some hc with ⟨rfl, rfl⟩ | ⟨-, hc'⟩
    · omega
    · have := hapart _ _ hc'
      have := (h.shape hc').fence
      dsimp only
      omega
    · have := hapart _ _ hb'
      omega
    · exact h.apart hb' hc' hlt
  · rcases update_some hb with ⟨rfl, rfl⟩ | ⟨-, hb⟩
    · exact .inr le_rfl
    · have := hapart _ _ hb
      omega
  · rcases update_some hb with ⟨rfl, rfl⟩ | ⟨-, hb⟩
    · exact absurd rfl hkept
    · have hsome := (h.next hb hkept).resolve_right fun hn => absurd hn.1 (by omega)
      left
      by_cases hend : b + u.size = hi - 16
      · rw [hend, update_self]
        rfl
      · rwa [update_of_ne hend]
  · rcases update_some hb with ⟨rfl, rfl⟩ | ⟨-, hb⟩
    · exact absurd rfl (hne (by omega))
    · have := (h.shape hb).fence
      rw [hflag, hold hb le_rfl (by omega), h.head hb fun hn => absurd hn (by omega)]
  · rcases update_some hb with ⟨rfl, rfl⟩ | ⟨-, hb⟩
    · cases hfree
    · have hblock := (h.shape hb).block (by rw [hfree]; exact Use.noConfusion)
      rw [hold hb (by omega) (by omega), h.footer hb hfree]
  · rcases update_some hb with ⟨rfl, rfl⟩ | ⟨-, hb⟩
    · cases hheld
    · obtain ⟨hlo, -, hhi, -⟩ := (h.shape hb).payload p n hheld
      rw [hold hb (by omega) (by omega), h.pointer hb hheld]

open Classical in
/-- The tiles of a chunk go with it, and the hole in it. -/
theorem drop (h : Tagged m B x y) (lo hi : Nat) (hhole : lo ≤ x ∧ x < y ∧ y ≤ hi)
    (hapart : ∀ b t, B b = some t → (lo ≤ b ∧ b + t.size ≤ hi) ∨ b + t.size < lo ∨ hi < b) :
    Tagged m (fun b => if lo ≤ b ∧ b < hi then none else B b) 0 0 := by
  have hof : ∀ {b t}, (if lo ≤ b ∧ b < hi then none else B b) = some t → B b = some t ∧ (b + t.size < lo ∨ hi < b) := by
    intro b t hb
    split at hb
    · cases hb
    · refine ⟨hb, ?_⟩
      have := hapart b t hb
      have := (h.shape hb).fence
      omega
  have hto : ∀ {b}, b < lo ∨ hi < b → (if lo ≤ b ∧ b < hi then none else B b) = B b := fun hb => if_neg (by omega)
  refine ⟨fun hb => h.shape (hof hb).1, fun hb hc => h.apart (hof hb).1 (hof hc).1, fun _ => .inr (zero_le _),
    fun hb hkept => ?_, fun {b t} hb _ => ?_, fun hlt => absurd hlt (by omega), fun hb => h.footer (hof hb).1,
    fun hb => h.pointer (hof hb).1⟩
  · obtain ⟨hb, hout⟩ := hof hb
    rw [hto (by omega)]
    exact .inl ((h.next hb hkept).resolve_right fun hn => by omega)
  · obtain ⟨hb, hout⟩ := hof hb
    rw [h.head hb fun _ => by omega]
    congr 1
    refine flag_congr ⟨fun ⟨c, u, hc, hfree, hend⟩ => ⟨c, u, ?_, hfree, hend⟩, fun ⟨c, u, hc, hfree, hend⟩ =>
      ⟨c, u, (hof hc).1, hfree, hend⟩⟩
    have := hapart c u hc
    exact (hto (by omega)).trans hc

end Tagged

end Heap

end HamixOS.Kernel

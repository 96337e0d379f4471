import HamixOS.Kernel.HeapTiles
import HamixOS.Lib.Linked

namespace HamixOS.Kernel

open Lib List Function Option Nat

/-!
# The free lists of the heap

`Listed h B L` says that the list of each bin links the free tiles of its sizes.

* `BlockAllocator.blockSize_tile`, `isInuse_tile`, `prevInuse_tile` — what the header of a tile says;
* `Listed.linkFree` — a tile that becomes free is put into its list;
* `Listed.unlinkFree` — and taken out of it.
-/

namespace Heap

open BlockAllocator

variable {h : BlockAllocator} {B : Tiles} {L : Nat → List Nat} {b c x y : Nat} {t u : Tile}

/-! ### Headers -/

theorem and_two (n : Nat) : n &&& 2 = n / 2 % 2 * 2 := by
  have hhigh : (n &&& 2) / 2 = n / 2 % 2 := by rw [and_div_two, and_one_is_mod]
  have hlow : (n &&& 2) % 2 = 0 := by
    have hmod := and_mod_two_pow (a := n) (b := 2) (n := 1)
    rw [show 2 % 2 ^ 1 = 0 from rfl, and_zero] at hmod
    exact hmod
  omega

theorem and_three (n : Nat) : n &&& 3 = n % 4 := and_two_pow_sub_one_eq_mod n 2

/-- The flags are put beside a size. -/
theorem or_flags {n f : Nat} (hn : n % 16 = 0) (hf : f < 4) : n ||| f = n + f := by
  have heq : n = 2 ^ 2 * (n / 4) := by omega
  rw [heq]
  exact (two_pow_add_eq_or_of_lt (i := 2) hf _).symm

/-- A flag that is set once more. -/
theorem or_two {n c : Nat} (hn : n % 16 = 0) (hc : c < 2) : (n + c) ||| 2 = n + c + 2 ∧ (n + c + 2) ||| 2 = n + c + 2 := by
  have hor : ∀ d, d < 4 → n + d = n ||| d := fun d hd => (or_flags hn hd).symm
  rw [add_assoc, hor c (by omega), hor (c + 2) (by omega), Nat.or_assoc, Nat.or_assoc]
  rcases (by omega : c = 0 ∨ c = 1) with rfl | rfl <;> exact ⟨rfl, rfl⟩

theorem or_inuse {n f : Nat} (hn : n % 16 = 0) (hf : f = 0 ∨ f = 2) : n ||| flagInuse ||| f = n + 1 + f := by
  rw [Nat.or_assoc]
  rcases hf with rfl | rfl
  · exact or_flags hn (by decide)
  · exact or_flags hn (by decide)

theorem flag_lt (B : Tiles) (b : Nat) : flag B b = 0 ∨ flag B b = 2 :=
  (flag_cases B b).imp And.right And.right

theorem bit_le (use : Use) : use.bit ≤ 1 := by
  cases use with
  | free => exact zero_le _
  | kept => exact le_refl _
  | held p n => exact le_refl _

namespace BlockAllocator

variable {f : Nat}

section

variable (hm : h.memory b = t.size + t.use.bit + f)

include hm

section

variable (hsize : t.size % 16 = 0)

include hsize

/-- A header of a size and flags. -/
theorem blockSize_of_head (hf : f = 0 ∨ f = 2) :
    h.blockSize b = t.size := by
  have := bit_le t.use
  unfold blockSize head flagMask
  rw [and_three, hm]
  omega

theorem isInuse_of_head (hf : f = 0 ∨ f = 2) :
    h.isInuse b = true ↔ t.use ≠ .free := by
  have hbit : t.use.bit = 0 ∨ t.use.bit = 1 := by
    have := bit_le t.use
    omega
  have hfree : t.use = .free ↔ t.use.bit = 0 := by
    cases t.use with
    | free => exact ⟨fun _ => rfl, fun _ => rfl⟩
    | kept => exact ⟨fun heq => (nomatch heq), fun heq => (nomatch heq)⟩
    | held p n => exact ⟨fun heq => (nomatch heq), fun heq => (nomatch heq)⟩
  unfold isInuse head flagInuse
  rw [and_one_is_mod, hm, decide_eq_true_iff, ne_eq, ne_eq, hfree]
  omega

theorem prevInuse_of_head (hf : f = 0 ∨ f = 2) :
    h.head b &&& flagPrevInuse = f := by
  have := bit_le t.use
  unfold head flagPrevInuse
  rw [and_two, hm]
  omega

end

end

end BlockAllocator

/-! ### Lists -/

structure Listed (h : BlockAllocator) (B : Tiles) (L : Nat → List Nat) : Prop where
  linked : ∀ k, Linked h.nextLink h.prevLink 0 (L k) 0
  first : ∀ k, h.bins k = (L k).headD 0
  marked : ∀ k, h.bitmap k = true ↔ L k ≠ []
  nodup : ∀ k, (L k).Nodup
  mem : ∀ k b, b ∈ L k ↔ ∃ t, B b = some t ∧ t.use = .free ∧ binFor t.size = k

namespace BlockAllocator

theorem linkFree_links (h : BlockAllocator) (block size : Nat) : (h.linkFree block size).memory =
    (if h.bins (binFor size) ≠ 0 then ((h.setNext block (h.bins (binFor size))).setPrev block 0).setPrev (h.bins (binFor size)) block
      else (h.setNext block (h.bins (binFor size))).setPrev block 0).memory := by
  unfold linkFree
  dsimp only
  split <;> rfl

theorem linkFree_bins (h : BlockAllocator) (block size : Nat) :
    (h.linkFree block size).bins = update h.bins (binFor size) block := by
  unfold linkFree
  dsimp only
  split <;> rfl

theorem linkFree_bitmap (h : BlockAllocator) (block size : Nat) :
    (h.linkFree block size).bitmap = update h.bitmap (binFor size) true := by
  unfold linkFree
  dsimp only
  split <;> rfl

end BlockAllocator

namespace Listed

section

variable (hl : Listed h B L)

include hl

/-- Other words than the links may change. -/
theorem congr {h' : BlockAllocator} (hbins : h'.bins = h.bins) (hbitmap : h'.bitmap = h.bitmap)
    (hsame : ∀ c t, B c = some t → t.use = .free → h'.memory (c + 8) = h.memory (c + 8) ∧ h'.memory (c + 16) = h.memory (c + 16)) :
    Listed h' B L where
  linked k := (hl.linked k).congr fun c hc => by
    obtain ⟨t, ht, hfree, -⟩ := (hl.mem k c).mp hc
    exact hsame c t ht hfree
  first k := by rw [hbins, hl.first]
  marked k := by rw [hbitmap, hl.marked]
  nodup := hl.nodup
  mem := hl.mem

/-- A new tile that is not free is in no list. -/
theorem update_kept (hnone : B x = none) (hkept : t.use = .kept) :
    Listed h (update B x (some t)) L where
  linked := hl.linked
  first := hl.first
  marked := hl.marked
  nodup := hl.nodup
  mem k b := by
    rw [hl.mem]
    by_cases hb : b = x
    · subst hb
      rw [update_self, hnone]
      refine ⟨fun ⟨u, hu, _⟩ => (nomatch hu), fun ⟨u, hu, hfree, _⟩ => ?_⟩
      obtain rfl := some.inj hu
      rw [hkept] at hfree
      cases hfree
    · rw [update_of_ne hb]

/-- A block is in the list of no other bin. -/
theorem bin_eq {j k : Nat} (hj : b ∈ L j) (hk : b ∈ L k) : j = k := by
  obtain ⟨t, ht, -, hj⟩ := (hl.mem j b).mp hj
  obtain ⟨u, hu, -, hk⟩ := (hl.mem k b).mp hk
  obtain rfl := some.inj (ht.symm.trans hu)
  exact hj.symm.trans hk

theorem shape_of_mem (hshape : ∀ {c t}, B c = some t → t.Shape c) {k : Nat} (hb : b ∈ L k) :
    0 < b ∧ b % 16 = 0 := by
  obtain ⟨t, ht, -, -⟩ := (hl.mem k b).mp hb
  exact ⟨(hshape ht).pos, (hshape ht).start⟩

/-- The list of one bin and the free tiles of its sizes are others. -/
theorem replace {h' : BlockAllocator} {B' : Tiles} {k : Nat} {l : List Nat}
    (hbins : h'.bins = update h.bins k (l.headD 0)) (hbitmap : ∀ j, j ≠ k → h'.bitmap j = h.bitmap j)
    (hmarked : h'.bitmap k = true ↔ l ≠ []) (hlinked : Linked h'.nextLink h'.prevLink 0 l 0) (hnodup : l.Nodup)
    (hlinks : ∀ j c, j ≠ k → c ∈ L j → h'.nextLink c = h.nextLink c ∧ h'.prevLink c = h.prevLink c)
    (hmem : ∀ c, c ∈ l ↔ ∃ t, B' c = some t ∧ t.use = .free ∧ binFor t.size = k)
    (hother : ∀ c t, t.use = .free → binFor t.size ≠ k → (B' c = some t ↔ B c = some t)) :
    Listed h' B' (update L k l) := by
  refine ⟨fun j => ?_, fun j => ?_, fun j => ?_, fun j => ?_, fun j c => ?_⟩ <;> by_cases hj : j = k
  · rwa [hj, update_self]
  · rw [update_of_ne hj]
    exact (hl.linked j).congr fun c hc => hlinks j c hj hc
  · rw [hbins, hj, update_self, update_self]
  · rw [hbins, update_of_ne hj, update_of_ne hj, hl.first]
  · rwa [hj, update_self]
  · rw [hbitmap j hj, update_of_ne hj, hl.marked]
  · rwa [hj, update_self]
  · rw [update_of_ne hj]
    exact hl.nodup j
  · rw [hj, update_self, hmem]
  · rw [update_of_ne hj, hl.mem]
    refine exists_congr fun t => ⟨fun ⟨ht, hfree, hbin⟩ => ?_, fun ⟨ht, hfree, hbin⟩ => ?_⟩
    · exact ⟨(hother c t hfree (hbin ▸ hj)).mpr ht, hfree, hbin⟩
    · exact ⟨(hother c t hfree (hbin ▸ hj)).mp ht, hfree, hbin⟩

/-- What `link_free` leaves, where the list of its bin begins with `first`. -/
theorem linkFree (hshape : ∀ {c t}, B c = some t → t.Shape c) (hnone : B x = none) (hx : 0 < x ∧ x % 16 = 0)
    (size : Nat) : Listed (h.linkFree x size) (update B x (some ⟨size, .free⟩))
      (update L (binFor size) (x :: L (binFor size))) := by
  have hnot : ∀ {k}, x ∉ L k := fun hmem => by
    obtain ⟨t, ht, -⟩ := (hl.mem _ x).mp hmem
    rw [hnone] at ht
    cases ht
  -- the links of the blocks, where `first` was the first one of the bin
  have hlinks : ∀ c, c % 16 = 0 →
      (h.linkFree x size).nextLink c = (if c = x then (L (binFor size)).headD 0 else h.nextLink c) ∧
      (h.linkFree x size).prevLink c =
        (if (L (binFor size)).head? = some c then x else if c = x then 0 else h.prevLink c) := by
    intro c hc
    have hodd : c + 8 ≠ x + 16 ∧ c + 16 ≠ x + 8 := by omega
    unfold nextLink prevLink
    rw [BlockAllocator.linkFree_links, hl.first]
    cases hlist : L (binFor size) with
    | nil =>
      simp only [headD_nil, head?_nil, reduceCtorEq, ne_eq, not_true_eq_false, if_false, hodd.1, hodd.2,
        setNext, setPrev, BlockAllocator.write, update_apply, add_right_cancel_iff, and_self]
    | cons d l =>
      have hd := hl.shape_of_mem hshape (hlist ▸ mem_cons_self .. : d ∈ L (binFor size))
      have hodd' : c + 8 ≠ d + 16 := by omega
      rw [headD_cons, if_pos (ne_of_gt hd.1)]
      simp only [head?_cons, some.injEq, eq_comm (a := d), if_false, hodd.1, hodd.2, hodd', setNext,
        setPrev, BlockAllocator.write, update_apply, add_right_cancel_iff, and_self]
  have hne : ∀ {k c}, c ∈ L k → c ≠ x := fun hc heq => hnot (heq ▸ hc)
  refine hl.replace (BlockAllocator.linkFree_bins ..) (fun j hj => ?_) ?_ ?_ (nodup_cons.mpr ⟨hnot, hl.nodup _⟩)
    (fun j c hj hc => ?_) (fun c => ?_) fun c t hfree hbin => ?_
  · rw [BlockAllocator.linkFree_bitmap, update_of_ne hj]
  · rw [BlockAllocator.linkFree_bitmap, update_self]
    exact ⟨fun _ => cons_ne_nil _ _, fun _ => rfl⟩
  · obtain ⟨hnx, hpx⟩ := hlinks x hx.2
    refine (hl.linked _).push (hl.nodup _) (hnx.trans (if_pos rfl)) ?_ (fun c hc => ?_) fun c hc => ?_
    · rw [hpx, if_neg fun heq : (L (binFor size)).head? = some x => hnot (mem_of_mem_head? heq), if_pos rfl]
    · rw [(hlinks c (hl.shape_of_mem hshape (mem_of_mem_head? hc)).2).2, if_pos hc]
    · obtain ⟨hn, hp⟩ := hlinks c (hl.shape_of_mem hshape hc).2
      exact ⟨by rw [hn, if_neg (hne hc)], fun hhead => by rw [hp, if_neg hhead, if_neg (hne hc)]⟩
  · obtain ⟨hn, hp⟩ := hlinks c (hl.shape_of_mem hshape hc).2
    have hhead : (L (binFor size)).head? ≠ some c := fun heq => hj (hl.bin_eq hc (mem_of_mem_head? heq))
    rw [hn, hp, if_neg (hne hc), if_neg hhead, if_neg (hne hc)]
    exact ⟨rfl, rfl⟩
  · by_cases hc : c = x
    · rw [hc, update_self]
      exact ⟨fun _ => ⟨_, rfl, rfl, rfl⟩, fun _ => mem_cons_self ..⟩
    · rw [update_of_ne hc, ← hl.mem, mem_cons]
      exact ⟨fun hmem => hmem.resolve_left hc, .inr⟩
  · by_cases hc : c = x
    · rw [hc, update_self, hnone]
      exact ⟨fun ht => absurd (some.inj ht ▸ rfl) hbin, fun ht => nomatch ht⟩
    · rw [update_of_ne hc]

/-- Only links of free blocks are written. -/
theorem linkFree_memory {size : Nat} {a : Nat}
    (ha : ∀ c u, update B x (some ⟨size, .free⟩) c = some u → u.use = .free → a ≠ c + 8 ∧ a ≠ c + 16) :
    (h.linkFree x size).memory a = h.memory a := by
  obtain ⟨hx8, hx16⟩ := ha x _ (update_self ..) rfl
  have hown : ((h.setNext x (h.bins (binFor size))).setPrev x 0).memory a = h.memory a :=
    (update_of_ne hx16 ..).trans (update_of_ne hx8 ..)
  unfold BlockAllocator.linkFree
  dsimp only
  split
  · rename_i hne
    refine Eq.trans (update_of_ne ?_ ..) hown
    have hmem : h.bins (binFor size) ∈ L (binFor size) := by
      have hfirst := hl.first (binFor size)
      cases hlist : L (binFor size) with
      | nil => rw [hlist] at hfirst; exact absurd hfirst hne
      | cons d l => rw [hfirst, hlist]; exact mem_cons_self ..
    obtain ⟨t, ht, hfree, -⟩ := (hl.mem _ _).mp hmem
    by_cases hd : h.bins (binFor size) = x
    · rw [hd]
      exact hx16
    · exact (ha _ t (by rw [update_of_ne hd]; exact ht) hfree).2
  · exact hown

end

/-! ### Taking a block out -/

/-- The neighbours of a free block in its list. -/
theorem neighbours (hl : Listed h B L) (hb : B b = some t) (hfree : t.use = .free) :
    ∃ l₁ l₂, L (binFor t.size) = l₁ ++ b :: l₂ ∧ h.prevLink b = l₁.getLastD 0 ∧ h.nextLink b = l₂.headD 0 := by
  obtain ⟨l₁, l₂, heq⟩ := append_of_mem ((hl.mem _ b).mpr ⟨t, hb, hfree, rfl⟩)
  have hlinked := hl.linked (binFor t.size)
  rw [heq] at hlinked
  obtain ⟨-, hprev, hnext, -⟩ := Linked.append.mp hlinked
  exact ⟨l₁, l₂, heq, hprev, hnext⟩

theorem getLastD_mem {l : List Nat} (h : l ≠ []) : l.getLastD 0 ∈ l := by
  rw [getLastD_eq_getLast?, getLast?_eq_some_getLast h]
  exact getLast_mem _

theorem headD_mem {l : List Nat} (h : l ≠ []) : l.headD 0 ∈ l := by
  cases l with
  | nil => exact absurd rfl h
  | cons c l => exact mem_cons_self ..

/-- A link to a neighbour is null or leads to a free block. -/
theorem link_cases (hl : Listed h B L) (hb : B b = some t) (hfree : t.use = .free) :
    (h.nextLink b = 0 ∨ ∃ u, B (h.nextLink b) = some u ∧ u.use = .free) ∧
      (h.prevLink b = 0 ∨ ∃ u, B (h.prevLink b) = some u ∧ u.use = .free) := by
  obtain ⟨l₁, l₂, heq, hprev, hnext⟩ := hl.neighbours hb hfree
  have hof : ∀ {c}, c ∈ l₁ ++ b :: l₂ → ∃ u, B c = some u ∧ u.use = .free := fun hc => by
    obtain ⟨u, hu, hfree, -⟩ := (hl.mem _ _).mp (heq ▸ hc)
    exact ⟨u, hu, hfree⟩
  rw [hprev, hnext]
  constructor
  · by_cases hne : l₂ = []
    · rw [hne]
      exact .inl rfl
    · exact .inr (hof (mem_append_right _ (mem_cons_of_mem _ (headD_mem hne))))
  · by_cases hne : l₁ = []
    · rw [hne]
      exact .inl rfl
    · exact .inr (hof (mem_append_left _ (getLastD_mem hne)))

theorem unlinkFree_eq (hl : Listed h B L) (hsane : ∀ c u, B c = some u → u.use = .free → h.isPlausible c = true)
    (hb : B b = some t) (hfree : t.use = .free) :
    h.unlinkFree b t.size = h.spliceOut (binFor t.size) (h.nextLink b) (h.prevLink b) := by
  obtain ⟨hnext, hprev⟩ := hl.link_cases hb hfree
  have hsound : ∀ {c}, (c = 0 ∨ ∃ u, B c = some u ∧ u.use = .free) → ¬ (c ≠ 0 ∧ h.isPlausible c = false) := by
    rintro c hc ⟨hne, hp⟩
    obtain ⟨u, hu, hu'⟩ := hc.resolve_left hne
    rw [hsane c u hu hu'] at hp
    cases hp
  unfold BlockAllocator.unlinkFree
  dsimp only
  rw [if_neg (hsound hnext), if_neg (hsound hnext), if_neg (hsound hprev)]

end Listed

namespace BlockAllocator

theorem spliceOut_memory (h : BlockAllocator) (bin next prev : Nat) : (h.spliceOut bin next prev).memory =
    (if next ≠ 0 then (if prev ≠ 0 then h.setNext prev next else h).setPrev next prev
      else if prev ≠ 0 then h.setNext prev next else h).memory := by
  unfold spliceOut
  dsimp only
  split_ifs <;> rfl

theorem spliceOut_bins (h : BlockAllocator) (bin next prev : Nat) : (h.spliceOut bin next prev).bins =
    if prev ≠ 0 then h.bins else update h.bins bin next := by
  unfold spliceOut
  dsimp only
  split_ifs <;> rfl

theorem spliceOut_bitmap (h : BlockAllocator) (bin next prev : Nat) : (h.spliceOut bin next prev).bitmap =
    if (h.spliceOut bin next prev).bins bin = 0 then update h.bitmap bin false else h.bitmap := by
  unfold spliceOut
  dsimp only
  split_ifs <;> first | rfl | contradiction

end BlockAllocator

namespace Listed

/-- Only links of free blocks are written. -/
theorem unlinkFree_memory (hl : Listed h B L) (hsane : ∀ c u, B c = some u → u.use = .free → h.isPlausible c = true)
    (hb : B b = some t) (hfree : t.use = .free) {a : Nat}
    (ha : ∀ c u, B c = some u → u.use = .free → a ≠ c + 8 ∧ a ≠ c + 16) : (h.unlinkFree b t.size).memory a = h.memory a := by
  obtain ⟨hnext, hprev⟩ := hl.link_cases hb hfree
  have hp : h.prevLink b ≠ 0 → a ≠ h.prevLink b + 8 := fun hne => by
    obtain ⟨u, hu, hu'⟩ := hprev.resolve_left hne
    exact (ha _ u hu hu').1
  have hn : h.nextLink b ≠ 0 → a ≠ h.nextLink b + 16 := fun hne => by
    obtain ⟨u, hu, hu'⟩ := hnext.resolve_left hne
    exact (ha _ u hu hu').2
  rw [hl.unlinkFree_eq hsane hb hfree, BlockAllocator.spliceOut_memory]
  have hinner : (if h.prevLink b ≠ 0 then h.setNext (h.prevLink b) (h.nextLink b) else h).memory a = h.memory a := by
    split
    · rename_i hne
      exact update_of_ne (hp hne) ..
    · rfl
  split
  · rename_i hne
    exact (update_of_ne (hn hne) ..).trans hinner
  · exact hinner

/-- What `unlink_free` leaves. -/
theorem unlinkFree (hl : Listed h B L) (hshape : ∀ {c t}, B c = some t → t.Shape c)
    (hsane : ∀ c u, B c = some u → u.use = .free → h.isPlausible c = true) (hb : B b = some t) (hfree : t.use = .free) :
    ∃ L', Listed (h.unlinkFree b t.size) (update B b none) L' := by
  obtain ⟨l₁, l₂, heq, hprev, hnext⟩ := hl.neighbours hb hfree
  have hpos : ∀ {c}, c ∈ l₁ ++ b :: l₂ → 0 < c ∧ c % 16 = 0 := fun hc => hl.shape_of_mem hshape (heq ▸ hc)
  have hlast : l₁ ≠ [] → l₁.getLastD 0 ∈ l₁ ++ b :: l₂ := fun hne => mem_append_left _ (getLastD_mem hne)
  have hhead : l₂ ≠ [] → l₂.headD 0 ∈ l₁ ++ b :: l₂ := fun hne =>
    mem_append_right _ (mem_cons_of_mem _ (headD_mem hne))
  have hlast_iff : l₁.getLastD 0 ≠ 0 ↔ l₁ ≠ [] :=
    ⟨fun hne hnil => hne (by rw [hnil]; rfl), fun hne => ne_of_gt (hpos (hlast hne)).1⟩
  have hhead_iff : l₂.headD 0 ≠ 0 ↔ l₂ ≠ [] :=
    ⟨fun hne hnil => hne (by rw [hnil]; rfl), fun hne => ne_of_gt (hpos (hhead hne)).1⟩
  have hmod : l₁.getLastD 0 % 16 = 0 ∧ l₂.headD 0 % 16 = 0 := by
    constructor
    · by_cases hne : l₁ = []
      · rw [hne]
        rfl
      · exact (hpos (hlast hne)).2
    · by_cases hne : l₂ = []
      · rw [hne]
        rfl
      · exact (hpos (hhead hne)).2
  rw [hl.unlinkFree_eq hsane hb hfree, hprev, hnext]
  generalize hk : binFor t.size = k at heq
  -- the links of the blocks
  have hlinks : ∀ c, c % 16 = 0 → (h.spliceOut k (l₂.headD 0) (l₁.getLastD 0)).nextLink c =
        (if l₁ ≠ [] ∧ c = l₁.getLastD 0 then l₂.headD 0 else h.nextLink c) ∧
      (h.spliceOut k (l₂.headD 0) (l₁.getLastD 0)).prevLink c =
        (if l₂ ≠ [] ∧ c = l₂.headD 0 then l₁.getLastD 0 else h.prevLink c) := by
    intro c hc
    unfold nextLink prevLink
    rw [BlockAllocator.spliceOut_memory]
    simp only [hlast_iff, hhead_iff]
    have hodd : c + 8 ≠ l₂.headD 0 + 16 ∧ c + 16 ≠ l₁.getLastD 0 + 8 := by omega
    by_cases hp : l₁ ≠ [] <;> by_cases hn : l₂ ≠ [] <;>
      simp only [hp, hn, if_true, if_false, not_false_eq_true, true_and, false_and, ne_eq,
        setNext, setPrev, BlockAllocator.write, update_apply, hodd.1, hodd.2,
        add_right_cancel_iff, and_self]
  have hnodup := hl.nodup k
  rw [heq] at hnodup
  have hb₁ : b ∉ l₁ := fun hc => (nodup_append.mp hnodup).2.2 b hc b (mem_cons_self ..) rfl
  have hb₂ : b ∉ l₂ := (nodup_cons.mp (nodup_append.mp hnodup).2.1).1
  have hsub : ∀ {c}, c ∈ l₁ ∨ c ∈ l₂ → c ∈ l₁ ++ b :: l₂ := fun hc =>
    hc.elim (mem_append_left _) fun hc => mem_append_right _ (mem_cons_of_mem _ hc)
  have hheadD : ∀ {c}, l₂.head? = some c ↔ l₂ ≠ [] ∧ c = l₂.headD 0 := by
    intro c
    cases l₂ with
    | nil => exact ⟨fun hn => (nomatch hn), fun hn => absurd rfl hn.1⟩
    | cons d l => exact ⟨fun hn => ⟨cons_ne_nil _ _, (some.inj hn).symm⟩, fun hn => congrArg some hn.2.symm⟩
  have hbins : (h.spliceOut k (l₂.headD 0) (l₁.getLastD 0)).bins = update h.bins k ((l₁ ++ l₂).headD 0) := by
    rw [BlockAllocator.spliceOut_bins]
    have hfirst := hl.first k
    rw [heq] at hfirst
    cases l₁ with
    | nil => rfl
    | cons d l =>
      rw [if_pos (hlast_iff.mpr (cons_ne_nil _ _))]
      rw [cons_append, headD_cons] at hfirst ⊢
      rw [← hfirst, update_eq_self]
  have hlinked := hl.linked k
  rw [heq] at hlinked
  refine ⟨update L k (l₁ ++ l₂), hl.replace hbins (fun j hj => ?_) ?_ (hlinked.remove hnodup (fun hne => ?_) (fun c hc => ?_)
    (fun c hc hne => ?_) fun c hc hne => ?_) (hnodup.sublist ((List.Sublist.refl l₁).append (sublist_cons_self b l₂)))
    (fun j c hj hc => ?_) (fun c => ?_) fun c u hu hbin => ?_⟩
  · rw [BlockAllocator.spliceOut_bitmap]
    split
    · rw [update_of_ne hj]
    · rfl
  · rw [BlockAllocator.spliceOut_bitmap, hbins, update_self]
    by_cases hnil : l₁ ++ l₂ = []
    · rw [hnil, headD_nil, if_pos rfl, update_self]
      exact ⟨fun hn => (nomatch hn), fun hn => absurd rfl hn⟩
    · rw [if_neg (ne_of_gt (hpos (hsub (mem_append.mp (headD_mem hnil)))).1), hl.marked, heq]
      exact ⟨fun _ => hnil, fun _ => by simp⟩
  · rw [(hlinks _ hmod.1).1, if_pos ⟨hne, rfl⟩]
  · obtain ⟨hne, rfl⟩ := hheadD.mp hc
    rw [(hlinks _ hmod.2).2, if_pos ⟨hne, rfl⟩]
  · rw [(hlinks c (hpos (hsub hc)).2).1, if_neg fun hn => hne hn.1 hn.2]
  · rw [(hlinks c (hpos (hsub hc)).2).2, if_neg fun hn => hne (hheadD.mpr hn)]
  · have hc16 := (hl.shape_of_mem hshape hc).2
    have hother : ∀ {d}, d ∈ l₁ ++ b :: l₂ → c ≠ d := fun hd hcd => hj (hl.bin_eq hc (heq ▸ hcd ▸ hd))
    rw [(hlinks c hc16).1, (hlinks c hc16).2, if_neg fun hn => hother (hlast hn.1) hn.2,
      if_neg fun hn => hother (hhead hn.1) hn.2]
    exact ⟨rfl, rfl⟩
  · by_cases hc : c = b
    · rw [hc, update_self, mem_append]
      exact ⟨fun hmem => absurd hmem (not_or.mpr ⟨hb₁, hb₂⟩), fun ⟨u, hu, _⟩ => nomatch hu⟩
    · rw [update_of_ne hc, ← hl.mem, heq, mem_append, mem_append, mem_cons]
      exact or_congr_right ⟨.inr, fun hmem => hmem.resolve_left hc⟩
  · by_cases hc : c = b
    · rw [hc, update_self, hb]
      exact ⟨fun ht => (nomatch ht), fun ht => absurd (some.inj ht ▸ hk) hbin⟩
    · rw [update_of_ne hc]

end Listed

end Heap

end HamixOS.Kernel

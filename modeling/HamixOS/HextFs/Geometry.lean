import HamixOS.HextFs.State

namespace HamixOS.HextFs

open Lib Nat

/-!
# The layout of a volume

`Geometry` is the fixed layout `format` chooses: groups of `8 * bs` blocks, each beginning with an
optional copy of the superblock and of the group descriptors, then its two bitmaps and 256 blocks
of inodes.  Every metadata block is `G.place g r` for a group `g` and a place `r` inside it, so that
two of them are told apart by `place_inj`.
-/

/-- Whether group `g` keeps copies of the superblock and of the descriptors: the groups 0 and 1
and the powers of 3, 5 and 7.  `p` runs through the powers of `base`. -/
def isPowerOf (base g : Nat) : Nat → Nat → Bool
  | 0, p => p == g
  | fuel + 1, p =>
    if p < g then (if p * base < 2 ^ 32 then isPowerOf base g fuel (p * base) else p == g)
    else p == g

def isSparseGroup (g : Nat) : Bool :=
  g ≤ 1 || [3, 5, 7].any (fun base => isPowerOf base g 32 base)

/-- The fixed numbers of a volume, with what `format` guarantees about them. -/
structure Geometry where
  bs : Nat
  first : Nat
  gdt : Nat
  blocks : Nat
  groups : Nat
  shape : (bs = 1024 ∧ first = 1) ∨ (bs = 4096 ∧ first = 0)
  groups_pos : 0 < groups
  gdt_fits : groups * 32 ≤ gdt * bs
  gdt_small : gdt + 512 ≤ 8 * bs
  blocks_lt : blocks < 2 ^ 32
  blocks_le : blocks ≤ first + groups * (8 * bs)
  last_fits : first + (groups - 1) * (8 * bs)
    + ((if isSparseGroup (groups - 1) then 1 + gdt else 0) + 258 + 64) ≤ blocks

namespace Geometry

variable (G : Geometry)

/-- Blocks in a group. -/
def bpg : Nat := 8 * G.bs

/-- Inodes in a group. -/
def ipg : Nat := 2 * G.bs

/-- Inodes of the volume. -/
def inodes : Nat := G.ipg * G.groups

/-- Inodes in a block of an inode table. -/
def perBlock : Nat := G.bs / inodeSize

/-- The block at place `r` of group `g`. -/
def place (g r : Nat) : Nat := G.first + g * G.bpg + r

/-- The blocks before the bitmaps of group `g`. -/
def copies (g : Nat) : Nat := if isSparseGroup g then 1 + G.gdt else 0

/-- The blocks of group `g` that are never given to files. -/
def overhead (g : Nat) : Nat := G.copies g + 258

def blockBitmap (g : Nat) : Nat := G.place g (G.copies g)
def inodeBitmap (g : Nat) : Nat := G.place g (G.copies g + 1)
def inodeTable (g : Nat) : Nat := G.place g (G.copies g + 2)

/-- The group of a block, and its bit in the bitmap of that group. -/
def groupOf (b : Nat) : Nat := (b - G.first) / G.bpg
def bitOf (b : Nat) : Nat := (b - G.first) % G.bpg

/-- The group of an inode, and its index in it. -/
def inoGroup (i : Nat) : Nat := (i - 1) / G.ipg
def inoIndex (i : Nat) : Nat := (i - 1) % G.ipg

/-- The block of its inode table that holds inode `i`, the block on the volume, and the offset
of the inode there. -/
def inoPlace (i : Nat) : Nat := G.inoIndex i / G.perBlock
def inoBlock (i : Nat) : Nat := G.inodeTable (G.inoGroup i) + G.inoPlace i
def inoOffset (i : Nat) : Nat := G.inoIndex i % G.perBlock * inodeSize

/-- Blocks that belong to the volume and not to a file. -/
def Meta (b : Nat) : Prop := b < G.first ∨ G.bitOf b < G.overhead (G.groupOf b)

instance (b : Nat) : Decidable (G.Meta b) := by
  unfold Meta
  infer_instance

/-- Blocks that a bitmap speaks about. -/
def InRange (b : Nat) : Prop := G.first ≤ b ∧ b < G.blocks

/-- Blocks for files. -/
def Room (b : Nat) : Prop := G.InRange b ∧ ¬ G.Meta b

/-- Inode numbers of the volume. -/
def Ino (i : Nat) : Prop := 1 ≤ i ∧ i ≤ G.inodes

instance (b : Nat) : Decidable (G.InRange b) := by
  unfold InRange
  infer_instance

instance (b : Nat) : Decidable (G.Room b) := by
  unfold Room
  infer_instance

instance (i : Nat) : Decidable (G.Ino i) := by
  unfold Ino
  infer_instance

variable {G}

theorem bs_pos : 0 < G.bs := by
  have := G.shape
  omega

theorem bpg_pos : 0 < G.bpg := by
  have := G.bs_pos
  rw [bpg]
  omega

theorem ipg_pos : 0 < G.ipg := by
  have := G.bs_pos
  rw [ipg]
  omega

theorem bs_sectors : G.bs % sectorSize = 0 := by
  rcases G.shape with ⟨h, -⟩ | ⟨h, -⟩ <;> rw [h] <;> rfl

theorem perBlock_pos : 0 < G.perBlock := by
  rw [perBlock, inodeSize]
  rcases G.shape with ⟨h, -⟩ | ⟨h, -⟩ <;> rw [h] <;> omega

theorem perBlock_mul : G.perBlock * inodeSize = G.bs := by
  rw [perBlock, inodeSize]
  rcases G.shape with ⟨h, -⟩ | ⟨h, -⟩ <;> rw [h]

theorem ipg_eq : G.ipg = 256 * G.perBlock := by
  rw [ipg, perBlock, inodeSize]
  rcases G.shape with ⟨h, -⟩ | ⟨h, -⟩ <;> rw [h]

theorem copies_le (g : Nat) : G.copies g ≤ 1 + G.gdt := by
  rw [copies]
  split <;> omega

theorem overhead_lt (g : Nat) : G.overhead g + 64 ≤ G.bpg := by
  have hc := G.copies_le g
  have hg := G.gdt_small
  rw [overhead, bpg]
  omega

variable {g r : Nat}

theorem groupOf_place (h : r < G.bpg) : G.groupOf (G.place g r) = g := by
  rw [groupOf, Geometry.place, add_assoc, Nat.add_sub_cancel_left,
    add_comm, add_mul_div_right _ _ G.bpg_pos, div_eq_of_lt h, zero_add]

theorem bitOf_place (h : r < G.bpg) : G.bitOf (G.place g r) = r := by
  rw [bitOf, Geometry.place, add_assoc, Nat.add_sub_cancel_left,
    add_comm, add_mul_mod_self_right, mod_eq_of_lt h]

theorem bitOf_lt (b : Nat) : G.bitOf b < G.bpg := mod_lt _ G.bpg_pos

theorem place_groupOf_bitOf {b : Nat} (h : G.first ≤ b) : G.place (G.groupOf b) (G.bitOf b) = b := by
  have hdm := div_add_mod (b - G.first) G.bpg
  have hmul : (b - G.first) / G.bpg * G.bpg = G.bpg * ((b - G.first) / G.bpg) := mul_comm _ _
  rw [Geometry.place, groupOf, bitOf, hmul]
  omega

/-- A place determines its group and its offset. -/
theorem place_inj {g r g' r' : Nat} (hr : r < G.bpg) (hr' : r' < G.bpg) :
    G.place g r = G.place g' r' ↔ g = g' ∧ r = r' := by
  constructor
  · intro h
    have hg := congrArg G.groupOf h
    have hb := congrArg G.bitOf h
    rw [groupOf_place hr, groupOf_place hr'] at hg
    rw [bitOf_place hr, bitOf_place hr'] at hb
    exact ⟨hg, hb⟩
  · rintro ⟨rfl, rfl⟩
    rfl

theorem first_le_place (g r : Nat) : G.first ≤ G.place g r := by
  rw [Geometry.place]
  omega

/-- The metadata of a group lies on the volume, with room to spare. -/
theorem place_lt (hg : g < G.groups) (hr : r < G.overhead g + 64) :
    G.place g r < G.blocks := by
  have hlast := G.last_fits
  rcases lt_or_ge (g + 1) G.groups with hlt | hge
  · -- an earlier group ends where the next one begins
    have hover := G.overhead_lt g
    have hmul : (g + 1) * G.bpg ≤ (G.groups - 1) * G.bpg := mul_le_mul_right _ (by omega)
    rw [succ_mul] at hmul
    have hb : (G.groups - 1) * (8 * G.bs) = (G.groups - 1) * G.bpg := rfl
    rw [Geometry.place]
    omega
  · have heq : g = G.groups - 1 := by omega
    have hb : (G.groups - 1) * (8 * G.bs) = (G.groups - 1) * G.bpg := rfl
    rw [overhead, copies] at hr
    rw [Geometry.place, heq]
    rw [heq] at hr
    omega

theorem groupOf_lt {b : Nat} (h : G.InRange b) : G.groupOf b < G.groups := by
  obtain ⟨hlo, hhi⟩ := h
  have hle := G.blocks_le
  rw [groupOf, div_lt_iff_lt_mul G.bpg_pos]
  have hb : G.groups * (8 * G.bs) = G.groups * G.bpg := rfl
  omega

theorem inRange_place (hg : g < G.groups) (hr : r < G.overhead g + 64) :
    G.InRange (G.place g r) :=
  ⟨G.first_le_place g r, G.place_lt hg hr⟩

theorem meta_place (hr : r < G.overhead g) : G.Meta (G.place g r) := by
  have hover := G.overhead_lt g
  right
  rw [groupOf_place (by omega), bitOf_place (by omega)]
  exact hr

/-! ### Inode numbers -/

theorem inoGroup_lt {i : Nat} (h : G.Ino i) : G.inoGroup i < G.groups := by
  obtain ⟨hlo, hhi⟩ := h
  rw [inodes] at hhi
  rw [inoGroup, div_lt_iff_lt_mul G.ipg_pos, mul_comm]
  omega

theorem inoIndex_lt (i : Nat) : G.inoIndex i < G.ipg := mod_lt _ G.ipg_pos

theorem ino_eq {i : Nat} (h : 1 ≤ i) : G.inoGroup i * G.ipg + G.inoIndex i + 1 = i := by
  have hdm := div_add_mod (i - 1) G.ipg
  have hmul : (i - 1) / G.ipg * G.ipg = G.ipg * ((i - 1) / G.ipg) := mul_comm _ _
  rw [inoGroup, inoIndex, hmul]
  omega

/-- Inode numbers fit a pointer to them. -/
theorem ino_lt {i : Nat} (h : G.Ino i) : i < 2 ^ 32 := by
  have hhi := h.2
  have hlast := G.last_fits
  have hblocks := G.blocks_lt
  have hpos := G.groups_pos
  rw [inodes, ipg] at hhi
  have hmul : (G.groups - 1) * (8 * G.bs) = 8 * ((G.groups - 1) * G.bs) := by
    rw [mul_left_comm]
  have hsplit : 2 * G.bs * G.groups = 2 * ((G.groups - 1) * G.bs) + 2 * G.bs := by
    obtain ⟨k, hk⟩ : ∃ k, G.groups = k + 1 := ⟨G.groups - 1, by omega⟩
    rw [hk, Nat.add_sub_cancel, mul_assoc, mul_succ, mul_comm G.bs k, mul_add]
  have hbs : G.bs ≤ 4096 := by
    have := G.shape
    omega
  omega

theorem ino_inj {i j : Nat} (hi : 1 ≤ i) (hj : 1 ≤ j) (hg : G.inoGroup i = G.inoGroup j)
    (hk : G.inoIndex i = G.inoIndex j) : i = j := by
  rw [← G.ino_eq hi, ← G.ino_eq hj, hg, hk]

/-- The place of the block that holds inode `i`. -/
theorem inoBlock_eq (i : Nat) :
    G.inoBlock i = G.place (G.inoGroup i) (G.copies (G.inoGroup i) + 2 + G.inoPlace i) := by
  rw [inoBlock, inodeTable, Geometry.place, Geometry.place]
  omega

theorem inoPlace_lt (i : Nat) : G.inoPlace i < 256 := by
  have hlt := G.inoIndex_lt i
  rw [ipg_eq] at hlt
  exact (div_lt_iff_lt_mul G.perBlock_pos).mpr hlt

theorem inoOffset_le (i : Nat) : G.inoOffset i + inodeSize ≤ G.bs := by
  have hlt := mod_lt (G.inoIndex i) G.perBlock_pos
  have hmul := mul_le_mul_right inodeSize hlt
  rw [succ_mul, perBlock_mul] at hmul
  rw [inoOffset]
  exact hmul

/-- Two inodes in one block lie apart there. -/
theorem ino_apart {i j : Nat} (hi : 1 ≤ i) (hj : 1 ≤ j) (hne : i ≠ j)
    (hb : G.inoBlock i = G.inoBlock j) :
    G.inoOffset i + inodeSize ≤ G.inoOffset j ∨ G.inoOffset j + inodeSize ≤ G.inoOffset i := by
  have hover := G.overhead_lt (G.inoGroup i)
  have hover' := G.overhead_lt (G.inoGroup j)
  have hi' := G.inoPlace_lt i
  have hj' := G.inoPlace_lt j
  rw [overhead] at hover hover'
  rw [inoBlock_eq, inoBlock_eq, place_inj (by omega) (by omega)] at hb
  obtain ⟨hg, hk⟩ := hb
  rw [hg] at hk
  have hplace : G.inoPlace i = G.inoPlace j := by omega
  have hquot : G.inoIndex i / G.perBlock = G.inoIndex j / G.perBlock := hplace
  have hrem : G.inoIndex i % G.perBlock ≠ G.inoIndex j % G.perBlock := by
    intro hrem
    apply hne
    apply ino_inj hi hj hg
    rw [← div_add_mod (G.inoIndex i) G.perBlock, ← div_add_mod (G.inoIndex j) G.perBlock, hquot, hrem]
  rw [inoOffset, inoOffset]
  rcases lt_or_gt_of_ne hrem with hlt | hgt
  · left
    have hmul := mul_le_mul_right inodeSize hlt
    rw [succ_mul] at hmul
    exact hmul
  · right
    have hmul := mul_le_mul_right inodeSize hgt
    rw [succ_mul] at hmul
    exact hmul

theorem inoBlock_inRange {i : Nat} (h : G.Ino i) : G.InRange (G.inoBlock i) := by
  have hp := G.inoPlace_lt i
  rw [inoBlock_eq]
  exact G.inRange_place (G.inoGroup_lt h) (by rw [overhead]; omega)

theorem inoBlock_meta (i : Nat) : G.Meta (G.inoBlock i) := by
  have hp := G.inoPlace_lt i
  rw [inoBlock_eq]
  exact G.meta_place (by rw [overhead]; omega)

theorem blockBitmap_inRange {g : Nat} (h : g < G.groups) : G.InRange (G.blockBitmap g) :=
  G.inRange_place h (by rw [overhead]; omega)

theorem inodeBitmap_inRange {g : Nat} (h : g < G.groups) : G.InRange (G.inodeBitmap g) :=
  G.inRange_place h (by rw [overhead]; omega)

theorem blockBitmap_meta (g : Nat) : G.Meta (G.blockBitmap g) :=
  G.meta_place (by rw [overhead]; omega)

theorem inodeBitmap_meta (g : Nat) : G.Meta (G.inodeBitmap g) :=
  G.meta_place (by rw [overhead]; omega)

theorem blockBitmap_inj {g g' : Nat} : G.blockBitmap g = G.blockBitmap g' ↔ g = g' := by
  have h := G.overhead_lt g
  have h' := G.overhead_lt g'
  rw [overhead] at h h'
  rw [blockBitmap, blockBitmap, place_inj (by omega) (by omega)]
  constructor
  · exact fun h => h.1
  · rintro rfl
    exact ⟨rfl, rfl⟩

theorem blockBitmap_ne_inodeBitmap (g g' : Nat) : G.blockBitmap g ≠ G.inodeBitmap g' := by
  have h := G.overhead_lt g
  have h' := G.overhead_lt g'
  rw [overhead] at h h'
  rw [blockBitmap, inodeBitmap, Ne, place_inj (by omega) (by omega)]
  rintro ⟨rfl, hr⟩
  omega

theorem blockBitmap_ne_inoBlock (g i : Nat) : G.blockBitmap g ≠ G.inoBlock i := by
  have h := G.overhead_lt g
  have h' := G.overhead_lt (G.inoGroup i)
  have hp := G.inoPlace_lt i
  rw [overhead] at h h'
  rw [blockBitmap, inoBlock_eq, Ne, place_inj (by omega) (by omega)]
  rintro ⟨hg, hr⟩
  rw [hg] at hr
  omega

theorem inodeBitmap_ne_inoBlock (g i : Nat) : G.inodeBitmap g ≠ G.inoBlock i := by
  have h := G.overhead_lt g
  have h' := G.overhead_lt (G.inoGroup i)
  have hp := G.inoPlace_lt i
  rw [overhead] at h h'
  rw [inodeBitmap, inoBlock_eq, Ne, place_inj (by omega) (by omega)]
  rintro ⟨hg, hr⟩
  rw [hg] at hr
  omega

end Geometry

end HamixOS.HextFs

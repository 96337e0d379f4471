import HamixOS.HextFs.Build

namespace HamixOS.HextFs

open Lib Hext List Geometry

/-!
# How far an inode reaches

An inode names `Geometry.reach` blocks at most.  `Sys.buildPointers_reach` gives the outcome of
`buildPointers` for every list of blocks: within the reach the trees are read back as they were
built, beyond it building fails, when the trees are done or when the volume has no block left for
them.
-/

/-- The number of blocks an inode can name. -/
def Geometry.reach (G : Geometry) : Nat := 12 + G.bs / 4 + (G.bs / 4) ^ 2 + (G.bs / 4) ^ 3

namespace Sys

variable {e : Epoch} {s : Hext Disk}

/-- What is built over a list of blocks is read back as that list, with the blocks that were taken
    for it, each once. -/
theorem buildPointers_reach (h : Sys e s) (n : Inode) {blocks : List Nat} (direct : Bool)
    (hroom : ∀ b ∈ blocks, e.geometry.Room b) :
    Post (Hext.buildPointers n blocks direct) s
      (fun r s' => blocks.length ≤ e.geometry.reach ∧ ∃ ps, ps.Nodup ∧
        (∀ b, b ∈ ps ↔ (e.geometry.view s').used b = true ∧ (e.geometry.view s).used b = false) ∧
        r.2 = ps.length ∧
        ∀ n' : Inode, n'.block = r.1.block → divCeil n'.size e.geometry.bs = blocks.length →
          Post (Hext.blockListSplit n') s' (fun lists _ => lists = (blocks, ps)) (fun _ _ => False))
      (fun x s' => (x = .noSpace ∧ Full e s') ∨ (x = .tooLarge ∧ e.geometry.reach < blocks.length)) := by
  have hreach : e.geometry.reach = 12 + (pointerSlots.map fun x => (e.geometry.bs / 4) ^ x.2).sum := by
    simp only [Geometry.reach, pointerSlots, map_cons, map_nil, sum_cons, sum_nil]
    ring
  rw [hreach]
  refine (h.buildPointers_spec hroom).mono ?_ ?_
  · rintro ⟨n₁, count⟩ s' ⟨⟨ps, hp⟩, hlen⟩
    rw [length_drop] at hlen
    refine ⟨by omega, ps, hp.grows.nodup, fun b => ?_, hp.count, fun n' hblock hsize => ?_⟩
    · rw [hp.grows.used b, Bool.or_eq_true, decide_eq_true_eq]
      constructor
      · exact fun hb => ⟨.inr hb, hp.grows.free b hb⟩
      · rintro ⟨hu | hb, hfree⟩
        · rw [hu] at hfree
          cases hfree
        · exact hb
    · exact (hp.grows.sys.blockListSplit (hp.rep n' hblock hsize.symm) hroom hp.grows.room).mono
        (fun _ _ hr => hr.1) (fun _ _ hf => hf)
  · rintro x s' ⟨⟨rfl, m, hm, hfull⟩ | ⟨rfl, -⟩, hx⟩
    · exact .inl ⟨rfl, hfull⟩
    · have hlen := hx rfl
      rw [length_drop] at hlen
      exact .inr ⟨rfl, by omega⟩

/-- With every block in use there is none for a table. -/
theorem buildPointers_full (h : Sys e s) (hfull : ∀ b, e.geometry.InRange b → (e.geometry.view s).used b = true)
    (n : Inode) {blocks : List Nat} (direct : Bool) (hlong : 12 < blocks.length) :
    Post (Hext.buildPointers n blocks direct) s (fun _ _ => False) (fun x _ => x = .noSpace) := by
  have hnone : ∀ g : Nat, Post (Hext.allocBlock g) s (fun _ _ => False) (fun x _ => x = .noSpace) := by
    intro g
    refine (h.growBlock g).mono ?_ (fun _ _ hx => hx.1)
    rintro b s' ⟨hg, -⟩
    have hfree := hg.free b mem_cons_self
    rw [hfull b (hg.room b mem_cons_self).1] at hfree
    cases hfree
  have hrest : blocks.drop 12 ≠ [] := by
    apply ne_nil_of_length_pos
    rw [length_drop]
    omega
  refine Post.bind (Q := fun _ _ => False) ?_ (fun _ _ hx => hx) (fun _ _ hf => hf.elim)
  rw [pointerSlots, Hext.buildSlots, if_neg (fun hnil => hrest (List.isEmpty_iff.mp hnil))]
  refine Post.get (Post.bind (Q := fun _ _ => False) ?_ (fun _ _ hx => hx) (fun _ _ hf => hf.elim))
  rw [show 1 - 1 = 0 from rfl, Hext.buildLevel]
  exact Post.get (Post.bind (hnone _) (fun _ _ hx => hx) (fun _ _ hf => hf.elim))

end Sys

/-- Up to twelve blocks are named in the inode itself. -/
theorem buildPointers_direct (s : Hext Disk) (n : Inode) {blocks : List Nat} (direct : Bool)
    (hshort : blocks.length ≤ 12) :
    Hext.buildPointers n blocks direct s =
      .ok ({ n with block := blocks ++ List.replicate (15 - blocks.length) 0 }, 0) s := by
  unfold Hext.buildPointers
  rw [take_of_length_le hshort, drop_eq_nil_of_le hshort]
  rfl

/-! ### Volumes read off a disk -/

/-- The volume of layout `G` on a disk, with nothing cached and the counters of its bitmaps. -/
def opened (G : Geometry) (d : Bytes) : Hext Disk where
  dev := { data := d }
  bs := G.bs
  sb := []
  groups := (List.range G.groups).map fun g =>
    { blockBitmap := G.blockBitmap g
      inodeBitmap := G.inodeBitmap g
      inodeTable := G.inodeTable g
      freeBlocks := clearCount (slice d (G.blockBitmap g * G.bs) G.bs) G.bpg
      freeInodes := clearCount (slice d (G.inodeBitmap g * G.bs) G.bs) G.bpg
      usedDirs := 0 }
  blocksPerGroup := G.bpg
  inodesPerGroup := G.ipg
  firstDataBlock := G.first
  blocksCount := G.blocks
  inodesCount := G.inodes
  cache := ∅
  clean := ∅
  fresh := ∅
  freed := ∅
  journal := []
  nextSeq := 1
  replayed := false
  now := 0
  hint := 0

/-- An epoch that begins with the disk and keeps nothing. -/
def Epoch.opened (G : Geometry) (d : Bytes) : Epoch where
  geometry := G
  journal := []
  seq := 1
  sb := []
  kept := fun _ => False
  base := d
  log := []

theorem Epoch.geometry_opened (G : Geometry) (d : Bytes) : (Epoch.opened G d).geometry = G := rfl

theorem blk_opened (G : Geometry) (d : Bytes) (b : Nat) : (opened G d).blk b = slice d (b * G.bs) G.bs := by
  rw [blk]
  rfl

theorem group_opened (G : Geometry) (d : Bytes) {g : Nat} (hg : g < G.groups) :
    (opened G d).group g =
      { blockBitmap := G.blockBitmap g
        inodeBitmap := G.inodeBitmap g
        inodeTable := G.inodeTable g
        freeBlocks := clearCount (slice d (G.blockBitmap g * G.bs) G.bs) G.bpg
        freeInodes := clearCount (slice d (G.inodeBitmap g * G.bs) G.bs) G.bpg
        usedDirs := 0 } := by
  rw [group, opened, getD_eq_getElem?_getD, getElem?_map, getElem?_range hg]
  rfl

/-- A disk whose bitmaps mark the metadata and the padding is a volume. -/
theorem sys_opened {G : Geometry} {d : Bytes} (hlen : G.blocks * G.bs ≤ d.length)
    (hmeta : ∀ b, G.InRange b → G.Meta b → (G.view (opened G d)).used b = true)
    (hpad : ∀ g < G.groups, ∀ r < G.bpg, G.blocks ≤ G.place g r →
      bitAt (slice d (G.blockBitmap g * G.bs) G.bs) r = true)
    (hinodes : ∀ g < G.groups, ∀ k, G.ipg ≤ k → k < G.bpg →
      bitAt (slice d (G.inodeBitmap g * G.bs) G.bs) k = true) :
    Sys (Epoch.opened G d) (opened G d) where
  tame := ⟨G.bs_pos, G.bs_sectors, hlen, rfl, (fun _ _ hx => nomatch hx), (fun _ _ hx => nomatch hx)⟩
  lays := by
    refine ⟨rfl, rfl, rfl, rfl, rfl, rfl, ?_, ?_, ?_, ?_⟩
    · exact (length_map _).trans length_range
    · exact fun g hg => congrArg Group.blockBitmap (group_opened G d hg)
    · exact fun g hg => congrArg Group.inodeBitmap (group_opened G d hg)
    · exact fun g hg => congrArg Group.inodeTable (group_opened G d hg)
  journal := rfl
  seq := rfl
  sb := rfl
  now_lt := show 0 < 2 ^ 32 by decide
  cached := fun b x hx => by cases hx
  padBlocks := fun g hg r hr hle => by
    rw [blk_opened]
    exact hpad g hg r hr hle
  padInodes := fun g hg k hk hlt => by
    rw [blk_opened]
    exact hinodes g hg k hk hlt
  freeBlocks := fun g hg => by
    rw [blk_opened]
    exact congrArg Group.freeBlocks (group_opened G d hg)
  freeInodes := fun g hg => by
    rw [blk_opened]
    exact congrArg Group.freeInodes (group_opened G d hg)
  metaUsed := hmeta
  fresh := fun b hb => by cases hb
  kept := fun b _ hb => hb.elim
  wrote := ⟨[], rfl, rfl, fun io hio => by cases hio⟩

/-- A disk of ones. -/
def ones (G : Geometry) : Bytes := List.replicate (G.blocks * G.bs) 0xFF

section

variable (G : Geometry)

include G

theorem bitAt_ones {b i : Nat} (hb : b < G.blocks) (hi : i < G.bpg) :
    bitAt (slice (ones G) (b * G.bs) G.bs) i = true := by
  have hmul := Nat.mul_le_mul_right G.bs (Nat.succ_le_of_lt hb)
  rw [Nat.succ_mul] at hmul
  rw [bpg] at hi
  apply bitAt_of_full
  rw [byteAt, getD_eq_getElem?_getD, getElem?_slice, if_pos (by omega), ones,
    getElem?_replicate_of_lt (by omega)]
  rfl

theorem used_ones {b : Nat} (hb : G.InRange b) : (G.view (opened G (ones G))).used b = true := by
  rw [view_used_eq _ _ hb, blk_opened]
  exact bitAt_ones G (G.blockBitmap_inRange (G.groupOf_lt hb)).2 (G.bitOf_lt b)

/-- A volume with every block in use. -/
theorem sys_ones : Sys (Epoch.opened G (ones G)) (opened G (ones G)) := by
  refine sys_opened ?_ (fun b hb _ => used_ones G hb) ?_ ?_
  · rw [ones, length_replicate]
  · exact fun g hg r hr _ => bitAt_ones G (G.blockBitmap_inRange hg).2 hr
  · exact fun g hg k _ hlt => bitAt_ones G (G.inodeBitmap_inRange hg).2 hlt

theorem buildPointers_ones (n : Inode) {blocks : List Nat} (direct : Bool) (hlong : 12 < blocks.length) :
    Post (Hext.buildPointers n blocks direct) (opened G (ones G)) (fun _ _ => False) (fun x _ => x = .noSpace) :=
  (sys_ones G).buildPointers_full (fun _ hb => used_ones G hb) n direct hlong

end

/-- 2200 groups of 8192 blocks of 1024 bytes. -/
def wide : Geometry where
  bs := 1024
  first := 1
  gdt := 69
  blocks := 1 + 2200 * 8192
  groups := 2200
  shape := .inl ⟨rfl, rfl⟩
  groups_pos := by decide
  gdt_fits := by decide
  gdt_small := by decide
  blocks_lt := by decide
  blocks_le := by decide
  last_fits := by decide

/-- More blocks than an inode can name. -/
def many : List Nat := (List.range 2200).flatMap fun g => (List.range 7800).map fun r => wide.place g (332 + r)

theorem room_many : ∀ b ∈ many, wide.Room b := by
  intro b hb
  obtain ⟨g, hg, hb⟩ := mem_flatMap.mp hb
  obtain ⟨r, hr, rfl⟩ := mem_map.mp hb
  rw [mem_range] at hg hr
  have hcopies : wide.copies g ≤ 70 := wide.copies_le g
  have hbpg : wide.bpg = 8192 := rfl
  have hplace : wide.place g (332 + r) = 1 + g * 8192 + (332 + r) := rfl
  refine ⟨⟨wide.first_le_place g _, ?_⟩, ?_⟩
  · show _ < 1 + 2200 * 8192
    omega
  · rintro (hlt | hlt)
    · exact absurd (wide.first_le_place g (332 + r)) (by omega)
    · rw [groupOf_place (by omega), bitOf_place (by omega), overhead] at hlt
      omega

theorem nodup_many : many.Nodup := by
  have hbpg : wide.bpg = 8192 := rfl
  have hinj : ∀ g r g' r', r < 7800 → r' < 7800 → wide.place g (332 + r) = wide.place g' (332 + r') →
      g = g' ∧ r = r' := by
    intro g r g' r' hr hr' heq
    rw [place_inj (by omega) (by omega)] at heq
    omega
  refine nodup_flatMap.mpr ⟨fun g _ => ?_, ?_⟩
  · refine List.Nodup.map_on (fun r hr r' hr' heq => ?_) nodup_range
    exact (hinj g r g r' (mem_range.mp hr) (mem_range.mp hr') heq).2
  · refine nodup_range.imp fun {g g'} hne b hb hb' => ?_
    obtain ⟨r, hr, rfl⟩ := mem_map.mp hb
    obtain ⟨r', hr', heq⟩ := mem_map.mp hb'
    exact hne (hinj g r g' r' (mem_range.mp hr) (mem_range.mp hr') heq.symm).1

theorem length_many : many.length = 2200 * 7800 := by
  rw [many, length_flatMap]
  simp only [length_map, length_range, map_const', sum_replicate_nat]

/-- No pointer block is left for a list beyond the reach: building stops before it gets there. -/
theorem buildPointers_starves : Sys (Epoch.opened wide (ones wide)) (opened wide (ones wide)) ∧ many.Nodup ∧
    (∀ b ∈ many, wide.Room b) ∧ wide.reach < many.length ∧
    outcome (Hext.buildPointers {} many true) (opened wide (ones wide)) = .error .noSpace := by
  have hbs : wide.bs / 4 = 256 := rfl
  have hnodup := nodup_many
  have hroom := room_many
  have hlen := length_many
  generalize many = blocks at hnodup hroom hlen ⊢
  have hlong : wide.reach < blocks.length := by
    rw [hlen, Geometry.reach, hbs]
    decide
  have hstops := buildPointers_ones wide {} true (show 12 < blocks.length by omega)
  refine ⟨sys_ones wide, hnodup, hroom, hlong, Post.outcome (hstops.mono ?_ ?_)⟩
  · exact fun _ _ hf => hf.elim
  · exact fun _ _ hx => congrArg Except.error hx.symm

theorem buildPointers_reach_two :
    ∃ r s', Hext.buildPointers {} [400, 401] false (opened wide (ones wide)) = .ok r s' ∧
      ∃ ps, r.2 = ps.length ∧ ∀ n' : Inode, n'.block = r.1.block → divCeil n'.size wide.bs = 2 →
        Post (Hext.blockListSplit n') s' (fun lists _ => lists = ([400, 401], ps)) (fun _ _ => False) := by
  have hroom : ∀ b ∈ [400, 401], (Epoch.opened wide (ones wide)).geometry.Room b := by
    rw [Epoch.geometry_opened]
    decide
  have hreach := (sys_ones wide).buildPointers_reach {} false hroom
  rw [Epoch.geometry_opened] at hreach
  have hrun := buildPointers_direct (opened wide (ones wide)) {} false (show [400, 401].length ≤ 12 by decide)
  obtain ⟨-, ps, -, -, hcount, hread⟩ := hreach.ok hrun
  exact ⟨_, _, hrun, ps, hcount, hread⟩

end HamixOS.HextFs

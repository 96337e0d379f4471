import HamixOS.HextFs.Hostile

namespace HamixOS.HextFs

open Lib Guarded Checked Nat

/-!
# The images that cannot crash a mount

The conditions are read off the superblock alone.  `mount` checks less than the index arithmetic that
follows takes for granted: that the volume does not end before its first data block, and that the inodes
it counts are not more than its groups have.  `crash_free_iff` says that nothing else on the device matters.
-/

/-! ### The superblock of an image -/

namespace Superblock

variable (sb : Bytes)

def bs : Nat := 1024 * 2 ^ get32 sb 24

def inodesCount : Nat := get32 sb 0

def blocksCount : Nat := get32 sb 4

def firstDataBlock : Nat := get32 sb 20

def blocksPerGroup : Nat := get32 sb 32

def inodesPerGroup : Nat := get32 sb 40

def journalIno : Nat := get32 sb (hextOffset + 8)

def groupsCount : Nat := divCeil (blocksCount sb - firstDataBlock sb) (blocksPerGroup sb)

/-- The checks of `mount`, on a device of `size` bytes. -/
structure Accepted (size : Nat) : Prop where
  long : 2048 ≤ size
  magic : get16 sb 56 = ext2Magic ∧ get32 sb hextOffset = hextMagic
  log : get32 sb 24 ≤ 2
  record : get16 sb 88 = inodeSize
  blocks : 0 < blocksPerGroup sb
  inodes : 0 < inodesPerGroup sb
  fits : blocksCount sb * bs sb ≤ size / sectorSize * sectorSize

/-- Every block of the group descriptors is one of the volume. -/
def Described : Prop :=
  ∀ i < divCeil (groupsCount sb * 32) (bs sb), (firstDataBlock sb + 1 + i) % 2 ^ 32 < blocksCount sb

/-- An inode number that the volume accepts and none of its groups has. -/
def Untabled (ino : Nat) : Prop := groupsCount sb * inodesPerGroup sb < ino ∧ ino ≤ inodesCount sb

end Superblock

open Superblock

/-- Where the superblock stands. -/
def superblock (data : Bytes) : Bytes := slice data 1024 1024

/-- The volume on an image, its layout known and nothing else. -/
def laid (data : Bytes) (now : Nat) : Hext Disk :=
  { Hext.blank ({ data } : Disk) now with
    bs := bs (superblock data)
    sb := superblock data
    blocksPerGroup := blocksPerGroup (superblock data)
    inodesPerGroup := inodesPerGroup (superblock data)
    firstDataBlock := firstDataBlock (superblock data)
    blocksCount := blocksCount (superblock data)
    inodesCount := inodesCount (superblock data) }

variable {data : Bytes} {now : Nat}

theorem length_superblock (h : 2048 ≤ data.length) : (superblock data).length = 1024 := length_slice (by omega)

theorem read_superblock (h : 2048 ≤ data.length) :
    (Checked.lift (Hext.onDevice (BlockDevice.read 2 1024)) : GuardM Disk Bytes) (Hext.blank { data } now) =
      .ok (superblock data) (Hext.blank { data } now) := by
  have hread : BlockDevice.read 2 1024 ({ data } : Disk) = .ok (superblock data) ({ data } : Disk) := by
    show Disk.read 2 1024 _ = _
    unfold Disk.read
    rw [Hext.next_of_faults rfl]
    exact if_pos h
  unfold Checked.lift
  rw [Hext.onDevice_ok hread]
  rfl

/-- A device too short for a superblock is an error. -/
theorem mount_short (h : data.length < 2048) :
    Post mountBlank (Hext.blank ({ data } : Disk) now) (fun _ _ => False) (fun x _ => x.panics = false) := by
  have hread : BlockDevice.read 2 1024 ({ data } : Disk) = .error .io ({ data } : Disk) := by
    show Disk.read 2 1024 _ = _
    unfold Disk.read
    rw [Hext.next_of_faults rfl]
    exact if_neg (not_le.mpr h)
  have hcall : Hext.onDevice (BlockDevice.read 2 1024) (Hext.blank ({ data } : Disk) now) =
      .error .io (Hext.blank { data } now) := by
    unfold Hext.onDevice
    rw [show (Hext.blank ({ data } : Disk) now).dev = { data } from rfl, hread]
    rfl
  have hlift : (Checked.lift (Hext.onDevice (BlockDevice.read 2 1024)) : GuardM Disk Bytes) (Hext.blank { data } now) =
      .error (.error .io) (Hext.blank { data } now) := by
    unfold Checked.lift
    rw [hcall]
  unfold Post mountBlank
  rw [run_error hlift]
  rfl

/-- What `mount` comes to: an error of its own checks, the difference below zero that they do not rule
out, or the rest of the work on a volume whose layout is known. -/
theorem mount_post (h : 2048 ≤ data.length) {Q : Unit → Hext Disk → Prop} {E : Stop Error → Hext Disk → Prop}
    (hreject : ¬ Accepted (superblock data) data.length → ∀ e s, E (.error e) s)
    (hunder : blocksCount (superblock data) < firstDataBlock (superblock data) →
      Accepted (superblock data) data.length → ∀ s, E .underflow s)
    (hrest : firstDataBlock (superblock data) ≤ blocksCount (superblock data) → Accepted (superblock data) data.length →
      Post (mountVolume (groupsCount (superblock data)) (Superblock.journalIno (superblock data))) (laid data now) Q E) :
    Post mountBlank (Hext.blank ({ data } : Disk) now) Q E := by
  have hlen := length_superblock h
  have hoff : hextOffset = 768 := rfl
  unfold Post mountBlank
  rw [run_ok (read_superblock h)]
  refine post_word (by omega) (post_word (by omega) ?_)
  split_ifs with hmagic
  · exact hreject (fun ha => by rcases hmagic with h1 | h1; exacts [h1 ha.magic.1, h1 ha.magic.2]) _ _
  refine post_word (by omega) (post_word (by omega) ?_)
  split_ifs with hlog
  · exact hreject (fun ha => by rcases hlog with h1 | h1; exacts [not_lt.mpr ha.log h1, h1 ha.record]) _ _
  refine Post.get (post_word (by omega) (post_word (by omega) ?_))
  refine post_word (by omega) (post_word (by omega) ?_)
  split_ifs with hsize
  · refine hreject (fun ha => ?_) _ _
    rcases hsize with h1 | h1 | h1
    · exact absurd h1 ha.blocks.ne'
    · exact absurd h1 ha.inodes.ne'
    · exact not_lt.mpr ha.fits h1
  have ha : Accepted (superblock data) data.length := by
    simp only [not_or, Decidable.not_not, not_lt] at hmagic hlog hsize
    exact ⟨h, hmagic, hlog.1, hlog.2, pos_of_ne_zero hsize.1, pos_of_ne_zero hsize.2.1, hsize.2.2⟩
  by_cases hle : firstDataBlock (superblock data) ≤ blocksCount (superblock data)
  · refine post_minus hle (post_word (by omega) (post_word (by omega) ?_))
    exact Post.change (hrest hle ha)
  · have hminus : (Checked.minus (get32 (superblock data) 4) (get32 (superblock data) 20) : GuardM Disk Nat)
        (Hext.blank { data } now) = .error .underflow (Hext.blank { data } now) := by
      unfold Checked.minus
      exact congrFun (if_neg hle) _
    show Post (Checked.minus (get32 (superblock data) 4) (get32 (superblock data) 20) >>= _) _ _ _
    unfold Post
    rw [run_error hminus]
    exact hunder (not_le.mp hle) ha _

/-! ### Reading the tables -/

theorem held_laid (ha : Accepted (superblock data) data.length) : Held (laid data now) (laid data now) where
  bs := rfl
  groups := rfl
  inodesPerGroup := rfl
  firstDataBlock := rfl
  blocksCount := rfl
  inodesCount := rfl
  journal := rfl
  room := Nat.le_mul_of_pos_right 1024 (Nat.two_pow_pos _)
  narrow := getLE_lt 4 (superblock data) 4
  super := length_superblock ha.long
  cache b d hd := by cases hd
  clean b d hd := by cases hd

theorem tame_laid (ha : Accepted (superblock data) data.length) : Hext.Tame (laid data now) where
  bs_pos := mul_pos (by decide) (Nat.two_pow_pos _)
  bs_sectors := by
    show 1024 * 2 ^ _ % 512 = 0
    omega
  size := ha.fits.trans (div_mul_le_self _ _)
  faults := rfl
  cache b d hd := by cases hd
  clean b d hd := by cases hd

variable {c s : Hext Disk}

/-- On a disk without faults every block of the volume can be read. -/
theorem readBlocks_total (ht : Hext.Tame s) {block count : Nat} (hall : ∀ i < count, (block + i) % 2 ^ 32 < s.blocksCount) :
    Post (Guarded.readBlocks block count) s (fun _ _ => True) (fun _ _ => False) := by
  induction count generalizing s block with
  | zero => exact Post.pure trivial
  | succ count ih =>
    obtain ⟨data, s₁, hrun, -, hsame, ht₁⟩ := (Hext.readBlock_post ht (hall 0 (succ_pos _))).total
    have hlift : (Guarded.readBlock (block % 2 ^ 32) : GuardM Disk Bytes) s = .ok data s₁ := by
      unfold Guarded.readBlock Checked.lift
      rw [add_zero] at hrun
      rw [hrun]
    unfold Post Guarded.readBlocks
    rw [run_ok hlift]
    refine Post.bind (ih ht₁ fun i hi => ?_) (fun _ _ hx => hx) fun rest s₂ _ => Post.pure trivial
    rw [hsame.blocksCount, add_assoc, add_comm 1 i]
    exact hall (i + 1) (by omega)

theorem decodeGroup_total {gdt : Bytes} {o : Nat} (ho : o + 32 ≤ gdt.length) :
    Post (Guarded.decodeGroup gdt o : GuardM Disk Group) s (fun _ _ => True) (fun _ _ => False) := by
  refine post_word (by omega) (post_word (by omega) (post_word (by omega) ?_))
  refine post_word (by omega) (post_word (by omega) (post_word (by omega) ?_))
  exact Post.pure trivial

theorem loadGroups_total (ht : Hext.Tame s) (h : Held c s) {n : Nat}
    (hall : ∀ i < divCeil (n * 32) c.bs, (c.firstDataBlock + 1 + i) % 2 ^ 32 < c.blocksCount) :
    ∃ groups : List Group, ∃ s', Guarded.loadGroups n s = .ok () s' ∧ groups.length = n ∧ Held { c with groups } s' := by
  have htotal : Post (Guarded.loadGroups n) s (fun _ _ => True) (fun _ _ => False) := by
    refine Post.get ?_
    rw [h.bs, h.firstDataBlock]
    have hcount : ∀ i < divCeil (n * 32) c.bs, (c.firstDataBlock + 1 + i) % 2 ^ 32 < s.blocksCount := by
      rw [h.blocksCount]
      exact hall
    have hread := (readBlocks_total ht hcount).and
      (h.safe_readBlocks (c.firstDataBlock + 1) (divCeil (n * 32) c.bs))
    refine Post.bind hread (fun _ _ hx => hx.1) ?_
    rintro gdt s₁ ⟨-, hs₁, hlen, -⟩
    have hroom := h.room
    -- the blocks that were read hold `n` descriptors
    have hfit := Hext.le_divCeil_mul (n := n * 32) (d := c.bs) (by omega)
    refine Post.seq (post_mapM (I := fun _ => True) (P := fun _ => True) (fun g hg s' _ => ?_) trivial)
      fun groups s₂ _ => Post.change_last trivial
    refine (decodeGroup_total ?_).mono (fun _ _ _ => ⟨trivial, trivial⟩) fun _ _ hx => hx
    have hlt := List.mem_range.mp hg
    omega
  obtain ⟨u, s', hrun, -⟩ := htotal.total
  obtain ⟨-, groups, hlen, hheld⟩ := (h.loadGroups n).ok hrun
  exact ⟨groups, s', hrun, hlen, hheld⟩

/-! ### The inode numbers no group has -/

/-- The index into the table of groups is out of range. -/
theorem readInode_untabled {ino : Nat} (hpos : 0 < s.inodesPerGroup) (hlt : s.groups.length * s.inodesPerGroup < ino)
    (hle : ino ≤ s.inodesCount) : Guarded.readInode ino s = .error .outOfRange s := by
  have hindex : s.groups[(ino - 1) / s.inodesPerGroup]? = none :=
    List.getElem?_eq_none ((le_div_iff_mul_le hpos).mpr (by omega))
  have hloc : Guarded.inodeLocation ino s = .error .outOfRange s := by
    show (if ino = 0 ∨ s.inodesCount < ino then Checked.fail .corrupt else _ : GuardM Disk (Nat × Nat)) s = _
    rw [if_neg (by omega)]
    unfold Checked.minus
    rw [if_pos (by omega), pure_bind]
    refine run_error ?_
    unfold Checked.index
    rw [hindex]
    rfl
  exact run_error hloc

/-- A journal whose inode no group has: the descriptors are read, and the index that follows panics. -/
theorem mountVolume_untabled (ha : Accepted (superblock data) data.length) (hdesc : Described (superblock data))
    (hun : Untabled (superblock data) (Superblock.journalIno (superblock data))) :
    Post (mountVolume (groupsCount (superblock data)) (Superblock.journalIno (superblock data))) (laid data now)
      (fun _ _ => False) (fun x _ => x.panics = true) := by
  obtain ⟨groups, s₁, hrun, hlen, hheld⟩ := loadGroups_total (s := laid data now) (tame_laid ha) (held_laid ha) hdesc
  have hgroups : s₁.groups.length = groupsCount (superblock data) := by rw [hheld.groups, hlen]
  have hinode : Guarded.readInode (Superblock.journalIno (superblock data)) s₁ = .error .outOfRange s₁ := by
    refine readInode_untabled ?_ ?_ ?_
    · rw [hheld.inodesPerGroup]
      exact ha.inodes
    · rw [hgroups, hheld.inodesPerGroup]
      exact hun.1
    · rw [hheld.inodesCount]
      exact hun.2
  unfold Post mountVolume
  rw [run_ok hrun, run_error hinode]
  rfl

/-- Otherwise mounting ends well or with an error, and the volume has the layout of the superblock. -/
theorem mountVolume_tabled (ha : Accepted (superblock data) data.length)
    (hjournal : Described (superblock data) → ¬ Untabled (superblock data) (Superblock.journalIno (superblock data))) :
    Post (mountVolume (groupsCount (superblock data)) (Superblock.journalIno (superblock data))) (laid data now)
      (fun _ s => s.inodesCount = inodesCount (superblock data) ∧ s.inodesPerGroup = inodesPerGroup (superblock data) ∧
        s.groups.length = groupsCount (superblock data) ∧ ∃ c', Held c' s)
      (fun x _ => x.panics = false) := by
  refine (held_laid ha).mountVolume fun hdesc hle => ?_
  by_contra hlt
  exact hjournal hdesc ⟨not_le.mp hlt, hle⟩

/-- What a mounted volume has from its superblock. -/
theorem mounted {s : Hext Disk} (hm : mount ({ data } : Disk) now = .ok () s) :
    Accepted (superblock data) data.length ∧ s.inodesCount = inodesCount (superblock data) ∧
      s.inodesPerGroup = inodesPerGroup (superblock data) ∧ s.groups.length = groupsCount (superblock data) ∧
      ∃ c', Held c' s := by
  by_cases hlong : 2048 ≤ data.length
  swap
  · exact ((mount_short (not_le.mp hlong)).ok hm).elim
  refine (mount_post (Q := fun _ s => Accepted (superblock data) data.length ∧
    s.inodesCount = inodesCount (superblock data) ∧ s.inodesPerGroup = inodesPerGroup (superblock data) ∧
    s.groups.length = groupsCount (superblock data) ∧ ∃ c', Held c' s) (E := fun _ _ => True) hlong
    (fun _ _ _ => trivial) (fun _ _ _ => trivial) fun _ ha => ?_).ok hm
  by_cases hjournal : Described (superblock data) → ¬ Untabled (superblock data) (Superblock.journalIno (superblock data))
  · exact (mountVolume_tabled ha hjournal).mono (fun _ _ hs => ⟨ha, hs⟩) fun _ _ _ => trivial
  · rw [Classical.not_imp, not_not] at hjournal
    exact (mountVolume_untabled ha hjournal.1 hjournal.2).mono (fun _ _ hf => hf.elim) fun _ _ _ => trivial

/-- A superblock that passes the checks of `mount`, for a volume of three blocks and one group of eight inodes. -/
def craftedSuper (inodes first journal : Nat) : Bytes :=
  let sb := put32 (put32 (zeros 1024) 0 inodes) 4 3
  let sb := put32 (put32 (put32 sb 20 first) 32 8192) 40 8
  let sb := put16 (put16 sb 56 ext2Magic) 88 inodeSize
  put32 (put32 sb hextOffset hextMagic) (hextOffset + 8) journal

/-- An image that is all zeros but for its superblock. -/
def crafted (inodes first journal : Nat) : Bytes := zeros 1024 ++ craftedSuper inodes first journal ++ zeros 1024

end HamixOS.HextFs

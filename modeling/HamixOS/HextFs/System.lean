import HamixOS.HextFs.Geometry

namespace HamixOS.HextFs

open Lib

/-!
# What the metadata of a volume says, and what every step keeps

`Geometry.view` reads a volume through its caches: which blocks and inodes are marked used, the
inode records, the blocks of files, and the directory counts.  The operations are specified by
what they do to it.

`Sys e s` is the invariant of all of them.  The epoch `e` fixes what does not change between two
commits: the layout, the journal, the superblock, the content of the disk at the last commit and
the set of blocks that commit needs.  `Sys` says that the counters agree with the bitmaps, that
`fresh` and `freed` account for every kept block, and that the writes issued since the commit
avoid the kept blocks.
-/

/-- The metadata of a volume as functions. -/
@[ext] structure View where
  used : Nat → Bool
  iused : Nat → Bool
  inode : Nat → Inode
  data : Nat → Bytes
  dirs : Nat → Nat

/-- The layout recorded in a mounted volume is `G`. -/
structure Geometry.Lays {D : Type} [BlockDevice D] (G : Geometry) (s : Hext D) : Prop where
  bs : s.bs = G.bs
  bpg : s.blocksPerGroup = G.bpg
  ipg : s.inodesPerGroup = G.ipg
  first : s.firstDataBlock = G.first
  blocks : s.blocksCount = G.blocks
  inodes : s.inodesCount = G.inodes
  groups : s.groups.length = G.groups
  blockBitmap : ∀ g < G.groups, (s.group g).blockBitmap = G.blockBitmap g
  inodeBitmap : ∀ g < G.groups, (s.group g).inodeBitmap = G.inodeBitmap g
  inodeTable : ∀ g < G.groups, (s.group g).inodeTable = G.inodeTable g

/-- The metadata of `s` under the layout `G`. -/
def Geometry.view (G : Geometry) (s : Hext Disk) : View where
  used b := decide (G.InRange b) && bitAt (s.blk (G.blockBitmap (G.groupOf b))) (G.bitOf b)
  iused i := decide (G.Ino i) && bitAt (s.blk (G.inodeBitmap (G.inoGroup i))) (G.inoIndex i)
  inode i := if G.Ino i then Inode.decode (slice (s.blk (G.inoBlock i)) (G.inoOffset i) inodeSize)
    else Inode.empty
  data b := if G.Room b then s.blk b else []
  dirs g := if g < G.groups then (s.group g).usedDirs else 0

/-- What is fixed between two commits. -/
structure Epoch where
  geometry : Geometry
  journal : List Nat
  seq : Nat
  sb : Bytes
  /-- The blocks the last commit needs. -/
  kept : Nat → Prop
  /-- The content of the disk at the last commit, and what it had been sent by then. -/
  base : Bytes
  log : List Io

/-- The content of a disk after a call. -/
def Io.apply (d : Bytes) : Io → Bytes
  | .write sector buf => splice d (sector * sectorSize) buf
  | .flush => d

/-- A write of whole blocks of the volume, none of them kept. -/
def Io.Avoids (G : Geometry) (kept : Nat → Prop) (io : Io) : Prop :=
  ∃ b n buf, io = .write (b * (G.bs / sectorSize)) buf ∧ buf.length = n * G.bs ∧
    b + n ≤ G.blocks ∧ ∀ k < n, ¬ kept (b + k)

open Hext

/-- The invariant of the operations between two commits. -/
structure Sys (e : Epoch) (s : Hext Disk) : Prop where
  tame : Tame s
  lays : e.geometry.Lays s
  journal : s.journal = e.journal
  seq : s.nextSeq = e.seq
  sb : s.sb = e.sb
  now_lt : s.now < 2 ^ 32
  cached : ∀ b d, s.cache[b]? = some d → (e.geometry.view s).used b = true
  padBlocks : ∀ g < e.geometry.groups, ∀ r < e.geometry.bpg,
    e.geometry.blocks ≤ e.geometry.place g r →
    bitAt (s.blk (e.geometry.blockBitmap g)) r = true
  padInodes : ∀ g < e.geometry.groups, ∀ k, e.geometry.ipg ≤ k → k < e.geometry.bpg →
    bitAt (s.blk (e.geometry.inodeBitmap g)) k = true
  freeBlocks : ∀ g < e.geometry.groups,
    (s.group g).freeBlocks = clearCount (s.blk (e.geometry.blockBitmap g)) e.geometry.bpg
  freeInodes : ∀ g < e.geometry.groups,
    (s.group g).freeInodes = clearCount (s.blk (e.geometry.inodeBitmap g)) e.geometry.bpg
  metaUsed : ∀ b, e.geometry.InRange b → e.geometry.Meta b → (e.geometry.view s).used b = true
  fresh : ∀ b ∈ s.fresh, (e.geometry.view s).used b = true ∧ ¬ e.kept b
  kept : ∀ b, e.geometry.InRange b → e.kept b →
    ((e.geometry.view s).used b = true ∧ b ∉ s.fresh) ∨
    ((e.geometry.view s).used b = false ∧ b ∈ s.freed)
  wrote : ∃ t, s.dev.trace = e.log ++ t ∧ s.dev.data = t.foldl Io.apply e.base ∧
    ∀ io ∈ t, io.Avoids e.geometry e.kept

/-! ### What the view depends on -/

section Congr

variable {G : Geometry} {s s' : Hext Disk}

theorem view_used_congr (h : ∀ g < G.groups, s'.blk (G.blockBitmap g) = s.blk (G.blockBitmap g)) :
    (G.view s').used = (G.view s).used := by
  funext b
  simp only [Geometry.view]
  by_cases hb : G.InRange b
  · rw [h _ (G.groupOf_lt hb)]
  · simp [hb]

theorem view_iused_congr (h : ∀ g < G.groups, s'.blk (G.inodeBitmap g) = s.blk (G.inodeBitmap g)) :
    (G.view s').iused = (G.view s).iused := by
  funext i
  simp only [Geometry.view]
  by_cases hi : G.Ino i
  · rw [h _ (G.inoGroup_lt hi)]
  · simp [hi]

theorem view_inode_congr (h : ∀ i, G.Ino i → s'.blk (G.inoBlock i) = s.blk (G.inoBlock i)) :
    (G.view s').inode = (G.view s).inode := by
  funext i
  simp only [Geometry.view]
  by_cases hi : G.Ino i
  · rw [h i hi]
  · simp [hi]

theorem view_data_congr (h : ∀ b, G.Room b → s'.blk b = s.blk b) :
    (G.view s').data = (G.view s).data := by
  funext b
  simp only [Geometry.view]
  by_cases hb : G.Room b
  · rw [h b hb]
  · simp [hb]

theorem view_dirs_congr (h : ∀ g < G.groups, (s'.group g).usedDirs = (s.group g).usedDirs) :
    (G.view s').dirs = (G.view s).dirs := by
  funext g
  simp only [Geometry.view]
  by_cases hg : g < G.groups
  · rw [h g hg]
  · simp [hg]

theorem view_same (h : Same s s') : G.view s' = G.view s := by
  obtain ⟨c, rfl⟩ := h
  rfl

theorem view_data (G : Geometry) (s : Hext Disk) {b : Nat} (h : G.Room b) :
    (G.view s).data b = s.blk b := by
  simp [Geometry.view, h]

theorem view_used_eq (G : Geometry) (s : Hext Disk) {b : Nat} (h : G.InRange b) :
    (G.view s).used b = bitAt (s.blk (G.blockBitmap (G.groupOf b))) (G.bitOf b) := by
  simp [Geometry.view, h]

end Congr

/-! ### Groups of the table -/

theorem group_setGroup (s : Hext Disk) {g : Nat} (f : Group → Group) (hg : g < s.groups.length)
    (g' : Nat) : (s.setGroup g f).group g' = if g' = g then f (s.group g) else s.group g' := by
  simp only [Hext.group, Hext.setGroup, List.getD_eq_getElem?_getD, List.getElem?_modify]
  by_cases h : g' = g
  · subst h
    simp [hg]
  · simp [h, Ne.symm h]

theorem length_setGroup (s : Hext Disk) (g : Nat) (f : Group → Group) :
    (s.setGroup g f).groups.length = s.groups.length := by
  simp [Hext.setGroup]

/-- Changing the counters of a group keeps the layout. -/
theorem Geometry.Lays.setGroup {G : Geometry} {s : Hext Disk} (h : G.Lays s) {g : Nat}
    {f : Group → Group} (hg : g < G.groups)
    (hf : ∀ x, (f x).blockBitmap = x.blockBitmap ∧ (f x).inodeBitmap = x.inodeBitmap ∧
      (f x).inodeTable = x.inodeTable) : G.Lays (s.setGroup g f) := by
  have hlen : g < s.groups.length := by
    rw [h.groups]
    exact hg
  refine ⟨h.bs, h.bpg, h.ipg, h.first, h.blocks, h.inodes, ?_, ?_, ?_, ?_⟩
  · rw [length_setGroup]
    exact h.groups
  · intro g' hg'
    rw [group_setGroup s f hlen]
    split
    · rename_i heq
      rw [(hf _).1, heq]
      exact h.blockBitmap g hg
    · exact h.blockBitmap g' hg'
  · intro g' hg'
    rw [group_setGroup s f hlen]
    split
    · rename_i heq
      rw [(hf _).2.1, heq]
      exact h.inodeBitmap g hg
    · exact h.inodeBitmap g' hg'
  · intro g' hg'
    rw [group_setGroup s f hlen]
    split
    · rename_i heq
      rw [(hf _).2.2, heq]
      exact h.inodeTable g hg
    · exact h.inodeTable g' hg'

/-- The layout of a state with the same fixed fields. -/
theorem Geometry.Lays.congr {G : Geometry} {s s' : Hext Disk} (h : G.Lays s) (hbs : s'.bs = s.bs)
    (hbpg : s'.blocksPerGroup = s.blocksPerGroup) (hipg : s'.inodesPerGroup = s.inodesPerGroup)
    (hfirst : s'.firstDataBlock = s.firstDataBlock) (hblocks : s'.blocksCount = s.blocksCount)
    (hinodes : s'.inodesCount = s.inodesCount) (hgroups : s'.groups = s.groups) : G.Lays s' := by
  have hgroup : ∀ g, s'.group g = s.group g := by
    intro g
    rw [Hext.group, Hext.group, hgroups]
  refine ⟨hbs.trans h.bs, hbpg.trans h.bpg, hipg.trans h.ipg, hfirst.trans h.first,
    hblocks.trans h.blocks, hinodes.trans h.inodes, by rw [hgroups]; exact h.groups, ?_, ?_, ?_⟩
  · intro g hg
    rw [hgroup]
    exact h.blockBitmap g hg
  · intro g hg
    rw [hgroup]
    exact h.inodeBitmap g hg
  · intro g hg
    rw [hgroup]
    exact h.inodeTable g hg

/-! ### Steps that keep the invariant -/

namespace Sys

variable {e : Epoch} {s s' : Hext Disk}

theorem same (h : Sys e s) (hs : Same s s') (ht : Tame s') : Sys e s' := by
  obtain ⟨c, rfl⟩ := hs
  exact ⟨ht, h.lays.congr rfl rfl rfl rfl rfl rfl rfl, h.journal, h.seq, h.sb, h.now_lt, h.cached,
    h.padBlocks, h.padInodes, h.freeBlocks, h.freeInodes, h.metaUsed, h.fresh, h.kept, h.wrote⟩

/-- Reading a block of the volume. -/
theorem readBlock (h : Sys e s) {b : Nat} (hb : b < e.geometry.blocks) :
    Post (Hext.readBlock b) s (fun d s' => d = s.blk b ∧ Same s s' ∧ Sys e s')
      (fun _ _ => False) := by
  refine (readBlock_post h.tame (by rw [h.lays.blocks]; exact hb)).mono ?_ (fun _ _ hf => hf)
  rintro d s' ⟨rfl, hs, ht⟩
  exact ⟨rfl, hs, h.same hs ht⟩

theorem length_blk (h : Sys e s) {b : Nat} (hb : b < e.geometry.blocks) :
    (s.blk b).length = e.geometry.bs := by
  rw [h.tame.length_blk (by rw [h.lays.blocks]; exact hb), h.lays.bs]

/-- Staging a block of a file. -/
theorem stageData (h : Sys e s) {b : Nat} {d : Bytes} (hroom : e.geometry.Room b)
    (hused : (e.geometry.view s).used b = true) (hd : d.length = e.geometry.bs) :
    Sys e (s.staged b d) ∧ e.geometry.view (s.staged b d)
      = { e.geometry.view s with data := Function.update (e.geometry.view s).data b d } := by
  have hne : ∀ b', e.geometry.Meta b' → b' ≠ b := by
    rintro b' hmeta rfl
    exact hroom.2 hmeta
  have hblk : ∀ b', e.geometry.Meta b' → (s.staged b d).blk b' = s.blk b' := by
    intro b' hmeta
    rw [blk_staged, if_neg (hne b' hmeta)]
  have hview : e.geometry.view (s.staged b d)
      = { e.geometry.view s with data := Function.update (e.geometry.view s).data b d } := by
    apply View.ext
    · exact view_used_congr (fun g _ => hblk _ (e.geometry.blockBitmap_meta g))
    · exact view_iused_congr (fun g _ => hblk _ (e.geometry.inodeBitmap_meta g))
    · exact view_inode_congr (fun i _ => hblk _ (e.geometry.inoBlock_meta i))
    · funext b'
      show (if e.geometry.Room b' then (s.staged b d).blk b' else []) = _
      by_cases hb' : b' = b
      · subst hb'
        simp [hroom, blk_staged]
      · simp [blk_staged, hb', Geometry.view]
    · exact view_dirs_congr (fun g _ => rfl)
  have hused' : (e.geometry.view (s.staged b d)).used = (e.geometry.view s).used := by rw [hview]
  have hbb : ∀ g, (s.staged b d).blk (e.geometry.blockBitmap g) = s.blk (e.geometry.blockBitmap g) :=
    fun g => hblk _ (e.geometry.blockBitmap_meta g)
  have hib : ∀ g, (s.staged b d).blk (e.geometry.inodeBitmap g) = s.blk (e.geometry.inodeBitmap g) :=
    fun g => hblk _ (e.geometry.inodeBitmap_meta g)
  refine ⟨⟨?_, h.lays.congr rfl rfl rfl rfl rfl rfl rfl, h.journal, h.seq, h.sb, h.now_lt,
    ?_, ?_, ?_, ?_, ?_, ?_, ?_, ?_, h.wrote⟩, hview⟩
  · exact h.tame.staged (by rw [h.lays.blocks]; exact hroom.1.2) (by rw [hd, h.lays.bs])
  · intro b' d' hget
    rw [hused']
    simp only [Hext.staged, Std.TreeMap.getElem?_insert] at hget
    by_cases hbb' : b = b'
    · rw [← hbb']
      exact hused
    · rw [if_neg (by simpa using hbb')] at hget
      exact h.cached b' d' hget
  · intro g hg r hr hle
    rw [hbb]
    exact h.padBlocks g hg r hr hle
  · intro g hg k hk hk'
    rw [hib]
    exact h.padInodes g hg k hk hk'
  · intro g hg
    rw [hbb]
    exact h.freeBlocks g hg
  · intro g hg
    rw [hib]
    exact h.freeInodes g hg
  · rw [hused']
    exact h.metaUsed
  · rw [hused']
    exact h.fresh
  · rw [hused']
    exact h.kept

end Sys

end HamixOS.HextFs
